import RoseChain.Server.AddressSteps

namespace RoseChain
open Lib AddressManager
variable {A : Placement} {d : ℤ} {X : ℕ → Prop} {s s' : AddressManager} {id : ℕ} {info : ExtendedPeerInfo}

/-- Every structure of the manager agrees with every other. -/
def Ordered (A : Placement) (s : AddressManager) : Prop := Linked A 0 (fun _ => False) s

/-- An operation keeps the order, and fails only with a `ValueError`. -/
def Orderly (A : Placement) {α : Type} (m : AddressM α) : Prop :=
  Eff.Triple (Ordered A) m (fun _ => Ordered A) (fun e s => Ordered A s ∧ e = .raised .value)

theorem Linked.touch (h : Linked A d X s) {f : ExtendedPeerInfo → ExtendedPeerInfo}
    (hf : ∀ i,(f i).bare=i.bare) (hpos : ∀ i,(f i).randomPos=i.randomPos) : Linked A d X (s.update id f) := by
  refine ⟨h.positions.update hpos,h.tables.congr ?_⟩
  exact ⟨view_update_bare hf,rfl,rfl,rfl,rfl,rfl,rfl,rfl,rfl,rfl,rfl⟩

theorem Ordered.weaken (h : Ordered A s) : Linked A 0 X s := by
  refine ⟨h.positions,h.tables.settle ?_⟩
  intro k i _ hk
  exact hk.elim

theorem find_eq_some {addr : PeerInfo} (h : s.find addr=some (info,id)) : s.mapInfo.get? id=some info := by
  unfold AddressManager.find at h
  obtain ⟨k,-,h⟩ := Option.bind_eq_some_iff.mp h
  obtain ⟨i,hi,h⟩ := Option.bind_eq_some_iff.mp h
  obtain ⟨rfl,rfl⟩ := Prod.mk.inj (Option.some.inj h)
  exact hi

namespace AddressManager

variable {α : Type}

theorem orderly_of_run {m : AddressM α}
    (h : ∀ s,Ordered A s → ∃ a s',m s=(.ok a,s') ∧ Ordered A s') : Orderly A m := by
  intro s hs
  obtain ⟨a,s',hrun,hs'⟩ := h s hs
  rw [hrun]
  exact hs'

variable (info) in
theorem mayTake_run (h : Linked A d X s) (c : ℕ × ℕ) (now : ℚ) : ∃ b,mayTake info c now s=(.ok b,s) := by
  unfold mayTake
  rw [Eff.bind_get]
  cases hc : s.newMatrix c with
  | none => exact ⟨true,rfl⟩
  | some k =>
    obtain ⟨-,j,hj,-⟩ := h.tables.newCell c k hc
    obtain ⟨i,hget,-⟩ := view_eq_some hj
    have hlookup : (Eff.lift (lookup (s.mapInfo.get? k)) : AddressM ExtendedPeerInfo) s=(.ok i,s) := by
      rw [hget]
      rfl
    exact ⟨_,Eff.bind_of_ok hlookup _⟩

theorem place_run (h : Linked A 0 (fun k => k=id) s) (hget : s.mapInfo.get? id=some info)
    (hun : info.isTried=false) (hlimit : info.refCount<NEW_BUCKETS_PER_ADDRESS) {bucket : ℕ}
    (hb : bucket<NEW_BUCKET_COUNT) (now : ℚ) :
    ∃ s',place id info (info.newCell A s.key bucket) now s=(.ok (),s') ∧ Ordered A s' := by
  set c := info.newCell A s.key bucket with hcdef
  have hi := view_of_get? hget
  have hcell : c=info.bare.newCell A s.key c.1 := rfl
  unfold place
  rw [Eff.bind_get]
  by_cases hc : s.newMatrix c=some id
  · rw [if_pos hc]
    refine ⟨s,rfl,h.positions,h.tables.settle ?_⟩
    rintro k i hk rfl - -
    exact (h.tables.cell hc hk).2.2
  · rw [if_neg hc]
    obtain ⟨b,hmay⟩ := mayTake_run info h c now
    rw [Eff.bind_of_ok hmay]
    cases b with
    | true =>
      obtain ⟨s₁,hclear,h₁,hkept₁,hmatrix₁,hview₁⟩ := clearNew_run h c
      have hi₁ : s₁.view id=some info.bare := by rw [hview₁ id hc,hi]
      have hfree : s₁.newMatrix c=none := by rw [hmatrix₁,Function.update_self]
      set s₂ := (s₁.update id fun info => { info with refCount := info.refCount+1 }).setNewMatrix c (some id)
      have hview₂ : s₂.view=Function.update s₁.view id (some { info.bare with refCount := info.bare.refCount+1 }) :=
        view_update (g := fun i => { i with refCount := i.refCount+1 }) (fun _ => rfl) hi₁
      have htables : PeerTables A 0 (fun k => k=id ∨ k=id) s₂ := by
        apply h₁.tables.recell (f := fun i => { i with refCount := i.refCount+1 })
          (g := fun i => { i with refCount := i.refCount+1 }) (c := c) (v := some id) hi₁
          (fun _ => rfl) rfl hun hun (mem_newCells hb)
        · intro k hk
          rw [hfree] at hk
          cases hk
        · intro k hk
          refine ⟨(Option.some.inj hk).symm,hb,?_⟩
          rw [hkept₁.key]
          exact hcell
        · rw [if_neg (by rw [hfree]; simp),if_pos rfl]
          show info.refCount+1+0=info.refCount+1
          omega
        · show info.refCount+1≤NEW_BUCKETS_PER_ADDRESS
          omega
      have hpositions : Positions s₂ := by
        have hup : Positions (s₁.update id fun info => { info with refCount := info.refCount+1 }) :=
          h₁.positions.update fun _ => rfl
        exact ⟨hup.index,hup.placed⟩
      refine ⟨s₂,?_,hpositions,htables.settle ?_⟩
      · rw [if_pos rfl,Eff.bind_of_ok hclear]
        rfl
      · intro k i hk hX _ _
        obtain rfl : k=id := hX.elim (fun h => h) fun h => h
        have hnat := h₁.tables.refCount k info.bare hi₁
        rw [hview₂,Function.update_self] at hk
        rw [← Option.some.inj hk]
        show 0 < info.bare.refCount+1
        omega
    | false =>
      rw [if_neg Bool.false_ne_true]
      by_cases hzero : info.refCount=0
      · obtain ⟨s₁,hrun,h₁,-,-,hview₁⟩ := deleteNewEntry_run h hi hun hzero
        refine ⟨s₁,?_,h₁.positions,h₁.tables.settle ?_⟩
        · rw [if_pos hzero]
          exact hrun
        · rintro k i hk rfl - -
          rw [hview₁,Function.update_self] at hk
          cases hk
      · refine ⟨s,?_,h.positions,h.tables.settle ?_⟩
        · rw [if_neg hzero]
          rfl
        · rintro k i hk rfl - -
          have hnat := h.tables.refCount k i hk
          rw [hi] at hk
          have hne : i.refCount≠0 := by
            rw [← Option.some.inj hk]
            exact hzero
          omega

section
variable (addr : TimestampedPeerInfo)

section
variable (penalty : ℤ)

theorem refreshed_bare (now : ℚ) (i : ExtendedPeerInfo) :
    (refreshed addr penalty now i).bare=i.bare := by
  unfold refreshed
  dsimp only
  split_ifs <;> rfl

theorem refreshed_randomPos (now : ℚ) (i : ExtendedPeerInfo) :
    (refreshed addr penalty now i).randomPos=i.randomPos := by
  unfold refreshed
  dsimp only
  split_ifs <;> rfl

theorem refreshed_isTried (now : ℚ) (i : ExtendedPeerInfo) :
    (refreshed addr penalty now i).isTried=i.isTried := by
  unfold refreshed
  dsimp only
  split_ifs <;> rfl

theorem refreshed_refCount (now : ℚ) (i : ExtendedPeerInfo) :
    (refreshed addr penalty now i).refCount=i.refCount := by
  unfold refreshed
  dsimp only
  split_ifs <;> rfl

end

end

theorem mapAddr_of_find (h : Ordered A s) {addr : PeerInfo} (hfind : s.find addr=none) :
    s.mapAddr.get? addr.host=none := by
  cases hget : s.mapAddr.get? addr.host with
  | none => rfl
  | some k =>
    obtain ⟨j,hj,-⟩ := (h.tables.address _ k).mp hget
    obtain ⟨i,hi,-⟩ := view_eq_some hj
    unfold AddressManager.find at hfind
    rw [hget] at hfind
    simp [hi] at hfind

theorem create_positions (h : Ordered A s) (addr : TimestampedPeerInfo) (src : Option PeerInfo) :
    Positions (create addr src s) := by
  have hget (k : ℕ) : (create addr src s).mapInfo.get? k=if s.idCount+1=k then
      some { ExtendedPeerInfo.new addr src with randomPos := some s.randomPos.length }
      else s.mapInfo.get? k := Dict.get?_set ..
  have hpos (k : ℕ) : (create addr src s).posOf k =
      if s.idCount+1=k then some s.randomPos.length else s.posOf k := by
    unfold posOf
    rw [hget]
    split_ifs <;> rfl
  have hold {i k : ℕ} (hk : s.posOf k=some i) : s.idCount+1≠k ∧ i<s.randomPos.length := by
    have hat := (h.positions.posOf i k).mpr hk
    obtain ⟨info,hi,-⟩ := (h.positions.index i k).mp hat
    have hle := h.tables.fresh k _ (view_of_get? hi)
    exact ⟨by omega,(List.getElem?_eq_some_iff.mp hat).1⟩
  apply positions_of_posOf
  · intro i k
    rw [hpos]
    show (s.randomPos++[s.idCount+1])[i]?=some k ↔ _
    rcases Nat.lt_trichotomy i s.randomPos.length with hlt | heq | hgt
    · rw [List.getElem?_append_left hlt,h.positions.posOf]
      constructor
      · intro hk
        rw [if_neg (hold hk).1,hk]
      · intro hk
        split_ifs at hk with he
        · have hi := Option.some.inj hk
          omega
        · exact hk
    · rw [heq,List.getElem?_concat_length]
      constructor
      · intro hk
        rw [if_pos (Option.some.inj hk)]
      · intro hk
        split_ifs at hk with he
        · rw [he]
        · have hlt := (hold hk).2
          omega
    · rw [List.getElem?_eq_none (by simp; omega)]
      constructor
      · intro hk
        cases hk
      · intro hk
        split_ifs at hk
        · have hi := Option.some.inj hk
          omega
        · have hlt := (hold hk).2
          omega
  · intro k info hk
    rw [hget] at hk
    split_ifs at hk
    · rw [← Option.some.inj hk]
      exact ⟨_,rfl⟩
    · exact h.positions.placed k info hk

theorem addAgain_run (hs : Ordered A s) (addr : TimestampedPeerInfo) (hget : s.mapInfo.get? id=some info)
    (penalty : ℤ) (now now' : ℚ) (source : Option PeerInfo) (hun : info.isTried=false)
    (hlimit : info.refCount≠NEW_BUCKETS_PER_ADDRESS) :
    ∃ s',place id (refreshed addr penalty now info) ((refreshed addr penalty now info).newCell A s.key
      ((refreshed addr penalty now info).getNewBucket A s.key source)) now'
        (s.update id (refreshed addr penalty now))=(.ok (),s') ∧ Ordered A s' := by
  have hun' := refreshed_isTried addr penalty now info
  have href := refreshed_refCount addr penalty now info
  have htouched : Ordered A (s.update id (refreshed addr penalty now)) :=
    hs.touch (refreshed_bare addr penalty now) (refreshed_randomPos addr penalty now)
  have hget' : (s.update id (refreshed addr penalty now)).mapInfo.get? id=some (refreshed addr penalty now info) := by
    rw [update_get?,hget,Option.map_some,if_pos rfl]
  have hle := hs.tables.limit id _ (view_of_get? hget)
  have hle' : info.refCount≤NEW_BUCKETS_PER_ADDRESS := hle
  exact place_run htouched.weaken hget' (hun'.trans hun) (by omega) (getNewBucket_lt _ _ _) now'

theorem addFirst_run (hs : Ordered A s) (addr : TimestampedPeerInfo) (hnew : s.mapAddr.get? addr.host=none)
    (source : Option PeerInfo) (penalty : ℤ) (now' : ℚ) :
    let s₁ := create addr source s
    let s₂ := { (s₁.update s₁.idCount fun info => { info with timestamp := max 0 (info.timestamp-penalty) }) with
      newCount := s₁.newCount+1 }
    ∃ info s',s₂.mapInfo.get? s₂.idCount=some info ∧ place s₂.idCount info
      (info.newCell A s₂.key (info.getNewBucket A s₂.key source)) now' s₂=(.ok (),s') ∧ Ordered A s' := by
  intro s₁ s₂
  have h₁ : Linked A 1 (fun k => False ∨ k=s.idCount+1) s₁ := by
    refine ⟨create_positions hs addr source,?_⟩
    have htables := hs.tables.create addr source hnew
    rwa [zero_add] at htables
  have htouched : Linked A 1 (fun k => False ∨ k=s.idCount+1)
      (s₁.update s₁.idCount fun info => { info with timestamp := max 0 (info.timestamp-penalty) }) :=
    h₁.touch (fun _ => rfl) fun _ => rfl
  have h₂ : Linked A 0 (fun k => k=s₂.idCount) s₂ := by
    refine ⟨⟨htouched.positions.index,htouched.positions.placed⟩,?_⟩
    have hcounted : PeerTables A 0 (fun k => False ∨ k=s.idCount+1) s₂ := by
      apply htouched.tables.recount
      show s₁.newCount+1+0=s₁.newCount+1
      omega
    apply hcounted.settle
    intro k i _ hX hno
    exact absurd (hX.resolve_left id) hno
  have hget₁ : s₁.mapInfo.get? s₁.idCount =
      some { ExtendedPeerInfo.new addr source with randomPos := some s.randomPos.length } :=
    Dict.get?_set_self ..
  have hget₂ : s₂.mapInfo.get? s₂.idCount=(s₁.mapInfo.get? s₁.idCount).map fun info =>
      if s₁.idCount=s₁.idCount then { info with timestamp := max 0 (info.timestamp-penalty) } else info :=
    update_get? ..
  rw [hget₁,Option.map_some,if_pos rfl] at hget₂
  have hlimit : (0 : ℤ)<NEW_BUCKETS_PER_ADDRESS := by decide
  obtain ⟨s',hrun,hs'⟩ := place_run h₂ hget₂ rfl hlimit (getNewBucket_lt _ s₂.key source) now'
  exact ⟨_,s',hget₂,hrun,hs'⟩

theorem addToNewTable_orderly (addr : TimestampedPeerInfo) (source : Option PeerInfo) (penalty : ℤ) (now now' : ℚ)
    (roll : ℕ) : Orderly A (addToNewTable A addr source penalty now now' roll) := by
  apply orderly_of_run
  intro s hs
  unfold addToNewTable
  rw [Eff.bind_get]
  by_cases hvalid : ¬ A.isValid ⟨addr.host,addr.port⟩ s.allowPrivateSubnets
  · rw [if_pos hvalid]
    exact ⟨false,s,rfl,hs⟩
  rw [if_neg hvalid]
  cases hfind : s.find ⟨addr.host,addr.port⟩ with
  | some p =>
    obtain ⟨info,id⟩ := p
    have hget := find_eq_some hfind
    dsimp only
    generalize (if info.peerInfo=⟨addr.host,addr.port⟩ then (0 : ℤ) else penalty)=penalty'
    have htouched : Ordered A (s.update id (refreshed addr penalty' now)) :=
      hs.touch (refreshed_bare addr penalty' now) (refreshed_randomPos addr penalty' now)
    have htried := refreshed_isTried addr penalty' now info
    have href := refreshed_refCount addr penalty' now info
    have hmodify : (Eff.modify (update id (refreshed addr penalty' now)) : AddressM Unit) s =
        (.ok (),s.update id (refreshed addr penalty' now)) := rfl
    rw [Eff.bind_of_ok hmodify]
    split_ifs with h₁ h₂ h₃ h₄
    · exact ⟨false,_,rfl,htouched⟩
    · exact ⟨false,_,rfl,htouched⟩
    · exact ⟨false,_,rfl,htouched⟩
    · exact ⟨false,_,rfl,htouched⟩
    · rw [htried,Bool.not_eq_true] at h₂
      rw [href] at h₃
      obtain ⟨s',hrun,hs'⟩ := addAgain_run hs addr hget penalty' now now' source h₂ h₃
      exact ⟨false,s',Eff.bind_of_ok hrun _,hs'⟩
  | none =>
    obtain ⟨info,s',hget,hrun,hs'⟩ := addFirst_run hs addr (mapAddr_of_find hs hfind) source penalty now'
    refine ⟨true,s',?_,hs'⟩
    dsimp only
    have hcreate : (Eff.modify (create addr source) : AddressM Unit) s=(.ok (),create addr source s) := rfl
    set s₁ := create addr source s
    set s₂ : AddressManager := { (s₁.update s₁.idCount fun info =>
      { info with timestamp := max 0 (info.timestamp-penalty) }) with newCount := s₁.newCount+1 }
    have hcount : (Eff.modify fun s => { (s.update s.idCount fun info =>
        { info with timestamp := max 0 (info.timestamp-penalty) }) with newCount := s.newCount+1 } :
        AddressM Unit) s₁=(.ok (),s₂) := rfl
    have hlookup : (Eff.lift (lookup (s₂.mapInfo.get? s₂.idCount)) : AddressM ExtendedPeerInfo) s₂ =
        (.ok info,s₂) := by
      rw [hget]
      rfl
    rw [Eff.bind_of_ok hcreate,Eff.bind_of_ok hcount,Eff.bind_get,Eff.bind_of_ok hlookup,Eff.bind_of_ok hrun]
    rfl

theorem markGood_run (hs : Ordered A s) (addr : PeerInfo) (testBeforeEvict : Bool) (timestamp : ℤ)
    (bucketRand : ℕ) : ∃ s',markGood A addr testBeforeEvict timestamp bucketRand s=(.ok (),s') ∧ Ordered A s' := by
  set s₁ : AddressManager := { s with lastGood := timestamp }
  have h₁ : Ordered A s₁ := ⟨⟨hs.positions.index,hs.positions.placed⟩,
    hs.tables.congr ⟨rfl,rfl,rfl,rfl,rfl,rfl,rfl,rfl,rfl,rfl,rfl⟩⟩
  have hmodify : (Eff.modify fun s => { s with lastGood := timestamp } : AddressM Unit) s=(.ok (),s₁) := rfl
  unfold markGood
  rw [Eff.bind_of_ok hmodify,Eff.bind_get]
  cases hfind : s₁.find addr with
  | none => exact ⟨s₁,rfl,h₁⟩
  | some p =>
    obtain ⟨info,id⟩ := p
    have hget := find_eq_some hfind
    set f : ExtendedPeerInfo → ExtendedPeerInfo := fun info =>
      { info with lastSuccess := timestamp,lastTry := timestamp,numAttempts := 0 } with hf
    have h₂ : Ordered A (s₁.update id f) := h₁.touch (fun _ => rfl) fun _ => rfl
    have hview₂ : (s₁.update id f).view id=some info.bare := by
      rw [view_update_bare (f := f) fun _ => rfl]
      exact view_of_get? hget
    have hupdate : (Eff.modify (update id f) : AddressM Unit) s₁=(.ok (),s₁.update id f) := rfl
    dsimp only
    by_cases hskip : ¬ A.isValid addr s₁.allowPrivateSubnets ∨ info.peerInfo≠addr
    · rw [if_pos hskip]
      exact ⟨s₁,rfl,h₁⟩
    rw [if_neg hskip,Eff.bind_of_ok hupdate]
    by_cases htried : info.isTried
    · rw [if_pos htried]
      exact ⟨_,rfl,h₂⟩
    rw [if_neg htried]
    rw [Bool.not_eq_true] at htried
    cases (List.range NEW_BUCKET_COUNT).find? fun n => decide
        (s₁.newMatrix (info.newCell A s₁.key ((n+bucketRand) % NEW_BUCKET_COUNT))=some id) with
    | none => exact ⟨_,rfl,h₂⟩
    | some bucket =>
      dsimp only
      split_ifs
      · refine ⟨_,rfl,⟨h₂.positions.index,h₂.positions.placed⟩,?_⟩
        exact h₂.tables.congr ⟨rfl,rfl,rfl,rfl,rfl,rfl,rfl,rfl,rfl,rfl,rfl⟩
      · exact ⟨_,rfl,h₂⟩
      · exact makeTried_run info h₂ hview₂ htried rfl

theorem attempt_ordered (hs : Ordered A s) (addr : PeerInfo) (countFailures : Bool) (timestamp : ℤ) :
    Ordered A (attempt addr countFailures timestamp s) := by
  unfold attempt
  cases s.find addr with
  | none => exact hs
  | some p =>
    dsimp only
    split_ifs
    · exact hs
    · apply Linked.touch hs
      · intro i
        split_ifs <;> rfl
      · intro i
        split_ifs <;> rfl

theorem connect_ordered (hs : Ordered A s) (addr : PeerInfo) (timestamp : ℤ) :
    Ordered A (connect addr timestamp s) := by
  unfold connect
  cases s.find addr with
  | none => exact hs
  | some p =>
    dsimp only
    split_ifs
    · exact hs
    · exact Linked.touch hs (fun _ => rfl) fun _ => rfl
    · exact hs

theorem resolveCollision_run (hs : Ordered A s) (id : ℕ) (t : CollisionRound) :
    ∃ b s',resolveCollision A id t s=(.ok b,s') ∧ Ordered A s' := by
  unfold resolveCollision
  rw [Eff.bind_get]
  cases s.mapInfo.get? id with
  | none => exact ⟨true,s,rfl,hs⟩
  | some info =>
    obtain ⟨s',hgood,hs'⟩ := markGood_run hs info.peerInfo false ⌊t.now⌋ t.bucketRand
    dsimp only
    cases hold : s.triedMatrix (info.triedCell A s.key) with
    | none => exact ⟨true,s',Eff.bind_of_ok hgood _,hs'⟩
    | some oldId =>
      obtain ⟨old,hview,-,-⟩ := (hs.tables.tried _ oldId).mp hold
      obtain ⟨oldInfo,hget,-⟩ := view_eq_some hview
      have hlookup : (Eff.lift (lookup (s.mapInfo.get? oldId)) : AddressM ExtendedPeerInfo) s=(.ok oldInfo,s) := by
        rw [hget]
        rfl
      dsimp only
      rw [Eff.bind_of_ok hlookup]
      split_ifs
      · exact ⟨true,s,rfl,hs⟩
      · exact ⟨true,s',Eff.bind_of_ok hgood _,hs'⟩
      · exact ⟨false,s,rfl,hs⟩
      · exact ⟨true,s',Eff.bind_of_ok hgood _,hs'⟩
      · exact ⟨false,s,rfl,hs⟩

theorem removeCollision_orderly (id : ℕ) : Orderly A (removeCollision id) := by
  apply Eff.Triple.read
  intro s hs
  split_ifs
  · apply Eff.Triple.modify
    intro s hs
    exact ⟨⟨hs.positions.index,hs.positions.placed⟩,
      hs.tables.congr ⟨rfl,rfl,rfl,rfl,rfl,rfl,rfl,rfl,rfl,rfl,rfl⟩⟩
  · exact Eff.Triple.fail _ fun s hs => ⟨hs,rfl⟩

theorem resolveTriedCollisions_orderly (rounds : ℕ → CollisionRound) : Orderly A (resolveTriedCollisions A rounds) := by
  apply Eff.Triple.read
  intro s hs
  apply Eff.Triple.forM (I := fun _ => Ordered A)
  intro p l
  apply Eff.Triple.bind (orderly_of_run fun s hs => resolveCollision_run hs p.1 (rounds p.2))
  intro resolved
  split_ifs
  · exact removeCollision_orderly p.1
  · exact Eff.Triple.pure _ fun s hs => hs

theorem cleanup_orderly (now : ℚ) (maxTimestampDifference maxConsecutiveFailures : ℤ) :
    Orderly A (cleanup now maxTimestampDifference maxConsecutiveFailures) := by
  unfold Orderly cleanup
  generalize List.range NEW_BUCKET_COUNT ×ˢ List.range BUCKET_SIZE=cells
  apply Eff.Triple.forM (I := fun _ => Ordered A)
  intro cell l
  apply orderly_of_run
  intro s hs
  unfold cleanupCell
  rw [Eff.bind_get]
  cases hc : s.newMatrix cell with
  | none => exact ⟨(),s,rfl,hs⟩
  | some id =>
    obtain ⟨-,j,hj,-⟩ := hs.tables.newCell cell id hc
    obtain ⟨i,hget,-⟩ := view_eq_some hj
    have hlookup : (Eff.lift (lookup (s.mapInfo.get? id)) : AddressM ExtendedPeerInfo) s=(.ok i,s) := by
      rw [hget]
      rfl
    dsimp only
    rw [Eff.bind_of_ok hlookup]
    split_ifs
    · obtain ⟨s',hrun,hs',-⟩ := clearNew_run hs cell
      exact ⟨(),s',hrun,hs'⟩
    · exact ⟨(),s,rfl,hs⟩

def Outcome (A : Placement) {α : Type} (x : Except Fail α × AddressManager) : Prop :=
  Ordered A x.2 ∧ ∀ e,x.1 = .error e → e = .raised .value

theorem outcome_of_orderly {m : AddressM α} (h : Orderly A m) (hs : Ordered A s) : Outcome A (m s) := by
  have hm := h s hs
  unfold Outcome
  rcases hrun : m s with ⟨e | a,s'⟩ <;> rw [hrun] at hm
  · exact ⟨hm.1,fun e' he => by rw [← Except.error.inj he]; exact hm.2⟩
  · exact ⟨hm,fun e' he => (by cases he)⟩

theorem getPeersFrom_outcome (clock : ℕ → ℚ) (rand : ℕ → ℕ) (numNodes k n : ℕ) (addr : List TimestampedPeerInfo)
    (hs : Ordered A s) (hlen : k+n=s.randomPos.length) :
    Outcome A (getPeersFrom A clock rand numNodes k n addr s) := by
  induction k generalizing n addr s with
  | zero => exact ⟨hs,fun e he => (by cases he)⟩
  | succ k ih =>
    unfold getPeersFrom
    split_ifs with hmany
    · exact ⟨hs,fun e he => (by cases he)⟩
    · rw [Eff.bind_get]
      have hpos : 0<s.randomPos.length-n := by omega
      have hmod := Nat.mod_lt (rand n) hpos
      obtain ⟨s₁,hswap,hpositions,hsame,-⟩ := swapRandom_run hs.positions (by omega : n<s.randomPos.length)
        (by omega : rand n % (s.randomPos.length-n)+n<s.randomPos.length)
      have h₁ : Ordered A s₁ := ⟨hpositions,hs.tables.congr hsame⟩
      have hlen₁ : k+(n+1)=s₁.randomPos.length := by rw [hsame.length]; omega
      obtain ⟨id,hid⟩ : ∃ id,s₁.randomPos[n]?=some id := ⟨_,List.getElem?_eq_getElem (by omega)⟩
      obtain ⟨info,hget,-⟩ := (hpositions.index n id).mp hid
      have hindex : (Eff.lift (index s₁.randomPos[n]?) : AddressM ℕ) s₁=(.ok id,s₁) := by
        rw [hid]
        rfl
      have hlookup : (Eff.lift (lookup (s₁.mapInfo.get? id)) : AddressM ExtendedPeerInfo) s₁=(.ok info,s₁) := by
        rw [hget]
        rfl
      rw [Eff.bind_of_ok hswap,Eff.bind_get,Eff.bind_of_ok hindex,Eff.bind_of_ok hlookup]
      split_ifs
      · exact ih (n+1) addr h₁ hlen₁
      · unfold uint
        split_ifs
        · exact ih (n+1) _ h₁ hlen₁
        · exact ⟨h₁,fun e he => (Except.error.inj he).symm⟩

theorem getPeers_outcome (clock : ℕ → ℚ) (rand : ℕ → ℕ) (hs : Ordered A s) : Outcome A (getPeers A clock rand s) := by
  unfold getPeers
  rw [Eff.bind_get]
  exact getPeersFrom_outcome clock rand _ _ 0 [] hs rfl

theorem clear_ordered (key : Bytes32) : Ordered A (clear key) := by
  refine ⟨⟨?_,fun _ _ h => (by cases h)⟩,?_⟩
  · intro i id
    constructor
    · intro h
      cases h
    · rintro ⟨_,h,-⟩
      cases h
  · constructor
    · intro host id
      constructor
      · intro h
        cases h
      · rintro ⟨_,h,-⟩
        cases h
    · exact fun _ _ h => (by cases h)
    · exact fun _ _ h => (by cases h)
    · exact fun _ _ h => (by cases h)
    · exact fun _ _ h => (by cases h)
    · exact fun _ _ h => (by cases h)
    · exact fun _ _ h => (by cases h)
    · intro c id
      constructor
      · intro h
        cases h
      · rintro ⟨_,h,-⟩
        cases h
    · intro c
      exact ⟨fun h => absurd h (Finset.notMem_empty c),fun h => (by cases h)⟩
    · intro c
      exact ⟨fun h => absurd h (Finset.notMem_empty c),fun h => (by cases h)⟩
    · rfl
    · rfl

end AddressManager
@[irreducible] def triedCells : Finset (ℕ × ℕ) := Finset.range TRIED_BUCKET_COUNT ×ˢ Finset.range BUCKET_SIZE

/-- What holds between the structures of an address manager. -/
structure ConsistentPeers (s : AddressManager) : Prop where
  permutation : s.randomPos.Perm s.mapInfo.keys
  randomPos : ∀ id info,s.mapInfo.get? id=some info → ∃ i,info.randomPos=some i ∧ s.randomPos[i]?=some id
  mapAddr : ∀ host id,s.mapAddr.get? host=some id ↔
    ∃ info,s.mapInfo.get? id=some info ∧ info.peerInfo.host=host
  refCount : ∀ id info,s.mapInfo.get? id=some info → info.refCount=occurrences newCells s.newMatrix id
  untried : ∀ id info,s.mapInfo.get? id=some info → info.isTried=false →
    1 ≤ info.refCount ∧ info.refCount≤NEW_BUCKETS_PER_ADDRESS
  tried : ∀ id info,s.mapInfo.get? id=some info → info.isTried=true →
    info.refCount=0 ∧ occurrences triedCells s.triedMatrix id=1
  newMatrix : ∀ c id,s.newMatrix c=some id →
    c∈newCells ∧ ∃ info,s.mapInfo.get? id=some info ∧ info.isTried=false
  triedMatrix : ∀ c id,s.triedMatrix c=some id →
    c∈triedCells ∧ ∃ info,s.mapInfo.get? id=some info ∧ info.isTried=true
  usedNew : ∀ c,c∈s.usedNewMatrixPositions ↔ (s.newMatrix c).isSome
  usedTried : ∀ c,c∈s.usedTriedMatrixPositions ↔ (s.triedMatrix c).isSome
  triedCount : s.triedCount=s.usedTriedMatrixPositions.card
  newCount : s.newCount=(s.usedNewMatrixPositions.image s.newMatrix).card

/-- One of the operations, with the random choices and the times it is given. -/
inductive AddressOp
  | addToNewTable (addr : TimestampedPeerInfo) (source : Option PeerInfo) (penalty : ℤ) (now now' : ℚ) (roll : ℕ)
  | markGood (addr : PeerInfo) (testBeforeEvict : Bool) (timestamp : ℤ) (bucketRand : ℕ)
  | attempt (addr : PeerInfo) (countFailures : Bool) (timestamp : ℤ)
  | connect (addr : PeerInfo) (timestamp : ℤ)
  | resolveTriedCollisions (rounds : ℕ → AddressManager.CollisionRound)
  | cleanup (now : ℚ) (maxTimestampDifference maxConsecutiveFailures : ℤ)
  | getPeers (clock : ℕ → ℚ) (rand : ℕ → ℕ)

def AddressOp.run (A : Placement) : AddressOp → AddressM Unit
  | .addToNewTable addr source penalty now now' roll => do
    let _ ← AddressManager.addToNewTable A addr source penalty now now' roll
  | .markGood addr testBeforeEvict timestamp bucketRand =>
    AddressManager.markGood A addr testBeforeEvict timestamp bucketRand
  | .attempt addr countFailures timestamp => Eff.modify (AddressManager.attempt addr countFailures timestamp)
  | .connect addr timestamp => Eff.modify (AddressManager.connect addr timestamp)
  | .resolveTriedCollisions rounds => AddressManager.resolveTriedCollisions A rounds
  | .cleanup now maxTimestampDifference maxConsecutiveFailures =>
    AddressManager.cleanup now maxTimestampDifference maxConsecutiveFailures
  | .getPeers clock rand => do
    let _ ← AddressManager.getPeers A clock rand

/-- The states after any operations, also those that failed. -/
inductive AddressRun (A : Placement) : AddressManager → Prop
  | start (key : Bytes32) (allowPrivateSubnets : Bool) : AddressRun A { clear key with allowPrivateSubnets }
  | step {s : AddressManager} (h : AddressRun A s) (op : AddressOp) : AddressRun A (op.run A s).2

theorem outcome_forget {α : Type} {m : AddressM α} (h : Outcome A (m s)) : Outcome A ((m >>= fun _ => pure ()) s) := by
  rcases hrun : m s with ⟨e | a,s'⟩ <;> rw [hrun] at h
  · rw [Eff.bind_of_error hrun]
    exact ⟨h.1,fun e' he => h.2 e' (by rw [Except.error.inj he])⟩
  · rw [Eff.bind_of_ok hrun]
    exact ⟨h.1,fun e' he => (by cases he)⟩

theorem AddressOp.outcome (hs : Ordered A s) (op : AddressOp) : Outcome A (op.run A s) := by
  cases op with
  | addToNewTable addr source penalty now now' roll =>
    exact outcome_forget (outcome_of_orderly (addToNewTable_orderly addr source penalty now now' roll) hs)
  | markGood addr testBeforeEvict timestamp bucketRand =>
    apply outcome_of_orderly (orderly_of_run fun s hs => ?_) hs
    exact ⟨(),markGood_run hs addr testBeforeEvict timestamp bucketRand⟩
  | attempt addr countFailures timestamp =>
    exact ⟨attempt_ordered hs addr countFailures timestamp,fun e he => (by cases he)⟩
  | connect addr timestamp => exact ⟨connect_ordered hs addr timestamp,fun e he => (by cases he)⟩
  | resolveTriedCollisions rounds => exact outcome_of_orderly (resolveTriedCollisions_orderly rounds) hs
  | cleanup now maxTimestampDifference maxConsecutiveFailures =>
    exact outcome_of_orderly (cleanup_orderly now maxTimestampDifference maxConsecutiveFailures) hs
  | getPeers clock rand => exact outcome_forget (getPeers_outcome clock rand hs)

theorem AddressRun.ordered (h : AddressRun A s) : Ordered A s := by
  induction h with
  | start key allowPrivateSubnets =>
    have hclear := clear_ordered (A := A) key
    exact ⟨⟨hclear.positions.index,hclear.positions.placed⟩,
      hclear.tables.congr ⟨rfl,rfl,rfl,rfl,rfl,rfl,rfl,rfl,rfl,rfl,rfl⟩⟩
  | step h op ih => exact (op.outcome ih).1

theorem mem_triedCells (info : ExtendedPeerInfo) (key : Bytes32) : info.triedCell A key∈triedCells := by
  unfold triedCells
  rw [Finset.mem_product,Finset.mem_range,Finset.mem_range]
  exact ⟨Nat.mod_lt _ (by decide),Nat.mod_lt _ (by decide)⟩

theorem Positions.nodup (h : Positions s) : s.randomPos.Nodup := by
  rw [List.nodup_iff_getElem?_ne_getElem?]
  intro i j hij hj heq
  have hget : s.randomPos[j]?=some s.randomPos[j] := List.getElem?_eq_getElem hj
  have hi := (h.posOf i _).mp (heq.trans hget)
  have hj' := (h.posOf j _).mp hget
  have he := Option.some.inj (hi.symm.trans hj')
  omega

theorem Positions.perm (h : Positions s) : s.randomPos.Perm s.mapInfo.keys := by
  apply (List.perm_ext_iff_of_nodup h.nodup s.mapInfo.nodup).mpr
  intro id
  apply Iff.trans _ (Dict.mem_keys s.mapInfo id).symm
  constructor
  · intro hid
    obtain ⟨i,hi⟩ := List.mem_iff_getElem?.mp hid
    obtain ⟨info,hget,-⟩ := (h.index i id).mp hi
    exact ⟨info,hget⟩
  · rintro ⟨info,hget⟩
    obtain ⟨i,hi⟩ := h.placed id info hget
    exact List.mem_iff_getElem?.mpr ⟨i,(h.index i id).mpr ⟨info,hget,hi⟩⟩

theorem PeerTables.newCount (h : PeerTables A 0 (fun _ => False) s) (hp : Positions s) :
    s.newCount=(s.usedNewMatrixPositions.image s.newMatrix).card := by
  have hids : (s.randomPos.toFinset.image some) =
      s.usedNewMatrixPositions.image s.newMatrix ∪ s.usedTriedMatrixPositions.image s.triedMatrix := by
    ext o
    rw [Finset.mem_image,Finset.mem_union,Finset.mem_image,Finset.mem_image]
    constructor
    · rintro ⟨id,hid,rfl⟩
      obtain ⟨i,hi⟩ := List.mem_iff_getElem?.mp (List.mem_toFinset.mp hid)
      obtain ⟨info,hget,-⟩ := (hp.index i id).mp hi
      have hview := view_of_get? hget
      cases ht : info.isTried with
      | true =>
        have hc := (h.tried (info.bare.triedCell A s.key) id).mpr ⟨info.bare,hview,ht,rfl⟩
        exact Or.inr ⟨_,(h.usedTried _).mpr (by rw [hc]; rfl),hc⟩
      | false =>
        have hpos := h.untried id info.bare hview not_false ht
        rw [h.refCount id info.bare hview] at hpos
        obtain ⟨c,-,hc⟩ := exists_of_occurrences_pos (by exact_mod_cast hpos)
        exact Or.inl ⟨c,(h.usedNew c).mpr (by rw [hc]; rfl),hc⟩
    · have hmem {id : ℕ} {i : ExtendedPeerInfo} (hi : s.view id=some i) : id∈s.randomPos.toFinset := by
        obtain ⟨info,hget,-⟩ := view_eq_some hi
        obtain ⟨n,hn⟩ := hp.placed id info hget
        exact List.mem_toFinset.mpr (List.mem_iff_getElem?.mpr ⟨n,(hp.index n id).mpr ⟨info,hget,hn⟩⟩)
      rintro (⟨c,hc,rfl⟩ | ⟨c,hc,rfl⟩)
      · obtain ⟨id,hid⟩ := Option.isSome_iff_exists.mp ((h.usedNew c).mp hc)
        obtain ⟨-,i,hi,-⟩ := h.newCell c id hid
        exact ⟨id,hmem hi,hid.symm⟩
      · obtain ⟨id,hid⟩ := Option.isSome_iff_exists.mp ((h.usedTried c).mp hc)
        obtain ⟨i,hi,-⟩ := (h.tried c id).mp hid
        exact ⟨id,hmem hi,hid.symm⟩
  have hdisjoint : Disjoint (s.usedNewMatrixPositions.image s.newMatrix)
      (s.usedTriedMatrixPositions.image s.triedMatrix) := by
    rw [Finset.disjoint_left]
    intro o hnew htried
    obtain ⟨c,hc,rfl⟩ := Finset.mem_image.mp hnew
    obtain ⟨c',-,heq⟩ := Finset.mem_image.mp htried
    obtain ⟨id,hid⟩ := Option.isSome_iff_exists.mp ((h.usedNew c).mp hc)
    obtain ⟨i,hi,ht,-⟩ := (h.tried c' id).mp (heq.trans hid)
    have hpos := (h.cell hid hi).2.2
    have hzero := h.triedRef id i hi ht
    omega
  have hinjective : Set.InjOn s.triedMatrix s.usedTriedMatrixPositions := by
    intro c hc c' _ heq
    obtain ⟨id,hid⟩ := Option.isSome_iff_exists.mp ((h.usedTried c).mp hc)
    obtain ⟨i,hi,-,hcell⟩ := (h.tried c id).mp hid
    obtain ⟨i',hi',-,hcell'⟩ := (h.tried c' id).mp (heq.symm.trans hid)
    rw [hcell,hcell',Option.some.inj (hi.symm.trans hi')]
  have hcard := congrArg Finset.card hids
  rw [Finset.card_image_of_injective _ (Option.some_injective ℕ),List.toFinset_card_of_nodup hp.nodup,
    Finset.card_union_of_disjoint hdisjoint,Finset.card_image_of_injOn hinjective] at hcard
  have hcount := h.count
  have htried := h.triedCount
  omega

theorem PeerTables.occursOnce (h : PeerTables A d X s) {i : ExtendedPeerInfo} (hi : s.view id=some i)
    (ht : i.isTried=true) : occurrences triedCells s.triedMatrix id=1 := by
  unfold occurrences
  rw [Finset.card_eq_one]
  refine ⟨i.triedCell A s.key,?_⟩
  ext c
  rw [Finset.mem_filter,Finset.mem_singleton]
  constructor
  · rintro ⟨-,hc⟩
    obtain ⟨i',hi',-,hcell⟩ := (h.tried c id).mp hc
    rw [hcell,Option.some.inj (hi.symm.trans hi')]
  · rintro rfl
    exact ⟨mem_triedCells i s.key,(h.tried _ id).mpr ⟨i,hi,ht,rfl⟩⟩

theorem Ordered.consistent (h : Ordered A s) : ConsistentPeers s := by
  obtain ⟨hp,ht⟩ := h
  constructor
  · exact hp.perm
  · intro id info hget
    obtain ⟨i,hi⟩ := hp.placed id info hget
    exact ⟨i,hi,(hp.index i id).mpr ⟨info,hget,hi⟩⟩
  · intro host id
    rw [ht.address]
    constructor
    · rintro ⟨j,hj,hhost⟩
      obtain ⟨info,hget,rfl⟩ := view_eq_some hj
      exact ⟨info,hget,hhost⟩
    · rintro ⟨info,hget,hhost⟩
      exact ⟨info.bare,view_of_get? hget,hhost⟩
  · intro id info hget
    exact ht.refCount id info.bare (view_of_get? hget)
  · intro id info hget hun
    have hpos := ht.untried id info.bare (view_of_get? hget) not_false hun
    exact ⟨hpos,ht.limit id info.bare (view_of_get? hget)⟩
  · intro id info hget htried
    exact ⟨ht.triedRef id info.bare (view_of_get? hget) htried,ht.occursOnce (view_of_get? hget) htried⟩
  · intro c id hc
    obtain ⟨-,j,hj,-⟩ := ht.newCell c id hc
    obtain ⟨hmem,-,hpos⟩ := ht.cell hc hj
    obtain ⟨info,hget,rfl⟩ := view_eq_some hj
    refine ⟨hmem,info,hget,?_⟩
    by_contra hun
    have htried : info.isTried=true := by simpa using hun
    have hzero := ht.triedRef id info.bare hj htried
    omega
  · intro c id hc
    obtain ⟨j,hj,htried,rfl⟩ := (ht.tried c id).mp hc
    obtain ⟨info,hget,rfl⟩ := view_eq_some hj
    exact ⟨mem_triedCells _ _,info,hget,htried⟩
  · exact ht.usedNew
  · exact ht.usedTried
  · exact ht.triedCount
  · exact ht.newCount hp

/-- After any operations the structures agree, and no operation raises anything but a `ValueError`. -/
theorem addressManager_consistent (h : AddressRun A s) :
    ConsistentPeers s ∧ ∀ (op : AddressOp) (e : Fail),(op.run A s).1 = .error e → e = .raised .value := by
  refine ⟨h.ordered.consistent,?_⟩
  intro op e he
  exact (op.outcome h.ordered).2 e he

def tinyPlacement : Placement := ⟨fun b => b.length,fun p => [UInt8.ofNat p.port],fun _ => [1],fun _ _ => true⟩

theorem addressManager_consistent_tiny :
    let s := (AddressOp.run tinyPlacement (.addToNewTable ⟨"10.0.0.1",8444,5⟩ none 0 0 0 0)
      { clear 7 with allowPrivateSubnets := true }).2
    ConsistentPeers s ∧ ∀ (op : AddressOp) (e : Fail),(op.run tinyPlacement s).1 = .error e → e = .raised .value :=
  addressManager_consistent ((AddressRun.start 7 true).step _)

end RoseChain
