import RoseChain.Server.AddressTables

namespace RoseChain
open Lib AddressManager
variable {A : Placement} {d : ℤ} {X Y : ℕ → Prop} {s s' : AddressManager} {id : ℕ} {info : ExtendedPeerInfo}

structure Linked (A : Placement) (d : ℤ) (X : ℕ → Prop) (s : AddressManager) : Prop where
  positions : Positions s
  tables : PeerTables A d X s

/-- Where an entry is in `random_pos`. -/
def AddressManager.posOf (s : AddressManager) (id : ℕ) : Option ℕ := (s.mapInfo.get? id).bind (·.randomPos)

theorem Positions.posOf (h : Positions s) (i id : ℕ) : s.randomPos[i]?=some id ↔ s.posOf id=some i := by
  rw [h.index]
  unfold AddressManager.posOf
  rw [Option.bind_eq_some_iff]

theorem positions_of_posOf (h : ∀ i id,s.randomPos[i]?=some id ↔ s.posOf id=some i)
    (hplaced : ∀ id info,s.mapInfo.get? id=some info → ∃ i,info.randomPos=some i) : Positions s := by
  refine ⟨?_,hplaced⟩
  intro i id
  rw [h]
  unfold AddressManager.posOf
  rw [Option.bind_eq_some_iff]

theorem view_eq_some (h : s.view id=some info) : ∃ i,s.mapInfo.get? id=some i ∧ i.bare=info :=
  Option.map_eq_some_iff.mp h

theorem view_of_get? (h : s.mapInfo.get? id=some info) : s.view id=some info.bare := by
  unfold view
  rw [h]
  rfl

namespace AddressManager

def swapped (i j id₁ id₂ : ℕ) (s : AddressManager) : AddressManager :=
  { (s.update id₁ fun info => { info with randomPos := some j }).update id₂
      fun info => { info with randomPos := some i } with
    randomPos := (s.randomPos.set i id₂).set j id₁ }

theorem swapped_get? (i j id₁ id₂ : ℕ) (s : AddressManager) (k : ℕ) :
    (swapped i j id₁ id₂ s).mapInfo.get? k=(s.mapInfo.get? k).map fun info =>
      if k=id₂ then { info with randomPos := some i }
      else if k=id₁ then { info with randomPos := some j } else info := by
  have h := update_get? (s.update id₁ fun info => { info with randomPos := some j }) id₂
    (fun info => { info with randomPos := some i }) k
  rw [update_get? s,Option.map_map] at h
  refine h.trans ?_
  congr 1
  funext info
  show (if k=id₂ then _ else _)=_
  split_ifs <;> rfl

theorem swapped_same (i j id₁ id₂ : ℕ) (s : AddressManager) : SamePeerTables s (swapped i j id₁ id₂ s) := by
  refine ⟨?_,rfl,rfl,rfl,rfl,rfl,rfl,rfl,rfl,rfl,?_⟩
  · funext k
    unfold view
    rw [swapped_get?,Option.map_map]
    congr 1
    funext info
    show (if k=id₂ then _ else _ : ExtendedPeerInfo).bare=info.bare
    split_ifs <;> rfl
  · show ((s.randomPos.set i id₂).set j id₁).length=_
    rw [List.length_set,List.length_set]

theorem swapped_positions (h : Positions s) {i j id₁ id₂ : ℕ} (hne : i≠j) (h₁ : s.randomPos[i]?=some id₁)
    (h₂ : s.randomPos[j]?=some id₂) : Positions (swapped i j id₁ id₂ s) := by
  have hp₁ := (h.posOf i id₁).mp h₁
  have hp₂ := (h.posOf j id₂).mp h₂
  have hids : id₁≠id₂ := by
    rintro rfl
    exact hne (Option.some.inj (hp₁.symm.trans hp₂))
  have hpos (k : ℕ) : (swapped i j id₁ id₂ s).posOf k =
      if k=id₂ then some i else if k=id₁ then some j else s.posOf k := by
    unfold posOf at hp₁ hp₂ ⊢
    rw [swapped_get?]
    split_ifs with hk₂ hk₁
    · subst hk₂
      cases hget : s.mapInfo.get? k with
      | none => rw [hget] at hp₂; cases hp₂
      | some info => rfl
    · subst hk₁
      cases hget : s.mapInfo.get? k with
      | none => rw [hget] at hp₁; cases hp₁
      | some info => rfl
    · cases s.mapInfo.get? k <;> rfl
  have hi := (List.getElem?_eq_some_iff.mp h₁).1
  have hj := (List.getElem?_eq_some_iff.mp h₂).1
  apply positions_of_posOf
  · intro n k
    rw [hpos]
    show ((s.randomPos.set i id₂).set j id₁)[n]?=some k ↔ _
    rw [List.getElem?_set,List.getElem?_set,List.length_set]
    by_cases hnj : j=n
    · subst hnj
      rw [if_pos rfl,if_pos hj]
      constructor
      · intro hk
        obtain rfl := Option.some.inj hk
        rw [if_neg hids,if_pos rfl]
      · intro hk
        split_ifs at hk with hk₂ hk₁
        · exact absurd (Option.some.inj hk) hne
        · rw [hk₁]
        · exact absurd (Option.some.inj (((h.posOf j k).mpr hk).symm.trans h₂)) hk₂
    · rw [if_neg hnj]
      by_cases hni : i=n
      · subst hni
        rw [if_pos rfl,if_pos hi]
        constructor
        · intro hk
          obtain rfl := Option.some.inj hk
          rw [if_pos rfl]
        · intro hk
          split_ifs at hk with hk₂ hk₁
          · rw [hk₂]
          · exact absurd (Option.some.inj hk) hnj
          · exact absurd (Option.some.inj (((h.posOf i k).mpr hk).symm.trans h₁)) hk₁
      · rw [if_neg hni,h.posOf]
        constructor
        · intro hk
          have hk₂ : k≠id₂ := by
            rintro rfl
            exact hnj (Option.some.inj (hp₂.symm.trans hk))
          have hk₁ : k≠id₁ := by
            rintro rfl
            exact hni (Option.some.inj (hp₁.symm.trans hk))
          rw [if_neg hk₂,if_neg hk₁,hk]
        · intro hk
          split_ifs at hk with hk₂ hk₁
          · exact absurd (Option.some.inj hk) hni
          · exact absurd (Option.some.inj hk) hnj
          · exact hk
  · intro k info hk
    rw [swapped_get?,Option.map_eq_some_iff] at hk
    obtain ⟨info',hget,rfl⟩ := hk
    split_ifs
    · exact ⟨i,rfl⟩
    · exact ⟨j,rfl⟩
    · exact h.placed k info' hget

theorem swapRandom_run (h : Positions s) {i j : ℕ} (hi : i<s.randomPos.length) (hj : j<s.randomPos.length) :
    ∃ s',swapRandom i j s=(.ok (),s') ∧ Positions s' ∧ SamePeerTables s s' ∧
      s'.randomPos[j]?=s.randomPos[i]? := by
  unfold swapRandom
  by_cases he : i=j
  · subst he
    rw [if_pos rfl]
    exact ⟨s,rfl,h,⟨rfl,rfl,rfl,rfl,rfl,rfl,rfl,rfl,rfl,rfl,rfl⟩,rfl⟩
  · rw [if_neg he]
    obtain ⟨id₁,h₁⟩ : ∃ id,s.randomPos[i]?=some id := ⟨_,List.getElem?_eq_getElem hi⟩
    obtain ⟨id₂,h₂⟩ : ∃ id,s.randomPos[j]?=some id := ⟨_,List.getElem?_eq_getElem hj⟩
    obtain ⟨info₁,hget₁,-⟩ := (h.index i id₁).mp h₁
    obtain ⟨info₂,hget₂,-⟩ := (h.index j id₂).mp h₂
    refine ⟨swapped i j id₁ id₂ s,?_,swapped_positions h he h₁ h₂,swapped_same i j id₁ id₂ s,?_⟩
    · have hassert : (Eff.lift (assertThat (i<s.randomPos.length ∧ j<s.randomPos.length)) : AddressM Unit) s =
          (.ok (),s) := by
        unfold assertThat
        rw [if_pos ⟨hi,hj⟩]
        rfl
      have hindex₁ : (Eff.lift (index s.randomPos[i]?) : AddressM ℕ) s=(.ok id₁,s) := by
        rw [h₁]
        rfl
      have hindex₂ : (Eff.lift (index s.randomPos[j]?) : AddressM ℕ) s=(.ok id₂,s) := by
        rw [h₂]
        rfl
      rw [Eff.bind_get,Eff.bind_of_ok hassert,Eff.bind_of_ok hindex₁,Eff.bind_of_ok hindex₂,hget₁,hget₂]
      rfl
    · show ((s.randomPos.set i id₂).set j id₁)[j]?=_
      rw [List.getElem?_set,if_pos rfl,List.length_set,if_pos hj,h₁]

theorem dropEntry_positions (h : Positions s) {n : ℕ} (hn : s.randomPos.length=n+1)
    (hlast : s.randomPos[n]?=some id) (host : String) : Positions (dropEntry id host s) := by
  have hposition := (h.posOf n id).mp hlast
  have hget (k : ℕ) : (dropEntry id host s).mapInfo.get? k=if id=k then none else s.mapInfo.get? k :=
    Dict.get?_erase ..
  have hpos (k : ℕ) : (dropEntry id host s).posOf k=if id=k then none else s.posOf k := by
    unfold posOf
    rw [hget]
    split_ifs <;> rfl
  apply positions_of_posOf
  · intro i k
    rw [hpos]
    show s.randomPos.dropLast[i]?=some k ↔ _
    rw [List.getElem?_dropLast,hn,Nat.add_sub_cancel]
    constructor
    · intro hk
      split_ifs at hk with hlt
      have hne : id≠k := by
        rintro rfl
        have hi := (h.posOf i id).mp hk
        have he := Option.some.inj (hposition.symm.trans hi)
        omega
      rw [if_neg hne]
      exact (h.posOf i k).mp hk
    · intro hk
      split_ifs at hk with hne
      have hi := (h.posOf i k).mpr hk
      have hlt := (List.getElem?_eq_some_iff.mp hi).1
      have hin : i≠n := by
        rintro rfl
        exact hne (Option.some.inj (hlast.symm.trans hi))
      rw [if_pos (by omega)]
      exact hi
  · intro k info hk
    rw [hget] at hk
    split_ifs at hk
    exact h.placed k info hk

/-- What is the same after entries have been deleted. -/
structure Kept (s s' : AddressManager) : Prop where
  key : s'.key=s.key
  idCount : s'.idCount=s.idCount
  triedMatrix : s'.triedMatrix=s.triedMatrix

theorem deleteNewEntry_run (h : Linked A d X s) (hi : s.view id=some info) (hun : info.isTried=false)
    (href : info.refCount=0) : ∃ s',deleteNewEntry id s=(.ok (),s') ∧ Linked A d X s' ∧ Kept s s' ∧
      s'.newMatrix=s.newMatrix ∧ s'.view=Function.update s.view id none := by
  obtain ⟨i,hget,rfl⟩ := view_eq_some hi
  obtain ⟨pos,hpos⟩ := h.positions.placed id i hget
  have hat : s.randomPos[pos]?=some id := (h.positions.index pos id).mpr ⟨i,hget,hpos⟩
  have hlt := (List.getElem?_eq_some_iff.mp hat).1
  obtain ⟨n,hn⟩ : ∃ n,s.randomPos.length=n+1 := Nat.exists_eq_succ_of_ne_zero (by omega)
  obtain ⟨s₁,hswap,hpos₁,hsame,hmoved⟩ := swapRandom_run h.positions hlt (by omega : n<s.randomPos.length)
  have htables := h.tables.congr hsame
  have hview₁ : s₁.view id=some i.bare := by rw [hsame.view]; exact hi
  have hlen₁ : s₁.randomPos.length=n+1 := hsame.length.trans hn
  rw [hat] at hmoved
  have hlookup : (Eff.lift (lookup (s.mapInfo.get? id)) : AddressM ExtendedPeerInfo) s=(.ok i,s) := by
    rw [hget]
    rfl
  have haddr : s.mapAddr.get? i.peerInfo.host=some id := (h.tables.address _ id).mpr ⟨i.bare,hi,rfl⟩
  refine ⟨dropEntry id i.peerInfo.host s₁,?_,⟨?_,?_⟩,⟨hsame.key,hsame.idCount,hsame.triedMatrix⟩,
    hsame.newMatrix,?_⟩
  · unfold deleteNewEntry
    rw [Eff.bind_get,Eff.bind_of_ok hlookup,hpos,hn]
    have hhost : (Eff.lift (lookup (s.mapAddr.get? i.peerInfo.host)) : AddressM ℕ) s₁=(.ok id,s₁) := by
      rw [haddr]
      rfl
    show (swapRandom pos n >>= _) s=_
    rw [Eff.bind_of_ok hswap,Eff.bind_of_ok hhost]
    rfl
  · exact dropEntry_positions hpos₁ hlen₁ hmoved _
  · have hdrop : PeerTables A d X (dropEntry id i.bare.peerInfo.host s₁) :=
      htables.dropEntry hview₁ hun href (by omega)
    exact hdrop
  · rw [← hsame.view]
    funext k
    unfold view
    show ((s₁.mapInfo.erase id).get? k).map _=_
    rw [Dict.get?_erase]
    by_cases hk : id=k
    · subst hk
      rw [if_pos rfl,Function.update_self]
      rfl
    · rw [if_neg hk,Function.update_of_ne (Ne.symm hk)]

theorem clearNew_run (h : Linked A d X s) (c : ℕ × ℕ) : ∃ s',clearNew c s=(.ok (),s') ∧ Linked A d X s' ∧
    Kept s s' ∧ s'.newMatrix=Function.update s.newMatrix c none ∧
    ∀ k,s.newMatrix c≠some k → s'.view k=s.view k := by
  cases hc : s.newMatrix c with
  | none =>
    refine ⟨s,?_,h,⟨rfl,rfl,rfl⟩,?_,fun _ _ => rfl⟩
    · unfold clearNew
      rw [Eff.bind_get,hc]
      rfl
    · rw [← hc,Function.update_eq_self]
  | some id =>
    obtain ⟨-,info,hi,-⟩ := h.tables.newCell c id hc
    obtain ⟨hmem,hcell,hpos⟩ := h.tables.cell hc hi
    have hun : info.isTried=false := by
      by_contra ht
      have hzero := h.tables.triedRef id info hi (by simpa using ht)
      omega
    obtain ⟨i,hget,rfl⟩ := view_eq_some hi
    set s₁ := (s.update id fun info => { info with refCount := info.refCount-1 }).setNewMatrix c none with hs₁
    have hlookup : (Eff.lift (lookup (s.mapInfo.get? id)) : AddressM ExtendedPeerInfo) s=(.ok i,s) := by
      rw [hget]
      rfl
    have hpos' : i.refCount > 0 := hpos
    have hassert : (Eff.lift (assertThat (i.refCount > 0)) : AddressM Unit) s=(.ok (),s) := by
      unfold assertThat
      rw [if_pos hpos']
      rfl
    have hclear : clearNew c s=(if i.refCount-1=0 then deleteNewEntry id else pure ()) s₁ := by
      unfold clearNew
      rw [Eff.bind_get,hc]
      apply (Eff.bind_of_ok hlookup _).trans
      apply (Eff.bind_of_ok hassert _).trans
      rfl
    rw [hclear]
    have hview₁ : s₁.view=Function.update s.view id (some { i.bare with refCount := i.bare.refCount-1 }) :=
      view_update (g := fun i => { i with refCount := i.refCount-1 }) (fun _ => rfl) hi
    have htables : PeerTables A d (fun k => X k ∨ k=id) s₁ := by
      apply h.tables.recell (g := fun i => { i with refCount := i.refCount-1 }) hi (fun _ => rfl) rfl hun hun hmem
      · intro k hk
        exact Option.some.inj (hk.symm.trans hc)
      · intro k hk
        cases hk
      · rw [if_pos hc,if_neg (by simp)]
        show i.refCount-1+1=i.refCount+0
        omega
      · have hlimit := h.tables.limit id i.bare hi
        show i.refCount-1≤NEW_BUCKETS_PER_ADDRESS
        have hle : i.refCount≤NEW_BUCKETS_PER_ADDRESS := hlimit
        omega
    have hpositions : Positions s₁ := by
      have hup : Positions (s.update id fun info => { info with refCount := info.refCount-1 }) :=
        h.positions.update fun _ => rfl
      exact ⟨hup.index,hup.placed⟩
    have hview₁' : s₁.view id=some { i.bare with refCount := i.bare.refCount-1 } := by
      rw [hview₁,Function.update_self]
    have hother (k : ℕ) (hk : k≠id) : s₁.view k=s.view k := by
      rw [hview₁,Function.update_of_ne hk]
    by_cases hzero : i.refCount-1=0
    · have hlinked : Linked A d (fun k => X k ∨ k=id) s₁ := ⟨hpositions,htables⟩
      obtain ⟨s₂,hrun,hlinked₂,hkept,hmatrix,hview₂⟩ := deleteNewEntry_run hlinked hview₁' hun hzero
      refine ⟨s₂,?_,⟨hlinked₂.positions,hlinked₂.tables.settle ?_⟩,
        ⟨hkept.key,hkept.idCount,hkept.triedMatrix⟩,hmatrix,?_⟩
      · rw [if_pos hzero]
        exact hrun
      · intro k j hk hX hY _
        rcases hX with hX | rfl
        · exact absurd hX hY
        · rw [hview₂,Function.update_self] at hk
          cases hk
      · intro k hk
        have hne : k≠id := fun he => hk (by rw [he])
        rw [hview₂,Function.update_of_ne hne,hother k hne]
    · refine ⟨s₁,?_,⟨hpositions,htables.settle ?_⟩,⟨rfl,rfl,rfl⟩,rfl,?_⟩
      · rw [if_neg hzero]
        rfl
      · intro k j hk hX hY _
        rcases hX with hX | rfl
        · exact absurd hX hY
        · rw [hview₁'] at hk
          rw [← Option.some.inj hk]
          show 0 < i.refCount-1
          omega
      · intro k hk
        exact hother k fun he => hk (by rw [he])

variable {j : ExtendedPeerInfo}

theorem leaveBucket_linked (h : Linked A d X s) (hj : s.view id=some j)
    (hun : j.isTried=false) (hpeer : info.peerInfo=j.peerInfo) {b : ℕ} (hb : b<NEW_BUCKET_COUNT) (hX : X id) :
    let s' := leaveBucket A id info b s
    Linked A d X s' ∧ Kept s s' ∧ (∀ k,k≠id → s'.view k=s.view k) ∧
      (∀ c,s'.newMatrix c=some id → s.newMatrix c=some id ∧ c.1≠b) ∧
      ∃ j',s'.view id=some j' ∧ j'.isTried=false ∧ info.peerInfo=j'.peerInfo := by
  have hcell : info.newCell A s.key b=j.newCell A s.key b := newCell_congr hpeer s.key b
  unfold leaveBucket
  rw [hcell]
  by_cases hc : s.newMatrix (j.newCell A s.key b)=some id
  · rw [if_pos hc]
    set s₁ := (s.setNewMatrix (j.newCell A s.key b) none).update id
      (fun info => { info with refCount := info.refCount-1 })
    have hview : s₁.view=Function.update s.view id (some { j with refCount := j.refCount-1 }) :=
      view_update (g := fun i => { i with refCount := i.refCount-1 }) (fun _ => rfl) hj
    have htables : PeerTables A d (fun k => X k ∨ k=id) s₁ := by
      apply h.tables.recell (f := fun i => { i with refCount := i.refCount-1 })
        (g := fun i => { i with refCount := i.refCount-1 }) (c := j.newCell A s.key b) (v := none) hj
        (fun _ => rfl) rfl hun hun (mem_newCells hb)
      · intro k hk
        exact Option.some.inj (hk.symm.trans hc)
      · intro k hk
        cases hk
      · rw [if_pos hc,if_neg (by simp)]
        show j.refCount-1+1=j.refCount+0
        omega
      · have hlimit := h.tables.limit id j hj
        show j.refCount-1≤NEW_BUCKETS_PER_ADDRESS
        omega
    have hpositions : Positions s₁ := by
      have hup : Positions (s.update id fun info => { info with refCount := info.refCount-1 }) :=
        h.positions.update fun _ => rfl
      exact ⟨hup.index,hup.placed⟩
    refine ⟨⟨hpositions,htables.settle ?_⟩,⟨rfl,rfl,rfl⟩,?_,?_,?_⟩
    · intro k i _ hk hno
      rcases hk with hk | rfl
      · exact absurd hk hno
      · exact absurd hX hno
    · intro k hk
      rw [hview,Function.update_of_ne hk]
    · intro c hc'
      have hmatrix : s₁.newMatrix=Function.update s.newMatrix (j.newCell A s.key b) none := rfl
      rw [hmatrix] at hc'
      have hne : c≠j.newCell A s.key b := by
        rintro rfl
        rw [Function.update_self] at hc'
        cases hc'
      rw [Function.update_of_ne hne] at hc'
      refine ⟨hc',?_⟩
      rintro rfl
      exact hne (h.tables.cell hc' hj).2.1
    · exact ⟨{ j with refCount := j.refCount-1 },by rw [hview,Function.update_self],hun,hpeer⟩
  · rw [if_neg hc]
    refine ⟨h,⟨rfl,rfl,rfl⟩,fun _ _ => rfl,?_,j,hj,hun,hpeer⟩
    intro c hc'
    refine ⟨hc',?_⟩
    rintro rfl
    apply hc
    rw [← (h.tables.cell hc' hj).2.1]
    exact hc'

theorem leaveBuckets_linked (buckets : List ℕ) (hb : ∀ b∈buckets,b<NEW_BUCKET_COUNT) (h : Linked A d X s)
    (hj : s.view id=some j) (hun : j.isTried=false) (hpeer : info.peerInfo=j.peerInfo)
    (hX : X id) :
    let s' := buckets.foldl (fun s bucket => leaveBucket A id info bucket s) s
    Linked A d X s' ∧ Kept s s' ∧ (∀ k,k≠id → s'.view k=s.view k) ∧
      (∀ c,s'.newMatrix c=some id → s.newMatrix c=some id ∧ c.1∉buckets) ∧
      ∃ j',s'.view id=some j' ∧ j'.isTried=false ∧ info.peerInfo=j'.peerInfo := by
  induction buckets generalizing s j with
  | nil => exact ⟨h,⟨rfl,rfl,rfl⟩,fun _ _ => rfl,fun c hc => ⟨hc,List.not_mem_nil⟩,j,hj,hun,hpeer⟩
  | cons b buckets ih =>
    obtain ⟨h₁,hkept₁,hview₁,hcells₁,j₁,hj₁,hun₁,hpeer₁⟩ :=
      leaveBucket_linked h hj hun hpeer (hb b List.mem_cons_self) hX
    obtain ⟨h₂,hkept₂,hview₂,hcells₂,j₂,hj₂,hun₂,hpeer₂⟩ :=
      ih (fun b hb' => hb b (List.mem_cons_of_mem _ hb')) h₁ hj₁ hun₁ hpeer₁
    refine ⟨h₂,⟨hkept₂.key.trans hkept₁.key,hkept₂.idCount.trans hkept₁.idCount,
      hkept₂.triedMatrix.trans hkept₁.triedMatrix⟩,?_,?_,j₂,hj₂,hun₂,hpeer₂⟩
    · intro k hk
      exact (hview₂ k hk).trans (hview₁ k hk)
    · intro c hc
      obtain ⟨hc₁,hno⟩ := hcells₂ c hc
      obtain ⟨hc₀,hne⟩ := hcells₁ c hc₁
      refine ⟨hc₀,?_⟩
      rw [List.mem_cons,not_or]
      exact ⟨hne,hno⟩

theorem leaveNewTable_linked (h : Linked A d X s) (hj : s.view id=some j)
    (hun : j.isTried=false) (hpeer : info.peerInfo=j.peerInfo) (hX : X id) :
    Linked A d X (leaveNewTable A id info s) ∧ Kept s (leaveNewTable A id info s) ∧
      (∀ c,(leaveNewTable A id info s).newMatrix c≠some id) ∧
      ∃ j',(leaveNewTable A id info s).view id=some j' ∧ j'.isTried=false ∧ info.peerInfo=j'.peerInfo := by
  obtain ⟨buckets,hbuckets⟩ : ∃ l,l=List.range NEW_BUCKET_COUNT := ⟨_,rfl⟩
  have hmem (b : ℕ) : b∈buckets ↔ b<NEW_BUCKET_COUNT := by
    rw [hbuckets]
    exact List.mem_range
  unfold leaveNewTable
  rw [← hbuckets]
  obtain ⟨hlinked,hkept,-,hcells,hentry⟩ :=
    leaveBuckets_linked buckets (fun b hb => (hmem b).mp hb) h hj hun hpeer hX
  refine ⟨hlinked,hkept,?_,hentry⟩
  intro c hc
  obtain ⟨hlt,-⟩ := hlinked.tables.newCell c id hc
  exact (hcells c hc).2 ((hmem c.1).mpr hlt)

theorem evict_run (h : Linked A d X s) {c : ℕ × ℕ} {e : ℕ} (hc : s.triedMatrix c=some e) :
    ∃ s',evict A c e s=(.ok (),s') ∧ Linked A d X s' ∧ s'.key=s.key ∧
      s'.triedMatrix=Function.update s.triedMatrix c none ∧
      ∀ k,k≠e → (∀ c,s.newMatrix c≠some k) → s'.view k=s.view k := by
  obtain ⟨old,hold,htried,hcell⟩ := (h.tables.tried c e).mp hc
  obtain ⟨i,hget,rfl⟩ := view_eq_some hold
  have hzero := h.tables.triedRef e i.bare hold htried
  set s₁ : AddressManager := { (s.update e fun info => { info with isTried := false }).setTriedMatrix c none with
    triedCount := s.triedCount-1 }
  have hview₁ : s₁.view=Function.update s.view e (some { i.bare with isTried := false }) :=
    view_update (g := fun i => { i with isTried := false }) (fun _ => rfl) hold
  have hpositions₁ : Positions s₁ := by
    have hup : Positions (s.update e fun info => { info with isTried := false }) := h.positions.update fun _ => rfl
    exact ⟨hup.index,hup.placed⟩
  have htables₁ : PeerTables A (d+1) (fun k => X k ∨ k=e) s₁ :=
    h.tables.untry (g := fun i => { i with isTried := false }) hold (fun _ => rfl) rfl rfl rfl hc
  set cell := i.newCell A s.key (i.getNewBucket A s.key none) with hcell'
  have hnot : s₁.newMatrix cell≠some e := by
    intro he
    have hpos := (h.tables.cell he hold).2.2
    omega
  obtain ⟨s₂,hclear,h₂,hkept₂,hmatrix₂,hview₂⟩ := clearNew_run ⟨hpositions₁,htables₁⟩ cell
  have hi₂ : s₂.view e=some { i.bare with isTried := false } := by
    rw [hview₂ e hnot,hview₁,Function.update_self]
  have hfree : s₂.newMatrix cell=none := by
    rw [hmatrix₂,Function.update_self]
  set s₃ : AddressManager := { (s₂.update e fun info => { info with refCount := 1 }).setNewMatrix cell (some e) with
    newCount := s₂.newCount+1 }
  have hview₃ : s₃.view=Function.update s₂.view e (some { i.bare with isTried := false,refCount := 1 }) :=
    view_update (g := fun i => { i with refCount := 1 }) (fun _ => rfl) hi₂
  have hlt : cell.1<NEW_BUCKET_COUNT := getNewBucket_lt i s.key none
  have htables₃ : PeerTables A d (fun k => (X k ∨ k=e) ∨ k=e) s₃ := by
    have hcelled := h₂.tables.recell (g := fun i => { i with refCount := 1 }) (f := fun i => { i with refCount := 1 })
      (c := cell) (v := some e) hi₂ (fun _ => rfl) rfl rfl rfl (mem_newCells hlt) (fun k hk => by
        rw [hfree] at hk
        cases hk) (fun k hk => by
        refine ⟨(Option.some.inj hk).symm,hlt,?_⟩
        rw [hkept₂.key]
        rfl) (by
        rw [if_neg (by rw [hfree]; simp),if_pos rfl]
        show (1 : ℤ)+0=i.refCount+1
        have hz : i.refCount=0 := hzero
        omega) (by
        show (1 : ℤ)≤NEW_BUCKETS_PER_ADDRESS
        decide)
    apply hcelled.recount
    show s₂.newCount+1+d=s₂.newCount+(d+1)
    omega
  have hpositions₃ : Positions s₃ := by
    have hup : Positions (s₂.update e fun info => { info with refCount := 1 }) := h₂.positions.update fun _ => rfl
    exact ⟨hup.index,hup.placed⟩
  refine ⟨s₃,?_,⟨hpositions₃,htables₃.settle ?_⟩,hkept₂.key,hkept₂.triedMatrix,?_⟩
  · have hlookup : (Eff.lift (assertSome (s.mapInfo.get? e)) : AddressM ExtendedPeerInfo) s=(.ok i,s) := by
      rw [hget]
      rfl
    have hmodify : (Eff.modify fun s => { (s.update e fun info => { info with isTried := false }).setTriedMatrix c none with
        triedCount := s.triedCount-1 } : AddressM Unit) s=(.ok (),s₁) := rfl
    unfold evict
    rw [Eff.bind_get,Eff.bind_of_ok hlookup,Eff.bind_of_ok hmodify,Eff.bind_of_ok hclear]
    rfl
  · intro k j hk hX hno _
    have hke : k=e := by
      rcases hX with (hX | hX) | hX
      · exact absurd hX hno
      · exact hX
      · exact hX
    subst hke
    rw [hview₃,Function.update_self] at hk
    rw [← Option.some.inj hk]
    exact Int.one_pos
  · intro k hk hno
    rw [hview₃,Function.update_of_ne hk,hview₂ k (hno cell),hview₁,Function.update_of_ne hk]

variable (info) in
theorem makeTried_run (h : Linked A d X s) (hj : s.view id=some j) (hun : j.isTried=false)
    (hpeer : info.peerInfo=j.peerInfo) : ∃ s',makeTried A info id s=(.ok (),s') ∧ Linked A d X s' := by
  have hweak : Linked A d (fun k => X k ∨ k=id) s := by
    refine ⟨h.positions,{ h.tables with untried := ?_ }⟩
    intro k i hk hX ht
    exact h.tables.untried k i hk (fun hx => hX (Or.inl hx)) ht
  obtain ⟨h₁,hkept₁,hgone,j₁,hj₁,hun₁,hpeer₁⟩ :=
    leaveNewTable_linked hweak hj hun hpeer (Or.inr rfl)
  set s₁ := leaveNewTable A id info s with hs₁
  have hzero : j₁.refCount=0 := by
    rw [h₁.tables.refCount id j₁ hj₁,occurrences_eq_zero fun c _ => hgone c]
    rfl
  obtain ⟨i,hget,rfl⟩ := view_eq_some hj₁
  set s₂ : AddressManager := { s₁ with newCount := s₁.newCount-1 }
  have h₂ : Linked A (d+1) (fun k => X k ∨ k=id) s₂ := by
    refine ⟨⟨h₁.positions.index,h₁.positions.placed⟩,h₁.tables.recount ?_⟩
    omega
  have hcell : info.triedCell A s₁.key=i.bare.triedCell A s₁.key := triedCell_congr hpeer₁ _
  have hfinish {s₃ : AddressManager} (h₃ : Linked A (d+1) (fun k => X k ∨ k=id) s₃)
      (hj₃ : s₃.view id=some i.bare) (hkey : s₃.key=s₁.key)
      (hfree : s₃.triedMatrix (info.triedCell A s₁.key)=none) :
      Linked A d X (enterTried (info.triedCell A s₁.key) id s₃) := by
    have hcell₃ : info.triedCell A s₁.key=i.bare.triedCell A s₃.key := by rw [hkey,hcell]
    rw [hcell₃] at hfree ⊢
    have htables := h₃.tables.enterTried hj₃ hzero hfree
    rw [add_sub_cancel_right] at htables
    have hpositions : Positions (enterTried (i.bare.triedCell A s₃.key) id s₃) := by
      have hup : Positions (s₃.update id fun info => { info with isTried := true }) :=
        h₃.positions.update fun _ => rfl
      exact ⟨hup.index,hup.placed⟩
    refine ⟨hpositions,htables.settle ?_⟩
    intro k u hk hX hno ht
    have hview : (enterTried (i.bare.triedCell A s₃.key) id s₃).view =
        Function.update s₃.view id (some { i.bare with isTried := true }) :=
      view_update (g := fun i => { i with isTried := true }) (fun _ => rfl) hj₃
    rcases hX with hX | rfl
    · exact absurd hX hno
    · rw [hview,Function.update_self] at hk
      rw [← Option.some.inj hk] at ht
      cases ht
  have hfold : (Eff.modify (leaveNewTable A id info) : AddressM Unit) s=(.ok (),s₁) := rfl
  have hlookup : (Eff.lift (lookup (s₁.mapInfo.get? id)) : AddressM ExtendedPeerInfo) s₁=(.ok i,s₁) := by
    rw [hget]
    rfl
  have hassert : (Eff.lift (assertThat (i.refCount=0)) : AddressM Unit) s₁=(.ok (),s₁) := by
    have hz : i.refCount=0 := hzero
    unfold assertThat
    rw [if_pos hz]
    rfl
  have hcount : (Eff.modify fun s => { s with newCount := s.newCount-1 } : AddressM Unit) s₁=(.ok (),s₂) := rfl
  have hrun : makeTried A info id s=(s₁.triedMatrix (info.triedCell A s₁.key)).elim
      (Eff.modify (enterTried (info.triedCell A s₁.key) id))
      (fun e => evict A (info.triedCell A s₁.key) e >>= fun _ =>
        Eff.modify (enterTried (info.triedCell A s₁.key) id)) s₂ := by
    unfold makeTried
    rw [Eff.bind_of_ok hfold,Eff.bind_get,Eff.bind_of_ok hlookup,Eff.bind_of_ok hassert,Eff.bind_of_ok hcount]
    cases s₁.triedMatrix (info.triedCell A s₁.key) <;> rfl
  rw [hrun]
  cases hmatrix : s₁.triedMatrix (info.triedCell A s₁.key) with
  | none => exact ⟨_,rfl,hfinish h₂ hj₁ rfl hmatrix⟩
  | some e =>
    obtain ⟨old,hold,htried,-⟩ := (h₂.tables.tried _ e).mp hmatrix
    have hne : id≠e := by
      rintro rfl
      have heq := Option.some.inj (hj₁.symm.trans hold)
      rw [← heq,hun₁] at htried
      cases htried
    obtain ⟨s₃,hevict,h₃,hkey₃,hmatrix₃,hview₃⟩ := evict_run h₂ hmatrix
    refine ⟨_,Eff.bind_of_ok hevict _,hfinish h₃ ?_ hkey₃ ?_⟩
    · rw [hview₃ id hne hgone]
      exact hj₁
    · rw [hmatrix₃,Function.update_self]

end AddressManager
end RoseChain
