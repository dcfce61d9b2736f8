import Mathlib.Algebra.Order.Ring.Int
import Mathlib.Data.Finset.Prod
import RoseChain.Lib.Occurrences
import RoseChain.Server.AddressManager

namespace RoseChain
open Lib AddressManager
variable {A : Placement} {d : ℤ} {X : ℕ → Prop} {s s' : AddressManager} {id : ℕ} {info : ExtendedPeerInfo}

@[irreducible] def newCells : Finset (ℕ × ℕ) := Finset.range NEW_BUCKET_COUNT ×ˢ Finset.range BUCKET_SIZE

/-- An entry without its place in `random_pos`, its times and its counters of attempts. -/
def ExtendedPeerInfo.bare (info : ExtendedPeerInfo) : ExtendedPeerInfo :=
  { info with
    timestamp := 0,randomPos := none,lastSuccess := 0,lastTry := 0,numAttempts := 0,lastCountAttempt := 0 }

def AddressManager.view (s : AddressManager) (id : ℕ) : Option ExtendedPeerInfo := (s.mapInfo.get? id).map (·.bare)

/-- `random_pos` lists the ids, and each entry knows its index. -/
structure Positions (s : AddressManager) : Prop where
  index : ∀ (i id : ℕ),s.randomPos[i]?=some id ↔ ∃ info,s.mapInfo.get? id=some info ∧ info.randomPos=some i
  placed : ∀ id info,s.mapInfo.get? id=some info → ∃ i,info.randomPos=some i

/-- The tables agree with the entries, but for those of `X`, which may be in none, and `d` that are not counted.
-/
structure PeerTables (A : Placement) (d : ℤ) (X : ℕ → Prop) (s : AddressManager) : Prop where
  address : ∀ host id,s.mapAddr.get? host=some id ↔ ∃ info,s.view id=some info ∧ info.peerInfo.host=host
  fresh : ∀ id info,s.view id=some info → id ≤ s.idCount
  newCell : ∀ c id,s.newMatrix c=some id →
    c.1<NEW_BUCKET_COUNT ∧ ∃ info,s.view id=some info ∧ c=info.newCell A s.key c.1
  refCount : ∀ id info,s.view id=some info → info.refCount=occurrences newCells s.newMatrix id
  limit : ∀ id info,s.view id=some info → info.refCount≤NEW_BUCKETS_PER_ADDRESS
  untried : ∀ id info,s.view id=some info → ¬ X id → info.isTried=false → 0 < info.refCount
  triedRef : ∀ id info,s.view id=some info → info.isTried=true → info.refCount=0
  tried : ∀ c id,s.triedMatrix c=some id ↔
    ∃ info,s.view id=some info ∧ info.isTried=true ∧ c=info.triedCell A s.key
  usedNew : ∀ c,c∈s.usedNewMatrixPositions ↔ (s.newMatrix c).isSome
  usedTried : ∀ c,c∈s.usedTriedMatrixPositions ↔ (s.triedMatrix c).isSome
  triedCount : s.triedCount=s.usedTriedMatrixPositions.card
  count : s.newCount+s.triedCount+d=s.randomPos.length

/-- Nothing but timestamps, counters and places in `random_pos` is different. -/
structure SamePeerTables (s s' : AddressManager) : Prop where
  view : s'.view=s.view
  key : s'.key=s.key
  idCount : s'.idCount=s.idCount
  mapAddr : s'.mapAddr=s.mapAddr
  newMatrix : s'.newMatrix=s.newMatrix
  triedMatrix : s'.triedMatrix=s.triedMatrix
  usedNew : s'.usedNewMatrixPositions=s.usedNewMatrixPositions
  usedTried : s'.usedTriedMatrixPositions=s.usedTriedMatrixPositions
  triedCount : s'.triedCount=s.triedCount
  newCount : s'.newCount=s.newCount
  length : s'.randomPos.length=s.randomPos.length

theorem PeerTables.congr (h : PeerTables A d X s) (e : SamePeerTables s s') : PeerTables A d X s' := by
  obtain ⟨h₁,h₂,h₃,h₄,h₅,h₆,h₇,h₈,h₉,h₁₀,h₁₁,h₁₂⟩ := h
  obtain ⟨e₁,e₂,e₃,e₄,e₅,e₆,e₇,e₈,e₉,e₁₀,e₁₁⟩ := e
  constructor
  · rwa [e₄,e₁]
  · rwa [e₁,e₃]
  · rwa [e₅,e₁,e₂]
  · rwa [e₁,e₅]
  · rwa [e₁]
  · rwa [e₁]
  · rwa [e₁]
  · rwa [e₆,e₁,e₂]
  · rwa [e₇,e₅]
  · rwa [e₈,e₆]
  · rwa [e₉,e₈]
  · rwa [e₁₀,e₉,e₁₁]

theorem mem_newCells {info : ExtendedPeerInfo} {key : Bytes32} {bucket : ℕ} (h : bucket<NEW_BUCKET_COUNT) :
    info.newCell A key bucket∈newCells := by
  unfold newCells
  rw [Finset.mem_product,Finset.mem_range,Finset.mem_range]
  exact ⟨h,Nat.mod_lt _ (by decide)⟩

theorem getNewBucket_lt (info : ExtendedPeerInfo) (key : Bytes32) (src : Option PeerInfo) :
    info.getNewBucket A key src<NEW_BUCKET_COUNT := Nat.mod_lt _ (by decide)

theorem PeerTables.cell (h : PeerTables A d X s) {c : ℕ × ℕ} (hc : s.newMatrix c=some id) (hi : s.view id=some info) :
    c∈newCells ∧ c=info.newCell A s.key c.1 ∧ 0 < info.refCount := by
  obtain ⟨hlt,info',hi',hcell⟩ := h.newCell c id hc
  obtain rfl : info=info' := Option.some.inj (hi.symm.trans hi')
  have hmem : c∈newCells := by
    rw [hcell]
    exact mem_newCells hlt
  refine ⟨hmem,hcell,?_⟩
  rw [h.refCount id info hi]
  exact_mod_cast occurrences_pos hmem hc

namespace AddressManager

theorem update_get? (s : AddressManager) (id : ℕ) (f : ExtendedPeerInfo → ExtendedPeerInfo) (k : ℕ) :
    (s.update id f).mapInfo.get? k=(s.mapInfo.get? k).map fun info => if k=id then f info else info :=
  Dict.get?_mapVals ..

variable {f : ExtendedPeerInfo → ExtendedPeerInfo}

theorem view_update {g : ExtendedPeerInfo → ExtendedPeerInfo} (hf : ∀ i,(f i).bare=g i.bare)
    (hi : s.view id=some info) : (s.update id f).view=Function.update s.view id (some (g info)) := by
  funext k
  unfold view at hi ⊢
  rw [update_get?]
  by_cases hk : k=id
  · subst hk
    rw [Function.update_self]
    obtain ⟨i,hget,rfl⟩ := Option.map_eq_some_iff.mp hi
    rw [hget,Option.map_some,Option.map_some,if_pos rfl,hf]
  · rw [Function.update_of_ne hk]
    cases s.mapInfo.get? k with
    | none => rfl
    | some i => rw [Option.map_some,if_neg hk]

theorem view_update_bare (hf : ∀ i,(f i).bare=i.bare) : (s.update id f).view=s.view := by
  funext k
  unfold view
  rw [update_get?,Option.map_map]
  congr 1
  funext i
  show (if k=id then f i else i).bare=i.bare
  split_ifs
  · exact hf i
  · rfl

end AddressManager

theorem Positions.update (h : Positions s) {f : ExtendedPeerInfo → ExtendedPeerInfo}
    (hf : ∀ i,(f i).randomPos=i.randomPos) : Positions (s.update id f) := by
  have hpos (k : ℕ) (i : ExtendedPeerInfo) : (if k=id then f i else i).randomPos=i.randomPos := by
    split_ifs
    · exact hf i
    · rfl
  refine ⟨?_,?_⟩
  · intro i k
    show s.randomPos[i]?=some k ↔ _
    rw [h.index,update_get?]
    simp only [Option.map_eq_some_iff]
    constructor
    · rintro ⟨info,hget,hi⟩
      exact ⟨_,⟨info,hget,rfl⟩,(hpos k info).trans hi⟩
    · rintro ⟨_,⟨info,hget,rfl⟩,hi⟩
      exact ⟨info,hget,(hpos k info).symm.trans hi⟩
  · intro k info hget
    rw [update_get?,Option.map_eq_some_iff] at hget
    obtain ⟨info',hget',rfl⟩ := hget
    obtain ⟨i,hi⟩ := h.placed k info' hget'
    exact ⟨i,(hpos k info').trans hi⟩

variable {view : ℕ → Option ExtendedPeerInfo} {i : ExtendedPeerInfo}

theorem view_cases {v : Option ExtendedPeerInfo} {k : ℕ}
    (h : Function.update view id v k=some i) : (k=id ∧ v=some i) ∨ (k≠id ∧ view k=some i) := by
  by_cases hk : k=id
  · subst hk
    rw [Function.update_self] at h
    exact Or.inl ⟨rfl,h⟩
  · rw [Function.update_of_ne hk] at h
    exact Or.inr ⟨hk,h⟩

theorem forall_view {t : ℕ → Option ExtendedPeerInfo} {info' : ExtendedPeerInfo} {P : ℕ → ExtendedPeerInfo → Prop}
    (hview : t=Function.update view id (some info')) (hself : P id info') (hrest : ∀ k i,view k=some i → P k i)
    (k : ℕ) (i : ExtendedPeerInfo) (hk : t k=some i) : P k i := by
  rw [hview] at hk
  rcases view_cases hk with ⟨rfl,hi⟩ | ⟨-,hk⟩
  · rw [← Option.some.inj hi]
    exact hself
  · exact hrest k i hk

theorem exists_view_update {info' : ExtendedPeerInfo}
    (hi : view id=some info) {Q : ExtendedPeerInfo → Prop} (hQ : Q info' ↔ Q info) (k : ℕ) :
    (∃ i,Function.update view id (some info') k=some i ∧ Q i) ↔ ∃ i,view k=some i ∧ Q i := by
  by_cases hk : k=id
  · subst hk
    rw [Function.update_self,hi]
    constructor
    · rintro ⟨i,hi',hq⟩
      rw [← Option.some.inj hi'] at hq
      exact ⟨info,rfl,hQ.mp hq⟩
    · rintro ⟨i,hi',hq⟩
      rw [← Option.some.inj hi'] at hq
      exact ⟨info',rfl,hQ.mpr hq⟩
  · rw [Function.update_of_ne hk]

variable {i' : ExtendedPeerInfo}

theorem newCell_congr (h : i'.peerInfo=i.peerInfo) (key : Bytes32) (bucket : ℕ) :
    i'.newCell A key bucket=i.newCell A key bucket := by
  unfold ExtendedPeerInfo.newCell ExtendedPeerInfo.getBucketPosition
  rw [h]

theorem triedCell_congr (h : i'.peerInfo=i.peerInfo) (key : Bytes32) :
    i'.triedCell A key=i.triedCell A key := by
  unfold ExtendedPeerInfo.triedCell ExtendedPeerInfo.getTriedBucket ExtendedPeerInfo.getBucketPosition
  rw [h]

namespace PeerTables
variable {Y : ℕ → Prop} {info' : ExtendedPeerInfo} {c : ℕ × ℕ}

theorem settle (h : PeerTables A d X s) (hY : ∀ k i,s.view k=some i → X k → ¬ Y k → i.isTried=false →
    0 < i.refCount) : PeerTables A d Y s := by
  refine { h with untried := ?_ }
  intro k i hk hY' ht
  by_cases hX : X k
  · exact hY k i hk hX hY' ht
  · exact h.untried k i hk hX ht

variable {v : Option ExtendedPeerInfo} {k : ℕ} {i : ExtendedPeerInfo}

theorem untried_others (h : PeerTables A d X s) (hk : Function.update s.view id v k=some i) (hX : ¬ (X k ∨ k=id)) (ht : i.isTried=false) : 0 < i.refCount := by
  obtain ⟨rfl,-⟩ | ⟨-,hk⟩ := view_cases hk
  · exact absurd (Or.inr rfl) hX
  · exact h.untried k i hk (fun hx => hX (Or.inl hx)) ht

variable {f g : ExtendedPeerInfo → ExtendedPeerInfo}

section
variable (h : PeerTables A d X s)
include h

theorem recell (hi : s.view id=some info)
    (hf : ∀ i,(f i).bare=g i.bare) (hpeer : (g info).peerInfo=info.peerInfo) (hun : info.isTried=false)
    (hun' : (g info).isTried=false) (hc : c∈newCells) (hold : ∀ k,s.newMatrix c=some k → k=id)
    {v : Option ℕ} (hv : ∀ k,v=some k → k=id ∧ c.1<NEW_BUCKET_COUNT ∧ c=info.newCell A s.key c.1)
    (href : (g info).refCount+(if s.newMatrix c=some id then 1 else 0) =
      info.refCount+(if v=some id then 1 else 0)) (hlimit : (g info).refCount≤NEW_BUCKETS_PER_ADDRESS) :
    PeerTables A d (fun k => X k ∨ k=id) ((s.update id f).setNewMatrix c v) := by
  have hview : ((s.update id f).setNewMatrix c v).view=Function.update s.view id (some (g info)) :=
    view_update hf hi
  have hmatrix : ((s.update id f).setNewMatrix c v).newMatrix=Function.update s.newMatrix c v := rfl
  constructor
  · intro host k
    rw [hview,exists_view_update hi (by rw [hpeer])]
    exact h.address host k
  · exact forall_view hview (h.fresh _ info hi) h.fresh
  · intro c' k hc'
    rw [hview,exists_view_update hi (by rw [newCell_congr hpeer])]
    rw [hmatrix] at hc'
    by_cases he : c'=c
    · subst he
      rw [Function.update_self] at hc'
      obtain ⟨rfl,hlt,hcell⟩ := hv k hc'
      exact ⟨hlt,info,hi,hcell⟩
    · rw [Function.update_of_ne he] at hc'
      exact h.newCell c' k hc'
  · intro k i hk
    rw [hview] at hk
    rw [hmatrix]
    have hocc := occurrences_update s.newMatrix hc v k
    rcases view_cases hk with ⟨rfl,hi'⟩ | ⟨hne,hk⟩
    · have hcount := h.refCount _ info hi
      rw [← Option.some.inj hi']
      split_ifs at hocc href <;> omega
    · have hcount := h.refCount k i hk
      have h₁ : s.newMatrix c≠some k := fun he => hne (hold k he)
      have h₂ : v≠some k := fun he => hne (hv k he).1
      rw [if_neg h₁,if_neg h₂] at hocc
      omega
  · exact forall_view hview hlimit h.limit
  · intro k i hk hX ht
    rw [hview] at hk
    exact h.untried_others hk hX ht
  · refine forall_view hview (fun ht => ?_) h.triedRef
    rw [hun'] at ht
    cases ht
  · intro c' k
    rw [hview,exists_view_update hi (by rw [hun,hun',triedCell_congr hpeer])]
    exact h.tried c' k
  · intro c'
    rw [hmatrix]
    show c'∈(if v.isSome then insert c s.usedNewMatrixPositions else s.usedNewMatrixPositions.erase c) ↔ _
    by_cases he : c'=c
    · subst he
      rw [Function.update_self]
      split_ifs with hsome
      · simp [hsome]
      · simp [hsome]
    · rw [Function.update_of_ne he,← h.usedNew c']
      split_ifs
      · simp [he]
      · simp [he]
  · exact h.usedTried
  · exact h.triedCount
  · exact h.count

theorem recount {n e : ℤ} (hn : n+e=s.newCount+d) : PeerTables A e X { s with newCount := n } := by
  refine ⟨h.address,h.fresh,h.newCell,h.refCount,h.limit,h.untried,h.triedRef,h.tried,h.usedNew,h.usedTried,
    h.triedCount,?_⟩
  have hcount := h.count
  show n+s.triedCount+e=s.randomPos.length
  omega

theorem untry (hi : s.view id=some info)
    (hf : ∀ i,(f i).bare=g i.bare) (hpeer : (g info).peerInfo=info.peerInfo)
    (href : (g info).refCount=info.refCount) (hun : (g info).isTried=false) (hc : s.triedMatrix c=some id) :
    PeerTables A (d+1) (fun k => X k ∨ k=id)
      { (s.update id f).setTriedMatrix c none with triedCount := s.triedCount-1 } := by
  set t : AddressManager := { (s.update id f).setTriedMatrix c none with triedCount := s.triedCount-1 }
  have hview : t.view=Function.update s.view id (some (g info)) := view_update hf hi
  have hmatrix : t.triedMatrix=Function.update s.triedMatrix c none := rfl
  obtain ⟨_,hi₂,htried,hcell⟩ := (h.tried c id).mp hc
  obtain rfl := Option.some.inj (hi.symm.trans hi₂)
  have hmem : c∈s.usedTriedMatrixPositions := by
    rw [h.usedTried,hc]
    rfl
  constructor
  · intro host k
    rw [hview,exists_view_update hi (by rw [hpeer])]
    exact h.address host k
  · exact forall_view hview (h.fresh _ info hi) h.fresh
  · intro c' k hc'
    rw [hview,exists_view_update hi (by rw [newCell_congr hpeer])]
    exact h.newCell c' k hc'
  · refine forall_view hview ?_ h.refCount
    rw [href]
    exact h.refCount _ info hi
  · refine forall_view hview ?_ h.limit
    rw [href]
    exact h.limit _ info hi
  · intro k i hk hX ht
    rw [hview] at hk
    exact h.untried_others hk hX ht
  · refine forall_view hview (fun ht => ?_) h.triedRef
    rw [hun] at ht
    cases ht
  · intro c' k
    rw [hview,hmatrix]
    constructor
    · intro hc'
      have he : c'≠c := by
        rintro rfl
        rw [Function.update_self] at hc'
        cases hc'
      rw [Function.update_of_ne he] at hc'
      obtain ⟨i,hk,hti,hci⟩ := (h.tried c' k).mp hc'
      have hne : k≠id := by
        rintro rfl
        obtain rfl := Option.some.inj (hi.symm.trans hk)
        exact he (hci.trans hcell.symm)
      exact ⟨i,by rwa [Function.update_of_ne hne],hti,hci⟩
    · rintro ⟨i,hk,hti,hci⟩
      rcases view_cases hk with ⟨rfl,hi'⟩ | ⟨hne,hk⟩
      · rw [← Option.some.inj hi',hun] at hti
        cases hti
      · have hc' := (h.tried c' k).mpr ⟨i,hk,hti,hci⟩
        have he : c'≠c := by
          rintro rfl
          exact hne (Option.some.inj (hc'.symm.trans hc))
        rwa [Function.update_of_ne he]
  · exact h.usedNew
  · intro c'
    rw [hmatrix]
    show c'∈s.usedTriedMatrixPositions.erase c ↔ _
    by_cases he : c'=c
    · subst he
      simp
    · rw [Function.update_of_ne he,← h.usedTried c']
      simp [he]
  · show s.triedCount-1=((s.usedTriedMatrixPositions.erase c).card : ℤ)
    have hcard := Finset.card_erase_add_one hmem
    have hcount := h.triedCount
    omega
  · have hcount := h.count
    show s.newCount+(s.triedCount-1)+(d+1)=s.randomPos.length
    omega

theorem enterTried (hi : s.view id=some info)
    (href : info.refCount=0) (hfree : s.triedMatrix (info.triedCell A s.key)=none) :
    PeerTables A (d-1) X (AddressManager.enterTried (info.triedCell A s.key) id s) := by
  set t := AddressManager.enterTried (info.triedCell A s.key) id s
  have hview : t.view=Function.update s.view id (some { info with isTried := true }) :=
    view_update (g := fun i => { i with isTried := true }) (fun _ => rfl) hi
  have hmatrix : t.triedMatrix=Function.update s.triedMatrix (info.triedCell A s.key) (some id) := rfl
  have hkey : t.key=s.key := rfl
  have hmem : info.triedCell A s.key∉s.usedTriedMatrixPositions := by
    rw [h.usedTried,hfree]
    exact Bool.false_ne_true
  constructor
  · intro host k
    rw [hview,exists_view_update hi (by rfl)]
    exact h.address host k
  · exact forall_view hview (h.fresh _ info hi) h.fresh
  · intro c' k hc'
    rw [hview,exists_view_update hi (by rfl)]
    exact h.newCell c' k hc'
  · exact forall_view hview (h.refCount _ info hi) h.refCount
  · exact forall_view hview (h.limit _ info hi) h.limit
  · refine forall_view hview (fun _ ht => ?_) h.untried
    cases ht
  · exact forall_view hview (fun _ => href) h.triedRef
  · intro c' k
    rw [hview,hmatrix,hkey]
    constructor
    · intro hc'
      by_cases he : c'=info.triedCell A s.key
      · rw [he,Function.update_self] at hc'
        obtain rfl := Option.some.inj hc'
        exact ⟨_,Function.update_self ..,rfl,he.trans (triedCell_congr rfl s.key).symm⟩
      · rw [Function.update_of_ne he] at hc'
        obtain ⟨i,hk,hti,hci⟩ := (h.tried c' k).mp hc'
        have hne : k≠id := by
          rintro rfl
          obtain rfl := Option.some.inj (hi.symm.trans hk)
          exact he hci
        exact ⟨i,by rwa [Function.update_of_ne hne],hti,hci⟩
    · rintro ⟨i,hk,hti,hci⟩
      rcases view_cases hk with ⟨rfl,hi'⟩ | ⟨hne,hk⟩
      · rw [← Option.some.inj hi',triedCell_congr rfl] at hci
        rw [hci]
        exact Function.update_self ..
      · have hc' := (h.tried c' k).mpr ⟨i,hk,hti,hci⟩
        have he : c'≠info.triedCell A s.key := by
          rintro rfl
          rw [hfree] at hc'
          cases hc'
        rwa [Function.update_of_ne he]
  · exact h.usedNew
  · intro c'
    rw [hmatrix]
    show c'∈insert (info.triedCell A s.key) s.usedTriedMatrixPositions ↔ _
    by_cases he : c'=info.triedCell A s.key
    · subst he
      simp
    · rw [Function.update_of_ne he,← h.usedTried c']
      simp [he]
  · show s.triedCount+1=((insert (info.triedCell A s.key) s.usedTriedMatrixPositions).card : ℤ)
    rw [Finset.card_insert_of_notMem hmem]
    have hcount := h.triedCount
    omega
  · have hcount := h.count
    show s.newCount+(s.triedCount+1)+(d-1)=s.randomPos.length
    omega

theorem dropEntry (hi : s.view id=some info) (hun : info.isTried=false)
    (href : info.refCount=0) (hlen : 0<s.randomPos.length) :
    PeerTables A d X (AddressManager.dropEntry id info.peerInfo.host s) := by
  set t := AddressManager.dropEntry id info.peerInfo.host s
  have hview : t.view=Function.update s.view id none := by
    funext k
    unfold view
    show ((s.mapInfo.erase id).get? k).map _=_
    rw [Dict.get?_erase]
    by_cases hk : id=k
    · subst hk
      rw [if_pos rfl,Function.update_self]
      rfl
    · rw [if_neg hk,Function.update_of_ne (Ne.symm hk)]
  have hother {k : ℕ} {i : ExtendedPeerInfo} (hk : t.view k=some i) : k≠id ∧ s.view k=some i := by
    rw [hview] at hk
    rcases view_cases hk with ⟨-,hno⟩ | hk
    · cases hno
    · exact hk
  have hkept {k : ℕ} {i : ExtendedPeerInfo} (hne : k≠id) (hk : s.view k=some i) : t.view k=some i := by
    rwa [hview,Function.update_of_ne hne]
  have hhost : s.mapAddr.get? info.peerInfo.host=some id := (h.address _ id).mpr ⟨info,hi,rfl⟩
  constructor
  · intro host k
    show (s.mapAddr.erase info.peerInfo.host).get? host=some k ↔ _
    rw [Dict.get?_erase]
    constructor
    · intro hget
      split_ifs at hget with he
      obtain ⟨i,hk,hh⟩ := (h.address host k).mp hget
      have hne : k≠id := by
        rintro rfl
        obtain rfl := Option.some.inj (hi.symm.trans hk)
        exact he hh
      exact ⟨i,hkept hne hk,hh⟩
    · rintro ⟨i,hk,rfl⟩
      obtain ⟨hne,hk⟩ := hother hk
      have hget := (h.address _ k).mpr ⟨i,hk,rfl⟩
      rw [if_neg,hget]
      intro he
      rw [← he,hhost] at hget
      exact hne (Option.some.inj hget).symm
  · intro k i hk
    exact h.fresh k i (hother hk).2
  · intro c' k hc'
    obtain ⟨hlt,i,hk,hcell⟩ := h.newCell c' k hc'
    have hne : k≠id := by
      rintro rfl
      obtain ⟨-,-,hpos⟩ := h.cell hc' hi
      omega
    exact ⟨hlt,i,hkept hne hk,hcell⟩
  · intro k i hk
    exact h.refCount k i (hother hk).2
  · intro k i hk
    exact h.limit k i (hother hk).2
  · intro k i hk hX
    exact h.untried k i (hother hk).2 hX
  · intro k i hk
    exact h.triedRef k i (hother hk).2
  · intro c' k
    constructor
    · intro hc'
      obtain ⟨i,hk,hti,hci⟩ := (h.tried c' k).mp hc'
      have hne : k≠id := by
        rintro rfl
        obtain rfl := Option.some.inj (hi.symm.trans hk)
        rw [hun] at hti
        cases hti
      exact ⟨i,hkept hne hk,hti,hci⟩
    · rintro ⟨i,hk,hti,hci⟩
      exact (h.tried c' k).mpr ⟨i,(hother hk).2,hti,hci⟩
  · exact h.usedNew
  · exact h.usedTried
  · exact h.triedCount
  · have hcount := h.count
    have hdrop : t.randomPos.length=s.randomPos.length-1 := List.length_dropLast
    show s.newCount-1+s.triedCount+d=t.randomPos.length
    omega

theorem create (addr : TimestampedPeerInfo) (src : Option PeerInfo) (hnew : s.mapAddr.get? addr.host=none) :
    PeerTables A (d+1) (fun k => X k ∨ k=s.idCount+1) (AddressManager.create addr src s) := by
  set t := AddressManager.create addr src s
  have hview : t.view=Function.update s.view (s.idCount+1) (some (ExtendedPeerInfo.new addr src).bare) := by
    funext k
    unfold view
    show ((s.mapInfo.set (s.idCount+1) _).get? k).map _=_
    rw [Dict.get?_set]
    by_cases hk : s.idCount+1=k
    · subst hk
      rw [if_pos rfl,Function.update_self]
      rfl
    · rw [if_neg hk,Function.update_of_ne (Ne.symm hk)]
  have hkept {k : ℕ} {i : ExtendedPeerInfo} (hk : s.view k=some i) : k≠s.idCount+1 ∧ t.view k=some i := by
    have hle := h.fresh k i hk
    refine ⟨by omega,?_⟩
    rwa [hview,Function.update_of_ne (by omega)]
  constructor
  · intro host k
    show (s.mapAddr.set addr.host (s.idCount+1)).get? host=some k ↔ _
    rw [Dict.get?_set]
    constructor
    · intro hk
      split_ifs at hk with he
      · obtain rfl := Option.some.inj hk
        exact ⟨(ExtendedPeerInfo.new addr src).bare,by rw [hview,Function.update_self],he⟩
      · obtain ⟨i,hk,hh⟩ := (h.address host k).mp hk
        exact ⟨i,(hkept hk).2,hh⟩
    · rintro ⟨i,hk,rfl⟩
      rw [hview] at hk
      rcases view_cases hk with ⟨rfl,hi⟩ | ⟨-,hk⟩
      · rw [← Option.some.inj hi]
        exact if_pos rfl
      · have hget := (h.address _ k).mpr ⟨i,hk,rfl⟩
        rw [if_neg,hget]
        intro he
        rw [← he,hnew] at hget
        cases hget
  · exact forall_view hview (Nat.le_refl _) fun k i hk => Nat.le_succ_of_le (h.fresh k i hk)
  · intro c' k hc'
    obtain ⟨hlt,i,hk,hcell⟩ := h.newCell c' k hc'
    exact ⟨hlt,i,(hkept hk).2,hcell⟩
  · refine forall_view hview ?_ h.refCount
    have hzero : occurrences newCells s.newMatrix (s.idCount+1)=0 := by
      apply occurrences_eq_zero
      intro c' _ hc'
      obtain ⟨-,i,hk,-⟩ := h.newCell c' _ hc'
      exact (hkept hk).1 rfl
    show (0 : ℤ)=occurrences newCells s.newMatrix (s.idCount+1)
    rw [hzero]
    rfl
  · refine forall_view hview ?_ h.limit
    show (0 : ℤ)≤NEW_BUCKETS_PER_ADDRESS
    decide
  · intro k i hk hX ht
    rw [hview] at hk
    exact h.untried_others hk hX ht
  · refine forall_view hview (fun ht => ?_) h.triedRef
    cases ht
  · intro c' k
    constructor
    · intro hc'
      obtain ⟨i,hk,hti,hci⟩ := (h.tried c' k).mp hc'
      exact ⟨i,(hkept hk).2,hti,hci⟩
    · rintro ⟨i,hk,hti,hci⟩
      rw [hview] at hk
      rcases view_cases hk with ⟨rfl,hi⟩ | ⟨-,hk⟩
      · rw [← Option.some.inj hi] at hti
        cases hti
      · exact (h.tried c' k).mpr ⟨i,hk,hti,hci⟩
  · exact h.usedNew
  · exact h.usedTried
  · exact h.triedCount
  · have hcount := h.count
    have happend : t.randomPos.length=s.randomPos.length+1 := by
      show (s.randomPos++[s.idCount+1]).length=_
      rw [List.length_append,List.length_singleton]
    show s.newCount+s.triedCount+(d+1)=t.randomPos.length
    omega

end

end PeerTables
end RoseChain
