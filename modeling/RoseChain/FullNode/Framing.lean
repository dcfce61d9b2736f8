import RoseChain.FullNode.Caching

namespace RoseChain
open Lib
variable {E : Env} {α β : Type}

/-- What the coin store leaves alone while a transaction is open: blocks, records and the index. -/
structure Framed (w w' : World) : Prop where
  fullBlocks : w'.db.fullBlocks=w.db.fullBlocks
  blockRecords : w'.db.blockRecords=w.db.blockRecords
  saved : w'.saved=w.saved
  chain : w'.chain=w.chain
  blocks : w.blockCache.Within w.block? → w'.blockCache.Within w.block?

/-- From a state with an open transaction, with or without an error at the end. -/
def KeepsIndex (m : NodeM α) : Prop := ∀ w : World,w.saved.isSome → Framed w (m w).2

theorem Framed.refl (w : World) : Framed w w := ⟨rfl,rfl,rfl,rfl,id⟩

variable {w w' : World}

theorem Framed.block? (h : Framed w w') : w'.block?=w.block? := by
  unfold World.block?
  rw [h.fullBlocks]

theorem Framed.record? (h : Framed w w') : w'.record?=w.record? := by
  unfold World.record?
  rw [h.blockRecords]

theorem Framed.trans {w₁ w₂ w₃ : World} (h : Framed w₁ w₂) (h' : Framed w₂ w₃) : Framed w₁ w₃ where
  fullBlocks := h'.fullBlocks.trans h.fullBlocks
  blockRecords := h'.blockRecords.trans h.blockRecords
  saved := h'.saved.trans h.saved
  chain := h'.chain.trans h.chain
  blocks hb := by
    have h₂ := h'.blocks (by rw [h.block?]; exact h.blocks hb)
    rwa [h.block?] at h₂

theorem Quiet.framed (h : Quiet E w w') : Framed w w' :=
  ⟨by rw [h.db],by rw [h.db],h.saved,h.chain,h.blocks⟩

variable {m : NodeM α}

theorem Observes.keepsIndex (h : Observes E m) : KeepsIndex m :=
  fun w _ => (h.quiet w).framed

theorem keepsIndex_pure (a : α) : KeepsIndex (pure a : NodeM α) := fun w _ => .refl w

theorem keepsIndex_lift (x : Check α) : KeepsIndex (Eff.lift x) := fun w _ => .refl w

theorem keepsIndex_raise (e : PyErr) : KeepsIndex (raise e : NodeM α) := fun w _ => .refl w

theorem KeepsIndex.bind {f : α → NodeM β} (hm : KeepsIndex m)
    (hf : ∀ a,KeepsIndex (f a)) : KeepsIndex (m >>= f) := by
  intro w hw
  have h := hm w hw
  rcases hr : m w with ⟨r | r,s⟩ <;> rw [hr] at h
  · rw [Eff.bind_of_error hr]
    exact h
  · rw [Eff.bind_of_ok hr]
    exact h.trans (hf r s (by rw [h.saved]; exact hw))

theorem KeepsIndex.read {f : World → NodeM α} (hf : ∀ w,KeepsIndex (f w)) :
    KeepsIndex (Eff.get >>= f) := fun w hw => hf w w hw

theorem keepsIndex_forM {f : α → NodeM PUnit} (hf : ∀ a,KeepsIndex (f a)) (l : List α) :
    KeepsIndex (l.forM f) := by
  induction l with
  | nil => exact keepsIndex_pure _
  | cons a l ih => exact (hf a).bind fun _ => ih

theorem framed_due (w : World) (i : Option (ℕ × PyErr)) : Framed w (w.due i) :=
  ⟨rfl,rfl,rfl,rfl,id⟩

theorem modifyCoinCache_keepsIndex
    (f : LRUCache Bytes32 CoinRecord → LRUCache Bytes32 CoinRecord) : KeepsIndex (modifyCoinCache f) :=
  fun _ _ => ⟨rfl,rfl,rfl,rfl,id⟩

theorem executeCheck_cases (f : Tables → Check Tables) (w : World) :
    (∃ e i,executeCheck f w=(.error e,w.due i)) ∨ ∃ db r i,f w.db = .ok db ∧
      executeCheck f w=(r,{ w with db := db,saved := w.saved.or (some w.db),interrupt := i }) := by
  unfold executeCheck
  obtain ⟨i,h | ⟨e,h⟩⟩ := await_cases w
  swap
  · rw [Eff.bind_of_error h]
    exact Or.inl ⟨e,i,rfl⟩
  rw [Eff.bind_of_ok h,Eff.bind_get]
  cases hdb : f w.db with
  | error e =>
    have hl : (Eff.lift (f (w.due i).db) : NodeM Tables) (w.due i)=(.error e,w.due i) := by
      rw [Eff.lift_apply]
      exact Prod.ext hdb rfl
    rw [Eff.bind_of_error hl]
    exact Or.inl ⟨e,i,rfl⟩
  | ok db =>
    have hl : (Eff.lift (f (w.due i).db) : NodeM Tables) (w.due i)=(.ok db,w.due i) := by
      rw [Eff.lift_apply]
      exact Prod.ext hdb rfl
    rw [Eff.bind_of_ok hl,Eff.bind_of_ok (Eff.modify_apply _ _)]
    obtain ⟨j,h' | ⟨e,h'⟩⟩ :=
      await_cases { w.due i with db := db,saved := (w.due i).saved.or (some (w.due i).db) }
    · exact Or.inr ⟨db,_,j,rfl,h'⟩
    · exact Or.inr ⟨db,_,j,rfl,h'⟩

theorem saved_or (h : w.saved.isSome) : w.saved.or (some w.db)=w.saved := by
  obtain ⟨s,hs⟩ := Option.isSome_iff_exists.mp h
  simp [hs]

theorem executeCheck_keepsIndex {f : Tables → Check Tables}
    (hf : ∀ t t',f t = .ok t' → t'.fullBlocks=t.fullBlocks ∧ t'.blockRecords=t.blockRecords) :
    KeepsIndex (executeCheck f) := by
  intro w hw
  rcases executeCheck_cases f w with ⟨e,i,h⟩ | ⟨db,r,i,hdb,h⟩
  · rw [h]
    exact framed_due w i
  · obtain ⟨hb,hr⟩ := hf _ _ hdb
    rw [h]
    refine ⟨hb,hr,saved_or hw,rfl,fun hc k v hv => ?_⟩
    simpa [World.block?,hb] using hc k v hv

namespace BlockStore

variable {hash : Bytes32}

theorem getFullBlock_answer {w w' : World} (hw : w.blockCache.Within w.block?)
    {o : Option FullBlock} (h : getFullBlock hash w=(.ok o,w')) : o=w.block? hash := by
  unfold getFullBlock at h
  rw [Eff.bind_get] at h
  obtain ⟨_,s,hs,h⟩ := Eff.bind_ok h
  obtain rfl : s = { w with blockCache := (w.blockCache.get hash).2 } := by cases hs; rfl
  rw [LRUCache.get_fst] at h
  cases hc : w.blockCache.cache.get? hash with
  | some b =>
    rw [hc] at h
    cases h
    exact (hw hash b hc).symm
  | none =>
    rw [hc] at h
    dsimp only at h
    obtain ⟨i,hf | ⟨e,hf⟩⟩ := fetch_cases (fun t => t.fullBlocks.get? hash)
      { w with blockCache := (w.blockCache.get hash).2 }
    · rw [Eff.bind_of_ok hf] at h
      unfold World.block?
      cases hr : w.db.fullBlocks.get? hash <;> simp only [hr] at h <;> cases h <;> rfl
    · rw [Eff.bind_of_error hf] at h
      cases h

theorem getBlockRecord_answer {w w' : World} {o : Option BlockRecord}
    (h : getBlockRecord hash w=(.ok o,w')) : o=w.record? hash := by
  unfold getBlockRecord at h
  obtain ⟨i,hf | ⟨e,hf⟩⟩ := fetch_cases (fun t => t.blockRecords.get? hash) w
  · rw [Eff.bind_of_ok hf] at h
    cases h
    rfl
  · rw [Eff.bind_of_error hf] at h
    cases h

end BlockStore

namespace CoinStore

theorem addCoinRecord_keepsIndex (record : CoinRecord) (allowReplace : Bool) :
    KeepsIndex (addCoinRecord E record allowReplace) := by
  refine (modifyCoinCache_keepsIndex _).bind fun _ => executeCheck_keepsIndex fun t t' h => ?_
  obtain ⟨-,rfl⟩ := insertCoin_eq_ok.mp h
  exact ⟨rfl,rfl⟩

theorem setSpent_keepsIndex (name : Bytes32) (index : ℕ) : KeepsIndex (setSpent E name index) := by
  refine (getCoinRecord_observes name).keepsIndex.bind fun record => ?_
  cases record with
  | none => exact keepsIndex_raise _
  | some current =>
    exact (keepsIndex_lift _).bind fun _ => (addCoinRecord_keepsIndex _ _).bind fun _ =>
      keepsIndex_pure _

theorem setSpentAll_keepsIndex (index : ℕ) (names : List Bytes32) : KeepsIndex (setSpentAll E index names) := by
  induction names with
  | nil => exact keepsIndex_pure _
  | cons name more ih =>
    exact (setSpent_keepsIndex name index).bind fun _ => ih.bind fun _ => keepsIndex_pure _

theorem newBlock_keepsIndex (block : FullBlock) (txAdditions : List Coin) (txRemovals : List Bytes32) :
    KeepsIndex (newBlock E block txAdditions txRemovals) := by
  unfold newBlock
  cases block.foliageTransactionBlock with
  | none => exact keepsIndex_pure _
  | some ftb =>
    refine (keepsIndex_forM (fun _ => addCoinRecord_keepsIndex _ _) _).bind fun _ => ?_
    refine (keepsIndex_lift _).bind fun _ => (keepsIndex_lift _).bind fun _ => ?_
    refine (keepsIndex_forM (fun _ => addCoinRecord_keepsIndex _ _) _).bind fun _ => ?_
    exact (setSpentAll_keepsIndex _ _).bind fun _ => keepsIndex_lift _

theorem rollbackToBlock_keepsIndex (blockIndex : ℤ) : KeepsIndex (rollbackToBlock E blockIndex) := by
  have hcoins (f : Dict Bytes32 CoinRecord → Dict Bytes32 CoinRecord) :
      KeepsIndex (execute fun t => { t with coinRecord := f t.coinRecord }) :=
    executeCheck_keepsIndex fun t t' h => by cases h; exact ⟨rfl,rfl⟩
  exact .read fun _ => (keepsIndex_lift _).bind fun _ => (modifyCoinCache_keepsIndex _).bind fun _ =>
    (hcoins (·.filter fun _ r => decide ((r.confirmedBlockIndex : ℤ)≤blockIndex))).bind fun _ =>
      hcoins (·.mapVals fun _ r => rolledBack blockIndex r)

end CoinStore
end RoseChain
