import RoseChain.Consensus.Reading

namespace RoseChain
open Lib

/-- The same index in memory, and at least the same stored blocks and records. -/
structure World.Extends (w w' : World) : Prop where
  calm : w.interrupt=none
  calm' : w'.interrupt=none
  view : w'.chain.view=w.chain.view
  peakHeight : w'.chain.peakHeight=w.chain.peakHeight
  block : ∀ h b,w.block? h=some b → w'.block? h=some b
  record : ∀ h r,w.record? h=some r → w'.record? h=some r

/-- A reading computation that goes on to give the same value when the stores grow. -/
structure Stable (E : Env) {α : Type} (m : NodeM α) : Prop where
  observes : Observes E m
  grows : ∀ w w' : World,w.Extends w' → ∀ a,observe m w = .ok a → observe m w' = .ok a

variable {E : Env} {α β : Type}

theorem stable_pure (a : α) : Stable E (pure a : NodeM α) := ⟨observes_pure a,fun _ _ _ _ h => h⟩

theorem stable_lift (x : Check α) : Stable E (Eff.lift x) := ⟨observes_lift x,fun _ _ _ _ h => h⟩

theorem stable_raise (e : PyErr) : Stable E (raise e : NodeM α) :=
  ⟨observes_raise e,fun _ _ _ _ h => by simp [raise] at h⟩

variable {f : α → NodeM β}

theorem Stable.bind {m : NodeM α} (hm : Stable E m) (hf : ∀ a,Stable E (f a)) : Stable E (m >>= f) := by
  refine ⟨hm.observes.bind fun a => (hf a).observes,fun w w' hw b hb => ?_⟩
  rw [hm.observes.observe_bind f hw.calm,bind_ok] at hb
  obtain ⟨a,ha,hb⟩ := hb
  rw [hm.observes.observe_bind f hw.calm',hm.grows w w' hw a ha]
  exact (hf a).grows w w' hw b hb

theorem Stable.read {f : World → NodeM α} (hb : ∀ w : World,f w.bare=f w)
    (hd : ∀ (w : World) i,f (w.due i)=f w) (hc : ∀ w w' : World,w.Extends w' → f w'=f w)
    (hf : ∀ w,Stable E (f w)) : Stable E (Eff.get >>= f) := by
  refine ⟨.read hb hd fun w => (hf w).observes,fun w w' hw a ha => ?_⟩
  rw [observe_get,hb] at ha ⊢
  rw [hc w w' hw]
  exact (hf w).grows w w' hw a ha

theorem stable_mapM (hf : ∀ a,Stable E (f a)) (l : List α) : Stable E (l.mapM f) := by
  induction l with
  | nil => exact stable_pure _
  | cons a l ih =>
    rw [List.mapM_cons]
    exact (hf a).bind fun _ => ih.bind fun _ => stable_pure _

theorem stable_getFullBlock (hash : Bytes32) {f : FullBlock → NodeM β} (hf : ∀ b,Stable E (f b)) :
    Stable E (BlockStore.getFullBlock hash >>= fun o => Eff.lift (assertSome o) >>= f) := by
  refine ⟨(BlockStore.getFullBlock_observes hash).bind fun _ => (observes_lift _).bind fun b =>
    (hf b).observes,fun w w' hw a ha => ?_⟩
  have hget := BlockStore.getFullBlock_observes (E := E) hash
  rw [hget.observe_bind _ hw.calm,BlockStore.observe_getFullBlock hw.calm] at ha
  rw [hget.observe_bind _ hw.calm',BlockStore.observe_getFullBlock hw.calm']
  cases hb : w.block? hash with
  | none => rw [hb] at ha; cases ha
  | some b =>
    rw [hb] at ha
    rw [hw.block hash b hb]
    exact (hf b).grows w w' hw a ha

theorem stable_getBlockAndRecord (hash : Bytes32) {f : FullBlock → BlockRecord → NodeM β}
    (hf : ∀ b r,Stable E (f b r)) :
    Stable E (BlockStore.getBlockRecord hash >>= fun r => BlockStore.getFullBlock hash >>= fun o =>
      Eff.lift (assertSome o) >>= fun b => Eff.lift (assertSome r) >>= f b) := by
  have hget := BlockStore.getBlockRecord_observes (E := E) hash
  have hrest (r : Option BlockRecord) := stable_getFullBlock (E := E) hash
    fun b => (stable_lift (assertSome r)).bind (hf b)
  refine ⟨hget.bind fun r => (hrest r).observes,fun w w' hw a ha => ?_⟩
  rw [hget.observe_bind _ hw.calm,BlockStore.observe_getBlockRecord hw.calm] at ha
  rw [hget.observe_bind _ hw.calm',BlockStore.observe_getBlockRecord hw.calm']
  cases hr : w.record? hash with
  | some r =>
    rw [hr] at ha
    rw [hw.record hash r hr]
    exact (hrest (some r)).grows w w' hw a ha
  | none =>
    -- without a record the run raises
    rw [hr] at ha
    have hfull := BlockStore.getFullBlock_observes (E := E) hash
    change observe (BlockStore.getFullBlock hash >>= _) w = .ok a at ha
    rw [hfull.observe_bind _ hw.calm,BlockStore.observe_getFullBlock hw.calm] at ha
    cases hb : w.block? hash with
    | none => rw [hb] at ha; cases ha
    | some b => rw [hb] at ha; cases ha

namespace Blockchain

theorem mainChainBlock_stable (refHeight : ℕ) : Stable E (mainChainBlock refHeight) := by
  refine .read (fun _ => rfl) (fun _ _ => rfl) (fun w w' hw => ?_) fun w =>
    (stable_lift _).bind fun _ => ?_
  · simp only [hw.view]
  · simpa using stable_getFullBlock (E := E) _ fun b => stable_pure b

theorem generatorArgAt_stable (branch : Dict ℕ FullBlock) (refHeight : ℕ) :
    Stable E (generatorArgAt branch refHeight) := by
  unfold generatorArgAt
  cases branch.get? refHeight with
  | some refBlock => exact stable_lift _
  | none => exact (mainChainBlock_stable refHeight).bind fun _ => stable_lift _

theorem reorgChain_stable (fork : ℤ) (n : ℕ) (curr : FullBlock) (found : Dict ℕ FullBlock) :
    Stable E (reorgChain fork n curr found) := by
  induction n generalizing curr found with
  | zero => exact stable_raise _
  | succ n ih =>
    unfold reorgChain
    dsimp only
    split
    · exact stable_getFullBlock _ fun _ => ih _ _
    · exact stable_pure _

theorem getPeak_extends {w w' : World} (h : w.Extends w') : getPeak w'.chain=getPeak w.chain := by
  simp only [getPeak,h.peakHeight,h.view]

theorem sideBranchBlocks_stable (block : BlockBody) (height : Option ℕ)
    (additionalBlocks : Dict Bytes32 FullBlock) :
    Stable E (sideBranchBlocks block height additionalBlocks) := by
  refine (stable_lift _).bind fun p => .read (fun _ => rfl) (fun _ _ => rfl) (fun w w' hw => ?_) fun w =>
    (stable_lift _).bind fun peak => ?_
  · simp only [getPeak_extends hw,hw.view]
  · cases peak with
    | none => exact stable_pure _
    | some peak =>
      dsimp only
      split
      · exact stable_getBlockAndRecord _ fun _ _ => (stable_lift _).bind fun _ => reorgChain_stable _ _ _ _
      · exact stable_pure _

theorem getBlockGenerator_stable (block : BlockBody) (height : Option ℕ)
    (additionalBlocks : Dict Bytes32 FullBlock) :
    Stable E (getBlockGenerator block height additionalBlocks) := by
  unfold getBlockGenerator
  dsimp only
  cases block.transactionsGenerator with
  | none => exact (stable_lift _).bind fun _ => stable_pure _
  | some generator =>
    dsimp only
    split
    · exact stable_pure _
    · refine .read (fun _ => rfl) (fun _ _ => rfl) (fun w w' hw => ?_) fun w =>
        (stable_lift _).bind fun onMainChain => ?_
      · simp only [hw.view]
      · split
        · exact (stable_mapM (generatorArgAt_stable _) _).bind fun _ => stable_pure _
        · exact (sideBranchBlocks_stable _ _ _).bind fun _ =>
            (stable_mapM (generatorArgAt_stable _) _).bind fun _ => stable_pure _

theorem blockGenerator_stable (block : FullBlock) : Stable E (blockGenerator block) :=
  getBlockGenerator_stable _ _ _

theorem getTxRemovalsAndAdditions_stable (block : FullBlock) (npcResult : Option NPCResult) :
    Stable E (getTxRemovalsAndAdditions E block npcResult) := by
  unfold getTxRemovalsAndAdditions
  split
  · cases npcResult with
    | some r => exact stable_lift _
    | none =>
      exact (blockGenerator_stable block).bind fun _ => (stable_lift _).bind fun _ => stable_lift _
  · exact stable_pure _

end Blockchain
end RoseChain
