import RoseChain.Consensus.Blockchain
import RoseChain.FullNode.Caching

namespace RoseChain
open Lib
variable {E : Env} {V : BlockView} {g : GetBlockGenerator}

theorem forkEffects_observes (hg : ∀ b,Observes E (g b)) (curr : FullBlock) :
    Observes E (forkEffects E g curr) := by
  unfold forkEffects
  split
  · exact observes_pure _
  · exact (hg curr).bind fun _ => (observes_lift _).bind fun _ => (observes_lift _).bind fun _ =>
      observes_lift _

theorem reorgBlocks_observes (forkH : ℤ) (n : ℕ) (curr : FullBlock) (blocks : Dict ℕ FullBlock) :
    Observes E (reorgBlocks forkH n curr blocks) := by
  induction n generalizing curr blocks with
  | zero => exact observes_raise _
  | succ n ih =>
    unfold reorgBlocks
    split_ifs
    · exact (BlockStore.getFullBlock_observes _).bind fun _ => (observes_lift _).bind fun _ => ih _ _
    · exact observes_pure _

theorem collectSinceFork_observes (hg : ∀ b,Observes E (g b)) (forkH : ℤ)
    (blocks : Dict ℕ FullBlock) (n : ℕ) (curr : FullBlock) (s : SinceFork) :
    Observes E (collectSinceFork E g forkH blocks n curr s) := by
  induction n generalizing curr s with
  | zero => exact observes_raise _
  | succ n ih =>
    unfold collectSinceFork
    split
    · refine (forkEffects_observes hg curr).bind fun _ => (observes_lift _).bind fun _ => ?_
      split
      · exact observes_pure _
      · exact (observes_lift _).bind fun _ => ih _ _
    · exact observes_pure _

theorem sinceFork_observes (hg : ∀ b,Observes E (g b)) (prevHeaderHash : Bytes32) (height : ℕ)
    (forkH : ℤ) : Observes E (sinceFork E g prevHeaderHash height forkH) := by
  unfold sinceFork
  split_ifs
  · exact observes_pure _
  · refine (BlockStore.getFullBlock_observes _).bind fun _ => (observes_lift _).bind fun _ =>
      (reorgBlocks_observes _ _ _ _).bind fun _ => ?_
    exact (observes_lift _).bind fun _ => collectSinceFork_observes hg _ _ _ _ _
  · refine (BlockStore.getFullBlock_observes _).bind fun _ => (observes_lift _).bind fun _ =>
      (reorgBlocks_observes _ _ _ _).bind fun _ => ?_
    exact collectSinceFork_observes hg _ _ _ _ _

theorem removalCoinRecord_observes (height timestamp : ℕ) (allAdditions : List Coin) (forkH : ℤ)
    (s : SinceFork) (rem : Bytes32) :
    Observes E (removalCoinRecord E height timestamp allAdditions forkH s rem) := by
  unfold removalCoinRecord
  split
  · exact observes_pure _
  · exact (CoinStore.getCoinRecord_observes rem).bind fun _ => observes_lift _

theorem removalCoinRecords_observes (height timestamp : ℕ) (allAdditions : List Coin) (forkH : ℤ)
    (s : SinceFork) (removals : List Bytes32) (records : Dict Bytes32 CoinRecord) :
    Observes E (removalCoinRecords E height timestamp allAdditions forkH s removals records) := by
  induction removals generalizing records with
  | nil => exact observes_pure _
  | cons rem more ih => exact (removalCoinRecord_observes _ _ _ _ _ rem).bind fun _ => ih _

theorem validateRemovals_observes (hg : ∀ b,Observes E (g b)) (peak : Option BlockRecord)
    (prevHeaderHash : Bytes32) (height timestamp : ℕ) (allAdditions : List Coin)
    (removals : List Bytes32) (forkPointWithPeak : Option ℕ) :
    Observes E (validateRemovals E V peak prevHeaderHash height timestamp allAdditions removals
      forkPointWithPeak g) :=
  (observes_lift _).bind fun _ => (observes_lift _).bind fun _ =>
    (sinceFork_observes hg _ _ _).bind fun _ => removalCoinRecords_observes _ _ _ _ _ _ _

theorem validateBlockBody_observes (hg : ∀ b,Observes E (g b)) (peak : Option BlockRecord)
    (block : BlockBody) (height : ℕ) (npcResult : Option NPCResult) (forkPointWithPeak : Option ℕ) :
    Observes E (validateBlockBody E V peak block height npcResult forkPointWithPeak g) := by
  unfold validateBlockBody
  split_ifs
  · exact (observes_lift _).bind fun _ => observes_pure _
  · split
    · refine (observes_lift _).bind fun _ => (observes_lift _).bind fun _ =>
        (observes_lift _).bind fun _ => (observes_lift _).bind fun _ => (observes_lift _).bind fun _ =>
          (observes_lift _).bind fun _ => ?_
      exact (validateRemovals_observes hg _ _ _ _ _ _ _).bind fun _ => (observes_lift _).bind fun _ =>
        (observes_lift _).bind fun _ => (observes_lift _).bind fun _ => observes_pure _
    · exact observes_fail _

namespace Blockchain

theorem mainChainBlock_observes (refHeight : ℕ) : Observes E (mainChainBlock refHeight) :=
  .read (fun _ => rfl) (fun _ _ => rfl) fun _ => (observes_lift _).bind fun _ =>
    (BlockStore.getFullBlock_observes _).bind fun _ => observes_lift _

theorem generatorArgAt_observes (branch : Dict ℕ FullBlock) (refHeight : ℕ) :
    Observes E (generatorArgAt branch refHeight) := by
  unfold generatorArgAt
  cases branch.get? refHeight with
  | some refBlock => exact observes_lift _
  | none => exact (mainChainBlock_observes refHeight).bind fun _ => observes_lift _

theorem reorgChain_observes (fork : ℤ) (n : ℕ) (curr : FullBlock) (found : Dict ℕ FullBlock) :
    Observes E (reorgChain fork n curr found) := by
  induction n generalizing curr found with
  | zero => exact observes_raise _
  | succ n ih =>
    unfold reorgChain
    dsimp only
    split_ifs
    · exact (BlockStore.getFullBlock_observes _).bind fun _ => (observes_lift _).bind fun _ => ih _ _
    · exact observes_pure _

theorem sideBranchBlocks_observes (block : BlockBody) (height : Option ℕ)
    (additionalBlocks : Dict Bytes32 FullBlock) :
    Observes E (sideBranchBlocks block height additionalBlocks) := by
  refine (observes_lift _).bind fun _ => .read (fun _ => rfl) (fun _ _ => rfl) fun w =>
    (observes_lift _).bind fun peak => ?_
  cases peak with
  | none => exact observes_pure _
  | some peak =>
    dsimp only
    split_ifs
    · refine (BlockStore.getBlockRecord_observes _).bind fun _ =>
        (BlockStore.getFullBlock_observes _).bind fun _ => (observes_lift _).bind fun _ =>
          (observes_lift _).bind fun _ => (observes_lift _).bind fun _ => reorgChain_observes _ _ _ _
    · exact observes_pure _

theorem getBlockGenerator_observes (block : BlockBody) (height : Option ℕ)
    (additionalBlocks : Dict Bytes32 FullBlock) :
    Observes E (getBlockGenerator block height additionalBlocks) := by
  unfold getBlockGenerator
  dsimp only
  cases block.transactionsGenerator with
  | none => exact (observes_lift _).bind fun _ => observes_pure _
  | some generator =>
    dsimp only
    split
    · exact observes_pure _
    · refine .read (fun _ => rfl) (fun _ _ => rfl) fun w => (observes_lift _).bind fun onMainChain => ?_
      split
      · exact (observes_mapM (generatorArgAt_observes _) _).bind fun _ => observes_pure _
      · exact (sideBranchBlocks_observes _ _ _).bind fun _ =>
          (observes_mapM (generatorArgAt_observes _) _).bind fun _ => observes_pure _

theorem blockGenerator_observes (block : FullBlock) : Observes E (blockGenerator block) :=
  getBlockGenerator_observes _ _ _

theorem getTxRemovalsAndAdditions_observes (block : FullBlock) (npcResult : Option NPCResult) :
    Observes E (getTxRemovalsAndAdditions E block npcResult) := by
  unfold getTxRemovalsAndAdditions
  split
  · cases npcResult with
    | some r => exact observes_lift _
    | none =>
      exact (blockGenerator_observes block).bind fun _ => (observes_lift _).bind fun _ => observes_lift _
  · exact observes_pure _

theorem blocksToAdd_observes (forkHeight : ℤ) (n : ℕ) (curr : Bytes32) :
    Observes E (blocksToAdd forkHeight n curr) := by
  induction n generalizing curr with
  | zero => exact observes_raise _
  | succ n ih =>
    refine .read (fun _ => rfl) (fun _ _ => rfl) fun w => (observes_lift _).bind fun atFork => ?_
    split
    · exact observes_pure _
    · refine (BlockStore.getFullBlock_observes _).bind fun _ =>
        (BlockStore.getBlockRecord_observes _).bind fun _ => (observes_lift _).bind fun fullBlock =>
          (observes_lift _).bind fun _ => ?_
      split
      · exact observes_pure _
      · exact (ih _).bind fun _ => observes_pure _

theorem applyBlock_transparent (tip : Bytes32) (npcResult : Option NPCResult)
    (b : FullBlock × BlockRecord) : Transparent E (applyBlock E tip npcResult b) := by
  unfold applyBlock
  split
  · exact (getTxRemovalsAndAdditions_observes _ _).transparent.bind fun _ =>
      CoinStore.newBlock_transparent _ _ _
  · exact transparent_pure _

theorem genesisPeak_transparent (blockRecord : BlockRecord) (npcResult : Option NPCResult) :
    Transparent E (genesisPeak E blockRecord npcResult) :=
  (BlockStore.getFullBlock_transparent _).bind fun _ => (transparent_lift _).bind fun _ =>
    (transparent_lift _).bind fun _ => (CoinStore.newBlock_transparent _ _ _).bind fun _ =>
      (BlockStore.setPeak_transparent _).bind fun _ => transparent_pure _

theorem rollbackForReorg_transparent (blockRecord peak : BlockRecord) (forkHeight : ℤ) :
    Transparent E (rollbackForReorg E blockRecord peak forkHeight) := by
  unfold rollbackForReorg
  split
  · exact CoinStore.rollbackToBlock_transparent forkHeight
  · exact transparent_pure _

theorem heavierPeak_transparent (blockRecord peak : BlockRecord) (forkPointWithPeak : Option ℕ)
    (npcResult : Option NPCResult) :
    Transparent E (heavierPeak E blockRecord peak forkPointWithPeak npcResult) :=
  .read (fun _ => rfl) fun _ => (transparent_lift _).bind fun _ =>
    (rollbackForReorg_transparent _ _ _).bind fun _ => (transparent_modifyChain _).bind fun _ =>
      (blocksToAdd_observes _ _ _).transparent.bind fun _ =>
        (transparent_forM (applyBlock_transparent _ _) _).bind fun _ =>
          (BlockStore.setPeak_transparent _).bind fun _ => transparent_pure _

theorem reconsiderPeak_transparent (blockRecord : BlockRecord) (genesis : Bool)
    (forkPointWithPeak : Option ℕ) (npcResult : Option NPCResult) :
    Transparent E (reconsiderPeak E blockRecord genesis forkPointWithPeak npcResult) := by
  refine .read (fun _ => rfl) fun w => (transparent_lift _).bind fun peak => ?_
  split
  · split
    · exact genesisPeak_transparent _ _
    · exact transparent_pure _
  · refine (transparent_lift _).bind fun peak => ?_
    split
    · exact heavierPeak_transparent _ _ _ _
    · exact transparent_pure _

/-- What `codeOf` makes of an answer. -/
def codeOfAnswer {α : Type} : Check α → Check (Except Err α)
  | .ok a => .ok (.ok a)
  | .error (.invalid e) => .ok (.error e)
  | .error (.raised e) => .error (.raised e)

variable {α : Type}

theorem codeOf_eq (m : NodeM α) : codeOf m=fun w => (codeOfAnswer (m w).1,(m w).2) := by
  funext w
  unfold codeOf codeOfAnswer
  rcases m w with ⟨(_ | _) | _,s⟩ <;> rfl

/-- What `onValueError` makes of an answer. -/
def valueErrorAnswer {α : Type} (code : Err) : Check α → Check α
  | .error (.raised .value) => .error (.invalid code)
  | r => r

theorem onValueError_eq (code : Err) (m : NodeM α) :
    onValueError code m=fun w => (valueErrorAnswer code (m w).1,(m w).2) := by
  funext w
  unfold onValueError valueErrorAnswer
  rcases m w with ⟨(_ | e) | a,s⟩
  · rfl
  · cases e <;> rfl
  · rfl

theorem onValueError_observes {m : NodeM α} (code : Err) (h : Observes E m) :
    Observes E (onValueError code m) := by
  rw [onValueError_eq]
  refine h.mapAnswer fun e => ?_
  unfold valueErrorAnswer
  split <;> exact ⟨_,rfl⟩

section
variable (block : FullBlock)

theorem runGenerator_observes : Observes E (runGenerator E block) := by
  unfold runGenerator
  split
  · exact (onValueError_observes _ (blockGenerator_observes block)).bind fun _ =>
      (observes_lift _).bind fun _ => (observes_lift _).bind fun _ => observes_pure _
  · exact observes_pure _

theorem validateHeader_observes : Observes E (validateHeader E block) :=
  .read (fun _ => rfl) (fun _ _ => rfl) fun _ => (observes_lift _).bind fun _ =>
    (observes_lift _).bind fun _ => (runGenerator_observes block).bind fun _ => (observes_lift _).bind fun _ =>
      (observes_lift _).bind fun _ => (observes_lift _).bind fun _ => observes_pure _

theorem validateBlock_observes (pre : Option PreValidationResult)
    (forkPointWithPeak : Option ℕ) : Observes E (validateBlock E block pre forkPointWithPeak) := by
  have hrest (r : ℕ × Option NPCResult) : Observes E (do
      let w ← Eff.get
      let peak ← Eff.lift (getPeak w.chain)
      let _ ← validateBlockBody E w.chain.view peak block.body block.height r.2 forkPointWithPeak
        blockGenerator
      let blockRecord ← Eff.lift (blockToBlockRecord E w.chain.view r.1 block)
      return (blockRecord,r.2)) :=
    .read (fun _ => rfl) (fun _ _ => rfl) fun _ => (observes_lift _).bind fun _ =>
      (validateBlockBody_observes blockGenerator_observes _ _ _ _ _).bind fun _ =>
        (observes_lift _).bind fun _ => observes_pure _
  cases pre with
  | none => exact (validateHeader_observes block).bind hrest
  | some r => exact (observes_lift _).bind hrest

theorem storeBlock_transparent (blockRecord : BlockRecord)
    (forkPointWithPeak : Option ℕ) (npcResult : Option NPCResult) :
    Transparent E (storeBlock E block blockRecord forkPointWithPeak npcResult) :=
  (transparent_execute (fun _ => rfl) fun _ => rfl).bind fun _ =>
    (BlockStore.addFullBlock_transparent _ _ _).bind fun _ =>
      (reconsiderPeak_transparent _ _ _ _).bind fun _ => commitTransaction_transparent.bind fun _ =>
        (transparent_modifyChain _).bind fun _ => transparent_pure _

end

end Blockchain
end RoseChain
