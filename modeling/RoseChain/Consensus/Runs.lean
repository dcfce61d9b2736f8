import RoseChain.Consensus.ReceiveBlock

namespace RoseChain
open Lib Blockchain
variable {E : Env} {fx : FullBlock → Effects} {w : World}

/-- The states of a node that receives blocks by proper calls. -/
inductive Reached (E : Env) (fx : FullBlock → Effects) : World → Prop
  | start (blockCacheSize coinCacheSize : ℕ) : Reached E fx (World.empty blockCacheSize coinCacheSize)
  | call {w : World} (h : Reached E fx w) {b : FullBlock} {pre : Option PreValidationResult}
      {forkPointWithPeak : Option ℕ} (hp : ProperCall E fx w b pre forkPointWithPeak) :
      Reached E fx (receiveBlock E b pre forkPointWithPeak w).2

theorem Reached.settled (hd : E.HalvesDiffer) (h : Reached E fx w) : Settled E fx w := by
  induction h with
  | start m n => exact settled_empty m n
  | call _ hp ih => exact ih.receiveBlock hd hp

/-- After every call the coin store is what `new_block` makes of the main chain, and queries answer so. -/
theorem reached_coinStore (hd : E.HalvesDiffer) (h : Reached E fx w) :
    ∃ P s,MainChain E w P ∧ replayCoins E fx P (World.empty 0 0)=(.ok (),s) ∧
      (∀ n,w.db.coinRecord.get? n=s.db.coinRecord.get? n) ∧
      ∀ n,(CoinStore.getCoinRecord E n w).1 = .ok (s.db.coinRecord.get? n) := by
  have hs := h.settled hd
  obtain ⟨P,book,hm,hrep,hshow⟩ := hs.chain
  obtain ⟨s,hrun,hshow'⟩ := replayCoins_run 0 0 hrep
  have hsame (n : Bytes32) : w.db.coinRecord.get? n=s.db.coinRecord.get? n := by
    rw [hshow.get,hshow'.get]
  refine ⟨P,s,hm,hrun,hsame,fun n => ?_⟩
  obtain ⟨w',hget,-,-⟩ := (CoinStore.getCoinRecord_observes n).run hs.coherent
  rw [hget,CoinStore.observe_getCoinRecord hs.coherent.calm,hsame]

def tinyVdf : VDFInfo := ⟨0,1,.getDefaultElement⟩
def tinyProof : VDFProof := ⟨0,[],false⟩
def tinySpace : ProofOfSpace := ⟨0,none,none,[],32,[]⟩

/-- A block with nothing in it, on the network of `tinyEnv`; its hash is the one given. -/
def tinyBlock (hash prev : Bytes32) (height weight : ℕ) : FullBlock where
  finishedSubSlots := []
  rewardChainBlock := ⟨weight,height,100+height,0,0,tinySpace,none,[],tinyVdf,none,[],tinyVdf,none,false⟩
  challengeChainSpProof := none
  challengeChainIpProof := tinyProof
  rewardChainSpProof := none
  rewardChainIpProof := tinyProof
  infusedChallengeChainIpProof := none
  foliage := ⟨prev,0,⟨0,⟨0,0⟩,none,0,hash⟩,[],none,none⟩
  foliageTransactionBlock := none
  transactionsInfo := none
  transactionsGenerator := none
  transactionsGeneratorRefList := []

def tinyFirst (hash : Bytes32) : FullBlock :=
  { tinyBlock hash 1 0 7 with
    foliage := { (tinyBlock hash 1 0 7).foliage with foliageTransactionBlockHash := some 0 }
    foliageTransactionBlock := some ⟨0,1,0,0,0,0⟩
    transactionsInfo := some ⟨0,ones32,[],0,0,[]⟩ }

def tinyGenesis : FullBlock := tinyFirst 10

def tinyPre : Option PreValidationResult := some ⟨none,some 1,none⟩

def noEffects : FullBlock → Effects := fun _ => ([],[])

theorem tinyEnv_halvesDiffer : tinyEnv.HalvesDiffer := by
  unfold ConsensusConstants.HalvesDiffer
  decide +kernel

variable {b : FullBlock}

theorem block?_all {p : FullBlock → Bool} (h : (w.db.fullBlocks.entries.all fun e => p e.2.block)=true) {k : Bytes32}
    (hb : w.block? k=some b) : p b=true := by
  obtain ⟨row,hrow,rfl⟩ := Option.map_eq_some_iff.mp hb
  exact List.all_eq_true.mp h (k,row) ((Dict.mem_entries _ _ _).mpr hrow)

theorem fixedEffects_none (h : (w.db.fullBlocks.entries.all fun e => e.2.block.transactionsGenerator.isNone)=true) :
    FixedEffects E noEffects w := by
  intro k b hb
  have hnone : b.transactionsGenerator=none :=
    Option.isNone_iff_eq_none.mp (block?_all (p := fun b => b.transactionsGenerator.isNone) h hb)
  unfold getTxRemovalsAndAdditions forkEffects
  rw [hnone,if_neg (by simp)]
  exact ⟨rfl,rfl⟩

theorem properCall_none {Q : List FullBlock}
    (hfixed : (w.db.fullBlocks.entries.all fun e => e.2.block.transactionsGenerator.isNone)=true)
    (hnone : (observe (validateBlock tinyEnv b tinyPre none) w).map Prod.snd = .ok none)
    (hfresh : madeNames tinyEnv b (noEffects b)=[] ∨
      (w.forest tinyEnv).OnTop Q b ∧ ∀ a∈Q,madeNames tinyEnv a (noEffects a)=[]) :
    ProperCall tinyEnv noEffects w b tinyPre none := by
  refine ⟨fun _ h => (by cases h),fixedEffects_none hfixed,?_,?_⟩
  · intro r npcResult h
    rw [h] at hnone
    have hn : npcResult=none := Except.ok.inj hnone
    rw [hn]
    rfl
  · intro Q' htop n hn a ha
    obtain hempty | ⟨htop',hothers⟩ := hfresh
    · rw [hempty] at hn
      cases hn
    · rw [hothers a (by rw [htop'.unique htop]; exact ha)]
      exact List.not_mem_nil

def firstClaims : List Coin := [createPoolCoin tinyEnv.constants 0 0 (calculatePoolReward 0),
  createFarmerCoin tinyEnv.constants 0 0 (calculateBaseFarmerReward 0)]

def claimingBlock (hash prev : Bytes32) (height weight : ℕ) : FullBlock :=
  { tinyBlock hash prev height weight with
    foliage := { (tinyBlock hash prev height weight).foliage with foliageTransactionBlockHash := some 0 }
    foliageTransactionBlock := some ⟨10,2,0,0,0,0⟩
    transactionsInfo := some ⟨0,ones32,[],0,0,firstClaims⟩ }

/-- The rewards of the first block are claimed on a chain of two, and on the branch that takes over.
-/
def claimingCalls : List FullBlock :=
  [tinyGenesis,claimingBlock 11 10 1 8,tinyBlock 21 10 1 8,claimingBlock 22 21 2 15]

def claimingState (n : ℕ) : World :=
  (claimingCalls.take n).foldl (fun w b => (receiveBlock tinyEnv b tinyPre none w).2) (World.empty 5 5)

theorem claimingState_blocks : (claimingState 1).block? 10=some tinyGenesis ∧
    (claimingState 3).block? 10=some tinyGenesis ∧ (claimingState 3).block? 21=some (tinyBlock 21 10 1 8) := by
  decide +kernel

theorem sidePath (hbelow : w.block? 10=some tinyGenesis) (hside : w.block? 21=some (tinyBlock 21 10 1 8)) :
    (w.forest tinyEnv).Path 21 [tinyGenesis,tinyBlock 21 10 1 8] :=
  .step (l := [tinyGenesis]) hside rfl (.root hbelow rfl)

theorem claimingState_before : Reached tinyEnv noEffects (claimingState 3) := by
  obtain ⟨hfirst,-,-⟩ := claimingState_blocks
  have h1 : Reached tinyEnv noEffects (claimingState 1) :=
    (Reached.start 5 5).call (properCall_none (Q := []) (by decide +kernel) (by decide +kernel) (Or.inl (by decide +kernel)))
  have htop1 : ((claimingState 1).forest tinyEnv).OnTop [tinyGenesis] (claimingBlock 11 10 1 8) :=
    ⟨rfl,Or.inr (.root hfirst rfl)⟩
  have h2 : Reached tinyEnv noEffects (claimingState 2) :=
    h1.call (properCall_none (by decide +kernel) (by decide +kernel) (Or.inr ⟨htop1,by decide +kernel⟩))
  exact h2.call (properCall_none (Q := []) (by decide +kernel) (by decide +kernel) (Or.inl (by decide +kernel)))

theorem claimingState_reached : Reached tinyEnv noEffects (claimingState 4) := by
  obtain ⟨-,hbelow,hside⟩ := claimingState_blocks
  exact claimingState_before.call (properCall_none (by decide +kernel) (by decide +kernel)
    (Or.inr ⟨⟨rfl,Or.inr (sidePath hbelow hside)⟩,by decide +kernel⟩))

/-- The coins of the old branch are gone, and they are there again from the new one. -/
theorem reached_coinStore_claiming : (claimingState 3).db.coinRecord.values.map (·.confirmedBlockIndex)=[1,1] ∧
    (claimingState 4).db.coinRecord.values.map (·.confirmedBlockIndex)=[2,2] ∧
    ∃ P s,MainChain tinyEnv (claimingState 4) P ∧ replayCoins tinyEnv noEffects P (World.empty 0 0)=(.ok (),s) ∧
      ∀ n,(claimingState 4).db.coinRecord.get? n=s.db.coinRecord.get? n := by
  refine ⟨by decide +kernel,by decide +kernel,?_⟩
  obtain ⟨P,s,hm,hrun,hsame,_⟩ := reached_coinStore tinyEnv_halvesDiffer claimingState_reached
  exact ⟨P,s,hm,hrun,hsame⟩

end RoseChain
