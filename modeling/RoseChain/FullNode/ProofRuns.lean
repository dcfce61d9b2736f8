import RoseChain.FullNode.ServedProofs

namespace RoseChain
open Lib Blockchain Eff
variable {E : Env} {w s : World} {P Q : List FullBlock} {b : FullBlock} {r : BlockRecord} {pre : Option PreValidationResult}
  {answer : ReceiveBlockResult × Option Err × Option ℕ}

theorem Arrival.grown (ha : Arrival E w P Q b r) (hb : s.block?=(w.adding E b r).block?)
    (hr : s.record?=(w.adding E b r).record?) : w.Grown s := by
  constructor
  · intro h x hx
    rw [hb,adding_block?,if_neg]
    · exact hx
    · intro hsame
      rw [← hsame,ha.isNew] at hx
      cases hx
  · intro h x hx
    rw [hr,adding_record?,if_neg]
    · exact hx
    · intro hsame
      rw [← hsame,ha.noRecord] at hx
      cases hx

theorem Answered.grown (ha : Answered E w s P b pre (.ok answer)) : w.Grown s := by
  cases ha with
  | still hs hno => exact .of_db hs.db
  | orphan ha hweight hheavy hs => exact ha.grown hs.block? hs.record?
  | newPeak ha hweight hheavy hat hapart hrecs hs => exact ha.grown hs.block? hs.record?_peak

theorem HeightsStored.grown (h : HeightsStored w) (hg : w.Grown s) (hc : s.chain.heightToHash=w.chain.heightToHash) :
    HeightsStored s := by
  intro i k hk
  rw [hc] at hk
  obtain ⟨x,hx,hheight⟩ := h i k hk
  exact ⟨x,hg.block k x hx,hheight⟩

theorem HeightsStored.answered (h : HeightsStored w) (ha : Answered E w s P b pre (.ok answer)) : HeightsStored s := by
  have hg := ha.grown
  cases ha with
  | still hs hno => exact h.grown hg (by rw [hs.chain])
  | orphan ha hweight hheavy hs => exact h.grown hg (by rw [hs.chain]; rfl)
  | @newPeak Q r k records ha hweight hheavy hat hapart hrecs hs =>
    have hrest := ha.resting_newPeak hat hrecs hs
    have hflip : List.Forall₂ (flip (StoredAs E (w.adding E b r))) records ((Q++[b]).drop k) := hrecs.flip
    intro i hash hhash
    rw [ha.newPeak_heightToHash hrecs hs] at hhash
    have hold : w.chain.heightToHash.get? i=some hash → ∃ x,s.block? hash=some x ∧ x.height=i := by
      intro hhash
      obtain ⟨x,hx,hheight⟩ := h i hash hhash
      exact ⟨x,hg.block hash x hx,hheight⟩
    split_ifs at hhash with hki
    · obtain hnew | ⟨-,hhash⟩ := Option.or_eq_some_iff.mp hhash
      · obtain ⟨record,hrecord,rfl⟩ := Option.map_eq_some_iff.mp hnew
        obtain ⟨x,hx,hstored⟩ := forall₂_getElem? hflip hrecord
        rw [getElem?_drop_sub hki] at hx
        obtain ⟨hlt,rfl⟩ := List.getElem?_eq_some_iff.mp hx
        obtain ⟨tip,hpath⟩ := hrest.main.path (by simp)
        rw [hstored.of.headerHash]
        exact ⟨_,hrest.stored (List.getElem_mem hlt),hpath.height_getElem i hlt⟩
      · exact hold hhash
    · exact hold hhash

namespace WeightProof
variable {n : ProofNode} {weightProofRecentBlocks : ℕ} {getWeightsForSampling : WeightsForSampling} {tip : Bytes32}

/-- A node that serves proofs, between calls. -/
structure Serving (E : Env) (n : ProofNode) (P : List FullBlock) : Prop where
  resting : Resting E n.world P
  summaries : SummariesOf E n.world P
  heights : HeightsStored n.world
  seen : Seen E n.world n

theorem Seen.grown (h : Seen E w n) (hi : Indexed E w) (hg : w.Grown s) (hs : AtRest s s) :
    Seen E s { n with world := s } where
  world := hs
  stored hash segments hget := (h.stored hash segments hget).grown hg hi
  cached hash segments hget := (h.cached hash segments hget).grown hg hi
  proof wp hwp := by
    obtain ⟨last,hlast,hfor⟩ := h.proof wp hwp
    exact ⟨last,hlast,hfor.grown hg hi⟩

theorem Serving.atRest (h : Serving E n P) {n' : ProofNode} (hn : Seen E n.world n') : Serving E n' P := by
  have hg : n.world.Grown n'.world := .of_db hn.world.db
  have hrest : Resting E n'.world P := h.resting.still ⟨rfl,rfl,rfl⟩ hn.world
  refine ⟨hrest,?_,h.heights.grown hg (by rw [hn.world.chain]),?_⟩
  · intro i
    rw [hn.world.chain,summaryOf_congr hn.world.db]
    exact h.summaries i
  · exact hn.grown h.resting.indexed hg (hrest.atRest _)

theorem Serving.due (h : Serving E n P) (i : Option (ℕ × PyErr)) : Serving E { n with world := n.world.due i } P :=
  h.atRest ⟨h.resting.atRest i,h.seen.stored,h.seen.cached,h.seen.proof⟩

theorem Serving.received (h : Serving E n P) (ha : Answered E n.world s P b pre (.ok answer)) :
    ∃ P',Serving E { n with world := s } P' := by
  obtain ⟨P',hrest,hses⟩ := SummariesOf.answered h.resting h.summaries ha
  refine ⟨P',hrest,hses,h.heights.answered ha,h.seen.grown h.resting.indexed ha.grown ?_⟩
  exact hrest.atRest s.interrupt

/-- The tip is not above the peak of the main chain, if it is known. -/
def NotAbovePeak (w : World) (tip : Bytes32) : Prop :=
  ∀ tipRec,w.chain.blockRecords.get? tip=some tipRec → ∃ peak,w.chain.peakHeight=some peak ∧ tipRec.height≤peak

/-- The tip is the block of the main chain at its height. -/
def OnMainChain (w : World) (tip : Bytes32) : Prop :=
  ∃ tipRec,w.chain.blockRecords.get? tip=some tipRec ∧ w.chain.heightToHash.get? tipRec.height=some tip

theorem Serving.tip_lt (h : Serving E n P) (hlow : NotAbovePeak n.world tip) {tipRec : BlockRecord}
    (hknown : n.world.chain.blockRecords.get? tip=some tipRec) : tipRec.height<P.length := by
  obtain ⟨peak,hpeak,hle⟩ := hlow tipRec hknown
  rw [h.resting.main.peakHeight] at hpeak
  split_ifs at hpeak with hnil
  have := Option.some.inj hpeak
  omega

theorem getProofOfWeight_none (h : ∀ tipRec,n.world.chain.blockRecords.get? tip=some tipRec →
    tipRec.height<weightProofRecentBlocks) :
    getProofOfWeight E weightProofRecentBlocks getWeightsForSampling tip n=(.ok none,n) := by
  rw [getProofOfWeight,Eff.bind_get,BlockView.tryBlockRecord]
  cases hget : n.world.chain.view.blockRecords.get? tip with
  | none => rfl
  | some tipRec =>
    dsimp only
    rw [if_pos (h tipRec hget)]
    rfl

theorem Serving.requested (h : Serving E n P) (hlow : NotAbovePeak n.world tip) :
    Serving E (getProofOfWeight E weightProofRecentBlocks getWeightsForSampling tip n).2 P := by
  cases hknown : n.world.chain.blockRecords.get? tip with
  | none =>
    rw [getProofOfWeight_none (by simp [hknown])]
    exact h
  | some tipRec =>
    have hasked : Answers (Seen E n.world) (getProofOfWeight E weightProofRecentBlocks getWeightsForSampling tip) _ :=
      getProofOfWeight_answers h.resting h.summaries h.heights hknown (h.tip_lt hlow hknown)
    exact h.atRest (hasked.keeps.state h.seen)

/-- The runs of block receptions that return and of requests for tips not above the peak, each run
to its end. -/
inductive ProofRun (E : Env) (weightProofRecentBlocks : ℕ) (getWeightsForSampling : WeightsForSampling) : ProofNode → Prop
  | start (blockCacheSize coinCacheSize : ℕ) :
    ProofRun E weightProofRecentBlocks getWeightsForSampling (.empty blockCacheSize coinCacheSize)
  | receive {n : ProofNode} (h : ProofRun E weightProofRecentBlocks getWeightsForSampling n) {b : FullBlock}
      {pre : Option PreValidationResult} {forkPointWithPeak : Option ℕ} (hfork : ProperFork E n.world b forkPointWithPeak)
      (i : Option (ℕ × PyErr)) {answer : ReceiveBlockResult × Option Err × Option ℕ}
      (hret : (receiveBlock E b pre forkPointWithPeak (n.world.due i)).1 = .ok answer) :
      ProofRun E weightProofRecentBlocks getWeightsForSampling
        { n with world := (receiveBlock E b pre forkPointWithPeak (n.world.due i)).2 }
  | request {n : ProofNode} (h : ProofRun E weightProofRecentBlocks getWeightsForSampling n) {tip : Bytes32}
      (hlow : NotAbovePeak n.world tip) : ProofRun E weightProofRecentBlocks getWeightsForSampling
        (getProofOfWeight E weightProofRecentBlocks getWeightsForSampling tip { n with world := n.world.due none }).2

theorem serving_empty (blockCacheSize coinCacheSize : ℕ) : Serving E (.empty blockCacheSize coinCacheSize) [] := by
  refine ⟨resting_empty _ _,fun _ => rfl,fun i h hh => ?_,⟨?_,fun h _ hh => ?_,fun h _ hh => ?_,fun wp hwp => ?_⟩⟩
  · cases hh
  · exact (resting_empty (E := E) _ _).atRest none
  · cases hh
  · cases hh
  · cases hwp

theorem ProofRun.serving (h : ProofRun E weightProofRecentBlocks getWeightsForSampling n) : ∃ P,Serving E n P := by
  induction h with
  | start m k => exact ⟨[],serving_empty m k⟩
  | @receive n h b pre forkPointWithPeak hfork i answer hret ih =>
    obtain ⟨P,hserving⟩ := ih
    have ha : Answered E n.world (receiveBlock E b pre forkPointWithPeak (n.world.due i)).2 P b pre
        (receiveBlock E b pre forkPointWithPeak (n.world.due i)).1 := hserving.resting.answered hfork i
    rw [hret] at ha
    exact hserving.received ha
  | request h hlow ih =>
    obtain ⟨P,hserving⟩ := ih
    exact ⟨P,(hserving.due none).requested hlow⟩

section Twins

/-- Nothing is drawn where the recent chain has half of the weight, and every sub-epoch is taken. -/
def sampleAll : WeightsForSampling := fun _ _ _ => .ok none

def twinBranches : List FullBlock := (((twinChain 1 6).reverse++(twinChain 2 4).reverse.drop 1)).map (·.block)

def receivedNode (blocks : List FullBlock) : ProofNode :=
  { ProofNode.empty 5 5 with world := (receiveAll twinEnv blocks (World.empty 5 5)).getD (World.empty 5 5) }

variable {blocks : List FullBlock}

theorem receiveAll_proofRun {w' : World}
    (h : ProofRun E weightProofRecentBlocks getWeightsForSampling n) (hall : receiveAll E blocks n.world=some w') :
    ProofRun E weightProofRecentBlocks getWeightsForSampling { n with world := w' } := by
  induction blocks generalizing n with
  | nil =>
    obtain rfl := Option.some.inj hall
    exact h
  | cons b blocks ih =>
    rw [receiveAll] at hall
    rcases hcall : receiveBlock E b tinyPre none (n.world.due none) with ⟨answer,s⟩
    rw [hcall] at hall
    cases answer with
    | error e => cases hall
    | ok answer =>
      have hfork : ProperFork E n.world b none := by
        intro forkPoint hsome
        cases hsome
      have hnext := ProofRun.receive h hfork none (by rw [hcall])
      rw [hcall] at hnext
      exact ih (n := { n with world := s }) hnext hall

theorem receivedNode_run (hsome : (receiveAll twinEnv blocks (World.empty 5 5)).isSome) :
    ProofRun twinEnv 2 sampleAll (receivedNode blocks) := by
  obtain ⟨w,hw⟩ := Option.isSome_iff_exists.mp hsome
  have hstart : ProofRun twinEnv 2 sampleAll (.empty 5 5) := .start 5 5
  have hrun := receiveAll_proofRun hstart hw
  rw [receivedNode,hw]
  exact hrun

def asked (blocks : List FullBlock) (tip : Bytes32) : Check (Option WeightProof) × ProofNode :=
  getProofOfWeight twinEnv 2 sampleAll tip { receivedNode blocks with world := (receivedNode blocks).world.due none }

variable {height : ℕ}

section
variable (htip : (w.chain.blockRecords.get? tip).map (·.height)=some height)
include htip

theorem notAbovePeak_of {peak : ℕ}
    (hpeak : w.chain.peakHeight=some peak) (hle : height≤peak) : NotAbovePeak w tip := by
  intro tipRec hknown
  rw [hknown] at htip
  obtain rfl := Option.some.inj htip
  exact ⟨peak,hpeak,hle⟩

theorem onMainChain_of (hindex : w.chain.heightToHash.get? height=some tip) : OnMainChain w tip := by
  obtain ⟨tipRec,hknown,rfl⟩ := Option.map_eq_some_iff.mp htip
  exact ⟨tipRec,hknown,hindex⟩

end

def recentHashes (answer : Check (Option WeightProof)) : Check (Option (List Bytes32)) :=
  answer.map fun o => o.map fun wp => wp.recentChainData.map (·.headerHash twinEnv)

def heavyBlock (n : ℕ) : FullBlock :=
  let weight := if n=4 then 60 else 7+n
  { twinBlock 3 n with rewardChainBlock := { (twinBlock 3 n).rewardChainBlock with weight } }

def heavyBranches : List FullBlock := (twinChain 1 6).reverse.map (·.block)++[1,2,3,4].map heavyBlock

end Twins

end WeightProof
end RoseChain
