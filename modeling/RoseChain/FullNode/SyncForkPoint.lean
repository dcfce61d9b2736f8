import RoseChain.Consensus.IncludedSummaries
import RoseChain.Consensus.Reload

namespace RoseChain
open Lib ClassgroupElement
variable {E : Env} {w : World} {c : Chain} {l l' : List ChainLink} {received : List SubEpochSummary}

namespace Blockchain

def getSesHeights (c : Chain) : List ℕ := c.subEpochSummaries.keys.insertionSort (· ≤ ·)

def getSes (c : Chain) (height : ℕ) : Check SubEpochSummary := lookup (c.subEpochSummaries.get? height)

end Blockchain

namespace WeightProof
open Blockchain

/-- The loop of `get_fork_point` over the summary heights; gives `fork_point_index`. -/
def forkPointIndex (E : Env) (c : Chain) (receivedSummaries : List SubEpochSummary) :
    (idx forkPoint : ℕ) → List ℕ → Check ℕ
  | _,forkPoint,[] => .ok forkPoint
  | idx,forkPoint,summaryHeight::more => do
    let localSes ← getSes c summaryHeight
    -- the end of the received summaries: the local chain is longer or as long
    if (idx : ℤ)=receivedSummaries.length-1 then return forkPoint
    else if E.hashSubEpochSummary localSes≠E.hashSubEpochSummary (← index receivedSummaries[idx]?) then
      return forkPoint
    else forkPointIndex E c receivedSummaries (idx+1) idx more

def getForkPoint (E : Env) (c : Chain) (receivedSummaries : List SubEpochSummary) : Check ℕ := do
  let sesHeights := getSesHeights c
  let forkPoint ← forkPointIndex E c receivedSummaries 0 0 sesHeights
  if forkPoint > 2 then index sesHeights[forkPoint-2]? else return 0

section Loop

def Matches (E : Env) (c : Chain) (received : List SubEpochSummary) (height idx : ℕ) : Prop :=
  ∃ ses other,c.subEpochSummaries.get? height=some ses ∧ received[idx]?=some other ∧
    E.hashSubEpochSummary ses=E.hashSubEpochSummary other

theorem forkPointIndex_ok {idx forkPoint : ℕ} {heights : List ℕ} (hidx : idx < received.length)
    (hknown : ∀ h∈heights,(c.subEpochSummaries.get? h).isSome) :
    ∃ f,forkPointIndex E c received idx forkPoint heights = .ok f ∧
      (f=forkPoint ∨ idx≤f ∧ ∃ height,heights[f-idx]?=some height ∧ Matches E c received height f) := by
  induction heights generalizing idx forkPoint with
  | nil => exact ⟨forkPoint,rfl,Or.inl rfl⟩
  | cons h more ih =>
    obtain ⟨ses,hses⟩ := Option.isSome_iff_exists.mp (hknown h (by simp))
    have hlocal : getSes c h = .ok ses := lookup_eq_ok.mpr hses
    have hother : received[idx]?=some received[idx] := List.getElem?_eq_getElem hidx
    rw [forkPointIndex,bind_of_ok hlocal]
    by_cases hend : (idx : ℤ)=received.length-1
    · exact ⟨forkPoint,if_pos hend,Or.inl rfl⟩
    · rw [if_neg hend,bind_of_ok (index_eq_ok.mpr hother)]
      by_cases hdiffer : E.hashSubEpochSummary ses≠E.hashSubEpochSummary received[idx]
      · exact ⟨forkPoint,if_pos hdiffer,Or.inl rfl⟩
      · rw [if_neg hdiffer]
        have hrest : ∃ f,forkPointIndex E c received (idx+1) idx more = .ok f ∧ _ :=
          ih (by omega) fun k hk => hknown k (List.mem_cons_of_mem h hk)
        obtain ⟨f,hf,hcase⟩ := hrest
        refine ⟨f,hf,Or.inr ?_⟩
        obtain rfl | ⟨hle,height,hat,hmatch⟩ := hcase
        · exact ⟨le_rfl,h,by simp,ses,_,hses,hother,not_not.mp hdiffer⟩
        · refine ⟨by omega,height,?_,hmatch⟩
          rw [show f-idx=f-(idx+1)+1 by omega,List.getElem?_cons_succ]
          exact hat

end Loop

section Index

def Indexes (c : Chain) (l : List ChainLink) : Prop :=
  ∀ i,c.subEpochSummaries.get? i=(l.reverse[i]?).bind (·.record.subEpochSummaryIncluded)

theorem getSesHeights_eq (hc : Indexes c l) (h : HeaderChain E l) :
    getSesHeights c=(sesLinks l).map (·.record.height) := by
  have hsorted := h.sesLinks_sorted
  have hkeys : c.subEpochSummaries.keys.Perm ((sesLinks l).map (·.record.height)) := by
    apply (List.perm_ext_iff_of_nodup c.subEpochSummaries.nodup (hsorted.imp fun hlt => hlt.ne)).mpr
    intro i
    have hkey := c.subEpochSummaries.mem_keys i
    rw [hc,← Option.isSome_iff_exists] at hkey
    refine hkey.trans ⟨fun hsome => ?_,fun hmem => ?_⟩
    · obtain ⟨ses,hses⟩ := Option.isSome_iff_exists.mp hsome
      obtain ⟨b,hb,hses⟩ := Option.bind_eq_some_iff.mp hses
      have hlink : b∈sesLinks l := by
        rw [mem_sesLinks,← List.mem_reverse]
        exact ⟨List.mem_of_getElem? hb,by simp [ChainLink.hasSummary,hses]⟩
      exact List.mem_map.mpr ⟨b,hlink,h.height_of_getElem? hb⟩
    · obtain ⟨b,hb,rfl⟩ := List.mem_map.mp hmem
      obtain ⟨hin,hsome⟩ := mem_sesLinks.mp hb
      rw [h.getElem?_height hin]
      exact hsome
  have hperm := (List.perm_insertionSort (· ≤ ·) c.subEpochSummaries.keys).trans hkeys
  exact hperm.eq_of_pairwise' (List.pairwise_insertionSort (· ≤ ·) _) (hsorted.imp le_of_lt)

theorem Indexes.get? (hc : Indexes c l) (h : HeaderChain E l) {b : ChainLink} (hb : b∈sesLinks l) :
    c.subEpochSummaries.get? b.record.height=b.record.subEpochSummaryIncluded := by
  rw [hc,h.getElem?_height (mem_sesLinks.mp hb).1]
  rfl

end Index

/-- Up to a height two chains have the same reward chain. -/
def SameReward (l l' : List ChainLink) (height : ℕ) : Prop :=
  ∀ k≤height,∃ b b',l.reverse[k]?=some b ∧ l'.reverse[k]?=some b' ∧ b.reward=b'.reward

/-- No two summaries and no two items of the reward chains have the same hash, and none has the
genesis challenge. -/
structure CollisionFree (E : Env) (l l' : List ChainLink) : Prop where
  summaries : Set.InjOn E.hashSubEpochSummary {s | s∈includedSummaries l ∨ s∈includedSummaries l'}
  items : Set.InjOn (RewardItem.hash E) {x | x∈rewardItems l ∨ x∈rewardItems l'}
  start : ∀ x,x∈rewardItems l ∨ x∈rewardItems l' → RewardItem.hash E x≠E.genesisChallenge

theorem sameReward_of_prefix {u u' t t' : List ChainLink} {a a' : ChainLink} {height : ℕ}
    (hreward : t.map (·.reward)=t'.map (·.reward)) (hheight : height<t.length) :
    SameReward (u++a::t) (u'++a'::t') height := by
  have hlength : t.length=t'.length := by simpa using congrArg List.length hreward
  have hlow {u t : List ChainLink} {a : ChainLink} {k : ℕ} (hk : k<t.length) :
      (u++a::t).reverse[k]?=t.reverse[k]? := by
    rw [List.reverse_append,List.reverse_cons,List.append_assoc,List.getElem?_append_left (by simpa using hk)]
  intro k hk
  have hkt : k<t.reverse.length := by rw [List.length_reverse]; omega
  have hkt' : k<t'.reverse.length := by rw [List.length_reverse]; omega
  refine ⟨t.reverse[k],t'.reverse[k],?_,?_,?_⟩
  · rw [hlow (by omega),List.getElem?_eq_getElem hkt]
  · rw [hlow (by omega),List.getElem?_eq_getElem hkt']
  · have hrev : t.reverse.map (·.reward)=t'.reverse.map (·.reward) := by
      rw [List.map_reverse,List.map_reverse,hreward]
    have hat : (t.reverse.map (·.reward))[k]?=(t'.reverse.map (·.reward))[k]? := by rw [hrev]
    rw [List.getElem?_map,List.getElem?_map,List.getElem?_eq_getElem hkt,List.getElem?_eq_getElem hkt'] at hat
    exact Option.some.inj hat

theorem sameReward_of_summary (h : HeaderChain E l) (h' : HeaderChain E l') (hfree : CollisionFree E l l') {i : ℕ}
    {a b b' : ChainLink} (ha : (sesLinks l)[i]?=some a) (hb : (sesLinks l)[i+2]?=some b)
    (hb' : (sesLinks l')[i+2]?=some b') (hses : b.record.subEpochSummaryIncluded.isSome)
    (hsame : b.record.subEpochSummaryIncluded=b'.record.subEpochSummaryIncluded) :
    SameReward l l' a.record.height := by
  obtain ⟨ses,hses⟩ := Option.isSome_iff_exists.mp hses
  have hlt := (List.getElem?_eq_some_iff.mp hb).1
  have hlt' := (List.getElem?_eq_some_iff.mp hb').1
  have hm : (sesLinks l)[i+1]?=some (sesLinks l)[i+1] := List.getElem?_eq_getElem (by omega)
  have hm' : (sesLinks l')[i+1]?=some (sesLinks l')[i+1] := List.getElem?_eq_getElem (by omega)
  obtain ⟨u,t,s,hl,hs,hhash⟩ := h.summary_reward_at hm hb hses
  obtain ⟨u',t',s',hl',hs',hhash'⟩ := h'.summary_reward_at hm' hb' (hsame ▸ hses)
  have hbelow : a.record.height<t.length := by
    have hmid : HeaderChain E ((sesLinks l)[i+1]::t) := by
      rw [hl] at h
      exact h.of_append
    rw [← hmid.height]
    exact h.sesLinks_lt ha hm
  generalize (sesLinks l)[i+1]=m at *
  generalize (sesLinks l')[i+1]=m' at *
  subst hl hl'
  apply sameReward_of_prefix _ hbelow
  refine h.of_append.sameReward h'.of_append (hfree.items.mono ?_) ?_ hs hs' (hhash.symm.trans hhash')
  · intro x hx
    exact hx.imp mem_rewardItems_append mem_rewardItems_append
  · intro x hx
    exact hfree.start x (hx.imp mem_rewardItems_append mem_rewardItems_append)

theorem Indexes.known (hc : Indexes c l) (h : HeaderChain E l) :
    ∀ height∈getSesHeights c,(c.subEpochSummaries.get? height).isSome := by
  intro height hmem
  rw [getSesHeights_eq hc h] at hmem
  obtain ⟨b,hb,rfl⟩ := List.mem_map.mp hmem
  rw [hc.get? h hb]
  exact (mem_sesLinks.mp hb).2

/-- Whatever summaries are received, if there is one, there is an answer. -/
theorem getForkPoint_returns (h : HeaderChain E l) (hc : Indexes c l) (hne : received≠[]) :
    ∃ height,getForkPoint E c received = .ok height := by
  obtain ⟨f,hf,hcase⟩ := forkPointIndex_ok (E := E) (List.length_pos_iff.mpr hne) (hc.known h)
  unfold getForkPoint
  dsimp only
  rw [bind_of_ok hf]
  by_cases htwo : f > 2
  · rw [if_pos htwo]
    obtain rfl | ⟨-,height,hat,-⟩ := hcase
    · cases htwo
    · have hlt := (List.getElem?_eq_some_iff.mp hat).1
      exact ⟨_,index_eq_ok.mpr (List.getElem?_eq_getElem (by omega))⟩
  · exact ⟨0,if_neg htwo⟩

theorem getForkPoint_common (h : HeaderChain E l) (hc : Indexes c l) (h' : HeaderChain E l')
    (hfree : CollisionFree E l l') (hne : includedSummaries l'≠[]) :
    ∃ height,getForkPoint E c (includedSummaries l') = .ok height ∧ (height=0 ∨ SameReward l l' height) := by
  have hheights := getSesHeights_eq hc h
  obtain ⟨f,hf,hcase⟩ := forkPointIndex_ok (E := E) (List.length_pos_iff.mpr hne) (hc.known h)
  unfold getForkPoint
  dsimp only
  rw [bind_of_ok hf]
  by_cases htwo : f > 2
  · rw [if_pos htwo]
    obtain rfl | ⟨-,height,hat,ses,other,hlocal,hreceived,hhash⟩ := hcase
    · cases htwo
    obtain ⟨i,rfl⟩ : ∃ i,f=i+2 := ⟨f - 2,by omega⟩
    rw [Nat.sub_zero,hheights,List.getElem?_map,Option.map_eq_some_iff] at hat
    obtain ⟨b,hb,rfl⟩ := hat
    rw [hc.get? h (List.mem_of_getElem? hb)] at hlocal
    obtain ⟨b',hb',hother⟩ := getElem?_includedSummaries.mp hreceived
    have hmem : ses∈includedSummaries l := mem_includedSummaries.mpr ⟨b,List.mem_of_getElem? hb,hlocal⟩
    have hsame : ses=other := hfree.summaries (Or.inl hmem) (Or.inr (List.mem_of_getElem? hreceived)) hhash
    have hlt := (List.getElem?_eq_some_iff.mp hb).1
    have ha : (sesLinks l)[i]?=some (sesLinks l)[i] := List.getElem?_eq_getElem (by omega)
    refine ⟨(sesLinks l)[i].record.height,?_,Or.inr ?_⟩
    · rw [index_eq_ok,Nat.add_sub_cancel,hheights,List.getElem?_map,ha]
      rfl
    · apply sameReward_of_summary h h' hfree ha hb hb'
      · simp [hlocal]
      · rw [hlocal,hother,hsame]
  · exact ⟨0,if_neg htwo,Or.inl rfl⟩

/-- The same for the main chain of a node after any calls that return; there is an answer for all summaries. -/
theorem forkPoint_common {C : World → FullBlock → Prop} (hw : RunOf E C w) (h : HeaderChain E l)
    (hmain : MainChain E w (l.reverse.map (·.block)))
    (hrecords : ∀ a∈l,w.record? a.record.headerHash=some a.record) (h' : HeaderChain E l')
    (hfree : CollisionFree E l l') (hne : includedSummaries l'≠[]) :
    (∀ received,received≠[] → ∃ height,getForkPoint E w.chain received = .ok height) ∧
    ∃ height,getForkPoint E w.chain (includedSummaries l') = .ok height ∧ (height=0 ∨ SameReward l l' height) := by
  obtain ⟨P,hrest,hsummaries⟩ := hw.summaries
  obtain rfl := hrest.main.unique hrest.indexed hmain
  have hindexes : Indexes w.chain l := by
    intro i
    rw [hsummaries,List.getElem?_map]
    cases hb : l.reverse[i]? with
    | none => rfl
    | some b =>
      have hmem : b∈l := List.mem_reverse.mp (List.mem_of_getElem? hb)
      obtain ⟨l₁,hl₁⟩ := h.of_mem hmem
      rw [Option.map_some,Option.bind_some,Option.bind_some,summaryOf,← hl₁.recordOf.headerHash,hrecords b hmem]
      rfl
  exact ⟨fun received hreceived => getForkPoint_returns h hindexes hreceived,
    getForkPoint_common h hindexes h' hfree hne⟩

section Evaluated

def viewOf (l : List ChainLink) : BlockView :=
  ⟨l.foldr (fun b d => d.set b.record.headerHash b.record) Dict.empty,Dict.empty⟩

def passesAfter (E : Env) (b : ChainLink) (l : List ChainLink) : Bool :=
  let V := viewOf l
  let checked : Check Bool := do
    let (ssi,difficulty) ←
      getNextSubSlotItersAndDifficulty E.constants V (!b.slots.isEmpty) (l.head?.map (·.record))
    let header ← getBlockHeader E b.block [] []
    let requiredIters ← validateFinishedHeaderBlock E V header false difficulty ssi true
    return decide ((← blockToBlockRecord E V requiredIters b.block)=b.record)
  decide (checked = .ok true ∧ V.tryBlockRecord b.block.prevHeaderHash=l.head?.map (·.record) ∧
    (∀ a∈l,V.blockRecords.get? a.record.headerHash=some a.record) ∧ b.record.height=l.length ∧
    ∀ a∈l.head?,b.record.prevHash=a.record.headerHash)

def chainPasses (E : Env) : List ChainLink → Bool
  | [] => true
  | b::l => passesAfter E b l && chainPasses E l

theorem chainPasses_headerChain (h : chainPasses E l=true) : HeaderChain E l := by
  induction l with
  | nil => exact .nil
  | cons b l ih =>
    rw [chainPasses,Bool.and_eq_true,passesAfter,decide_eq_true_eq] at h
    obtain ⟨⟨hchecked,hprev,hknown,hheight,hhash⟩,hrest⟩ := h
    refine .next (viewOf l) (ih hrest) hknown ⟨hprev,?_⟩ hheight hhash
    obtain ⟨⟨ssi,difficulty⟩,hnext,hchecked⟩ := bind_ok.mp hchecked
    obtain ⟨header,hheader,hchecked⟩ := bind_ok.mp hchecked
    obtain ⟨requiredIters,hvalid,hchecked⟩ := bind_ok.mp hchecked
    obtain ⟨record,hrecord,hsame⟩ := bind_ok.mp hchecked
    obtain rfl : record=b.record := of_decide_eq_true (Except.ok.inj hsame)
    exact ⟨[],[],header,ssi,difficulty,requiredIters,hnext,hheader,hvalid,hrecord⟩

def receiveAll (E : Env) : List FullBlock → World → Option World
  | [],w => some w
  | b::blocks,w =>
    match receiveBlock E b tinyPre none (w.due none) with
    | (.ok _,w') => receiveAll E blocks w'
    | (.error _,_) => none

theorem receiveAll_runOf {blocks : List FullBlock} {w' : World} (hw : RunOf E (fun _ _ => True) w)
    (h : receiveAll E blocks w=some w') : RunOf E (fun _ _ => True) w' := by
  induction blocks generalizing w with
  | nil =>
    obtain rfl := Option.some.inj h
    exact hw
  | cons b blocks ih =>
    rw [receiveAll] at h
    rcases hcall : receiveBlock E b tinyPre none (w.due none) with ⟨answer,s⟩
    rw [hcall] at h
    cases answer with
    | error e => cases h
    | ok answer =>
      have hfork : ProperFork E w b none := nofun
      have hnext := RunOf.call hw (p := tinyPre) hfork trivial none (a := answer) (by rw [hcall])
      rw [hcall] at hnext
      exact ih hnext h

theorem mainChain_of_stored {P Q : List FullBlock} (hrest : Resting E w P)
    (hpeak : w.chain.peakHeight=if Q.length=0 then none else some (Q.length-1))
    (hstored : (List.range Q.length).map (fun i => (w.chain.heightToHash.get? i).bind w.block?)=Q.map some) :
    MainChain E w Q := by
  have hlength : P.length=Q.length := by
    have hsame := hrest.main.peakHeight.symm.trans hpeak
    split_ifs at hsame with hP hQ <;> simp at hsame <;> omega
  have hsame : P=Q := by
    apply List.ext_getElem hlength
    intro i hi hi'
    have hat := congrArg (·[i]?) hstored
    simp only [List.getElem?_map,List.getElem?_range hi',List.getElem?_eq_getElem hi',Option.map_some,
      hrest.main.index i hi,Option.bind_some,hrest.stored (List.getElem_mem hi)] at hat
    exact Option.some.inj (Option.some.inj hat)
  rw [← hsame]
  exact hrest.main

end Evaluated

/-- A network with sub-epochs of two blocks, a sub-slot for every block, and hashes that count. -/
def twinEnv : Env :=
  { tinyEnv with
    subEpochBlocks := 2
    minBlocksPerChallengeBlock := 1
    maxSubSlotBlocks := 1
    hashRewardChainSubSlot := fun rc => rc.endOfSlotVdf.challenge+1
    hashRewardChainBlock := fun b => b.rewardChainIpVdf.challenge+1
    hashSubEpochSummary := fun ses => ses.prevSubepochSummaryHash+1 }

def twinHash (branch n : ℕ) : Bytes32 := BitVec.ofNat 256 (if n=0 then 10 else 100*branch+10+n)

/-- The summary in the block of height `2 * (k + 1)`. -/
def twinSummary : ℕ → SubEpochSummary
  | 0 => ⟨1,1,0,none,none⟩
  | k+1 => ⟨BitVec.ofNat 256 (k+2),BitVec.ofNat 256 (4*(k+1)+1),0,none,none⟩

def twinSummaryAt (n : ℕ) : Option SubEpochSummary :=
  if n≠0 ∧ n % 2=0 then some (twinSummary (n / 2-1)) else none

def twinSlot (n : ℕ) : EndOfSubSlotBundle where
  challengeChain := ⟨⟨if n=1 then 1 else 0,1024,getDefaultElement⟩,some 0,
    (twinSummaryAt n).map twinEnv.hashSubEpochSummary,none,none⟩
  infusedChallengeChain := some ⟨⟨0,975,getDefaultElement⟩⟩
  rewardChain := ⟨⟨BitVec.ofNat 256 (2*n),975,getDefaultElement⟩,0,some 0,1⟩
  proofs := ⟨tinyProof,some tinyProof,tinyProof⟩

def twinClaims (n : ℕ) : List Coin :=
  if n=0 then [] else [createPoolCoin twinEnv.constants (n-1) 0 (calculatePoolReward (n-1)),
    createFarmerCoin twinEnv.constants (n-1) 0 (calculateBaseFarmerReward (n-1))]

def twinBlock (branch n : ℕ) : FullBlock where
  finishedSubSlots := if n=0 then [] else [twinSlot n]
  rewardChainBlock := ⟨7*(n+1),n,1024*n+49,0,if n=0 then 1 else 0,⟨0,some [],none,[],32,[]⟩,none,[],
    ⟨if n=0 then 1 else 0,49,getDefaultElement⟩,none,[],⟨BitVec.ofNat 256 (2*n+1),49,getDefaultElement⟩,
    none,true⟩
  challengeChainSpProof := none
  challengeChainIpProof := tinyProof
  rewardChainSpProof := none
  rewardChainIpProof := tinyProof
  infusedChallengeChainIpProof := none
  foliage := ⟨if n=0 then 1 else twinHash branch (n-1),BitVec.ofNat 256 (2*n+2),
    ⟨0,⟨0,0⟩,some [],0,twinHash branch n⟩,[],some 0,some []⟩
  foliageTransactionBlock := some ⟨if n=0 then 1 else twinHash branch (n-1),n+1,0,0,0,0⟩
  transactionsInfo := some ⟨0,ones32,[],0,0,twinClaims n⟩
  transactionsGenerator := none
  transactionsGeneratorRefList := []

def twinLink (branch n : ℕ) : ChainLink :=
  ⟨twinBlock branch n,headerBlockToSubBlockRecord twinEnv 1 (twinBlock branch n) 1024 false 0 (n-1) (twinSummaryAt n)⟩

def twinChain (branch : ℕ) : ℕ → List ChainLink
  | 0 => [twinLink branch 0]
  | n+1 => twinLink branch (n+1)::twinChain branch n

def twinWorld : World :=
  (receiveAll twinEnv ((twinChain 1 8).reverse.map (·.block)) (World.empty 5 5)).getD (World.empty 0 0)

example : (twinChain 2 10).length=11 := by decide +kernel

theorem twinWorld_received :
    (receiveAll twinEnv ((twinChain 1 8).reverse.map (·.block)) (World.empty 5 5)).isSome ∧
    (twinWorld.chain.peakHeight=some 8 ∧ (List.range 9).map
      (fun i => (twinWorld.chain.heightToHash.get? i).bind twinWorld.block?) =
        ((twinChain 1 8).reverse.map (·.block)).map some) ∧
    (∀ a∈twinChain 1 8,twinWorld.record? a.record.headerHash=some a.record) ∧
    getForkPoint twinEnv twinWorld.chain (includedSummaries (twinChain 2 10)) = .ok 4 ∧
    getForkPoint twinEnv twinWorld.chain [] = .error (.raised .index) := by decide +kernel

theorem twinChains_pass :
    (chainPasses twinEnv (twinChain 1 8)=true ∧ chainPasses twinEnv (twinChain 2 10)=true) ∧
    includedSummaries (twinChain 2 10)≠[] ∧
    (∀ s∈includedSummaries (twinChain 1 8)++includedSummaries (twinChain 2 10),
      ∀ t∈includedSummaries (twinChain 1 8)++includedSummaries (twinChain 2 10),
        twinEnv.hashSubEpochSummary s=twinEnv.hashSubEpochSummary t → s=t) ∧
    (∀ x∈rewardItems (twinChain 1 8)++rewardItems (twinChain 2 10),
      ∀ y∈rewardItems (twinChain 1 8)++rewardItems (twinChain 2 10),
        RewardItem.hash twinEnv x=RewardItem.hash twinEnv y → x=y) ∧
    (∀ x∈rewardItems (twinChain 1 8)++rewardItems (twinChain 2 10),
      RewardItem.hash twinEnv x≠twinEnv.genesisChallenge) ∧
    (twinLink 1 1).record.headerHash≠(twinLink 2 1).record.headerHash := by decide +kernel

theorem twinWorld_run : RunOf twinEnv (fun _ _ => True) twinWorld := by
  obtain ⟨w,hw⟩ := Option.isSome_iff_exists.mp twinWorld_received.1
  have hrun := receiveAll_runOf (.start 5 5) hw
  rw [twinWorld,hw]
  exact hrun

theorem twinWorld_mainChain : MainChain twinEnv twinWorld ((twinChain 1 8).reverse.map (·.block)) := by
  obtain ⟨P,hrest,-⟩ := twinWorld_run.summaries
  obtain ⟨hpeak,hstored⟩ := twinWorld_received.2.1
  exact mainChain_of_stored hrest hpeak hstored

theorem twinChain_local : HeaderChain twinEnv (twinChain 1 8) := chainPasses_headerChain twinChains_pass.1.1

theorem twinChain_other : HeaderChain twinEnv (twinChain 2 10) := chainPasses_headerChain twinChains_pass.1.2

theorem twins_collisionFree : CollisionFree twinEnv (twinChain 1 8) (twinChain 2 10) := by
  obtain ⟨-,-,hsummaries,hitems,hstart,-⟩ := twinChains_pass
  exact {
    summaries := fun s hs t ht => hsummaries s (List.mem_append.mpr hs) t (List.mem_append.mpr ht)
    items := fun x hx y hy => hitems x (List.mem_append.mpr hx) y (List.mem_append.mpr hy)
    start := fun x hx => hstart x (List.mem_append.mpr hx) }

theorem twins_forkPoint : getForkPoint twinEnv twinWorld.chain (includedSummaries (twinChain 2 10)) = .ok 4 :=
  twinWorld_received.2.2.2.1

theorem forkPoint_common_twins :
    (∀ received,received≠[] → ∃ height,getForkPoint twinEnv twinWorld.chain received = .ok height) ∧
      getForkPoint twinEnv twinWorld.chain (includedSummaries (twinChain 2 10)) = .ok 4 ∧
      SameReward (twinChain 1 8) (twinChain 2 10) 4 := by
  obtain ⟨hreturns,height,hheight,hcommon⟩ := forkPoint_common twinWorld_run twinChain_local twinWorld_mainChain
    twinWorld_received.2.2.1 twinChain_other twins_collisionFree twinChains_pass.2.1
  obtain rfl := Except.ok.inj (twins_forkPoint.symm.trans hheight)
  exact ⟨hreturns,hheight,hcommon.resolve_left (by decide)⟩

/-- The fork point is 4, but the blocks of height 1 differ; without a summary there is no answer. -/
theorem forkPoint_above_common : RunOf twinEnv (fun _ _ => True) twinWorld ∧ HeaderChain twinEnv (twinChain 1 8) ∧
    MainChain twinEnv twinWorld ((twinChain 1 8).reverse.map (·.block)) ∧ HeaderChain twinEnv (twinChain 2 10) ∧
    CollisionFree twinEnv (twinChain 1 8) (twinChain 2 10) ∧
    getForkPoint twinEnv twinWorld.chain (includedSummaries (twinChain 2 10)) = .ok 4 ∧
    (twinChain 1 8).reverse[1]?=some (twinLink 1 1) ∧ (twinChain 2 10).reverse[1]?=some (twinLink 2 1) ∧
    (twinLink 1 1).record.headerHash≠(twinLink 2 1).record.headerHash ∧
    getForkPoint twinEnv twinWorld.chain [] = .error (.raised .index) := by
  refine ⟨twinWorld_run,twinChain_local,twinWorld_mainChain,twinChain_other,twins_collisionFree,twins_forkPoint,
    rfl,rfl,twinChains_pass.2.2.2.2.2,twinWorld_received.2.2.2.2⟩

end WeightProof
end RoseChain
