import RoseChain.Consensus.Runs
import RoseChain.FullNode.RecentChain
import RoseChain.FullNode.WeightSampling

namespace RoseChain
namespace WeightProof
variable {E : Env} {V : BlockView}

/-- What validation says of summaries, difficulties and weights on top of `p`: `d` is the difficulty in force,
`included` are the blocks with summaries so far, the newest first. -/
inductive Summarised (E : Env) (V : BlockView) : (p : BlockRecord) → (d : ℕ) → (included : List BlockRecord) →
    List BlockRecord → Prop
  | nil {p : BlockRecord} {d : ℕ} {included : List BlockRecord} : Summarised E V p d included []
  | plain {p b : BlockRecord} {d : ℕ} {included more : List BlockRecord} :
    V.blockRecord b.prevHash = .ok p → b.height=p.height+1 → b.subEpochSummaryIncluded=none →
    b.weight=p.weight+d → b.weight<2^128 → Summarised E V b d included more →
    Summarised E V p d included (b::more)
  | summary {p pp b : BlockRecord} {d : ℕ} {included more : List BlockRecord} {ses : SubEpochSummary}
      {newDifficulty newSubSlotIters : Option ℕ} {canFinishEpoch : Bool} :
    V.blockRecord b.prevHash = .ok p → b.height=p.height+1 → V.blockRecord p.prevHash = .ok pp →
    canFinishSubAndFullEpoch E.constants V p.height p.prevHash p.deficit
      p.subEpochSummaryIncluded.isSome = .ok (true,canFinishEpoch) →
    makeSubEpochSummary E.constants V E.toOracles b.height pp newDifficulty newSubSlotIters = .ok ses →
    b.subEpochSummaryIncluded=some ses → b.height / E.subEpochBlocks=included.length+1 →
    b.weight=p.weight+difficultyFrom d b → b.weight<2^128 →
    Summarised E V b (difficultyFrom d b) (b::included) more → Summarised E V p d included (b::more)

/-- A chain whose `i`-th summary is in the `i + 1`-st window of heights. -/
structure SummaryChain (E : Env) (V : BlockView) (genesis : BlockRecord) (records : List BlockRecord) : Prop where
  height : genesis.height=0
  weight : genesis.weight=E.difficultyStarting
  noSummary : genesis.subEpochSummaryIncluded=none
  later : Summarised E V genesis E.difficultyStarting [] records

def WalksTo (V : BlockView) (p : BlockRecord) : List BlockRecord → Prop
  | [] => ∀ r,V.walkBack (·.subEpochSummaryIncluded.isSome) p ≠ .ok r
  | last::_ => V.walkBack (·.subEpochSummaryIncluded.isSome) p = .ok last

theorem walksTo_genesis {g : BlockRecord} (hheight : g.height=0) (hnone : g.subEpochSummaryIncluded=none) :
    WalksTo V g [] := by
  intro r h
  rw [BlockView.walkBack,hheight,BlockView.walk,if_neg (by simp [hnone])] at h
  obtain ⟨prev,-,hwalk⟩ := bind_ok.mp h
  simp [BlockView.walk] at hwalk

variable {p b : BlockRecord} {included : List BlockRecord}

theorem WalksTo.back (h : WalksTo V b included)
    (hprev : V.blockRecord b.prevHash = .ok p) (hheight : b.height=p.height+1)
    (hnone : b.subEpochSummaryIncluded=none) : WalksTo V p included := by
  have hsame : V.walkBack (·.subEpochSummaryIncluded.isSome) b=V.walkBack (·.subEpochSummaryIncluded.isSome) p :=
    BlockView.walkBack_prev (by simp [hnone]) hprev hheight
  cases included <;> simpa [WalksTo,hsame] using h

theorem WalksTo.plain (h : WalksTo V p included)
    (hprev : V.blockRecord b.prevHash = .ok p) (hheight : b.height=p.height+1)
    (hnone : b.subEpochSummaryIncluded=none) : WalksTo V b included := by
  have hsame : V.walkBack (·.subEpochSummaryIncluded.isSome) b=V.walkBack (·.subEpochSummaryIncluded.isSome) p :=
    BlockView.walkBack_prev (by simp [hnone]) hprev hheight
  cases included <;> simpa [WalksTo,hsame] using h

theorem walksTo_summary {ses : SubEpochSummary}
    (h : b.subEpochSummaryIncluded=some ses) : WalksTo V b (b::included) :=
  BlockView.walkBack_here (by simp [h])

theorem notIncluded_of_canFinish {C : ConsensusConstants} {height deficit : ℕ} {prevHash : Bytes32}
    {included canFinishEpoch : Bool}
    (h : canFinishSubAndFullEpoch C V height prevHash deficit included = .ok (true,canFinishEpoch)) :
    included=false := by
  by_contra hincluded
  rw [Bool.not_eq_false] at hincluded
  unfold canFinishSubAndFullEpoch at h
  rw [hincluded] at h
  split_ifs at h <;> simp_all [pure,Except.pure]

/-- The hash that the next summary has of the last one. -/
def lastSesHash (E : Env) : List BlockRecord → Bytes32
  | [] => E.genesisChallenge
  | last::_ => (last.subEpochSummaryIncluded.map E.hashSubEpochSummary).getD E.genesisChallenge

def lastSesHeight : List BlockRecord → ℕ
  | [] => 0
  | last::_ => last.height

theorem makeSubEpochSummary_fields {height : ℕ} {pp : BlockRecord} {ses : SubEpochSummary}
    {newDifficulty newSubSlotIters : Option ℕ} (hwalk : WalksTo V pp included)
    (hdiv : height / E.subEpochBlocks=included.length+1)
    (h : makeSubEpochSummary E.constants V E.toOracles height pp newDifficulty newSubSlotIters = .ok ses) :
    ses.prevSubepochSummaryHash=lastSesHash E included ∧
    ses.numBlocksOverflow=(if included.length=0 then 0 else lastSesHeight included % E.subEpochBlocks) := by
  unfold makeSubEpochSummary at h
  obtain ⟨-,-,h⟩ := bind_ok.mp h
  split_ifs at h with hfirst
  · obtain rfl := Except.ok.inj h
    have hle : height / E.subEpochBlocks≤(height+E.maxSubSlotBlocks) / E.subEpochBlocks :=
      Nat.div_le_div_right (Nat.le_add_right _ _)
    have hnil : included=[] := List.eq_nil_of_length_eq_zero (by omega)
    simp [hnil,lastSesHash]
  · obtain ⟨curr,hcurr,h⟩ := bind_ok.mp h
    obtain ⟨rewardHashes,-,h⟩ := bind_ok.mp h
    obtain ⟨prevSes,hprevSes,h⟩ := bind_ok.mp h
    obtain ⟨last,-,h⟩ := bind_ok.mp h
    obtain ⟨excess,hexcess,h⟩ := bind_ok.mp h
    obtain ⟨overflow,hoverflow,h⟩ := bind_ok.mp h
    obtain rfl := Except.ok.inj h
    cases included with
    | nil => exact absurd hcurr (hwalk curr)
    | cons lastSes included =>
      obtain rfl : curr=lastSes := Except.ok.inj (hcurr.symm.trans hwalk)
      rw [assertSome_eq_ok] at hprevSes
      constructor
      · simp [lastSesHash,hprevSes]
      · rw [floorMod] at hexcess
        split_ifs at hexcess with hzero
        obtain rfl := Except.ok.inj hexcess
        obtain ⟨hvalue,-⟩ := uint_eq_ok.mp hoverflow
        rw [Int.fmod_eq_emod_of_nonneg _ (by positivity)] at hvalue
        simp only [List.length_cons,Nat.succ_ne_zero,if_false,lastSesHeight]
        exact_mod_cast hvalue.symm

def LinkedSummaries (E : Env) : Bytes32 → List BlockRecord → Prop
  | _,[] => True
  | hash,b::more => ∃ ses,b.subEpochSummaryIncluded=some ses ∧ ses.prevSubepochSummaryHash=hash ∧
      LinkedSummaries E (E.hashSubEpochSummary ses) more

variable {d : ℕ}

theorem Summarised.honest {records : List BlockRecord}
    (h : Summarised E V p d included records) (hwalk : WalksTo V p included) :
    HonestFrom E p.weight d (lastSesHeight included) included.length (p.height+1) records ∧
      LinkedSummaries E (lastSesHash E included) (sesBlocks records) := by
  induction h with
  | nil => exact ⟨.nil,trivial⟩
  | @plain p b d included more hprev hheight hnone hweight hbound _ ih =>
    obtain ⟨hmore,hlinked⟩ := ih (hwalk.plain hprev hheight hnone)
    rw [hheight] at hmore
    have hskip : sesBlocks (b::more)=sesBlocks more := by simp [sesBlocks,hnone]
    rw [hskip]
    exact ⟨.plain hnone hheight hweight hbound hmore,hlinked⟩
  | @summary p pp b d included more ses _ _ _ hprev hheight hprevPrev hfinish hmake hsome hdiv hweight hbound _ ih =>
    obtain ⟨hmore,hlinked⟩ := ih (walksTo_summary hsome)
    have hnone : p.subEpochSummaryIncluded=none := by
      simpa using notIncluded_of_canFinish hfinish
    have hpp : (pp.height : ℤ)=b.height-2 := by
      unfold makeSubEpochSummary at hmake
      obtain ⟨_,hassert,-⟩ := bind_ok.mp hmake
      simpa using hassert
    obtain ⟨hhash,hexcess⟩ := makeSubEpochSummary_fields (hwalk.back hprevPrev (by omega) hnone) hdiv hmake
    rw [hheight] at hmore
    have hkeep : sesBlocks (b::more)=b::sesBlocks more := by simp [sesBlocks,hsome]
    rw [hkeep]
    constructor
    · rw [hheight] at hdiv
      refine .summary hsome hheight hdiv hexcess hweight hbound ?_
      simpa [lastSesHeight,hheight] using hmore
    · refine ⟨ses,hsome,hhash,?_⟩
      simpa [lastSesHash,hsome] using hlinked

theorem SummaryChain.honest {genesis : BlockRecord} {records : List BlockRecord}
    (h : SummaryChain E V genesis records) :
    HonestChain E genesis records ∧ LinkedSummaries E E.genesisChallenge (sesBlocks records) := by
  obtain ⟨hlater,hlinked⟩ := h.later.honest (walksTo_genesis h.height h.noSummary)
  rw [h.weight,h.height] at hlater
  exact ⟨⟨h.weight,hlater⟩,hlinked⟩

variable {blocks : List BlockRecord}

theorem rebuilt_linked {hash : Bytes32} (h : LinkedSummaries E hash blocks) :
    rebuilt E hash (dataOf blocks)=blocks.filterMap (·.subEpochSummaryIncluded) := by
  induction blocks generalizing hash with
  | nil => rfl
  | cons b more ih =>
    obtain ⟨ses,hsome,rfl,hmore⟩ := h
    rw [dataOf_cons hsome,rebuilt,List.filterMap_cons,hsome]
    congr 1
    exact ih hmore

theorem LinkedSummaries.upTo {hash : Bytes32} (h : LinkedSummaries E hash blocks)
    (tipHeight : ℕ) : LinkedSummaries E hash (upTo tipHeight blocks) := by
  induction blocks generalizing hash with
  | nil => exact trivial
  | cons b more ih =>
    obtain ⟨ses,hsome,hhash,hmore⟩ := h
    have hrest := ih hmore
    unfold WeightProof.upTo at hrest ⊢
    rw [List.takeWhile_cons]
    split
    · exact ⟨ses,hsome,hhash,hrest⟩
    · exact trivial

theorem SubEpochsFrom.sorted {t h i : ℕ} (hb : SubEpochsFrom E t d h i blocks) :
    (h::blocks.map (·.height)).Pairwise (· < ·) := by
  induction hb with
  | nil => simp
  | @cons t d h i b ses more hsome hlt _ _ _ _ _ ih =>
    rw [List.map_cons,List.pairwise_cons]
    refine ⟨?_,ih⟩
    intro height hmem
    rcases List.mem_cons.mp hmem with rfl | hmem
    · exact hlt
    · exact hlt.trans ((List.pairwise_cons.mp ih).1 height hmem)

theorem upTo_eq_filter {tipHeight : ℕ} (h : (blocks.map (·.height)).Pairwise (· < ·)) :
    upTo tipHeight blocks=blocks.filter fun b => decide (b.height≤tipHeight) := by
  induction blocks with
  | nil => rfl
  | cons b more ih =>
    rw [List.map_cons,List.pairwise_cons] at h
    have hrest := ih h.2
    unfold WeightProof.upTo at hrest ⊢
    rw [List.takeWhile_cons]
    by_cases hle : b.height≤tipHeight
    · simp [hle,hrest]
    · have hnone : more.filter (fun b => decide (b.height≤tipHeight))=[] := by
        rw [List.filter_eq_nil_iff]
        intro c hc
        have hlt := h.1 c.height (List.mem_map_of_mem hc)
        simp only [decide_eq_true_eq]
        omega
      simp [hle,hnone]

theorem HonestFrom.heights {w h i n : ℕ} {records : List BlockRecord} (hr : HonestFrom E w d h i n records) :
    records.map (·.height)=List.range' n records.length := by
  induction hr with
  | nil => rfl
  | plain _ hheight _ _ _ ih => simp [ih,hheight,List.range'_succ]
  | summary _ hheight _ _ _ _ _ ih => simp [ih,hheight,List.range'_succ]

section Honest
variable {genesis : BlockRecord} {records before : List BlockRecord} {y z : BlockRecord} {tipHeight : ℕ}

theorem HonestChain.heights (h : HonestChain E genesis records) (hgenesis : genesis.height=0) :
    (genesis::records).map (·.height)=List.range' 0 (records.length+1) := by
  rw [List.map_cons,hgenesis,h.later.heights,List.range'_succ]

theorem sorted_sesBlocks (h : HonestChain E genesis records) :
    ((sesBlocks records).map (·.height)).Pairwise (· < ·) := (List.pairwise_cons.mp h.subEpochs.sorted).2

/-- The last two summaries at or below the tip. -/
structure LastTwo (records : List BlockRecord) (tipHeight : ℕ) (y z : BlockRecord) : Prop where
  first : y∈records ∧ y.subEpochSummaryIncluded.isSome
  second : z∈records ∧ z.subEpochSummaryIncluded.isSome
  pos : 0<y.height
  lt : y.height<z.height
  le : z.height≤tipHeight
  between : ∀ b∈records,y.height<b.height → b.height≤tipHeight → b.subEpochSummaryIncluded.isSome →
    b.height=z.height

theorem lastTwo (h : HonestChain E genesis records) (hses : upTo tipHeight (sesBlocks records)=before++[y,z]) :
    LastTwo records tipHeight y z := by
  have hfilter : upTo tipHeight (sesBlocks records)=(sesBlocks records).filter fun b => decide (b.height≤tipHeight) :=
    upTo_eq_filter (sorted_sesBlocks h)
  rw [hses] at hfilter
  have hmem (b : BlockRecord) : b∈before++[y,z] ↔ (b∈records ∧ b.subEpochSummaryIncluded.isSome) ∧
      b.height≤tipHeight := by
    rw [hfilter,List.mem_filter,decide_eq_true_eq,sesBlocks,List.mem_filter]
  have hsorted : (((before++[y,z]).map (·.height))).Pairwise (· < ·) := by
    rw [hfilter]
    exact (sorted_sesBlocks h).sublist (List.filter_sublist.map _)
  have hpos : 0<y.height := by
    have hle := (List.pairwise_cons.mp (h.subEpochs.upTo tipHeight).sorted).1
    rw [hses] at hle
    exact hle y.height (by simp)
  have hy := (hmem y).mp (by simp)
  have hz := (hmem z).mp (by simp)
  rw [List.map_append,List.pairwise_append] at hsorted
  obtain ⟨-,hlast,hbelow⟩ := hsorted
  refine ⟨hy.1,hz.1,hpos,by simpa using hlast,hz.2,?_⟩
  intro b hb hlt hle hsome
  rcases List.mem_append.mp ((hmem b).mpr ⟨⟨hb,hsome⟩,hle⟩) with hold | hnew
  · have hless := hbelow b.height (List.mem_map_of_mem hold) y.height (by simp)
    omega
  · rcases List.mem_cons.mp hnew with rfl | hnew
    · omega
    · rw [List.mem_singleton.mp hnew]

theorem HonestFrom.prior {w d h i n : ℕ} {p : BlockRecord} {after : List BlockRecord}
    (hr : HonestFrom E w d h i n records) (hses : sesBlocks records=before++y::after)
    (hweight : p.weight=w) (hheight : p.height+1=n) :
    ∃ r∈p::records,r.height+1=y.height ∧ y.weight=r.weight+difficultyAfter d (before++[y]) := by
  induction hr generalizing before p with
  | nil => simp [sesBlocks] at hses
  | @plain w d h i n b more hnone hb _ _ _ ih =>
    rw [show sesBlocks (b::more)=sesBlocks more by simp [sesBlocks,hnone]] at hses
    obtain ⟨r,hr,hbelow⟩ := ih (p := b) hses rfl (by omega)
    exact ⟨r,List.mem_cons_of_mem _ hr,hbelow⟩
  | @summary w d h i n b ses more hsome hb _ _ hbw _ _ ih =>
    rw [show sesBlocks (b::more)=b::sesBlocks more by simp [sesBlocks,hsome]] at hses
    cases before with
    | nil =>
      obtain ⟨rfl,-⟩ := List.cons.inj hses
      refine ⟨p,List.mem_cons_self,by omega,?_⟩
      rw [hbw,hweight]
      rfl
    | cons c before =>
      obtain ⟨rfl,hrest⟩ := List.cons.inj hses
      obtain ⟨r,hr,hbelow⟩ := ih (p := b) hrest rfl (by omega)
      exact ⟨r,List.mem_cons_of_mem _ hr,hbelow⟩

theorem SubEpochsFrom.lastOverflow {t d h i : ℕ} (hb : SubEpochsFrom E t d h i (before++[y,z])) :
    y.height / E.subEpochBlocks=i+before.length+1 ∧
    ∃ ses,z.subEpochSummaryIncluded=some ses ∧ ses.numBlocksOverflow=y.height % E.subEpochBlocks := by
  induction before generalizing t d h i with
  | nil =>
    cases hb with
    | cons _ _ hdiv _ _ _ hmore =>
      cases hmore with
      | cons hsome _ _ hexcess _ _ _ => exact ⟨by simpa using hdiv,_,hsome,by simpa using hexcess⟩
  | cons b before ih =>
    cases hb with
    | cons _ _ _ _ _ _ hmore =>
      obtain ⟨hdiv,hexcess⟩ := ih hmore
      refine ⟨?_,hexcess⟩
      rw [hdiv,List.length_cons]
      omega

def Serves (block : ℕ → Check (HeaderBlock × BlockRecord)) (chain : List BlockRecord) : Prop :=
  ∀ r∈chain,∃ header : HeaderBlock,block r.height = .ok (header,r) ∧
    header.rewardChainBlock.height=r.height ∧ header.rewardChainBlock.weight=r.weight

def OnChain (chain : List BlockRecord) (header : HeaderBlock) : Prop :=
  ∃ r∈chain,header.rewardChainBlock.height=r.height ∧ header.rewardChainBlock.weight=r.weight

theorem minHeight_eq (h : HonestChain E genesis records)
    (hses : upTo tipHeight (sesBlocks records)=before++[y,z]) :
    minHeight ((sesBlocks records).map (·.height)) tipHeight=y.height-1 := by
  have hfilter : upTo tipHeight (sesBlocks records)=(sesBlocks records).filter fun b => decide (b.height≤tipHeight) :=
    upTo_eq_filter (sorted_sesBlocks h)
  have hreverse : (((sesBlocks records).map (·.height)).reverse.filter fun sesHeight =>
      decide (sesHeight≤tipHeight))=((before++[y,z]).map (·.height)).reverse := by
    rw [← hses,hfilter,List.filter_reverse,List.filter_map]
    rfl
  rw [minHeight,lastButOneSes,hreverse]
  simp

theorem getRecentChain_serves {block : ℕ → Check (HeaderBlock × BlockRecord)} (h : HonestChain E genesis records)
    (hgenesis : genesis.height=0) (hses : upTo tipHeight (sesBlocks records)=before++[y,z])
    (htip : tipHeight ≤ records.length) (hblock : Serves block (genesis::records)) :
    ∃ recent,getRecentChain block ((sesBlocks records).map (·.height)) tipHeight = .ok recent ∧
      (∀ header∈recent,OnChain (genesis::records) header) ∧
      ∃ header∈recent,header.rewardChainBlock.height+1=y.height := by
  have hheights := h.heights hgenesis
  have hat : ∀ k,∃ served : HeaderBlock × BlockRecord,k ≤ records.length →
      served.2∈genesis::records ∧ served.2.height=k ∧ block k = .ok served ∧
      OnChain (genesis::records) served.1 ∧ served.1.rewardChainBlock.height=k := by
    intro k
    by_cases hk : k ≤ records.length
    · have hmem : k∈(genesis::records).map (·.height) := by
        rw [hheights,List.mem_range'_1]
        omega
      obtain ⟨r,hr,rfl⟩ := List.mem_map.mp hmem
      obtain ⟨header,hget,hheight,hweight⟩ := hblock r hr
      exact ⟨(header,r),fun _ => ⟨hr,rfl,hget,⟨r,hr,hheight,hweight⟩,hheight⟩⟩
    · obtain ⟨header,-⟩ := hblock genesis List.mem_cons_self
      exact ⟨(header,genesis),fun hle => absurd hle hk⟩
  choose served hserved using hat
  have htwo := lastTwo h hses
  have hsame : ∀ b∈records,(served b.height).2=b := by
    intro b hb
    have hmem : b.height∈(genesis::records).map (·.height) := List.mem_map_of_mem (List.mem_cons_of_mem _ hb)
    have hle : b.height ≤ records.length := by
      rw [hheights,List.mem_range'_1] at hmem
      omega
    obtain ⟨header,hget,-⟩ := hblock b (List.mem_cons_of_mem _ hb)
    have heq := (hserved b.height hle).2.2.1
    rw [hget] at heq
    exact (congrArg Prod.snd (Except.ok.inj heq)).symm
  have hzle : z.height≤tipHeight := htwo.le
  have hbetween : ∀ k,y.height<k → k≤tipHeight → k≠z.height →
      (served k).2.subEpochSummaryIncluded=none := by
    intro k hlt hle hne
    by_contra hsome
    obtain ⟨hmem,hk,-⟩ := hserved k (hle.trans htip)
    rcases List.mem_cons.mp hmem with heq | hmem
    · rw [heq,hgenesis] at hk
      omega
    · have heq := htwo.between _ hmem (by omega) (by omega) (Option.isSome_iff_ne_none.mpr hsome)
      omega
  have hstart : recentStart (fun k => (served k).2) tipHeight 0=y.height-1 := by
    have hy := htwo.first
    have hz := htwo.second
    have hlt := htwo.lt
    have hpos := htwo.pos
    have hfirst : recentStart (fun k => (served k).2) (z.height+(tipHeight-z.height)) 0 =
        recentStart (fun k => (served k).2) (z.height-1) 1 :=
      recentStart_skip (by omega) (by omega) (by rw [hsame z hz.1]; exact hz.2) (tipHeight-z.height)
        fun k hk hle => hbetween k (by omega) (by omega) (by omega)
    have hnext : recentStart (fun k => (served k).2) (y.height+(z.height-1-y.height)) 1 =
        recentStart (fun k => (served k).2) (y.height-1) 2 :=
      recentStart_skip (by omega) hpos (by rw [hsame y hy.1]; exact hy.2) (z.height-1-y.height)
        fun k hk hle => hbetween k hk (by omega) (by omega)
    rw [show z.height+(tipHeight-z.height)=tipHeight by omega] at hfirst
    rw [show y.height+(z.height-1-y.height)=z.height-1 by omega] at hnext
    rw [hfirst,hnext,recentStart_two]
  have hinRange : ∀ k,recentStart (fun k => (served k).2) tipHeight 0≤k → k≤tipHeight →
      inRange block (minHeight ((sesBlocks records).map (·.height)) tipHeight) tipHeight k = .ok (served k) := by
    intro k hle hk
    rw [hstart,← minHeight_eq h hses] at hle
    rw [inRange,if_pos ⟨hle,hk⟩]
    exact (hserved k (hk.trans htip)).2.2.1
  have hcollect : getRecentChain block ((sesBlocks records).map (·.height)) tipHeight = .ok (_++[]) :=
    collectRecent_ok hinRange
  rw [hstart,List.append_nil,← minHeight_eq h hses] at hcollect
  refine ⟨_,hcollect,?_,?_⟩
  · intro header hmem
    obtain ⟨k,hk,rfl⟩ := List.mem_map.mp hmem
    rw [minHeight_eq h hses,List.mem_range'_1] at hk
    exact (hserved k (by omega)).2.2.2.1
  · have hlt := htwo.lt
    have hpos := htwo.pos
    refine ⟨(served (y.height-1)).1,?_,?_⟩
    · rw [minHeight_eq h hses]
      exact List.mem_map_of_mem (List.mem_range'_1.mpr (by omega))
    · rw [(hserved (y.height-1) (by omega)).2.2.2.2]
      omega

theorem getSubEpochData_eq (tipHeight : ℕ) (blocks : List BlockRecord) :
    getSubEpochData tipHeight blocks=dataOf (upTo tipHeight blocks) := rfl

theorem validateSummariesWeight_accepts {total : ℕ} {r : BlockRecord} {recent : List HeaderBlock}
    (h : HonestChain E genesis records) (hgenesis : genesis.height=0)
    (hses : upTo tipHeight (sesBlocks records)=before++[y,z]) (hr : r∈genesis::records)
    (hbelow : r.height+1=y.height) (htotal : total=r.weight)
    (hrecent : ∀ header∈recent,OnChain (genesis::records) header)
    (hstart : ∃ header∈recent,header.rewardChainBlock.height+1=y.height) :
    validateSummariesWeight E.subEpochBlocks total
      ((upTo tipHeight (sesBlocks records)).filterMap (·.subEpochSummaryIncluded)) recent = .ok true := by
  have hepochs := h.subEpochs.upTo tipHeight
  have hsummarised := hepochs.summarised
  rw [hses] at hepochs hsummarised ⊢
  obtain ⟨hdiv,ses,hsome,hexcess⟩ := hepochs.lastOverflow
  have hlength : ((before++[y,z]).filterMap (·.subEpochSummaryIncluded)).length=before.length+2 := by
    have hall : ∀ l : List BlockRecord,(∀ b∈l,b.subEpochSummaryIncluded.isSome) →
        (l.filterMap (·.subEpochSummaryIncluded)).length=l.length := by
      intro l hl
      rw [List.length_filterMap_eq_countP,List.countP_eq_length]
      exact hl
    rw [hall _ hsummarised]
    simp
  have hlast : ((before++[y,z]).filterMap (·.subEpochSummaryIncluded)).getLast?=some ses := by
    rw [show before++[y,z]=before++[y]++[z] by simp,List.filterMap_append]
    simp [hsome]
  have hend : (((before.length+2 : ℕ) : ℤ)-1)*E.subEpochBlocks+ses.numBlocksOverflow-1=r.height := by
    have hy := Nat.div_add_mod y.height E.subEpochBlocks
    rw [hdiv,← hexcess,← hbelow,Nat.mul_comm] at hy
    have hz : (((0+before.length+1)*E.subEpochBlocks+ses.numBlocksOverflow : ℕ) : ℤ)=(r.height+1 : ℕ) :=
      congrArg Nat.cast hy
    push_cast at hz ⊢
    rw [show (before.length : ℤ)+2-1=0+before.length+1 by omega,hz]
    omega
  -- all headers at that height are of the same record
  have hunique : ∀ r'∈genesis::records,r'.height=r.height → r'=r := by
    have hnodup : ((genesis::records).map (·.height)).Nodup := by
      rw [h.heights hgenesis]
      exact List.nodup_range'
    intro r' hr' heq
    exact List.inj_on_of_nodup_map hnodup hr' hr heq
  obtain ⟨first,hfirst,hheight⟩ := hstart
  have hkept : first∈recent.filter fun block => decide ((block.rewardChainBlock.height : ℤ)=r.height) := by
    rw [List.mem_filter,decide_eq_true_eq]
    exact ⟨hfirst,by omega⟩
  obtain ⟨curr,hcurr⟩ := Option.isSome_iff_exists.mp (List.getLast?_isSome.mpr (List.ne_nil_of_mem hkept))
  have hmem := List.mem_of_getLast? hcurr
  rw [List.mem_filter,decide_eq_true_eq] at hmem
  obtain ⟨r',hr',hsame,hweight⟩ := hrecent curr hmem.1
  have heq := hunique r' hr' (by omega)
  simp only [validateSummariesWeight,hlast,index,check_ok_bind,hlength,hend,hcurr,hweight,heq,htotal]
  rfl

/-- From two summaries on, the summaries of a chain come back, the total is the weight of the block below the
last but one of them, the sub-epochs start at the weights of the chain, and the weight is accepted. -/
theorem summaries_accepted (h : SummaryChain E V genesis records)
    (hses : upTo tipHeight (sesBlocks records)=before++[y,z]) (htip : tipHeight ≤ records.length)
    {block : ℕ → Check (HeaderBlock × BlockRecord)} (hblock : Serves block (genesis::records)) :
    ∃ total weights recent,
      mapSubEpochSummaries E E.subEpochBlocks E.genesisChallenge (getSubEpochData tipHeight (sesBlocks records))
        E.difficultyStarting =
          .ok ((upTo tipHeight (sesBlocks records)).filterMap (·.subEpochSummaryIncluded),total,weights) ∧
      (∃ r∈genesis::records,r.height+1=y.height ∧ total=r.weight) ∧
      weights.dropLast=genesis.weight::before.map (·.weight) ∧
      getRecentChain block ((sesBlocks records).map (·.height)) tipHeight = .ok recent ∧
      validateSummariesWeight E.subEpochBlocks total
        ((upTo tipHeight (sesBlocks records)).filterMap (·.subEpochSummaryIncluded)) recent = .ok true := by
  obtain ⟨hhonest,hlinked⟩ := h.honest
  have hepochs := hhonest.subEpochs.upTo tipHeight
  rw [hses] at hepochs
  have hmap := hepochs.boundaries E.genesisChallenge (Nat.zero_div _) fun _ => rfl
  rw [← hses,rebuilt_linked (hlinked.upTo tipHeight),← getSubEpochData_eq,Nat.zero_add] at hmap
  obtain ⟨after,hafter⟩ : ∃ after,sesBlocks records=before++y::after := by
    have hsplit := List.takeWhile_append_dropWhile (p := fun b : BlockRecord => decide (b.height≤tipHeight))
      (l := sesBlocks records)
    refine ⟨z::(sesBlocks records).dropWhile fun b => decide (b.height≤tipHeight),?_⟩
    rw [← hsplit]
    change upTo tipHeight (sesBlocks records)++_=_
    rw [hses]
    simp
  obtain ⟨r,hr,hbelow,hweight⟩ := hhonest.later.prior hafter hhonest.weight (by rw [h.height])
  obtain ⟨recent,hrecent,hon,hstart⟩ := getRecentChain_serves hhonest h.height hses htip hblock
  have htotal : y.weight-difficultyAfter E.difficultyStarting (before++[y])=r.weight := by omega
  refine ⟨_,_,recent,hmap,⟨r,hr,hbelow,htotal⟩,?_,hrecent,?_⟩
  · rw [hhonest.weight,← List.cons_append,List.dropLast_concat]
  · exact validateSummariesWeight_accepts hhonest h.height hses hr hbelow htotal hon hstart

end Honest

def delayedEnv : Env := { shortEnv with difficultyStarting := 10 }

def delayedRecord (height weight : ℕ) (ses : Option SubEpochSummary) : BlockRecord :=
  { shortRecord height (some [5]) ses with weight := weight }

def delayedGenesis : BlockRecord := delayedRecord 0 10 none

def delayedFirstSes : SubEpochSummary := ⟨delayedEnv.genesisChallenge,delayedEnv.genesisChallenge,0,none,none⟩

def delayedSecondSes : SubEpochSummary := ⟨delayedEnv.hashSubEpochSummary delayedFirstSes,5,1,some 15,none⟩

/-- Both summaries come one block late, and the second one raises the difficulty. -/
def delayedRecords : List BlockRecord :=
  [delayedRecord 1 20 none,delayedRecord 2 30 none,delayedRecord 3 40 none,delayedRecord 4 50 (some delayedFirstSes),
    delayedRecord 5 60 none,delayedRecord 6 70 none,delayedRecord 7 85 (some delayedSecondSes),delayedRecord 8 100 none]

def delayedView : BlockView where
  blockRecords := (delayedGenesis::delayedRecords).foldl (fun d r => d.set r.headerHash r) Lib.Dict.empty
  heights := Lib.Dict.empty

example : delayedView.blockRecords.size=9 := by decide +kernel

theorem delayedChain : SummaryChain delayedEnv delayedView delayedGenesis delayedRecords := by
  refine ⟨rfl,rfl,rfl,?_⟩
  refine .plain (by decide +kernel) rfl rfl rfl (by decide +kernel) ?_
  refine .plain (by decide +kernel) rfl rfl rfl (by decide +kernel) ?_
  refine .plain (by decide +kernel) rfl rfl rfl (by decide +kernel) ?_
  have hpp : delayedView.blockRecord (delayedRecord 3 40 none).prevHash = .ok (delayedRecord 2 30 none) := by decide +kernel
  have hfinish : canFinishSubAndFullEpoch delayedEnv.constants delayedView 3 (delayedRecord 3 40 none).prevHash
      (delayedRecord 3 40 none).deficit false = .ok (true,false) := by decide +kernel
  have hses : makeSubEpochSummary delayedEnv.constants delayedView delayedEnv.toOracles 4
      (delayedRecord 2 30 none) none none = .ok delayedFirstSes := by decide +kernel
  refine .summary (by decide +kernel) rfl hpp hfinish hses rfl (by decide +kernel) rfl (by decide +kernel) ?_
  refine .plain (by decide +kernel) rfl rfl rfl (by decide +kernel) ?_
  refine .plain (by decide +kernel) rfl rfl rfl (by decide +kernel) ?_
  have hpp' : delayedView.blockRecord (delayedRecord 6 70 none).prevHash = .ok (delayedRecord 5 60 none) := by decide +kernel
  have hfinish' : canFinishSubAndFullEpoch delayedEnv.constants delayedView 6 (delayedRecord 6 70 none).prevHash
      (delayedRecord 6 70 none).deficit false = .ok (true,false) := by decide +kernel
  have hses' : makeSubEpochSummary delayedEnv.constants delayedView delayedEnv.toOracles 7
      (delayedRecord 5 60 none) (some 15) none = .ok delayedSecondSes := by decide +kernel
  refine .summary (by decide +kernel) rfl hpp' hfinish' hses' rfl (by decide +kernel) rfl (by decide +kernel) ?_
  exact .plain (by decide +kernel) rfl rfl rfl (by decide +kernel) .nil

def delayedHeader (r : BlockRecord) : HeaderBlock where
  finishedSubSlots := []
  rewardChainBlock := (tinyBlock r.headerHash r.prevHash r.height r.weight).rewardChainBlock
  challengeChainSpProof := none
  challengeChainIpProof := tinyProof
  rewardChainSpProof := none
  rewardChainIpProof := tinyProof
  infusedChallengeChainIpProof := none
  foliage := (tinyBlock r.headerHash r.prevHash r.height r.weight).foliage
  foliageTransactionBlock := none
  transactionsFilter := []
  transactionsInfo := none

def delayedBlock (height : ℕ) : Check (HeaderBlock × BlockRecord) :=
  (fun r => (delayedHeader r,r)) <$> lookup (delayedGenesis::delayedRecords)[height]?

theorem summaries_accepted_delayed : ∃ total weights recent,
      mapSubEpochSummaries delayedEnv 3 delayedEnv.genesisChallenge (getSubEpochData 8 (sesBlocks delayedRecords)) 10 =
        .ok ([delayedFirstSes,delayedSecondSes],total,weights) ∧
      (∃ r∈delayedGenesis::delayedRecords,r.height+1=4 ∧ total=r.weight) ∧ weights.dropLast=[10] ∧
      getRecentChain delayedBlock [4,7] 8 = .ok recent ∧
      validateSummariesWeight 3 total [delayedFirstSes,delayedSecondSes] recent = .ok true := by
  have hses : upTo 8 (sesBlocks delayedRecords) =
      []++[delayedRecord 4 50 (some delayedFirstSes),delayedRecord 7 85 (some delayedSecondSes)] := rfl
  have hserves : Serves delayedBlock (delayedGenesis::delayedRecords) := by
    intro r hr
    have hall : ∀ r∈delayedGenesis::delayedRecords,delayedBlock r.height = .ok (delayedHeader r,r) := by decide +kernel
    exact ⟨delayedHeader r,hall r hr,rfl,rfl⟩
  exact summaries_accepted delayedChain hses (by decide) hserves

/-- With one summary the height that is looked for is -1: no recent chain has it. -/
theorem oneSummary_rejected : SummaryChain delayedEnv delayedView delayedGenesis delayedRecords ∧
    mapSubEpochSummaries delayedEnv 3 delayedEnv.genesisChallenge (getSubEpochData 6 (sesBlocks delayedRecords)) 10 =
      .ok ([delayedFirstSes],0,[10]) ∧
    ∀ recent,validateSummariesWeight 3 0 [delayedFirstSes] recent = .ok false := by
  refine ⟨delayedChain,by decide +kernel,?_⟩
  intro recent
  have hfilter : recent.filter (fun block => decide ((block.rewardChainBlock.height : ℤ) = -1))=[] := by
    rw [List.filter_eq_nil_iff]
    intro block _
    simp only [decide_eq_true_eq]
    omega
  have hend : (([delayedFirstSes].length : ℤ)-1)*(3 : ℕ)+delayedFirstSes.numBlocksOverflow-1 = -1 := by decide
  simp only [validateSummariesWeight,List.getLast?_singleton,index,check_ok_bind,hend,hfilter,List.getLast?_nil]
  rfl

end WeightProof
end RoseChain
