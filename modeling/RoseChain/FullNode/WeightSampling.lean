import Mathlib.Data.List.Pairwise
import RoseChain.Consensus.SubEpochs
import RoseChain.FullNode.WeightProof

namespace RoseChain
namespace WeightProof
variable {E : Env} {weightToCheck : Option (List ℕ)}

variable {α : Type}

theorem check_ok_bind {β : Type} {a : α} {f : α → Check β} : ((.ok a : Check α) >>= f)=f a := rfl

theorem check_pure {a : α} : (pure a : Check α) = .ok a := rfl

def difficultyFrom (d : ℕ) (b : BlockRecord) : ℕ :=
  (b.subEpochSummaryIncluded.bind (·.newDifficulty)).getD d

/-- The blocks on top of weight `w`, at difficulty `d` and from height `n`; `i` summaries came before, the last
at `h`. -/
inductive HonestFrom (E : Env) : (w d h i n : ℕ) → List BlockRecord → Prop
  | nil {w d h i n : ℕ} : HonestFrom E w d h i n []
  | plain {w d h i n : ℕ} {b : BlockRecord} {more : List BlockRecord} :
    b.subEpochSummaryIncluded=none → b.height=n → b.weight=w+d → b.weight<2^128 →
    HonestFrom E b.weight d h i (n+1) more → HonestFrom E w d h i n (b::more)
  | summary {w d h i n : ℕ} {b : BlockRecord} {ses : SubEpochSummary} {more : List BlockRecord} :
    b.subEpochSummaryIncluded=some ses → b.height=n → n / E.subEpochBlocks=i+1 →
    ses.numBlocksOverflow=(if i=0 then 0 else h % E.subEpochBlocks) →
    b.weight=w+difficultyFrom d b → b.weight<2^128 →
    HonestFrom E b.weight (difficultyFrom d b) n (i+1) (n+1) more → HonestFrom E w d h i n (b::more)

/-- A chain with one summary in each sub-epoch. -/
structure HonestChain (E : Env) (genesis : BlockRecord) (records : List BlockRecord) : Prop where
  weight : genesis.weight=E.difficultyStarting
  later : HonestFrom E E.difficultyStarting E.difficultyStarting 0 0 1 records

def sesBlocks (records : List BlockRecord) : List BlockRecord :=
  records.filter (·.subEpochSummaryIncluded.isSome)

/-- The blocks with summaries, of which the last one is at height `h`, just above the weight `t`. -/
inductive SubEpochsFrom (E : Env) : (t d h i : ℕ) → List BlockRecord → Prop
  | nil {t d h i : ℕ} : SubEpochsFrom E t d h i []
  | cons {t d h i : ℕ} {b : BlockRecord} {ses : SubEpochSummary} {more : List BlockRecord} :
    b.subEpochSummaryIncluded=some ses → h<b.height → b.height / E.subEpochBlocks=i+1 →
    ses.numBlocksOverflow=(if i=0 then 0 else h % E.subEpochBlocks) →
    b.weight=t+d*(b.height-h)+difficultyFrom d b → b.weight<2^128 →
    SubEpochsFrom E (t+d*(b.height-h)) (difficultyFrom d b) b.height (i+1) more →
    SubEpochsFrom E t d h i (b::more)

variable {d h i n : ℕ}

theorem HonestFrom.subEpochs {w : ℕ} {records : List BlockRecord} (hr : HonestFrom E w d h i n records) :
    ∀ {t : ℕ},h<n → w=t+d*(n-h) → SubEpochsFrom E t d h i (sesBlocks records) := by
  induction hr with
  | nil => exact fun _ _ => .nil
  | @plain w d h i n b more hnone hheight hweight _ _ ih =>
    intro t hlt hw
    have hskip : sesBlocks (b::more)=sesBlocks more := by simp [sesBlocks,hnone]
    rw [hskip]
    apply ih (by omega)
    rw [hweight,hw,show n+1-h=n-h+1 by omega,Nat.mul_succ]
    omega
  | @summary w d h i n b ses more hsome hheight hdiv hover hweight hbound _ ih =>
    intro t hlt hw
    have hkeep : sesBlocks (b::more)=b::sesBlocks more := by simp [sesBlocks,hsome]
    rw [hkeep]
    subst hheight
    refine .cons hsome hlt hdiv hover ?_ hbound (ih (by omega) ?_)
    · rw [hweight,hw]
    · rw [hweight,hw,show b.height+1-b.height=1 by omega,Nat.mul_one]

theorem HonestChain.subEpochs {genesis : BlockRecord} {records : List BlockRecord}
    (h : HonestChain E genesis records) : SubEpochsFrom E 0 E.difficultyStarting 0 0 (sesBlocks records) := by
  apply h.later.subEpochs
  · omega
  · simp

variable {blocks : List BlockRecord}

theorem SubEpochsFrom.upTo {t : ℕ} (hb : SubEpochsFrom E t d h i blocks)
    (tipHeight : ℕ) : SubEpochsFrom E t d h i (upTo tipHeight blocks) := by
  induction hb with
  | nil => exact .nil
  | @cons t d h i b ses more hsome hlt hdiv hover hweight hbound _ ih =>
    unfold WeightProof.upTo at ih ⊢
    rw [List.takeWhile_cons]
    split
    · exact .cons hsome hlt hdiv hover hweight hbound ih
    · exact .nil

theorem SubEpochsFrom.summarised {t : ℕ}
    (hb : SubEpochsFrom E t d h i blocks) : ∀ b∈blocks,b.subEpochSummaryIncluded.isSome := by
  induction hb with
  | nil => simp
  | @cons t d h i b ses more hsome _ _ _ _ _ _ ih =>
    intro c hc
    rcases List.mem_cons.mp hc with rfl | hc
    · simp [hsome]
    · exact ih c hc

section Sample

def hits (weightToCheck : Option (List ℕ)) (start stop : ℕ) : Bool :=
  match weightToCheck with
  | none => true
  | some weights => weights.any fun w => decide (start<w ∧ w<stop)

def SortedSample (weightToCheck : Option (List ℕ)) : Prop :=
  ∀ weights,weightToCheck=some weights → weights≠[] ∧ weights.Pairwise (· ≤ ·)

variable {start stop : ℕ} {weights : List ℕ}

theorem outside (ho : ∀ w∈weights,w ≤ start ∨ stop≤w) :
    (weights.any fun w => decide (start<w ∧ w<stop))=false := by
  rw [List.any_eq_false]
  intro w hw
  have := ho w hw
  simp only [decide_eq_true_eq]
  omega

theorem scanWeights_eq (hs : weights.Pairwise (· ≤ ·)) :
    scanWeights start stop weights=weights.any fun w => decide (start<w ∧ w<stop) := by
  induction weights with
  | nil => rfl
  | cons w more ih =>
    have hmore := List.pairwise_cons.mp hs
    rw [scanWeights]
    by_cases hgt : w > stop
    · rw [if_pos hgt,outside]
      intro v hv
      rcases List.mem_cons.mp hv with rfl | hv
      · omega
      · have := hmore.1 v hv
        omega
    · rw [if_neg hgt,ih hmore.2,List.any_cons]
      by_cases hin : start<w ∧ w<stop <;> simp [hin]

theorem sampleSubEpoch_eq (hw : SortedSample weightToCheck) (start stop : ℕ) :
    sampleSubEpoch start stop weightToCheck = .ok (hits weightToCheck start stop) := by
  cases weightToCheck with
  | none => rfl
  | some weights =>
    obtain ⟨hne,hs⟩ := hw weights rfl
    have hlast := List.getLast?_eq_some_getLast hne
    have hhead := List.head?_eq_some_head hne
    simp only [sampleSubEpoch,hlast,hhead,index,check_ok_bind,check_pure,hits]
    by_cases hbelow : weights.getLast hne<start
    · rw [if_pos hbelow,outside]
      intro w hmem
      have := hs.rel_getLast hmem
      omega
    · rw [if_neg hbelow]
      by_cases habove : weights.head hne > stop
      · rw [if_pos habove,outside]
        intro w hmem
        have := hs.rel_head hmem
        omega
      · rw [if_neg habove,scanWeights_eq hs]

end Sample

/-- The sub-epochs with a sampled weight, from the `n`-th on. -/
def marks (weightToCheck : Option (List ℕ)) : (n start : ℕ) → List ℕ → List ℕ
  | _,_,[] => []
  | n,start,weight::more =>
    if hits weightToCheck start weight then n::marks weightToCheck (n+1) weight more
    else marks weightToCheck (n+1) weight more

theorem marks_append (n start : ℕ) (l l' : List ℕ) :
    marks weightToCheck n start (l++l')=marks weightToCheck n start l ++
      marks weightToCheck (n+l.length) (l.getLastD start) l' := by
  induction l generalizing n start with
  | nil => rfl
  | cons w more ih =>
    have hlast : (w::more).getLastD start=more.getLastD w := by
      cases more <;> rfl
    rw [List.cons_append,marks,marks,ih,hlast,List.length_cons,Nat.add_right_comm n 1,Nat.add_assoc n]
    split <;> rfl

variable {start : ℕ}

theorem marks_bounds {m : ℕ} {l : List ℕ} (hm : m∈marks weightToCheck n start l) : n ≤ m ∧ m<n+l.length := by
  induction l generalizing n start with
  | nil => simp [marks] at hm
  | cons w more ih =>
    rw [marks] at hm
    rw [List.length_cons]
    split at hm
    · rcases List.mem_cons.mp hm with rfl | hm
      · omega
      · have := ih hm
        omega
    · have := ih hm
      omega

variable (weightToCheck) in
theorem marks_sorted (n start : ℕ) (l : List ℕ) : (marks weightToCheck n start l).Pairwise (· < ·) := by
  induction l generalizing n start with
  | nil => exact .nil
  | cons w more ih =>
    rw [marks]
    split
    · refine List.pairwise_cons.mpr ⟨?_,ih _ _⟩
      intro m hm
      have := marks_bounds hm
      omega
    · exact ih _ _

theorem sampledByProver_eq (hw : SortedSample weightToCheck)
    (hs : ∀ b∈blocks,b.subEpochSummaryIncluded.isSome) (n sampleN start : ℕ) :
    sampledByProver weightToCheck n sampleN start blocks =
      .ok (some ((marks weightToCheck n start (blocks.map (·.weight))).take (MAX_SAMPLES-sampleN))) := by
  induction blocks generalizing n sampleN start with
  | nil => simp [sampledByProver,marks,check_pure]
  | cons b more ih =>
    have hb := hs b (by simp)
    have hmore := fun c hc => hs c (List.mem_cons_of_mem b hc)
    have hsome : b.subEpochSummaryIncluded.isNone=false := by
      cases hses : b.subEpochSummaryIncluded with
      | none => simp [hses] at hb
      | some _ => rfl
    rw [sampledByProver]
    by_cases hmax : sampleN ≥ MAX_SAMPLES
    · rw [if_pos hmax,Nat.sub_eq_zero_of_le hmax,List.take_zero]
      rfl
    · rw [if_neg hmax,if_neg (by simp only [hsome,Bool.false_eq_true,not_false_eq_true]),sampleSubEpoch_eq hw,List.map_cons,marks]
      cases hits weightToCheck start b.weight with
      | false => simpa [check_ok_bind] using ih hmore (n+1) sampleN b.weight
      | true =>
        have hroom : MAX_SAMPLES-sampleN=(MAX_SAMPLES-(sampleN+1))+1 := by omega
        simp [ih hmore (n+1) (sampleN+1) b.weight,hroom,check_ok_bind,check_pure]

theorem sampledByVerifier_eq (hw : SortedSample weightToCheck) {idx : ℕ} {weights : List ℕ}
    (hn : n<MAX_SAMPLES) : sampledByVerifier weightToCheck idx n start weights =
      .ok ((marks weightToCheck idx start weights).take (MAX_SAMPLES-n)) := by
  induction weights generalizing idx n start with
  | nil => simp [sampledByVerifier,marks,check_pure]
  | cons w more ih =>
    rw [sampledByVerifier,sampleSubEpoch_eq hw,marks]
    cases hits weightToCheck start w with
    | false => simpa [check_ok_bind] using ih hn
    | true =>
      have hroom : MAX_SAMPLES-n=(MAX_SAMPLES-(n+1))+1 := by omega
      by_cases hfull : n+1=MAX_SAMPLES
      · have hone : MAX_SAMPLES-n=1 := by omega
        simp [hfull,hone,check_ok_bind,check_pure]
      · simp [hfull,ih (show n+1<MAX_SAMPLES by omega),hroom,check_ok_bind,check_pure]

section Segments

theorem withoutSegments_same (n k : ℕ) (sampled rest : List ℕ) :
    withoutSegments n sampled (List.replicate k n++rest)=withoutSegments n sampled rest := by
  induction k with
  | zero => rfl
  | succ k ih =>
    rw [List.replicate_succ,List.cons_append,withoutSegments,if_neg (lt_irrefl _),ih]

variable {curr : ℤ}

theorem withoutSegments_first {n k : ℕ} (hlt : curr<n) (hk : 0<k) (sampled rest : List ℕ) :
    withoutSegments curr sampled (List.replicate k n++rest) =
      withoutSegments n (sampled.filter (· ≠ n)) rest := by
  obtain ⟨k,rfl⟩ := Nat.exists_eq_succ_of_ne_zero hk.ne'
  rw [List.replicate_succ,List.cons_append,withoutSegments,if_pos hlt,withoutSegments_same]

variable {included : List ℕ}

theorem withoutSegments_eq (count : ℕ → ℕ+) (hs : included.Pairwise (· < ·)) (hlt : ∀ n∈included,curr<(n : ℤ)) (sampled : List ℕ) :
    withoutSegments curr sampled (segmentsOf count included) =
      sampled.filter fun n => !included.contains n := by
  induction included generalizing curr sampled with
  | nil => simp [segmentsOf,withoutSegments]
  | cons n more ih =>
    obtain ⟨hfirst,hmore⟩ := List.pairwise_cons.mp hs
    have hnext : ∀ m∈more,(n : ℤ) < m := fun m hm => by exact_mod_cast hfirst m hm
    have hsplit : segmentsOf count (n::more)=List.replicate (count n) n++segmentsOf count more := by
      simp [segmentsOf]
    rw [hsplit,withoutSegments_first (hlt n (by simp)) (count n).pos,ih hmore hnext,List.filter_filter]
    apply List.filter_congr
    intro m _
    by_cases hm : m=n <;> simp [hm]

theorem withoutSegments_isEmpty (count : ℕ → ℕ+) (hs : included.Pairwise (· < ·)) (sampled : List ℕ) :
    (withoutSegments (-1) sampled (segmentsOf count included)).isEmpty=true ↔ sampled ⊆ included := by
  have hlt : ∀ n∈included,(-1 : ℤ)<n := fun n _ => by omega
  rw [withoutSegments_eq count hs hlt,List.isEmpty_iff,List.filter_eq_nil_iff]
  simp [List.subset_def]

end Segments

section Boundaries

def difficultyAfter (d : ℕ) (blocks : List BlockRecord) : ℕ := blocks.foldl difficultyFrom d

def dataOf (blocks : List BlockRecord) : List SubEpochData :=
  blocks.filterMap fun b => b.subEpochSummaryIncluded.map createSubEpochData

variable {b : BlockRecord} {more : List BlockRecord}

variable {ses : SubEpochSummary}

theorem dataOf_cons
    (h : b.subEpochSummaryIncluded=some ses) : dataOf (b::more)=createSubEpochData ses::dataOf more := by
  simp [dataOf,h]

theorem difficultyFrom_some (d : ℕ)
    (h : b.subEpochSummaryIncluded=some ses) : difficultyFrom d b=ses.newDifficulty.getD d := by
  simp [difficultyFrom,h]

variable {s h i : ℕ}

theorem blocks_between {n : ℕ} (hdiv : h / s=i) (hnext : n / s=i+1) (hlt : h<n) :
    (s : ℤ)+(n % s : ℕ)-(h % s : ℕ)=(n-h : ℕ) := by
  have hn := Nat.div_add_mod n s
  have hh := Nat.div_add_mod h s
  rw [hnext,Nat.mul_succ] at hn
  rw [hdiv] at hh
  omega

/-- The summaries that `_map_sub_epoch_summaries` puts together. -/
def rebuilt (E : Env) : Bytes32 → List SubEpochData → List SubEpochSummary
  | _,[] => []
  | sesHash,data::more =>
    let ses : SubEpochSummary := ⟨sesHash,data.rewardChainHash,data.numBlocksOverflow,data.newDifficulty,
      data.newSubSlotIters⟩
    ses::rebuilt E (E.hashSubEpochSummary ses) more

variable {t d : ℕ} {hash : Bytes32}

variable {total : ℕ} {first : Bool} {data : SubEpochData} {weights : List ℕ}

theorem mapSubEpochSummaries_step {k : ℕ} {next : SubEpochData} {more : List SubEpochData}
    (hk : (s : ℤ)+next.numBlocksOverflow-(if first then 0 else data.numBlocksOverflow : ℕ)=k)
    (hpos : 0<k) (hbound : t+d*k<2^128)
    (hrest : ∀ hash,mapSubEpochSummariesFrom E s false (t+d*k) hash (data.newDifficulty.getD d) (next::more) =
      .ok (rebuilt E hash (next::more),total,weights)) :
    mapSubEpochSummariesFrom E s first t hash d (data::next::more) =
      .ok (rebuilt E hash (data::next::more),total,(t+d)::weights) := by
  have hle : d≤d*k := Nat.le_mul_of_pos_right d hpos
  have hstart : uint128 ((t : ℤ)+d) = .ok (t+d) := uint_eq_ok.mpr ⟨by push_cast; rfl,by omega⟩
  have hadded : uint128 ((d : ℤ)*k) = .ok (d*k) := uint_eq_ok.mpr ⟨by push_cast; rfl,by omega⟩
  simp only [mapSubEpochSummariesFrom,hstart,hk,hadded,check_ok_bind,check_pure]
  rw [hrest]
  rfl

theorem mapSubEpochSummaries_last (hbound : t+data.newDifficulty.getD d<2^128) :
    mapSubEpochSummariesFrom E s first t hash d [data] =
      .ok (rebuilt E hash [data],t,[t+data.newDifficulty.getD d]) := by
  have hend : uint128 ((t : ℤ)+(data.newDifficulty.getD d : ℕ)) = .ok (t+data.newDifficulty.getD d) :=
    uint_eq_ok.mpr ⟨by push_cast; rfl,hbound⟩
  simp only [mapSubEpochSummariesFrom,hend,check_ok_bind,check_pure,rebuilt]

theorem SubEpochsFrom.weight_le (hb : SubEpochsFrom E t d h i (b::more)) : t+d≤b.weight := by
  cases hb with
  | cons _ hlt _ _ hweight _ _ =>
    have := Nat.le_mul_of_pos_right d (show 0<b.height-h by omega)
    omega

theorem SubEpochsFrom.step {c : BlockRecord} (hb : SubEpochsFrom E t d h i (b::c::more)) (hdiv : h / E.subEpochBlocks=i)
    (hzero : i=0 → h=0)
    (hrest : ∀ hash,mapSubEpochSummariesFrom E E.subEpochBlocks false (t+d*(b.height-h)) hash
      (difficultyFrom d b) (dataOf (c::more)) = .ok (rebuilt E hash (dataOf (c::more)),total,weights)) :
    mapSubEpochSummariesFrom E E.subEpochBlocks (i == 0) t hash d (dataOf (b::c::more)) =
      .ok (rebuilt E hash (dataOf (b::c::more)),total,(t+d)::weights) := by
  cases hb with
  | @cons _ _ _ _ _ ses _ hsome hlt hnext hover hweight hbound hmore =>
    cases hmore with
    | @cons _ _ _ _ _ nextSes _ hsome' _ _ hover' _ _ _ =>
      rw [dataOf_cons hsome'] at hrest
      rw [dataOf_cons hsome,dataOf_cons hsome']
      rw [difficultyFrom_some d hsome] at hrest hweight
      apply mapSubEpochSummaries_step (k := b.height-h)
      · have hdelta : (if (i == 0) then 0 else (createSubEpochData ses).numBlocksOverflow) =
            h % E.subEpochBlocks := by
          by_cases hi : i=0
          · simp [hi,hzero hi]
          · simp [createSubEpochData,hover,hi]
        rw [hdelta,show (createSubEpochData nextSes).numBlocksOverflow=b.height % E.subEpochBlocks by
          simp [createSubEpochData,hover']]
        exact blocks_between hdiv hnext hlt
      · omega
      · omega
      · exact hrest

theorem SubEpochsFrom.boundaries {before : List BlockRecord} {y z : BlockRecord}
    (hb : SubEpochsFrom E t d h i (before++[y,z])) (hash : Bytes32)
    (hdiv : h / E.subEpochBlocks=i) (hzero : i=0 → h=0) :
    mapSubEpochSummariesFrom E E.subEpochBlocks (i == 0) t hash d (dataOf (before++[y,z])) =
      .ok (rebuilt E hash (dataOf (before++[y,z])),y.weight-difficultyAfter d (before++[y]),
        (t+d)::(before.map (·.weight) ++
          [y.weight-difficultyAfter d (before++[y])+difficultyAfter d (before++[y,z])])) := by
  induction before generalizing t d h i hash with
  | nil =>
    apply hb.step hdiv hzero
    intro hash
    cases hb with
    | @cons _ _ _ _ _ ses _ hsome hlt hnext hover hweight hbound hmore =>
      have hle := hmore.weight_le
      cases hmore with
      | @cons _ _ _ _ _ nextSes _ hsome' hlt' _ _ hweight' hbound' _ =>
        have hpos := Nat.le_mul_of_pos_right (difficultyFrom d y) (show 0<z.height-y.height by omega)
        have htotal : y.weight-difficultyAfter d [y]=t+d*(y.height-h) := by
          simp only [difficultyAfter,List.foldl_cons,List.foldl_nil]
          omega
        have hlast : difficultyAfter d [y,z]=nextSes.newDifficulty.getD (difficultyFrom d y) :=
          difficultyFrom_some (difficultyFrom d y) hsome'
        rw [List.nil_append,List.nil_append,List.map_nil,List.nil_append,htotal,hlast,dataOf_cons hsome']
        rw [difficultyFrom_some (difficultyFrom d y) hsome'] at hweight'
        apply mapSubEpochSummaries_last
        simp only [createSubEpochData]
        omega
  | cons b before ih =>
    cases hb' : before++[y,z] with
    | nil => simp at hb'
    | cons c more =>
      rw [List.cons_append,hb'] at hb ⊢
      rw [List.map_cons,List.cons_append]
      apply hb.step hdiv hzero
      intro hash
      cases hb with
      | @cons _ _ _ _ _ ses _ hsome hlt hnext hover hweight hbound hmore =>
        rw [← hb'] at hmore ⊢
        rw [hweight]
        exact ih hmore hash hnext (by omega)

end Boundaries

theorem take_subset_iff {k p : ℕ} {earlier later : List ℕ} {wanted found : Bool}
    (hearlier : ∀ m∈earlier,m<p) (hlater : ∀ m∈later,p < m) :
    (earlier++if wanted then [p] else []).take k ⊆ (earlier++((if found then [p] else [])++later)).take k ↔
      ¬ (wanted=true ∧ found=false ∧ earlier.length<k) := by
  have hp : p∉earlier++later := by
    intro hmem
    rcases List.mem_append.mp hmem with hmem | hmem
    · exact lt_irrefl p (hearlier p hmem)
    · exact lt_irrefl p (hlater p hmem)
  by_cases hlen : k≤earlier.length
  · rw [List.take_append_of_le_length hlen,List.take_append_of_le_length hlen]
    simp [hlen]
  · have hroom : earlier.length+1≤k := by omega
    have hkept : ∀ {l : List ℕ} {m : ℕ},m∈earlier → m∈(earlier++l).take k := by
      intro l m hm
      rw [List.take_append,List.take_of_length_le (by omega)]
      exact List.mem_append_left _ hm
    cases wanted with
    | false =>
      simp only [Bool.false_eq_true,if_false,List.append_nil,false_and,not_false_eq_true,iff_true]
      exact fun m hm => hkept (List.mem_of_mem_take hm)
    | true =>
      rw [if_pos rfl,List.take_of_length_le (by simp; omega)]
      cases found with
      | true =>
        simp only [if_true,Bool.true_eq_false,false_and,and_false,not_false_eq_true,iff_true]
        intro m hm
        rcases List.mem_append.mp hm with hm | hm
        · exact hkept hm
        · obtain rfl := List.mem_singleton.mp hm
          rw [← List.append_assoc,List.take_append,List.take_of_length_le (by simp; omega)]
          simp
      | false =>
        simp only [Bool.false_eq_true,if_false,List.nil_append,true_and]
        refine iff_of_false ?_ (by omega)
        intro hsub
        have hmem := List.mem_of_mem_take (hsub (List.mem_append_right earlier (List.mem_singleton.mpr rfl)))
        exact hp hmem

section Honest
variable {genesis : BlockRecord} {records before : List BlockRecord} {y z : BlockRecord} {tipHeight : ℕ}

/-- Where the last but one sub-epoch of the chain starts, by its weight. -/
def lastStart (genesis : BlockRecord) (before : List BlockRecord) : ℕ :=
  (before.map (·.weight)).getLastD genesis.weight

/-- The weight of the last but one summary's block, had it the difficulty of the last summary. -/
def lastBoundary (E : Env) (before : List BlockRecord) (y z : BlockRecord) : ℕ :=
  y.weight-difficultyAfter E.difficultyStarting (before++[y]) +
    difficultyAfter E.difficultyStarting (before++[y,z])

/-- The sub-epochs before the last but one with a sampled weight. -/
def sampledBefore (weightToCheck : Option (List ℕ)) (genesis : BlockRecord) (before : List BlockRecord) : ℕ :=
  (marks weightToCheck 0 genesis.weight (before.map (·.weight))).length

theorem sampling_accepts_iff (E : Env) (count : ℕ → ℕ+) (h : HonestChain E genesis records)
    (hses : upTo tipHeight (sesBlocks records)=before++[y,z]) (hw : SortedSample weightToCheck) :
    sampleProof E genesis (sesBlocks records) tipHeight weightToCheck count = .ok (some true) ↔
      ¬ (hits weightToCheck (lastStart genesis before) (lastBoundary E before y z)=true ∧
        hits weightToCheck (lastStart genesis before) y.weight=false ∧
        sampledBefore weightToCheck genesis before<MAX_SAMPLES) := by
  have hepochs := h.subEpochs.upTo tipHeight
  rw [hses] at hepochs
  have hmap := hepochs.boundaries E.genesisChallenge (Nat.zero_div _) fun _ => rfl
  have hprover := sampledByProver_eq hw hepochs.summarised 0 0 genesis.weight
  have hverifier : ∀ weights,sampledByVerifier weightToCheck 0 0 E.difficultyStarting weights =
      .ok ((marks weightToCheck 0 E.difficultyStarting weights).take MAX_SAMPLES) :=
    fun _ => sampledByVerifier_eq hw (by decide)
  have hsorted := (marks_sorted weightToCheck 0 genesis.weight
    ((before++[y,z]).map (·.weight))).take (i := MAX_SAMPLES)
  rw [Nat.zero_add,beq_self_eq_true] at hmap
  have hdata : getSubEpochData tipHeight (sesBlocks records)=dataOf (before++[y,z]) := by
    rw [← hses]
    rfl
  have hall : sampleProof E genesis (sesBlocks records) tipHeight weightToCheck count =
      .ok (some (withoutSegments (-1) ((marks weightToCheck 0 genesis.weight
        (before.map (·.weight)++[lastBoundary E before y z])).take MAX_SAMPLES)
        (segmentsOf count ((marks weightToCheck 0 genesis.weight
          ((before++[y,z]).map (·.weight))).take MAX_SAMPLES))).isEmpty) := by
    simp only [sampleProof,hdata,hses,hprover,mapSubEpochSummaries,validateSubEpochSampling,
      check_ok_bind,check_pure,Nat.sub_zero]
    rw [hmap]
    simp only [check_ok_bind,hverifier,lastBoundary,h.weight]
  have hlater : ∀ m∈marks weightToCheck (before.length+1) y.weight [z.weight],before.length < m :=
    fun m hm => (marks_bounds hm).1
  have hearlier : ∀ m∈marks weightToCheck 0 genesis.weight (before.map (·.weight)),m<before.length := by
    intro m hm
    have := marks_bounds hm
    simp only [List.length_map] at this
    omega
  have hwanted : marks weightToCheck 0 genesis.weight (before.map (·.weight)++[lastBoundary E before y z]) =
      marks weightToCheck 0 genesis.weight (before.map (·.weight)) ++
        if hits weightToCheck (lastStart genesis before) (lastBoundary E before y z) then [before.length]
        else [] := by
    rw [marks_append,List.length_map,Nat.zero_add,marks]
    rfl
  have hfound : marks weightToCheck 0 genesis.weight ((before++[y,z]).map (·.weight)) =
      marks weightToCheck 0 genesis.weight (before.map (·.weight)) ++
        ((if hits weightToCheck (lastStart genesis before) y.weight then [before.length] else []) ++
          marks weightToCheck (before.length+1) y.weight [z.weight]) := by
    rw [List.map_append,marks_append,List.length_map,Nat.zero_add,List.map_cons,marks,lastStart]
    split <;> rfl
  rw [hall,Except.ok.injEq,Option.some.injEq,withoutSegments_isEmpty count hsorted,hwanted,hfound]
  exact take_subset_iff hearlier hlater

end Honest

def raisedEnv : Env := { tinyEnv with subEpochBlocks := 3,difficultyStarting := 10 }

def raisedRecord (height weight : ℕ) (ses : Option SubEpochSummary) : BlockRecord :=
  { shortRecord height none ses with weight := weight }

def raisedGenesis : BlockRecord := raisedRecord 0 10 none

def raisedRecords : List BlockRecord :=
  [raisedRecord 1 20 none,raisedRecord 2 30 none,raisedRecord 3 40 (some ⟨0,0,0,none,none⟩),
    raisedRecord 4 50 none,raisedRecord 5 60 none,raisedRecord 6 75 (some ⟨0,0,0,some 15,none⟩),
    raisedRecord 7 90 none]

theorem raisedChain : HonestChain raisedEnv raisedGenesis raisedRecords := by
  refine ⟨rfl,?_⟩
  refine .plain rfl rfl rfl (by decide) (.plain rfl rfl rfl (by decide) ?_)
  refine .summary rfl rfl (by decide) rfl rfl (by decide) ?_
  refine .plain rfl rfl rfl (by decide) (.plain rfl rfl rfl (by decide) ?_)
  refine .summary rfl rfl (by decide) rfl rfl (by decide) ?_
  exact .plain rfl rfl rfl (by decide) .nil

theorem sampling_accepts_raised :
    sampleProof raisedEnv raisedGenesis (sesBlocks raisedRecords) 7 (some [25,50]) (fun _ => 1) =
      .ok (some true) :=
  (@sampling_accepts_iff _ raisedGenesis raisedRecords [] _ _ 7 raisedEnv (fun _ => 1) raisedChain rfl (by
    rintro _ ⟨⟩
    decide)).mpr (by decide)

/-- A sample between both sides' boundaries: the honest proof lacks sub-epoch 0, and is rejected. -/
theorem honest_sampling_rejected :
    HonestChain raisedEnv raisedGenesis raisedRecords ∧ SortedSample (some [42]) ∧
      sampleProof raisedEnv raisedGenesis (sesBlocks raisedRecords) 7 (some [42]) (fun _ => 1) =
        .ok (some false) := by
  refine ⟨raisedChain,?_,by decide +kernel⟩
  rintro _ ⟨⟩
  decide

end WeightProof
end RoseChain
