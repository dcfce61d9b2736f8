import RoseChain.FullNode.WeightProof

namespace RoseChain
namespace WeightProof

/-- The last but one summary height at or below the tip. -/
def lastButOneSes (sesHeights : List ℕ) (tipHeight : ℕ) : Option ℕ :=
  (sesHeights.reverse.filter fun sesHeight => decide (sesHeight≤tipHeight))[1]?

/-- `min_height`: from here on headers are read. -/
def minHeight (sesHeights : List ℕ) (tipHeight : ℕ) : ℕ := ((lastButOneSes sesHeights tipHeight).map (· - 1)).getD 0

/-- The loop of `_get_recent_chain`: down to two summaries, and one block more. -/
def collectRecent (block : ℕ → Check (HeaderBlock × BlockRecord)) :
    (currHeight sesCount : ℕ) → (recentChain : List HeaderBlock) → Check (List HeaderBlock)
  | 0,_,recentChain => do return (← block 0).1::recentChain
  | currHeight+1,sesCount,recentChain => do
    let (headerBlock,blockRec) ← block (currHeight+1)
    if sesCount ≥ 2 then return headerBlock::recentChain
    else
      let sesCount := sesCount+if blockRec.subEpochSummaryIncluded.isSome then 1 else 0
      collectRecent block currHeight sesCount (headerBlock::recentChain)

/-- The blocks of a range by their heights, as dictionaries of it give them. -/
def inRange {α : Type} (block : ℕ → Check α) (start stop height : ℕ) : Check α :=
  if start≤height ∧ height ≤ stop then block height else .error (.raised .key)

def getRecentChain (block : ℕ → Check (HeaderBlock × BlockRecord)) (sesHeights : List ℕ) (tipHeight : ℕ) :
    Check (List HeaderBlock) :=
  collectRecent (inRange block (minHeight sesHeights tipHeight) tipHeight) tipHeight 0 []

def recentStart (record : ℕ → BlockRecord) : (currHeight sesCount : ℕ) → ℕ
  | 0,_ => 0
  | currHeight+1,sesCount =>
    if sesCount ≥ 2 then currHeight+1
    else recentStart record currHeight
      (sesCount+if (record (currHeight+1)).subEpochSummaryIncluded.isSome then 1 else 0)

variable {record : ℕ → BlockRecord} {block : ℕ → Check (HeaderBlock × BlockRecord)} {header : ℕ → HeaderBlock}

theorem recentStart_le (currHeight sesCount : ℕ) : recentStart record currHeight sesCount ≤ currHeight := by
  induction currHeight generalizing sesCount with
  | zero => exact Nat.le_refl _
  | succ currHeight ih =>
    rw [recentStart]
    split_ifs
    · exact Nat.le_refl _
    · exact (ih _).trans (Nat.le_succ _)
    · exact (ih _).trans (Nat.le_succ _)

theorem recentStart_two (currHeight : ℕ) : recentStart record currHeight 2=currHeight := by
  cases currHeight with
  | zero => rfl
  | succ currHeight => simp [recentStart]

theorem recentStart_skip {height sesCount : ℕ} (hcount : sesCount<2) (hpos : 0<height)
    (hses : (record height).subEpochSummaryIncluded.isSome) (j : ℕ)
    (hnone : ∀ k,height<k → k≤height+j → (record k).subEpochSummaryIncluded=none) :
    recentStart record (height+j) sesCount=recentStart record (height-1) (sesCount+1) := by
  obtain ⟨height,rfl⟩ : ∃ k,height=k+1 := Nat.exists_eq_succ_of_ne_zero (by omega)
  induction j with
  | zero => simp [recentStart,hses,hcount]
  | succ j ih =>
    have hstep := hnone (height+1+(j+1)) (by omega) (Nat.le_refl _)
    rw [show height+1+(j+1)=height+1+j+1 by omega] at hstep ⊢
    rw [recentStart,if_neg (by omega),hstep]
    exact ih fun k hlt hle => hnone k hlt (by omega)

theorem collectRecent_ok {currHeight sesCount : ℕ} {recentChain : List HeaderBlock}
    (h : ∀ k,recentStart record currHeight sesCount≤k → k ≤ currHeight → block k = .ok (header k,record k)) :
    collectRecent block currHeight sesCount recentChain =
      .ok ((List.range' (recentStart record currHeight sesCount)
        (currHeight+1-recentStart record currHeight sesCount)).map header++recentChain) := by
  induction currHeight generalizing sesCount recentChain with
  | zero =>
    have hzero := h 0 (Nat.zero_le _) (Nat.le_refl _)
    rw [collectRecent,hzero]
    rfl
  | succ currHeight ih =>
    have htop := h (currHeight+1) (recentStart_le _ _) (Nat.le_refl _)
    rw [collectRecent,htop]
    by_cases hcount : sesCount ≥ 2
    · have hstart : recentStart record (currHeight+1) sesCount=currHeight+1 := by simp [recentStart,hcount]
      rw [hstart]
      simp only [bind,Except.bind,if_pos hcount,Nat.add_sub_cancel_left]
      rfl
    · have hstart : recentStart record (currHeight+1) sesCount=recentStart record currHeight
          (sesCount+if (record (currHeight+1)).subEpochSummaryIncluded.isSome then 1 else 0) := by
        rw [recentStart,if_neg hcount]
      rw [hstart] at h ⊢
      simp only [bind,Except.bind,if_neg hcount]
      rw [ih fun k hk hle => h k hk (by omega)]
      generalize hm : recentStart record currHeight
        (sesCount+if (record (currHeight+1)).subEpochSummaryIncluded.isSome then 1 else 0)=m
      have hle : m ≤ currHeight := hm ▸ recentStart_le _ _
      rw [show currHeight+1+1-m=currHeight+1-m+1 by omega,List.range'_concat]
      simp only [List.map_append,List.append_assoc,Nat.one_mul,List.map_cons,List.map_nil,List.cons_append,
        List.nil_append]
      rw [show m+(currHeight+1-m)=currHeight+1 by omega]

end WeightProof
end RoseChain
