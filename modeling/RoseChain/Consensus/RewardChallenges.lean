import Mathlib.Data.List.DropRight
import RoseChain.Consensus.SlotChain

namespace RoseChain
variable {E : Env} {V : BlockView}

namespace Blockchain

/-- Challenges of finished sub-slots with the iterations at their ends, the last one first. -/
def slotChallenges (subSlotIters : ℕ) : ℕ → List Bytes32 → List (Bytes32 × ℕ)
  | _,[] => []
  | total,rc::more =>
    if total<subSlotIters then [] else (rc,total)::slotChallenges subSlotIters (total-subSlotIters) more

section Model
variable (E : Env) (V : BlockView)

def addRewardChallenges (peak curr : BlockRecord) (recentRc : List (Bytes32 × ℕ)) : Check (List (Bytes32 × ℕ)) := do
  let recentRc := if curr≠peak then recentRc++[(curr.rewardInfusionNewChallenge,curr.totalIters)] else recentRc
  if curr.firstInSubSlot then do
    let hashes ← assertSome curr.finishedRewardSlotHashes
    let subSlotTotalIters ← curr.ipSubSlotTotalIters E.constants
    return recentRc++slotChallenges curr.subSlotIters subSlotTotalIters hashes.reverse
  else return recentRc

def rewardChallengesFrom (peak : BlockRecord) : ℕ → Option BlockRecord → List (Bytes32 × ℕ) →
    Check (List (Bytes32 × ℕ))
  | 0,_,_ => .error (.raised .diverged)
  | _+1,none,recentRc => .ok recentRc
  | n+1,some curr,recentRc =>
    if recentRc.length<2*E.maxSubSlotBlocks then do
      let recentRc ← addRewardChallenges E peak curr recentRc
      rewardChallengesFrom peak n (V.tryBlockRecord curr.prevHash) recentRc
    else .ok recentRc

/-- Every block but the peak adds at least one challenge. -/
def getRecentRewardChallenges (peak : Option BlockRecord) : Check (List (Bytes32 × ℕ)) :=
  match peak with
  | none => return []
  | some peak => do
    return (← rewardChallengesFrom E V peak (2*E.maxSubSlotBlocks+2) (some peak) []).reverse

end Model

section Bounds
variable {b p : ChainLink} {l : List ChainLink} {peak : BlockRecord} {found r : List (Bytes32 × ℕ)} {n : ℕ}

theorem slotChallenges_le {subSlotIters total : ℕ} {hashes : List Bytes32} :
    ∀ e∈slotChallenges subSlotIters total hashes,e.2≤total := by
  induction hashes generalizing total with
  | nil => simp [slotChallenges]
  | cons rc more ih =>
    intro e he
    rw [slotChallenges] at he
    split_ifs at he with hlt
    · cases he
    · rcases List.mem_cons.mp he with rfl | he
      · exact le_refl _
      · exact (ih e he).trans (Nat.sub_le _ _)

/-- A block adds its own challenge, unless it is the peak, and those of sub-slots that end before its own. -/
theorem addRewardChallenges_ok (hl : HeaderChain E (b::l))
    (h : addRewardChallenges E peak b.record found = .ok r) : ∃ older,
      r=found++(if b.record≠peak then [(b.record.rewardInfusionNewChallenge,b.record.totalIters)] else [])++older ∧
        (∀ e∈older,e.2≤b.record.start E.constants) ∧ (b.record.firstInSubSlot=false → older=[]) := by
  have hfound : (if b.record≠peak then found++[(b.record.rewardInfusionNewChallenge,b.record.totalIters)] else found) =
      found++(if b.record≠peak then [(b.record.rewardInfusionNewChallenge,b.record.totalIters)] else []) := by
    split_ifs
    · rfl
    · rw [List.append_nil]
  unfold addRewardChallenges at h
  dsimp only at h
  rw [hfound] at h
  by_cases hfirst : b.record.firstInSubSlot
  · rw [if_pos hfirst] at h
    obtain ⟨hashes,-,h⟩ := bind_ok.mp h
    obtain ⟨total,htotal,h⟩ := bind_ok.mp h
    cases h
    unfold BlockRecord.ipSubSlotTotalIters at htotal
    rw [bind_of_ok hl.placed.ipIters] at htotal
    have htotal := (uint_eq_ok.mp htotal).1
    have hstart := hl.placed.total_eq
    have hsame : total=b.record.start E.constants := by omega
    refine ⟨_,rfl,?_,?_⟩
    · rw [← hsame]
      exact slotChallenges_le
    · intro hnot
      rw [hfirst] at hnot
      cases hnot
  · rw [if_neg hfirst] at h
    cases h
    exact ⟨[],(List.append_nil _).symm,by simp,fun _ => rfl⟩

theorem added_le {older : List (Bytes32 × ℕ)} (hl : HeaderChain E (b::l))
    (hle : ∀ e∈older,e.2≤b.record.start E.constants) :
    ∀ e∈(if b.record≠peak then [(b.record.rewardInfusionNewChallenge,b.record.totalIters)] else [])++older,
      e.2≤b.record.totalIters := by
  intro e he
  have htotal := hl.placed.total_eq
  obtain he | he := List.mem_append.mp he
  · split_ifs at he
    · simp only [List.mem_singleton] at he
      rw [he]
    · cases he
  · exact (hle e he).trans (by omega)

theorem rewardChallengesFrom_none (h : rewardChallengesFrom E V peak n none found = .ok r) : r=found := by
  cases n with
  | zero => cases h
  | succ n => exact (Except.ok.inj h).symm

theorem rewardChallengesFrom_some {curr : BlockRecord} (h : rewardChallengesFrom E V peak n (some curr) found = .ok r) :
    (2*E.maxSubSlotBlocks≤found.length ∧ r=found) ∨ ∃ m next,addRewardChallenges E peak curr found = .ok next ∧
        rewardChallengesFrom E V peak m (V.tryBlockRecord curr.prevHash) next = .ok r := by
  cases n with
  | zero => cases h
  | succ n =>
    rw [rewardChallengesFrom] at h
    by_cases hlt : found.length<2*E.maxSubSlotBlocks
    · rw [if_pos hlt] at h
      obtain ⟨next,hnext,h⟩ := bind_ok.mp h
      exact Or.inr ⟨n,next,hnext,h⟩
    · rw [if_neg hlt] at h
      exact Or.inl ⟨by omega,(Except.ok.inj h).symm⟩

section
variable (hl : HeaderChain E (b::l))
include hl

section
variable (hv : HasChain V (b::l))
include hv

theorem rewardChallengesFrom_le (h : rewardChallengesFrom E V peak n (some b.record) found = .ok r) :
    ∃ older,r=found++older ∧ ∀ e∈older,e.2≤b.record.totalIters := by
  induction l generalizing b n found with
  | nil =>
    obtain ⟨-,rfl⟩ | ⟨m,next,hadd,h⟩ := rewardChallengesFrom_some h
    · exact ⟨[],(List.append_nil _).symm,by simp⟩
    · rw [hv.ground b rfl] at h
      obtain ⟨older,hnext,hle,-⟩ := addRewardChallenges_ok hl hadd
      refine ⟨_,by rw [rewardChallengesFrom_none h,hnext,List.append_assoc],?_⟩
      exact added_le hl hle
  | cons p l ih =>
    obtain ⟨-,rfl⟩ | ⟨m,next,hadd,h⟩ := rewardChallengesFrom_some h
    · exact ⟨[],(List.append_nil _).symm,by simp⟩
    · rw [hv.prev hl] at h
      obtain ⟨older,hnext,hle,-⟩ := addRewardChallenges_ok hl hadd
      obtain ⟨rest,hr,hrest⟩ := ih hl.tail hv.tail h
      refine ⟨_,by rw [hr,hnext,List.append_assoc,List.append_assoc],?_⟩
      intro e he
      rw [← List.append_assoc] at he
      obtain he | he := List.mem_append.mp he
      · exact added_le hl hle e he
      · exact (hrest e he).trans hl.total_le

theorem rewardChallengesFrom_split (hb : b.record.height<peak.height)
    (hfew : found.length+(inSubSlot (b::l)+1)≤2*E.maxSubSlotBlocks)
    (h : rewardChallengesFrom E V peak n (some b.record) found = .ok r) : ∃ own older,r=found++own++older ∧
      own.length=inSubSlot (b::l)+1 ∧ (∀ e∈own,b.record.start E.constants<e.2) ∧
      ∀ e∈older,e.2≤b.record.start E.constants := by
  have hne : b.record≠peak := by
    rintro rfl
    exact lt_irrefl _ hb
  have hpos : b.record.start E.constants<b.record.totalIters := by
    rw [hl.placed.total_eq]
    exact Nat.lt_add_of_pos_right hl.placed.timed.ipPlace_pos
  induction l generalizing b n found with
  | nil =>
    have hfirst : b.record.firstInSubSlot=true := by simp [hl.first_iff]
    obtain ⟨hfull,-⟩ | ⟨m,next,hadd,h⟩ := rewardChallengesFrom_some h
    · omega
    rw [hv.ground b rfl] at h
    obtain ⟨older,hnext,hle,-⟩ := addRewardChallenges_ok hl hadd
    rw [if_pos hne] at hnext
    rw [rewardChallengesFrom_none h,hnext,inSubSlot,if_pos hfirst]
    exact ⟨_,older,rfl,rfl,by simpa using hpos,hle⟩
  | cons p l ih =>
    have hheight : b.record.height=p.record.height+1 := by
      rw [hl.height,hl.tail.height,List.length_cons]
    obtain ⟨hfull,-⟩ | ⟨m,next,hadd,h⟩ := rewardChallengesFrom_some h
    · omega
    rw [hv.prev hl] at h
    obtain ⟨older,hnext,hle,hnone⟩ := addRewardChallenges_ok hl hadd
    rw [if_pos hne] at hnext
    by_cases hfirst : b.record.firstInSubSlot
    · obtain ⟨rest,hr,hrest⟩ := rewardChallengesFrom_le hl.tail hv.tail h
      have hslots : b.slots≠[] := by simpa [hl.first_iff] using hfirst
      rw [inSubSlot,if_pos hfirst,hr,hnext]
      refine ⟨_,older++rest,by rw [← List.append_assoc],rfl,by simpa using hpos,?_⟩
      intro e he
      obtain he | he := List.mem_append.mp he
      · exact hle e he
      · exact (hrest e he).trans (hl.laterSlot hslots).le
    · have hslots := hl.slots_nil hfirst
      obtain rfl := hnone (Bool.eq_false_iff.mpr hfirst)
      rw [List.append_nil] at hnext
      rw [inSubSlot,if_neg hfirst] at hfew ⊢
      obtain ⟨hstart,-⟩ := hl.sameSlot hslots
      have hp : p.record.height<peak.height := by omega
      obtain ⟨own,older,hr,hlength,hown,holder⟩ := ih hl.tail hv.tail hp (by rw [hnext,List.length_append,List.length_singleton]; omega)
        h (by rintro rfl; exact lt_irrefl _ hp) (by rw [hl.tail.placed.total_eq]; exact Nat.lt_add_of_pos_right hl.tail.placed.timed.ipPlace_pos)
      rw [hstart]
      refine ⟨(b.record.rewardInfusionNewChallenge,b.record.totalIters)::own,older,?_,by simp [hlength],?_,holder⟩
      · rw [hr,hnext,List.append_assoc found,List.singleton_append]
      · intro e he
        obtain rfl | he := List.mem_cons.mp he
        · rw [← hstart]
          exact hpos
        · exact hown e he

theorem getRecentRewardChallenges_split (hmax : 0<E.maxSubSlotBlocks)
    (h : getRecentRewardChallenges E V (some b.record) = .ok r) : ∃ older own,r=older++own ∧
      own.length=inSubSlot (b::l) ∧ (∀ e∈own,b.record.start E.constants<e.2) ∧
      ∀ e∈older,e.2≤b.record.start E.constants := by
  unfold getRecentRewardChallenges at h
  obtain ⟨challenges,hrun,hr⟩ := bind_ok.mp h
  obtain rfl := Except.ok.inj hr
  clear hr h
  obtain ⟨hfull,-⟩ | ⟨m,next,hadd,h⟩ := rewardChallengesFrom_some hrun
  · rw [List.length_nil] at hfull
    omega
  obtain ⟨older,hnext,hle,hnone⟩ := addRewardChallenges_ok hl hadd
  rw [if_neg (not_not.mpr rfl),List.append_nil,List.nil_append] at hnext
  subst hnext
  cases l with
  | nil =>
    rw [hv.ground b rfl] at h
    have hfirst : b.record.firstInSubSlot=true := by simp [hl.first_iff]
    rw [rewardChallengesFrom_none h,inSubSlot,if_pos hfirst]
    exact ⟨next.reverse,[],(List.append_nil _).symm,rfl,by simp,by simpa using hle⟩
  | cons p l =>
    rw [hv.prev hl] at h
    by_cases hfirst : b.record.firstInSubSlot
    · obtain ⟨rest,hr,hrest⟩ := rewardChallengesFrom_le hl.tail hv.tail h
      have hslots : b.slots≠[] := by simpa [hl.first_iff] using hfirst
      rw [inSubSlot,if_pos hfirst]
      refine ⟨challenges.reverse,[],(List.append_nil _).symm,rfl,by simp,?_⟩
      intro e he
      rw [List.mem_reverse,hr] at he
      obtain he | he := List.mem_append.mp he
      · exact hle e he
      · exact (hrest e he).trans (hl.laterSlot hslots).le
    · have hslots := hl.slots_nil hfirst
      obtain rfl := hnone (Bool.eq_false_iff.mpr hfirst)
      have hblocks : inSubSlot (b::p::l)=inSubSlot (p::l)+1 := by rw [inSubSlot,if_neg hfirst]
      have hlt := inSubSlot_lt hl (by omega)
      have hheight : b.record.height=p.record.height+1 := by
        rw [hl.height,hl.tail.height,List.length_cons]
      obtain ⟨own,older,hr,hlength,hown,holder⟩ := rewardChallengesFrom_split hl.tail hv.tail (by omega)
        (by rw [List.length_nil]; omega) h
      obtain ⟨hstart,-⟩ := hl.sameSlot hslots
      rw [hstart,hblocks]
      refine ⟨older.reverse,own.reverse,?_,by rw [List.length_reverse,hlength],by simpa using hown,by simpa using holder⟩
      rw [hr,List.nil_append,List.reverse_append]

theorem getRecentRewardChallenges_le
    (h : getRecentRewardChallenges E V (some b.record) = .ok r) : ∀ e∈r,e.2≤b.record.totalIters := by
  unfold getRecentRewardChallenges at h
  obtain ⟨challenges,hrun,hr⟩ := bind_ok.mp h
  obtain rfl := Except.ok.inj hr
  obtain ⟨older,rfl,hle⟩ := rewardChallengesFrom_le hl hv hrun
  simpa using hle

end

end

end Bounds

variable {α : Type}

theorem rtake_of_suffix {n : ℕ} {l l' : List α} (hs : l <:+ l') (hlong : n≤l.length ∨ l=l') :
    l.rtake n=l'.rtake n := by
  obtain hlong | rfl := hlong
  · obtain ⟨front,rfl⟩ := hs
    unfold List.rtake
    rw [List.length_append,Nat.add_sub_assoc hlong,List.drop_length_add_append]
  · rfl

theorem rtake_append (n : ℕ) (l l' : List α) : (l.rtake n++l').rtake n=(l++l').rtake n := by
  have hs : l.rtake n <:+ l := List.drop_suffix _ _
  apply rtake_of_suffix
  · obtain ⟨front,hfront⟩ := hs
    exact ⟨front,by rw [← List.append_assoc,hfront]⟩
  · have hlength : (l.rtake n).length=l.length-(l.length-n) := List.length_drop
    by_cases hn : n≤l.length
    · left
      rw [List.length_append]
      omega
    · right
      rw [hs.eq_of_length (by omega)]

theorem rtake_rtake (n : ℕ) (l : List α) : (l.rtake n).rtake n=l.rtake n := by
  simpa using rtake_append n l []

section Next
variable {p q : BlockRecord} {c : BlockRecord} {curr : Option BlockRecord} {found next r : List (Bytes32 × ℕ)} {n m : ℕ}

def Ascends (V : BlockView) : Prop :=
  ∀ h b prev,V.tryBlockRecord h=some b → V.tryBlockRecord b.prevHash=some prev → prev.height<b.height

theorem addRewardChallenges_append (hp : c≠p) (hq : c≠q) (h : addRewardChallenges E p c found = .ok next) :
    (∃ added,next=found++added ∧ added≠[]) ∧
      ∀ front,addRewardChallenges E q c (front++found) = .ok (front++next) := by
  unfold addRewardChallenges at h ⊢
  rw [if_pos hp] at h
  simp only [if_pos hq]
  by_cases hfirst : c.firstInSubSlot
  · simp only [if_pos hfirst] at h ⊢
    obtain ⟨hashes,hhashes,h⟩ := bind_ok.mp h
    obtain ⟨total,htotal,h⟩ := bind_ok.mp h
    cases h
    refine ⟨⟨_,List.append_assoc ..,List.cons_ne_nil _ _⟩,?_⟩
    intro front
    rw [bind_of_ok hhashes,bind_of_ok htotal,List.append_assoc,List.append_assoc,List.append_assoc]
    rfl
  · simp only [if_neg hfirst] at h ⊢
    cases h
    refine ⟨⟨_,rfl,List.cons_ne_nil _ _⟩,?_⟩
    intro front
    rw [List.append_assoc]
    rfl

theorem addRewardChallenges_below (hq : p≠q) (h : addRewardChallenges E p p [] = .ok next)
    (front : List (Bytes32 × ℕ)) : addRewardChallenges E q p front =
      .ok (front++[(p.rewardInfusionNewChallenge,p.totalIters)]++next) := by
  unfold addRewardChallenges at h ⊢
  rw [if_neg (not_not.mpr rfl)] at h
  simp only [if_pos hq]
  by_cases hfirst : p.firstInSubSlot
  · simp only [if_pos hfirst] at h ⊢
    obtain ⟨hashes,hhashes,h⟩ := bind_ok.mp h
    obtain ⟨total,htotal,h⟩ := bind_ok.mp h
    cases h
    rw [bind_of_ok hhashes,bind_of_ok htotal]
    rfl
  · simp only [if_neg hfirst] at h ⊢
    cases h
    rw [List.append_nil]
    rfl

def Below (V : BlockView) (p : BlockRecord) (curr : Option BlockRecord) : Prop :=
  ∀ c,curr=some c → (∃ h,V.tryBlockRecord h=some c) ∧ c.height<p.height

theorem Below.prev (hV : Ascends V) (h : Below V p (some c)) : Below V p (V.tryBlockRecord c.prevHash) := by
  obtain ⟨⟨hash,hc⟩,hlt⟩ := h c rfl
  exact fun b hb => ⟨⟨_,hb⟩,(hV hash c b hc hb).trans hlt⟩

theorem Below.ne (h : Below V p (some c)) : c≠p := by
  rintro rfl
  exact lt_irrefl _ (h c rfl).2

theorem rewardChallengesFrom_extends (hV : Ascends V) (hc : Below V p curr)
    (h : rewardChallengesFrom E V p n curr found = .ok r) : found <+: r := by
  induction n generalizing curr found with
  | zero => cases h
  | succ n ih =>
    cases curr with
    | none => rw [rewardChallengesFrom_none h]
    | some c =>
      rw [rewardChallengesFrom] at h
      split_ifs at h
      · obtain ⟨next,hnext,h⟩ := bind_ok.mp h
        obtain ⟨⟨added,rfl,-⟩,-⟩ := addRewardChallenges_append hc.ne hc.ne hnext
        exact (List.prefix_append _ _).trans (ih (hc.prev hV) h)
      · cases h
        exact List.prefix_refl _

theorem rewardChallengesFrom_behind (hV : Ascends V) (hpq : p.height<q.height) (hc : Below V p curr)
    (h : rewardChallengesFrom E V p n curr found = .ok r) (front : List (Bytes32 × ℕ)) (hm : 0 < m)
    (hfuel : 2*E.maxSubSlotBlocks < m+(front.length+found.length)) :
    ∃ r',rewardChallengesFrom E V q m curr (front++found) = .ok r' ∧ r' <+: front++r ∧
      (2*E.maxSubSlotBlocks ≤ r'.length ∨ r'=front++r) := by
  induction n generalizing curr found m with
  | zero => cases h
  | succ n ih =>
    obtain ⟨m,rfl⟩ := Nat.exists_eq_succ_of_ne_zero hm.ne'
    cases curr with
    | none =>
      rw [rewardChallengesFrom_none h]
      exact ⟨_,rfl,List.prefix_refl _,Or.inr rfl⟩
    | some c =>
      by_cases hfull : 2*E.maxSubSlotBlocks≤front.length+found.length
      · refine ⟨front++found,?_,?_,Or.inl (by rwa [List.length_append])⟩
        · rw [rewardChallengesFrom,if_neg (by rw [List.length_append]; omega)]
        · exact (List.prefix_append_right_inj front).mpr (rewardChallengesFrom_extends hV hc h)
      · rw [rewardChallengesFrom,if_pos (by omega)] at h
        obtain ⟨next,hnext,h⟩ := bind_ok.mp h
        have hq : c≠q := by
          rintro rfl
          exact lt_irrefl _ (hpq.trans (hc _ rfl).2)
        obtain ⟨⟨added,hadded,hne⟩,hsame⟩ := addRewardChallenges_append hc.ne hq hnext
        have hlength : found.length<next.length := by
          rw [hadded,List.length_append]
          exact Nat.lt_add_of_pos_right (List.length_pos_iff.mpr hne)
        obtain ⟨r',hr', hprefix⟩ := ih (m := m) (hc.prev hV) h (by omega) (by omega)
        refine ⟨r', ?_, hprefix⟩
        rw [rewardChallengesFrom,if_pos (by rw [List.length_append]; omega),bind_of_ok (hsame front)]
        exact hr'

theorem getRecentRewardChallenges_next {own recent : List (Bytes32 × ℕ)} (hV : Ascends V)
    (hp : ∃ h,V.tryBlockRecord h=some p) (hprev : V.tryBlockRecord q.prevHash=some p) (hpq : p.height<q.height)
    (hown : addRewardChallenges E q q [] = .ok own) (h : getRecentRewardChallenges E V (some p) = .ok recent) :
    ∃ recent',getRecentRewardChallenges E V (some q) = .ok recent' ∧ recent'.rtake (2*E.maxSubSlotBlocks) =
      (recent++(p.rewardInfusionNewChallenge,p.totalIters)::own.reverse).rtake (2*E.maxSubSlotBlocks) := by
  obtain ⟨challenges,hrun,hr⟩ := bind_ok.mp h
  obtain rfl := Except.ok.inj hr
  have hne : p≠q := by
    rintro rfl
    exact lt_irrefl _ hpq
  have hbelow : Below V p (V.tryBlockRecord p.prevHash) := by
    obtain ⟨hash,hp⟩ := hp
    exact fun c hc => ⟨⟨_,hc⟩,hV hash p c hp hc⟩
  -- what the walk from the parent finds is behind the challenges of the later sub-slots
  have hwalk : ∃ r,rewardChallengesFrom E V q (2*E.maxSubSlotBlocks+2) (some q) [] = .ok r ∧
      r <+: own++(p.rewardInfusionNewChallenge,p.totalIters)::challenges ∧ (2*E.maxSubSlotBlocks ≤ r.length ∨
        r=own++(p.rewardInfusionNewChallenge,p.totalIters)::challenges) := by
    by_cases hzero : 2*E.maxSubSlotBlocks=0
    · refine ⟨[],?_,List.nil_prefix,Or.inl (by rw [hzero]; exact Nat.zero_le _)⟩
      rw [rewardChallengesFrom,if_neg (by rw [hzero]; exact Nat.not_lt_zero _)]
    have hnil : ([] : List (Bytes32 × ℕ)).length<2*E.maxSubSlotBlocks := Nat.pos_of_ne_zero hzero
    rw [rewardChallengesFrom,if_pos hnil] at hrun
    obtain ⟨first,hfirst,hrun⟩ := bind_ok.mp hrun
    rw [rewardChallengesFrom,if_pos hnil,bind_of_ok hown,hprev]
    by_cases hfull : 2*E.maxSubSlotBlocks≤own.length
    · refine ⟨own,?_,List.prefix_append _ _,Or.inl hfull⟩
      rw [rewardChallengesFrom,if_neg (Nat.not_lt.mpr hfull)]
    · obtain ⟨r,hr, hprefix⟩ := rewardChallengesFrom_behind (m := 2*E.maxSubSlotBlocks) hV hpq hbelow hrun
        (own++[(p.rewardInfusionNewChallenge,p.totalIters)]) (Nat.pos_of_ne_zero hzero)
        (by rw [List.length_append,List.length_singleton]; omega)
      rw [List.append_assoc,List.singleton_append] at hprefix
      refine ⟨r,?_, hprefix⟩
      rw [rewardChallengesFrom,if_pos (Nat.lt_of_not_le hfull),bind_of_ok (addRewardChallenges_below hne hfirst own)]
      exact hr
  obtain ⟨r,hr, hprefix,hlong⟩ := hwalk
  refine ⟨r.reverse,?_,rtake_of_suffix ?_ ?_⟩
  · unfold getRecentRewardChallenges
    dsimp only
    rw [bind_of_ok hr]
    rfl
  · obtain ⟨more,hmore⟩ := hprefix
    refine ⟨more.reverse,?_⟩
    rw [← List.reverse_append,hmore,List.reverse_append,List.reverse_cons,List.append_assoc,List.singleton_append]
  · refine hlong.imp (fun hlong => by rwa [List.length_reverse]) fun heq => ?_
    rw [heq,List.reverse_append,List.reverse_cons,List.append_assoc,List.singleton_append]

end Next

end Blockchain

end RoseChain
