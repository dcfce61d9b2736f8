import RoseChain.FullNode.NoRaise

namespace RoseChain
open Lib

/-- The conditions on the height and on the time at which a coin is spent. -/
inductive TimeLock
  | secondsRelative | secondsAbsolute | heightRelative | heightAbsolute
  deriving DecidableEq

namespace TimeLock

def opcode : TimeLock → ConditionOpcode
  | secondsRelative => .assertSecondsRelative
  | secondsAbsolute => .assertSecondsAbsolute
  | heightRelative => .assertHeightRelative
  | heightAbsolute => .assertHeightAbsolute

def Passed (lock : TimeLock) (n : ℤ) (unspent : CoinRecord) (prevTransactionBlockHeight timestamp : ℕ) : Prop :=
  match lock with
  | secondsRelative => n+unspent.timestamp≤timestamp
  | secondsAbsolute => n≤timestamp
  | heightRelative => n+unspent.confirmedBlockIndex≤prevTransactionBlockHeight
  | heightAbsolute => n≤prevTransactionBlockHeight

def Dropped (lock : TimeLock) (n : ℤ) : Prop :=
  match lock with
  | secondsRelative | secondsAbsolute => n≤0
  | heightRelative | heightAbsolute => n<0

/-- What the parser lets through: `uint64` seconds, `uint32` heights. -/
def Sized (lock : TimeLock) (n : ℤ) : Prop :=
  match lock with
  | secondsRelative | secondsAbsolute => n<2^64
  | heightRelative | heightAbsolute => n<2^32

instance (lock : TimeLock) (n : ℤ) : Decidable (lock.Dropped n) :=
  match lock with
  | secondsRelative | secondsAbsolute => inferInstanceAs (Decidable (n≤0))
  | heightRelative | heightAbsolute => inferInstanceAs (Decidable (n<0))

instance (lock : TimeLock) (n : ℤ) : Decidable (lock.Sized n) :=
  match lock with
  | secondsRelative | secondsAbsolute => inferInstanceAs (Decidable (n<2^64))
  | heightRelative | heightAbsolute => inferInstanceAs (Decidable (n<2^32))

def errorCode : TimeLock → Err
  | secondsRelative => .assertSecondsRelativeFailed
  | secondsAbsolute => .assertSecondsAbsoluteFailed
  | heightRelative => .assertHeightRelativeFailed
  | heightAbsolute => .assertHeightAbsoluteFailed

/-- The condition as a spend writes it; the parser reads the first argument only. -/
def condition (lock : TimeLock) (b : Bytes) (more : SExp) : SExp :=
  .pair (.atom [lock.opcode.value]) (.pair (.atom b) more)

end TimeLock

variable (E : Env)

/-- A condition is parsed, and what the parser keeps is checked. -/
def parseThenCheck (cond : SExp) (safeMode : Bool) (unspent : CoinRecord)
    (coinAnnouncementNames puzzleAnnouncementNames : List Bytes32) (prevTransactionBlockHeight timestamp : ℕ) :
    Check Unit := do
  let (_,cvl) ← parseCondition cond safeMode
  cvl.toList.forM (mempoolCheckCondition E unspent coinAnnouncementNames puzzleAnnouncementNames
    prevTransactionBlockHeight timestamp)

theorem assert_written (n : ℤ) (hn : 0≤n) (op : ConditionOpcode) :
    index (⟨op,[intToBytes n]⟩ : ConditionWithArgs).vars[0]? = .ok (intToBytes n) ∧
    intFromBytes (intToBytes n)=n := by
  obtain ⟨k,rfl⟩ := Int.eq_ofNat_of_zero_le hn
  exact ⟨rfl,intFromBytes_intToBytes k⟩

theorem mempoolCheckCondition_timeLock (lock : TimeLock) {n : ℤ} (hn : 0≤n) (unspent : CoinRecord)
    (coinAnnouncementNames puzzleAnnouncementNames : List Bytes32) (prevTransactionBlockHeight timestamp : ℕ) :
    mempoolCheckCondition E unspent coinAnnouncementNames puzzleAnnouncementNames prevTransactionBlockHeight
      timestamp ⟨lock.opcode,[intToBytes n]⟩ = .ok () ↔
      lock.Passed n unspent prevTransactionBlockHeight timestamp := by
  obtain ⟨hindex,hread⟩ := assert_written n hn lock.opcode
  unfold mempoolCheckCondition TimeLock.Passed
  cases lock with
  | secondsRelative =>
    change mempoolAssertRelativeTimeExceeds _ _ _=_ ↔ _
    unfold mempoolAssertRelativeTimeExceeds
    rw [bind_of_ok hindex,hread,reject_eq_ok,not_lt]
  | secondsAbsolute =>
    change mempoolAssertAbsoluteTimeExceeds _ _=_ ↔ _
    unfold mempoolAssertAbsoluteTimeExceeds
    rw [bind_of_ok hindex,hread,reject_eq_ok,not_lt]
  | heightRelative =>
    change mempoolAssertRelativeBlockHeightExceeds _ _ _=_ ↔ _
    unfold mempoolAssertRelativeBlockHeightExceeds
    rw [bind_of_ok hindex,hread,reject_eq_ok,not_lt]
  | heightAbsolute =>
    change mempoolAssertAbsoluteBlockHeightExceeds _ _=_ ↔ _
    unfold mempoolAssertAbsoluteBlockHeightExceeds
    rw [bind_of_ok hindex,hread,reject_eq_ok,not_lt]

section Parse
variable {args : SExp} {b : Bytes} {safeMode : Bool} {n : ℤ}
  (hfirst : args.first = .ok (.atom b)) (hn : sanitizeInt (.atom b) safeMode = .ok n)
include hfirst hn

theorem parseSeconds_eq (errorCode : Err) :
    (parseSeconds args safeMode errorCode >>= fun vars => .ok (0,vars)) = if n≤0 then .ok (0,none)
      else if n<2^64 then .ok (0,some [intToBytes n]) else .error (.invalid errorCode) := by
  unfold parseSeconds reject
  rw [bind_of_ok hfirst,bind_of_ok hn]
  split_ifs <;> first | rfl | omega

theorem parseHeight_eq (errorCode : Err) :
    (parseHeight args safeMode errorCode >>= fun vars => .ok (0,vars)) = if n<0 then .ok (0,none)
      else if n<2^32 then .ok (0,some [intToBytes n]) else .error (.invalid errorCode) := by
  unfold parseHeight reject
  rw [bind_of_ok hfirst,bind_of_ok hn]
  split_ifs <;> first | rfl | omega

theorem parseConditionArgs_timeLock (lock : TimeLock) : parseConditionArgs args lock.opcode safeMode =
    if lock.Dropped n then .ok (0,none) else if lock.Sized n then .ok (0,some [intToBytes n])
    else .error (.invalid lock.errorCode) := by
  cases lock with
  | secondsRelative => exact parseSeconds_eq hfirst hn .assertSecondsRelativeFailed
  | secondsAbsolute => exact parseSeconds_eq hfirst hn .assertSecondsAbsoluteFailed
  | heightRelative => exact parseHeight_eq hfirst hn .assertHeightRelativeFailed
  | heightAbsolute => exact parseHeight_eq hfirst hn .assertHeightAbsoluteFailed

end Parse

section Locks
variable (lock : TimeLock) {b : Bytes} {safeMode : Bool} {n : ℤ} (more : SExp)
  (hn : sanitizeInt (.atom b) safeMode = .ok n)
include hn

theorem parseCondition_timeLock : parseCondition (lock.condition b more) safeMode =
    if lock.Dropped n then .ok (0,none) else if lock.Sized n then .ok (0,some ⟨lock.opcode,[intToBytes n]⟩)
    else .error (.invalid lock.errorCode) := by
  have hfirst : SExp.first (.pair (.atom b) more) = .ok (.atom b) := rfl
  have hparse : parseCondition (lock.condition b more) safeMode =
      (parseConditionArgs (.pair (.atom b) more) lock.opcode safeMode >>= fun p =>
        .ok (p.1,p.2.map fun vars => ⟨lock.opcode,vars⟩)) := by cases lock <;> rfl
  rw [hparse,parseConditionArgs_timeLock hfirst hn lock]
  split_ifs <;> rfl

theorem parseThenCheck_ok_iff (unspent : CoinRecord)
    (coinAnnouncementNames puzzleAnnouncementNames : List Bytes32) (prevTransactionBlockHeight timestamp : ℕ) :
    parseThenCheck E (lock.condition b more) safeMode unspent coinAnnouncementNames puzzleAnnouncementNames
      prevTransactionBlockHeight timestamp = .ok () ↔
      lock.Dropped n ∨ (lock.Sized n ∧ lock.Passed n unspent prevTransactionBlockHeight timestamp) := by
  unfold parseThenCheck
  rw [parseCondition_timeLock lock more hn]
  by_cases hd : lock.Dropped n
  · rw [if_pos hd]
    exact iff_of_true rfl (Or.inl hd)
  rw [if_neg hd,or_iff_right hd]
  by_cases hs : lock.Sized n
  · have hpos : 0≤n := by
      unfold TimeLock.Dropped at hd
      cases lock <;> dsimp only at hd <;> omega
    rw [if_pos hs,and_iff_right hs,← mempoolCheckCondition_timeLock E lock hpos unspent
      coinAnnouncementNames puzzleAnnouncementNames]
    change (mempoolCheckCondition E unspent coinAnnouncementNames puzzleAnnouncementNames
      prevTransactionBlockHeight timestamp ⟨lock.opcode,[intToBytes n]⟩ >>= fun _ => pure ())=_ ↔ _
    exact ⟨fun h => (bind_ok.mp h).elim fun _ hu => hu.1,fun h => bind_ok.mpr ⟨(),h,rfl⟩⟩
  · rw [if_neg hs]
    exact iff_of_false (fun h => by cases h) fun h => hs h.1

/-- The parser and the comparison part only where a lock of no time or a negative one would not have passed: on
a coin confirmed above the previous transaction block, or after the spend. -/
theorem timeLock_normalised_iff (unspent : CoinRecord)
    (coinAnnouncementNames puzzleAnnouncementNames : List Bytes32) (prevTransactionBlockHeight timestamp : ℕ)
    (hheight : prevTransactionBlockHeight<2^32) (htime : timestamp<2^64) :
    (parseThenCheck E (lock.condition b more) safeMode unspent coinAnnouncementNames puzzleAnnouncementNames
        prevTransactionBlockHeight timestamp = .ok () ↔
      lock.Passed n unspent prevTransactionBlockHeight timestamp) ↔
    ¬ (lock = .heightRelative ∧ n<0 ∧ (prevTransactionBlockHeight : ℤ)-n<unspent.confirmedBlockIndex) ∧
    ¬ (lock = .secondsRelative ∧ n≤0 ∧ (timestamp : ℤ)-n<unspent.timestamp) := by
  rw [parseThenCheck_ok_iff E lock more hn]
  unfold TimeLock.Dropped TimeLock.Sized TimeLock.Passed
  cases lock <;> simp <;> omega

variable {prevTransactionBlockHeight timestamp : ℕ}

theorem timeLock_normalised_of_confirmed {unspent : CoinRecord}
    (coinAnnouncementNames puzzleAnnouncementNames : List Bytes32)
    (hheight : prevTransactionBlockHeight<2^32) (htime : timestamp<2^64)
    (hconfirmed : unspent.confirmedBlockIndex≤prevTransactionBlockHeight)
    (hbefore : unspent.timestamp≤timestamp) :
    parseThenCheck E (lock.condition b more) safeMode unspent coinAnnouncementNames puzzleAnnouncementNames
        prevTransactionBlockHeight timestamp = .ok () ↔
      lock.Passed n unspent prevTransactionBlockHeight timestamp := by
  rw [parseThenCheck_ok_iff E lock more hn]
  unfold TimeLock.Dropped TimeLock.Sized TimeLock.Passed
  cases lock <;> simp <;> omega

theorem timeLock_normalised_ephemeral_iff (coin : Coin)
    (coinAnnouncementNames puzzleAnnouncementNames : List Bytes32) {height : ℕ}
    (hheight : prevTransactionBlockHeight<2^32) (htime : timestamp<2^64) :
    (parseThenCheck E (lock.condition b more) safeMode ⟨coin,height,height,true,false,timestamp⟩
        coinAnnouncementNames puzzleAnnouncementNames prevTransactionBlockHeight timestamp = .ok () ↔
      lock.Passed n ⟨coin,height,height,true,false,timestamp⟩ prevTransactionBlockHeight timestamp) ↔
    ¬ (lock = .heightRelative ∧ n<0 ∧ (prevTransactionBlockHeight : ℤ)-n<height) := by
  rw [parseThenCheck_ok_iff E lock more hn]
  unfold TimeLock.Dropped TimeLock.Sized TimeLock.Passed
  cases lock <;> simp <;> omega

end Locks

def madeAtEight : CoinRecord := ⟨⟨zeros32,ones32,7⟩,8,8,true,false,100⟩

/-- A lock of height -1 on a coin made at height 8, when the last block with transactions was at 5. -/
theorem timeLock_dropped_unpassed :
    parseThenCheck tinyEnv (TimeLock.heightRelative.condition [255] (.atom [])) true madeAtEight [] [] 5 100 =
      .ok () ∧
    sanitizeInt (.atom [255]) true = .ok (-1) ∧ ¬ TimeLock.heightRelative.Passed (-1) madeAtEight 5 100 := by
  refine ⟨by decide +kernel,by decide +kernel,fun h => ?_⟩
  change (-1 : ℤ)+(8 : ℕ)≤(5 : ℕ) at h
  omega

/-- With a previous transaction block at 7 the same lock has passed. -/
theorem timeLock_normalised_iff_passed :
    parseThenCheck tinyEnv (TimeLock.heightRelative.condition [255] (.atom [])) true madeAtEight [] [] 7 100 =
      .ok () ↔ TimeLock.heightRelative.Passed (-1) madeAtEight 7 100 :=
  (timeLock_normalised_iff tinyEnv .heightRelative (.atom []) (by decide +kernel) madeAtEight [] [] 7 100
    (by decide) (by decide)).mpr ⟨by decide +kernel,by decide +kernel⟩

end RoseChain
