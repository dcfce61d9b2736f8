import Mathlib.Data.BitVec
import Mathlib.Data.Int.Bitwise
import Mathlib.Data.List.Forall2
import Mathlib.Data.List.Sort
import Mathlib.Data.Nat.Digits.Defs
import Mathlib.Tactic.Common
import Mathlib.Tactic.Ring

namespace RoseChain

abbrev Bytes := List UInt8

abbrev Bytes32 := BitVec 256

instance : LawfulBEq Bytes := inferInstance

instance : LawfulBEq Bytes32 := inferInstance

def zeros32 : Bytes32 := 0

/-- `bytes([1] * 32)`. -/
def ones32 : Bytes32 := BitVec.ofNat 256 ((256^32-1) / 255)

def bytes32 (x : Bytes32) : Bytes :=
  (List.range 32).map fun i => UInt8.ofNat (x.toNat / 256^(31-i))

/-- `bytes(uint32(n))`. -/
def uint32Bytes (n : ℕ) : Bytes := (List.range 4).map fun i => UInt8.ofNat (n / 256^(3-i))

def natOfBytes (b : Bytes) : ℕ := b.foldl (fun n x => 256*n+x.toNat) 0

theorem natOfBytes_concat (b : Bytes) (x : UInt8) : natOfBytes (b++[x])=256*natOfBytes b+x.toNat := by
  simp only [natOfBytes,List.foldl_append,List.foldl_cons,List.foldl_nil]

/-- `bytes32` out of a byte string of any length. -/
def toBytes32 (b : Bytes) : Bytes32 := BitVec.ofNat 256 (natOfBytes b)

/-- Result codes of validation. -/
inductive Err
  | unknown | duplicateOutput | doubleSpend | doubleSpendInFork | unknownUnspent
  | badAggregateSignature | wrongPuzzleHash | invalidCondition | assertMyCoinIdFailed
  | assertMyParentIdFailed | assertMyPuzzlehashFailed | assertMyAmountFailed
  | assertAnnounceConsumedFailed | assertHeightRelativeFailed | assertHeightAbsoluteFailed
  | assertSecondsAbsoluteFailed | assertSecondsRelativeFailed | coinAmountExceedsMaximum
  | coinAmountNegative | invalidFeeLowFee | invalidFeeTooCloseToZero | mempoolConflict
  | mintingCoin | blockCostExceedsMax | badAdditionRoot | badRemovalRoot | invalidPlotSignature
  | timestampTooFarInPast | timestampTooFarInFuture | invalidTransactionsFilterHash
  | invalidPospace | invalidHeight | invalidBlockFeeAmount | invalidWeight | invalidTotalIters
  | invalidTransactionsGeneratorHash | invalidTransactionsGeneratorRefsRoot
  | generatorRefHasNoGenerator | tooManyGeneratorRefs | futureGeneratorRefs
  | generatorRuntimeError | invalidPoolTarget | reserveFeeConditionFailed | notBlockButHasData
  | isTransactionBlockButNoData | invalidPrevBlockHash | invalidTransactionsInfoHash
  | invalidFoliageBlockHash | invalidRewardCoins | invalidBlockCost
  | invalidPrevChallengeSlotHash | invalidSubEpochSummaryHash | invalidCcEosVdf
  | invalidRcEosVdf | invalidChallengeSlotHashRc | invalidDeficit | invalidSubEpochSummary
  | invalidNewDifficulty | invalidNewSubSlotIters | invalidCcSpVdf | invalidRcSpVdf
  | invalidCcSignature | invalidRcSignature | invalidIsTransactionBlock | invalidUrsbHash
  | oldPoolTarget | invalidPoolSignature | invalidFoliageBlockPresence | invalidCcIpVdf
  | invalidRcIpVdf | invalidRewardBlockHash | noOverflowsInFirstSubSlotNewEpoch
  | mempoolNotInitialized | shouldNotHaveIcc | invalidIccVdf | invalidIccHashCc
  | invalidIccHashRc | invalidIccEosVdf | invalidSpIndex | tooManyBlocks | invalidCcChallenge
  | invalidPrefarm | initialTransactionFreeze | invalidRequiredIters
  deriving DecidableEq

/-- Python exceptions. -/
inductive PyErr
  | assertion | key | value | index | attributeError | integrity | zeroDivision | cancelled
  /-- `SetError` of the Merkle set. -/
  | set
  /-- No exception: a loop that never ends. -/
  | diverged
  deriving DecidableEq

/-- A run stops early by returning an error code or by raising. -/
inductive Fail
  | invalid (e : Err)
  | raised (e : PyErr)
  deriving DecidableEq

abbrev Check := Except Fail

/-- `if c: return e`. -/
def reject (c : Prop) [Decidable c] (e : Err) : Check Unit :=
  if c then .error (.invalid e) else .ok ()

/-- `assert c`. -/
def assertThat (c : Prop) [Decidable c] : Check Unit :=
  if c then .ok () else .error (.raised .assertion)

/-- `if c: raise ValueError`. -/
def raiseIf (c : Prop) [Decidable c] : Check Unit :=
  if c then .error (.raised .value) else .ok ()

/-- `assert x is not None`. -/
def assertSome {α : Type} : Option α → Check α
  | some a => .ok a
  | none => .error (.raised .assertion)

/-- Dictionary access that raises `KeyError`. -/
def lookup {α : Type} : Option α → Check α
  | some a => .ok a
  | none => .error (.raised .key)

/-- List access that raises `IndexError`. -/
def index {α : Type} : Option α → Check α
  | some a => .ok a
  | none => .error (.raised .index)

/-- An attribute of what may be `None`: raises `AttributeError`. -/
def attrOf {α : Type} : Option α → Check α
  | some a => .ok a
  | none => .error (.raised .attributeError)

/-- The sized integer types: a value outside the range raises `ValueError`. -/
def uint (bits : ℕ) (z : ℤ) : Check ℕ :=
  if 0≤z ∧ z<2^bits then .ok z.toNat else .error (.raised .value)

abbrev uint8 := uint 8
abbrev uint32 := uint 32
abbrev uint64 := uint 64
abbrev uint128 := uint 128

/-- `a // b`. -/
def floorDiv (a b : ℤ) : Check ℤ := if b=0 then .error (.raised .zeroDivision) else .ok (a.fdiv b)

/-- `a % b`. -/
def floorMod (a b : ℤ) : Check ℤ := if b=0 then .error (.raised .zeroDivision) else .ok (a.fmod b)

variable {c : Prop} {u : Unit}

@[simp] theorem reject_eq_ok [Decidable c] {e : Err} : reject c e = .ok u ↔ ¬ c := by
  unfold reject; split_ifs <;> simp [*]

@[simp] theorem assertThat_eq_ok [Decidable c] : assertThat c = .ok u ↔ c := by
  unfold assertThat; split_ifs <;> simp [*]

@[simp] theorem raiseIf_eq_ok [Decidable c] : raiseIf c = .ok u ↔ ¬ c := by
  unfold raiseIf; split_ifs <;> simp [*]

variable {α : Type}

variable {o : Option α} {a : α}

@[simp] theorem assertSome_eq_ok : assertSome o = .ok a ↔ o=some a := by
  cases o <;> simp [assertSome]

@[simp] theorem lookup_eq_ok : lookup o = .ok a ↔ o=some a := by
  cases o <;> simp [lookup]

@[simp] theorem index_eq_ok : index o = .ok a ↔ o=some a := by
  cases o <;> simp [index]

theorem uint_eq_ok {bits : ℕ} {z : ℤ} {n : ℕ} : uint bits z = .ok n ↔ z=n ∧ n<2^bits := by
  unfold uint
  split_ifs with h
  · have : (2 : ℤ)^bits=((2^bits : ℕ) : ℤ) := by push_cast; rfl
    simp only [Except.ok.injEq]
    omega
  · have : (2 : ℤ)^bits=((2^bits : ℕ) : ℤ) := by push_cast; rfl
    simp only [false_iff]
    omega

variable {β : Type}

variable {x : Check α} {f : α → Check β}

theorem bind_ok {b : β} : (x >>= f) = .ok b ↔ ∃ a,x = .ok a ∧ f a = .ok b := by
  cases x <;> simp [bind,Except.bind]

variable {e : Fail}

theorem check_bind_error : (x >>= f) = .error e ↔ x = .error e ∨ ∃ a,x = .ok a ∧ f a = .error e := by
  cases x <;> simp [bind,Except.bind]

theorem bind_of_ok {m : Check α} (h : m = .ok a) : (m >>= f)=f a := by
  rw [h]
  rfl

variable {γ : Type} {l : List α}

theorem foldlM_frame {f : β → α → Check β} {p : β → γ}
    (hstep : ∀ s a s',f s a = .ok s' → p s'=p s) {s s' : β} (h : l.foldlM f s = .ok s') : p s'=p s := by
  induction l generalizing s with
  | nil => rw [← Except.ok.inj h]
  | cons a l ih =>
    rw [List.foldlM_cons] at h
    obtain ⟨s₁,hs₁,h⟩ := bind_ok.mp h
    rw [ih h,hstep s a s₁ hs₁]

variable {m : List β}

theorem mapM_eq_ok : l.mapM f = .ok m ↔ List.Forall₂ (fun a b => f a = .ok b) l m := by
  induction l generalizing m with
  | nil => cases m <;> simp [pure,Except.pure]
  | cons a l ih =>
    rw [List.mapM_cons,bind_ok]
    constructor
    · rintro ⟨b,hb,h⟩
      obtain ⟨m',hm,h⟩ := bind_ok.mp h
      rw [← Except.ok.inj h]
      exact .cons hb (ih.mp hm)
    · intro h
      cases h with
      | cons hb hm => exact ⟨_,hb,bind_ok.mpr ⟨_,ih.mpr hm,rfl⟩⟩

theorem mapM_eq_ok_map {g : α → β} (h : ∀ a∈l,f a = .ok (g a)) : l.mapM f = .ok (l.map g) := by
  rw [mapM_eq_ok,List.forall₂_map_right_iff,List.forall₂_same]
  exact h

theorem mapM_eq_error : l.mapM f = .error e ↔
    ∃ before a after,l=before++a::after ∧ (∀ x∈before,∃ y,f x = .ok y) ∧ f a = .error e := by
  induction l with
  | nil =>
    apply iff_of_false (fun h => by cases h)
    intro ⟨before,a,after,h,_⟩
    simp at h
  | cons x l ih =>
    rw [List.mapM_cons,check_bind_error]
    constructor
    · rintro (hx | ⟨y,hy,h⟩)
      · exact ⟨[],x,l,rfl,by simp,hx⟩
      · obtain h | ⟨_,_,h⟩ := check_bind_error.mp h
        · obtain ⟨before,a,after,rfl,hbefore,ha⟩ := ih.mp h
          exact ⟨x::before,a,after,rfl,List.forall_mem_cons.mpr ⟨⟨y,hy⟩,hbefore⟩,ha⟩
        · cases h
    · intro ⟨before,a,after,heq,hbefore,ha⟩
      cases before with
      | nil =>
        obtain ⟨rfl,-⟩ := List.cons.inj heq
        exact Or.inl ha
      | cons y before =>
        obtain ⟨rfl,rfl⟩ := List.cons.inj heq
        obtain ⟨⟨y,hy⟩,hmore⟩ := List.forall_mem_cons.mp hbefore
        exact Or.inr ⟨y,hy,check_bind_error.mpr (Or.inl (ih.mpr ⟨before,a,after,rfl,hmore,ha⟩))⟩

theorem exists_mapM {P : α → β → Prop}
    (h : ∀ a∈l,∃ b,f a = .ok b ∧ P a b) : ∃ m,l.mapM f = .ok m ∧ List.Forall₂ P l m := by
  induction l with
  | nil => exact ⟨[],rfl,.nil⟩
  | cons a l ih =>
    obtain ⟨b,hb,hP⟩ := h a List.mem_cons_self
    obtain ⟨m,hm,hall⟩ := ih fun a' ha' => h a' (List.mem_cons_of_mem _ ha')
    refine ⟨b::m,?_,.cons hP hall⟩
    rw [List.mapM_cons,bind_of_ok hb,bind_of_ok hm]
    rfl

theorem mapM_exists (h : ∀ a∈l,∃ b,f a = .ok b) : ∃ m,l.mapM f = .ok m := by
  obtain ⟨m,hm,-⟩ := exists_mapM (P := fun _ _ => True) fun a ha => (h a ha).imp fun b hb => ⟨hb,trivial⟩
  exact ⟨m,hm⟩

theorem map_eq_of_forall₂ {f : α → γ} {g : β → γ} (h : List.Forall₂ (fun a b => g b=f a) l m) : m.map g=l.map f := by
  induction h with
  | nil => rfl
  | cons hab _ ih => rw [List.map_cons,List.map_cons,hab,ih]

structure Coin where
  parentCoinInfo : Bytes32
  puzzleHash : Bytes32
  amount : ℕ
  deriving DecidableEq

structure CoinRecord where
  coin : Coin
  confirmedBlockIndex : ℕ
  spentBlockIndex : ℕ
  spent : Bool
  coinbase : Bool
  timestamp : ℕ
  deriving DecidableEq

end RoseChain
