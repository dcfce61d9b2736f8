import Mathlib.Data.Finset.Dedup
import RoseChain.Wallet.WalletCoinStore

namespace RoseChain
open Lib

namespace WalletCoinStore

/-- The comparison of the heights is made for the spent records only. -/
def getUnspentCoinsAtHeight (s : WalletCoinStore) (height : Option ℕ) : Finset WalletCoinRecord :=
  (s.coinRecordCache.values.filter fun r =>
    match height with
    | none => decide (r.spent=false)
    | some h => decide (r.spent=false ∨ r.spentBlockHeight > h ∧ h ≥ r.confirmedBlockHeight)).toFinset

/-- Confirmed at or below a height, and not spent at or below it; without a height, not spent at all. -/
def UnspentAt (height : Option ℕ) (r : WalletCoinRecord) : Prop :=
  match height with
  | none => r.spent=false
  | some h => r.confirmedBlockHeight≤h ∧ ¬ (r.spent=true ∧ r.spentBlockHeight≤h)

instance (height : Option ℕ) (r : WalletCoinRecord) : Decidable (UnspentAt height r) := by
  unfold UnspentAt
  cases height <;> infer_instance

variable {r : WalletCoinRecord}

variable {s : WalletCoinStore}

theorem mem_getUnspentCoinsAtHeight_none :
    r∈s.getUnspentCoinsAtHeight none ↔ r∈s.coinRecordCache.values ∧ r.spent=false := by
  simp [getUnspentCoinsAtHeight]

variable {h : ℕ}

theorem mem_getUnspentCoinsAtHeight_some : r∈s.getUnspentCoinsAtHeight (some h) ↔ r∈s.coinRecordCache.values ∧
      (r.spent=false ∨ r.confirmedBlockHeight≤h ∧ h < r.spentBlockHeight) := by
  simp [getUnspentCoinsAtHeight,and_comm (a := h < r.spentBlockHeight)]

/-- On one record the condition of the code is right unless it is unspent and was confirmed above the height. -/
theorem unspentAt_some_iff :
    (r.spent=false ∨ r.confirmedBlockHeight≤h ∧ h < r.spentBlockHeight ↔ UnspentAt (some h) r) ↔
      (r.spent=false → r.confirmedBlockHeight≤h) := by
  unfold UnspentAt
  cases r.spent with
  | false => simp
  | true => simp

/-- Without a height the answer is right, and with one exactly if no unspent record was confirmed above it. -/
theorem getUnspentCoinsAtHeight_exact_iff (s : WalletCoinStore) (height : Option ℕ) :
    (∀ r,r∈s.getUnspentCoinsAtHeight height ↔ r∈s.coinRecordCache.values ∧ UnspentAt height r) ↔
      ∀ h,height=some h → ∀ r∈s.coinRecordCache.values,r.spent=false → r.confirmedBlockHeight≤h := by
  cases height with
  | none =>
    constructor
    · intro _ h hnone
      cases hnone
    · intro _ r
      exact mem_getUnspentCoinsAtHeight_none
  | some h =>
    simp only [mem_getUnspentCoinsAtHeight_some,Option.some.injEq,forall_eq',and_congr_right_iff,
      unspentAt_some_iff]

def coinRecordAt (confirmedBlockHeight : ℕ) : WalletCoinRecord :=
  ⟨⟨0,0,5⟩,confirmedBlockHeight,0,false,false,.standardWallet,1⟩

/-- An unspent coin that was confirmed at 9 is among those at 5. -/
theorem getUnspentCoinsAtHeight_later :
    coinRecordAt 9∈((create tinyEnv .empty).addCoinRecord tinyEnv (coinRecordAt 9)).getUnspentCoinsAtHeight (some 5) ∧
      ¬ UnspentAt (some 5) (coinRecordAt 9) := by
  constructor
  · decide
  · decide

end WalletCoinStore
end RoseChain
