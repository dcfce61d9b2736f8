import RoseChain.Wallet.CcUtils

namespace RoseChain
open Lib

/-- The records and keys of a coloured wallet, and what the wallet around it answers. -/
structure CCWallet where
  myGenesisChecker : Option SExp
  lineageProofs : List (Bytes32 × Option SExp)
  /-- The public key of the derivation record of a puzzle hash. -/
  derivationRecord : Bytes32 → Option G1Element
  privateKey : Bytes32 → Option PrivateKey
  walletId : ℕ
  getMaxSendAmount : Check ℕ
  selectCoins : ℕ → Check (List Coin)
  getNewInnerHash : Bytes32
  currentTime : ℕ

/-- The record of a transaction that is not confirmed yet. -/
structure CcTransactionRecord where
  createdAtTime : ℕ
  toPuzzleHash : Bytes32
  amount : ℕ
  spendBundle : ProgramBundle
  additions : List Coin
  removals : List Coin
  walletId : ℕ
  deriving DecidableEq

namespace CCWallet
variable (E : Env) (P : CcPrograms) (w : CCWallet)

/-- A private key that is missing raises a `ValueError`. -/
def getKeys (puzzleHash : Bytes32) : Check PrivateKey :=
  match w.privateKey puzzleHash with
  | some key => .ok key
  | none => .error (.raised .value)

def getSigs (innerpuz innersol : SExp) (coinName : Bytes32) : Check (List G2Element) := do
  let puzzleHash := innerpuz.treeHash E
  let key ← w.getKeys puzzleHash
  match conditionsForSolution P innerpuz innersol E.maxBlockCostClvm with
  | none => return []
  | some conditions =>
    let pairs ← pkmPairsForConditionsDict E ⟨coinName,puzzleHash,(conditionsByOpcode conditions).entries⟩
      E.aggSigMeAdditionalData
    return pairs.map fun p => P.signSynthetic key p.2

def innerPuzzleForCcPuzhash (ccHash : Bytes32) : Check SExp :=
  match w.derivationRecord ccHash with
  | some pubkey => .ok (P.puzzleForPk pubkey)
  | none => .error (.raised .value)

/-- The first proof under the parent, which may be none. -/
def getLineageProofForCoin (coin : Coin) : Option SExp :=
  (w.lineageProofs.find? fun l => decide (l.1=coin.parentCoinInfo)).bind (·.2)

/-- One round of the loop over the coins; `innerPuzzle` is fixed before the loop. -/
def spendable (innerPuzzle : SExp) (genesisId : Option Bytes) (c : Coin × SExp) :
    Check (SpendableCC × List G2Element) := do
  let coinInnerPuzzle ← w.innerPuzzleForCcPuzhash P c.1.puzzleHash
  let lineageProof ← assertSome (w.getLineageProofForCoin c.1)
  let sigs ← w.getSigs E P coinInnerPuzzle c.2 (E.coinName c.1)
  return (⟨c.1,genesisId,innerPuzzle,lineageProof⟩,sigs)

/-- The first coin makes all payments, the others none. -/
def innersolList (primaries : List Primary) (fee : ℕ) : List Coin → List SExp
  | [] => []
  | _::coins => makeSolution primaries fee::coins.map fun _ => makeSolution [] 0

def spendSelected (selectedCoins : List Coin) (primaries : List Primary) (fee : ℕ) : Check ProgramBundle := do
  let coin ← index selectedCoins[0]?
  let innerPuzzle ← w.innerPuzzleForCcPuzhash P coin.puzzleHash
  let checker ← match w.myGenesisChecker with
    | some checker => .ok checker
    | none => .error (.raised .value)
  let genesisId ← P.genesisCoinIdForGenesisCoinChecker checker
  let innersols := innersolList primaries fee selectedCoins
  let spendables ← (selectedCoins.zip innersols).mapM (w.spendable E P innerPuzzle genesisId)
  spendBundleForSpendableCcs E P P.ccMod checker (spendables.map (·.1)) innersols (spendables.flatMap (·.2))

def primariesFor (amounts : List ℕ) (puzzleHashes : List Bytes32) (change : ℤ) : List Primary :=
  amounts.zip puzzleHashes++if change > 0 then [(change.toNat,w.getNewInnerHash)] else []

def generateSignedTransaction (amounts : List ℕ) (puzzleHashes : List Bytes32) (fee : ℕ) (coins : Option (List Coin))
    (ignoreMaxSendAmount : Bool) : Check CcTransactionRecord := do
  let outgoingAmount ← uint64 amounts.sum
  let totalOutgoing := outgoingAmount+fee
  if ignoreMaxSendAmount=false then
    let maxSend ← w.getMaxSendAmount
    raiseIf (totalOutgoing > maxSend)
  let selectedCoins ← match coins with
    | none => do w.selectCoins (← uint64 totalOutgoing)
    | some coins => .ok coins
  let totalAmount : ℕ := (selectedCoins.map (·.amount)).sum
  let change : ℤ := (totalAmount : ℤ)-totalOutgoing
  let spendBundle ← w.spendSelected E P selectedCoins (w.primariesFor amounts puzzleHashes change) fee
  let toPuzzleHash ← index puzzleHashes[0]?
  let additions ← spendBundle.additions E P
  return ⟨w.currentTime,toPuzzleHash,outgoingAmount,spendBundle,additions,spendBundle.removals,w.walletId⟩

end CCWallet
end RoseChain
