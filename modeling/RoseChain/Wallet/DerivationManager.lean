import RoseChain.Lib.Effect
import RoseChain.Wallet.WalletPuzzleStore

namespace RoseChain
open Lib

/-- A wallet, where its puzzles matter; only a rate-limited wallet may have no puzzle. -/
inductive KeyWallet
  | pooling
  | rateLimited (initialized : Bool) (pubkey : G1Element) (puzzleHash : Option Bytes32)
  | keyed (type : WalletType) (puzzleHashForPk : G1Element → Bytes32)

/-- What `WalletStateManager` has of wallets and derived keys. -/
structure DerivationManager where
  puzzleStore : WalletPuzzleStore
  wallets : Dict ℕ KeyWallet
  newWallet : Bool
  initialNumPublicKeys : ℕ
  initialNumPublicKeysNewWallet : ℕ
  publicKey : ℕ → G1Element

namespace DerivationManager

/-- `to_generate`. -/
def toGenerate (m : DerivationManager) : ℕ :=
  if m.newWallet then m.initialNumPublicKeysNewWallet else m.initialNumPublicKeys

/-- The first index that is not used, the last one where all are, and 0 without any. -/
def firstUnused (m : DerivationManager) : ℕ :=
  m.puzzleStore.getUnusedDerivationPath.getD (m.puzzleStore.getLastDerivationPath.getD 0)

def getDerivationIndex (m : DerivationManager) (pubkey : G1Element) : Option ℕ :=
  (List.range 1000).find? fun i => decide (m.publicKey i=pubkey)

def startIndex (m : DerivationManager) (fromZero : Bool) (walletId : ℕ) : ℕ :=
  if fromZero then 0 else ((m.puzzleStore.getLastDerivationPathForWallet walletId).map (· + 1)).getD 0

def keyRecord (m : DerivationManager) (walletId : ℕ) (type : WalletType) (puzzleHashForPk : G1Element → Bytes32)
    (index : ℕ) : Check DerivationRecord := do
  let index ← uint32 index
  return ⟨index,puzzleHashForPk (m.publicKey index),m.publicKey index,type,walletId⟩

def recordsFor (m : DerivationManager) (fromZero : Bool) (unused : ℕ) (w : ℕ × KeyWallet) :
    Check (List DerivationRecord) :=
  let start := m.startIndex fromZero w.1
  let indices := List.range' start (unused+m.toGenerate-start)
  match w.2 with
  | .pooling => return []
  | .rateLimited initialized pubkey puzzleHash =>
    if indices=[] ∨ initialized=false then return []
    else do
      let puzzleHash ← attrOf puzzleHash
      -- whatever the range, only the index of the one key
      return ((m.getDerivationIndex pubkey).map fun index => ⟨index,puzzleHash,pubkey,.rateLimited,w.1⟩).toList
  | .keyed type puzzleHashForPk => indices.mapM (m.keyRecord w.1 type puzzleHashForPk)

def addRecords (m : DerivationManager) (records : List DerivationRecord) : DerivationManager :=
  { m with puzzleStore := m.puzzleStore.addDerivationPaths records }

def setUsedUpTo (m : DerivationManager) (index : ℕ) : DerivationManager :=
  { m with puzzleStore := m.puzzleStore.setUsedUpTo index }

def createForWallet (fromZero : Bool) (unused : ℕ) (w : ℕ × KeyWallet) : Eff DerivationManager Fail Unit := do
  let m ← Eff.get
  let records ← Eff.lift (m.recordsFor fromZero unused w)
  Eff.modify (·.addRecords records)

def createMorePuzzleHashes (fromZero : Bool) : Eff DerivationManager Fail Unit := do
  let m ← Eff.get
  let unused := m.firstUnused
  m.wallets.entries.forM (createForWallet fromZero unused)
  if unused > 0 then Eff.modify (·.setUsedUpTo (unused-1))

def getUnusedDerivationRecord (walletId : ℕ) : Eff DerivationManager Fail DerivationRecord := do
  if (← Eff.get).puzzleStore.getUnusedDerivationPath=none then createMorePuzzleHashes false
  let unused ← Eff.lift (assertSome (← Eff.get).puzzleStore.getUnusedDerivationPath)
  let record ← Eff.lift (assertSome ((← Eff.get).puzzleStore.getDerivationRecord unused walletId))
  Eff.modify (·.setUsedUpTo record.index)
  createMorePuzzleHashes false
  return record

/-- What happens to the manager; a wallet is added or changes. -/
inductive Op
  | getUnusedDerivationRecord (walletId : ℕ)
  | createMorePuzzleHashes (fromZero : Bool)
  | setUsedUpTo (index : ℕ)
  | setWallet (walletId : ℕ) (wallet : KeyWallet)
  | setNewWallet (newWallet : Bool)

/-- The manager after an operation, also where it raises. -/
def step (m : DerivationManager) : Op → DerivationManager
  | .getUnusedDerivationRecord walletId => (DerivationManager.getUnusedDerivationRecord walletId m).2
  | .createMorePuzzleHashes fromZero => (DerivationManager.createMorePuzzleHashes fromZero m).2
  | .setUsedUpTo index => m.setUsedUpTo index
  | .setWallet walletId wallet => { m with wallets := m.wallets.set walletId wallet }
  | .setNewWallet newWallet => { m with newWallet := newWallet }

end DerivationManager
end RoseChain
