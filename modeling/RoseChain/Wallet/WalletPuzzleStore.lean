import RoseChain.Wallet.WalletCoinStore

namespace RoseChain
open Lib

structure DerivationRecord where
  index : ℕ
  puzzleHash : Bytes32
  pubkey : G1Element
  walletType : WalletType
  walletId : ℕ
  deriving DecidableEq

/-- A row of `derivation_paths`. -/
structure DerivationPath where
  derivationIndex : ℕ
  pubkey : G1Element
  puzzleHash : Bytes32
  walletType : WalletType
  walletId : ℕ
  used : Bool
  deriving DecidableEq

/-- A puzzle hash as it is bound to a query: as hex text, which is what the column holds, or as bytes. -/
inductive PuzzleHashArg
  | text (puzzleHash : Bytes32)
  | blob (puzzleHash : Bytes32)
  deriving DecidableEq

/-- The rows in the order of their insertion, and all puzzle hashes in memory. -/
structure WalletPuzzleStore where
  derivationPaths : List DerivationPath
  allPuzzleHashes : Finset Bytes32

def DerivationPath.record (row : DerivationPath) : DerivationRecord :=
  ⟨row.derivationIndex,row.puzzleHash,row.pubkey,row.walletType,row.walletId⟩

namespace WalletPuzzleStore

def create (derivationPaths : List DerivationPath) : WalletPuzzleStore :=
  ⟨derivationPaths,(derivationPaths.map (·.puzzleHash)).toFinset⟩

/-- `INSERT OR REPLACE`, as not used: no column is a key (`PRIMARY_KEY` is in the type), so no row
is replaced. -/
def addDerivationPath (s : WalletPuzzleStore) (record : DerivationRecord) : WalletPuzzleStore where
  derivationPaths := s.derivationPaths ++
    [⟨record.index,record.pubkey,record.puzzleHash,record.walletType,record.walletId,false⟩]
  allPuzzleHashes := insert record.puzzleHash s.allPuzzleHashes

def addDerivationPaths (s : WalletPuzzleStore) (records : List DerivationRecord) : WalletPuzzleStore :=
  records.foldl addDerivationPath s

def getDerivationRecord (s : WalletPuzzleStore) (index walletId : ℕ) : Option DerivationRecord :=
  (s.derivationPaths.find? fun row =>
    decide (row.derivationIndex=index ∧ row.walletId=walletId)).map (·.record)

def getDerivationRecordForPuzzleHash (s : WalletPuzzleStore) (puzzleHash : PuzzleHashArg) : Option DerivationRecord :=
  (s.derivationPaths.find? fun row => decide (PuzzleHashArg.text row.puzzleHash=puzzleHash)).map (·.record)

def puzzleHashExists (s : WalletPuzzleStore) (puzzleHash : Bytes32) : Bool :=
  s.derivationPaths.any fun row => decide (PuzzleHashArg.text row.puzzleHash = .text puzzleHash)

def setUsedUpTo (s : WalletPuzzleStore) (index : ℕ) : WalletPuzzleStore :=
  { s with derivationPaths :=
      s.derivationPaths.map fun row => if row.derivationIndex ≤ index then { row with used := true } else row }

/-- `SELECT MAX`. -/
def getLastDerivationPath (s : WalletPuzzleStore) : Option ℕ := (s.derivationPaths.map (·.derivationIndex)).max?

def getLastDerivationPathForWallet (s : WalletPuzzleStore) (walletId : ℕ) : Option ℕ :=
  ((s.derivationPaths.filter fun row => decide (row.walletId=walletId)).map (·.derivationIndex)).max?

/-- `SELECT MIN` over the rows that are not used. -/
def getUnusedDerivationPath (s : WalletPuzzleStore) : Option ℕ :=
  ((s.derivationPaths.filter fun row => decide (row.used=false)).map (·.derivationIndex)).min?

theorem getDerivationRecordForPuzzleHash_blob (s : WalletPuzzleStore) (puzzleHash : Bytes32) :
    s.getDerivationRecordForPuzzleHash (.blob puzzleHash)=none := by
  simp [getDerivationRecordForPuzzleHash]

end WalletPuzzleStore
end RoseChain
