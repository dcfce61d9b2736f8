import RoseChain.Wallet.CcUtils
import RoseChain.Wallet.WalletPuzzleStore

namespace RoseChain
open Lib

/-- A coin and what it announces. -/
structure Announcement where
  originInfo : Bytes32
  message : Bytes
  deriving DecidableEq

def Announcement.name (E : Env) (a : Announcement) : Bytes32 := E.stdHash (bytes32 a.originInfo++a.message)

/-- `None` becomes nil. -/
def SExp.ofOption : Option Bytes32 → SExp
  | some h => .ofBytes32 h
  | none => .atom []

def makeAssertMyCoinIdCondition (coinName : Bytes32) : SExp :=
  .ofList [.atom [ConditionOpcode.assertMyCoinId.value],.ofBytes32 coinName]

def makeAssertAbsoluteSecondsExceedsCondition (time : ℕ) : SExp :=
  .ofList [.atom [ConditionOpcode.assertSecondsAbsolute.value],.ofInt time]

def makeAssertCoinAnnouncement (announcementHash : Option Bytes32) : SExp :=
  .ofList [.atom [ConditionOpcode.assertCoinAnnouncement.value],.ofOption announcementHash]

def makeAssertPuzzleAnnouncement (announcementHash : Bytes32) : SExp :=
  .ofList [.atom [ConditionOpcode.assertPuzzleAnnouncement.value],.ofBytes32 announcementHash]

def makeCreateCoinAnnouncement (message : Bytes32) : SExp :=
  .ofList [.atom [ConditionOpcode.createCoinAnnouncement.value],.ofBytes32 message]

def makeCreatePuzzleAnnouncement (message : Bytes32) : SExp :=
  .ofList [.atom [ConditionOpcode.createPuzzleAnnouncement.value],.ofBytes32 message]

/-- The arguments of `make_solution` and their defaults; a set is listed in the order of its iteration. -/
structure SolutionArgs where
  primaries : List Primary := []
  minTime : ℕ := 0
  me : Option Bytes32 := none
  coinAnnouncements : List Bytes32 := []
  coinAnnouncementsToAssert : List (Option Bytes32) := []
  puzzleAnnouncements : List Bytes32 := []
  puzzleAnnouncementsToAssert : List Bytes32 := []
  fee : ℕ := 0

/-- The arguments of `_generate_unsigned_transaction`; `coins` is a set in the order of its iteration. -/
structure TransactionArgs where
  amount : ℕ
  newpuzzlehash : Bytes32
  fee : ℕ := 0
  originId : Option Bytes32 := none
  coins : Option (List Coin) := none
  primariesInput : Option (List Primary) := none
  ignoreMaxSendAmount : Bool := false
  announcementsToConsume : List Announcement := []

/-- The variables of the loop over the coins. -/
structure Assembly where
  primaries : Option (List Primary)
  primaryAnnouncementHash : Option Bytes32
  spends : List ProgramSpend

/-- The keys of the standard wallet, and what the wallet around it answers. -/
structure Wallet where
  puzzleStore : WalletPuzzleStore
  /-- The public key of a derivation index. -/
  publicKey : ℕ → G1Element
  getMaxSendAmount : Check ℕ
  selectCoins : ℕ → Check (List Coin)
  getNewPuzzlehash : Check Bytes32

namespace Wallet

/-- The conditions that `make_solution` collects. -/
def conditionList (args : SolutionArgs) : List SExp :=
  args.primaries.map (fun p => makeCreateCoinCondition p.2 p.1) ++
    (if args.minTime > 0 then [makeAssertAbsoluteSecondsExceedsCondition args.minTime] else []) ++
    args.me.toList.map makeAssertMyCoinIdCondition ++
    (if args.fee≠0 then [makeReserveFeeCondition args.fee] else []) ++
    args.coinAnnouncements.map makeCreateCoinAnnouncement ++
    args.coinAnnouncementsToAssert.map makeAssertCoinAnnouncement ++
    args.puzzleAnnouncements.map makeCreatePuzzleAnnouncement ++
    args.puzzleAnnouncementsToAssert.map makeAssertPuzzleAnnouncement

def makeSolution (args : SolutionArgs) : SExp := solutionForConditions (.ofList (conditionList args))

variable (E : Env) (P : CcPrograms) (w : Wallet)

/-- A puzzle hash that is not in the store raises a `ValueError`. -/
def puzzleForPuzzleHash (puzzleHash : Bytes32) : Check SExp :=
  match w.puzzleStore.getDerivationRecordForPuzzleHash (.text puzzleHash) with
  | some record => .ok (P.puzzleForPk (w.publicKey record.index))
  | none => .error (.raised .value)

/-- The outputs of the spend that makes them: primaries, payment, and change at a new puzzle hash.
-/
def outputs (args : TransactionArgs) (primaries : Option (List Primary)) (change : ℕ) : Check (List Primary) := do
  let primaries := primaries.getD []++[(args.amount,args.newpuzzlehash)]
  if change > 0 then
    let changePuzzleHash ← w.getNewPuzzlehash
    return primaries++[(change,changePuzzleHash)]
  else
    return primaries

/-- The hash of the names of all coins and of the coins that are created. -/
def messageHash (coins created : List Coin) : Bytes32 :=
  E.stdHash ((coins++created).flatMap fun c => bytes32 (E.coinName c))

def announcedMessage (coins : List Coin) (coin : Coin) (primaries : List Primary) : Check Bytes32 := do
  let created ← primaries.mapM fun p => do return (⟨E.coinName coin,p.2,← uint64 p.1⟩ : Coin)
  return messageHash E coins created

/-- `origin_id in (None, coin.name())`. -/
def MayCreate (args : TransactionArgs) (coin : Coin) : Prop :=
  args.originId=none ∨ args.originId=some (E.coinName coin)

instance (args : TransactionArgs) (coin : Coin) : Decidable (MayCreate E args coin) := instDecidableOr

/-- One round of the loop: only one coin creates outputs. -/
def assemble (args : TransactionArgs) (coins : List Coin) (change : ℕ) (a : Assembly) (coin : Coin) : Check Assembly := do
  let puzzle ← w.puzzleForPuzzleHash P coin.puzzleHash
  if a.primaryAnnouncementHash=none ∧ MayCreate E args coin then
    let primaries ← w.outputs args a.primaries change
    let message ← announcedMessage E coins coin primaries
    -- `Program.to` takes no announcement
    raiseIf (args.announcementsToConsume≠[])
    let solution := makeSolution { primaries := primaries,fee := args.fee,coinAnnouncements := [message] }
    return ⟨some primaries,some (Announcement.name E ⟨E.coinName coin,bytes32 message⟩),
      a.spends++[⟨coin,puzzle,solution⟩]⟩
  else
    let solution := makeSolution { coinAnnouncementsToAssert := [a.primaryAnnouncementHash] }
    return { a with spends := a.spends++[⟨coin,puzzle,solution⟩] }

def totalAmount (args : TransactionArgs) : ℕ :=
  args.amount+args.fee+((args.primariesInput.getD []).map (·.1)).sum

def checkMaxSend (args : TransactionArgs) : Check Unit := do
  if args.ignoreMaxSendAmount then return ()
  let maxSend ← w.getMaxSendAmount
  raiseIf (totalAmount args > maxSend)

def coinsFor (args : TransactionArgs) : Check (List Coin) :=
  match args.coins with
  | some coins => .ok coins
  | none => w.selectCoins (totalAmount args)

def spendCoins (args : TransactionArgs) (coins : List Coin) : Check (List ProgramSpend) := do
  assertThat (coins.length > 0)
  let spendValue := (coins.map (·.amount)).sum
  assertThat (totalAmount args ≤ spendValue)
  raiseIf (∃ primaries∈args.primariesInput,¬ (primaries++[(args.amount,args.newpuzzlehash)]).Nodup)
  let a ← coins.foldlM (w.assemble E P args coins (spendValue-totalAmount args)) ⟨args.primariesInput,none,[]⟩
  return a.spends

def generateUnsignedTransaction (args : TransactionArgs) : Check (List ProgramSpend) := do
  w.checkMaxSend args
  let coins ← w.coinsFor args
  w.spendCoins E P args coins

end Wallet

namespace ProgramSpend
variable (E : Env) (P : CcPrograms) (spend : ProgramSpend)

/-- The conditions that the puzzle of a spend returns; none where it fails. -/
def conditions : List ConditionWithArgs :=
  (conditionsForSolution P spend.puzzleReveal spend.solution infiniteCost).getD []

def npc : NPC := ⟨E.coinName spend.coin,spend.coin.puzzleHash,(conditionsByOpcode (spend.conditions P)).entries⟩

end ProgramSpend

end RoseChain
