import RoseChain.FullNode.NoRaise
import RoseChain.Util.ClvmFormat
import RoseChain.Wallet.CcUtils

namespace RoseChain
open Lib

/-- One round of the loop over the spends. -/
def appendCoinSpend (r : Bytes) (coinSpend : CoinSpend) : Option Bytes := do
  let parent ← (SExp.ofBytes32 coinSpend.coin.parentCoinInfo).asBin
  let amount ← (SExp.ofInt coinSpend.coin.amount).asBin
  return r++[0xff]++(0xff::parent)++(0xff::coinSpend.puzzleReveal)++(0xff::amount) ++
    (0xff::coinSpend.solution)++[0x80]

def spendBundleToSerializedCoinSpendEntryList (coinSpends : List CoinSpend) : Option Bytes := do
  let r ← coinSpends.foldlM appendCoinSpend []
  return r++[0x80]

def simpleSolutionGenerator (coinSpends : List CoinSpend) : Option BlockGenerator := do
  let cseList ← spendBundleToSerializedCoinSpendEntryList coinSpends
  let quote ← (SExp.atom [1]).asBin
  return ⟨0xff::quote++(0xff::cseList++[0x80]),[]⟩

/-- What the generator ROM makes of one entry: the coin that it spends. -/
def processCoinSpend (E : Env) : SExp → Option Coin
  | .pair (.atom parent) (.pair puzzle (.pair (.atom amount) (.pair _ _))) =>
      some ⟨toBytes32 parent,puzzle.treeHash E,(intFromBytes amount).toNat⟩
  | _ => none

/-- Hexadecimal text, each digit by its value. -/
abbrev HexText := List ℕ

/-- `body.hex()`. -/
def toHex (body : Bytes) : HexText := body.flatMap fun x => [x.toNat / 16,x.toNat % 16]

/-- `bytes.fromhex`. -/
def fromHex : HexText → Bytes
  | d::d'::text => UInt8.ofNat (16*d+d')::fromHex text
  | _ => []

/-- The last `n` hexadecimal digits of a number. -/
def hexDigits (n value : ℕ) : HexText := (List.range n).map fun i => value / 16^(n-1-i) % 16

def standardTransactionPuzzlePrefix : HexText := hexDigits 476
  0xff02ffff01ff02ffff01ff02ffff03ff0bffff01ff02ffff03ffff09ff05ffff1dff0bffff1effff0bff0bffff02ff06ffff04ff02ffff04ff17ff8080808080808080ffff01ff02ff17ff2f80ffff01ff088080ff0180ffff01ff04ffff04ff04ffff04ff05ffff04ffff02ff06ffff04ff02ffff04ff17ff80808080ff80808080ffff02ff17ff2f808080ff0180ffff04ffff01ff32ff02ffff03ffff07ff0580ffff01ff0bffff0102ffff02ff06ffff04ff02ffff04ff09ff80808080ffff02ff06ffff04ff02ffff04ff0dff8080808080ffff01ff0bffff0101ff058080ff0180ff018080ffff04ffff01

def standardTransactionPuzzleSuffix : HexText := hexDigits 8 0xff018080

/-- `STANDARD_TRANSACTION_PUZZLE_PATTERN` at the start of the text. -/
def StartsWithPattern (text : HexText) : Prop :=
  text.take 476=standardTransactionPuzzlePrefix ∧ (text.drop 476).take 2=[11,0] ∧
    ((text.drop 478).take 96).length=96 ∧ (∀ d∈(text.drop 478).take 96,d<16) ∧
    (text.drop 574).take 8=standardTransactionPuzzleSuffix

instance (text : HexText) : Decidable (StartsWithPattern text) := inferInstanceAs (Decidable (_ ∧ _ ∧ _ ∧ _ ∧ _))

/-- `PATTERN.search`: start and end of the leftmost match. -/
def searchPattern (text : HexText) (start : ℕ) : Option (ℕ × ℕ) :=
  if StartsWithPattern text then some (start,start+582)
  else match text with
    | [] => none
    | _::text => searchPattern text (start+1)

def matchStandardTransactionAtAnyIndex (generatorBody : Bytes) : Check (Option (ℕ × ℕ)) :=
  match searchPattern (toHex generatorBody) 0 with
  | none => .ok none
  | some m => do
    assertThat (m.1 % 2=0 ∧ m.2 % 2=0)
    let start := m.1 / 2
    let stop := (m.2-98-8) / 2
    assertThat ((generatorBody.take stop).drop start=fromHex standardTransactionPuzzlePrefix)
    return some (start,stop)

structure CompressorArg where
  blockHeight : ℕ
  generator : SerializedProgram
  start : ℕ
  stop : ℕ
  deriving DecidableEq

def detectPotentialTemplateGenerator (blockHeight : ℕ) (program : SerializedProgram) : Check (Option CompressorArg) := do
  match ← matchStandardTransactionAtAnyIndex program with
  | none => return none
  | some (start,stop) =>
    if start≠0 ∧ stop≠0 ∧ stop > start then return some ⟨blockHeight,program,start,stop⟩ else return none

end RoseChain
