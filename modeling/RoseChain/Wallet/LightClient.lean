import RoseChain.Util.CoinLists
import RoseChain.Wallet.WalletCoinStore

namespace RoseChain
open Lib MerkleSet

/-- Coins under a puzzle hash, as a full node lists them. -/
abbrev ListedCoins := Bytes32 × List Coin

/-- A puzzle hash, its proof, and the proof of the hash of its coin list. -/
abbrev AdditionProof := Bytes32 × Bytes × Option Bytes

structure RespondAdditions where
  coins : List ListedCoins
  proofs : Option (List AdditionProof)
  deriving DecidableEq

/-- A coin by its name, or the absence of it. -/
abbrev ListedRemoval := Bytes32 × Option Coin

structure RespondRemovals where
  coins : List ListedRemoval
  proofs : Option (List (Bytes32 × Bytes))
  deriving DecidableEq

/-- What comes back from the peer. -/
inductive PeerAnswer (α : Type)
  | nothing
  | respond (a : α)
  | reject
  deriving DecidableEq

/-- `except AssertionError: return False`. -/
def falseOnAssertion (x : Check Bool) : Check Bool :=
  match x with
  | .error (.raised .assertion) => .ok false
  | other => other

namespace WalletNode
variable (E : Env)

/-- Values of the set of additions, as the response lists them. -/
def listedLeaves (coins : List ListedCoins) : List Bytes32 := coins.flatMap fun e => [e.1,hashCoinList E e.2]

def validateAddition (root : Bytes32) (e : ListedCoins) (proof : AdditionProof) : Check Bool := do
  if e.2=[] then confirmNotIncludedAlreadyHashed E.toOracles root e.1 proof.2.1
  else
    let included ← falseOnAssertion (match proof.2.2 with
      | some coinListProof => confirmIncludedAlreadyHashed E.toOracles root (hashCoinList E e.2) coinListProof
      -- parsing no bytes at all is a type error
      | none => .error (.raised .value))
    if included then falseOnAssertion (confirmIncludedAlreadyHashed E.toOracles root e.1 proof.2.1)
    else return false

def validateAdditionProofs (root : Bytes32) : List ListedCoins → List AdditionProof → Check Bool
  | [],_ => .ok true
  | _::_,[] => .error (.raised .index)
  | e::coins,proof::proofs => do
    assertThat (e.1=proof.1)
    if (← validateAddition E root e proof) then validateAdditionProofs root coins proofs else return false

def validateAdditions (coins : List ListedCoins) (proofs : Option (List AdditionProof)) (root : Bytes32) :
    Check Bool :=
  match proofs with
  | none => do return decide (root=(← rootOf E.toOracles (listedLeaves E coins)))
  | some proofs => validateAdditionProofs E root coins proofs

def validateRemoval (root : Bytes32) (e : ListedRemoval) (proof : Bytes32 × Bytes) : Check Bool :=
  if e.1≠proof.1 then .ok false
  else match e.2 with
    | none => confirmNotIncludedAlreadyHashed E.toOracles root e.1 proof.2
    | some coin =>
      if e.1≠E.coinName coin then .ok false
      else confirmIncludedAlreadyHashed E.toOracles root (E.coinName coin) proof.2

def validateRemovalProofs (root : Bytes32) : List (ListedRemoval × Bytes32 × Bytes) → Check Bool
  | [] => .ok true
  | e::more => do if (← validateRemoval E root e.1 e.2) then validateRemovalProofs root more else return false

def validateRemovals (coins : List ListedRemoval) (proofs : Option (List (Bytes32 × Bytes))) (root : Bytes32) :
    Check Bool :=
  match proofs with
  | none => do
    return decide (root=(← rootOf E.toOracles ((coins.filterMap (·.2)).map E.coinName)))
  | some proofs =>
    if coins.length≠proofs.length then .ok false else validateRemovalProofs E root (coins.zip proofs)

/-- The coins that a block with this root adds, or nothing when the peer is not to be trusted. -/
def getAdditions (root : Bytes32) (additions : Option (List Bytes32)) (getAllAdditions : Bool)
    (peer : Option (List Bytes32) → PeerAnswer RespondAdditions) : Check (Option (List Coin)) :=
  if additions.getD []≠[] ∨ getAllAdditions then
    match peer (if getAllAdditions then none else additions) with
    | .respond res => do
      if (← validateAdditions E res.coins res.proofs root) then return some (res.coins.flatMap fun e => sortCoinList E e.2)
      else return none
    | _ => return none
  else return some []

/-- A coloured coin or an identity among the additions makes the wallet ask for everything. -/
def needsAllRemovals (walletType : Bytes32 → Option WalletType) (additions : List Coin) : Bool :=
  additions.any fun coin => decide (walletType coin.puzzleHash=some .colouredCoin ∨
    walletType coin.puzzleHash=some .distributedId)

def getRemovals (root : Bytes32) (walletType : Bytes32 → Option WalletType) (additions : List Coin)
    (removals : List Bytes32) (requestAllRemovals : Bool)
    (peer : Option (List Bytes32) → PeerAnswer RespondRemovals) : Check (Option (List Coin)) :=
  let requestAllRemovals := requestAllRemovals || needsAllRemovals walletType additions
  if removals≠[] ∨ requestAllRemovals then
    match peer (if requestAllRemovals then none else some removals) with
    | .respond res => do
      if (← validateRemovals E res.coins res.proofs root) then return some (res.coins.filterMap (·.2))
      else return none
    | _ => return none
  else return some []

/-- What a request is about: everything in the block, or the listed names or puzzle hashes. -/
def Asked (listed : List Bytes32) (everything : Bool) (value : Bytes32) : Prop := everything=true ∨ value∈listed

instance (listed : List Bytes32) (everything : Bool) (value : Bytes32) : Decidable (Asked listed everything value) :=
  inferInstanceAs (Decidable (_ ∨ _))

theorem continue_if_true {x rest : Check Bool} (h : (do if (← x) then rest else return false) = .ok true) :
    x = .ok true ∧ rest = .ok true := by
  obtain ⟨b,hx,hb⟩ := bind_ok.mp h
  cases b with
  | true => exact ⟨hx,hb⟩
  | false => cases hb

def clientEnv : Env := { tinyEnv with stdHash := lengthHash.stdHash }

def spentCoin : Coin := { parentCoinInfo := 1,puzzleHash := 5,amount := 3 }

end WalletNode

end RoseChain
