import RoseChain.Consensus.Constants

namespace RoseChain
open Lib

/-- A node of the tree; a middle node keeps its hash. A truncated one stands only in a proof, with the bytes for
its hash. -/
inductive MerkleNode
  | empty
  | terminal (hash : Bytes32)
  | middle (left right : MerkleNode) (hash : Bytes32)
  | truncated (hash : Bytes)
  deriving DecidableEq

/-- `raise SetError()`. -/
def raiseSetIf (c : Prop) [Decidable c] : Check Unit :=
  if c then .error (.raised .set) else .ok ()

@[simp] theorem raiseSetIf_eq_ok {c : Prop} [Decidable c] {u : Unit} : raiseSetIf c = .ok u ↔ ¬ c := by
  unfold raiseSetIf; split_ifs <;> simp [*]

namespace MerkleNode
variable (O : Oracles)

def isEmpty : MerkleNode → Bool
  | empty => true
  | _ => false

def isTerminal : MerkleNode → Bool
  | terminal _ => true
  | _ => false

/-- Two terminals, with nothing but empty siblings above. An empty node and a terminal raise. -/
def isDouble : MerkleNode → Check Bool
  | middle left right _ =>
    if left.isEmpty then right.isDouble
    else if right.isEmpty then left.isDouble
    else .ok (left.isTerminal && right.isTerminal)
  | truncated _ => .ok false
  | _ => .error (.raised .set)

def hash : MerkleNode → Bytes32
  | empty => zeros32
  | terminal h => h
  | middle _ _ h => h
  | truncated h => toBytes32 h

def getHash : MerkleNode → Bytes
  | empty => 0::bytes32 zeros32
  | terminal h => 1::bytes32 h
  | middle _ _ h => 2::bytes32 h
  | truncated h => 2::h

/-- The string that `hashdown` hashes: the two type bytes behind thirty zeros, then the hashes. -/
def preimage (mystr : Bytes) : Bytes :=
  List.replicate 30 0++(mystr.take 1++(mystr.drop 33).take 1) ++
    ((mystr.drop 1).take 32++mystr.drop 34)

def hashdown (mystr : Bytes) : Check Bytes32 := do
  assertThat (mystr.length=66)
  return O.stdHash (preimage mystr)

/-- `a.is_empty() and b.is_double()`. -/
def besideEmpty (a b : MerkleNode) : Check Bool := if a.isEmpty then b.isDouble else .ok false

/-- The last branch of `MiddleNode.__init__`. -/
def hashChildren (left right : MerkleNode) : Check Bytes32 := do
  raiseSetIf (left.isEmpty ∧ (right.isEmpty ∨ right.isTerminal))
  raiseSetIf (right.isEmpty ∧ left.isTerminal)
  raiseSetIf (left.isTerminal ∧ right.isTerminal ∧ left.hash ≥ right.hash)
  hashdown O (left.getHash++right.getHash)

/-- The hash of `MiddleNode([left, right])`: pairs of terminals are not hashed again on the way up. -/
def middleHash (left right : MerkleNode) : Check Bytes32 := do
  let doubleRight ← besideEmpty left right
  if doubleRight then return right.hash
  else do
    let doubleLeft ← besideEmpty right left
    if doubleLeft then return left.hash else hashChildren O left right

/-- `MiddleNode([left, right])`. -/
def mkMiddle (left right : MerkleNode) : Check MerkleNode := do
  return middle left right (← middleHash O left right)

def getBit (x : Bytes32) (pos : ℕ) : Check Bool := index (if pos<256 then some (x.getMsbD pos) else none)

/-- Two terminals in order, pushed down to where their bits differ. -/
def makeMiddle (small large : Bytes32) : ℕ → ℕ → Check MerkleNode
  | 0,_ => .error (.raised .diverged)
  | n+1,depth => do
    let b₀ ← getBit small depth
    let b₁ ← getBit large depth
    if b₀≠b₁ then mkMiddle O (terminal small) (terminal large)
    else do
      let below ← makeMiddle small large n (depth+1)
      if b₀ then mkMiddle O empty below else mkMiddle O below empty

def add (toadd : Bytes32) : MerkleNode → ℕ → Check MerkleNode
  | empty,_ => .ok (terminal toadd)
  | terminal h,depth =>
    if toadd=h then .ok (terminal h)
    else if toadd > h then makeMiddle O h toadd (257-depth) depth
    else makeMiddle O toadd h (257-depth) depth
  | middle left right h,depth => do
    let bit ← getBit toadd depth
    let child := if bit then right else left
    let newChild ← if bit then add toadd right (depth+1) else add toadd left (depth+1)
    if newChild=child then return middle left right h
    else if bit then mkMiddle O left newChild else mkMiddle O newChild right
  | truncated h,_ => .ok (truncated h)

def remove (toremove : Bytes32) : MerkleNode → ℕ → Check MerkleNode
  | empty,_ => .ok empty
  | terminal h,_ => if toremove=h then .ok empty else .ok (terminal h)
  | middle left right h,depth => do
    let bit ← getBit toremove depth
    let child := if bit then right else left
    let newChild ← if bit then remove toremove right (depth+1) else remove toremove left (depth+1)
    let otherChild := if bit then left else right
    if newChild=child then return middle left right h
    else if newChild.isEmpty ∧ otherChild.isTerminal then return otherChild
    else if newChild.isTerminal ∧ otherChild.isEmpty then return newChild
    else if bit then mkMiddle O left newChild else mkMiddle O newChild right
  | truncated h,_ => .ok (truncated h)

/-- `other_included`: `expanded` is what `is_included` gives for the same node. -/
def otherIncluded (node : MerkleNode) (expanded : Check (Bool × Bytes)) (collapse : Bool) : Check Bytes :=
  match node with
  | empty => .ok [0]
  | terminal h => .ok (1::bytes32 h)
  | truncated h => .ok (3::h)
  | middle left right h => do
    let double ← if collapse then .ok false else isDouble (middle left right h)
    if double then return (← expanded).2 else return 3::bytes32 h

/-- Whether the value is there, and the bytes appended to the proof. -/
def isIncluded (tocheck : Bytes32) : MerkleNode → ℕ → Check (Bool × Bytes)
  | empty,_ => .ok (false,[0])
  | terminal h,_ => .ok (tocheck == h,1::bytes32 h)
  | truncated _,_ => .error (.raised .set)
  | middle left right _,depth => do
    let bit ← getBit tocheck depth
    if bit then do
      let beside ← otherIncluded left (isIncluded tocheck left (depth+1)) !right.isEmpty
      let (r,below) ← isIncluded tocheck right (depth+1)
      return (r,2::beside++below)
    else do
      let (r,below) ← isIncluded tocheck left (depth+1)
      let beside ← otherIncluded right (isIncluded tocheck right (depth+1)) !left.isEmpty
      return (r,2::below++beside)

/-- `TerminalNode(hash, bits)`: the value has to be where its bits say. -/
def audited (hash : Bytes) (bits : List Bool) : Check MerkleNode := do
  assertThat (hash.length=32)
  bits.zipIdx.forM fun (v,pos) => do
    let b ← getBit (toBytes32 hash) pos
    assertThat (b=v)
  return terminal (toBytes32 hash)

/-- `_deserialize` from position `pos`; the first argument bounds the depth of the recursion. -/
def deserialize (proof : Bytes) : ℕ → ℕ → List Bool → Check (MerkleNode × ℕ)
  | 0,_,_ => .error (.raised .diverged)
  | n+1,pos,bits =>
    match proof[pos]? with
    | some 0 => .ok (empty,pos+1)
    | some 1 => do return (← audited ((proof.drop (pos+1)).take 32) bits,pos+33)
    | some 3 => .ok (truncated ((proof.drop (pos+1)).take 32),pos+33)
    | some 2 => do
      let (v₀,pos) ← deserialize proof n (pos+1) (bits++[false])
      let (v₁,pos) ← deserialize proof n pos (bits++[true])
      return (← mkMiddle O v₀ v₁,pos)
    | _ => .error (.raised .set)

end MerkleNode

namespace MerkleSet
variable (O : Oracles)

def addAll : MerkleNode → List Bytes32 → Check MerkleNode
  | root,[] => .ok root
  | root,x::xs => do addAll (← MerkleNode.add O x root 0) xs

def compressRoot (mystr : Bytes) : Check Bytes32 := do
  assertThat (mystr.length=33)
  if mystr.take 1=[2] then return toBytes32 (mystr.drop 1)
  else if mystr.take 1=[0] then do
    assertThat (mystr.drop 1=bytes32 zeros32)
    return zeros32
  else return O.stdHash mystr

def getRoot (root : MerkleNode) : Check Bytes32 := compressRoot O root.getHash

def isIncludedAlreadyHashed (tocheck : Bytes32) (root : MerkleNode) : Check (Bool × Bytes) :=
  root.isIncluded tocheck 0

def deserializeProof (proof : Bytes) : Check MerkleNode :=
  let parsed : Check MerkleNode := do
    let (r,pos) ← MerkleNode.deserialize O proof (proof.length+1) 0 []
    raiseSetIf (pos≠proof.length)
    return r
  match parsed with
  | .error (.raised .index) => .error (.raised .set)
  | other => other

/-- `_confirm`. -/
def confirm (root val : Bytes32) (proof : Bytes) (expected : Bool) : Check Bool :=
  let answer : Check Bool := do
    let p ← deserializeProof O proof
    let proved ← getRoot O p
    if proved≠root then return false
    else do
      let (r,_) ← isIncludedAlreadyHashed val p
      return r == expected
  match answer with
  | .error (.raised .set) => .ok false
  | other => other

def confirmIncludedAlreadyHashed (root val : Bytes32) (proof : Bytes) : Check Bool :=
  confirm O root val proof true

def confirmNotIncludedAlreadyHashed (root val : Bytes32) (proof : Bytes) : Check Bool :=
  confirm O root val proof false

/-- The calls that change a set. -/
inductive Call
  | addAlreadyHashed (toadd : Bytes32)
  | removeAlreadyHashed (toremove : Bytes32)
  deriving DecidableEq

def call (root : MerkleNode) : Call → Check MerkleNode
  | .addAlreadyHashed x => MerkleNode.add O x root 0
  | .removeAlreadyHashed x => MerkleNode.remove O x root 0

def run (root : MerkleNode) : List Call → Check MerkleNode
  | [] => .ok root
  | c::cs => do run (← call O root c) cs

end MerkleSet

variable (E : Env)

/-- Hash of the names of the coins, the largest name first. -/
def hashCoinList (coins : List Coin) : Bytes32 :=
  E.stdHash (((coins.map E.coinName).insertionSort (· ≥ ·)).flatMap bytes32)

/-- Coins by puzzle hash, in order of first appearance. -/
def puzzlehashCoinsMap (coins : List Coin) : Dict Bytes32 (List Coin) :=
  coins.foldl (fun d c => d.set c.puzzleHash ((d.get? c.puzzleHash).getD []++[c])) Dict.empty

def additionLeaves (coins : List Coin) : List Bytes32 :=
  (puzzlehashCoinsMap coins).entries.flatMap fun e => [e.1,hashCoinList E e.2]

def additionsRootOf (coins : List Coin) : Check Bytes32 := do
  MerkleSet.getRoot E.toOracles (← MerkleSet.addAll E.toOracles .empty (additionLeaves E coins))

def removalsRootOf (removals : List Bytes32) : Check Bytes32 := do
  MerkleSet.getRoot E.toOracles (← MerkleSet.addAll E.toOracles .empty removals)

def validateBlockMerkleRoots (blockAdditionsRoot blockRemovalsRoot : Bytes32)
    (txAdditions : List Coin) (txRemovals : List Bytes32) : Check Unit := do
  let removalsRoot ← removalsRootOf E txRemovals
  let additionsRoot ← additionsRootOf E txAdditions
  reject (blockAdditionsRoot≠additionsRoot) .badAdditionRoot
  reject (blockRemovalsRoot≠removalsRoot) .badRemovalRoot

end RoseChain
