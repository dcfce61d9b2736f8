import RoseChain.Util.MerkleCanonical
import RoseChain.Wallet.CcUtils

namespace RoseChain

/-- An entry of `sexp_stack`. -/
inductive StackEntry
  | sexp (s : SExp)
  | hash (b : Bytes)
  deriving DecidableEq

/-- The handlers on `op_stack`. -/
inductive TreeOp
  | handleSexp | handlePair | roll
  deriving DecidableEq

/-- Both stacks, the top first. -/
structure TreeStacks where
  sexpStack : List StackEntry
  opStack : List TreeOp
  deriving DecidableEq

variable (E : Env) (precalculated : List Bytes)

/-- One call of a handler, unless it raises. -/
def treeStep : TreeOp → List StackEntry → List TreeOp → Option TreeStacks
  | .handleSexp,.sexp (.pair p0 p1)::stack,ops =>
      some ⟨.sexp p1 :: .sexp p0::stack,.handleSexp :: .roll :: .handleSexp :: .handlePair::ops⟩
  | .handleSexp,.sexp (.atom b)::stack,ops =>
      some ⟨.hash (if b∈precalculated then b else bytes32 (E.stdHash (1::b)))::stack,ops⟩
  | .handlePair,.hash p0 :: .hash p1::stack,ops => some ⟨.hash (bytes32 (E.stdHash (2::(p0++p1))))::stack,ops⟩
  | .roll,p0::p1::stack,ops => some ⟨p1::p0::stack,ops⟩
  | _,_,_ => none

def StackEntry.work : StackEntry → ℕ
  | .hash _ => 0
  | .sexp (.atom _) => 0
  | .sexp (.pair left right) => work (.sexp left)+work (.sexp right)+4

def TreeStacks.work (z : TreeStacks) : ℕ := (z.sexpStack.map (·.work)).sum+z.opStack.length

variable {stack : List StackEntry} {z : TreeStacks}

variable {op : TreeOp} {ops : List TreeOp}

theorem treeStep_work (h : treeStep E precalculated op stack ops=some z) : z.work<(TreeStacks.mk stack (op::ops)).work := by
  unfold treeStep at h
  split at h <;> cases h <;> simp [TreeStacks.work,StackEntry.work] <;> omega

/-- The loop over `op_stack`. -/
def treeLoop (z : TreeStacks) : Option (List StackEntry) :=
  match z with
  | ⟨stack,[]⟩ => some stack
  | ⟨stack,op::ops⟩ =>
    match _h : treeStep E precalculated op stack ops with
    | none => none
    | some z' => treeLoop z'
termination_by z.work
decreasing_by exact treeStep_work E precalculated ‹_›

def sha256Treehash (sexp : SExp) : Option Bytes32 :=
  match treeLoop E precalculated ⟨[.sexp sexp],[.handleSexp]⟩ with
  | some stack =>
    match stack.getLast? with
    | some (.hash b) => if b.length=32 then some (toBytes32 b) else none
    | _ => none
  | none => none

/-- `get_tree_hash(*args)`. -/
def getTreeHash (args : List Bytes32) (sexp : SExp) : Option Bytes32 := sha256Treehash E (args.map bytes32) sexp

/-- `_tree_hash`, the same by recursion. -/
def treeHashWith : SExp → Bytes
  | .atom b => if b∈precalculated then b else bytes32 (E.stdHash (1::b))
  | .pair left right => bytes32 (E.stdHash (2::(treeHashWith left++treeHashWith right)))

def ccPuzzleHashForInnerPuzzleHash (P : CcPrograms) (modCode genesisCoinChecker : SExp) (innerPuzzleHash : Bytes32) :
    Option Bytes32 := do
  let gccHash ← getTreeHash E [] genesisCoinChecker
  let modHash ← getTreeHash E [] modCode
  getTreeHash E [gccHash,innerPuzzleHash]
    (P.curry modCode [.ofBytes32 modHash,.ofBytes32 gccHash,.ofBytes32 innerPuzzleHash])

namespace SExp

def atoms : SExp → List Bytes
  | .atom b => [b]
  | .pair left right => left.atoms++right.atoms

/-- `(c (q . arg) …)`, which ends in the environment. -/
def curriedArgs : List SExp → SExp
  | [] => .atom [1]
  | arg::args => .ofList [.atom [4],.pair (.atom [1]) arg,curriedArgs args]

/-- `(a (q . mod) args)`. -/
def curried (modCode : SExp) (args : List SExp) : SExp :=
  .ofList [.atom [2],.pair (.atom [1]) modCode,curriedArgs args]

end SExp

variable {E precalculated}

theorem treeLoop_nil (stack : List StackEntry) : treeLoop E precalculated ⟨stack,[]⟩=some stack := by
  rw [treeLoop]

theorem treeLoop_step (h : treeStep E precalculated op stack ops=some z) :
    treeLoop E precalculated ⟨stack,op::ops⟩=treeLoop E precalculated z := by
  rw [treeLoop]
  split
  · next hnone => rw [h] at hnone; cases hnone
  · next z' hsome => rw [h] at hsome; cases hsome; rfl

/-- A value on top is replaced by its hash, whatever lies below it and comes after it. -/
theorem treeLoop_sexp (s : SExp) (stack : List StackEntry) (ops : List TreeOp) :
    treeLoop E precalculated ⟨.sexp s::stack,.handleSexp::ops⟩ =
      treeLoop E precalculated ⟨.hash (treeHashWith E precalculated s)::stack,ops⟩ := by
  induction s generalizing stack ops with
  | atom b => exact treeLoop_step rfl
  | pair left right ihLeft ihRight =>
    calc treeLoop E precalculated ⟨.sexp (.pair left right)::stack,.handleSexp::ops⟩
        = treeLoop E precalculated ⟨.sexp right :: .sexp left::stack,
            .handleSexp :: .roll :: .handleSexp :: .handlePair::ops⟩ := treeLoop_step rfl
      _=treeLoop E precalculated ⟨.hash (treeHashWith E precalculated right) :: .sexp left::stack,
            .roll :: .handleSexp :: .handlePair::ops⟩ := ihRight _ _
      _=treeLoop E precalculated ⟨.sexp left :: .hash (treeHashWith E precalculated right)::stack,
            .handleSexp :: .handlePair::ops⟩ := treeLoop_step rfl
      _=treeLoop E precalculated ⟨.hash (treeHashWith E precalculated left) ::
            .hash (treeHashWith E precalculated right)::stack,.handlePair::ops⟩ := ihLeft _ _
      _=_ := treeLoop_step rfl

theorem treeHashWith_length (h : ∀ b∈precalculated,b.length=32) (s : SExp) :
    (treeHashWith E precalculated s).length=32 := by
  cases s with
  | atom b =>
    unfold treeHashWith
    split_ifs with hmem
    · exact h b hmem
    · exact bytes32_length _
  | pair left right => exact bytes32_length _

theorem getTreeHash_eq (args : List Bytes32) (s : SExp) :
    getTreeHash E args s=some (toBytes32 (treeHashWith E (args.map bytes32) s)) := by
  have hlen : (treeHashWith E (args.map bytes32) s).length=32 := by
    apply treeHashWith_length
    simp [bytes32_length]
  unfold getTreeHash sha256Treehash
  rw [treeLoop_sexp,treeLoop_nil]
  simp [hlen]

theorem treeHashWith_eq (s : SExp) (h : ∀ b∈s.atoms,b∉precalculated) :
    treeHashWith E precalculated s=bytes32 (s.treeHash E) := by
  induction s with
  | atom b => simp [treeHashWith,SExp.treeHash,h b (by simp [SExp.atoms])]
  | pair left right ihLeft ihRight =>
    simp only [SExp.atoms,List.mem_append] at h
    simp only [treeHashWith,SExp.treeHash]
    rw [ihLeft fun b hb => h b (Or.inl hb),ihRight fun b hb => h b (Or.inr hb)]

theorem getTreeHash_plain (s : SExp) : getTreeHash E [] s=some (s.treeHash E) := by
  rw [getTreeHash_eq,treeHashWith_eq s (by simp),toBytes32_bytes32]

variable {args : List Bytes32}

variable {b : Bytes}

theorem short_not_mem (h : b.length≠32) : b∉args.map bytes32 := by
  intro hmem
  obtain ⟨x,-,rfl⟩ := List.mem_map.mp hmem
  exact h (bytes32_length x)

theorem treeHashWith_short (h : b.length≠32) :
    treeHashWith E (args.map bytes32) (.atom b)=bytes32 (E.stdHash (1::b)) := by
  simp only [treeHashWith,if_neg (short_not_mem h)]

variable {l l' : List SExp}

theorem treeHashWith_curriedArgs
    (h : List.Forall₂ (fun s s' => treeHashWith E (args.map bytes32) s=bytes32 (s'.treeHash E)) l l') :
    treeHashWith E (args.map bytes32) (SExp.curriedArgs l)=bytes32 ((SExp.curriedArgs l').treeHash E) := by
  induction h with
  | nil => exact treeHashWith_short (by decide)
  | cons hs _ ih =>
    simp only [SExp.curriedArgs,SExp.ofList,treeHashWith,SExp.treeHash] at ih ⊢
    simp [short_not_mem,hs,ih]

theorem treeHashWith_curried {modCode : SExp} (hmod : ∀ b∈modCode.atoms,b∉args.map bytes32)
    (h : List.Forall₂ (fun s s' => treeHashWith E (args.map bytes32) s=bytes32 (s'.treeHash E)) l l') :
    treeHashWith E (args.map bytes32) (modCode.curried l)=bytes32 ((modCode.curried l').treeHash E) := by
  have hargs := treeHashWith_curriedArgs h
  simp only [SExp.curried,SExp.ofList,treeHashWith,SExp.treeHash]
  simp [short_not_mem,treeHashWith_eq modCode hmod,hargs]

theorem treeHashWith_hash {x : Bytes32} (h : x∈args) :
    treeHashWith E (args.map bytes32) (.ofBytes32 x)=bytes32 x := by
  simp only [SExp.ofBytes32,treeHashWith,if_pos (List.mem_map_of_mem h)]

/-- The hash from the inner hash is the hash of the real program. -/
theorem ccPuzzleHash_agrees (E : Env) (P : CcPrograms) (modCode genesisCoinChecker innerPuzzle : SExp)
    (hcurry : ∀ s args,P.curry s args=s.curried args) (hmod : ∀ b∈bytes32 (modCode.treeHash E)::modCode.atoms,
      b≠bytes32 (genesisCoinChecker.treeHash E) ∧ b≠bytes32 (innerPuzzle.treeHash E)) :
    ∃ innerPuzzleHash puzzleHash,getTreeHash E [] innerPuzzle=some innerPuzzleHash ∧
      ccPuzzleHashForInnerPuzzleHash E P modCode genesisCoinChecker innerPuzzleHash=some puzzleHash ∧
      getTreeHash E [] (ccPuzzleForInnerPuzzle E P modCode genesisCoinChecker innerPuzzle)=some puzzleHash := by
  have hfresh : ∀ b∈bytes32 (modCode.treeHash E)::modCode.atoms,
      b∉[genesisCoinChecker.treeHash E,innerPuzzle.treeHash E].map bytes32 := by
    intro b hb hmem
    simp only [List.map_cons,List.map_nil,List.mem_cons,List.not_mem_nil,or_false] at hmem
    exact hmem.elim (hmod b hb).1 (hmod b hb).2
  apply Exists.intro (innerPuzzle.treeHash E)
  apply Exists.intro _
  refine ⟨getTreeHash_plain innerPuzzle,?_,getTreeHash_plain _⟩
  simp only [ccPuzzleHashForInnerPuzzleHash,getTreeHash_plain,Option.bind_eq_bind,Option.bind_some,
    ccPuzzleForInnerPuzzle,hcurry]
  rw [getTreeHash_eq,treeHashWith_curried,toBytes32_bytes32]
  · exact fun b hb => hfresh b (List.mem_cons_of_mem _ hb)
  · refine .cons ?_ (.cons ?_ (.cons ?_ .nil))
    · exact treeHashWith_eq _ fun b hb => hfresh b (by simp_all [SExp.atoms,SExp.ofBytes32])
    · exact treeHashWith_hash (by simp)
    · exact treeHashWith_hash (by simp)

def byteEnv : Env := { tinyEnv with stdHash := fun b => BitVec.ofNat 256 (natOfBytes b) }

def curryingPrograms : CcPrograms where
  evaluate _ _ := none
  curry := SExp.curried
  ccMod := .atom [2]
  puzzleForPk pk := .atom pk
  genesisCoinIdForGenesisCoinChecker _ := .ok none
  signSynthetic _ _ := []
  aggregate _ := []
  nullSignature := []

theorem ccPuzzleHash_agrees_atoms :
    ∃ innerPuzzleHash puzzleHash,getTreeHash byteEnv [] (.atom [7])=some innerPuzzleHash ∧
      ccPuzzleHashForInnerPuzzleHash byteEnv curryingPrograms (.pair (.atom [5]) (.atom [])) (.atom [6]) innerPuzzleHash =
        some puzzleHash ∧
      getTreeHash byteEnv [] (ccPuzzleForInnerPuzzle byteEnv curryingPrograms (.pair (.atom [5]) (.atom [])) (.atom [6])
        (.atom [7]))=some puzzleHash :=
  ccPuzzleHash_agrees byteEnv curryingPrograms _ _ _ (fun _ _ => rfl) (by decide +kernel)

variable (E)

/-- `bytes32(b)`. -/
def sizedBytes32 (b : Bytes) : Check Bytes32 := if b.length=32 then .ok (toBytes32 b) else .error (.raised .value)

/-- `_tree_hash` of `program.py`. -/
def recursiveTreeHash (precalculated : List Bytes32) : SExp → Check Bytes32
  | .pair first rest => do
    let left ← recursiveTreeHash precalculated first
    let right ← recursiveTreeHash precalculated rest
    return E.stdHash (2::(bytes32 left++bytes32 right))
  | .atom atom =>
    if atom∈precalculated.map bytes32 then sizedBytes32 atom else return E.stdHash (1::atom)

/-- One round of the loop over `op_stack`. -/
def TreeStacks.Next (precalculated : List Bytes) (z z' : TreeStacks) : Prop :=
  ∃ op ops,z.opStack=op::ops ∧ treeStep E precalculated op z.sexpStack ops=some z'

variable {E}

@[simp] theorem sizedBytes32_bytes32 (x : Bytes32) : sizedBytes32 (bytes32 x) = .ok x := by
  simp [sizedBytes32,bytes32_length,toBytes32_bytes32]

theorem treeLoop_reaches {precalculated : List Bytes} (h : treeLoop E precalculated z=some stack) :
    Relation.ReflTransGen (TreeStacks.Next E precalculated) z ⟨stack,[]⟩ := by
  induction z using treeLoop.induct E precalculated with
  | case1 stack' =>
    rw [treeLoop_nil] at h
    rw [Option.some.inj h]
  | case2 stack' op ops hstep =>
    rw [treeLoop] at h
    split at h
    · cases h
    · next z' hsome =>
      rw [hstep] at hsome
      cases hsome
  | case3 stack' op ops z' hstep ih =>
    rw [treeLoop_step hstep] at h
    exact .head ⟨op,ops,rfl,hstep⟩ (ih h)

theorem recursiveTreeHash_eq (precalculated : List Bytes32) (s : SExp) : ∃ h,
    recursiveTreeHash E precalculated s = .ok h ∧ treeHashWith E (precalculated.map bytes32) s=bytes32 h := by
  induction s with
  | atom b =>
    by_cases hmem : b∈precalculated.map bytes32
    · obtain ⟨x,hx,rfl⟩ := List.mem_map.mp hmem
      exact ⟨x,by simp [recursiveTreeHash,hmem],by simp [treeHashWith,hmem]⟩
    · exact ⟨E.stdHash (1::b),by simp [recursiveTreeHash,hmem,pure,Except.pure],by simp [treeHashWith,hmem]⟩
  | pair first rest ihFirst ihRest =>
    obtain ⟨left,hleft,hleft'⟩ := ihFirst
    obtain ⟨right,hright,hright'⟩ := ihRest
    apply Exists.intro (E.stdHash (2::(bytes32 left++bytes32 right)))
    constructor
    · rw [recursiveTreeHash,hleft,hright]
      rfl
    · rw [treeHashWith,hleft',hright']

/-- The machine with two stacks ends with one value on them, the hash of the recursion, which it returns. -/
theorem sha256Treehash_recursive (E : Env) (precalculated : List Bytes32) (s : SExp) : ∃ h,
    recursiveTreeHash E precalculated s = .ok h ∧
    Relation.ReflTransGen (TreeStacks.Next E (precalculated.map bytes32)) ⟨[.sexp s],[.handleSexp]⟩
      ⟨[.hash (bytes32 h)],[]⟩ ∧
    treeLoop E (precalculated.map bytes32) ⟨[.sexp s],[.handleSexp]⟩=some [.hash (bytes32 h)] ∧
    sha256Treehash E (precalculated.map bytes32) s=some h := by
  obtain ⟨h,hrec,hwith⟩ := recursiveTreeHash_eq (E := E) precalculated s
  have hloop : treeLoop E (precalculated.map bytes32) ⟨[.sexp s],[.handleSexp]⟩=some [.hash (bytes32 h)] := by
    rw [treeLoop_sexp,treeLoop_nil,hwith]
  refine ⟨h,hrec,treeLoop_reaches hloop,hloop,?_⟩
  simp [sha256Treehash,hloop,bytes32_length,toBytes32_bytes32]

end RoseChain
