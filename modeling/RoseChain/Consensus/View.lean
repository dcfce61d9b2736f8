import RoseChain.Consensus.Constants

namespace RoseChain
open Lib

/-- The block records a validator can look up, and the main chain by height. -/
structure BlockView where
  blockRecords : Dict Bytes32 BlockRecord
  heights : Dict ℕ Bytes32

namespace BlockView
variable (V : BlockView)

def containsBlock (h : Bytes32) : Bool := V.blockRecords.contains h

def blockRecord (h : Bytes32) : Check BlockRecord := lookup (V.blockRecords.get? h)

def tryBlockRecord (h : Bytes32) : Option BlockRecord := V.blockRecords.get? h

def containsHeight (height : ℕ) : Bool := V.heights.contains height

def heightToHash (height : ℕ) : Check Bytes32 := lookup (V.heights.get? height)

def heightToBlockRecord (height : ℕ) : Check BlockRecord := do V.blockRecord (← V.heightToHash height)

/-- `while not stop(b): b = block_record(b.prev_hash)`, for at most so many blocks. -/
def walk (stop : BlockRecord → Bool) : ℕ → BlockRecord → Check BlockRecord
  | 0,_ => .error (.raised .diverged)
  | n+1,b => if stop b then .ok b else do walk stop n (← V.blockRecord b.prevHash)

/-- No walk visits more blocks than there are heights below its start. -/
def walkBack (stop : BlockRecord → Bool) (b : BlockRecord) : Check BlockRecord :=
  V.walk stop (b.height+1) b

def lastTransactionBlock (b : BlockRecord) : Check BlockRecord := V.walkBack (·.isTransactionBlock) b

variable {V} {stop : BlockRecord → Bool} {b prev : BlockRecord}

theorem walkBack_here (h : stop b=true) : V.walkBack stop b = .ok b := by
  rw [walkBack,walk,if_pos h]

theorem walkBack_prev (hstop : stop b=false) (hprev : V.blockRecord b.prevHash = .ok prev)
    (hheight : b.height=prev.height+1) : V.walkBack stop b=V.walkBack stop prev := by
  rw [walkBack,walk,if_neg (Bool.eq_false_iff.mp hstop),bind_of_ok hprev,hheight]
  rfl

end BlockView
end RoseChain
