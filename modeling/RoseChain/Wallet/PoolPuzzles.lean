import RoseChain.Util.ClvmFormat
import RoseChain.Wallet.CcUtils

namespace RoseChain
open Lib

/-- What comes from the CLVM, from the compiled puzzles and from the codec of pool states. -/
structure PoolPuzzles where
  run : SerializedProgram → SerializedProgram → Option SExp
  curry : SExp → List SExp → SExp
  /-- The program itself and nil, when nothing is curried into it. -/
  uncurry : SExp → SExp × SExp
  singletonMod : SExp
  singletonLauncher : SExp
  poolWaitingRoomMod : SExp
  poolMemberMod : SExp
  p2SingletonMod : SExp
  poolStateToBytes : PoolState → Bytes
  poolStateFromBytes : Bytes → Check PoolState

def selfPooling : ℕ := 1

def leavingPool : ℕ := 2

/-- `Program.from_bytes`. -/
def programFromBytes (blob : SerializedProgram) : Check SExp :=
  match sexpFromStream blob with
  | some (program,[]) => .ok program
  | some _ => .error (.raised .assertion)
  | none => .error (.raised .value)

/-- `SerializedProgram.from_program`. -/
def fromProgram (p : SExp) : Check SerializedProgram :=
  match p.asBin with
  | some b => .ok b
  | none => .error (.raised .value)

variable (E : Env)

/-- `get_tree_hash` of a serialized program. -/
def serializedTreeHash (b : SerializedProgram) : Check Bytes32 :=
  match sexpFromStream b with
  | some (program,_) => .ok (program.treeHash E)
  | none => .error (.raised .value)

namespace PoolPuzzles
variable (Z : PoolPuzzles)

def singletonModHash : Bytes32 := Z.singletonMod.treeHash E

def singletonLauncherHash : Bytes32 := Z.singletonLauncher.treeHash E

def poolRewardPrefix (genesisChallenge : Bytes32) : Bytes32 := BitVec.ofNat 256 (genesisChallenge.toNat / 2^128*2^128)

def createP2SingletonPuzzle (singletonModHash launcherId : Bytes32) (secondsDelay : ℤ) (delayedPuzzleHash : Bytes32) : SExp :=
  Z.curry Z.p2SingletonMod [.ofBytes32 singletonModHash,.ofBytes32 launcherId,.ofBytes32 (Z.singletonLauncherHash E),
    .ofInt secondsDelay,.ofBytes32 delayedPuzzleHash]

def launcherIdToP2PuzzleHash (launcherId : Bytes32) (secondsDelay : ℤ) (delayedPuzzleHash : Bytes32) : Bytes32 :=
  (Z.createP2SingletonPuzzle E (Z.singletonModHash E) launcherId secondsDelay delayedPuzzleHash).treeHash E

def createWaitingRoomInnerPuzzle (targetPuzzleHash : Bytes32) (relativeLockHeight : ℕ) (ownerPubkey : G1Element)
    (launcherId genesisChallenge : Bytes32) (delayTime : ℤ) (delayPh : Bytes32) : SExp :=
  Z.curry Z.poolWaitingRoomMod [.ofBytes32 targetPuzzleHash,
    .ofBytes32 (Z.launcherIdToP2PuzzleHash E launcherId delayTime delayPh),.atom ownerPubkey,
    .ofBytes32 (poolRewardPrefix genesisChallenge),.ofInt relativeLockHeight]

def createPoolingInnerPuzzle (targetPuzzleHash poolWaitingRoomInnerHash : Bytes32) (ownerPubkey : G1Element)
    (launcherId genesisChallenge : Bytes32) (delayTime : ℤ) (delayPh : Bytes32) : SExp :=
  Z.curry Z.poolMemberMod [.ofBytes32 targetPuzzleHash,
    .ofBytes32 (Z.launcherIdToP2PuzzleHash E launcherId delayTime delayPh),.atom ownerPubkey,
    .ofBytes32 (poolRewardPrefix genesisChallenge),.ofBytes32 poolWaitingRoomInnerHash]

def poolStateToInnerPuzzle (poolState : PoolState) (launcherId genesisChallenge : Bytes32) (delayTime : ℤ)
    (delayPh : Bytes32) : SExp :=
  let escapingInnerPuzzle := Z.createWaitingRoomInnerPuzzle E poolState.targetPuzzleHash poolState.relativeLockHeight
    poolState.ownerPubkey launcherId genesisChallenge delayTime delayPh
  if poolState.state=leavingPool ∨ poolState.state=selfPooling then escapingInnerPuzzle
  else Z.createPoolingInnerPuzzle E poolState.targetPuzzleHash (escapingInnerPuzzle.treeHash E) poolState.ownerPubkey
    launcherId genesisChallenge delayTime delayPh

def programs : PoolPrograms where
  fromBytes := programFromBytes
  run := Z.run
  poolStateFromBytes := Z.poolStateFromBytes
  launcherIdToP2PuzzleHash := Z.launcherIdToP2PuzzleHash E
  poolStateToInnerPuzzle := Z.poolStateToInnerPuzzle E
  singletonLauncherHash := Z.singletonLauncherHash E

def createFullPuzzle (innerPuzzle : SExp) (launcherId : Bytes32) : SExp :=
  Z.curry Z.singletonMod [.pair (.ofBytes32 (Z.singletonModHash E))
    (.pair (.ofBytes32 launcherId) (.ofBytes32 (Z.singletonLauncherHash E))),innerPuzzle]

def isPoolWaitingroomInnerPuzzle (innerPuzzle : SExp) : Prop := (Z.uncurry innerPuzzle).1=Z.poolWaitingRoomMod

def isPoolMemberInnerPuzzle (innerPuzzle : SExp) : Prop := (Z.uncurry innerPuzzle).1=Z.poolMemberMod

def isPoolSingletonInnerPuzzle (innerPuzzle : SExp) : Prop :=
  (Z.uncurry innerPuzzle).1=Z.poolWaitingRoomMod ∨ (Z.uncurry innerPuzzle).1=Z.poolMemberMod

instance (p : SExp) : Decidable (Z.isPoolWaitingroomInnerPuzzle p) := inferInstanceAs (Decidable (_=_))

instance (p : SExp) : Decidable (Z.isPoolMemberInnerPuzzle p) := inferInstanceAs (Decidable (_=_))

instance (p : SExp) : Decidable (Z.isPoolSingletonInnerPuzzle p) := inferInstanceAs (Decidable (_ ∨ _))

def getInnerPuzzleFromPuzzle (fullPuzzle : SExp) : Check (Option SExp) := do
  let p ← programFromBytes (← fromProgram fullPuzzle)
  match (Z.uncurry p).2.asIter with
  | some [_,innerPuzzle] => return if Z.isPoolSingletonInnerPuzzle innerPuzzle then some innerPuzzle else none
  | _ => .error (.raised .value)

/-- Parent and amount of the launcher for its first child, else what proves the lineage. -/
def parentInfoList (lastCoinSpend : CoinSpend) (launcherCoin currentSingleton : Coin) : Check SExp :=
  if currentSingleton.parentCoinInfo=E.coinName launcherCoin then
    return .ofList [.ofBytes32 launcherCoin.parentCoinInfo,.ofInt launcherCoin.amount]
  else do
    let p ← programFromBytes lastCoinSpend.puzzleReveal
    let lastCoinSpendInnerPuzzle ← assertSome (← Z.getInnerPuzzleFromPuzzle p)
    return .ofList [.ofBytes32 lastCoinSpend.coin.parentCoinInfo,.ofBytes32 (lastCoinSpendInnerPuzzle.treeHash E),
      .ofInt lastCoinSpend.coin.amount]

/-- `[("p", bytes(target))]`. -/
def keyValueList (target : PoolState) : SExp := .ofList [.pair (.atom [112]) (.atom (Z.poolStateToBytes target))]

/-- The inner solution by which the member and the waiting room escape. -/
def travelInnerSol (innerPuzzle destinationInner : SExp) (target : PoolState) : Check SExp :=
  if Z.isPoolMemberInnerPuzzle innerPuzzle then .ok (.ofList [Z.keyValueList target,.ofInt 0])
  else if Z.isPoolWaitingroomInnerPuzzle innerPuzzle then
    .ok (.ofList [.ofInt 1,Z.keyValueList target,.ofBytes32 (destinationInner.treeHash E)])
  else .error (.raised .value)

def absorbInnerSol (innerPuzzle : SExp) (rewardAmount height : ℕ) : Check SExp :=
  if Z.isPoolMemberInnerPuzzle innerPuzzle then .ok (.ofList [.ofInt rewardAmount,.ofInt height])
  else if Z.isPoolWaitingroomInnerPuzzle innerPuzzle then .ok (.ofList [.ofInt 0,.ofInt rewardAmount,.ofInt height])
  else .error (.raised .value)

def createTravelSpend (lastCoinSpend : CoinSpend) (launcherCoin : Coin) (current target : PoolState)
    (genesisChallenge : Bytes32) (delayTime : ℤ) (delayPh : Bytes32) : Check (CoinSpend × SExp) := do
  let launcherId := E.coinName launcherCoin
  let innerPuzzle := Z.poolStateToInnerPuzzle E current launcherId genesisChallenge delayTime delayPh
  let destinationInner := Z.poolStateToInnerPuzzle E target launcherId genesisChallenge delayTime delayPh
  let innerSol ← Z.travelInnerSol E innerPuzzle destinationInner target
  let currentSingleton ← assertSome (← getMostRecentSingletonCoinFromCoinSpend E (Z.programs E) lastCoinSpend)
  let parentInfo ← Z.parentInfoList E lastCoinSpend launcherCoin currentSingleton
  let fullSolution := SExp.ofList [parentInfo,.ofInt currentSingleton.amount,innerSol]
  let fullPuzzle := Z.createFullPuzzle E innerPuzzle launcherId
  return (⟨currentSingleton,← fromProgram fullPuzzle,← fromProgram fullSolution⟩,innerPuzzle)

def createAbsorbSpend (lastCoinSpend : CoinSpend) (currentState : PoolState) (launcherCoin : Coin) (height : ℕ)
    (genesisChallenge : Bytes32) (delayTime : ℤ) (delayPh : Bytes32) : Check (List CoinSpend) := do
  let launcherId := E.coinName launcherCoin
  let innerPuzzle := Z.poolStateToInnerPuzzle E currentState launcherId genesisChallenge delayTime delayPh
  let rewardAmount := calculatePoolReward height
  let innerSol ← Z.absorbInnerSol innerPuzzle rewardAmount height
  let coin ← assertSome (← getMostRecentSingletonCoinFromCoinSpend E (Z.programs E) lastCoinSpend)
  let parentInfo ← Z.parentInfoList E lastCoinSpend launcherCoin coin
  let fullSolution ← fromProgram (.ofList [parentInfo,.ofInt lastCoinSpend.coin.amount,innerSol])
  let fullPuzzle ← fromProgram (Z.createFullPuzzle E innerPuzzle launcherId)
  assertThat (coin.puzzleHash=(← serializedTreeHash E fullPuzzle))
  let rewardParent := rewardParentId (genesisChallenge.toNat / 2^128) height
  let p2SingletonPuzzle ← fromProgram (Z.createP2SingletonPuzzle E (Z.singletonModHash E) launcherId delayTime delayPh)
  let rewardCoin : Coin := ⟨rewardParent,← serializedTreeHash E p2SingletonPuzzle,rewardAmount⟩
  let p2SingletonSolution ← fromProgram (.ofList [.ofBytes32 (innerPuzzle.treeHash E),.ofBytes32 (E.coinName rewardCoin)])
  assertThat ((← serializedTreeHash E p2SingletonPuzzle)=rewardCoin.puzzleHash)
  assertThat ((← serializedTreeHash E fullPuzzle)=coin.puzzleHash)
  let _ ← assertSome (← Z.getInnerPuzzleFromPuzzle (← programFromBytes fullPuzzle))
  return [⟨coin,fullPuzzle,fullSolution⟩,⟨rewardCoin,p2SingletonPuzzle,p2SingletonSolution⟩]

end PoolPuzzles

end RoseChain
