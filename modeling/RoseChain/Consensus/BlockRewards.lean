import RoseChain.Consensus.View

namespace RoseChain

def blocksPerYear : ℕ := 1681920

def mojoPerChia : ℕ := 1000000000

/-- The pool's seven eighths of the reward, in whole mojos. -/
def calculatePoolReward (height : ℕ) : ℕ :=
  if height=0 then 7*201710200*mojoPerChia / 8
  else if height<3*blocksPerYear then 7*200*mojoPerChia / 8
  else if height<6*blocksPerYear then 7*100*mojoPerChia / 8
  else if height<9*blocksPerYear then 7*50*mojoPerChia / 8
  else if height<12*blocksPerYear then 7*25*mojoPerChia / 8
  else if height<15*blocksPerYear then 7*25*mojoPerChia / 16
  else 7*mojoPerChia / 8

def calculateBaseFarmerReward (height : ℕ) : ℕ :=
  if height=0 then 201710200*mojoPerChia / 8
  else if height<3*blocksPerYear then 200*mojoPerChia / 8
  else if height<6*blocksPerYear then 100*mojoPerChia / 8
  else if height<9*blocksPerYear then 50*mojoPerChia / 8
  else if height<12*blocksPerYear then 25*mojoPerChia / 8
  else if height<15*blocksPerYear then 25*mojoPerChia / 16
  else mojoPerChia / 8

variable (C : ConsensusConstants)

/-- Half of the genesis challenge, then the height in sixteen bytes. -/
def rewardParentId (half height : ℕ) : Bytes32 := BitVec.ofNat 256 (half*2^128+height % 2^128)

def poolParentId (height : ℕ) : Bytes32 := rewardParentId (C.genesisChallenge.toNat / 2^128) height

def farmerParentId (height : ℕ) : Bytes32 := rewardParentId (C.genesisChallenge.toNat % 2^128) height

def createPoolCoin (height : ℕ) (puzzleHash : Bytes32) (reward : ℕ) : Coin :=
  ⟨poolParentId C height,puzzleHash,reward⟩

def createFarmerCoin (height : ℕ) (puzzleHash : Bytes32) (reward : ℕ) : Coin :=
  ⟨farmerParentId C height,puzzleHash,reward⟩

/-- The two reward coins of a block; its fees go to the farmer. -/
def rewardCoins (b : BlockRecord) (fees : ℕ) : List Coin :=
  [createPoolCoin C b.height b.poolPuzzleHash (calculatePoolReward b.height),
    createFarmerCoin C b.height b.farmerPuzzleHash (calculateBaseFarmerReward b.height+fees)]

def ConsensusConstants.HalvesDiffer : Prop :=
  C.genesisChallenge.toNat / 2^128≠C.genesisChallenge.toNat % 2^128

theorem ofNat_inj {x y : ℕ} (hx : x<2^256) (hy : y<2^256)
    (h : BitVec.ofNat 256 x=BitVec.ofNat 256 y) : x=y := by
  have hn := congrArg BitVec.toNat h
  rw [BitVec.toNat_ofNat,BitVec.toNat_ofNat] at hn
  omega

theorem rewardParentId_ne {half half' : ℕ} (h : half<2^128) (h' : half'<2^128)
    (hne : half≠half') (height height' : ℕ) : rewardParentId half height≠rewardParentId half' height' := by
  intro he
  have hlt : height % 2^128<2^128 := Nat.mod_lt _ (by norm_num)
  have hlt' : height' % 2^128<2^128 := Nat.mod_lt _ (by norm_num)
  have hn := ofNat_inj (by omega) (by omega) he
  omega

theorem createPoolCoin_ne (hd : C.HalvesDiffer) (h h' : ℕ) (ph ph' : Bytes32) (a a' : ℕ) :
    createPoolCoin C h ph a≠createFarmerCoin C h' ph' a' := by
  intro he
  have hlt := C.genesisChallenge.isLt
  refine rewardParentId_ne ?_ ?_ hd h h' (congrArg Coin.parentCoinInfo he)
  · exact Nat.div_lt_of_lt_mul (by omega)
  · exact Nat.mod_lt _ (by norm_num)

end RoseChain
