import Mathlib.Algebra.Order.Floor.Ring
import Mathlib.Data.Rat.Floor
import RoseChain.Types.Basic

namespace RoseChain

inductive ProtocolMessageTypes
  | handshake | harvesterHandshake | newProofOfSpace | requestSignatures | respondSignatures
  | newSignagePoint | declareProofOfSpace | requestSignedValues | signedValues | farmingInfo
  | newPeakTimelord | newUnfinishedBlockTimelord | newInfusionPointVdf | newSignagePointVdf
  | newEndOfSubSlotVdf | requestCompactProofOfTime | respondCompactProofOfTime | newPeak
  | newTransaction | requestTransaction | respondTransaction | requestProofOfWeight
  | respondProofOfWeight | requestBlock | respondBlock | rejectBlock | requestBlocks | respondBlocks
  | rejectBlocks | newUnfinishedBlock | requestUnfinishedBlock | respondUnfinishedBlock
  | newSignagePointOrEndOfSubSlot | requestSignagePointOrEndOfSubSlot | respondSignagePoint
  | respondEndOfSubSlot | requestMempoolTransactions | requestCompactVdf | respondCompactVdf
  | newCompactVdf | requestPeers | respondPeers | requestPuzzleSolution | respondPuzzleSolution
  | rejectPuzzleSolution | sendTransaction | transactionAck | newPeakWallet | requestBlockHeader
  | respondBlockHeader | rejectHeaderRequest | requestRemovals | respondRemovals
  | rejectRemovalsRequest | requestAdditions | respondAdditions | rejectAdditionsRequest
  | requestHeaderBlocks | rejectHeaderBlocks | respondHeaderBlocks | requestPeersIntroducer
  | respondPeersIntroducer | farmNewBlock | newSignagePointHarvester | requestPlots | respondPlots
  deriving DecidableEq

namespace ProtocolMessageTypes

/-- `ProtocolMessageTypes(value)`; another value raises. -/
def ofValue : ℕ → Option ProtocolMessageTypes
  | 2 => some .handshake
  | 4 => some .harvesterHandshake
  | 6 => some .newProofOfSpace
  | 7 => some .requestSignatures
  | 8 => some .respondSignatures
  | 9 => some .newSignagePoint
  | 10 => some .declareProofOfSpace
  | 11 => some .requestSignedValues
  | 12 => some .signedValues
  | 13 => some .farmingInfo
  | 14 => some .newPeakTimelord
  | 15 => some .newUnfinishedBlockTimelord
  | 16 => some .newInfusionPointVdf
  | 17 => some .newSignagePointVdf
  | 18 => some .newEndOfSubSlotVdf
  | 19 => some .requestCompactProofOfTime
  | 20 => some .respondCompactProofOfTime
  | 21 => some .newPeak
  | 22 => some .newTransaction
  | 23 => some .requestTransaction
  | 24 => some .respondTransaction
  | 25 => some .requestProofOfWeight
  | 26 => some .respondProofOfWeight
  | 27 => some .requestBlock
  | 28 => some .respondBlock
  | 29 => some .rejectBlock
  | 30 => some .requestBlocks
  | 31 => some .respondBlocks
  | 32 => some .rejectBlocks
  | 33 => some .newUnfinishedBlock
  | 34 => some .requestUnfinishedBlock
  | 35 => some .respondUnfinishedBlock
  | 36 => some .newSignagePointOrEndOfSubSlot
  | 37 => some .requestSignagePointOrEndOfSubSlot
  | 38 => some .respondSignagePoint
  | 39 => some .respondEndOfSubSlot
  | 40 => some .requestMempoolTransactions
  | 41 => some .requestCompactVdf
  | 42 => some .respondCompactVdf
  | 43 => some .newCompactVdf
  | 44 => some .requestPeers
  | 45 => some .respondPeers
  | 46 => some .requestPuzzleSolution
  | 47 => some .respondPuzzleSolution
  | 48 => some .rejectPuzzleSolution
  | 49 => some .sendTransaction
  | 50 => some .transactionAck
  | 51 => some .newPeakWallet
  | 52 => some .requestBlockHeader
  | 53 => some .respondBlockHeader
  | 54 => some .rejectHeaderRequest
  | 55 => some .requestRemovals
  | 56 => some .respondRemovals
  | 57 => some .rejectRemovalsRequest
  | 58 => some .requestAdditions
  | 59 => some .respondAdditions
  | 60 => some .rejectAdditionsRequest
  | 61 => some .requestHeaderBlocks
  | 62 => some .rejectHeaderBlocks
  | 63 => some .respondHeaderBlocks
  | 64 => some .requestPeersIntroducer
  | 65 => some .respondPeersIntroducer
  | 66 => some .farmNewBlock
  | 67 => some .newSignagePointHarvester
  | 68 => some .requestPlots
  | 69 => some .respondPlots
  | _ => none

end ProtocolMessageTypes

structure Message where
  type : ℕ
  id : Option ℕ
  data : Bytes
  deriving DecidableEq

structure RLSettings where
  frequency : ℕ
  maxSize : ℕ
  maxTotalSize : Option ℕ
  deriving DecidableEq

def DEFAULT_SETTINGS : RLSettings := ⟨100,1024*1024,some (100*1024*1024)⟩
def NON_TX_FREQ : ℕ := 1000
def NON_TX_MAX_TOTAL_SIZE : ℕ := 100*1024*1024

def rateLimitsTx : ProtocolMessageTypes → Option RLSettings
  | .newTransaction => some ⟨5000,100,some (5000*100)⟩
  | .requestTransaction => some ⟨5000,100,some (5000*100)⟩
  | .respondTransaction => some ⟨5000,1*1024*1024,some (20*1024*1024)⟩
  | .sendTransaction => some ⟨5000,1024*1024,none⟩
  | .transactionAck => some ⟨5000,2048,none⟩
  | _ => none

def rateLimitsOther : ProtocolMessageTypes → Option RLSettings
  | .handshake => some ⟨5,10*1024,some (5*10*1024)⟩
  | .harvesterHandshake => some ⟨5,1024*1024,none⟩
  | .newSignagePointHarvester => some ⟨100,1024,none⟩
  | .newProofOfSpace => some ⟨100,2048,none⟩
  | .requestSignatures => some ⟨100,2048,none⟩
  | .respondSignatures => some ⟨100,2048,none⟩
  | .newSignagePoint => some ⟨200,2048,none⟩
  | .declareProofOfSpace => some ⟨100,10*1024,none⟩
  | .requestSignedValues => some ⟨100,512,none⟩
  | .farmingInfo => some ⟨100,1024,none⟩
  | .signedValues => some ⟨100,1024,none⟩
  | .newPeakTimelord => some ⟨100,20*1024,none⟩
  | .newUnfinishedBlockTimelord => some ⟨100,10*1024,none⟩
  | .newSignagePointVdf => some ⟨100,100*1024,none⟩
  | .newInfusionPointVdf => some ⟨100,100*1024,none⟩
  | .newEndOfSubSlotVdf => some ⟨100,100*1024,none⟩
  | .requestCompactProofOfTime => some ⟨100,10*1024,none⟩
  | .respondCompactProofOfTime => some ⟨100,100*1024,none⟩
  | .newPeak => some ⟨200,512,none⟩
  | .requestProofOfWeight => some ⟨5,100,none⟩
  | .respondProofOfWeight => some ⟨5,50*1024*1024,some (100*1024*1024)⟩
  | .requestBlock => some ⟨200,100,none⟩
  | .rejectBlock => some ⟨200,100,none⟩
  | .requestBlocks => some ⟨100,100,none⟩
  | .respondBlocks => some ⟨100,50*1024*1024,some (5*50*1024*1024)⟩
  | .rejectBlocks => some ⟨100,100,none⟩
  | .respondBlock => some ⟨200,2*1024*1024,some (10*2*1024*1024)⟩
  | .newUnfinishedBlock => some ⟨200,100,none⟩
  | .requestUnfinishedBlock => some ⟨200,100,none⟩
  | .respondUnfinishedBlock => some ⟨200,2*1024*1024,some (10*2*1024*1024)⟩
  | .newSignagePointOrEndOfSubSlot => some ⟨200,200,none⟩
  | .requestSignagePointOrEndOfSubSlot => some ⟨200,200,none⟩
  | .respondSignagePoint => some ⟨200,50*1024,none⟩
  | .respondEndOfSubSlot => some ⟨100,50*1024,none⟩
  | .requestMempoolTransactions => some ⟨5,1024*1024,none⟩
  | .requestCompactVdf => some ⟨200,1024,none⟩
  | .respondCompactVdf => some ⟨200,100*1024,none⟩
  | .newCompactVdf => some ⟨100,1024,none⟩
  | .requestPeers => some ⟨10,100,none⟩
  | .respondPeers => some ⟨10,1*1024*1024,none⟩
  | .requestPuzzleSolution => some ⟨100,100,none⟩
  | .respondPuzzleSolution => some ⟨100,1024*1024,none⟩
  | .rejectPuzzleSolution => some ⟨100,100,none⟩
  | .newPeakWallet => some ⟨200,300,none⟩
  | .requestBlockHeader => some ⟨500,100,none⟩
  | .respondBlockHeader => some ⟨500,500*1024,none⟩
  | .rejectHeaderRequest => some ⟨500,100,none⟩
  | .requestRemovals => some ⟨500,50*1024,some (10*1024*1024)⟩
  | .respondRemovals => some ⟨500,1024*1024,some (10*1024*1024)⟩
  | .rejectRemovalsRequest => some ⟨500,100,none⟩
  | .requestAdditions => some ⟨500,1024*1024,some (10*1024*1024)⟩
  | .respondAdditions => some ⟨500,1024*1024,some (10*1024*1024)⟩
  | .rejectAdditionsRequest => some ⟨500,100,none⟩
  | .requestHeaderBlocks => some ⟨500,100,none⟩
  | .rejectHeaderBlocks => some ⟨100,100,none⟩
  | .respondHeaderBlocks => some ⟨500,2*1024*1024,some (100*1024*1024)⟩
  | .requestPeersIntroducer => some ⟨100,100,none⟩
  | .respondPeersIntroducer => some ⟨100,1024*1024,none⟩
  | .farmNewBlock => some ⟨200,200,none⟩
  | .requestPlots => some ⟨10,10*1024*1024,none⟩
  | .respondPlots => some ⟨10,100*1024*1024,none⟩
  | _ => none

structure RateLimiter where
  incoming : Bool
  resetSeconds : ℕ
  currentMinute : ℤ
  messageCounts : ProtocolMessageTypes → ℕ
  messageCumulativeSizes : ProtocolMessageTypes → ℕ
  percentageOfLimit : ℤ
  nonTxMessageCounts : ℕ
  nonTxCumulativeSize : ℕ

namespace RateLimiter

def minute (resetSeconds : ℕ) (now : ℚ) : ℤ := ⌊now / resetSeconds⌋

def new (incoming : Bool) (resetSeconds : ℕ) (percentageOfLimit : ℤ) (now : ℚ) : RateLimiter where
  incoming := incoming
  resetSeconds := resetSeconds
  currentMinute := minute resetSeconds now
  messageCounts := fun _ => 0
  messageCumulativeSizes := fun _ => 0
  percentageOfLimit := percentageOfLimit
  nonTxMessageCounts := 0
  nonTxCumulativeSize := 0

def renewed (r : RateLimiter) (now : ℚ) : RateLimiter :=
  if minute r.resetSeconds now≠r.currentMinute then
    { r with
      currentMinute := minute r.resetSeconds now
      messageCounts := fun _ => 0
      messageCumulativeSizes := fun _ => 0
      nonTxMessageCounts := 0
      nonTxCumulativeSize := 0 }
  else r

/-- The limits of a type, and whether the aggregate limit counts it. -/
def limitsOf (type : ProtocolMessageTypes) : RLSettings × Bool :=
  match rateLimitsTx type with
  | some limits => (limits,false)
  | none =>
    match rateLimitsOther type with
    | some limits => (limits,true)
    | none => (DEFAULT_SETTINGS,false)

def counted (r : RateLimiter) (type : ProtocolMessageTypes) (size : ℕ) : RateLimiter :=
  let nonTx := (limitsOf type).2
  { r with
    messageCounts := Function.update r.messageCounts type (r.messageCounts type+1)
    messageCumulativeSizes := Function.update r.messageCumulativeSizes type (r.messageCumulativeSizes type+size)
    nonTxMessageCounts := if nonTx then r.nonTxMessageCounts+1 else r.nonTxMessageCounts
    nonTxCumulativeSize := if nonTx then r.nonTxCumulativeSize+size else r.nonTxCumulativeSize }

/-- Whether the new counts of a message are within the limits. -/
def check (r : RateLimiter) (type : ProtocolMessageTypes) (size : ℕ) : Bool :=
  let new := r.counted type size
  let proportionOfLimit : ℚ := r.percentageOfLimit / 100
  let (limits,nonTx) := limitsOf type
  if nonTx ∧ new.nonTxMessageCounts > NON_TX_FREQ*proportionOfLimit then false
  else if nonTx ∧ new.nonTxCumulativeSize > NON_TX_MAX_TOTAL_SIZE*proportionOfLimit then false
  else
    let maxTotalSize := limits.maxTotalSize.getD (limits.frequency*limits.maxSize)
    if new.messageCounts type > limits.frequency*proportionOfLimit then false
    else if size > limits.maxSize then false
    else if new.messageCumulativeSizes type > maxTotalSize*proportionOfLimit then false
    else true

def processMsgAndCheck (r : RateLimiter) (message : Message) (now : ℚ) : Bool × RateLimiter :=
  let r := r.renewed now
  match ProtocolMessageTypes.ofValue message.type with
  | none => (true,r)
  | some type =>
    let ret := r.check type message.data.length
    (ret,if r.incoming ∨ ret then r.counted type message.data.length else r)

end RateLimiter
end RoseChain
