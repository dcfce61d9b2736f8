import RoseChain.FullNode.Store
import RoseChain.Wallet.LightClient

namespace RoseChain
open Lib MerkleSet

namespace CoinStore

def getCoinsAddedAtHeight (height : ℕ) : NodeM (List CoinRecord) :=
  fetch fun t => t.coinRecord.values.filter fun r => decide (r.confirmedBlockIndex=height)

def getCoinsRemovedAtHeight (height : ℕ) : NodeM (List CoinRecord) :=
  fetch fun t => t.coinRecord.values.filter fun r => decide (r.spentBlockIndex=height) && r.spent

end CoinStore

namespace FullNodeAPI
variable (E : Env)

/-- `blockchain.height_to_hash`. -/
def heightToHash (height : ℕ) : NodeM Bytes32 := do
  let w ← Eff.get
  Eff.lift (w.chain.view.heightToHash height)

def additionEntry (coinsMap : Dict Bytes32 (List Coin)) (additionMerkleSet : MerkleNode) (puzzleHash : Bytes32) :
    Check (ListedCoins × AdditionProof) := do
  let (result,proof) ← isIncludedAlreadyHashed puzzleHash additionMerkleSet
  match coinsMap.get? puzzleHash with
  | some coins =>
    let (result₂,proof₂) ← isIncludedAlreadyHashed (hashCoinList E coins) additionMerkleSet
    assertThat (result=true)
    assertThat (result₂=true)
    return ((puzzleHash,sortCoinList E coins),puzzleHash,proof,some proof₂)
  | none =>
    assertThat (result=false)
    return ((puzzleHash,[]),puzzleHash,proof,none)

def respondAdditions (additionsRoot : Bytes32) (additions : List Coin) (puzzleHashes : Option (List Bytes32)) :
    Check RespondAdditions :=
  match puzzleHashes with
  | none => .ok { coins := (puzzlehashCoinsMap additions).entries,proofs := none }
  | some puzzleHashes => do
    let additionMerkleSet ← addAll E.toOracles .empty (additionLeaves E additions)
    assertThat ((← getRoot E.toOracles additionMerkleSet)=additionsRoot)
    let entries ← puzzleHashes.mapM (additionEntry E (puzzlehashCoinsMap additions) additionMerkleSet)
    return { coins := entries.map (·.1),proofs := some (entries.map (·.2)) }

def requestAdditions (headerHash : Bytes32) (puzzleHashes : Option (List Bytes32)) :
    NodeM (PeerAnswer RespondAdditions) := do
  match (← BlockStore.getFullBlock headerHash) with
  | none => return .reject
  | some block =>
    match block.foliageTransactionBlock with
    | none => return .reject
    | some foliage =>
      if (← heightToHash block.height)≠headerHash then return .reject
      else
        let additions ← CoinStore.getCoinsAddedAtHeight block.height
        Eff.lift (raiseIf ((← heightToHash block.height)≠headerHash))
        let response ← Eff.lift (respondAdditions E foliage.additionsRoot (additions.map (·.coin)) puzzleHashes)
        return .respond response

/-- `all_removals_dict`. -/
def removalsDict (removals : List Coin) : Dict Bytes32 Coin :=
  removals.foldl (fun d c => d.set (E.coinName c) c) Dict.empty

def removalEntry (removals : Dict Bytes32 Coin) (removalMerkleSet : MerkleNode) (coinName : Bytes32) :
    Check (ListedRemoval × Bytes32 × Bytes) := do
  let (result,proof) ← isIncludedAlreadyHashed coinName removalMerkleSet
  assertThat (result=(removals.get? coinName).isSome)
  return ((coinName,removals.get? coinName),coinName,proof)

def respondRemovals (hasTransactions : Bool) (removalsRoot : Bytes32) (removals : List Coin)
    (coinNames : Option (List Bytes32)) : Check RespondRemovals :=
  if hasTransactions=false then .ok { coins := [],proofs := coinNames.map fun _ => [] }
  else if coinNames.getD []=[] then
    .ok { coins := (removalsDict E removals).entries.map fun e => (e.1,some e.2),proofs := none }
  else do
    let removalMerkleSet ← addAll E.toOracles .empty (removalsDict E removals).keys
    assertThat ((← getRoot E.toOracles removalMerkleSet)=removalsRoot)
    let entries ← (coinNames.getD []).mapM (removalEntry (removalsDict E removals) removalMerkleSet)
    return { coins := entries.map (·.1),proofs := some (entries.map (·.2)) }

def requestRemovals (height : ℕ) (headerHash : Bytes32) (coinNames : Option (List Bytes32)) :
    NodeM (PeerAnswer RespondRemovals) := do
  match (← BlockStore.getFullBlock headerHash) with
  | none => return .reject
  | some block =>
    match block.foliageTransactionBlock with
    | none => return .reject
    | some foliage =>
      if block.height≠height then return .reject
      else
        match (← Eff.get).chain.peakHeight with
        -- comparing with no peak is a type error
        | none => raise .value
        | some peakHeight =>
          if block.height > peakHeight then return .reject
          else if (← heightToHash block.height)≠headerHash then return .reject
          else
            let removals ← CoinStore.getCoinsRemovedAtHeight block.height
            Eff.lift (raiseIf ((← heightToHash block.height)≠headerHash))
            let response ← Eff.lift (respondRemovals E block.transactionsGenerator.isSome foliage.removalsRoot
              (removals.map (·.coin)) coinNames)
            return .respond response

end FullNodeAPI

end RoseChain
