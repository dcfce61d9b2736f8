import RoseChain.Wallet.LightClient

namespace RoseChain
open Lib MerkleSet MerkleNode
namespace WalletNode
variable {E : Env} {added : List Coin} {root : Bytes32} {res : RespondAdditions}

theorem falseOnAssertion_eq_true {x : Check Bool} : falseOnAssertion x = .ok true ↔ x = .ok true := by
  unfold falseOnAssertion
  split
  · exact ⟨fun h => by simp at h,fun h => by simp at h⟩
  · rfl

theorem validateAdditionProofs_all {coins : List ListedCoins} {proofs : List AdditionProof}
    (h : validateAdditionProofs E root coins proofs = .ok true) :
    ∀ e∈coins,∃ proof∈proofs,validateAddition E root e proof = .ok true := by
  induction coins generalizing proofs with
  | nil => simp
  | cons e coins ih =>
    cases proofs with
    | nil => cases h
    | cons proof proofs =>
      obtain ⟨-,-,h⟩ := bind_ok.mp h
      obtain ⟨he,hrest⟩ := continue_if_true h
      intro e' he'
      rcases List.mem_cons.mp he' with rfl | he'
      · exact ⟨proof,List.mem_cons_self,he⟩
      · obtain ⟨proof',hmem,hok⟩ := ih hrest e' he'
        exact ⟨proof',List.mem_cons_of_mem _ hmem,hok⟩

def entryStrings (E : Env) (proof : AdditionProof) : List Bytes :=
  proofHashed E.toOracles proof.2.1++(proof.2.2.map (proofHashed E.toOracles)).getD []

/-- The strings that a response makes the wallet hash for the set. -/
def AdditionStrings (E : Env) (res : RespondAdditions) : List Bytes :=
  match res.proofs with
  | none => treeStrings E.toOracles (listedLeaves E res.coins)
  | some proofs => proofs.flatMap (entryStrings E)

/-- The strings of the coin lists of the block and of the response. -/
def coinListStrings (E : Env) (added : List Coin) (res : RespondAdditions) : List Bytes :=
  (added.map fun c => coinListString E (coinsWith added c.puzzleHash))++res.coins.map fun e => coinListString E e.2

/-- No two strings that are hashed for the block or for the response have one hash. -/
structure SoundHashes (E : Env) (added : List Coin) (res : RespondAdditions) : Prop where
  sets : CollisionFree E.toOracles (treeStrings E.toOracles (additionLeaves E added)++AdditionStrings E res)
  lists : ∀ s∈coinListStrings E added res,∀ s'∈coinListStrings E added res,E.stdHash s=E.stdHash s' → s=s'
  names : ∀ c∈added++res.coins.flatMap (·.2),∀ c'∈added++res.coins.flatMap (·.2),
    E.coinName c=E.coinName c' → c=c'

/-- Every entry lists the additions under its puzzle hash, and no asked addition is missing. -/
structure AdditionsRight (added : List Coin) (additions : List Bytes32) (getAllAdditions : Bool) (res : RespondAdditions)
    (coins : List Coin) : Prop where
  listed : ∀ e∈res.coins,e.2.Perm (coinsWith added e.1)
  complete : ∀ c∈added,Asked additions getAllAdditions c.puzzleHash → c∈coins

/-- What `validate_additions` does not look at. -/
structure AdditionsBound (E : Env) (added : List Coin) (additions : List Bytes32) (getAllAdditions : Bool)
    (res : RespondAdditions) : Prop where
  carried : ∀ e∈res.coins,∀ c∈e.2,c.puzzleHash=e.1
  /-- A puzzle hash of the block that is the hash of a listed coin list is also that of a coin list of the block. -/
  typed : ∀ e∈res.coins,(∃ c∈added,c.puzzleHash=hashCoinList E e.2) → e.2≠[] →
    ∃ c∈added,hashCoinList E (coinsWith added c.puzzleHash)=hashCoinList E e.2
  absent : res.proofs=none → ∀ e∈res.coins,e.2=[] → ∀ c∈added,c.puzzleHash≠e.1
  covered : ∀ c∈added,Asked additions getAllAdditions c.puzzleHash → ∃ e∈res.coins,e.1=c.puzzleHash

section Accepted
variable (hroot : additionsRootOf E added = .ok root)
include hroot

variable {e : ListedCoins}

theorem validateAddition_sound {proof : AdditionProof}
    (hcol : CollisionFree E.toOracles (treeStrings E.toOracles (additionLeaves E added)++entryStrings E proof))
    (h : validateAddition E root e proof = .ok true) :
    (e.2=[] → e.1∉additionLeaves E added) ∧ (e.2≠[] → hashCoinList E e.2∈additionLeaves E added) := by
  have hcol₁ : CollisionFree E.toOracles
      (treeStrings E.toOracles (additionLeaves E added)++proofHashed E.toOracles proof.2.1) := by
    refine collisionFree_mono hcol fun s hs => ?_
    rcases List.mem_append.mp hs with hs | hs
    · exact List.mem_append_left _ hs
    · exact List.mem_append_right _ (List.mem_append_left _ hs)
  unfold validateAddition at h
  split_ifs at h with hnil
  · exact ⟨fun _ => (confirm_rootOf hroot hcol₁).2 h,fun hne => absurd hnil hne⟩
  · refine ⟨fun hnil' => absurd hnil' hnil,fun _ => ?_⟩
    obtain ⟨hincluded,-⟩ := continue_if_true h
    rw [falseOnAssertion_eq_true] at hincluded
    cases hlist : proof.2.2 with
    | none => simp [hlist] at hincluded
    | some coinListProof =>
      rw [hlist] at hincluded
      refine (confirm_rootOf hroot (collisionFree_mono hcol fun s hs => ?_)).1 hincluded
      rcases List.mem_append.mp hs with hs | hs
      · exact List.mem_append_left _ hs
      · exact List.mem_append_right _ (List.mem_append_right _ (by simpa [hlist] using hs))

variable (hsound : SoundHashes E added res) (h : validateAdditions E res.coins res.proofs root = .ok true)
include hsound h

theorem mem_leaves_of_root (hproofs : res.proofs=none) (v : Bytes32) :
    v∈additionLeaves E added ↔ v∈listedLeaves E res.coins := by
  have hcol := hsound.sets
  simp only [AdditionStrings,hproofs] at hcol
  rw [hproofs] at h
  obtain ⟨root',hroot',heq⟩ := bind_ok.mp h
  have hsame : root=root' := of_decide_eq_true (Except.ok.inj heq)
  subst hsame
  exact rootOf_inj hroot hroot' hcol v

theorem entry_of_proof {proofs : List AdditionProof} (hproofs : res.proofs=some proofs)
    (he : e∈res.coins) : (e.2=[] → e.1∉additionLeaves E added) ∧
      (e.2≠[] → hashCoinList E e.2∈additionLeaves E added) := by
  have hcol := hsound.sets
  simp only [AdditionStrings,hproofs] at hcol
  rw [hproofs] at h
  obtain ⟨proof,hmem,hok⟩ := validateAdditionProofs_all h e he
  apply validateAddition_sound hroot _ hok
  refine collisionFree_mono hcol (List.append_subset.mpr ⟨List.subset_append_left _ _,fun s hs => ?_⟩)
  exact List.mem_append_right _ (List.mem_flatMap.mpr ⟨proof,hmem,hs⟩)

theorem hashCoinList_mem_leaves (he : e∈res.coins) (hne : e.2≠[]) :
    hashCoinList E e.2∈additionLeaves E added := by
  cases hproofs : res.proofs with
  | none =>
    rw [mem_leaves_of_root hroot hsound h hproofs]
    exact List.mem_flatMap.mpr ⟨e,he,by simp⟩
  | some proofs => exact (entry_of_proof hroot hsound h hproofs he).2 hne

variable {additions : List Bytes32} {all : Bool}

theorem coinsWith_eq_nil (hbound : AdditionsBound E added additions all res)
    (he : e∈res.coins) (hnil : e.2=[]) : coinsWith added e.1=[] := by
  rw [List.eq_nil_iff_forall_not_mem]
  intro c hc
  obtain ⟨hc,hph⟩ := mem_coinsWith.mp hc
  cases hproofs : res.proofs with
  | none => exact hbound.absent hproofs e he hnil c hc hph
  | some proofs =>
    exact (entry_of_proof hroot hsound h hproofs he).1 hnil (mem_additionLeaves.mpr (Or.inl ⟨c,hc,hph⟩))

theorem listed_perm (hbound : AdditionsBound E added additions all res)
    (he : e∈res.coins) : e.2.Perm (coinsWith added e.1) := by
  by_cases hnil : e.2=[]
  · rw [coinsWith_eq_nil hroot hsound h hbound he hnil,hnil]
  · have hlist : ∃ c∈added,hashCoinList E (coinsWith added c.puzzleHash)=hashCoinList E e.2 := by
      rcases mem_additionLeaves.mp (hashCoinList_mem_leaves hroot hsound h he hnil) with hph | hlist
      · exact hbound.typed e he hph hnil
      · exact hlist
    obtain ⟨c,hc,hhash⟩ := hlist
    have hstring := hsound.lists _ (List.mem_append_left _ (List.mem_map_of_mem hc)) _
      (List.mem_append_right _ (List.mem_map_of_mem he)) hhash
    have hperm : (coinsWith added c.puzzleHash).Perm e.2 := by
      apply perm_of_coinListString hstring
      have hsub : coinsWith added c.puzzleHash++e.2 ⊆ added++res.coins.flatMap (·.2) := by
        intro x hx
        rcases List.mem_append.mp hx with hx | hx
        · exact List.mem_append_left _ (mem_coinsWith.mp hx).1
        · exact List.mem_append_right _ (List.mem_flatMap.mpr ⟨e,he,hx⟩)
      exact fun x hx y hy => hsound.names x (hsub hx) y (hsub hy)
    -- The two lists share a coin, which carries both puzzle hashes.
    have hcmem : c∈e.2 := hperm.subset (mem_coinsWith.mpr ⟨hc,rfl⟩)
    rw [← hbound.carried e he c hcmem]
    exact hperm.symm

end Accepted

theorem getAdditions_accepted {additions : Option (List Bytes32)} {getAllAdditions : Bool}
    {peer : Option (List Bytes32) → PeerAnswer RespondAdditions} (hasked : additions.getD []≠[] ∨ getAllAdditions=true)
    (hpeer : peer (if getAllAdditions then none else additions) = .respond res)
    (h : validateAdditions E res.coins res.proofs root = .ok true) :
    getAdditions E root additions getAllAdditions peer = .ok (some (res.coins.flatMap fun e => sortCoinList E e.2)) := by
  simp only [getAdditions]
  rw [if_pos hasked,hpeer]
  dsimp only
  rw [bind_of_ok h,if_pos rfl]
  rfl

/-- An accepted response is right exactly when it has what `validate_additions` does not look at. -/
theorem getAdditions_right_iff {additions : Option (List Bytes32)} {getAllAdditions : Bool}
    {peer : Option (List Bytes32) → PeerAnswer RespondAdditions} (hroot : additionsRootOf E added = .ok root)
    (hsound : SoundHashes E added res) (hasked : additions.getD []≠[] ∨ getAllAdditions=true)
    (hpeer : peer (if getAllAdditions then none else additions) = .respond res)
    (hvalid : validateAdditions E res.coins res.proofs root = .ok true) :
    (∃ coins,getAdditions E root additions getAllAdditions peer = .ok (some coins) ∧
      AdditionsRight added (additions.getD []) getAllAdditions res coins) ↔
      AdditionsBound E added (additions.getD []) getAllAdditions res := by
  rw [getAdditions_accepted hasked hpeer hvalid]
  constructor
  · rintro ⟨coins,hcoins,hlisted,hcomplete⟩
    obtain rfl := Option.some.inj (Except.ok.inj hcoins)
    have hcarried (e : ListedCoins) (he : e∈res.coins) (c : Coin) (hc : c∈e.2) : c∈added ∧ c.puzzleHash=e.1 :=
      mem_coinsWith.mp ((hlisted e he).subset hc)
    refine ⟨fun e he c hc => (hcarried e he c hc).2,fun e he _ hne => ?_,fun _ e he hnil c hc hph => ?_,
      fun c hc hask => ?_⟩
    · obtain ⟨c,hc⟩ := List.exists_mem_of_ne_nil _ hne
      obtain ⟨hadded,hph⟩ := hcarried e he c hc
      exact ⟨c,hadded,by rw [hph,hashCoinList_perm (hlisted e he)]⟩
    · have hmem := (hlisted e he).symm.subset (mem_coinsWith.mpr ⟨hc,hph⟩)
      rw [hnil] at hmem
      exact absurd hmem List.not_mem_nil
    · obtain ⟨e,he,hce⟩ := List.mem_flatMap.mp (hcomplete c hc hask)
      exact ⟨e,he,((hcarried e he c ((sortCoinList_perm e.2).subset hce)).2).symm⟩
  · intro hbound
    refine ⟨_,rfl,fun e he => listed_perm hroot hsound hvalid hbound he,fun c hc hask => ?_⟩
    obtain ⟨e,he,hph⟩ := hbound.covered c hc hask
    have hmem := (listed_perm hroot hsound hvalid hbound he).symm.subset (mem_coinsWith.mpr ⟨hc,hph.symm⟩)
    exact List.mem_flatMap.mpr ⟨e,he,(sortCoinList_perm e.2).symm.subset hmem⟩

def lowCoin : Coin := { parentCoinInfo := 2^254,puzzleHash := 5,amount := 4 }

def highCoin : Coin := { parentCoinInfo := 2^255+2^254,puzzleHash := 2^255,amount := 4 }

def fullAdditions : RespondAdditions := { coins := [(5,[lowCoin]),(2^255,[highCoin])],proofs := none }

/-- The same set, with the hash of a coin list in the place of a puzzle hash. -/
def hidingAdditions : RespondAdditions :=
  { coins := [(5,[lowCoin]),(2^255,[lowCoin]),(hashCoinList clientEnv [highCoin],[lowCoin])],proofs := none }

example : (hashCoinList clientEnv [highCoin])≠hashCoinList clientEnv [lowCoin] := by decide +kernel

theorem soundHashes_full : SoundHashes clientEnv [lowCoin,highCoin] fullAdditions :=
  ⟨⟨by decide +kernel,by decide +kernel⟩,by decide +kernel,by decide +kernel⟩

theorem soundHashes_hiding : SoundHashes clientEnv [lowCoin,highCoin] hidingAdditions :=
  ⟨⟨by decide +kernel,by decide +kernel⟩,by decide +kernel,by decide +kernel⟩

theorem getAdditions_right_iff_full : ∃ coins,getAdditions clientEnv (2^255+2^254+2^100+224) (some [5])
    false (fun _ => .respond fullAdditions) = .ok (some coins) ∧
    AdditionsRight [lowCoin,highCoin] [5] false fullAdditions coins := by
  have hasked : (some [(5 : Bytes32)]).getD []≠[] ∨ false=true := Or.inl (by decide)
  refine (getAdditions_right_iff (by decide +kernel) soundHashes_full hasked rfl (by decide +kernel)).mpr ?_
  exact ⟨by decide +kernel,by decide +kernel,fun _ => by decide +kernel,by decide +kernel⟩

/-- An addition is hidden from the wallet that asks for its puzzle hash. -/
theorem getAdditions_hides_coin : SoundHashes clientEnv [lowCoin,highCoin] hidingAdditions ∧
    ∃ root,additionsRootOf clientEnv [lowCoin,highCoin] = .ok root ∧
      validateAdditions clientEnv hidingAdditions.coins none root = .ok true ∧
      getAdditions clientEnv root (some [highCoin.puzzleHash]) false (fun _ => .respond hidingAdditions) =
        .ok (some [lowCoin,lowCoin,lowCoin]) ∧
      ¬ AdditionsRight [lowCoin,highCoin] [highCoin.puzzleHash] false hidingAdditions [lowCoin,lowCoin,lowCoin] := by
  refine ⟨soundHashes_hiding,2^255+2^254+2^100+224,by decide +kernel,by decide +kernel,by decide +kernel,
    fun hright => ?_⟩
  exact absurd (hright.complete highCoin (by simp) (Or.inr (by simp))) (by decide +kernel)

end WalletNode

end RoseChain
