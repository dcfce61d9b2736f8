import RoseChain.Wallet.LightClient

namespace RoseChain
open Lib MerkleSet MerkleNode
namespace WalletNode
variable {E : Env} {removed removals : List Bytes32} {root : Bytes32} {coins : List ListedRemoval} {res : RespondRemovals}

theorem validateRemovalProofs_all {l : List (ListedRemoval × Bytes32 × Bytes)}
    (h : validateRemovalProofs E root l = .ok true) : ∀ e∈l,validateRemoval E root e.1 e.2 = .ok true := by
  induction l with
  | nil => simp
  | cons e l ih =>
    obtain ⟨he,hl⟩ := continue_if_true h
    exact List.forall_mem_cons.mpr ⟨he,ih hl⟩

def RemovalStrings (E : Env) (res : RespondRemovals) : List Bytes :=
  match res.proofs with
  | none => treeStrings E.toOracles ((res.coins.filterMap (·.2)).map E.coinName)
  | some proofs => proofs.flatMap fun proof => proofHashed E.toOracles proof.2

/-- What `validate_removals` misses: without proofs the names, with proofs that all of the request is listed. -/
def RemovalsBound (E : Env) (removed removals : List Bytes32) (requestAllRemovals : Bool) (res : RespondRemovals) : Prop :=
  match res.proofs with
  | none => ∀ e∈res.coins,∀ c,e.2=some c → e.1=E.coinName c
  | some _ => ∀ name∈removed,Asked removals requestAllRemovals name → ∃ e∈res.coins,e.1=name

/-- The coins are right: the asked ones that the block removes, and no coin that it does not remove. -/
structure RemovalsRight (E : Env) (removed removals : List Bytes32) (requestAllRemovals : Bool) (res : RespondRemovals)
    (coins : List Coin) : Prop where
  complete : ∀ name∈removed,Asked removals requestAllRemovals name → ∃ c∈coins,E.coinName c=name
  sound : ∀ c∈coins,E.coinName c∈removed
  named : ∀ e∈res.coins,∀ c,e.2=some c → e.1=E.coinName c

theorem validateRemoval_sound {e : ListedRemoval} {proof : Bytes32 × Bytes} (hroot : removalsRootOf E removed = .ok root)
    (hcol : CollisionFree E.toOracles (treeStrings E.toOracles removed++proofHashed E.toOracles proof.2))
    (h : validateRemoval E root e proof = .ok true) :
    (e.2=none → e.1∉removed) ∧ ∀ c,e.2=some c → e.1=E.coinName c ∧ E.coinName c∈removed := by
  obtain ⟨name,coin⟩ := e
  simp only [validateRemoval] at h
  by_cases hname : name=proof.1
  · rw [if_neg (not_not.mpr hname)] at h
    cases coin with
    | none => exact ⟨fun _ => (confirm_rootOf hroot hcol).2 h,fun c hc => by cases hc⟩
    | some coin =>
      dsimp only at h
      by_cases hcoin : name=E.coinName coin
      · rw [if_neg (not_not.mpr hcoin)] at h
        refine ⟨fun hno => absurd hno (by simp),fun c hc => ?_⟩
        obtain rfl := Option.some.inj hc
        exact ⟨hcoin,(confirm_rootOf hroot hcol).1 h⟩
      · rw [if_pos hcoin] at h
        cases h
  · rw [if_pos hname] at h
    cases h

theorem exists_zip {α β : Type} {l : List α} {l' : List β} (hlen : l.length=l'.length) {a : α} (ha : a∈l) :
    ∃ b,(a,b)∈l.zip l' := by
  have hfst := List.map_fst_zip hlen.le
  rw [← hfst,List.mem_map] at ha
  obtain ⟨⟨a',b⟩,hmem,rfl⟩ := ha
  exact ⟨b,hmem⟩

section Accepted
variable (hroot : removalsRootOf E removed = .ok root)
  (hcol : CollisionFree E.toOracles (treeStrings E.toOracles removed++RemovalStrings E res))
include hroot hcol

theorem mem_removed_of_root (hproofs : res.proofs=none)
    (h : validateRemovals E res.coins res.proofs root = .ok true) (name : Bytes32) :
    name∈removed ↔ ∃ c∈res.coins.filterMap (·.2),E.coinName c=name := by
  simp only [RemovalStrings,hproofs] at hcol
  rw [hproofs] at h
  obtain ⟨root',hroot',heq⟩ := bind_ok.mp h
  have hsame : root=root' := of_decide_eq_true (Except.ok.inj heq)
  subst hsame
  rw [rootOf_inj hroot hroot' hcol name,List.mem_map]

theorem mem_removed_of_proof {proofs : List (Bytes32 × Bytes)} (hproofs : res.proofs=some proofs)
    (h : validateRemovals E res.coins res.proofs root = .ok true) {e : ListedRemoval} (he : e∈res.coins) :
    (e.2=none → e.1∉removed) ∧ ∀ c,e.2=some c → e.1=E.coinName c ∧ E.coinName c∈removed := by
  simp only [RemovalStrings,hproofs] at hcol
  rw [hproofs] at h
  have hlen : res.coins.length=proofs.length := by
    by_contra hne
    simp [validateRemovals,hne] at h
  simp only [validateRemovals,hlen,ne_eq,not_true_eq_false,if_false] at h
  obtain ⟨proof,hproof⟩ := exists_zip hlen he
  apply validateRemoval_sound hroot _ (validateRemovalProofs_all h _ hproof)
  refine collisionFree_mono hcol (List.append_subset.mpr ⟨List.subset_append_left _ _,fun s hs => ?_⟩)
  exact List.mem_append_right _ (List.mem_flatMap.mpr ⟨proof,(List.of_mem_zip hproof).2,hs⟩)

end Accepted

theorem getRemovals_accepted {walletType : Bytes32 → Option WalletType} {additions : List Coin}
    {requestAllRemovals : Bool} {peer : Option (List Bytes32) → PeerAnswer RespondRemovals} {all : Bool}
    (hall : all=(requestAllRemovals || needsAllRemovals walletType additions))
    (hasked : removals≠[] ∨ all=true) (hpeer : peer (if all then none else some removals) = .respond res)
    (h : validateRemovals E res.coins res.proofs root = .ok true) :
    getRemovals E root walletType additions removals requestAllRemovals peer =
      .ok (some (res.coins.filterMap (·.2))) := by
  simp only [getRemovals,← hall]
  rw [if_pos hasked,hpeer]
  dsimp only
  rw [bind_of_ok h,if_pos rfl]
  rfl

/-- An accepted response is right exactly when it is bound to the request; the code never checks that it is. -/
theorem getRemovals_right_iff {walletType : Bytes32 → Option WalletType} {additions : List Coin}
    {requestAllRemovals : Bool} {peer : Option (List Bytes32) → PeerAnswer RespondRemovals} {all : Bool}
    (hroot : removalsRootOf E removed = .ok root)
    (hcol : CollisionFree E.toOracles (treeStrings E.toOracles removed++RemovalStrings E res))
    (hall : all=(requestAllRemovals || needsAllRemovals walletType additions))
    (hasked : removals≠[] ∨ all=true) (hpeer : peer (if all then none else some removals) = .respond res)
    (hvalid : validateRemovals E res.coins res.proofs root = .ok true) :
    (∃ coins,getRemovals E root walletType additions removals requestAllRemovals peer = .ok (some coins) ∧
      RemovalsRight E removed removals all res coins) ↔ RemovalsBound E removed removals all res := by
  rw [getRemovals_accepted hall hasked hpeer hvalid]
  have hlisted {c : Coin} : c∈res.coins.filterMap (·.2) ↔ ∃ e∈res.coins,e.2=some c := List.mem_filterMap
  unfold RemovalsBound
  cases hproofs : res.proofs with
  | none =>
    have hmem := mem_removed_of_root hroot hcol hproofs hvalid
    constructor
    · rintro ⟨coins,-,hright⟩
      exact hright.named
    · intro hnamed
      exact ⟨_,rfl,fun name hname _ => (hmem name).mp hname,fun c hc => (hmem _).mpr ⟨c,hc,rfl⟩,hnamed⟩
  | some proofs =>
    have hmem {e : ListedRemoval} (he : e∈res.coins) := mem_removed_of_proof hroot hcol hproofs hvalid he
    constructor
    · rintro ⟨coins,hcoins,hright⟩ name hname hask
      obtain ⟨c,hc,rfl⟩ := hright.complete name hname hask
      obtain rfl := Option.some.inj (Except.ok.inj hcoins)
      obtain ⟨e,he,hec⟩ := hlisted.mp hc
      exact ⟨e,he,((hmem he).2 c hec).1⟩
    · intro hbound
      refine ⟨_,rfl,fun name hname hask => ?_,fun c hc => ?_,fun e he c hec => ((hmem he).2 c hec).1⟩
      · obtain ⟨e,he,rfl⟩ := hbound name hname hask
        cases hec : e.2 with
        | none => exact absurd hname ((hmem he).1 hec)
        | some c => exact ⟨c,hlisted.mpr ⟨e,he,hec⟩,(((hmem he).2 c hec).1).symm⟩
      · obtain ⟨e,he,hec⟩ := hlisted.mp hc
        exact ((hmem he).2 c hec).2

def fullAnswer : RespondRemovals := { coins := [(clientEnv.coinName spentCoin,some spentCoin)],proofs := none }

theorem getRemovals_right_iff_full : ∃ coins,getRemovals clientEnv (clientEnv.coinName spentCoin+33) (fun _ => none) []
    [clientEnv.coinName spentCoin] false (fun _ => .respond fullAnswer) = .ok (some coins) ∧
    RemovalsRight clientEnv [clientEnv.coinName spentCoin] [clientEnv.coinName spentCoin] false fullAnswer coins := by
  have hcol : CollisionFree clientEnv.toOracles
      (treeStrings clientEnv.toOracles [clientEnv.coinName spentCoin]++RemovalStrings clientEnv fullAnswer) :=
    ⟨by decide +kernel,by decide +kernel⟩
  have hasked : [clientEnv.coinName spentCoin]≠[] ∨ false=true := Or.inl (by decide)
  refine (getRemovals_right_iff (by decide +kernel) hcol rfl hasked rfl (by decide +kernel)).mpr ?_
  exact (by decide +kernel : ∀ e∈fullAnswer.coins,∀ c,e.2=some c → e.1=clientEnv.coinName c)

/-- A peer that answers with nothing hides the spend. -/
theorem getRemovals_hides_spend : ∃ root,removalsRootOf clientEnv [clientEnv.coinName spentCoin] = .ok root ∧
    CollisionFree clientEnv.toOracles (treeStrings clientEnv.toOracles [clientEnv.coinName spentCoin]) ∧
    validateRemovals clientEnv [] (some []) root = .ok true ∧
    getRemovals clientEnv root (fun _ => none) [] [clientEnv.coinName spentCoin] false
      (fun _ => .respond { coins := [],proofs := some [] }) = .ok (some []) ∧
    ¬ RemovalsRight clientEnv [clientEnv.coinName spentCoin] [clientEnv.coinName spentCoin] false
      { coins := [],proofs := some [] } [] := by
  refine ⟨clientEnv.coinName spentCoin+33,by decide +kernel,⟨by decide +kernel,by decide +kernel⟩,rfl,rfl,
    fun hright => ?_⟩
  obtain ⟨c,hc,-⟩ := hright.complete _ (List.mem_singleton_self _) (Or.inr (List.mem_singleton_self _))
  exact absurd hc List.not_mem_nil

end WalletNode

end RoseChain
