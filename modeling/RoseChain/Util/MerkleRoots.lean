import RoseChain.Util.MerkleCompleteness

namespace RoseChain
namespace MerkleSet
open MerkleNode
variable {O : Oracles} {leaves leaves' : List Bytes32} {root v : Bytes32}

variable (O) in
def rootOf (leaves : List Bytes32) : Check Bytes32 := do getRoot O (← addAll O .empty leaves)

variable (O) in
/-- The strings that are hashed for the set of some values. -/
def treeStrings (leaves : List Bytes32) : List Bytes :=
  match addAll O .empty leaves with
  | .ok t => t.hashed
  | .error _ => []

theorem collisionFree_mono {strings strings' : List Bytes} (hcol : CollisionFree O strings) (h : strings' ⊆ strings) :
    CollisionFree O strings' :=
  ⟨fun a ha b hb => hcol.inj a (h ha) b (h hb),fun a ha => hcol.blank a (h ha)⟩

theorem addAll_eq_run (t : MerkleNode) (leaves : List Bytes32) :
    addAll O t leaves=run O t (leaves.map Call.addAlreadyHashed) := by
  induction leaves generalizing t with
  | nil => rfl
  | cons x xs ih =>
    rw [List.map_cons,run,addAll]
    exact bind_congr fun t' => ih t'

theorem contents_add (leaves : List Bytes32) : contents (leaves.map Call.addAlreadyHashed)=leaves.toFinset := by
  have hfold (S : Finset Bytes32) :
      (leaves.map Call.addAlreadyHashed).foldl effect S=S ∪ leaves.toFinset := by
    induction leaves generalizing S with
    | nil => simp
    | cons x xs ih =>
      rw [List.map_cons,List.foldl_cons,ih]
      ext v
      simp only [effect,Finset.mem_union,Finset.mem_insert,List.mem_toFinset,List.mem_cons]
      tauto
  rw [contents,hfold]
  simp

theorem addAll_treeOf (leaves : List Bytes32) :
    ∃ t,addAll O .empty leaves = .ok t ∧ TreeOf O leaves.toFinset t := by
  rw [addAll_eq_run,← contents_add]
  exact treeOf_contents _

variable {t : MerkleNode}

theorem rootOf_eq (ht : addAll O .empty leaves = .ok t) : rootOf O leaves=getRoot O t := by
  unfold rootOf
  rw [ht]
  rfl

theorem treeStrings_eq (ht : addAll O .empty leaves = .ok t) : treeStrings O leaves=t.hashed := by
  unfold treeStrings
  rw [ht]

theorem addAll_congr (h : ∀ v,v∈leaves ↔ v∈leaves') : addAll O .empty leaves=addAll O .empty leaves' := by
  obtain ⟨t,ht,htree⟩ := addAll_treeOf (O := O) leaves
  obtain ⟨t',ht',htree'⟩ := addAll_treeOf (O := O) leaves'
  have hsame : leaves.toFinset=leaves'.toFinset := by
    ext v
    rw [List.mem_toFinset,List.mem_toFinset,h]
  rw [hsame] at htree
  rw [ht,ht',htree.unique htree']

theorem rootOf_congr (h : ∀ v,v∈leaves ↔ v∈leaves') : rootOf O leaves=rootOf O leaves' := by
  unfold rootOf
  rw [addAll_congr h]

theorem TreeOf.answers {p : MerkleNode} {b : Bool} {bytes : Bytes} (htree : TreeOf O leaves.toFinset t)
    (hw : p.WellFormed O 0) (hcol : CollisionFree O (t.hashed++p.hashed)) (h : getRoot O t = .ok root)
    (h' : getRoot O p = .ok root) (hanswer : MerkleNode.isIncluded v p 0 = .ok (b,bytes)) : b=true ↔ v∈leaves := by
  have hsame := getHash_of_getRoot htree.wellFormed htree.complete hw hcol h h' hanswer
  rw [isIncluded_sound htree.wellFormed htree.complete hw hcol hsame hanswer,htree.values,List.mem_toFinset]

/-- Two sets with one root have the same values, unless they show two strings with one hash. -/
theorem rootOf_inj (h : rootOf O leaves = .ok root) (h' : rootOf O leaves' = .ok root)
    (hcol : CollisionFree O (treeStrings O leaves++treeStrings O leaves')) (v : Bytes32) :
    v∈leaves ↔ v∈leaves' := by
  obtain ⟨t,ht,htree⟩ := addAll_treeOf (O := O) leaves
  obtain ⟨t',ht',htree'⟩ := addAll_treeOf (O := O) leaves'
  rw [treeStrings_eq ht,treeStrings_eq ht'] at hcol
  rw [rootOf_eq ht] at h
  rw [rootOf_eq ht'] at h'
  have hw : t'.WellFormed O ([] : List Bool).length := htree'.wellFormed
  obtain ⟨p,bytes,hp⟩ := isIncluded_complete v hw htree'.complete (by simp [Placed]) (by simp)
  rw [← htree.answers htree'.wellFormed hcol h h' hp.answer,isIncluded_values htree'.wellFormed hp.answer,htree'.values,
    List.mem_toFinset]

section Confirm
variable {proof : Bytes} (h : rootOf O leaves = .ok root) (hcol : CollisionFree O (treeStrings O leaves++proofHashed O proof))
include h hcol

theorem confirm_rootOf : (confirmIncludedAlreadyHashed O root v proof = .ok true → v∈leaves) ∧
    (confirmNotIncludedAlreadyHashed O root v proof = .ok true → v∉leaves) := by
  obtain ⟨t,ht,htree⟩ := addAll_treeOf (O := O) leaves
  rw [treeStrings_eq ht] at hcol
  rw [rootOf_eq ht] at h
  have hall (expected : Bool) (hok : confirm O root v proof expected = .ok true) : expected=true ↔ v∈leaves := by
    obtain ⟨p,bytes,hp,hr,hanswer⟩ := confirm_ok hok
    unfold proofHashed at hcol
    rw [hp] at hcol
    exact htree.answers (deserializeProof_ok hp) hcol h hr hanswer
  exact ⟨fun hok => (hall true hok).mp rfl,fun hok hv => Bool.false_ne_true ((hall false hok).mpr hv)⟩

end Confirm

theorem isIncluded_rootOf (leaves : List Bytes32) : ∃ t root,addAll O .empty leaves = .ok t ∧
    rootOf O leaves = .ok root ∧ getRoot O t = .ok root ∧ ∀ v,∃ proof,
      isIncludedAlreadyHashed v t = .ok (decide (v∈leaves),proof) ∧
      (v∈leaves → confirmIncludedAlreadyHashed O root v proof = .ok true) ∧
      (v∉leaves → confirmNotIncludedAlreadyHashed O root v proof = .ok true) := by
  obtain ⟨t,ht,htree⟩ := addAll_treeOf (O := O) leaves
  obtain ⟨root,hroot⟩ := getRoot_total (O := O) htree.complete
  refine ⟨t,root,ht,(rootOf_eq ht).trans hroot,hroot,fun v => ?_⟩
  obtain ⟨t',root',proof,hrun,hroot',hanswer,hconfirm⟩ := confirm_query (O := O) (leaves.map Call.addAlreadyHashed) v
  rw [addAll_eq_run,hrun] at ht
  obtain rfl := Except.ok.inj ht
  obtain rfl := Except.ok.inj (hroot'.symm.trans hroot)
  simp only [contents_add,List.mem_toFinset] at hanswer hconfirm
  refine ⟨proof,hanswer,fun h => ?_,fun h => ?_⟩
  · rw [confirmIncludedAlreadyHashed,hconfirm]
    simp [h]
  · rw [confirmNotIncludedAlreadyHashed,hconfirm]
    simp [h]

end MerkleSet
end RoseChain
