import RoseChain.Util.MerkleProofs

namespace RoseChain

namespace MerkleNode
variable {O : Oracles} {d : ℕ} {v : Bytes32} {t p l r l' r' : MerkleNode} {h : Bytes32} {bits : List Bool}

/-- At a place with these bits the parser reads the bytes as `p`, whose top has the hash of `t`. -/
structure Encodes (O : Oracles) (bits : List Bool) (bytes : Bytes) (t p : MerkleNode) : Prop where
  parses : ∀ n before after,bytes.length≤n →
    deserialize O (before++bytes++after) n before.length bits = .ok (p,before.length+bytes.length)
  getHash : p.getHash=t.getHash

theorem kind_of_getHash (hh : p.getHash=t.getHash) :
    p.isEmpty=t.isEmpty ∧ p.isTerminal=t.isTerminal ∧ p.hash=t.hash := by
  cases p <;> cases t <;> simp_all [MerkleNode.getHash,isEmpty,isTerminal,MerkleNode.hash]
  · exact bytes32_inj hh
  · exact bytes32_inj hh
  · rw [← hh,toBytes32_bytes32]

theorem encodes_empty : Encodes O bits [0] empty empty := by
  refine ⟨?_,rfl⟩
  intro n before after hn
  obtain ⟨m,rfl⟩ : ∃ m,n=m+1 := Nat.exists_eq_succ_of_ne_zero (by simp at hn; omega)
  simp [deserialize]

theorem slice_eq (before after : Bytes) (c : UInt8) (b : Bytes) (hb : b.length=32) :
    ((before++c::b++after).drop (before.length+1)).take 32=b := by
  have h : before++c::b++after=(before++[c])++(b++after) := by simp
  rw [h,List.drop_left' (by simp),List.take_left' hb]

variable {a : Bytes32}

theorem audited_placed (hp : (terminal a).Placed bits) (hlen : bits.length≤256) :
    audited (bytes32 a) bits = .ok (terminal a) := by
  have hforM : bits.zipIdx.forM (fun e => do
      let c ← getBit (toBytes32 (bytes32 a)) e.2
      assertThat (c=e.1)) = .ok () := by
    rw [List.forM_eq_forM,forM_ok_iff]
    intro e he
    have hget := List.mk_mem_zipIdx_iff_getElem?.mp he
    have hi : e.2<bits.length := (List.getElem?_eq_some_iff.mp hget).1
    rw [toBytes32_bytes32,getBit_eq (by omega),hp a (by simp [values]) e.2 e.1 hget]
    simp [bind,Except.bind]
  unfold audited
  rw [show bits.zipIdx.forM _=_ from hforM]
  simp [bytes32_length,assertThat,bind,Except.bind,pure,Except.pure]

theorem encodes_terminal (hp : (terminal a).Placed bits) (hlen : bits.length≤256) :
    Encodes O bits (1::bytes32 a) (terminal a) (terminal a) := by
  refine ⟨?_,rfl⟩
  intro n before after hn
  obtain ⟨m,rfl⟩ : ∃ m,n=m+1 := Nat.exists_eq_succ_of_ne_zero (by simp at hn; omega)
  have hget : (before++1::bytes32 a++after)[before.length]?=some 1 := by simp
  unfold deserialize
  rw [hget,slice_eq _ _ _ _ (bytes32_length a)]
  dsimp only
  rw [audited_placed hp hlen,List.length_cons,bytes32_length]
  rfl

theorem encodes_truncated : Encodes O bits (3::bytes32 h) (middle l r h) (truncated (bytes32 h)) := by
  refine ⟨?_,rfl⟩
  intro n before after hn
  obtain ⟨m,rfl⟩ : ∃ m,n=m+1 := Nat.exists_eq_succ_of_ne_zero (by simp at hn; omega)
  have hget : (before++3::bytes32 h++after)[before.length]?=some 3 := by simp
  unfold deserialize
  rw [hget,slice_eq _ _ _ _ (bytes32_length h),List.length_cons,bytes32_length]
  rfl

theorem besideEmpty_congr (hl : l'.isEmpty=l.isEmpty) (hr : l.isEmpty=true → r'.isDouble=r.isDouble) :
    besideEmpty l' r'=besideEmpty l r := by
  unfold besideEmpty
  rw [hl]
  split_ifs with he
  · exact hr he
  · rfl

theorem middleHash_congr (hl : l'.getHash=l.getHash) (hr : r'.getHash=r.getHash)
    (hdl : r.isEmpty=true → l'.isDouble=l.isDouble) (hdr : l.isEmpty=true → r'.isDouble=r.isDouble) :
    middleHash O l' r'=middleHash O l r := by
  obtain ⟨hle,hlt,hlh⟩ := kind_of_getHash hl
  obtain ⟨hre,hrt,hrh⟩ := kind_of_getHash hr
  unfold middleHash hashChildren
  rw [besideEmpty_congr hle hdr,besideEmpty_congr hre hdl,hle,hlt,hlh,hre,hrt,hrh,hl,hr]

theorem isDouble_congr (hl : l'.getHash=l.getHash) (hr : r'.getHash=r.getHash)
    (hdl : r.isEmpty=true → l'.isDouble=l.isDouble) (hdr : l.isEmpty=true → r'.isDouble=r.isDouble) :
    (middle l' r' h).isDouble=(middle l r h).isDouble := by
  obtain ⟨hle,hlt,_⟩ := kind_of_getHash hl
  obtain ⟨hre,hrt,_⟩ := kind_of_getHash hr
  unfold isDouble
  rw [hle,hlt,hre,hrt]
  split_ifs with h₁ h₂
  · exact hdr h₁
  · exact hdl h₂
  · rfl

theorem encodes_middle {x y : Bytes} (hx : Encodes O (bits++[false]) x l l')
    (hy : Encodes O (bits++[true]) y r r') (hdl : r.isEmpty=true → l'.isDouble=l.isDouble)
    (hdr : l.isEmpty=true → r'.isDouble=r.isDouble) (hh : middleHash O l r = .ok h) :
    Encodes O bits (2::x++y) (middle l r h) (middle l' r' h) := by
  refine ⟨?_,rfl⟩
  intro n before after hn
  obtain ⟨m,rfl⟩ : ∃ m,n=m+1 := Nat.exists_eq_succ_of_ne_zero (by simp at hn; omega)
  simp only [List.cons_append,List.length_cons,List.length_append] at hn
  have hget : (before++(2::x++y)++after)[before.length]?=some 2 := by simp
  have h₁ := hx.parses m (before++[2]) (y++after) (by omega)
  have h₂ := hy.parses m (before++[2]++x) after (by omega)
  have hsplit₁ : before++[2]++x++(y++after)=before++(2::x++y)++after := by simp
  have hsplit₂ : before++[2]++x++y++after=before++(2::x++y)++after := by simp
  rw [hsplit₁] at h₁
  rw [hsplit₂] at h₂
  simp only [List.length_append,List.length_singleton] at h₁ h₂
  unfold deserialize
  rw [hget]
  dsimp only
  rw [h₁]
  simp only [bind,Except.bind]
  rw [h₂]
  have hm : mkMiddle O l' r' = .ok (middle l' r' h) :=
    mkMiddle_eq_ok.mpr ⟨h,by rw [middleHash_congr hx.getHash hy.getHash hdl hdr,hh],rfl⟩
  dsimp only
  rw [hm]
  simp only [pure,Except.pure,List.cons_append,List.length_cons,List.length_append]
  rw [show before.length+1+x.length+y.length=before.length+(x.length+y.length+1) by omega]

/-- What the proof for `t` is: it parses to a tree that gives the same answer and the same proof. -/
structure Proves (O : Oracles) (v : Bytes32) (d : ℕ) (bits : List Bool) (t p : MerkleNode) (bytes : Bytes) :
    Prop where
  answer : isIncluded v t d = .ok (decide (v∈t.values),bytes)
  encodes : Encodes O bits bytes t p
  double : p.isDouble=t.isDouble
  again : isIncluded v p d = .ok (decide (v∈t.values),bytes)

theorem otherIncluded_complete {bytes : Bytes} (hw : t.WellFormed O d) (hc : t.Complete)
    (hp : t.Placed bits) (hlen : bits.length≤256) (hin : Proves O v d bits t p bytes) (collapse : Bool) :
    ∃ bytes p,otherIncluded t (isIncluded v t d) collapse = .ok bytes ∧ Encodes O bits bytes t p ∧
      (collapse=false → p.isDouble=t.isDouble) ∧ otherIncluded p (isIncluded v p d) collapse = .ok bytes := by
  cases t with
  | empty => exact ⟨_,_,rfl,encodes_empty,fun _ => rfl,rfl⟩
  | terminal a => exact ⟨_,_,rfl,encodes_terminal hp hlen,fun _ => rfl,rfl⟩
  | truncated a => exact hc.elim
  | middle l r h =>
    obtain ⟨double,hd⟩ := isDouble_total hw inner_middle
    cases collapse with
    | true => exact ⟨_,_,rfl,encodes_truncated,fun hf => absurd hf (by decide),rfl⟩
    | false =>
      cases double with
      | false =>
        refine ⟨3::bytes32 h,_,?_,encodes_truncated,fun _ => hd.symm,rfl⟩
        simp [otherIncluded,hd,bind,Except.bind,pure,Except.pure]
      | true =>
        refine ⟨bytes,p,?_,hin.encodes,fun _ => hin.double,?_⟩
        · simp [otherIncluded,hd,hin.answer,bind,Except.bind,pure,Except.pure]
        · have hdp := hin.double.trans hd
          cases p with
          | middle l' r' h' => simp [otherIncluded,hdp,hin.again,bind,Except.bind,pure,Except.pure]
          | _ => simp [isDouble] at hdp

theorem Placed.depth_lt (hp : t.Placed bits) (hw : t.WellFormed O bits.length) (hc : t.Complete)
    (hi : t.Inner) : bits.length<256 := by
  obtain ⟨a,ha,_⟩ := exists_ne hw hc hi
  apply MerkleNode.depth_lt (x := a) hw hc hi
  intro y hy i hi
  have hget : bits[i]?=some bits[i] := List.getElem?_eq_getElem hi
  rw [hp y hy i _ hget,hp a ha i _ hget]

theorem Placed.child {b : Bool} (hp : (middle l r h).Placed bits) (hsub : ∀ y∈t.values,y∈(middle l r h).values)
    (hb : ∀ y∈t.values,y.getMsbD bits.length=b) : t.Placed (bits++[b]) := by
  intro y hy i c hc
  obtain hlt | hge := Nat.lt_or_ge i bits.length
  · rw [List.getElem?_append_left hlt] at hc
    exact hp y (hsub y hy) i c hc
  · rw [List.getElem?_append_right hge] at hc
    obtain ⟨hi,hcb⟩ := List.getElem?_eq_some_iff.mp hc
    have hzero : i=bits.length := by simp at hi; omega
    subst hzero
    rw [hb y hy]
    simpa using hcb

theorem isIncluded_complete (v : Bytes32) (hw : t.WellFormed O bits.length) (hc : t.Complete)
    (hp : t.Placed bits) (hlen : bits.length≤256) : ∃ p bytes,Proves O v bits.length bits t p bytes := by
  induction t generalizing bits with
  | empty => exact ⟨empty,[0],by simp [isIncluded,values],encodes_empty,rfl,by simp [isIncluded,values]⟩
  | terminal a =>
    have hans : isIncluded v (terminal a) bits.length =
        .ok (decide (v∈(terminal a).values),1::bytes32 a) := by
      simp [isIncluded,values,Bool.beq_eq_decide_eq]
    exact ⟨terminal a,_,hans,encodes_terminal hp hlen,rfl,hans⟩
  | truncated a => exact hc.elim
  | middle l r h ihl ihr =>
    have hdepth := hp.depth_lt hw hc inner_middle
    have hright := mem_values_right (v := v) hw
    have hleft := mem_values_left (v := v) hw
    obtain ⟨hl,hr,hbl,hbr,hh⟩ := hw
    have hpl : l.Placed (bits++[false]) := hp.child (fun y hy => by simp [values,hy]) hbl
    have hpr : r.Placed (bits++[true]) := hp.child (fun y hy => by simp [values,hy]) hbr
    have hlen' (b : Bool) : (bits++[b]).length=bits.length+1 := by simp
    obtain ⟨pl,bl,il⟩ := ihl (by rw [hlen']; exact hl) hc.1 hpl (by rw [hlen']; omega)
    obtain ⟨pr,br,ir⟩ := ihr (by rw [hlen']; exact hr) hc.2 hpr (by rw [hlen']; omega)
    rw [hlen'] at il ir
    cases hb : v.getMsbD bits.length with
    | true =>
      obtain ⟨bo,po,ho,eo,do',ao⟩ := otherIncluded_complete hl hc.1 hpl (by rw [hlen']; omega) il !r.isEmpty
      have hdl : r.isEmpty=true → po.isDouble=l.isDouble := fun he => do' (by simp [he])
      have hdr : l.isEmpty=true → pr.isDouble=r.isDouble := fun _ => ir.double
      have hans : isIncluded v (middle l r h) bits.length =
          .ok (decide (v∈(middle l r h).values),2::bo++br) := by
        rw [isIncluded,getBit_eq hdepth,hb]
        simp only [bind,Except.bind,if_true]
        rw [ho,ir.answer,decide_eq_decide.mpr (hright hb)]
        rfl
      refine ⟨middle po pr h,2::bo++br,hans,encodes_middle eo ir.encodes hdl hdr hh,
        isDouble_congr eo.getHash ir.encodes.getHash hdl hdr,?_⟩
      rw [isIncluded,getBit_eq hdepth,hb,(kind_of_getHash ir.encodes.getHash).1]
      simp only [bind,Except.bind,if_true]
      rw [ao,ir.again,decide_eq_decide.mpr (hright hb)]
      rfl
    | false =>
      obtain ⟨bo,po,ho,eo,do',ao⟩ := otherIncluded_complete hr hc.2 hpr (by rw [hlen']; omega) ir !l.isEmpty
      have hdl : r.isEmpty=true → pl.isDouble=l.isDouble := fun _ => il.double
      have hdr : l.isEmpty=true → po.isDouble=r.isDouble := fun he => do' (by simp [he])
      have hans : isIncluded v (middle l r h) bits.length =
          .ok (decide (v∈(middle l r h).values),2::bl++bo) := by
        rw [isIncluded,getBit_eq hdepth,hb]
        simp only [bind,Except.bind,Bool.false_eq_true,if_false]
        rw [il.answer]
        dsimp only
        rw [ho,decide_eq_decide.mpr (hleft hb)]
        rfl
      refine ⟨middle pl po h,2::bl++bo,hans,encodes_middle il.encodes eo hdl hdr hh,
        isDouble_congr il.encodes.getHash eo.getHash hdl hdr,?_⟩
      rw [isIncluded,getBit_eq hdepth,hb,(kind_of_getHash il.encodes.getHash).1]
      simp only [bind,Except.bind,Bool.false_eq_true,if_false]
      rw [il.again]
      dsimp only
      rw [ao,decide_eq_decide.mpr (hleft hb)]
      rfl

end MerkleNode

namespace MerkleSet
open MerkleNode
variable {O : Oracles}

theorem getRoot_congr {root p : MerkleNode} (h : p.getHash=root.getHash) : getRoot O p=getRoot O root := by
  unfold getRoot
  rw [h]

theorem confirm_query (cs : List Call) (val : Bytes32) :
    ∃ root hash proof,run O .empty cs = .ok root ∧ getRoot O root = .ok hash ∧
      isIncludedAlreadyHashed val root = .ok (decide (val∈contents cs),proof) ∧
      ∀ expected,confirm O hash val proof expected = .ok (decide (val∈contents cs) == expected) := by
  obtain ⟨root,hrun,ht⟩ := treeOf_contents (O := O) cs
  obtain ⟨hash,hhash⟩ := getRoot_total (O := O) ht.complete
  have hplaced : root.Placed [] := by simp [Placed]
  have hw : root.WellFormed O ([] : List Bool).length := ht.wellFormed
  obtain ⟨p,proof,hp⟩ := isIncluded_complete val hw ht.complete hplaced (by simp)
  have hmem : decide (val∈root.values)=decide (val∈contents cs) := decide_eq_decide.mpr (ht.values val)
  have hparse : deserializeProof O proof = .ok p := by
    have h := hp.encodes.parses (proof.length+1) [] [] (by omega)
    simp only [List.nil_append,List.append_nil,List.length_nil,Nat.zero_add] at h
    unfold deserializeProof
    rw [h]
    simp [raiseSetIf,bind,Except.bind,pure,Except.pure]
  refine ⟨root,hash,proof,hrun,hhash,?_,?_⟩
  · rw [← hmem]
    exact hp.answer
  · intro expected
    have hagain := hp.again
    rw [List.length_nil] at hagain
    unfold confirm isIncludedAlreadyHashed
    rw [hparse]
    simp only [bind,Except.bind]
    rw [getRoot_congr hp.encodes.getHash,hhash,hagain,hmem]
    simp [pure,Except.pure]

/-- Every question gets the right answer with a proof that the verifier accepts. -/
theorem isIncluded_confirmed (cs : List Call) (val : Bytes32) :
    ∃ root hash proof,run O .empty cs = .ok root ∧ getRoot O root = .ok hash ∧
      isIncludedAlreadyHashed val root = .ok (decide (val∈contents cs),proof) ∧
      (val∈contents cs → confirmIncludedAlreadyHashed O hash val proof = .ok true) ∧
      (val∉contents cs → confirmNotIncludedAlreadyHashed O hash val proof = .ok true) := by
  obtain ⟨root,hash,proof,hrun,hhash,hanswer,hconfirm⟩ := confirm_query (O := O) cs val
  refine ⟨root,hash,proof,hrun,hhash,hanswer,?_,?_⟩
  · intro hin
    rw [confirmIncludedAlreadyHashed,hconfirm]
    simp [hin]
  · intro hout
    rw [confirmNotIncludedAlreadyHashed,hconfirm]
    simp [hout]

end MerkleSet

end RoseChain
