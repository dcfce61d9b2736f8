import RoseChain.Util.MerkleCanonical

namespace RoseChain

theorem forM_ok_iff {α : Type} {f : α → Check Unit} {l : List α} : forM l f = .ok () ↔ ∀ a∈l,f a = .ok () := by
  induction l with
  | nil => simp [pure,Except.pure]
  | cons a l ih =>
    rw [List.forM_cons,bind_ok]
    constructor
    · intro h
      obtain ⟨u,hf,hl⟩ := h
      simpa [hf] using ih.mp hl
    · intro h
      exact ⟨(),h a (by simp),ih.mpr fun b hb => h b (by simp [hb])⟩

namespace MerkleNode
variable {O : Oracles} {d : ℕ} {v : Bytes32} {t p l r : MerkleNode} {h : Bytes32}

def hashed : MerkleNode → List Bytes
  | empty => []
  | terminal h => [1::bytes32 h]
  | middle left right _ => preimage (left.getHash++right.getHash)::(left.hashed++right.hashed)
  | truncated _ => []

theorem getHash_le (hw : t.WellFormed O d) : t.getHash.length≤33 := by
  cases t with
  | truncated b =>
    have hb : b.length≤32 := hw
    simp [getHash]
    omega
  | _ => simp [getHash,bytes32_length]

variable {a b : Bytes}

theorem preimage_eq (ha : a.length=33) :
    preimage (a++b)=List.replicate 30 0++(a.take 1++b.take 1)++(a.drop 1++b.drop 1) := by
  have h₁ : (a++b).take 1=a.take 1 := List.take_append_of_le_length (by omega)
  have h₂ : (a++b).drop 33=b := by rw [← ha,List.drop_left]
  have h₃ : ((a++b).drop 1).take 32=a.drop 1 := by
    rw [List.drop_append_of_le_length (by omega)]
    exact List.take_left' (by simp [ha])
  have h₄ : (a++b).drop 34=b.drop 1 := by rw [show 34=33+1 by rfl,← List.drop_drop,h₂]
  rw [preimage,h₁,h₂,h₃,h₄]

theorem preimage_inj {a' b' : Bytes} (ha : a.length=33) (hb : b.length=33) (ha' : a'.length=33)
    (hb' : b'.length=33) (h : preimage (a++b)=preimage (a'++b')) : a=a' ∧ b=b' := by
  rw [preimage_eq ha,preimage_eq ha'] at h
  obtain ⟨hk,hh⟩ := List.append_inj h (by simp [ha,ha',hb,hb'])
  have hk := List.append_cancel_left hk
  obtain ⟨hk₁,hk₂⟩ := List.append_inj hk (by simp [ha,ha'])
  obtain ⟨hh₁,hh₂⟩ := List.append_inj hh (by simp [ha,ha'])
  rw [← List.take_append_drop 1 a,← List.take_append_drop 1 b,hk₁,hk₂,hh₁,hh₂,
    List.take_append_drop,List.take_append_drop]
  exact ⟨rfl,rfl⟩

theorem hashChildren_ok (hl : l.WellFormed O (d+1)) (hr : r.WellFormed O (d+1))
    (hh : hashChildren O l r = .ok h) :
    l.getHash.length=33 ∧ r.getHash.length=33 ∧ h=O.stdHash (preimage (l.getHash++r.getHash)) := by
  unfold hashChildren hashdown at hh
  obtain ⟨_,_,hh⟩ := bind_ok.mp hh
  obtain ⟨_,_,hh⟩ := bind_ok.mp hh
  obtain ⟨_,_,hh⟩ := bind_ok.mp hh
  obtain ⟨_,hlen,hh⟩ := bind_ok.mp hh
  rw [assertThat_eq_ok,List.length_append] at hlen
  have h₁ := getHash_le hl
  have h₂ := getHash_le hr
  exact ⟨by omega,by omega,(Except.ok.inj hh).symm⟩

theorem hash_of_not_double (hw : (middle l r h).WellFormed O d) (hd : (middle l r h).isDouble = .ok false) :
    l.getHash.length=33 ∧ r.getHash.length=33 ∧ h=O.stdHash (preimage (l.getHash++r.getHash)) := by
  obtain ⟨hl,hr,_,_,hh⟩ := hw
  have hs := middleHash_shape hh
  apply hashChildren_ok hl hr
  unfold isDouble at hd
  unfold middleHash besideEmpty at hh
  cases hle : l.isEmpty with
  | true =>
    rw [hle,if_pos rfl] at hd
    rw [hle,if_pos rfl,hd,(hs.1 hle).1] at hh
    exact hh
  | false =>
    rw [hle] at hd hh
    cases hre : r.isEmpty with
    | true =>
      rw [hre] at hd hh
      simp only [Bool.false_eq_true,if_false,if_true] at hd hh
      rw [hd] at hh
      exact hh
    | false =>
      rw [hre] at hh
      exact hh

theorem hash_of_double (hw : t.WellFormed O d) (hd : t.isDouble = .ok true) :
    ∃ a b,t.values=[a,b] ∧ preimage ((terminal a).getHash++(terminal b).getHash)∈t.hashed ∧
      t.hash=O.stdHash (preimage ((terminal a).getHash++(terminal b).getHash)) := by
  induction t generalizing d with
  | empty => simp [isDouble] at hd
  | terminal a => simp [isDouble] at hd
  | truncated a => simp [isDouble] at hd
  | middle l r h ihl ihr =>
    obtain ⟨hl,hr,_,_,hh⟩ := hw
    unfold isDouble at hd
    cases hle : l.isEmpty with
    | true =>
      rw [hle,if_pos rfl] at hd
      obtain ⟨a,b,hv,hm,hab⟩ := ihr hr hd
      unfold middleHash besideEmpty at hh
      rw [hle,if_pos rfl,hd] at hh
      have hrh : r.hash=h := Except.ok.inj hh
      rw [isEmpty_iff.mp hle]
      exact ⟨a,b,by simp [values,hv],by simp [hashed,hm],by rw [← hab,hrh,hash]⟩
    | false =>
      rw [hle] at hd
      simp only [Bool.false_eq_true,if_false] at hd
      cases hre : r.isEmpty with
      | true =>
        rw [hre,if_pos rfl] at hd
        obtain ⟨a,b,hv,hm,hab⟩ := ihl hl hd
        unfold middleHash besideEmpty at hh
        rw [hle,hre,if_pos rfl,hd] at hh
        have hlh : l.hash=h := Except.ok.inj hh
        rw [isEmpty_iff.mp hre]
        exact ⟨a,b,by simp [values,hv],by simp [hashed,hm],by rw [← hab,hlh,hash]⟩
      | false =>
        rw [hre] at hd
        simp only [Bool.false_eq_true,if_false,Except.ok.injEq,Bool.and_eq_true] at hd
        obtain ⟨a,rfl⟩ := isTerminal_iff.mp hd.1
        obtain ⟨b,rfl⟩ := isTerminal_iff.mp hd.2
        have hc := (hashChildren_ok (d := d) hl hr hh).2.2
        exact ⟨a,b,by simp [values],by simp [hashed],hc⟩

theorem isIncluded_middle_ok {b : Bool} {proof : Bytes} (hi : isIncluded v (middle l r h) d = .ok (b,proof)) :
    v.getMsbD d=true ∧ (∃ below,isIncluded v r (d+1) = .ok (b,below)) ∨
      v.getMsbD d=false ∧ ∃ below,isIncluded v l (d+1) = .ok (b,below) := by
  unfold isIncluded at hi
  obtain ⟨bit,hbit,hi⟩ := bind_ok.mp hi
  have hv := getBit_eq_ok hbit
  cases bit with
  | true =>
    rw [if_pos rfl] at hi
    obtain ⟨_,_,hi⟩ := bind_ok.mp hi
    obtain ⟨⟨b',below⟩,hr,hi⟩ := bind_ok.mp hi
    have hb := (Prod.mk.inj (Except.ok.inj hi)).1
    exact Or.inl ⟨hv,below,by rw [hr,← hb]⟩
  | false =>
    rw [if_neg (by decide)] at hi
    obtain ⟨⟨b',below⟩,hl,hi⟩ := bind_ok.mp hi
    obtain ⟨_,_,hi⟩ := bind_ok.mp hi
    have hb := (Prod.mk.inj (Except.ok.inj hi)).1
    exact Or.inr ⟨hv,below,by rw [hl,← hb]⟩

theorem mem_values_right (hw : (middle l r h).WellFormed O d) (hv : v.getMsbD d=true) :
    v∈(middle l r h).values ↔ v∈r.values := by
  constructor
  · intro hm
    obtain ⟨_,hb⟩ | ⟨hr,_⟩ := bit_of_mem hw hm
    · exact absurd hv (by simp [hb])
    · exact hr
  · intro hm
    simp [values,hm]

theorem mem_values_left (hw : (middle l r h).WellFormed O d) (hv : v.getMsbD d=false) :
    v∈(middle l r h).values ↔ v∈l.values := by
  constructor
  · intro hm
    obtain ⟨hl,_⟩ | ⟨_,hb⟩ := bit_of_mem hw hm
    · exact hl
    · exact absurd hv (by simp [hb])
  · intro hm
    simp [values,hm]

/-- An answer is right for the tree that gives it, whatever is cut off. -/
theorem isIncluded_values {b : Bool} {proof : Bytes} (hw : t.WellFormed O d)
    (hi : isIncluded v t d = .ok (b,proof)) : b=true ↔ v∈t.values := by
  induction t generalizing d proof with
  | empty =>
    have hb := (Prod.mk.inj (Except.ok.inj hi)).1
    simp [← hb,values]
  | terminal a =>
    have hb := (Prod.mk.inj (Except.ok.inj hi)).1
    simp [← hb,values]
  | truncated a => simp [isIncluded] at hi
  | middle l r h ihl ihr =>
    obtain ⟨hv,below,hr⟩ | ⟨hv,below,hl⟩ := isIncluded_middle_ok hi
    · rw [mem_values_right hw hv]
      exact ihr hw.2.1 hr
    · rw [mem_values_left hw hv]
      exact ihl hw.1 hl

/-- No two different strings of a list have one hash, and none hashes to the blank. -/
structure CollisionFree (O : Oracles) (strings : List Bytes) : Prop where
  inj : ∀ a∈strings,∀ b∈strings,O.stdHash a=O.stdHash b → a=b
  blank : ∀ a∈strings,O.stdHash a≠zeros32

theorem terminal_of_getHash {a : Bytes32} (ht : t.getHash=(terminal a).getHash) : t=terminal a := by
  cases t with
  | empty => exact absurd (List.cons.inj ht).1 (by decide)
  | terminal b => rw [bytes32_inj (List.cons.inj ht).2]
  | middle l r h => exact absurd (List.cons.inj ht).1 (by decide)
  | truncated b => exact absurd (List.cons.inj ht).1 (by decide)

theorem isDouble_of_children {a b : Bytes32} (hl : l.getHash=(terminal a).getHash)
    (hr : r.getHash=(terminal b).getHash) : (middle l r h).isDouble = .ok true := by
  rw [terminal_of_getHash hl,terminal_of_getHash hr]
  rfl

theorem getHash_terminal_length (a : Bytes32) : (terminal a).getHash.length=33 := by
  simp [getHash,bytes32_length]

variable {s : Bytes}

theorem hashed_left (hs : s∈l.hashed) : s∈(middle l r h).hashed := by simp [hashed,hs]

theorem hashed_right (hs : s∈r.hashed) : s∈(middle l r h).hashed := by simp [hashed,hs]

theorem isIncluded_sound {b : Bool} {proof : Bytes} (hw : t.WellFormed O d) (hc : t.Complete)
    (hw' : p.WellFormed O d) (hcol : CollisionFree O (t.hashed++p.hashed)) (hsame : p.getHash=t.getHash)
    (hi : isIncluded v p d = .ok (b,proof)) : b=true ↔ v∈t.values := by
  induction p generalizing t d proof with
  | empty =>
    cases t with
    | empty => exact isIncluded_values hw' hi
    | terminal a => exact absurd (List.cons.inj hsame).1 (by decide)
    | middle l r h => exact absurd (List.cons.inj hsame).1 (by decide)
    | truncated a => exact hc.elim
  | terminal a =>
    rw [terminal_of_getHash hsame.symm]
    exact isIncluded_values hw' hi
  | truncated a => simp [isIncluded] at hi
  | middle l' r' h' ihl ihr =>
    cases t with
    | empty => exact absurd (List.cons.inj hsame).1 (by decide)
    | terminal a => exact absurd (List.cons.inj hsame).1 (by decide)
    | truncated a => exact hc.elim
    | middle l r h =>
      have hhash : h'=h := bytes32_inj (List.cons.inj hsame).2
      obtain ⟨double,hd⟩ := isDouble_total hw inner_middle
      obtain ⟨double',hd'⟩ := isDouble_total hw' inner_middle
      cases double with
      | true =>
        obtain ⟨a,b,hv,hm,hab⟩ := hash_of_double hw hd
        cases double' with
        | true =>
          -- both are pairs: the hash tells the values
          obtain ⟨a',b',hv',hm',hab'⟩ := hash_of_double hw' hd'
          have hstr := hcol.inj _ (List.mem_append_right _ hm') _ (List.mem_append_left _ hm)
            (hab'.symm.trans (hhash.trans hab))
          obtain ⟨ha,hb⟩ := preimage_inj (getHash_terminal_length _) (getHash_terminal_length _)
            (getHash_terminal_length _) (getHash_terminal_length _) hstr
          rw [hv,← MerkleNode.terminal.inj (terminal_of_getHash ha),← MerkleNode.terminal.inj (terminal_of_getHash hb),← hv']
          exact isIncluded_values hw' hi
        | false =>
          obtain ⟨hll,hrl,hhl⟩ := hash_of_not_double hw' hd'
          have hstr := hcol.inj _ (List.mem_append_right _ (by simp [hashed])) _ (List.mem_append_left _ hm)
            (hhl.symm.trans (hhash.trans hab))
          obtain ⟨ha,hb⟩ := preimage_inj hll hrl (getHash_terminal_length _) (getHash_terminal_length _) hstr
          rw [isDouble_of_children ha hb] at hd'
          cases hd'
      | false =>
        obtain ⟨hll,hrl,hhl⟩ := hash_of_not_double hw hd
        cases double' with
        | true =>
          obtain ⟨a',b',hv',hm',hab'⟩ := hash_of_double hw' hd'
          have hstr := hcol.inj _ (List.mem_append_left _ (by simp [hashed])) _ (List.mem_append_right _ hm')
            (hhl.symm.trans (hhash.symm.trans hab'))
          obtain ⟨ha,hb⟩ := preimage_inj hll hrl (getHash_terminal_length _) (getHash_terminal_length _) hstr
          rw [isDouble_of_children ha hb] at hd
          cases hd
        | false =>
          obtain ⟨hll',hrl',hhl'⟩ := hash_of_not_double hw' hd'
          have hstr := hcol.inj _ (List.mem_append_right _ (by simp [hashed])) _
            (List.mem_append_left _ (by simp [hashed])) (hhl'.symm.trans (hhash.trans hhl))
          obtain ⟨ha,hb⟩ := preimage_inj hll' hrl' hll hrl hstr
          have hsub {t' p' : MerkleNode} (ht : ∀ s∈t'.hashed,s∈(middle l r h).hashed)
              (hp : ∀ s∈p'.hashed,s∈(middle l' r' h').hashed) : CollisionFree O (t'.hashed++p'.hashed) := by
            have hin : ∀ s∈t'.hashed++p'.hashed,s∈(middle l r h).hashed++(middle l' r' h').hashed := by
              intro s hs
              obtain hs | hs := List.mem_append.mp hs
              · exact List.mem_append_left _ (ht s hs)
              · exact List.mem_append_right _ (hp s hs)
            exact ⟨fun a ha b hb => hcol.inj a (hin a ha) b (hin b hb),fun a ha => hcol.blank a (hin a ha)⟩
          obtain ⟨hv,below,hr⟩ | ⟨hv,below,hl⟩ := isIncluded_middle_ok hi
          · rw [mem_values_right hw hv]
            exact ihr hw.2.1 hc.2 hw'.2.1 (hsub (fun _ => hashed_right) (fun _ => hashed_right)) hb hr
          · rw [mem_values_left hw hv]
            exact ihl hw.1 hc.1 hw'.1 (hsub (fun _ => hashed_left) (fun _ => hashed_left)) ha hl

/-- The values of a parsed tree are where the bits of the parse say. -/
def Placed (bits : List Bool) (t : MerkleNode) : Prop :=
  ∀ y∈t.values,∀ i b,bits[i]?=some b → y.getMsbD i=b

variable {bits : List Bool}

theorem audited_ok (ha : audited b bits = .ok t) : t.WellFormed O d ∧ t.Placed bits := by
  unfold audited at ha
  obtain ⟨_,_,ha⟩ := bind_ok.mp ha
  obtain ⟨_,hf,ha⟩ := bind_ok.mp ha
  rw [← Except.ok.inj ha]
  refine ⟨trivial,?_⟩
  intro y hy i c hc
  rw [List.forM_eq_forM,forM_ok_iff] at hf
  have hbit := hf (c,i) (List.mk_mem_zipIdx_iff_getElem?.mpr hc)
  obtain ⟨bit,hget,hbit⟩ := bind_ok.mp hbit
  rw [assertThat_eq_ok] at hbit
  rw [List.mem_singleton.mp hy,getBit_eq_ok hget,hbit]

theorem deserialize_ok {proof : Bytes} {n pos pos' : ℕ}
    (hp : deserialize O proof n pos bits = .ok (t,pos')) : t.WellFormed O bits.length ∧ t.Placed bits := by
  induction n generalizing pos pos' bits t with
  | zero => simp [deserialize] at hp
  | succ n ih =>
    unfold deserialize at hp
    split at hp
    · rw [← (Prod.mk.inj (Except.ok.inj hp)).1]
      exact ⟨trivial,by simp [Placed,values]⟩
    · obtain ⟨t',ha,hp⟩ := bind_ok.mp hp
      rw [← (Prod.mk.inj (Except.ok.inj hp)).1]
      exact audited_ok ha
    · rw [← (Prod.mk.inj (Except.ok.inj hp)).1]
      refine ⟨?_,by simp [Placed,values]⟩
      change (List.take 32 _).length≤32
      exact List.length_take_le _ _
    · obtain ⟨⟨v₀,pos₁⟩,h₀,hp⟩ := bind_ok.mp hp
      obtain ⟨⟨v₁,pos₂⟩,h₁,hp⟩ := bind_ok.mp hp
      obtain ⟨m,hm,hp⟩ := bind_ok.mp hp
      obtain ⟨h,hh,rfl⟩ := mkMiddle_eq_ok.mp hm
      rw [← (Prod.mk.inj (Except.ok.inj hp)).1]
      obtain ⟨hw₀,hb₀⟩ := ih h₀
      obtain ⟨hw₁,hb₁⟩ := ih h₁
      rw [List.length_append,List.length_singleton] at hw₀ hw₁
      refine ⟨⟨hw₀,hw₁,fun y hy => hb₀ y hy _ _ (by simp),fun y hy => hb₁ y hy _ _ (by simp),hh⟩,?_⟩
      intro y hy i b hb
      have hi : i<bits.length := (List.getElem?_eq_some_iff.mp hb).1
      obtain hy | hy := List.mem_append.mp hy
      · exact hb₀ y hy i b (by rw [List.getElem?_append_left hi,hb])
      · exact hb₁ y hy i b (by rw [List.getElem?_append_left hi,hb])
    · cases hp

theorem hash_middle (hw : (middle l r h).WellFormed O d) :
    ∃ s,(0::s)∈(middle l r h).hashed ∧ h=O.stdHash (0::s) := by
  have hzero (b : Bytes) : preimage b=0::(preimage b).tail := rfl
  obtain ⟨double,hd⟩ := isDouble_total hw inner_middle
  cases double with
  | true =>
    obtain ⟨a,b,_,hm,hab⟩ := hash_of_double hw hd
    rw [hzero] at hm hab
    exact ⟨_,hm,hab⟩
  | false =>
    obtain ⟨_,_,hhl⟩ := hash_of_not_double hw hd
    rw [hzero] at hhl
    refine ⟨_,?_,hhl⟩
    rw [← hzero]
    simp [hashed]

end MerkleNode

namespace MerkleSet
open MerkleNode
variable {O : Oracles} {root : MerkleNode} {hash val : Bytes32} {proof : Bytes}

theorem getHash_of_getRoot {p : MerkleNode} {b : Bool} {bytes : Bytes} (hw : root.WellFormed O 0)
    (hc : root.Complete) (hw' : p.WellFormed O 0) (hcol : CollisionFree O (root.hashed++p.hashed))
    (hr : getRoot O root = .ok hash) (hr' : getRoot O p = .ok hash)
    (hi : MerkleNode.isIncluded val p 0 = .ok (b,bytes)) : p.getHash=root.getHash := by
  cases p with
  | truncated a => simp [MerkleNode.isIncluded] at hi
  | empty =>
    have h₀ : zeros32=hash := Except.ok.inj (getRoot_empty.symm.trans hr')
    subst h₀
    cases root with
    | empty => rfl
    | terminal a =>
      rw [getRoot_terminal,Except.ok.injEq] at hr
      exact absurd hr (hcol.blank _ (by simp [hashed]))
    | middle l r h =>
      obtain ⟨s,hs,hh⟩ := hash_middle hw
      rw [getRoot_middle,Except.ok.injEq,hh] at hr
      exact absurd hr (hcol.blank _ (List.mem_append_left _ hs))
    | truncated a => exact hc.elim
  | terminal a' =>
    have h₀ : O.stdHash (1::bytes32 a')=hash := Except.ok.inj ((getRoot_terminal a').symm.trans hr')
    subst h₀
    cases root with
    | empty =>
      rw [getRoot_empty,Except.ok.injEq] at hr
      exact absurd hr.symm (hcol.blank _ (by simp [hashed]))
    | terminal a =>
      rw [getRoot_terminal,Except.ok.injEq] at hr
      exact (hcol.inj _ (by simp [hashed]) _ (by simp [hashed]) hr).symm
    | middle l r h =>
      obtain ⟨s,hs,hh⟩ := hash_middle hw
      rw [getRoot_middle,Except.ok.injEq,hh] at hr
      have := hcol.inj _ (List.mem_append_left _ hs) _ (by simp [hashed]) hr
      exact absurd (List.cons.inj this).1 (by decide)
    | truncated a => exact hc.elim
  | middle l' r' h' =>
    have h₀ : h'=hash := Except.ok.inj ((getRoot_middle l' r' h').symm.trans hr')
    subst h₀
    obtain ⟨s',hs',hh'⟩ := hash_middle hw'
    cases root with
    | empty =>
      rw [getRoot_empty,Except.ok.injEq,hh'] at hr
      exact absurd hr.symm (hcol.blank _ (List.mem_append_right _ hs'))
    | terminal a =>
      rw [getRoot_terminal,Except.ok.injEq,hh'] at hr
      have := hcol.inj _ (by simp [hashed]) _ (List.mem_append_right _ hs') hr
      exact absurd (List.cons.inj this).1 (by decide)
    | middle l r h =>
      rw [getRoot_middle,Except.ok.injEq] at hr
      simp [getHash,hr]
    | truncated a => exact hc.elim

theorem confirm_ok {expected : Bool} (h : confirm O hash val proof expected = .ok true) :
    ∃ p bytes,deserializeProof O proof = .ok p ∧ getRoot O p = .ok hash ∧
      MerkleNode.isIncluded val p 0 = .ok (expected,bytes) := by
  unfold confirm at h
  dsimp only at h
  split at h
  · cases h
  · obtain ⟨p,hp,h⟩ := bind_ok.mp h
    obtain ⟨proved,hr,h⟩ := bind_ok.mp h
    split_ifs at h with hne
    · cases h
    · obtain ⟨⟨b,bytes⟩,hi,h⟩ := bind_ok.mp h
      have hb : b=expected := by simpa using Except.ok.inj h
      have hroot : proved=hash := by simpa using hne
      exact ⟨p,bytes,hp,by rw [hr,hroot],by rw [← hb]; exact hi⟩

theorem deserializeProof_ok {p : MerkleNode} (h : deserializeProof O proof = .ok p) : p.WellFormed O 0 := by
  unfold deserializeProof at h
  dsimp only at h
  split at h
  · cases h
  · obtain ⟨⟨r,pos⟩,hd,h⟩ := bind_ok.mp h
    obtain ⟨_,_,h⟩ := bind_ok.mp h
    rw [← Except.ok.inj h]
    exact (deserialize_ok hd).1

/-- The strings that checking a proof hashes. -/
def proofHashed (O : Oracles) (proof : Bytes) : List Bytes :=
  match deserializeProof O proof with
  | .ok p => p.hashed
  | .error _ => []

/-- An accepted proof tells the truth about the set, unless it shows two strings with one hash. -/
theorem confirm_sound (cs : List Call) (val hash : Bytes32) (proof : Bytes) (root : MerkleNode)
    (hrun : run O .empty cs = .ok root) (hroot : getRoot O root = .ok hash)
    (hcol : CollisionFree O (root.hashed++proofHashed O proof)) :
    (confirmIncludedAlreadyHashed O hash val proof = .ok true → val∈contents cs) ∧
      (confirmNotIncludedAlreadyHashed O hash val proof = .ok true → val∉contents cs) := by
  obtain ⟨root',hrun',ht⟩ := treeOf_contents (O := O) cs
  rw [hrun,Except.ok.injEq] at hrun'
  subst hrun'
  have hall (expected : Bool) (h : confirm O hash val proof expected = .ok true) :
      expected=true ↔ val∈contents cs := by
    obtain ⟨p,bytes,hp,hr,hi⟩ := confirm_ok h
    have hcol' : CollisionFree O (root.hashed++p.hashed) := by
      unfold proofHashed at hcol
      rw [hp] at hcol
      exact hcol
    have hwp := deserializeProof_ok hp
    have hsame := getHash_of_getRoot ht.wellFormed ht.complete hwp hcol' hroot hr hi
    rw [isIncluded_sound ht.wellFormed ht.complete hwp hcol' hsame hi]
    exact ht.values val
  constructor
  · intro h
    exact (hall true h).mp rfl
  · intro h hm
    exact absurd ((hall false h).mpr hm) (by decide)

def lengthHash : Oracles :=
  { tinyEnv.toOracles with stdHash := fun b => BitVec.ofNat 256 (natOfBytes b+b.length) }

/-- Two values that differ in their first bit, and the proof of the larger one. -/
def twoValues : List Call := [.addAlreadyHashed 0,.addAlreadyHashed (2^255)]

def twoValuesProof : Bytes := 2::(1::bytes32 0)++(1::bytes32 (2^255))

def twoValuesTree : MerkleNode := .middle (.terminal 0) (.terminal (2^255)) (2^255+96)

theorem confirm_sound_two : (2^255 : Bytes32)∈contents twoValues := by
  have hcol : CollisionFree lengthHash (twoValuesTree.hashed++proofHashed lengthHash twoValuesProof) :=
    ⟨by decide +kernel,by decide +kernel⟩
  have h := confirm_sound twoValues (2^255) (2^255+96) twoValuesProof twoValuesTree
    (by decide +kernel) (getRoot_middle _ _ _) hcol
  exact h.1 (by decide +kernel)

end MerkleSet

end RoseChain
