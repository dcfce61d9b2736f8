import RoseChain.Util.MerkleSet

namespace RoseChain

variable {pos : ℕ}

theorem getBit_eq {x : Bytes32} (h : pos<256) : MerkleNode.getBit x pos = .ok (x.getMsbD pos) := by
  simp [MerkleNode.getBit,index,h]

theorem getBit_eq_ok {x : Bytes32} {b : Bool} (h : MerkleNode.getBit x pos = .ok b) : x.getMsbD pos=b := by
  unfold MerkleNode.getBit at h
  split_ifs at h with hp
  · simpa using h
  · simp at h

variable {y : Bytes32}

theorem eq_of_bits {x : Bytes32} {d : ℕ} (hd : 256≤d) (h : ∀ i<d,x.getMsbD i=y.getMsbD i) : x=y := by
  apply BitVec.eq_of_getMsbD_eq
  intro i hi
  exact h i (by omega)

theorem lt_of_bit {x : Bytes32} {d : ℕ} (h : ∀ i<d,x.getMsbD i=y.getMsbD i)
    (hx : x.getMsbD d=false) (hy : y.getMsbD d=true) : x<y := by
  have hd : d<256 := by
    by_contra hd
    rw [eq_of_bits (by omega) h,hy] at hx
    cases hx
  have bit (z : Bytes32) (i : ℕ) (hi : i<256) : z.toNat.testBit i=z.getMsbD (255-i) := by
    rw [BitVec.getMsbD_eq_getLsbD,BitVec.testBit_toNat]
    have : 256-1-(255-i)=i := by omega
    rw [this]
    simp [show 255-i<256 by omega]
  rw [BitVec.lt_def]
  apply Nat.lt_of_testBit (255-d)
  · rw [bit x _ (by omega),show 255-(255-d)=d by omega,hx]
  · rw [bit y _ (by omega),show 255-(255-d)=d by omega,hy]
  · intro j hj
    by_cases hlt : j<256
    · rw [bit x j hlt,bit y j hlt]
      exact h _ (by omega)
    · have hbig (z : Bytes32) : z.toNat.testBit j=false := by
        apply Nat.testBit_lt_two_pow
        exact z.isLt.trans_le (Nat.pow_le_pow_right (by decide) (by omega))
      rw [hbig,hbig]

theorem bytes32_length (x : Bytes32) : (bytes32 x).length=32 := by
  simp [bytes32]

theorem natOfBytes_digits (m n : ℕ) :
    natOfBytes ((List.range n).map fun i => UInt8.ofNat (m / 256^(n-1-i)))=m % 256^n := by
  induction n generalizing m with
  | zero => simp [natOfBytes,Nat.mod_one]
  | succ n ih =>
    have hprefix : (List.range n).map (fun i => UInt8.ofNat (m / 256^(n+1-1-i))) =
        (List.range n).map fun i => UInt8.ofNat (m / 256 / 256^(n-1-i)) := by
      apply List.map_congr_left
      intro i hi
      have hi' := List.mem_range.mp hi
      rw [Nat.div_div_eq_div_mul,← pow_succ',show n-1-i+1=n+1-1-i by omega]
    rw [List.range_succ,List.map_append, hprefix]
    simp only [List.map_cons,List.map_nil]
    rw [natOfBytes_concat,ih]
    have hlast : (UInt8.ofNat (m / 256^(n+1-1-n))).toNat=m % 256 := by simp
    rw [hlast,pow_succ',Nat.mod_mul]
    omega

@[simp] theorem toBytes32_bytes32 (x : Bytes32) : toBytes32 (bytes32 x)=x := by
  apply BitVec.eq_of_toNat_eq
  have h := natOfBytes_digits x.toNat 32
  unfold toBytes32 bytes32
  rw [BitVec.toNat_ofNat,h]
  have := x.isLt
  omega

theorem bytes32_inj {x : Bytes32} (h : bytes32 x=bytes32 y) : x=y := by
  rw [← toBytes32_bytes32 x,h,toBytes32_bytes32]

namespace MerkleNode
variable {O : Oracles} {d : ℕ} {x : Bytes32} {t l r : MerkleNode} {h : Bytes32}

def values : MerkleNode → List Bytes32
  | empty => []
  | terminal h => [h]
  | middle left right _ => left.values++right.values
  | truncated _ => []

variable (O) in
/-- Terminals sit where their bits say, and each middle node is one that `MiddleNode` makes. -/
def WellFormed : ℕ → MerkleNode → Prop
  | _,truncated h => h.length≤32
  | d,middle left right h =>
    left.WellFormed (d+1) ∧ right.WellFormed (d+1) ∧
      (∀ x∈left.values,x.getMsbD d=false) ∧ (∀ x∈right.values,x.getMsbD d=true) ∧
        middleHash O left right = .ok h
  | _,_ => True

def Complete : MerkleNode → Prop
  | truncated _ => False
  | middle left right _ => left.Complete ∧ right.Complete
  | _ => True

/-- The place at depth `d` on the way to `x`. -/
def Under (x : Bytes32) (d : ℕ) (t : MerkleNode) : Prop :=
  ∀ y∈t.values,∀ i<d,y.getMsbD i=x.getMsbD i

def Inner (t : MerkleNode) : Prop := t.isEmpty=false ∧ t.isTerminal=false

theorem isEmpty_iff : t.isEmpty=true ↔ t=empty := by
  cases t <;> simp [isEmpty]

theorem isTerminal_iff : t.isTerminal=true ↔ ∃ a,t=terminal a := by
  cases t <;> simp [isTerminal]

theorem getHash_length (hc : t.Complete) : t.getHash.length=33 := by
  cases t with
  | truncated _ => exact hc.elim
  | _ => simp [getHash,bytes32_length]

theorem middleHash_shape (hh : middleHash O l r = .ok h) :
    (l.isEmpty=true → r.Inner) ∧ (r.isEmpty=true → l.Inner) := by
  unfold middleHash besideEmpty hashChildren at hh
  constructor
  · intro hl
    have hle := isEmpty_iff.mp hl
    subst hle
    cases r <;> simp_all [isEmpty,isTerminal,isDouble,Inner,bind,Except.bind]
  · intro hr
    have hre := isEmpty_iff.mp hr
    subst hre
    cases l <;> simp_all [isEmpty,isTerminal,isDouble,Inner,bind,Except.bind,raiseSetIf]

theorem isDouble_total (hw : t.WellFormed O d) (hi : t.Inner) : ∃ b,t.isDouble = .ok b := by
  induction t generalizing d with
  | empty => simp [Inner,isEmpty] at hi
  | terminal a => simp [Inner,isTerminal] at hi
  | truncated a => exact ⟨false,rfl⟩
  | middle l r h ihl ihr =>
    obtain ⟨hl,hr,_,_,hh⟩ := hw
    have hs := middleHash_shape hh
    unfold isDouble
    split_ifs with h₁ h₂
    · exact ihr hr (hs.1 h₁)
    · exact ihl hl (hs.2 h₂)
    · exact ⟨_,rfl⟩

theorem besideEmpty_total (hr : r.WellFormed O d) (hs : l.isEmpty=true → r.Inner) :
    ∃ b,besideEmpty l r = .ok b := by
  unfold besideEmpty
  split_ifs with hl
  · exact isDouble_total hr (hs hl)
  · exact ⟨false,rfl⟩

theorem middleHash_total (hl : l.WellFormed O (d+1)) (hr : r.WellFormed O (d+1))
    (hlen : l.getHash.length=33) (hren : r.getHash.length=33)
    (hs₁ : l.isEmpty=true → r.Inner) (hs₂ : r.isEmpty=true → l.Inner)
    (hlt : l.isTerminal=true → r.isTerminal=true → l.hash < r.hash) : ∃ h,middleHash O l r = .ok h := by
  obtain ⟨b₁,hb₁⟩ := besideEmpty_total hr hs₁
  obtain ⟨b₂,hb₂⟩ := besideEmpty_total hl hs₂
  have hc : ∃ h,hashChildren O l r = .ok h := by
    have h₁ : ¬ (l.isEmpty=true ∧ (r.isEmpty=true ∨ r.isTerminal=true)) := by
      intro hx
      have hi := hs₁ hx.1
      simp [hi.1,hi.2] at hx
    have h₂ : ¬ (r.isEmpty=true ∧ l.isTerminal=true) := by
      intro hx
      have hi := hs₂ hx.1
      simp [hi.2] at hx
    have h₃ : ¬ (l.isTerminal=true ∧ r.isTerminal=true ∧ l.hash ≥ r.hash) := by
      intro hx
      exact absurd (hlt hx.1 hx.2.1) (BitVec.not_lt.mpr hx.2.2)
    refine ⟨O.stdHash (preimage (l.getHash++r.getHash)),?_⟩
    unfold hashChildren hashdown raiseSetIf assertThat
    rw [if_neg h₁,if_neg h₂,if_neg h₃,if_pos (by simp [hlen,hren])]
    rfl
  unfold middleHash
  rw [hb₁,hb₂]
  cases b₁ with
  | true => exact ⟨_,rfl⟩
  | false =>
    cases b₂ with
    | true => exact ⟨_,rfl⟩
    | false => exact hc

theorem mkMiddle_eq_ok : mkMiddle O l r = .ok t ↔ ∃ h,middleHash O l r = .ok h ∧ t=middle l r h := by
  unfold mkMiddle
  rw [bind_ok]
  simp only [pure,Except.pure,Except.ok.injEq,eq_comm]

theorem exists_value (hw : t.WellFormed O d) (hc : t.Complete) (hne : t.isEmpty=false) : ∃ a,a∈t.values := by
  induction t generalizing d with
  | empty => simp [isEmpty] at hne
  | terminal a => exact ⟨a,by simp [values]⟩
  | truncated a => exact hc.elim
  | middle l r h ihl ihr =>
    obtain ⟨hl,hr,_,_,hh⟩ := hw
    have hs := middleHash_shape hh
    cases hle : l.isEmpty with
    | true =>
      obtain ⟨a,ha⟩ := ihr hr hc.2 (hs.1 hle).1
      exact ⟨a,by simp [values,ha]⟩
    | false =>
      obtain ⟨a,ha⟩ := ihl hl hc.1 hle
      exact ⟨a,by simp [values,ha]⟩

theorem exists_ne (hw : t.WellFormed O d) (hc : t.Complete) (hi : t.Inner) : ∃ a∈t.values,∃ b∈t.values,a≠b := by
  induction t generalizing d with
  | empty => simp [Inner,isEmpty] at hi
  | terminal a => simp [Inner,isTerminal] at hi
  | truncated a => exact hc.elim
  | middle l r h ihl ihr =>
    obtain ⟨hl,hr,hbl,hbr,hh⟩ := hw
    have hs := middleHash_shape hh
    cases hle : l.isEmpty with
    | true =>
      obtain ⟨a,ha,b,hb,hab⟩ := ihr hr hc.2 (hs.1 hle)
      exact ⟨a,by simp [values,ha],b,by simp [values,hb],hab⟩
    | false =>
      cases hre : r.isEmpty with
      | true =>
        obtain ⟨a,ha,b,hb,hab⟩ := ihl hl hc.1 (hs.2 hre)
        exact ⟨a,by simp [values,ha],b,by simp [values,hb],hab⟩
      | false =>
        obtain ⟨a,ha⟩ := exists_value hl hc.1 hle
        obtain ⟨b,hb⟩ := exists_value hr hc.2 hre
        refine ⟨a,by simp [values,ha],b,by simp [values,hb],?_⟩
        intro hab
        have h₁ := hbl a ha
        rw [hab,hbr b hb] at h₁
        cases h₁

theorem depth_lt (hw : t.WellFormed O d) (hc : t.Complete) (hi : t.Inner) (hu : Under x d t) : d<256 := by
  by_contra hd
  obtain ⟨a,ha,b,hb,hab⟩ := exists_ne hw hc hi
  have h₁ := eq_of_bits (by omega) (hu a ha)
  have h₂ := eq_of_bits (by omega) (hu b hb)
  exact hab (h₁.trans h₂.symm)

theorem inner_middle : (middle l r h).Inner := ⟨rfl,rfl⟩

theorem Under.left (hu : Under x d (middle l r h)) (hb : ∀ y∈l.values,y.getMsbD d=false)
    (hx : x.getMsbD d=false) : Under x (d+1) l := by
  intro y hy i hi
  obtain hlt | heq := Nat.lt_succ_iff_lt_or_eq.mp hi
  · exact hu y (by simp [values,hy]) i hlt
  · rw [heq,hb y hy,hx]

theorem Under.right (hu : Under x d (middle l r h)) (hb : ∀ y∈r.values,y.getMsbD d=true)
    (hx : x.getMsbD d=true) : Under x (d+1) r := by
  intro y hy i hi
  obtain hlt | heq := Nat.lt_succ_iff_lt_or_eq.mp hi
  · exact hu y (by simp [values,hy]) i hlt
  · rw [heq,hb y hy,hx]

theorem mkMiddle_total (hl : l.WellFormed O (d+1)) (hr : r.WellFormed O (d+1))
    (hcl : l.Complete) (hcr : r.Complete)
    (hbl : ∀ y∈l.values,y.getMsbD d=false) (hbr : ∀ y∈r.values,y.getMsbD d=true)
    (hul : Under x d l) (hur : Under x d r) (hs₁ : l.isEmpty=true → r.Inner) (hs₂ : r.isEmpty=true → l.Inner) :
    ∃ t,mkMiddle O l r = .ok t ∧ t.WellFormed O d ∧ t.Complete ∧ t.Inner ∧ t.values=l.values++r.values := by
  have hlt : l.isTerminal=true → r.isTerminal=true → l.hash < r.hash := by
    intro h₁ h₂
    obtain ⟨a,rfl⟩ := isTerminal_iff.mp h₁
    obtain ⟨b,rfl⟩ := isTerminal_iff.mp h₂
    apply lt_of_bit (d := d)
    · intro i hi
      exact (hul a (by simp [values]) i hi).trans (hur b (by simp [values]) i hi).symm
    · exact hbl a (by simp [values])
    · exact hbr b (by simp [values])
  obtain ⟨h,hh⟩ := middleHash_total hl hr (getHash_length hcl) (getHash_length hcr) hs₁ hs₂ hlt
  exact ⟨middle l r h,mkMiddle_eq_ok.mpr ⟨h,hh,rfl⟩,⟨hl,hr,hbl,hbr,hh⟩,⟨hcl,hcr⟩,inner_middle,rfl⟩

theorem makeMiddle_spec {small large : Bytes32} (hlt : small<large) (n : ℕ)
    (hbits : ∀ i<d,small.getMsbD i=large.getMsbD i) (hn : 256<n+d) :
    ∃ t,makeMiddle O small large n d = .ok t ∧ t.WellFormed O d ∧ t.Complete ∧ t.Inner ∧
      t.values=[small,large] := by
  have hne : small≠large := by
    intro heq
    exact absurd hlt (by simp [heq])
  have hd : d<256 := by
    by_contra hd
    exact hne (eq_of_bits (by omega) hbits)
  induction n generalizing d with
  | zero => omega
  | succ n ih =>
    unfold makeMiddle
    rw [getBit_eq hd,getBit_eq hd]
    simp only [bind,Except.bind]
    split_ifs with hb hs
    · -- the order of the values decides which one has the zero
      have hsmall : small.getMsbD d=false := by
        by_contra hs
        have hs' : small.getMsbD d=true := by simpa using hs
        have hl' : large.getMsbD d=false := by
          cases hl : large.getMsbD d with
          | false => rfl
          | true => exact absurd (hs'.trans hl.symm) hb
        have hgt := lt_of_bit (fun i hi => (hbits i hi).symm) hl' hs'
        rw [BitVec.lt_def] at hgt hlt
        omega
      have hlarge : large.getMsbD d=true := by
        cases hl : large.getMsbD d with
        | true => rfl
        | false => exact absurd (hsmall.trans hl.symm) hb
      have hul : Under small d (terminal large) := by
        intro y hy i hi
        simp only [values,List.mem_singleton] at hy
        rw [hy,hbits i hi]
      exact mkMiddle_total trivial trivial trivial trivial (by simpa [values] using hsmall)
        (by simpa [values] using hlarge) (x := small) (by simp [Under,values]) hul
        (by simp [isEmpty]) (by simp [isEmpty])
    all_goals
      have hbits' : ∀ i<d+1,small.getMsbD i=large.getMsbD i := by
        intro i hi
        obtain hlt' | heq := Nat.lt_succ_iff_lt_or_eq.mp hi
        · exact hbits i hlt'
        · rw [heq]
          simpa using hb
      have hd' : d+1<256 := by
        by_contra hd'
        exact hne (eq_of_bits (by omega) hbits')
      obtain ⟨below,hrun,hw,hc,hi,hv⟩ := ih hbits' (by omega) hd'
      have hu : Under small d below := by
        intro y hy i hi
        rw [hv] at hy
        obtain rfl | hy := List.mem_cons.mp hy
        · rfl
        · rw [List.mem_singleton.mp hy,hbits i hi]
      rw [hrun]
      dsimp only
    · have hv' : ∀ y∈below.values,y.getMsbD d=true := by
        intro y hy
        rw [hv] at hy
        obtain rfl | hy := List.mem_cons.mp hy
        · exact hs
        · rw [List.mem_singleton.mp hy]
          simpa [hs] using hb
      obtain ⟨t,ht,hw',hc',hi',hvs⟩ := mkMiddle_total (O := O) (d := d) (l := empty) trivial hw trivial hc
        (by simp [values]) hv' (x := small) (by simp [Under,values]) hu (fun _ => hi)
        (fun he => absurd he (by simp [hi.1]))
      exact ⟨t,ht,hw',hc',hi',by simpa [values,hv] using hvs⟩
    · have hv' : ∀ y∈below.values,y.getMsbD d=false := by
        intro y hy
        rw [hv] at hy
        obtain rfl | hy := List.mem_cons.mp hy
        · simpa using hs
        · rw [List.mem_singleton.mp hy]
          simpa [hs] using hb
      obtain ⟨t,ht,hw',hc',hi',hvs⟩ := mkMiddle_total (O := O) (d := d) (r := empty) hw trivial hc trivial
        hv' (by simp [values]) (x := small) hu (by simp [Under,values])
        (fun he => absurd he (by simp [hi.1])) (fun _ => hi)
      exact ⟨t,ht,hw',hc',hi',by simpa [values,hv] using hvs⟩

/-- A part of the tree changed at `x`: `keep` says which values are there afterwards. -/
structure Changed (O : Oracles) (d : ℕ) (keep : Bytes32 → Prop) (t : MerkleNode) : Prop where
  wellFormed : t.WellFormed O d
  complete : t.Complete
  values : ∀ y,y∈t.values ↔ keep y

theorem Changed.congr {p q : Bytes32 → Prop} (hc : Changed O d p t) (h : ∀ y,p y ↔ q y) : Changed O d q t :=
  ⟨hc.wellFormed,hc.complete,fun y => (hc.values y).trans (h y)⟩

theorem bit_of_mem {y : Bytes32} (hw : (middle l r h).WellFormed O d) (hy : y∈(middle l r h).values) :
    y∈l.values ∧ y.getMsbD d=false ∨ y∈r.values ∧ y.getMsbD d=true := by
  obtain ⟨_,_,hbl,hbr,_⟩ := hw
  obtain hy | hy := List.mem_append.mp hy
  · exact Or.inl ⟨hy,hbl y hy⟩
  · exact Or.inr ⟨hy,hbr y hy⟩

theorem add_spec (hw : t.WellFormed O d) (hc : t.Complete) (hu : Under x d t) :
    ∃ t',add O x t d = .ok t' ∧ Changed O d (fun y => y=x ∨ y∈t.values) t' ∧
      t'.isEmpty=false ∧ (t.Inner → t'.Inner) := by
  induction t generalizing d with
  | empty =>
    refine ⟨terminal x,rfl,⟨trivial,trivial,?_⟩,rfl,?_⟩
    · simp [values]
    · simp [Inner,isEmpty]
  | terminal a =>
    have hbits : ∀ i<d,a.getMsbD i=x.getMsbD i := hu a (by simp [values])
    unfold add
    split_ifs with heq hgt
    · refine ⟨terminal a,rfl,⟨trivial,trivial,?_⟩,rfl,?_⟩
      · simp [values,heq]
      · simp [Inner,isTerminal]
    · obtain ⟨t,ht,hw',hc',hi',hv⟩ := makeMiddle_spec (O := O) hgt (257 - d) hbits (by omega)
      refine ⟨t,ht,⟨hw',hc',?_⟩,hi'.1,fun _ => hi'⟩
      intro y
      simp [hv,values,or_comm]
    · have hlt : x<a := by
        rw [gt_iff_lt,BitVec.lt_def] at hgt
        rw [BitVec.lt_def]
        have hne : x.toNat≠a.toNat := fun h => heq (BitVec.eq_of_toNat_eq h)
        omega
      obtain ⟨t,ht,hw',hc',hi',hv⟩ := makeMiddle_spec (O := O) hlt (257 - d)
        (fun i hi => (hbits i hi).symm) (by omega)
      refine ⟨t,ht,⟨hw',hc',?_⟩,hi'.1,fun _ => hi'⟩
      intro y
      simp [hv,values]
  | truncated a => exact hc.elim
  | middle l r h ihl ihr =>
    have hd := depth_lt hw hc inner_middle hu
    have hmem : ∀ y∈(middle l r h).values,_ := fun y => bit_of_mem hw
    obtain ⟨hl,hr,hbl,hbr,hh⟩ := hw
    have hs := middleHash_shape hh
    have hul : Under x d l := fun y hy => hu y (by simp [values,hy])
    have hur : Under x d r := fun y hy => hu y (by simp [values,hy])
    unfold add
    rw [getBit_eq hd]
    cases hb : x.getMsbD d with
    | true =>
      obtain ⟨r',hr',hcr,hne,hin⟩ := ihr hr hc.2 (hu.right hbr hb)
      simp only [bind,Except.bind,hr',if_true]
      split_ifs with hsame
      · subst hsame
        refine ⟨_,rfl,⟨⟨hl,hr,hbl,hbr,hh⟩,hc,?_⟩,rfl,fun h => h⟩
        intro y
        have := hcr.values y
        simp only [values,List.mem_append]
        grind
      · have hbr' : ∀ y∈r'.values,y.getMsbD d=true := by
          intro y hy
          obtain rfl | hy := (hcr.values y).mp hy
          · exact hb
          · exact hbr y hy
        have hur' : Under x d r' := by
          intro y hy
          obtain rfl | hy := (hcr.values y).mp hy
          · exact fun _ _ => rfl
          · exact hur y hy
        obtain ⟨t,ht,hw',hc',hi',hv⟩ := mkMiddle_total hl hcr.wellFormed hc.1 hcr.complete hbl hbr'
          hul hur' (fun hle => hin (hs.1 hle)) (fun he => absurd he (by simp [hne]))
        refine ⟨t,ht,⟨hw',hc',?_⟩,hi'.1,fun _ => hi'⟩
        intro y
        simp only [hv,List.mem_append,hcr.values,values]
        grind
    | false =>
      obtain ⟨l',hl',hcl,hne,hin⟩ := ihl hl hc.1 (hu.left hbl hb)
      simp only [bind,Except.bind,hl',Bool.false_eq_true,if_false]
      split_ifs with hsame
      · subst hsame
        refine ⟨_,rfl,⟨⟨hl,hr,hbl,hbr,hh⟩,hc,?_⟩,rfl,fun h => h⟩
        intro y
        have := hcl.values y
        simp only [values,List.mem_append]
        grind
      · have hbl' : ∀ y∈l'.values,y.getMsbD d=false := by
          intro y hy
          obtain rfl | hy := (hcl.values y).mp hy
          · exact hb
          · exact hbl y hy
        have hul' : Under x d l' := by
          intro y hy
          obtain rfl | hy := (hcl.values y).mp hy
          · exact fun _ _ => rfl
          · exact hul y hy
        obtain ⟨t,ht,hw',hc',hi',hv⟩ := mkMiddle_total hcl.wellFormed hr hcl.complete hc.2 hbl' hbr
          hul' hur (fun he => absurd he (by simp [hne])) (fun hre => hin (hs.2 hre))
        refine ⟨t,ht,⟨hw',hc',?_⟩,hi'.1,fun _ => hi'⟩
        intro y
        simp only [hv,List.mem_append,hcl.values,values]
        grind

variable {t' : MerkleNode}

theorem Changed.not_empty (hw : t.WellFormed O d) (hc : t.Complete) (hi : t.Inner)
    (ht : Changed O d (fun y => y≠x ∧ y∈t.values) t') : t'.isEmpty=false := by
  obtain ⟨a,ha,b,hb,hab⟩ := exists_ne hw hc hi
  have hex : ∃ y,y∈t'.values := by
    by_cases hax : a=x
    · exact ⟨b,(ht.values b).mpr ⟨fun h => hab (hax.trans h.symm),hb⟩⟩
    · exact ⟨a,(ht.values a).mpr ⟨hax,ha⟩⟩
  obtain ⟨y,hy⟩ := hex
  cases t' with
  | empty => simp [MerkleNode.values] at hy
  | _ => rfl

theorem inner_of {t : MerkleNode} (h₁ : t.isEmpty=false) (h₂ : ¬ t.isTerminal=true) : t.Inner :=
  ⟨h₁,by simpa using h₂⟩

/-- What the branch above becomes: the part that is left where nothing else is, or both again. -/
theorem rejoin_total {other new : MerkleNode} {both : Check MerkleNode} {keep : Bytes32 → Prop}
    (hkeep : ∀ y,y∈other.values ∨ y∈new.values ↔ keep y) (hne : other.isEmpty=true → new.isEmpty=false)
    (hboth : (other.isEmpty=true → new.Inner) → (new.isEmpty=true → other.Inner) →
      ∃ t',both = .ok t' ∧ Changed O d keep t') :
    ∃ t',(if new.isEmpty ∧ other.isTerminal then .ok other else if new.isTerminal ∧ other.isEmpty then .ok new
      else both) = .ok t' ∧ Changed O d keep t' := by
  split_ifs with hcut₁ hcut₂
  · obtain ⟨a,rfl⟩ := isTerminal_iff.mp hcut₁.2
    rw [isEmpty_iff.mp hcut₁.1] at hkeep
    exact ⟨_,rfl,trivial,trivial,fun y => by rw [← hkeep y]; simp [values]⟩
  · obtain ⟨a,rfl⟩ := isTerminal_iff.mp hcut₂.1
    rw [isEmpty_iff.mp hcut₂.2] at hkeep
    exact ⟨_,rfl,trivial,trivial,fun y => by rw [← hkeep y]; simp [values]⟩
  · refine hboth (fun he => inner_of (hne he) fun hx => hcut₂ ⟨hx,he⟩) fun hn => ?_
    refine inner_of ?_ fun hx => hcut₁ ⟨hn,hx⟩
    exact Bool.eq_false_iff.mpr fun he => by simp [hne he] at hn

theorem remove_spec (hw : t.WellFormed O d) (hc : t.Complete) (hu : Under x d t) :
    ∃ t',remove O x t d = .ok t' ∧ Changed O d (fun y => y≠x ∧ y∈t.values) t' := by
  induction t generalizing d with
  | empty => exact ⟨empty,rfl,trivial,trivial,by simp [values]⟩
  | terminal a =>
    unfold remove
    split_ifs with heq
    · refine ⟨empty,rfl,trivial,trivial,?_⟩
      intro y
      simp [values,heq]
    · refine ⟨terminal a,rfl,trivial,trivial,?_⟩
      intro y
      simp only [values,List.mem_singleton,iff_and_self]
      intro hy hyx
      exact heq (hyx.symm.trans hy)
  | truncated a => exact hc.elim
  | middle l r h ihl ihr =>
    have hd := depth_lt hw hc inner_middle hu
    obtain ⟨hl,hr,hbl,hbr,hh⟩ := hw
    have hs := middleHash_shape hh
    have hul : Under x d l := fun y hy => hu y (by simp [values,hy])
    have hur : Under x d r := fun y hy => hu y (by simp [values,hy])
    unfold remove
    rw [getBit_eq hd]
    cases hb : x.getMsbD d with
    | true =>
      obtain ⟨r',hr',hcr⟩ := ihr hr hc.2 (hu.right hbr hb)
      have hnotl : ∀ y∈l.values,y≠x := by
        intro y hy hyx
        rw [← hyx,hbl y hy] at hb
        cases hb
      have hkeep : ∀ y,y∈l.values ∨ y∈r'.values ↔ y≠x ∧ y∈(middle l r h).values := by
        intro y
        have h₁ := hcr.values y
        have h₂ := hnotl y
        simp only [values,List.mem_append]
        grind
      simp only [bind,Except.bind,hr',if_true]
      by_cases hsame : r'=r
      · rw [if_pos hsame]
        rw [hsame] at hkeep
        exact ⟨_,rfl,⟨hl,hr,hbl,hbr,hh⟩,hc,fun y => by rw [← hkeep y,values,List.mem_append]⟩
      rw [if_neg hsame]
      refine rejoin_total hkeep (fun hle => hcr.not_empty hr hc.2 (hs.1 hle)) fun hs₁ hs₂ => ?_
      obtain ⟨t,ht,hw',hc',_,hv⟩ := mkMiddle_total hl hcr.wellFormed hc.1 hcr.complete hbl
        (fun y hy => hbr y ((hcr.values y).mp hy).2) hul (fun y hy => hur y ((hcr.values y).mp hy).2) hs₁ hs₂
      exact ⟨t,ht,hw',hc',fun y => by rw [hv,List.mem_append,hkeep y]⟩
    | false =>
      obtain ⟨l',hl',hcl⟩ := ihl hl hc.1 (hu.left hbl hb)
      have hnotr : ∀ y∈r.values,y≠x := by
        intro y hy hyx
        rw [← hyx,hbr y hy] at hb
        cases hb
      have hkeep : ∀ y,y∈l'.values ∨ y∈r.values ↔ y≠x ∧ y∈(middle l r h).values := by
        intro y
        have h₁ := hcl.values y
        have h₂ := hnotr y
        simp only [values,List.mem_append]
        grind
      simp only [bind,Except.bind,hl',Bool.false_eq_true,if_false]
      by_cases hsame : l'=l
      · rw [if_pos hsame]
        rw [hsame] at hkeep
        exact ⟨_,rfl,⟨hl,hr,hbl,hbr,hh⟩,hc,fun y => by rw [← hkeep y,values,List.mem_append]⟩
      rw [if_neg hsame]
      refine rejoin_total (fun y => Or.comm.trans (hkeep y)) (fun hre => hcl.not_empty hl hc.1 (hs.2 hre))
        fun hs₁ hs₂ => ?_
      obtain ⟨t,ht,hw',hc',_,hv⟩ := mkMiddle_total hcl.wellFormed hr hcl.complete hc.2
        (fun y hy => hbl y ((hcl.values y).mp hy).2) hbr (fun y hy => hul y ((hcl.values y).mp hy).2) hur hs₂ hs₁
      exact ⟨t,ht,hw',hc',fun y => by rw [hv,List.mem_append,hkeep y]⟩

theorem unique (hw : t.WellFormed O d) (hc : t.Complete) (hw' : t'.WellFormed O d)
    (hc' : t'.Complete) (hv : ∀ y,y∈t.values ↔ y∈t'.values) : t=t' := by
  induction t generalizing d t' with
  | empty =>
    cases he : t'.isEmpty with
    | true => exact (isEmpty_iff.mp he).symm
    | false =>
      obtain ⟨a,ha⟩ := exists_value hw' hc' he
      exact absurd ((hv a).mpr ha) (by simp [values])
  | terminal a =>
    have ha : ∀ y∈t'.values,y=a := fun y hy => by simpa [values] using (hv y).mpr hy
    cases t' with
    | empty => exact absurd ((hv a).mp (by simp [values])) (by simp [values])
    | terminal b => rw [ha b (by simp [values])]
    | truncated b => exact hc'.elim
    | middle l r h =>
      obtain ⟨b,hb,c,hcm,hbc⟩ := exists_ne hw' hc' inner_middle
      exact absurd ((ha b hb).trans (ha c hcm).symm) hbc
  | truncated a => exact hc.elim
  | middle l r h ihl ihr =>
    cases t' with
    | empty =>
      obtain ⟨a,ha,_⟩ := exists_ne hw hc inner_middle
      exact absurd ((hv a).mp ha) (by simp [values])
    | terminal b =>
      obtain ⟨a,ha,c,hcm,hac⟩ := exists_ne hw hc inner_middle
      have h₁ := (hv a).mp ha
      have h₂ := (hv c).mp hcm
      simp only [values,List.mem_singleton] at h₁ h₂
      exact absurd (h₁.trans h₂.symm) hac
    | truncated b => exact hc'.elim
    | middle l' r' h' =>
      have hm := fun y => bit_of_mem (y := y) hw
      have hm' := fun y => bit_of_mem (y := y) hw'
      obtain ⟨hl,hr,hbl,hbr,hh⟩ := hw
      obtain ⟨hl',hr',hbl',hbr',hh'⟩ := hw'
      have hleft : l=l' := by
        apply ihl hl hc.1 hl' hc'.1
        intro y
        constructor
        · intro hy
          obtain ⟨hy',_⟩ | ⟨_,hb⟩ := hm' y ((hv y).mp (by simp [values,hy]))
          · exact hy'
          · exact absurd (hbl y hy) (by simp [hb])
        · intro hy
          obtain ⟨hy',_⟩ | ⟨_,hb⟩ := hm y ((hv y).mpr (by simp [values,hy]))
          · exact hy'
          · exact absurd (hbl' y hy) (by simp [hb])
      have hright : r=r' := by
        apply ihr hr hc.2 hr' hc'.2
        intro y
        constructor
        · intro hy
          obtain ⟨_,hb⟩ | ⟨hy',_⟩ := hm' y ((hv y).mp (by simp [values,hy]))
          · exact absurd (hbr y hy) (by simp [hb])
          · exact hy'
        · intro hy
          obtain ⟨_,hb⟩ | ⟨hy',_⟩ := hm y ((hv y).mpr (by simp [values,hy]))
          · exact absurd (hbr' y hy) (by simp [hb])
          · exact hy'
      subst hleft hright
      rw [hh] at hh'
      rw [Except.ok.inj hh']

theorem values_sorted (hw : t.WellFormed O d) (hu : ∀ x∈t.values,Under x d t) : t.values.Pairwise (· < ·) := by
  induction t generalizing d with
  | middle l r h ihl ihr =>
    obtain ⟨hl,hr,hbl,hbr,_⟩ := hw
    have hul := fun x hx => (hu x (by simp [values,hx])).left hbl (hbl x hx)
    have hur := fun x hx => (hu x (by simp [values,hx])).right hbr (hbr x hx)
    refine List.pairwise_append.mpr ⟨ihl hl hul,ihr hr hur,?_⟩
    intro a ha b hb
    apply lt_of_bit (d := d) _ (hbl a ha) (hbr b hb)
    exact hu b (by simp [values,hb]) a (by simp [values,ha])
  | _ => simp [values]

end MerkleNode

namespace MerkleSet
variable {O : Oracles}
open MerkleNode

def effect (S : Finset Bytes32) : Call → Finset Bytes32
  | .addAlreadyHashed x => insert x S
  | .removeAlreadyHashed x => S.erase x

def contents (cs : List Call) : Finset Bytes32 := cs.foldl effect ∅

/-- The tree of a set of values. -/
abbrev TreeOf (O : Oracles) (S : Finset Bytes32) (root : MerkleNode) : Prop :=
  Changed O 0 (fun y => y∈S) root

theorem treeOf_empty : TreeOf O ∅ .empty := ⟨trivial,trivial,by simp [values]⟩

variable {S : Finset Bytes32} {root : MerkleNode}

theorem TreeOf.unique {root' : MerkleNode} (h : TreeOf O S root) (h' : TreeOf O S root') : root=root' :=
  MerkleNode.unique h.wellFormed h.complete h'.wellFormed h'.complete
    fun y => (h.values y).trans (h'.values y).symm

theorem TreeOf.call (h : TreeOf O S root) (c : Call) :
    ∃ root',call O root c = .ok root' ∧ TreeOf O (effect S c) root' := by
  cases c with
  | addAlreadyHashed x =>
    obtain ⟨t,ht,hc,_⟩ := add_spec (x := x) h.wellFormed h.complete (fun _ _ i hi => absurd hi (by omega))
    exact ⟨t,ht,hc.congr fun y => by rw [h.values,effect,Finset.mem_insert]⟩
  | removeAlreadyHashed x =>
    obtain ⟨t,ht,hc⟩ := remove_spec (x := x) h.wellFormed h.complete (fun _ _ i hi => absurd hi (by omega))
    exact ⟨t,ht,hc.congr fun y => by rw [h.values,effect,Finset.mem_erase]⟩

theorem TreeOf.run (h : TreeOf O S root) (cs : List Call) :
    ∃ root',run O root cs = .ok root' ∧ TreeOf O (cs.foldl effect S) root' := by
  induction cs generalizing S root with
  | nil => exact ⟨root,rfl,h⟩
  | cons c cs ih =>
    obtain ⟨root₁,h₁,ht₁⟩ := h.call c
    obtain ⟨root₂,h₂,ht₂⟩ := ih ht₁
    refine ⟨root₂,?_,ht₂⟩
    rw [MerkleSet.run,h₁]
    exact h₂

theorem treeOf_contents (cs : List Call) : ∃ root,run O .empty cs = .ok root ∧ TreeOf O (contents cs) root :=
  treeOf_empty.run cs

theorem getRoot_empty : getRoot O .empty = .ok zeros32 := by
  simp [getRoot,compressRoot,getHash,bytes32_length,assertThat,bind,Except.bind]
  rfl

theorem getRoot_terminal (a : Bytes32) : getRoot O (.terminal a) = .ok (O.stdHash (1::bytes32 a)) := by
  simp [getRoot,compressRoot,getHash,bytes32_length,assertThat,bind,Except.bind]
  rfl

theorem getRoot_middle (l r : MerkleNode) (h : Bytes32) : getRoot O (.middle l r h) = .ok h := by
  simp [getRoot,compressRoot,getHash,bytes32_length,assertThat,bind,Except.bind]
  rfl

theorem getRoot_total (hc : root.Complete) : ∃ h,getRoot O root = .ok h := by
  cases root with
  | empty => exact ⟨_,getRoot_empty⟩
  | terminal a => exact ⟨_,getRoot_terminal a⟩
  | middle l r h => exact ⟨_,getRoot_middle l r h⟩
  | truncated a => exact hc.elim

/-- Calls that leave the same values leave the same tree, and it holds these values in order. -/
theorem run_canonical (cs : List Call) : ∃ root hash,run O .empty cs = .ok root ∧ getRoot O root = .ok hash ∧
      root.values.Pairwise (· < ·) ∧ (∀ y,y∈root.values ↔ y∈contents cs) ∧
      ∀ cs',contents cs'=contents cs → run O .empty cs' = .ok root := by
  obtain ⟨root,hrun,ht⟩ := treeOf_contents (O := O) cs
  obtain ⟨hash,hhash⟩ := getRoot_total (O := O) ht.complete
  refine ⟨root,hash,hrun,hhash,?_,ht.values,?_⟩
  · exact values_sorted ht.wellFormed fun _ _ _ _ i hi => absurd hi (by omega)
  · intro cs' hsame
    obtain ⟨root',hrun',ht'⟩ := treeOf_contents (O := O) cs'
    rw [hsame] at ht'
    rw [hrun',ht'.unique ht]

end MerkleSet

end RoseChain
