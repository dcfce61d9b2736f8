import RoseChain.Util.MerkleCompleteness

namespace RoseChain

namespace MerkleNode
variable {O : Oracles} {d n m pos pos' : ℕ} {v : Bytes32} {t l r : MerkleNode} {h : Bytes32} {bits : List Bool}
  {proof : Bytes}

/-- Returns, or raises an error that `_confirm` catches. -/
def Handled {α : Type} (result : Check α) : Prop :=
  (∃ a,result = .ok a) ∨ result = .error (.raised .set) ∨ result = .error (.raised .index)

theorem Handled.ok {α : Type} (a : α) : Handled (.ok a) := Or.inl ⟨a,rfl⟩

theorem Handled.bind {α β : Type} {x : Check α} {f : α → Check β} (hx : Handled x)
    (hf : ∀ a,x = .ok a → Handled (f a)) : Handled (x >>= f) := by
  rcases hx with ⟨a,rfl⟩ | rfl | rfl
  · exact hf a rfl
  · exact Or.inr (Or.inl rfl)
  · exact Or.inr (Or.inr rfl)

theorem deserialize_pos (hp : deserialize O proof n pos bits = .ok (t,pos')) : pos<pos' := by
  induction n generalizing pos pos' bits t with
  | zero => simp [deserialize] at hp
  | succ n ih =>
    unfold deserialize at hp
    split at hp
    · rw [← (Prod.mk.inj (Except.ok.inj hp)).2]
      omega
    · obtain ⟨_,_,hp⟩ := bind_ok.mp hp
      rw [← (Prod.mk.inj (Except.ok.inj hp)).2]
      omega
    · rw [← (Prod.mk.inj (Except.ok.inj hp)).2]
      omega
    · obtain ⟨⟨v₀,pos₁⟩,h₀,hp⟩ := bind_ok.mp hp
      obtain ⟨⟨v₁,pos₂⟩,h₁,hp⟩ := bind_ok.mp hp
      obtain ⟨_,_,hp⟩ := bind_ok.mp hp
      rw [← (Prod.mk.inj (Except.ok.inj hp)).2]
      have hlt₀ := ih h₀
      have hlt₁ := ih h₁
      omega
    · cases hp

theorem deserialize_fuel (hn : proof.length-pos<n) (hm : proof.length-pos < m) :
    deserialize O proof n pos bits=deserialize O proof m pos bits := by
  induction n generalizing m pos bits with
  | zero => omega
  | succ n ih =>
    cases m with
    | zero => omega
    | succ m =>
      unfold deserialize
      split
      · rfl
      · rfl
      · rfl
      · rename_i hmark
        have hlt := (List.getElem?_eq_some_iff.mp hmark).1
        rw [ih (m := m) (by omega) (by omega)]
        cases hleft : deserialize O proof m (pos+1) (bits++[false]) with
        | error e => rfl
        | ok read =>
          obtain ⟨v₀,pos₁⟩ := read
          have hpos := deserialize_pos hleft
          simp only [bind,Except.bind]
          rw [ih (m := m) (by omega) (by omega)]
      · rfl

/-- What `_deserialize` gives at a position. -/
def readAt (O : Oracles) (proof : Bytes) (pos : ℕ) (bits : List Bool) : Check (MerkleNode × ℕ) :=
  deserialize O proof (proof.length+1) pos bits

def hashAt (proof : Bytes) (pos : ℕ) : Bytes := (proof.drop (pos+1)).take 32

theorem readAt_empty (hmark : proof[pos]?=some 0) : readAt O proof pos bits = .ok (empty,pos+1) := by
  unfold readAt deserialize
  rw [hmark]
  rfl

theorem readAt_terminal (hmark : proof[pos]?=some 1) :
    readAt O proof pos bits=do return (← audited (hashAt proof pos) bits,pos+33) := by
  unfold readAt deserialize
  rw [hmark]
  rfl

theorem readAt_truncated (hmark : proof[pos]?=some 3) :
    readAt O proof pos bits = .ok (truncated (hashAt proof pos),pos+33) := by
  unfold readAt deserialize
  rw [hmark]
  rfl

theorem readAt_middle (hmark : proof[pos]?=some 2) :
    readAt O proof pos bits=do
      let (v₀,pos₁) ← readAt O proof (pos+1) (bits++[false])
      let (v₁,pos₂) ← readAt O proof pos₁ (bits++[true])
      return (← mkMiddle O v₀ v₁,pos₂) := by
  have hlt := (List.getElem?_eq_some_iff.mp hmark).1
  rw [readAt,deserialize,hmark]
  dsimp only
  rw [deserialize_fuel (m := proof.length+1) (by omega) (by omega),← readAt]
  cases hleft : readAt O proof (pos+1) (bits++[false]) with
  | error e => rfl
  | ok read =>
    obtain ⟨v₀,pos₁⟩ := read
    have hpos := deserialize_pos hleft
    simp only [bind,Except.bind]
    rw [deserialize_fuel (m := proof.length+1) (by omega) (by omega),← readAt]

theorem readAt_other (h₀ : proof[pos]?≠some 0) (h₁ : proof[pos]?≠some 1) (h₂ : proof[pos]?≠some 2)
    (h₃ : proof[pos]?≠some 3) : readAt O proof pos bits = .error (.raised .set) := by
  unfold readAt deserialize
  split <;> simp_all

theorem marker_cases (proof : Bytes) (pos : ℕ) : proof[pos]?=some 0 ∨ proof[pos]?=some 1 ∨
    proof[pos]?=some 2 ∨ proof[pos]?=some 3 ∨
      proof[pos]?≠some 0 ∧ proof[pos]?≠some 1 ∧ proof[pos]?≠some 2 ∧ proof[pos]?≠some 3 := by
  tauto

/-- What disagrees with the path: a bit of the hash, among those that a hash has. -/
def Misplaced (hash : Bytes) (bits : List Bool) : Prop :=
  ∃ i<256,∃ b,bits[i]?=some b ∧ (toBytes32 hash).getMsbD i≠b

/-- An assertion fails while the subtree at a position is read, all before it being in order. -/
inductive Asserts (O : Oracles) (proof : Bytes) : ℕ → List Bool → Prop
  | short {pos : ℕ} {bits : List Bool} (hmark : proof[pos]?=some 1) (hend : proof.length<pos+33) :
      Asserts O proof pos bits
  | misplaced {pos : ℕ} {bits : List Bool} (hmark : proof[pos]?=some 1)
      (hbit : Misplaced (hashAt proof pos) bits) : Asserts O proof pos bits
  | left {pos : ℕ} {bits : List Bool} (hmark : proof[pos]?=some 2)
      (hleft : Asserts O proof (pos+1) (bits++[false])) : Asserts O proof pos bits
  | right {pos pos' : ℕ} {bits : List Bool} {t : MerkleNode} (hmark : proof[pos]?=some 2)
      (hread : readAt O proof (pos+1) (bits++[false]) = .ok (t,pos'))
      (hright : Asserts O proof pos' (bits++[true])) : Asserts O proof pos bits
  | cut {pos pos' : ℕ} {bits : List Bool} {t : MerkleNode} (hmark : proof[pos]?=some 2)
      (hread : readAt O proof (pos+1) (bits++[false]) = .ok (t,pos'))
      (hcut : proof[pos']?=some 3) (hend : proof.length<pos'+33) : Asserts O proof pos bits

theorem hashAt_length (proof : Bytes) (pos : ℕ) : (hashAt proof pos).length=min 32 (proof.length-(pos+1)) := by
  simp [hashAt]

/-- One turn of the audit: the bit disagrees, is past the end of the hash, or agrees. -/
def auditBit (hash : Bytes32) (entry : Bool × ℕ) : Check Unit := do
  let b ← getBit hash entry.2
  assertThat (b=entry.1)

theorem audited_eq (hash : Bytes) (bits : List Bool) : audited hash bits=do
    assertThat (hash.length=32)
    (bits.zipIdx 0).forM (auditBit (toBytes32 hash))
    return terminal (toBytes32 hash) := rfl

variable {hash : Bytes32} {k : ℕ}

theorem auditBit_index {b : Bool} (hk : 256≤k) : auditBit hash (b,k) = .error (.raised .index) := by
  simp [auditBit,getBit,Nat.not_lt.mpr hk,index,bind,Except.bind]

theorem auditBit_lt {b : Bool} (hk : k<256) : auditBit hash (b,k)=assertThat (hash.getMsbD k=b) := by
  simp [auditBit,getBit_eq hk,bind,Except.bind]

theorem audit_misplaced (hbit : ∃ i,k+i<256 ∧ ∃ b,bits[i]?=some b ∧ hash.getMsbD (k+i)≠b) :
    (bits.zipIdx k).forM (auditBit hash) = .error (.raised .assertion) := by
  induction bits generalizing k with
  | nil =>
    obtain ⟨i,-,b,hget,-⟩ := hbit
    simp at hget
  | cons c bits ih =>
    obtain ⟨i,hi,b,hget,hne⟩ := hbit
    rw [List.zipIdx_cons,List.forM_eq_forM,List.forM_cons,auditBit_lt (by omega)]
    by_cases hc : hash.getMsbD k=c
    · rw [assertThat,if_pos hc]
      cases i with
      | zero =>
        rw [List.getElem?_cons_zero] at hget
        exact absurd (hc.trans (Option.some.inj hget)) hne
      | succ i =>
        rw [List.getElem?_cons_succ] at hget
        exact ih ⟨i,by omega,b,hget,by rw [Nat.add_right_comm]; exact hne⟩
    · rw [assertThat,if_neg hc]
      rfl

theorem audit_handled (hbit : ∀ i,k+i<256 → ∀ b,bits[i]?=some b → hash.getMsbD (k+i)=b) :
    Handled ((bits.zipIdx k).forM (auditBit hash)) := by
  induction bits generalizing k with
  | nil => exact .ok ()
  | cons c bits ih =>
    rw [List.zipIdx_cons,List.forM_eq_forM,List.forM_cons]
    apply Handled.bind
    · by_cases hk : k<256
      · have hc : hash.getMsbD k=c := hbit 0 hk c rfl
        rw [auditBit_lt hk,assertThat,if_pos hc]
        exact .ok ()
      · rw [auditBit_index (by omega)]
        exact Or.inr (Or.inr rfl)
    · intro _ _
      apply ih
      intro i hi b hget
      rw [Nat.add_right_comm]
      exact hbit (i+1) (by omega) b hget

theorem audited_assertion {hash : Bytes} (h : hash.length<32 ∨ Misplaced hash bits) :
    audited hash bits = .error (.raised .assertion) := by
  rw [audited_eq]
  by_cases hlen : hash.length=32
  · obtain ⟨i,hi,hbit⟩ := h.resolve_left (by omega)
    rw [assertThat,if_pos hlen,audit_misplaced ⟨i,by omega,by simpa using hbit⟩]
    rfl
  · rw [assertThat,if_neg hlen]
    rfl

theorem audited_handled {hash : Bytes} (hlen : hash.length=32) (h : ¬ Misplaced hash bits) :
    Handled (audited hash bits) := by
  rw [audited_eq,assertThat,if_pos hlen]
  apply Handled.bind (.ok ())
  intro _ _
  apply Handled.bind
  · apply audit_handled
    intro i hi b hget
    rw [Nat.zero_add] at hi ⊢
    by_contra hne
    exact h ⟨i,hi,b,hget,hne⟩
  · intro _ _
    exact .ok _

theorem readAt_length (hp : readAt O proof pos bits = .ok (t,pos')) :
    t.getHash.length=33 ∨ proof[pos]?=some 3 ∧ proof.length<pos+33 ∧ pos'=pos+33 := by
  rcases marker_cases proof pos with hm | hm | hm | hm | ⟨h₀,h₁,h₂,h₃⟩
  · rw [readAt_empty hm] at hp
    rw [← (Prod.mk.inj (Except.ok.inj hp)).1]
    exact Or.inl (getHash_length (t := empty) trivial)
  · rw [readAt_terminal hm] at hp
    obtain ⟨t',ha,hp⟩ := bind_ok.mp hp
    rw [← (Prod.mk.inj (Except.ok.inj hp)).1]
    obtain ⟨_,_,ha⟩ := bind_ok.mp ha
    obtain ⟨_,_,ha⟩ := bind_ok.mp ha
    rw [← Except.ok.inj ha]
    exact Or.inl (getHash_length (t := terminal _) trivial)
  · rw [readAt_middle hm] at hp
    obtain ⟨_,_,hp⟩ := bind_ok.mp hp
    obtain ⟨_,_,hp⟩ := bind_ok.mp hp
    obtain ⟨t',hmid,hp⟩ := bind_ok.mp hp
    obtain ⟨h,-,rfl⟩ := mkMiddle_eq_ok.mp hmid
    rw [← (Prod.mk.inj (Except.ok.inj hp)).1]
    simp [getHash,bytes32_length]
  · rw [readAt_truncated hm] at hp
    have hlen := hashAt_length proof pos
    have hlt := (List.getElem?_eq_some_iff.mp hm).1
    obtain ⟨rfl,rfl⟩ := Prod.mk.inj (Except.ok.inj hp)
    by_cases hend : proof.length<pos+33
    · exact Or.inr ⟨hm,hend,rfl⟩
    · simp only [getHash,List.length_cons,hlen]
      omega
  · rw [readAt_other h₀ h₁ h₂ h₃] at hp
    cases hp

theorem readAt_end (hend : proof.length≤pos) : readAt O proof pos bits = .error (.raised .set) := by
  apply readAt_other <;> simp [List.getElem?_eq_none hend]

theorem mkMiddle_cut {b : Bytes} (hl : l.getHash.length≤33) (hb : b.length<32) :
    mkMiddle O l (truncated b) = .error (.raised .assertion) := by
  have hbeside : besideEmpty l (truncated b) = .ok false := by
    unfold besideEmpty isDouble
    split_ifs <;> rfl
  have hlen : (l.getHash++(truncated b).getHash).length≠66 := by
    have hshort : (truncated b).getHash.length=b.length+1 := rfl
    rw [List.length_append,hshort]
    omega
  unfold mkMiddle middleHash
  rw [hbeside]
  simp only [besideEmpty,isEmpty,Bool.false_eq_true,if_false,bind,Except.bind]
  unfold hashChildren hashdown
  rw [assertThat,if_neg hlen]
  simp [isEmpty,isTerminal,raiseSetIf,bind,Except.bind]

theorem isDouble_handled (hw : t.WellFormed O d) : Handled t.isDouble := by
  cases t with
  | empty => exact Or.inr (Or.inl rfl)
  | terminal a => exact Or.inr (Or.inl rfl)
  | middle l r h => exact Or.inl (isDouble_total hw inner_middle)
  | truncated b => exact .ok _

theorem besideEmpty_handled (hr : r.WellFormed O d) : Handled (besideEmpty l r) := by
  unfold besideEmpty
  split_ifs
  · exact isDouble_handled hr
  · exact .ok _

theorem raiseSetIf_handled (c : Prop) [Decidable c] : Handled (raiseSetIf c) := by
  unfold raiseSetIf
  split_ifs
  · exact Or.inr (Or.inl rfl)
  · exact .ok _

theorem mkMiddle_handled (hl : l.WellFormed O d) (hr : r.WellFormed O d) (hlen : l.getHash.length=33)
    (hren : r.getHash.length=33) : Handled (mkMiddle O l r) := by
  have hchildren : Handled (hashChildren O l r) := by
    unfold hashChildren
    apply Handled.bind (raiseSetIf_handled _)
    intro _ _
    apply Handled.bind (raiseSetIf_handled _)
    intro _ _
    apply Handled.bind (raiseSetIf_handled _)
    intro _ _
    rw [hashdown,assertThat,if_pos (by simp [hlen,hren])]
    exact .ok _
  have hhash : Handled (middleHash O l r) := by
    unfold middleHash
    apply Handled.bind (besideEmpty_handled hr)
    intro doubleRight _
    split_ifs
    · exact .ok _
    · apply Handled.bind (besideEmpty_handled hl)
      intro doubleLeft _
      split_ifs
      · exact .ok _
      · exact hchildren
  exact hhash.bind fun _ _ => .ok _

theorem readAt_assertion (h : Asserts O proof pos bits) :
    readAt O proof pos bits = .error (.raised .assertion) := by
  induction h with
  | @short pos bits hmark hend =>
    have hlt := (List.getElem?_eq_some_iff.mp hmark).1
    have hlen := hashAt_length proof pos
    rw [readAt_terminal hmark,audited_assertion (Or.inl (by omega))]
    rfl
  | misplaced hmark hbit =>
    rw [readAt_terminal hmark,audited_assertion (Or.inr hbit)]
    rfl
  | left hmark _ ih =>
    rw [readAt_middle hmark,ih]
    rfl
  | right hmark hread _ ih =>
    rw [readAt_middle hmark,hread]
    simp only [bind,Except.bind]
    rw [ih]
  | @cut pos pos' bits t hmark hread hcut hend =>
    have hlt := (List.getElem?_eq_some_iff.mp hcut).1
    have hlen := hashAt_length proof pos'
    rw [readAt_middle hmark,hread]
    simp only [bind,Except.bind]
    rw [readAt_truncated hcut]
    simp only
    rw [mkMiddle_cut (getHash_le (deserialize_ok hread).1) (by omega)]

theorem readAt_handled (h : ¬ Asserts O proof pos bits) : Handled (readAt O proof pos bits) := by
  induction hk : proof.length-pos using Nat.strong_induction_on generalizing pos bits with
  | h k ih =>
    rcases marker_cases proof pos with hm | hm | hm | hm | ⟨h₀,h₁,h₂,h₃⟩
    · rw [readAt_empty hm]
      exact .ok _
    · have hlt := (List.getElem?_eq_some_iff.mp hm).1
      have hlen := hashAt_length proof pos
      have hend : ¬ proof.length<pos+33 := fun he => h (.short hm he)
      rw [readAt_terminal hm]
      apply Handled.bind
      · exact audited_handled (by omega) fun hbit => h (.misplaced hm hbit)
      · intro _ _
        exact .ok _
    · have hlt := (List.getElem?_eq_some_iff.mp hm).1
      rw [readAt_middle hm]
      apply Handled.bind
      · exact ih _ (by omega) (fun hleft => h (.left hm hleft)) rfl
      intro left hleft
      obtain ⟨v₀,pos₁⟩ := left
      have hpos := deserialize_pos hleft
      apply Handled.bind
      · exact ih _ (by omega) (fun hright => h (.right hm hleft hright)) rfl
      intro right hright
      obtain ⟨v₁,pos₂⟩ := right
      have hlen₀ : v₀.getHash.length=33 := by
        rcases readAt_length hleft with hlen | ⟨-,hend,he⟩
        · exact hlen
        · rw [readAt_end (by omega)] at hright
          cases hright
      have hlen₁ : v₁.getHash.length=33 := by
        rcases readAt_length hright with hlen | ⟨hcut,hend,-⟩
        · exact hlen
        · exact absurd (.cut hm hleft hcut hend) h
      have hw₀ := (deserialize_ok hleft).1
      have hw₁ := (deserialize_ok hright).1
      rw [List.length_append,List.length_singleton] at hw₀ hw₁
      exact (mkMiddle_handled hw₀ hw₁ hlen₀ hlen₁).bind fun _ _ => .ok _
    · rw [readAt_truncated hm]
      exact .ok _
    · rw [readAt_other h₀ h₁ h₂ h₃]
      exact Or.inr (Or.inl rfl)

def Within : ℕ → MerkleNode → Prop
  | d,terminal _ => d≤256
  | d,middle left right _ => left.Within (d+1) ∧ right.Within (d+1)
  | _,_ => True

theorem audited_within {hash : Bytes} (ha : audited hash bits = .ok t) : t.Within bits.length := by
  rw [audited_eq] at ha
  obtain ⟨_,_,ha⟩ := bind_ok.mp ha
  obtain ⟨_,hf,ha⟩ := bind_ok.mp ha
  rw [← Except.ok.inj ha]
  by_contra hlen
  have hlong : 256<bits.length := Nat.lt_of_not_le hlen
  rw [List.forM_eq_forM,forM_ok_iff] at hf
  have hbit := hf (bits[256],256) (List.mk_mem_zipIdx_iff_getElem?.mpr (List.getElem?_eq_getElem hlong))
  rw [auditBit_index (le_refl _)] at hbit
  cases hbit

theorem deserialize_within (hp : deserialize O proof n pos bits = .ok (t,pos')) : t.Within bits.length := by
  induction n generalizing pos pos' bits t with
  | zero => simp [deserialize] at hp
  | succ n ih =>
    unfold deserialize at hp
    split at hp
    · rw [← (Prod.mk.inj (Except.ok.inj hp)).1]
      trivial
    · obtain ⟨t',ha,hp⟩ := bind_ok.mp hp
      rw [← (Prod.mk.inj (Except.ok.inj hp)).1]
      exact audited_within ha
    · rw [← (Prod.mk.inj (Except.ok.inj hp)).1]
      trivial
    · obtain ⟨⟨v₀,pos₁⟩,h₀,hp⟩ := bind_ok.mp hp
      obtain ⟨⟨v₁,pos₂⟩,h₁,hp⟩ := bind_ok.mp hp
      obtain ⟨m,hm,hp⟩ := bind_ok.mp hp
      obtain ⟨h,-,rfl⟩ := mkMiddle_eq_ok.mp hm
      rw [← (Prod.mk.inj (Except.ok.inj hp)).1]
      have hw₀ := ih h₀
      have hw₁ := ih h₁
      rw [List.length_append,List.length_singleton] at hw₀ hw₁
      exact ⟨hw₀,hw₁⟩
    · cases hp

theorem double_depth (hd : t.isDouble = .ok true) (hw : t.Within d) : d<256 := by
  induction t generalizing d with
  | empty => cases hd
  | terminal a => cases hd
  | truncated b => cases hd
  | middle l r h ihl ihr =>
    unfold isDouble at hd
    split_ifs at hd with hl hr
    · have hlt := ihr hd hw.2
      omega
    · have hlt := ihl hd hw.1
      omega
    · have hboth : l.isTerminal=true ∧ r.isTerminal=true := by simpa using hd
      obtain ⟨a,rfl⟩ := isTerminal_iff.mp hboth.1
      have hle : d+1≤256 := hw.1
      omega

theorem otherIncluded_leaf {expanded : Check (Bool × Bytes)} {collapse : Bool}
    (h : t.isEmpty=true ∨ t.isTerminal=true) : ∃ b,otherIncluded t expanded collapse = .ok b := by
  cases t <;> simp_all [isEmpty,isTerminal,otherIncluded]

theorem shown_beside_empty {t u : MerkleNode} (hempty : t.isEmpty=true) (hd : u.isDouble = .ok true)
    (hu : ∃ a,isIncluded v u d = .ok a) :
    ((∃ a,isIncluded v t d = .ok a) ∧ ∃ b,otherIncluded t (isIncluded v t d) (!u.isEmpty) = .ok b) ∧
      (∃ a,isIncluded v u d = .ok a) ∧ ∃ b,otherIncluded u (isIncluded v u d) (!t.isEmpty) = .ok b := by
  obtain ⟨a,ha⟩ := hu
  refine ⟨⟨?_,otherIncluded_leaf (Or.inl hempty)⟩,⟨a,ha⟩,?_⟩
  · rw [isEmpty_iff.mp hempty]
    exact ⟨_,rfl⟩
  · cases u with
    | middle left right hash =>
      rw [hempty,ha]
      simp only [otherIncluded,Bool.not_true,Bool.false_eq_true,if_false,hd,bind,Except.bind]
      exact ⟨_,rfl⟩
    | empty => cases hd
    | terminal a => cases hd
    | truncated b => cases hd

theorem isIncluded_double (hd : t.isDouble = .ok true) (hw : t.Within d) : ∃ answer,isIncluded v t d = .ok answer := by
  induction t generalizing d with
  | empty => cases hd
  | terminal a => cases hd
  | truncated b => cases hd
  | middle l r h ihl ihr =>
    have hbit := getBit_eq (x := v) (double_depth hd hw)
    unfold isDouble at hd
    -- one side is shown whole and the other is a leaf, or both are leaves
    have hsides : ((∃ a,isIncluded v l (d+1) = .ok a) ∧
        ∃ b,otherIncluded l (isIncluded v l (d+1)) (!r.isEmpty) = .ok b) ∧
        (∃ a,isIncluded v r (d+1) = .ok a) ∧
        ∃ b,otherIncluded r (isIncluded v r (d+1)) (!l.isEmpty) = .ok b := by
      split_ifs at hd with hl hr
      · obtain ⟨hempty,hfull⟩ := shown_beside_empty hl hd (ihr hd hw.2)
        exact ⟨hempty,hfull⟩
      · obtain ⟨hempty,hfull⟩ := shown_beside_empty hr hd (ihl hd hw.1)
        exact ⟨hfull,hempty⟩
      · have hboth : l.isTerminal=true ∧ r.isTerminal=true := by simpa using hd
        refine ⟨⟨?_,otherIncluded_leaf (Or.inr hboth.1)⟩,?_,otherIncluded_leaf (Or.inr hboth.2)⟩
        · obtain ⟨a,rfl⟩ := isTerminal_iff.mp hboth.1
          exact ⟨_,rfl⟩
        · obtain ⟨a,rfl⟩ := isTerminal_iff.mp hboth.2
          exact ⟨_,rfl⟩
    obtain ⟨⟨⟨a₀,h₀⟩,o₀,ho₀⟩,⟨a₁,h₁⟩,o₁,ho₁⟩ := hsides
    rw [isIncluded,hbit]
    cases hv : v.getMsbD d with
    | true =>
      simp only [bind,Except.bind,if_true]
      rw [ho₀,h₁]
      exact ⟨_,rfl⟩
    | false =>
      simp only [bind,Except.bind,Bool.false_eq_true,if_false]
      rw [h₀]
      dsimp only
      rw [ho₁]
      exact ⟨_,rfl⟩

theorem otherIncluded_ok (hw : t.WellFormed O d) (hin : t.Within d) (collapse : Bool) :
    ∃ b,otherIncluded t (isIncluded v t d) collapse = .ok b := by
  cases t with
  | empty => exact ⟨_,rfl⟩
  | terminal a => exact ⟨_,rfl⟩
  | truncated b => exact ⟨_,rfl⟩
  | middle l r h =>
    obtain ⟨double,hd⟩ := isDouble_total hw inner_middle
    cases collapse with
    | true => exact ⟨_,rfl⟩
    | false =>
      simp only [otherIncluded,Bool.false_eq_true,if_false,hd,bind,Except.bind]
      cases double with
      | false => exact ⟨_,rfl⟩
      | true =>
        obtain ⟨answer,ha⟩ := isIncluded_double (v := v) hd hin
        rw [ha]
        exact ⟨_,rfl⟩

/-- The bits of the value lead through middle nodes only, to one below its last bit. -/
def Deep (v : Bytes32) : MerkleNode → ℕ → Prop
  | middle left right _,d => if d<256 then (if v.getMsbD d then Deep v right (d+1) else Deep v left (d+1)) else True
  | _,_ => False

theorem isIncluded_cases (hw : t.WellFormed O d) (hin : t.Within d) :
    Deep v t d ∧ isIncluded v t d = .error (.raised .index) ∨
    ¬ Deep v t d ∧ ((∃ answer,isIncluded v t d = .ok answer) ∨ isIncluded v t d = .error (.raised .set)) := by
  induction t generalizing d with
  | empty => exact Or.inr ⟨id,Or.inl ⟨_,rfl⟩⟩
  | terminal a => exact Or.inr ⟨id,Or.inl ⟨_,rfl⟩⟩
  | truncated b => exact Or.inr ⟨id,Or.inr rfl⟩
  | middle l r h ihl ihr =>
    unfold Deep
    rw [isIncluded]
    by_cases hlt : d<256
    · rw [if_pos hlt,getBit_eq hlt]
      cases hv : v.getMsbD d with
      | true =>
        obtain ⟨b,hb⟩ := otherIncluded_ok (v := v) hw.1 hin.1 !r.isEmpty
        simp only [bind,Except.bind,if_true,hb]
        rcases ihr hw.2.1 hin.2 with ⟨hd,he⟩ | ⟨hd,⟨answer,ha⟩ | he⟩
        · rw [he]
          exact Or.inl ⟨hd,rfl⟩
        · rw [ha]
          exact Or.inr ⟨hd,Or.inl ⟨_,rfl⟩⟩
        · rw [he]
          exact Or.inr ⟨hd,Or.inr rfl⟩
      | false =>
        obtain ⟨b,hb⟩ := otherIncluded_ok (v := v) hw.2.1 hin.2 !l.isEmpty
        simp only [bind,Except.bind,Bool.false_eq_true,if_false,hb]
        rcases ihl hw.1 hin.1 with ⟨hd,he⟩ | ⟨hd,⟨answer,ha⟩ | he⟩
        · rw [he]
          exact Or.inl ⟨hd,rfl⟩
        · rw [ha]
          exact Or.inr ⟨hd,Or.inl ⟨_,rfl⟩⟩
        · rw [he]
          exact Or.inr ⟨hd,Or.inr rfl⟩
    · rw [if_neg hlt,getBit,if_neg hlt]
      exact Or.inl ⟨trivial,rfl⟩

end MerkleNode

namespace MerkleSet
open MerkleNode
variable {O : Oracles} {proof : Bytes} {p : MerkleNode}

theorem deserializeProof_assertion (h : Asserts O proof 0 []) :
    deserializeProof O proof = .error (.raised .assertion) := by
  have hread := readAt_assertion h
  unfold readAt at hread
  unfold deserializeProof
  rw [hread]
  rfl

theorem deserializeProof_handled (h : ¬ Asserts O proof 0 []) :
    (∃ p,deserializeProof O proof = .ok p) ∨ deserializeProof O proof = .error (.raised .set) := by
  have hread := readAt_handled h
  unfold readAt at hread
  unfold deserializeProof
  rcases hread with ⟨⟨r,pos⟩,hok⟩ | hset | hindex
  · rw [hok]
    by_cases hend : pos=proof.length
    · exact Or.inl ⟨r,by simp [hend,raiseSetIf,bind,Except.bind,pure,Except.pure]⟩
    · exact Or.inr (by simp [hend,raiseSetIf,bind,Except.bind])
  · rw [hset]
    exact Or.inr rfl
  · rw [hindex]
    exact Or.inr rfl

theorem deserializeProof_whole (h : deserializeProof O proof = .ok p) :
    p.Within 0 ∧ ∃ root,getRoot O p = .ok root := by
  unfold deserializeProof at h
  dsimp only at h
  split at h
  · cases h
  obtain ⟨⟨r,pos⟩,hd,h⟩ := bind_ok.mp h
  obtain ⟨_,hend,h⟩ := bind_ok.mp h
  rw [raiseSetIf_eq_ok,not_not] at hend
  rw [← Except.ok.inj h]
  refine ⟨deserialize_within hd,?_⟩
  have hlen : r.getHash.length=33 := by
    rcases readAt_length hd with hlen | ⟨-,hcut,hpos⟩
    · exact hlen
    · omega
  cases r with
  | empty => exact ⟨_,getRoot_empty⟩
  | terminal a => exact ⟨_,getRoot_terminal a⟩
  | middle l r _ => exact ⟨_,getRoot_middle l r _⟩
  | truncated b =>
    unfold getRoot compressRoot
    rw [assertThat,if_pos hlen]
    exact ⟨toBytes32 b,by simp [getHash,bind,Except.bind,pure,Except.pure]⟩

/-- The proof is for the root, and the value's path in it is longer than the value. -/
def PathTooDeep (O : Oracles) (root val : Bytes32) (proof : Bytes) : Prop :=
  ∃ p,deserializeProof O proof = .ok p ∧ getRoot O p = .ok root ∧ Deep val p 0

/-- Returns an answer, and False for what does not parse. -/
def Answers (O : Oracles) (root val : Bytes32) (proof : Bytes) (expected : Bool) : Prop :=
  ∃ b,confirm O root val proof expected = .ok b ∧ ((∀ p,deserializeProof O proof ≠ .ok p) → b=false)

theorem confirm_parsed (hp : deserializeProof O proof = .ok p) {root val : Bytes32} {expected : Bool}
    (hdeep : ¬ PathTooDeep O root val proof) : ∃ b,confirm O root val proof expected = .ok b := by
  obtain ⟨hin,proved,hroot⟩ := deserializeProof_whole hp
  unfold confirm
  rw [hp]
  simp only [bind,Except.bind]
  rw [hroot]
  dsimp only
  by_cases hsame : proved=root
  · have hnot : ¬ Deep val p 0 := fun hd => hdeep ⟨p,hp,by rw [hroot,hsame],hd⟩
    rw [if_neg (by simp [hsame]),isIncludedAlreadyHashed]
    rcases ((isIncluded_cases (deserializeProof_ok hp) hin).resolve_left fun h => hnot h.1).2 with ⟨answer,ha⟩ | he
    · rw [ha]
      exact ⟨_,rfl⟩
    · rw [he]
      exact ⟨_,rfl⟩
  · rw [if_pos hsame]
    exact ⟨_,rfl⟩

/-- The verifier answers unless an assertion fails in the parse or the value's path is too deep. -/
theorem confirm_answers_iff (root val : Bytes32) (proof : Bytes) (expected : Bool) :
    Answers O root val proof expected ↔ ¬ Asserts O proof 0 [] ∧ ¬ PathTooDeep O root val proof := by
  constructor
  · intro h
    obtain ⟨b,hb,-⟩ := h
    constructor
    · intro ha
      unfold confirm at hb
      rw [deserializeProof_assertion ha] at hb
      cases hb
    · intro hd
      obtain ⟨p,hp,hroot,hdeep⟩ := hd
      unfold confirm isIncludedAlreadyHashed at hb
      rw [hp] at hb
      simp only [bind,Except.bind] at hb
      rw [hroot,((isIncluded_cases (deserializeProof_ok hp) (deserializeProof_whole hp).1).resolve_right
        fun h => h.1 hdeep).2] at hb
      simp at hb
  · intro h
    rcases deserializeProof_handled h.1 with ⟨p,hp⟩ | hset
    · obtain ⟨b,hb⟩ : ∃ b,confirm O root val proof expected = .ok b := confirm_parsed hp h.2
      exact ⟨b,hb,fun hnone => absurd hp (hnone p)⟩
    · refine ⟨false,?_,fun _ => rfl⟩
      unfold confirm
      rw [hset]
      rfl

/-- A terminal marker with nothing after it. -/
theorem confirm_raises : ¬ Answers lengthHash 0 0 [1] true := by
  intro h
  obtain ⟨b,hb,-⟩ := h
  have hraise : confirm lengthHash 0 0 [1] true = .error (.raised .assertion) := by decide +kernel
  rw [hraise] at hb
  cases hb

variable (O) in
/-- As the source has it, with the verifier of the other answer. -/
def confirmIncluded (root : Bytes32) (val proof : Bytes) : Check Bool :=
  confirmNotIncludedAlreadyHashed O root (O.stdHash val) proof

variable (O) in
def confirmNotIncluded (root : Bytes32) (val proof : Bytes) : Check Bool :=
  confirmNotIncludedAlreadyHashed O root (O.stdHash val) proof

/-- The proof parses, is for the root and decides about the value. -/
def Decides (O : Oracles) (root val : Bytes32) (proof : Bytes) : Prop :=
  ∃ p answer,deserializeProof O proof = .ok p ∧ getRoot O p = .ok root ∧
    isIncludedAlreadyHashed val p = .ok answer

theorem confirm_polarity (root val : Bytes32) (proof : Bytes) :
    confirm O root val proof false=confirm O root val proof true ↔ ¬ Decides O root val proof := by
  constructor
  · intro h hd
    obtain ⟨p,⟨b,bytes⟩,hp,hroot,ha⟩ := hd
    unfold confirm at h
    rw [hp] at h
    simp only [bind,Except.bind] at h
    rw [hroot,ha] at h
    cases b <;> simp [pure,Except.pure] at h
  · intro h
    unfold confirm
    cases hp : deserializeProof O proof with
    | error e => rfl
    | ok p =>
      simp only [bind,Except.bind]
      cases hroot : getRoot O p with
      | error e => rfl
      | ok proved =>
        dsimp only
        by_cases hsame : proved=root
        · have hne : ¬ proved≠root := not_not.mpr hsame
          rw [if_neg hne,if_neg hne]
          cases ha : isIncludedAlreadyHashed val p with
          | error e => rfl
          | ok answer => exact absurd ⟨p,answer,hp,by rw [hroot,hsame],ha⟩ h
        · rw [if_pos hsame,if_pos hsame]

/-- The hashing variants agree with the others exactly on proofs that decide nothing, and never on
the proof of a query. -/
theorem confirmIncluded_agrees_iff : (∀ root val proof,
      (confirmIncluded O root val proof=confirmIncludedAlreadyHashed O root (O.stdHash val) proof ∧
        confirmNotIncluded O root val proof=confirmNotIncludedAlreadyHashed O root (O.stdHash val) proof) ↔
      ¬ Decides O root (O.stdHash val) proof) ∧
    ∀ cs val,∃ root hash answer proof,run O .empty cs = .ok root ∧ getRoot O root = .ok hash ∧
      isIncludedAlreadyHashed (O.stdHash val) root = .ok (answer,proof) ∧
      ¬ (confirmIncluded O hash val proof = .ok true ↔ O.stdHash val∈contents cs) ∧
      (confirmNotIncluded O hash val proof = .ok true ↔ O.stdHash val∉contents cs) := by
  constructor
  · intro root val proof
    rw [← confirm_polarity]
    exact and_iff_left rfl
  · intro cs val
    obtain ⟨root,hash,proof,hrun,hhash,hanswer,hconfirm⟩ := confirm_query (O := O) cs (O.stdHash val)
    refine ⟨root,hash,_,proof,hrun,hhash,hanswer,?_,?_⟩
    · rw [confirmIncluded,confirmNotIncludedAlreadyHashed,hconfirm]
      by_cases hin : O.stdHash val∈contents cs <;> simp [hin]
    · rw [confirmNotIncluded,confirmNotIncludedAlreadyHashed,hconfirm]
      by_cases hin : O.stdHash val∈contents cs <;> simp [hin]

/-- A proof that the empty set lacks a value passes for one that it holds the value. -/
theorem confirmIncluded_accepts_absent :
    run lengthHash .empty [] = .ok .empty ∧ getRoot lengthHash .empty = .ok 0 ∧
      isIncludedAlreadyHashed (lengthHash.stdHash [7]) .empty = .ok (false,[0]) ∧
      lengthHash.stdHash [7]∉contents [] ∧ confirmIncluded lengthHash 0 [7] [0] = .ok true := by
  decide +kernel

end MerkleSet
end RoseChain
