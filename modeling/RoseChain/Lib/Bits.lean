import Mathlib.Tactic.Common
import Mathlib.Tactic.Ring
import Mathlib.Data.List.Induction

namespace RoseChain.Lib

def uintOf (bits : List Bool) : ℕ := bits.foldl (fun n b => 2*n+b.toNat) 0

/-- The lowest bits of a number, most significant first. -/
def bitsOf : ℕ → ℕ → List Bool
  | 0,_ => []
  | length+1,n => bitsOf length (n / 2)++[decide (n % 2=1)]

@[simp] theorem uintOf_nil : uintOf []=0 := rfl

theorem uintOf_concat (bits : List Bool) (b : Bool) : uintOf (bits++[b])=2*uintOf bits+b.toNat := by
  simp only [uintOf,List.foldl_append,List.foldl_cons,List.foldl_nil]

@[simp] theorem length_bitsOf (length n : ℕ) : (bitsOf length n).length=length := by
  induction length generalizing n with
  | zero => rfl
  | succ length ih => simp [bitsOf,ih]

theorem uintOf_lt (bits : List Bool) : uintOf bits<2^bits.length := by
  induction bits using List.reverseRecOn with
  | nil => simp
  | append_singleton bits b ih =>
    rw [uintOf_concat,List.length_append,List.length_singleton,pow_succ]
    have hb := Bool.toNat_lt b
    omega

theorem uintOf_bitsOf {length n : ℕ} (h : n<2^length) : uintOf (bitsOf length n)=n := by
  induction length generalizing n with
  | zero =>
    rw [pow_zero] at h
    obtain rfl : n=0 := by omega
    rfl
  | succ length ih =>
    rw [pow_succ] at h
    rw [bitsOf,uintOf_concat,ih (by omega)]
    rcases Nat.mod_two_eq_zero_or_one n with hn | hn <;> simp [hn] <;> omega

theorem bitsOf_uintOf (bits : List Bool) : bitsOf bits.length (uintOf bits)=bits := by
  induction bits using List.reverseRecOn with
  | nil => rfl
  | append_singleton bits b ih =>
    rw [List.length_append,List.length_singleton,bitsOf,uintOf_concat]
    have hhalf : (2*uintOf bits+b.toNat) / 2=uintOf bits := by
      have hb := Bool.toNat_lt b
      omega
    rw [hhalf,ih]
    cases b <;> simp

theorem uintOf_append (a b : List Bool) : uintOf (a++b)=uintOf a*2^b.length+uintOf b := by
  induction b using List.reverseRecOn with
  | nil => simp
  | append_singleton b c ih =>
    rw [← List.append_assoc,uintOf_concat,ih,uintOf_concat,List.length_append,List.length_singleton,pow_succ]
    ring

@[simp] theorem uintOf_zeros (n : ℕ) : uintOf (List.replicate n false)=0 := by
  induction n with
  | zero => rfl
  | succ n ih => simp [List.replicate_succ',uintOf_concat,ih]

theorem eq_zeros_of_uintOf {bits : List Bool} (h : uintOf bits=0) : bits=List.replicate bits.length false := by
  have hbits := bitsOf_uintOf bits
  have hzeros := bitsOf_uintOf (List.replicate bits.length false)
  rw [uintOf_zeros,List.length_replicate] at hzeros
  rw [h] at hbits
  exact hbits.symm.trans hzeros

def joinBits (width : ℕ) (values : List ℕ) : List Bool := values.flatMap (bitsOf width)

@[simp] theorem joinBits_nil (width : ℕ) : joinBits width []=[] := rfl

@[simp] theorem length_joinBits (width : ℕ) (values : List ℕ) : (joinBits width values).length=width*values.length := by
  induction values with
  | nil => rfl
  | cons v values ih =>
    rw [joinBits,List.flatMap_cons,List.length_append,length_bitsOf,List.length_cons,Nat.mul_succ,Nat.add_comm]
    exact congrArg (· + width) ih

variable {width : ℕ}

theorem joinBits_map_uintOf {pieces : List (List Bool)} (h : ∀ piece∈pieces,piece.length=width) :
    joinBits width (pieces.map uintOf)=pieces.flatten := by
  rw [joinBits,List.flatMap_map,List.flatMap_def]
  conv_rhs => rw [← List.map_id pieces]
  congr 1
  apply List.map_congr_left
  intro piece hmem
  have hback := bitsOf_uintOf piece
  rwa [h piece hmem] at hback

variable {α : Type}

def slices (width : ℕ) (l : List α) : List (List α) :=
  (List.range (l.length / width)).map fun i => (l.drop (i*width)).take width

variable {l : List α}

theorem slices_short (h : l.length<width) : slices width l=[] := by
  simp [slices,Nat.div_eq_of_lt h]

theorem slices_append {piece : List α} (hw : 0<width) (h : piece.length=width)
    (l : List α) : slices width (piece++l)=piece::slices width l := by
  have hlen : (piece++l).length / width=l.length / width+1 := by
    rw [List.length_append,h,Nat.add_div_left _ hw]
  unfold slices
  rw [hlen,List.range_succ_eq_map,List.map_cons,List.map_map]
  congr 1
  · simp [← h]
  · apply List.map_congr_left
    intro i _
    have hdrop : (piece++l).drop ((i+1)*width)=l.drop (i*width) := by
      rw [show (i+1)*width=piece.length+i*width by rw [h]; ring,List.drop_append]
      simp
    simp only [Function.comp_apply,Nat.succ_eq_add_one,hdrop]

variable {pieces : List (List α)}

theorem slices_flatten (hw : 0<width)
    (h : ∀ piece∈pieces,piece.length=width) : slices width pieces.flatten=pieces := by
  induction pieces with
  | nil => exact slices_short (by simpa using hw)
  | cons piece pieces ih =>
    rw [List.flatten_cons,slices_append hw (h piece List.mem_cons_self),
      ih fun p hp => h p (List.mem_cons_of_mem _ hp)]

theorem exists_pieces (n : ℕ) (h : l.length=n*width) :
    ∃ pieces : List (List α),pieces.flatten=l ∧ pieces.length=n ∧ ∀ piece∈pieces,piece.length=width := by
  induction n generalizing l with
  | zero =>
    rw [zero_mul,List.length_eq_zero_iff] at h
    exact ⟨[],h.symm,rfl,fun _ hp => absurd hp List.not_mem_nil⟩
  | succ n ih =>
    have hlen : l.length=width+n*width := by rw [h]; ring
    obtain ⟨pieces,hflat,hn,hp⟩ := ih (l := l.drop width) (by rw [List.length_drop]; omega)
    refine ⟨l.take width::pieces,?_,by simp [hn],?_⟩
    · rw [List.flatten_cons,hflat,List.take_append_drop]
    · intro piece hmem
      obtain rfl | hmem := List.mem_cons.mp hmem
      · rw [List.length_take]
        omega
      · exact hp piece hmem

variable {a b : List ℕ}

theorem joinBits_inj (hw : 0<width) (ha : ∀ v∈a,v<2^width)
    (hb : ∀ v∈b,v<2^width) (h : joinBits width a=joinBits width b) : a=b := by
  have hvalues {values : List ℕ} (hv : ∀ v∈values,v<2^width) :
      (slices width (joinBits width values)).map uintOf=values := by
    rw [joinBits,List.flatMap_def,slices_flatten hw (by simp),List.map_map]
    conv_rhs => rw [← List.map_id values]
    apply List.map_congr_left
    intro v hmem
    exact uintOf_bitsOf (hv v hmem)
  rw [← hvalues ha,h,hvalues hb]

/-- A list cut into pieces of one width, and what is left. -/
structure Cut (width : ℕ) (l : List α) (pieces : List (List α)) (rest : List α) : Prop where
  joined : pieces.flatten++rest=l
  each : ∀ piece∈pieces,piece.length=width
  short : rest.length<width

variable {rest rest' : List α} {pieces' : List (List α)}

theorem Cut.append {more : List α} (h : Cut width l pieces rest)
    (h' : Cut width (rest++more) pieces' rest') : Cut width (l++more) (pieces++pieces') rest' where
  joined := by rw [List.flatten_append,List.append_assoc,h'.joined,← h.joined,List.append_assoc]
  each := by
    intro piece hpiece
    obtain hpiece | hpiece := List.mem_append.mp hpiece
    · exact h.each piece hpiece
    · exact h'.each piece hpiece
  short := h'.short

theorem length_flatten_pieces (h : ∀ piece∈pieces,piece.length=width) :
    pieces.flatten.length=width*pieces.length := by
  induction pieces with
  | nil => rfl
  | cons piece pieces ih =>
    rw [List.flatten_cons,List.length_append,h piece List.mem_cons_self,ih fun p hp => h p (List.mem_cons_of_mem _ hp),
      List.length_cons,Nat.mul_succ,Nat.add_comm]

theorem Cut.unique (h : Cut width l pieces rest)
    (h' : Cut width l pieces' rest') : pieces=pieces' ∧ rest=rest' := by
  have hw : 0<width := Nat.zero_lt_of_lt h.short
  have hsame := h.joined.trans h'.joined.symm
  have hlen := congrArg List.length hsame
  rw [List.length_append,List.length_append,length_flatten_pieces h.each,length_flatten_pieces h'.each] at hlen
  have hcount : pieces.length=pieces'.length := by
    have hdiv := congrArg (· / width) hlen
    simp only [Nat.mul_add_div hw,Nat.div_eq_of_lt h.short,Nat.div_eq_of_lt h'.short] at hdiv
    simpa using hdiv
  have hflat : pieces.flatten.length=pieces'.flatten.length := by
    rw [length_flatten_pieces h.each,length_flatten_pieces h'.each,hcount]
  obtain ⟨hpieces,hrest⟩ := List.append_inj hsame hflat
  refine ⟨?_,hrest⟩
  rw [← slices_flatten hw h.each,hpieces,slices_flatten hw h'.each]

/-- The values of one width have the bits of those of another, filled up with less than one of
those. -/
def Fills (width width' : ℕ) (values values' : List ℕ) : Prop :=
  ∃ k<width,joinBits width values=joinBits width' values'++List.replicate k false

theorem Fills.unique {width' : ℕ} {values : List ℕ} (hw : 0<width) (ha : Fills width width' a values) (hb : Fills width width' b values)
    (halow : ∀ v∈a,v<2^width) (hblow : ∀ v∈b,v<2^width) : a=b := by
  obtain ⟨i,hi,ha⟩ := ha
  obtain ⟨j,hj,hb⟩ := hb
  have hla := congrArg List.length ha
  have hlb := congrArg List.length hb
  simp only [length_joinBits,List.length_append,List.length_replicate] at hla hlb
  have hlen : a.length=b.length := by
    have hdiv : (width*a.length+j) / width=(width*b.length+i) / width := by
      congr 1
      omega
    rwa [Nat.mul_add_div hw,Nat.mul_add_div hw,Nat.div_eq_of_lt hj,Nat.div_eq_of_lt hi] at hdiv
  have hij : i=j := by
    rw [hlen] at hla
    omega
  exact joinBits_inj hw halow hblow (by rw [ha,hb,hij])

end RoseChain.Lib
