import Mathlib.Data.Nat.Bitwise
import RoseChain.Lib.Bits
import RoseChain.Types.Basic

namespace RoseChain
open Lib

namespace Bech32m

abbrev Text := List Char

def CHARSET : Text := "qpzry9x8gf2tvdw0s3jn54khce6mua7l".toList

def generator : List ℕ := [0x3B6A57B2,0x26508E6D,0x1EA119FA,0x3D4233DD,0x2A1462B3]

def polymodStep (chk value : ℕ) : ℕ :=
  let top := chk >>> 25
  (List.range 5).foldl (fun chk i => chk ^^^ (if (top >>> i) &&& 1≠0 then generator.getD i 0 else 0))
    (((chk &&& 0x1FFFFFF) <<< 5) ^^^ value)

def bech32Polymod (values : List ℕ) : ℕ := values.foldl polymodStep 1

def bech32HrpExpand (hrp : Text) : List ℕ :=
  (hrp.map fun x => x.toNat >>> 5)++[0]++hrp.map fun x => x.toNat &&& 31

def M : ℕ := 0x2BC830A3

def bech32VerifyChecksum (hrp : Text) (data : List ℕ) : Bool :=
  decide (bech32Polymod (bech32HrpExpand hrp++data)=M)

def bech32CreateChecksum (hrp : Text) (data : List ℕ) : List ℕ :=
  let values := bech32HrpExpand hrp++data
  let polymod := bech32Polymod (values++[0,0,0,0,0,0]) ^^^ M
  (List.range 6).map fun i => (polymod >>> (5*(5-i))) &&& 31

def bech32Encode (hrp : Text) (data : List ℕ) : Check Text := do
  let combined := data++bech32CreateChecksum hrp data
  let symbols ← combined.mapM fun d => index CHARSET[d]?
  return hrp ++ '1' :: symbols

/-- `s.rfind(c)`. -/
def rfind (c : Char) : Text → ℤ
  | [] => -1
  | x::s => if rfind c s ≠ -1 then rfind c s+1 else if x=c then 0 else -1

/-- `s.lower()` and `s.upper()` of ASCII text. -/
def lower (s : Text) : Text := s.map Char.toLower

def upper (s : Text) : Text := s.map Char.toUpper

def bech32Decode (bech : Text) : Option (Text × List ℕ) :=
  if (bech.any fun x => x.toNat<33 || x.toNat > 126) ∨ (lower bech≠bech ∧ upper bech≠bech) then none
  else
    let bech := lower bech
    let pos := rfind '1' bech
    if pos<1 ∨ pos+7 > bech.length ∨ bech.length > 90 then none
    else
      let hrp := bech.take pos.toNat
      let symbols := bech.drop (pos+1).toNat
      if ¬ symbols.all fun x => CHARSET.contains x then none
      else
        let data := symbols.map fun x => CHARSET.idxOf x
        if ¬ bech32VerifyChecksum hrp data then none
        else some (hrp,data.take (data.length-6))

/-- The inner loop, of a round for each `tobits` of the bits that are there. -/
def emitBits (tobits acc maxv : ℕ) : ℕ → ℕ → List ℕ → ℕ × List ℕ
  | 0,bits,ret => (bits,ret)
  | n+1,bits,ret =>
    if bits ≥ tobits then emitBits tobits acc maxv n (bits-tobits) (ret++[(acc >>> (bits-tobits)) &&& maxv])
    else (bits,ret)

structure Accumulator where
  acc : ℕ
  bits : ℕ
  ret : List ℕ

def convertStep (frombits tobits : ℕ) (z : Accumulator) (value : ℕ) : Check Accumulator := do
  let maxv := (1 <<< tobits)-1
  let maxAcc := (1 <<< (frombits+tobits-1))-1
  raiseIf (value >>> frombits≠0)
  let acc := ((z.acc <<< frombits) ||| value) &&& maxAcc
  let (bits,ret) := emitBits tobits acc maxv (z.bits+frombits) (z.bits+frombits) z.ret
  return ⟨acc,bits,ret⟩

def convertbits (data : List ℕ) (frombits tobits : ℕ) (pad : Bool) : Check (List ℕ) := do
  let maxv := (1 <<< tobits)-1
  let z ← data.foldlM (convertStep frombits tobits) ⟨0,0,[]⟩
  if pad then
    if z.bits≠0 then return z.ret++[(z.acc <<< (tobits-z.bits)) &&& maxv]
    else return z.ret
  else
    raiseIf (z.bits ≥ frombits ∨ (z.acc <<< (tobits-z.bits)) &&& maxv≠0)
    return z.ret

/-- `bytes(values)`. -/
def bytesOf (values : List ℕ) : Check Bytes := do
  raiseIf (values.any fun v => v > 255)
  return values.map UInt8.ofNat

def encodePuzzleHash (puzzleHash : Bytes) (pre : Text) : Check Text := do
  bech32Encode pre (← convertbits (puzzleHash.map UInt8.toNat) 8 5 true)

def decodePuzzleHash (address : Text) : Check Bytes := do
  match bech32Decode address with
  | none => .error (.raised .value)
  | some (_,data) => bytesOf (← convertbits data 5 8 false)

section Checksum

/-- What the upper bits of the checksum put back into it. -/
def feedback (top : ℕ) : ℕ :=
  (List.range 5).foldl (fun chk i => chk ^^^ (if (top >>> i) &&& 1≠0 then generator.getD i 0 else 0)) 0

theorem bit_xor (a b i g : ℕ) : (if ((a ^^^ b) >>> i) &&& 1≠0 then g else 0) =
    (if (a >>> i) &&& 1≠0 then g else 0) ^^^ (if (b >>> i) &&& 1≠0 then g else 0) := by
  have hbit (n : ℕ) : (n >>> i) &&& 1≠0 ↔ n.testBit i=true := by simp [Nat.testBit,Nat.land_comm]
  simp only [hbit,Nat.testBit_xor]
  cases a.testBit i <;> cases b.testBit i <;> simp

theorem feedback_xor (a b : ℕ) : feedback (a ^^^ b)=feedback a ^^^ feedback b := by
  simp only [feedback,List.range,List.range.loop,List.foldl_cons,List.foldl_nil,bit_xor,Nat.zero_xor]
  ac_rfl

theorem polymodStep_eq (chk value : ℕ) :
    polymodStep chk value=((chk &&& 0x1FFFFFF) <<< 5) ^^^ feedback (chk >>> 25) ^^^ value := by
  simp only [polymodStep,feedback,List.range,List.range.loop,List.foldl_cons,List.foldl_nil,Nat.zero_xor]
  ac_rfl

theorem polymodStep_xor (a b v w : ℕ) : polymodStep (a ^^^ b) (v ^^^ w)=polymodStep a v ^^^ polymodStep b w := by
  simp only [polymodStep_eq,Nat.and_xor_distrib_right,Nat.shiftLeft_xor_distrib,Nat.shiftRight_xor_distrib,feedback_xor]
  ac_rfl

theorem polymod_later (values : List ℕ) (a b : ℕ) : values.foldl polymodStep (a ^^^ b) =
    (List.replicate values.length 0).foldl polymodStep a ^^^ values.foldl polymodStep b := by
  induction values generalizing a b with
  | nil => rfl
  | cons v values ih =>
    have hstep := polymodStep_xor a b 0 v
    rw [Nat.zero_xor] at hstep
    rw [List.foldl_cons,hstep,ih]
    rfl

theorem shiftLeft_xor_of_lt {a b i : ℕ} (hb : b<2^i) : (a <<< i) ^^^ b=a*2^i+b := by
  have hor : (a <<< i) ^^^ b=(a <<< i) ||| b := by
    apply Nat.eq_of_testBit_eq
    intro j
    by_cases hj : i≤j
    · have hfalse : b.testBit j=false := Nat.testBit_lt_two_pow (hb.trans_le (Nat.pow_le_pow_right (by omega) hj))
      simp [Nat.testBit_xor,Nat.testBit_or,hfalse]
    · simp [Nat.testBit_xor,Nat.testBit_or,Nat.testBit_shiftLeft,hj]
  rw [hor,← Nat.shiftLeft_add_eq_or_of_lt hb,Nat.shiftLeft_eq]

variable {chk value : ℕ}

theorem polymodStep_low (hchk : chk<2^25) (hvalue : value<32) : polymodStep chk value=32*chk+value := by
  have htop : chk >>> 25=0 := by
    rw [Nat.shiftRight_eq_div_pow]
    omega
  have hmask : chk &&& 0x1FFFFFF=chk := by
    rw [show (0x1FFFFFF : ℕ)=2^25-1 by norm_num,Nat.and_two_pow_sub_one_eq_mod]
    omega
  have hfeedback : feedback 0=0 := by decide
  rw [polymodStep_eq,htop,hmask,hfeedback,Nat.xor_zero,shiftLeft_xor_of_lt (show value<2^5 by omega)]
  ring

theorem feedback_lt (top : ℕ) : feedback top<2^30 := by
  have hterm (i g : ℕ) (hg : g<2^30) : (if (top >>> i) &&& 1≠0 then g else 0)<2^30 := by
    split_ifs
    · exact hg
    · norm_num
  simp only [feedback,List.range,List.range.loop,List.foldl_cons,List.foldl_nil,Nat.zero_xor,generator]
  apply Nat.xor_lt_two_pow _ (hterm _ _ (by simp))
  apply Nat.xor_lt_two_pow _ (hterm _ _ (by simp))
  apply Nat.xor_lt_two_pow _ (hterm _ _ (by simp))
  exact Nat.xor_lt_two_pow (hterm _ _ (by simp)) (hterm _ _ (by simp))

theorem polymodStep_lt (hvalue : value<2^30) : polymodStep chk value<2^30 := by
  have hmask : chk &&& 0x1FFFFFF<2^25 := Nat.and_lt_two_pow chk (by norm_num)
  rw [polymodStep_eq]
  apply Nat.xor_lt_two_pow _ hvalue
  apply Nat.xor_lt_two_pow _ (feedback_lt _)
  rw [Nat.shiftLeft_eq]
  omega

/-- The checksum of a list of values: whatever stands before it, the last six symbols make up the rest. -/
theorem polymod_six (chk a b c d e f : ℕ) (ha : a<32) (hb : b<32) (hc : c<32) (hd : d<32) (he : e<32) (hf : f<32) :
    [a,b,c,d,e,f].foldl polymodStep chk=[0,0,0,0,0,0].foldl polymodStep chk ^^^
      (32*(32*(32*(32*(32*a+b)+c)+d)+e)+f) := by
  have hlater := polymod_later [a,b,c,d,e,f] chk 0
  rw [Nat.xor_zero] at hlater
  rw [hlater]
  congr 1
  simp only [List.foldl_cons,List.foldl_nil]
  rw [polymodStep_low (by norm_num) ha,Nat.mul_zero,Nat.zero_add,polymodStep_low (by omega) hb,
    polymodStep_low (by omega) hc,polymodStep_low (by omega) hd,polymodStep_low (by omega) he,
    polymodStep_low (by omega) hf]

theorem bech32VerifyChecksum_iff (hrp : Text) (data : List ℕ) {sum : List ℕ} (hlength : sum.length=6)
    (hsum : ∀ v∈sum,v<32) : bech32VerifyChecksum hrp (data++sum)=true ↔ sum=bech32CreateChecksum hrp data := by
  obtain ⟨a,b,c,d,e,f,rfl⟩ : ∃ a b c d e f,sum=[a,b,c,d,e,f] := by
    match sum,hlength with
    | [a,b,c,d,e,f],_ => exact ⟨a,b,c,d,e,f,rfl⟩
  simp only [List.mem_cons,List.not_mem_nil,or_false,forall_eq_or_imp,forall_eq] at hsum
  obtain ⟨ha,hb,hc,hd,he,hf⟩ := hsum
  unfold bech32VerifyChecksum bech32CreateChecksum bech32Polymod
  dsimp only
  rw [decide_eq_true_eq,← List.append_assoc,List.foldl_append (l := bech32HrpExpand hrp++data),
    List.foldl_append (l := bech32HrpExpand hrp++data),polymod_six _ a b c d e f ha hb hc hd he hf]
  generalize (bech32HrpExpand hrp++data).foldl polymodStep 1=chk
  have hlt : [0,0,0,0,0,0].foldl polymodStep chk<2^30 := by
    simp only [List.foldl_cons,List.foldl_nil]
    exact polymodStep_lt (by norm_num)
  generalize [0,0,0,0,0,0].foldl polymodStep chk=zeros at hlt
  have hrest : zeros ^^^ M<2^30 := Nat.xor_lt_two_pow hlt (by norm_num [M])
  have hswap (n : ℕ) : zeros ^^^ n=M ↔ n=zeros ^^^ M := by
    constructor
    · intro h
      rw [← h,← Nat.xor_assoc,Nat.xor_self,Nat.zero_xor]
    · intro h
      rw [h,← Nat.xor_assoc,Nat.xor_self,Nat.zero_xor]
  rw [hswap]
  generalize zeros ^^^ M=sum at hrest
  simp only [List.range,List.range.loop,List.map_cons,List.map_nil,List.cons.injEq,and_true,
    Nat.shiftRight_eq_div_pow,show (31 : ℕ)=2^5-1 by norm_num,Nat.and_two_pow_sub_one_eq_mod]
  norm_num
  omega

theorem eq_zero_of_moved (n : ℕ) : ∀ chk<2^30,(List.replicate n 0).foldl polymodStep chk=0 → chk=0 := by
  induction n with
  | zero => exact fun chk _ h => h
  | succ n ih =>
    intro chk hchk h
    have hstep := ih _ (polymodStep_lt (by norm_num)) h
    have htop : chk >>> 25=0 := by
      have hinjective : ∀ top<32,feedback top % 2^5=0 → top=0 := by decide
      apply hinjective
      · rw [Nat.shiftRight_eq_div_pow]
        omega
      · rw [polymodStep_eq,Nat.xor_zero,Nat.xor_eq_zero_iff] at hstep
        rw [← hstep,Nat.shiftLeft_eq,Nat.mul_mod_left]
    rw [Nat.shiftRight_eq_div_pow] at htop
    rw [polymodStep_low (by omega) (by norm_num)] at hstep
    omega

theorem six_values {x : List ℕ} (hlength : x.length=6) (hx : ∀ v∈x,v<32) : ∃ a b c d e f,x=[a,b,c,d,e,f] ∧
    a<32 ∧ b<32 ∧ c<32 ∧ d<32 ∧ e<32 ∧ f<32 := by
  match x,hlength with
  | [a,b,c,d,e,f],_ => exact ⟨a,b,c,d,e,f,rfl,by simpa using hx⟩

/-- No six values next to each other can be changed, all the others kept, so that the checksum stays valid. -/
theorem burst_detected {hrp : Text} {before after x y : List ℕ} (hx : x.length=6 ∧ ∀ v∈x,v<32)
    (hy : y.length=6 ∧ ∀ v∈y,v<32) (hvalid : bech32VerifyChecksum hrp (before++x++after)=true)
    (hne : x≠y) : bech32VerifyChecksum hrp (before++y++after)=false := by
  rw [← Bool.not_eq_true]
  intro hvalid'
  obtain ⟨a,b,c,d,e,f,rfl,ha,hb,hc,hd,he,hf⟩ := six_values hx.1 hx.2
  obtain ⟨a',b',c',d',e',f',rfl,ha',hb',hc',hd',he',hf'⟩ := six_values hy.1 hy.2
  simp only [bech32VerifyChecksum,bech32Polymod,decide_eq_true_eq,List.foldl_append] at hvalid hvalid'
  rw [polymod_six _ _ _ _ _ _ _ ha hb hc hd he hf,Nat.xor_comm,polymod_later] at hvalid
  rw [polymod_six _ _ _ _ _ _ _ ha' hb' hc' hd' he' hf',Nat.xor_comm,polymod_later] at hvalid'
  generalize hn : 32*(32*(32*(32*(32*a+b)+c)+d)+e)+f=n at hvalid
  generalize hn' : 32*(32*(32*(32*(32*a'+b')+c')+d')+e')+f'=n' at hvalid'
  have hlater := polymod_later (List.replicate after.length 0) n n'
  rw [List.length_replicate,Nat.xor_left_injective (hvalid.trans hvalid'.symm),Nat.xor_self] at hlater
  have hsame := Nat.xor_eq_zero_iff.mp (eq_zero_of_moved _ _ (Nat.xor_lt_two_pow (by omega) (by omega)) hlater)
  apply hne
  simp only [List.cons.injEq,and_true]
  omega

theorem burst_detected_one : bech32VerifyChecksum "a".toList [31,0,9,19,17,30]=false :=
  @burst_detected "a".toList [] [] [31,0,9,19,17,29] [31,0,9,19,17,30] (by decide) (by decide) (by decide) (by decide)

end Checksum

section Regrouping
variable {frombits tobits : ℕ}

theorem and_maxv (n tobits : ℕ) : n &&& (1 <<< tobits-1)=n % 2^tobits := by
  rw [Nat.one_shiftLeft,Nat.and_two_pow_sub_one_eq_mod]

variable {bits : List Bool}

theorem emitBits_cut (hto : 0<tobits) {acc n : ℕ} (hn : bits.length≤n)
    (hacc : acc % 2^bits.length=uintOf bits) (ret : List ℕ) : ∃ pieces rest,Cut tobits bits pieces rest ∧
      acc % 2^rest.length=uintOf rest ∧
      emitBits tobits acc (1 <<< tobits-1) n bits.length ret=(rest.length,ret++pieces.map uintOf) := by
  induction n generalizing bits ret with
  | zero =>
    obtain rfl := List.length_eq_zero_iff.mp (Nat.le_zero.mp hn)
    exact ⟨[],[],⟨rfl,by simp,hto⟩,hacc,by simp [emitBits]⟩
  | succ n ih =>
    by_cases hge : bits.length ≥ tobits
    · have hlen : (bits.drop tobits).length=bits.length-tobits := List.length_drop
      have htake : (bits.take tobits).length=tobits := by simp [hge]
      have hsplit := uintOf_append (bits.take tobits) (bits.drop tobits)
      have hlow := uintOf_lt (bits.drop tobits)
      have hhigh := uintOf_lt (bits.take tobits)
      rw [List.take_append_drop] at hsplit
      rw [htake] at hhigh
      have hrest : acc % 2^(bits.drop tobits).length=uintOf (bits.drop tobits) := by
        rw [← Nat.mod_mod_of_dvd acc (Nat.pow_dvd_pow 2 (show (bits.drop tobits).length≤bits.length by omega)),hacc,
          hsplit,Nat.mul_add_mod_self_right,Nat.mod_eq_of_lt hlow]
      have hpiece : (acc >>> (bits.length-tobits)) &&& (1 <<< tobits-1)=uintOf (bits.take tobits) := by
        have hpow : 2^bits.length=2^(bits.length-tobits)*2^tobits := by
          rw [← pow_add,Nat.sub_add_cancel hge]
        rw [and_maxv,Nat.shiftRight_eq_div_pow,← Nat.mod_mul_right_div_self,← hpow,hacc,hsplit,hlen,Nat.mul_comm,
          Nat.mul_add_div (by positivity),Nat.div_eq_of_lt (by rwa [hlen] at hlow),Nat.add_zero]
      obtain ⟨pieces,rest,hcut,hleft,hrun⟩ := @ih (bits.drop tobits) (by omega) hrest (ret++[uintOf (bits.take tobits)])
      refine ⟨bits.take tobits::pieces,rest,?_,hleft,?_⟩
      · constructor
        · rw [List.flatten_cons,List.append_assoc,hcut.joined,List.take_append_drop]
        · simpa [htake] using hcut.each
        · exact hcut.short
      · rw [emitBits,if_pos hge,hpiece,← hlen,hrun]
        simp
    · refine ⟨[],bits,⟨rfl,by simp,by omega⟩,hacc,?_⟩
      rw [emitBits,if_neg hge]
      simp

/-- What the outer loop has read, and given back. -/
structure Accumulator.Holds (tobits : ℕ) (z : Accumulator) (bits : List Bool) (pieces : List (List Bool)) (rest : List Bool) :
    Prop where
  cut : Cut tobits bits pieces rest
  bits : z.bits=rest.length
  acc : z.acc % 2^rest.length=uintOf rest
  ret : z.ret=pieces.map uintOf

variable {z : Accumulator} {rest : List Bool} {pieces : List (List Bool)}

theorem convertStep_holds (hto : 0<tobits) (h : z.Holds tobits bits pieces rest) {value : ℕ} (hvalue : value<2^frombits) :
    ∃ z' pieces' rest',convertStep frombits tobits z value = .ok z' ∧
      z'.Holds tobits (bits++bitsOf frombits value) pieces' rest' := by
  have hshort := h.cut.short
  have hlen : (rest++bitsOf frombits value).length=z.bits+frombits := by simp [h.bits]
  have hlow : ((z.acc <<< frombits ||| value) &&& (1 <<< (frombits+tobits-1)-1)) % 2^(z.bits+frombits) =
      uintOf (rest++bitsOf frombits value) := by
    have hle : z.bits+frombits≤frombits+tobits-1 := by
      rw [h.bits]
      omega
    have hpos : 0<2^frombits := by positivity
    rw [and_maxv,Nat.mod_mod_of_dvd _ (Nat.pow_dvd_pow 2 hle),← Nat.shiftLeft_add_eq_or_of_lt hvalue,Nat.shiftLeft_eq,
      uintOf_append,length_bitsOf,uintOf_bitsOf hvalue,← h.acc,← h.bits,Nat.add_comm z.bits,pow_add,Nat.mod_mul,
      Nat.mul_comm z.acc,Nat.mul_add_mod,Nat.mod_eq_of_lt hvalue,Nat.mul_add_div hpos,Nat.div_eq_of_lt hvalue]
    rw [Nat.add_zero]
    ring
  rw [← hlen] at hlow
  obtain ⟨pieces',rest',hcut,hleft,hrun⟩ := emitBits_cut hto le_rfl hlow z.ret
  refine ⟨⟨(z.acc <<< frombits ||| value) &&& (1 <<< (frombits+tobits-1)-1),rest'.length,z.ret++pieces'.map uintOf⟩,
    pieces++pieces',rest',?_,h.cut.append hcut,rfl,hleft,?_⟩
  · have hfits : value >>> frombits=0 := by
      rw [Nat.shiftRight_eq_div_pow,Nat.div_eq_of_lt hvalue]
    rw [hlen] at hrun
    unfold convertStep
    rw [bind_of_ok ((raiseIf_eq_ok (u := ())).mpr (by simp [hfits]))]
    dsimp only
    rw [hrun]
    rfl
  · simp [h.ret]

variable {values : List ℕ}

theorem convertLoop_holds (hto : 0<tobits) (hvalues : ∀ v∈values,v<2^frombits)
    (h : z.Holds tobits bits pieces rest) :
    ∃ z' pieces' rest',values.foldlM (convertStep frombits tobits) z = .ok z' ∧
      z'.Holds tobits (bits++joinBits frombits values) pieces' rest' := by
  induction values generalizing z bits pieces rest with
  | nil => exact ⟨z,pieces,rest,rfl,by simpa using h⟩
  | cons v values ih =>
    obtain ⟨z₁,pieces₁,rest₁,hstep,h₁⟩ := convertStep_holds hto h (hvalues v List.mem_cons_self)
    obtain ⟨z',pieces',rest',hrun,h'⟩ := ih (fun w hw => hvalues w (List.mem_cons_of_mem v hw)) h₁
    refine ⟨z',pieces',rest',?_,?_⟩
    · rw [List.foldlM_cons,bind_of_ok hstep]
      exact hrun
    · simpa [joinBits] using h'

theorem convertLoop_ok (hto : 0<tobits) (hvalues : ∀ v∈values,v<2^frombits) :
    ∃ z pieces rest,values.foldlM (convertStep frombits tobits) ⟨0,0,[]⟩ = .ok z ∧
      z.Holds tobits (joinBits frombits values) pieces rest := by
  have hstart : Accumulator.Holds tobits ⟨0,0,[]⟩ [] [] [] := by
    constructor
    · exact ⟨rfl,by simp,hto⟩
    · rfl
    · rfl
    · rfl
  exact convertLoop_holds hto hvalues hstart

theorem uintOf_pieces_lt {width : ℕ} (h : ∀ piece∈pieces,piece.length=width) :
    ∀ v∈pieces.map uintOf,v<2^width := by
  intro v hv
  obtain ⟨piece,hpiece,rfl⟩ := List.mem_map.mp hv
  have hlt := uintOf_lt piece
  rwa [h piece hpiece] at hlt

theorem shifted_rest (h : z.Holds tobits bits pieces rest) :
    (z.acc <<< (tobits-z.bits)) &&& (1 <<< tobits-1)=uintOf rest*2^(tobits-rest.length) := by
  have hpow : 2^tobits=2^(tobits-rest.length)*2^rest.length := by
    rw [← pow_add,Nat.sub_add_cancel h.cut.short.le]
  rw [and_maxv,Nat.shiftLeft_eq,h.bits,Nat.mul_comm z.acc,hpow,Nat.mul_mod_mul_left,h.acc,Nat.mul_comm]

theorem convertbits_pad (hto : 0<tobits) (hvalues : ∀ v∈values,v<2^frombits) :
    ∃ out,convertbits values frombits tobits true = .ok out ∧ (∀ v∈out,v<2^tobits) ∧
      Fills tobits frombits out values := by
  obtain ⟨z,pieces,rest,hloop,h⟩ := convertLoop_ok hto hvalues
  have hjoined := h.cut.joined
  have hshort := h.cut.short
  unfold convertbits
  rw [bind_of_ok hloop,if_pos rfl]
  by_cases hrest : z.bits=0
  · have hnil : rest=[] := List.length_eq_zero_iff.mp (h.bits.symm.trans hrest)
    rw [hnil,List.append_nil] at hjoined
    refine ⟨z.ret,by rw [if_neg (not_not.mpr hrest)]; rfl,?_,0,hto,?_⟩
    · rw [h.ret]
      exact uintOf_pieces_lt h.cut.each
    · rw [h.ret,joinBits_map_uintOf h.cut.each,hjoined]
      simp
  · have hlast : (z.acc <<< (tobits-z.bits)) &&& (1 <<< tobits-1) =
        uintOf (rest++List.replicate (tobits-rest.length) false) := by
      rw [shifted_rest h,uintOf_append,uintOf_zeros,List.length_replicate,Nat.add_zero]
    have heach : ∀ piece∈pieces++[rest++List.replicate (tobits-rest.length) false],piece.length=tobits := by
      intro piece hpiece
      obtain hpiece | hpiece := List.mem_append.mp hpiece
      · exact h.cut.each piece hpiece
      · obtain rfl := List.mem_singleton.mp hpiece
        simp
        omega
    have hout : z.ret++[(z.acc <<< (tobits-z.bits)) &&& (1 <<< tobits-1)] =
        (pieces++[rest++List.replicate (tobits-rest.length) false]).map uintOf := by
      rw [h.ret,hlast]
      simp
    refine ⟨_,by rw [if_pos hrest]; rfl,?_,tobits-rest.length,?_,?_⟩
    · rw [hout]
      exact uintOf_pieces_lt heach
    · rw [h.bits] at hrest
      omega
    · rw [hout,joinBits_map_uintOf heach,← hjoined]
      simp

theorem convertbits_noPad (hto : 0<tobits) (hle : frombits≤tobits) {out : List ℕ} (hvalues : ∀ v∈values,v<2^frombits) :
    convertbits values frombits tobits false = .ok out ↔ (∀ v∈out,v<2^tobits) ∧ Fills frombits tobits values out := by
  obtain ⟨z,pieces,rest,hloop,h⟩ := convertLoop_ok hto hvalues
  have hjoined := h.cut.joined
  have hshort := h.cut.short
  have hright : ((z.acc <<< (tobits-z.bits)) &&& (1 <<< tobits-1)=0) ↔ uintOf rest=0 := by
    rw [shifted_rest h]
    simp
  rw [h.bits] at hright
  have hpasses : convertbits values frombits tobits false = .ok out ↔
      (rest.length<frombits ∧ uintOf rest=0) ∧ z.ret=out := by
    unfold convertbits
    rw [bind_of_ok hloop,if_neg Bool.false_ne_true,bind_ok]
    simp only [raiseIf_eq_ok,not_or,not_le,not_not,hright,h.bits,exists_const,pure,Except.pure,Except.ok.injEq]
  rw [hpasses,h.ret]
  constructor
  · rintro ⟨⟨hlt,hzero⟩,hret⟩
    refine ⟨hret ▸ uintOf_pieces_lt h.cut.each,rest.length,hlt,?_⟩
    rw [← hret,joinBits_map_uintOf h.cut.each,← eq_zeros_of_uintOf hzero,hjoined]
  · rintro ⟨hout,k,hk,hfills⟩
    have hcut : Cut tobits (joinBits frombits values) (out.map (bitsOf tobits)) (List.replicate k false) := by
      constructor
      · rw [hfills,joinBits,List.flatMap_def]
      · simp
      · rw [List.length_replicate]
        omega
    obtain ⟨rfl,rfl⟩ := h.cut.unique hcut
    refine ⟨by simpa using hk,?_⟩
    rw [List.map_map]
    conv_rhs => rw [← List.map_id out]
    apply List.map_congr_left
    intro v hv
    exact uintOf_bitsOf (hout v hv)

theorem convertbits_raises (hto : 0<tobits) (hvalues : ∀ v∈values,v<2^frombits) {e : Fail}
    (h : convertbits values frombits tobits false = .error e) : e = .raised .value := by
  obtain ⟨z,pieces,rest,hloop,-⟩ := convertLoop_ok hto hvalues
  unfold convertbits raiseIf at h
  rw [bind_of_ok hloop,if_neg Bool.false_ne_true] at h
  split_ifs at h
  · exact (Except.error.inj h).symm
  · cases h

end Regrouping

section Text
variable {s hrp : Text} {data : List ℕ}

variable {c : Char}

theorem rfind_eq_neg_one : rfind c s = -1 ↔ c∉s := by
  induction s with
  | nil => simp [rfind]
  | cons x s ih =>
    have hlow : -1 ≤ rfind c s := by
      clear ih
      induction s with
      | nil => simp [rfind]
      | cons y s ih =>
        rw [rfind]
        split_ifs <;> omega
    rw [rfind]
    by_cases hs : rfind c s = -1
    · rw [if_neg (not_not.mpr hs)]
      have hnot := ih.mp hs
      by_cases hx : x=c
      · simp [hx]
      · simp [hx,hnot,Ne.symm hx]
    · have hin := (not_congr ih).mp hs
      rw [if_pos hs]
      constructor
      · omega
      · intro hnot
        exact absurd (List.mem_cons_of_mem x (not_not.mp hin)) hnot

variable {b : Text}

theorem rfind_append {a : Text} (hb : c∉b) : rfind c (a++c::b)=a.length := by
  induction a with
  | nil =>
    rw [List.nil_append,rfind,if_neg (not_not.mpr (rfind_eq_neg_one.mpr hb)),if_pos rfl]
    rfl
  | cons x a ih =>
    rw [List.cons_append,rfind,ih,if_pos (by omega)]
    simp

theorem exists_of_rfind (h : rfind c s ≠ -1) : ∃ a b,s=a++c::b ∧ c∉b := by
  rw [Ne,rfind_eq_neg_one,not_not] at h
  induction s with
  | nil => cases h
  | cons x s ih =>
    by_cases hs : c∈s
    · obtain ⟨a,b,rfl,hb⟩ := ih hs
      exact ⟨x::a,b,rfl,hb⟩
    · obtain rfl | h := List.mem_cons.mp h
      · exact ⟨[],s,rfl,hs⟩
      · exact absurd h hs

def symbol (d : ℕ) : Char := CHARSET.getD d 'q'

theorem forall_mem_of_all {p : Char → Prop} [DecidablePred p] (h : s.all (fun x => decide (p x))=true) : ∀ x∈s,p x := by
  simpa using h

theorem charset_nodup : CHARSET.Nodup := by decide

theorem length_charset : CHARSET.length=32 := by decide

theorem one_notMem_charset : '1' ∉ CHARSET := by decide

variable {d : ℕ}

theorem charset_symbol (h : d<32) : CHARSET[d]?=some (symbol d) := by
  rw [symbol,List.getD_eq_getElem?_getD,List.getElem?_eq_getElem (by rw [length_charset]; exact h)]
  rfl

theorem symbol_mem (h : d<32) : symbol d∈CHARSET := List.mem_of_getElem? (charset_symbol h)

@[simp] theorem idxOf_symbol (h : d<32) : CHARSET.idxOf (symbol d)=d := by
  have hd : d<CHARSET.length := by rwa [length_charset]
  have hsymbol : symbol d=CHARSET[d] := Option.some.inj ((charset_symbol h).symm.trans (List.getElem?_eq_getElem hd))
  rw [hsymbol,charset_nodup.idxOf_getElem]

theorem symbol_idxOf {x : Char} (h : x∈CHARSET) : symbol (CHARSET.idxOf x)=x ∧ CHARSET.idxOf x<32 := by
  have hlt : CHARSET.idxOf x<CHARSET.length := List.idxOf_lt_length_of_mem h
  rw [length_charset] at hlt
  have hfound := charset_symbol hlt
  rw [List.getElem?_eq_getElem (by rwa [length_charset]),List.getElem_idxOf] at hfound
  exact ⟨(Option.some.inj hfound).symm,hlt⟩

theorem createChecksum_length : (bech32CreateChecksum hrp data).length=6 := by simp [bech32CreateChecksum]

theorem createChecksum_lt : ∀ v∈bech32CreateChecksum hrp data,v<32 := by
  intro v hv
  obtain ⟨i,-,rfl⟩ := List.mem_map.mp hv
  have hlt : ∀ n : ℕ,n &&& 31<2^5 := fun n => Nat.and_lt_two_pow n (by norm_num)
  exact hlt _

theorem combined_lt (h : ∀ v∈data,v<32) : ∀ v∈data++bech32CreateChecksum hrp data,v<32 := by
  intro v hv
  obtain hv | hv := List.mem_append.mp hv
  · exact h v hv
  · exact createChecksum_lt v hv

theorem bech32Encode_eq (h : ∀ v∈data,v<32) :
    bech32Encode hrp data = .ok (hrp ++ '1' :: (data++bech32CreateChecksum hrp data).map symbol) := by
  have hsymbols : (data++bech32CreateChecksum hrp data).mapM (fun d => index CHARSET[d]?) =
      .ok ((data++bech32CreateChecksum hrp data).map symbol) := by
    apply mapM_eq_ok_map
    intro d hd
    rw [charset_symbol (combined_lt h d hd)]
    rfl
  unfold bech32Encode
  dsimp only
  rw [bind_of_ok hsymbols]
  rfl

/-- In printable characters, and not in both cases. -/
structure Written (s : Text) : Prop where
  printable : ∀ x∈s,33≤x.toNat ∧ x.toNat≤126
  oneCase : lower s=s ∨ upper s=s
  length : s.length≤90

theorem not_written_iff : ((s.any fun x => x.toNat<33 || x.toNat > 126)=true ∨ (lower s≠s ∧ upper s≠s)) ↔
    ¬ ((∀ x∈s,33≤x.toNat ∧ x.toNat≤126) ∧ (lower s=s ∨ upper s=s)) := by
  rw [not_and_or,not_or,List.any_eq_true]
  apply or_congr _ Iff.rfl
  push Not
  apply exists_congr
  intro x
  apply and_congr_right
  intro _
  simp only [Bool.or_eq_true,decide_eq_true_eq]
  omega

theorem bech32Decode_split (hs : lower s=hrp ++ '1' :: b) (hb : '1' ∉ b) (decoded : Text × List ℕ) :
    bech32Decode s=some decoded ↔ Written s ∧ hrp≠[] ∧ 6≤b.length ∧ (∀ x∈b,x∈CHARSET) ∧
      bech32VerifyChecksum hrp (b.map fun x => CHARSET.idxOf x)=true ∧
      (hrp,(b.map fun x => CHARSET.idxOf x).take (b.length-6))=decoded := by
  have hlower : (lower s).length=s.length := by simp [lower]
  have hlen : s.length=hrp.length+1+b.length := by
    rw [← hlower,hs,List.length_append,List.length_cons]
    omega
  have hpos : rfind '1' (lower s)=hrp.length := by rw [hs,rfind_append hb]
  have htake : (lower s).take hrp.length=hrp := by simp [hs]
  have hdrop : (lower s).drop (hrp.length+1)=b := by simp [hs,List.drop_append]
  have hall : (b.all fun x => CHARSET.contains x)=true ↔ ∀ x∈b,x∈CHARSET := by simp
  have hplace : ((hrp.length : ℤ)<1 ∨ (hrp.length : ℤ)+7 > s.length ∨ s.length > 90) ↔
      ¬ (hrp≠[] ∧ 6≤b.length ∧ s.length≤90) := by
    rw [← List.length_pos_iff]
    omega
  have hwritten : Written s ↔ ((∀ x∈s,33≤x.toNat ∧ x.toNat≤126) ∧ (lower s=s ∨ upper s=s)) ∧ s.length≤90 :=
    ⟨fun h => ⟨⟨h.printable,h.oneCase⟩,h.length⟩,fun h => ⟨h.1.1,h.1.2,h.2⟩⟩
  unfold bech32Decode
  dsimp only
  simp only [hpos,hlower,Int.toNat_natCast,show ((hrp.length : ℤ)+1).toNat=hrp.length+1 by omega,htake,hdrop,hall,
    not_written_iff,hplace,List.length_map,hwritten]
  split_ifs with hchars hplaced hsymbols hchecked
  · rw [Option.some.injEq]
    exact ⟨fun h => ⟨⟨hchars,hplaced.2.2⟩,hplaced.1,hplaced.2.1,hsymbols,hchecked,h⟩,fun h => h.2.2.2.2.2⟩
  · simp only [false_iff]
    intro h
    exact hchecked h.2.2.2.2.1
  · simp only [false_iff]
    intro h
    exact hsymbols h.2.2.2.1
  · simp only [false_iff]
    intro h
    exact hplaced ⟨h.2.1,h.2.2.1,h.1.2⟩
  · simp only [false_iff]
    intro h
    exact hchars h.1.1

theorem bech32Decode_eq_some : bech32Decode s=some (hrp,data) ↔
    Written s ∧ hrp≠[] ∧ (∀ v∈data,v<32) ∧ bech32Encode hrp data = .ok (lower s) := by
  constructor
  · intro h
    have hfound : rfind '1' (lower s) ≠ -1 := by
      intro hnone
      unfold bech32Decode at h
      simp [hnone] at h
    obtain ⟨a,b,hs,hb⟩ := exists_of_rfind hfound
    obtain ⟨hwritten,hne,hlong,hin,hverify,hdecoded⟩ := (bech32Decode_split hs hb _).mp h
    obtain ⟨rfl,rfl⟩ := Prod.mk.inj hdecoded
    have hlow : ∀ v∈b.map fun x => CHARSET.idxOf x,v<32 := by
      intro v hv
      obtain ⟨x,hx,rfl⟩ := List.mem_map.mp hv
      exact (symbol_idxOf (hin x hx)).2
    have hlowData : ∀ v∈(b.map fun x => CHARSET.idxOf x).take (b.length-6),v<32 :=
      fun v hv => hlow v (List.mem_of_mem_take hv)
    have hsplit := List.take_append_drop (b.length-6) (b.map fun x => CHARSET.idxOf x)
    have hsum : (b.map fun x => CHARSET.idxOf x).drop (b.length-6) =
        bech32CreateChecksum a ((b.map fun x => CHARSET.idxOf x).take (b.length-6)) := by
      apply (bech32VerifyChecksum_iff a _ ?_ fun v hv => hlow v (List.mem_of_mem_drop hv)).mp
      · rw [hsplit]
        exact hverify
      · simp
        omega
    have hback : (b.map fun x => CHARSET.idxOf x).map symbol=b := by
      rw [List.map_map]
      conv_rhs => rw [← List.map_id b]
      apply List.map_congr_left
      intro x hx
      exact (symbol_idxOf (hin x hx)).1
    refine ⟨hwritten,hne,hlowData,?_⟩
    rw [bech32Encode_eq hlowData,← hsum,hsplit,hback,hs]
  · intro ⟨hwritten,hne,hlow,hencode⟩
    rw [bech32Encode_eq hlow] at hencode
    have hs := (Except.ok.inj hencode).symm
    have hall := @combined_lt hrp _ hlow
    have hin : ∀ x∈(data++bech32CreateChecksum hrp data).map symbol,x∈CHARSET := by
      intro x hx
      obtain ⟨v,hv,rfl⟩ := List.mem_map.mp hx
      exact symbol_mem (hall v hv)
    have hback : ((data++bech32CreateChecksum hrp data).map symbol).map (fun x => CHARSET.idxOf x) =
        data++bech32CreateChecksum hrp data := by
      rw [List.map_map]
      conv_rhs => rw [← List.map_id (data++bech32CreateChecksum hrp data)]
      apply List.map_congr_left
      intro v hv
      exact idxOf_symbol (hall v hv)
    have hlength : ((data++bech32CreateChecksum hrp data).map symbol).length=data.length+6 := by
      simp [createChecksum_length]
    apply (bech32Decode_split hs (fun h => one_notMem_charset (hin _ h)) _).mpr
    refine ⟨hwritten,hne,by omega,hin,?_,?_⟩
    · rw [hback]
      exact (bech32VerifyChecksum_iff hrp data createChecksum_length createChecksum_lt).mpr rfl
    · rw [hback,hlength]
      simp

end Text

/-- A prefix of printable characters, in lower case. -/
structure ValidPrefix (pre : Text) : Prop where
  nonempty : pre≠[]
  printable : ∀ x∈pre,33≤x.toNat ∧ x.toNat≤126
  lowercase : lower pre=pre

def prefixOf (address : Text) : Text := (lower address).take (rfind '1' (lower address)).toNat

/-- Text that is the encoding of a byte string, in one case or the other. -/
structure EncodingOf (address pre : Text) (payload : Bytes) : Prop where
  written : Written address
  nonempty : pre≠[]
  encoded : encodePuzzleHash payload pre = .ok (lower address)

/-- Decoding raises, or gives 32 bytes that have no other text. -/
def Faithful (address : Text) : Prop :=
  decodePuzzleHash address = .error (.raised .value) ∨
    ∃ puzzleHash,decodePuzzleHash address = .ok puzzleHash ∧ puzzleHash.length=32 ∧
      encodePuzzleHash puzzleHash (prefixOf address) = .ok (lower address)

section Address
variable {address pre : Text} {payload : Bytes}

theorem map_toNat_lt (b : Bytes) : ∀ v∈b.map UInt8.toNat,v<2^8 := by
  intro v hv
  obtain ⟨x,-,rfl⟩ := List.mem_map.mp hv
  exact x.toNat_lt

@[simp] theorem map_ofNat_toNat (b : Bytes) : (b.map UInt8.toNat).map UInt8.ofNat=b := by
  rw [List.map_map]
  conv_rhs => rw [← List.map_id b]
  apply List.map_congr_left
  intro x _
  exact UInt8.ofNat_toNat

variable {values : List ℕ}

theorem map_toNat_ofNat (h : ∀ v∈values,v<2^8) : (values.map UInt8.ofNat).map UInt8.toNat=values := by
  rw [List.map_map]
  conv_rhs => rw [← List.map_id values]
  apply List.map_congr_left
  intro v hv
  exact UInt8.toNat_ofNat_of_lt' (h v hv)

theorem bytesOf_eq (h : ∀ v∈values,v<2^8) : bytesOf values = .ok (values.map UInt8.ofNat) := by
  have hfits : ¬ (values.any fun v => v > 255)=true := by
    simp only [List.any_eq_true,decide_eq_true_eq,not_exists,not_and,not_lt]
    intro v hv
    have hlt := h v hv
    omega
  unfold bytesOf
  rw [bind_of_ok ((raiseIf_eq_ok (u := ())).mpr hfits)]
  rfl

theorem encodePuzzleHash_eq (payload : Bytes) (pre : Text) : ∃ data,(∀ v∈data,v<2^5) ∧
    Fills 5 8 data (payload.map UInt8.toNat) ∧ encodePuzzleHash payload pre=bech32Encode pre data := by
  obtain ⟨data,hconvert,hlow,hfills⟩ := @convertbits_pad 8 5 _ (by norm_num) (map_toNat_lt payload)
  refine ⟨data,hlow,hfills,?_⟩
  unfold encodePuzzleHash
  rw [bind_of_ok hconvert]

theorem EncodingOf.prefixOf_eq (h : EncodingOf address pre payload) : prefixOf address=pre := by
  obtain ⟨data,hlow,-,hencode⟩ := encodePuzzleHash_eq payload pre
  have hs := h.encoded
  rw [hencode,bech32Encode_eq hlow] at hs
  have hnone : '1' ∉ (data++bech32CreateChecksum pre data).map symbol := by
    intro hin
    obtain ⟨v,hv,hone⟩ := List.mem_map.mp hin
    exact one_notMem_charset (hone ▸ symbol_mem (combined_lt hlow v hv))
  unfold prefixOf
  rw [← Except.ok.inj hs,rfind_append hnone]
  simp

theorem decodePuzzleHash_ok : decodePuzzleHash address = .ok payload ↔ ∃ pre,EncodingOf address pre payload := by
  constructor
  · intro h
    unfold decodePuzzleHash at h
    cases hdecode : bech32Decode address with
    | none => simp [hdecode] at h
    | some decoded =>
      obtain ⟨pre,data⟩ := decoded
      obtain ⟨hwritten,hne,hlow,hs⟩ := bech32Decode_eq_some.mp hdecode
      rw [hdecode] at h
      obtain ⟨values,hconvert,hbytes⟩ := bind_ok.mp h
      obtain ⟨hvalues,hfills⟩ := (convertbits_noPad (by norm_num) (by norm_num) hlow).mp hconvert
      rw [bytesOf_eq hvalues] at hbytes
      obtain rfl := Except.ok.inj hbytes
      obtain ⟨data',hlow',hfills',hencode⟩ := encodePuzzleHash_eq (values.map UInt8.ofNat) pre
      rw [map_toNat_ofNat hvalues] at hfills'
      obtain rfl := hfills.unique (by norm_num) hfills' hlow hlow'
      exact ⟨pre,hwritten,hne,hencode.trans hs⟩
  · intro ⟨pre,h⟩
    obtain ⟨data,hlow,hfills,hencode⟩ := encodePuzzleHash_eq payload pre
    have hdecode := bech32Decode_eq_some.mpr ⟨h.written,h.nonempty,hlow,hencode.symm.trans h.encoded⟩
    have hconvert := (convertbits_noPad (by norm_num) (by norm_num) hlow).mpr ⟨map_toNat_lt payload,hfills⟩
    unfold decodePuzzleHash
    rw [hdecode]
    dsimp only
    rw [bind_of_ok hconvert,bytesOf_eq (map_toNat_lt payload),map_ofNat_toNat]

theorem decodePuzzleHash_raises {e : Fail} (h : decodePuzzleHash address = .error e) : e = .raised .value := by
  unfold decodePuzzleHash at h
  cases hdecode : bech32Decode address with
  | none =>
    rw [hdecode] at h
    exact (Except.error.inj h).symm
  | some decoded =>
    obtain ⟨pre,data⟩ := decoded
    obtain ⟨-,-,hlow,-⟩ := bech32Decode_eq_some.mp hdecode
    rw [hdecode] at h
    dsimp only at h
    cases hconvert : convertbits data 5 8 false with
    | error e' =>
      rw [hconvert] at h
      obtain rfl := Except.error.inj h
      exact convertbits_raises (by norm_num) hlow hconvert
    | ok values =>
      have hvalues := ((convertbits_noPad (by norm_num) (by norm_num) hlow).mp hconvert).1
      rw [bind_of_ok hconvert,bytesOf_eq hvalues] at h
      cases h

theorem encodingOf_encode (payload : Bytes) (hpre : ValidPrefix pre) :
    ∃ address,encodePuzzleHash payload pre = .ok address ∧ (address.length≤90 → EncodingOf address pre payload) := by
  obtain ⟨data,hlow,-,hencode⟩ := encodePuzzleHash_eq payload pre
  rw [bech32Encode_eq hlow] at hencode
  have hchar : ∀ x∈(data++bech32CreateChecksum pre data).map symbol,(33≤x.toNat ∧ x.toNat≤126) ∧ x.toLower=x := by
    intro x hx
    obtain ⟨v,hv,rfl⟩ := List.mem_map.mp hx
    have hcharset : ∀ x∈CHARSET,(33≤x.toNat ∧ x.toNat≤126) ∧ x.toLower=x :=
      forall_mem_of_all (by decide)
    exact hcharset _ (symbol_mem (combined_lt hlow v hv))
  have hlower : lower (pre ++ '1' :: (data++bech32CreateChecksum pre data).map symbol) =
      pre ++ '1' :: (data++bech32CreateChecksum pre data).map symbol := by
    have hsymbols : lower ((data++bech32CreateChecksum pre data).map symbol) =
        (data++bech32CreateChecksum pre data).map symbol := by
      conv_rhs => rw [← List.map_id ((data++bech32CreateChecksum pre data).map symbol)]
      apply List.map_congr_left
      intro x hx
      exact (hchar x hx).2
    have hpreLower := hpre.lowercase
    unfold lower at hsymbols hpreLower ⊢
    rw [List.map_append,List.map_cons,hsymbols,hpreLower]
    rfl
  refine ⟨_,hencode,fun hlength => ⟨⟨?_,Or.inl hlower,hlength⟩,hpre.nonempty,hencode.trans (congrArg _ hlower.symm)⟩⟩
  intro x hx
  obtain hx | hx := List.mem_append.mp hx
  · exact hpre.printable x hx
  · obtain rfl | hx := List.mem_cons.mp hx
    · decide
    · exact (hchar x hx).1

/-- Addresses of puzzle hashes are read back, and decoding is faithful but for other lengths. -/
theorem addressCodec (address : Text) : (∀ (puzzleHash : Bytes32) (pre : Text),ValidPrefix pre →
      ∃ address,encodePuzzleHash (bytes32 puzzleHash) pre = .ok address ∧
        (address.length≤90 → decodePuzzleHash address = .ok (bytes32 puzzleHash))) ∧
    (Faithful address ↔ ∀ pre payload,EncodingOf address pre payload → payload.length=32) := by
  constructor
  · intro puzzleHash pre hpre
    obtain ⟨address,hencode,h⟩ := encodingOf_encode (bytes32 puzzleHash) hpre
    exact ⟨address,hencode,fun hlength => decodePuzzleHash_ok.mpr ⟨pre,h hlength⟩⟩
  · constructor
    · intro h pre payload hof
      have hdecode := decodePuzzleHash_ok.mpr ⟨pre,hof⟩
      obtain herror | ⟨puzzleHash,hok,hlength,-⟩ := h
      · rw [herror] at hdecode
        cases hdecode
      · rw [hok] at hdecode
        obtain rfl := Except.ok.inj hdecode
        exact hlength
    · intro h
      cases hdecode : decodePuzzleHash address with
      | error e => exact Or.inl (by rw [hdecode,decodePuzzleHash_raises hdecode])
      | ok payload =>
        obtain ⟨pre,hof⟩ := decodePuzzleHash_ok.mp hdecode
        refine Or.inr ⟨payload,hdecode,h pre payload hof,?_⟩
        rw [hof.prefixOf_eq]
        exact hof.encoded

theorem addressCodec_xch : (∃ address,encodePuzzleHash (bytes32 zeros32) "xch".toList = .ok address ∧
      (address.length≤90 → decodePuzzleHash address = .ok (bytes32 zeros32))) ∧ Faithful "xch".toList := by
  have hpre : ValidPrefix "xch".toList := ⟨by decide,forall_mem_of_all (by decide),by decide⟩
  refine ⟨(addressCodec []).1 zeros32 _ hpre,(addressCodec _).2.mpr ?_⟩
  intro pre payload hof
  have hdecode := decodePuzzleHash_ok.mpr ⟨pre,hof⟩
  have hraises : decodePuzzleHash "xch".toList = .error (.raised .value) := by decide
  rw [hraises] at hdecode
  cases hdecode

/-- A text that is an encoding of nothing is decoded. -/
theorem not_addressCodec : ¬ Faithful "a1lqfn3a".toList := by
  have hdecode : decodePuzzleHash "a1lqfn3a".toList = .ok [] := by decide
  intro h
  obtain herror | ⟨puzzleHash,hok,hlength,-⟩ := h
  · rw [hdecode] at herror
    cases herror
  · rw [hdecode] at hok
    obtain rfl := Except.ok.inj hok
    cases hlength

end Address
end Bech32m
end RoseChain
