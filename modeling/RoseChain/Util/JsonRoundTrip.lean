import RoseChain.Util.StreamableJson

namespace RoseChain
open Lib

variable {n : ℕ}

theorem hexValue_hexDigit (h : n<16) : hexValue (hexDigit n)=some n := by
  have hall : ∀ n : Fin 16,hexValue (hexDigit n)=some n.val := by decide
  exact hall ⟨n,h⟩

theorem isSpace_hexDigit (h : n<16) : isSpace (hexDigit n)=false := by
  have hall : ∀ n : Fin 16,isSpace (hexDigit n)=false := by decide
  exact hall ⟨n,h⟩

theorem fromhex_hex (b : Bytes) : fromhex (hex b) = .ok b := by
  induction b with
  | nil => rfl
  | cons x b ih =>
    have hx := x.toNat_lt
    have hhigh : x.toNat / 16<16 := by omega
    have hlow : x.toNat % 16<16 := by omega
    change fromhex (hexDigit (x.toNat / 16)::hexDigit (x.toNat % 16)::hex b) = .ok (x::b)
    rw [fromhex,isSpace_hexDigit hhigh,if_neg Bool.false_ne_true,hexValue_hexDigit hhigh,hexValue_hexDigit hlow]
    dsimp only
    rw [ih,Nat.div_add_mod,UInt8.ofNat_toNat]
    rfl

@[simp] theorem hexstrToBytes_hexText (b : Bytes) : hexstrToBytes (hexText b) = .ok b := by
  have hprefix : (hexText b).take 2=[ascii 48,ascii 120] := rfl
  unfold hexstrToBytes
  rw [if_pos (Or.inl hprefix)]
  exact fromhex_hex b

theorem hexstrToBytes_name (op : ConditionOpcode) : hexstrToBytes (op.name.toList.map Streamable.codePointOfChar) = .error .value := by
  cases op <;> decide +kernel

theorem ofBytes_value (op : ConditionOpcode) : ConditionOpcode.ofBytes [op.value]=some op := by
  cases op <;> decide

namespace StreamableJson
variable (X : JsonExternal)

def Falsy : (t : JsonType) → t.Value X → Prop
  | .int _,n => n.val=0
  | .bool,b => b=false
  | .str,text => text=([] : List CodePoint)
  | .bytes,_ => False
  | .sizedBytes _,_ => False
  | .conditionOpcode,_ => False
  | .unhashable _,_ => False
  | .optional t,o => ∀ x,o=some x → Falsy t x
  | .list _,l => List.length l=0
  | .tuple ts,_ => ts=[]
  | .streamable ts,_ => ts=[]

def Every {α : Type} (good : α → Prop) (l : List α) : Prop := ∀ x∈l,good x

mutual

/-- No value in an `Optional` is false, and no opcode stands in a dictionary by itself. -/
def ReadsBack (holder : Holder) : (t : JsonType) → t.Value X → Prop
  | .int _,_ => True
  | .bool,_ => True
  | .str,_ => True
  | .bytes,_ => True
  | .sizedBytes _,_ => True
  | .conditionOpcode,_ => holder = .list
  | .unhashable _,_ => True
  | .optional t,o => ∀ x,o=some x → ¬ Falsy X t x ∧ ReadsBack holder t x
  | .list t,l => Every (ReadsBack .list t) l
  | .tuple ts,xs => ReadsBackItems .list ts xs
  | .streamable ts,xs => ReadsBackItems .dict ts xs

def ReadsBackItems (holder : Holder) : (ts : List JsonType) → JsonType.Values X ts → Prop
  | [],_ => True
  | t::ts,(x,xs) => ReadsBack holder t x ∧ ReadsBackItems holder ts xs

end

variable {X} {α : Type}

theorem falsy_int (n : ℤ) : (Json.int n).falsy ↔ n=0 := by simp [Json.falsy]

theorem falsy_bool (b : Bool) : (Json.bool b).falsy ↔ b=false := by simp [Json.falsy]

theorem falsy_str (text : List CodePoint) : (Json.str text).falsy ↔ text=[] := by simp [Json.falsy]

theorem falsy_hexText (b : Bytes) : (Json.str (hexText b)).falsy ↔ False := by simp [Json.falsy,hexText]

theorem falsy_jsonifyOpcode (holder : Holder) (op : ConditionOpcode) : (jsonifyOpcode holder op).falsy ↔ False := by
  cases holder <;> cases op <;> decide +kernel

variable {toInner : α → Json}

variable {falsy : α → Prop}

theorem falsy_jsonifyOptional (h : ∀ x,(toInner x).falsy ↔ falsy x)
    (o : Option α) : (jsonifyOptional toInner o).falsy ↔ ∀ x,o=some x → falsy x := by
  cases o with
  | none => simp [jsonifyOptional,Json.falsy]
  | some x => simpa [jsonifyOptional] using h x

theorem falsy_map (f : α → Json) (l : List α) : (Json.list (l.map f)).falsy ↔ l.length=0 := by simp [Json.falsy]

theorem recurseJsonifyItems_isEmpty (holder : Holder) : (ts : List JsonType) → (xs : JsonType.Values X ts) →
    ((recurseJsonifyItems X holder ts xs).isEmpty ↔ ts=[])
  | [],_ => by simp [recurseJsonifyItems]
  | _::_,(_,_) => by simp [recurseJsonifyItems]

theorem falsy_recurseJsonify (holder : Holder) : (t : JsonType) → (x : t.Value X) →
    ((recurseJsonify X holder t x).falsy ↔ Falsy X t x)
  | .int _,n => falsy_int n.val
  | .bool,b => falsy_bool b
  | .str,text => falsy_str text
  | .bytes,b => falsy_hexText b
  | .sizedBytes _,b => falsy_hexText b.val
  | .conditionOpcode,op => falsy_jsonifyOpcode holder op
  | .unhashable kind,x => falsy_hexText (X.toBytes kind x)
  | .optional t,o => falsy_jsonifyOptional (falsy_recurseJsonify holder t) o
  | .list t,l => falsy_map (recurseJsonify X .list t) l
  | .tuple ts,xs => recurseJsonifyItems_isEmpty .list ts xs
  | .streamable ts,xs => recurseJsonifyItems_isEmpty .dict ts xs

variable {fromInner : Json → Except JsonErr α} {good : α → Prop}

theorem optionalFromDict_iff (hfalsy : ∀ x,(toInner x).falsy ↔ falsy x) (hgood : ∀ x,fromInner (toInner x) = .ok x ↔ good x) (o : Option α) :
    optionalFromDict fromInner (jsonifyOptional toInner o) = .ok o ↔ ∀ x,o=some x → ¬ falsy x ∧ good x := by
  cases o with
  | none => simp [optionalFromDict,jsonifyOptional,Json.falsy]
  | some x =>
    unfold optionalFromDict jsonifyOptional
    dsimp only
    by_cases hx : falsy x
    · rw [if_pos ((hfalsy x).mpr hx)]
      simp [hx]
    · rw [if_neg (fun h => hx ((hfalsy x).mp h))]
      cases hrun : fromInner (toInner x) with
      | error e =>
        have hbad : ¬ good x := fun h => by simp [(hgood x).mpr h] at hrun
        simp [hbad,bind,Except.bind]
      | ok y =>
        have hiff := hgood x
        rw [hrun,Except.ok.injEq] at hiff
        simp [hx,bind,Except.bind,pure,Except.pure,hiff]

theorem listFromDict_iff (hgood : ∀ x,fromInner (toInner x) = .ok x ↔ good x) (l : List α) :
    listFromDict fromInner (.list (l.map toInner)) = .ok l ↔ Every good l := by
  change (l.map toInner).mapM fromInner = .ok l ↔ ∀ x∈l,good x
  induction l with
  | nil => simp [pure,Except.pure]
  | cons x l ih =>
    rw [List.map_cons,List.mapM_cons,List.forall_mem_cons,← ih,← hgood]
    cases fromInner (toInner x) with
    | error e => simp [bind,Except.bind]
    | ok y =>
      cases (l.map toInner).mapM fromInner with
      | error e => simp [bind,Except.bind]
      | ok ys => simp [bind,Except.bind,pure,Except.pure]

/-- The objects of other packages are read back from their bytes. -/
def Lawful (X : JsonExternal) : Prop := ∀ k x,X.fromBytes k (X.toBytes k x) = .ok x

theorem newInt_val (F : IntFormat) (n : F.Value) : newInt F n.val = .ok n := dif_pos n.property

theorem newSizedBytes_val {size : ℕ} (b : {b : Bytes // b.length=size}) : newSizedBytes size b.val = .ok b :=
  dif_pos b.property

theorem newOpcode_value (op : ConditionOpcode) : newOpcode [op.value] = .ok op := by
  unfold newOpcode
  rw [ofBytes_value]

theorem hexBytes_bind (b : Bytes) (f : Bytes → Except JsonErr α) : ((Json.str (hexText b)).hexBytes >>= f)=f b := by
  have hread : (Json.str (hexText b)).hexBytes = .ok b := hexstrToBytes_hexText b
  rw [hread]
  rfl

theorem opcode_iff (holder : Holder) (op : ConditionOpcode) :
    ((jsonifyOpcode holder op).hexBytes >>= newOpcode) = .ok op ↔ holder = .list := by
  cases holder with
  | list =>
    unfold jsonifyOpcode
    rw [hexBytes_bind,newOpcode_value]
    simp
  | dict =>
    have hread : (jsonifyOpcode .dict op).hexBytes = .error .value := hexstrToBytes_name op
    rw [hread]
    simp [bind,Except.bind]

theorem pair_iff {β : Type} {f : Except JsonErr α} {g : Except JsonErr β} {x : α} {y : β} :
    (do
      let a ← f
      let b ← g
      return (a,b))=Except.ok (x,y) ↔ f = .ok x ∧ g = .ok y := by
  cases f with
  | error e => simp [bind,Except.bind]
  | ok a =>
    cases g with
    | error e => simp [bind,Except.bind]
    | ok b => simp [bind,Except.bind,pure,Except.pure]

mutual

theorem dataclassFromDict_recurseJsonify (hX : Lawful X) (holder : Holder) : (t : JsonType) → (x : t.Value X) →
    (dataclassFromDict X t (recurseJsonify X holder t x) = .ok x ↔ ReadsBack X holder t x)
  | .int F,n => iff_of_true (newInt_val F n) trivial
  | .bool,b => iff_of_true (congrArg Except.ok (Bool.not_not b)) trivial
  | .str,_ => iff_of_true rfl trivial
  | .bytes,b => iff_of_true (hexstrToBytes_hexText b) trivial
  | .sizedBytes size,b => iff_of_true ((hexBytes_bind b.val (newSizedBytes size)).trans (newSizedBytes_val b)) trivial
  | .conditionOpcode,op => opcode_iff holder op
  | .unhashable kind,x =>
    iff_of_true ((hexBytes_bind (X.toBytes kind x) (X.fromBytes kind)).trans (hX kind x)) trivial
  | .optional t,o =>
    optionalFromDict_iff (falsy_recurseJsonify holder t) (dataclassFromDict_recurseJsonify hX holder t) o
  | .list t,l => listFromDict_iff (dataclassFromDict_recurseJsonify hX .list t) l
  | .tuple ts,xs => dataclassFromItems_recurseJsonifyItems hX .list ts xs
  | .streamable ts,xs => dataclassFromItems_recurseJsonifyItems hX .dict ts xs

theorem dataclassFromItems_recurseJsonifyItems (hX : Lawful X) (holder : Holder) :
    (ts : List JsonType) → (xs : JsonType.Values X ts) →
      (dataclassFromItems X ts (recurseJsonifyItems X holder ts xs) = .ok xs ↔ ReadsBackItems X holder ts xs)
  | [],_ => iff_of_true rfl trivial
  | t::ts,(x,xs) => pair_iff.trans (and_congr (dataclassFromDict_recurseJsonify hX holder t x)
      (dataclassFromItems_recurseJsonifyItems hX holder ts xs))

end

/-- A value of a streamable class is read back from its JSON exactly if no value in an `Optional` is false and no
opcode is a field by itself. -/
theorem fromJsonDict_toJsonDict (hX : Lawful X) (fields : List JsonType) (x : JsonType.Values X fields) :
    fromJsonDict X fields (toJsonDict X fields x) = .ok x ↔ ReadsBackItems X .dict fields x :=
  dataclassFromItems_recurseJsonifyItems hX .dict fields x

def plainExternal : JsonExternal where
  Object _ := Bytes
  fromBytes _ b := .ok b
  toBytes _ b := b
  intOfText _ := .error .value
  textOf _ := []

def feesFields : List JsonType := [.optional (.int .uint64)]

def someFees (n : IntFormat.uint64.Value) : JsonType.Values plainExternal feesFields := (some n,())

theorem fromJsonDict_toJsonDict_fees :
    let fees : IntFormat.uint64.Value := ⟨5,by decide⟩
    fromJsonDict plainExternal feesFields (toJsonDict plainExternal feesFields (someFees fees)) = .ok (someFees fees) := by
  apply (fromJsonDict_toJsonDict (fun _ _ => rfl) feesFields (someFees _)).mpr
  refine ⟨?_,trivial⟩
  intro n hn
  refine ⟨?_,trivial⟩
  rw [← Option.some.inj hn]
  show ¬ (5 : ℤ)=0
  decide

/-- Fees of zero are read back as no fees. -/
theorem fromJsonDict_drops_zero :
    let zero : IntFormat.uint64.Value := ⟨0,by decide⟩
    fromJsonDict plainExternal feesFields (toJsonDict plainExternal feesFields (someFees zero)) = .ok (none,()) ∧
      fromJsonDict plainExternal feesFields (toJsonDict plainExternal feesFields (someFees zero)) ≠ .ok (someFees zero) := by
  intro zero
  have hread : fromJsonDict plainExternal feesFields (toJsonDict plainExternal feesFields (someFees zero)) =
    .ok (none,()) := rfl
  refine ⟨hread,?_⟩
  intro h
  have hsame : (none,())=someFees zero := Except.ok.inj (hread.symm.trans h)
  cases congrArg Prod.fst hsame

end StreamableJson
end RoseChain
