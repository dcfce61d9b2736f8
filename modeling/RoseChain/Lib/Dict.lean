import Mathlib.Algebra.BigOperators.Group.List.Basic
import Mathlib.Data.List.Induction
import Mathlib.Data.List.Lookmap
import Mathlib.Data.List.Nodup
import Mathlib.Tactic.Common
import Mathlib.Tactic.Ring

namespace RoseChain.Lib

/-- First value stored under a key in an association list. -/
def assoc {K V : Type} [DecidableEq K] : List (K × V) → K → Option V
  | [],_ => none
  | (k,v)::t,q => if k=q then some v else assoc t q

/-- Overwrites in place, or appends: an existing key keeps its position. -/
def upsert {K V : Type} [DecidableEq K] : List (K × V) → K → V → List (K × V)
  | [],k,v => [(k,v)]
  | (k',v')::t,k,v => if k'=k then (k,v)::t else (k',v')::upsert t k v

example : assoc (upsert [(1,true),(2,true)] 1 false) 1=some false := by simp [assoc,upsert]

section Assoc
variable {K V : Type} [DecidableEq K]

theorem assoc_eq_none_iff (l : List (K × V)) (q : K) : assoc l q=none ↔ q∉l.map Prod.fst := by
  induction l with
  | nil => simp [assoc]
  | cons p t ih =>
    obtain ⟨k,v⟩ := p
    by_cases h : k=q
    · simp [assoc,h]
    · simp [assoc,h,ih,Ne.symm h]

variable {l : List (K × V)}

variable {q : K} {v : V}

theorem mem_of_assoc (h : assoc l q=some v) : (q,v)∈l := by
  induction l with
  | nil => simp [assoc] at h
  | cons p t ih =>
    obtain ⟨k,w⟩ := p
    by_cases hk : k=q
    · simp only [assoc,hk,if_true,Option.some.injEq] at h
      simp [hk,h]
    · simp only [assoc,hk,if_false] at h
      exact List.mem_cons_of_mem _ (ih h)

theorem assoc_of_mem (hn : (l.map Prod.fst).Nodup) (h : (q,v)∈l) : assoc l q=some v := by
  induction l with
  | nil => simp at h
  | cons p t ih =>
    obtain ⟨k,w⟩ := p
    simp only [List.map_cons,List.nodup_cons] at hn
    rcases List.mem_cons.mp h with he | ht
    · simp only [Prod.mk.injEq] at he
      simp [assoc,he.1,he.2]
    · have hne : k≠q := fun e => hn.1 (e ▸ List.mem_map_of_mem (f := Prod.fst) ht)
      simp [assoc,hne,ih hn.2 ht]

theorem assoc_upsert (l : List (K × V)) (k q : K) (v : V) :
    assoc (upsert l k v) q=if k=q then some v else assoc l q := by
  induction l with
  | nil => simp [upsert,assoc]
  | cons p t ih =>
    obtain ⟨k',w⟩ := p
    by_cases hk : k'=k
    · subst hk
      by_cases hq : k'=q <;> simp [upsert,assoc,hq]
    · by_cases hq : k'=q
      · subst hq
        simp [upsert,assoc,hk,Ne.symm hk]
      · simp [upsert,assoc,hk,hq,ih]

theorem keys_upsert (l : List (K × V)) (k : K) (v : V) :
    (upsert l k v).map Prod.fst=if k∈l.map Prod.fst then l.map Prod.fst else l.map Prod.fst++[k] := by
  induction l with
  | nil => simp [upsert]
  | cons p t ih =>
    obtain ⟨k',w⟩ := p
    by_cases hk : k'=k
    · simp [upsert,hk]
    · have hk' : k≠k' := Ne.symm hk
      simp only [upsert,hk,if_false,List.map_cons,List.mem_cons,hk',false_or,ih]
      split_ifs <;> simp

theorem assoc_filter (hn : (l.map Prod.fst).Nodup) (p : K → V → Bool) (q : K) :
    assoc (l.filter fun e => p e.1 e.2) q=(assoc l q).filter (p q) := by
  induction l with
  | nil => rfl
  | cons e t ih =>
    obtain ⟨k,v⟩ := e
    simp only [List.map_cons,List.nodup_cons] at hn
    have ht := ih hn.2
    by_cases hk : k=q
    · subst hk
      have hnone : assoc t k=none := (assoc_eq_none_iff t k).mpr hn.1
      rw [hnone] at ht
      cases hp : p k v
      · simpa [hp,assoc,Option.filter] using ht
      · simp [hp,assoc,Option.filter]
    · cases hp : p k v <;> simp [hp,assoc,hk,ht]

theorem assoc_map (l : List (K × V)) (f : K → V → V) (q : K) :
    assoc (l.map fun e => (e.1,f e.1 e.2)) q=(assoc l q).map (f q) := by
  induction l with
  | nil => rfl
  | cons e t ih =>
    obtain ⟨k,v⟩ := e
    by_cases hk : k=q
    · subst hk; simp [assoc]
    · simp [assoc,hk,ih]

end Assoc

/-- Insertion-ordered dictionary: distinct keys, an overwritten key keeps its place. -/
structure Dict (K V : Type) where
  entries : List (K × V)
  nodup : (entries.map Prod.fst).Nodup

namespace Dict
variable {K V : Type} [DecidableEq K]

def empty : Dict K V := ⟨[],List.nodup_nil⟩

def get? (d : Dict K V) (k : K) : Option V := assoc d.entries k

def contains (d : Dict K V) (k : K) : Bool := (d.get? k).isSome

def set (d : Dict K V) (k : K) (v : V) : Dict K V :=
  ⟨upsert d.entries k v,by
    rw [keys_upsert]
    split_ifs with h
    · exact d.nodup
    · exact List.nodup_append.mpr ⟨d.nodup,List.nodup_singleton k,by
        intro a ha b hb
        rw [List.mem_singleton.mp hb]
        exact fun e => h (e ▸ ha)⟩⟩

def filter (d : Dict K V) (p : K → V → Bool) : Dict K V :=
  ⟨d.entries.filter fun e => p e.1 e.2,d.nodup.sublist (List.filter_sublist.map Prod.fst)⟩

def erase (d : Dict K V) (k : K) : Dict K V := d.filter fun q _ => decide (q≠k)

def mapVals (d : Dict K V) (f : K → V → V) : Dict K V :=
  ⟨d.entries.map fun e => (e.1,f e.1 e.2),by
    have h : (d.entries.map fun e => (e.1,f e.1 e.2)).map Prod.fst=d.entries.map Prod.fst := by
      simp [Function.comp_def]
    rw [h]; exact d.nodup⟩

def mapTo {W : Type} (d : Dict K V) (f : V → W) : Dict K W :=
  ⟨d.entries.map fun e => (e.1,f e.2),by
    have h : (d.entries.map fun e => (e.1,f e.2)).map Prod.fst=d.entries.map Prod.fst := by
      simp [Function.comp_def]
    rw [h]; exact d.nodup⟩

def keys (d : Dict K V) : List K := d.entries.map Prod.fst

def values (d : Dict K V) : List V := d.entries.map Prod.snd

def size (d : Dict K V) : Nat := d.entries.length

def popFirst (d : Dict K V) : Dict K V :=
  ⟨d.entries.tail,d.nodup.sublist ((List.tail_sublist d.entries).map Prod.fst)⟩

def moveToEnd (d : Dict K V) (k : K) : Dict K V :=
  match d.get? k with
  | none => d
  | some v => (d.erase k).set k v

@[simp] theorem get?_empty (k : K) : (empty : Dict K V).get? k=none := rfl

theorem get?_set (d : Dict K V) (k q : K) (v : V) :
    (d.set k v).get? q=if k=q then some v else d.get? q := assoc_upsert d.entries k q v

@[simp] theorem get?_set_self (d : Dict K V) (k : K) (v : V) : (d.set k v).get? k=some v := by
  simp [get?_set]

variable {k : K}

variable {q : K}

section
variable (d : Dict K V)

theorem get?_set_of_ne (v : V) (h : k≠q) : (d.set k v).get? q=d.get? q := by
  simp [get?_set,h]

@[simp] theorem get?_filter (p : K → V → Bool) (q : K) :
    (d.filter p).get? q=(d.get? q).filter (p q) := assoc_filter d.nodup p q

theorem get?_erase (k q : K) : (d.erase k).get? q=if k=q then none else d.get? q := by
  rw [erase,get?_filter]
  by_cases h : k=q
  · subst h; cases d.get? k <;> simp
  · cases d.get? q <;> simp [h,Ne.symm h]

@[simp] theorem get?_mapVals (f : K → V → V) (q : K) :
    (d.mapVals f).get? q=(d.get? q).map (f q) := assoc_map d.entries f q

theorem mem_entries (k : K) (v : V) : (k,v)∈d.entries ↔ d.get? k=some v :=
  ⟨assoc_of_mem d.nodup,mem_of_assoc⟩

end

variable {f : V → K}

theorem map_values (d : Dict K V) (h : ∀ k v,d.get? k=some v → f v=k) : d.values.map f=d.keys := by
  unfold values keys
  rw [List.map_map]
  apply List.map_congr_left
  intro e he
  exact h e.1 e.2 ((d.mem_entries e.1 e.2).mp he)

theorem nodup_values (d : Dict K V) (h : ∀ k v,d.get? k=some v → f v=k) : d.values.Nodup := by
  apply List.Nodup.of_map f
  rw [d.map_values h]
  exact d.nodup

variable {v : V}

section
variable (d : Dict K V)

theorem mem_values (h : ∀ k v,d.get? k=some v → f v=k) : v∈d.values ↔ d.get? (f v)=some v := by
  constructor
  · intro hv
    obtain ⟨e,he,rfl⟩ := List.mem_map.mp hv
    have hget := (d.mem_entries e.1 e.2).mp he
    rw [h e.1 e.2 hget]
    exact hget
  · intro hget
    exact List.mem_map.mpr ⟨(f v,v),(d.mem_entries _ _).mpr hget,rfl⟩

theorem get?_eq_none_iff (k : K) : d.get? k=none ↔ k∉d.keys :=
  assoc_eq_none_iff d.entries k

theorem mem_keys (k : K) : k∈d.keys ↔ ∃ v,d.get? k=some v := by
  rw [← Option.isSome_iff_exists,← not_iff_not,← get?_eq_none_iff]
  simp

omit [DecidableEq K] in
theorem keys_mapTo {W : Type} (f : V → W) : (d.mapTo f).keys=d.keys := by
  simp [keys,mapTo,Function.comp_def]

theorem get?_popFirst (h : d.popFirst.get? q=some v) : d.get? q=some v :=
  (d.mem_entries q v).mp (List.mem_of_mem_tail ((d.popFirst.mem_entries q v).mpr h))

@[simp] theorem get?_moveToEnd (k q : K) : (d.moveToEnd k).get? q=d.get? q := by
  unfold moveToEnd
  split
  · rfl
  · rename_i v hv
    rw [get?_set,get?_erase]
    split_ifs with h
    · rw [← h,hv]
    · rfl

omit [DecidableEq K] in
theorem size_eq_keys : d.size=d.keys.length := by simp [size,keys]

theorem keys_set (k : K) (v : V) :
    (d.set k v).keys=if k∈d.keys then d.keys else d.keys++[k] := keys_upsert d.entries k v

theorem size_set_of_mem (v : V) (h : k∈d.keys) : (d.set k v).size=d.size := by
  rw [size_eq_keys,size_eq_keys,keys_set,if_pos h]

theorem size_set_le (k : K) (v : V) : (d.set k v).size≤d.size+1 := by
  rw [size_eq_keys,size_eq_keys,keys_set]
  split_ifs <;> simp

theorem entries_set_of_not_mem (v : V) (h : d.get? k=none) : (d.set k v).entries=d.entries++[(k,v)] := by
  obtain ⟨l,hl⟩ := d
  change upsert l k v=l++[(k,v)]
  change assoc l k=none at h
  clear hl
  induction l with
  | nil => rfl
  | cons e l ih =>
    obtain ⟨q,u⟩ := e
    unfold assoc at h
    split_ifs at h with hq
    simp [upsert,hq,ih h]

end

theorem entries_foldl_set (l : List (K × V)) (d : Dict K V) (hl : (l.map Prod.fst).Nodup)
    (hd : ∀ e∈l,d.get? e.1=none) : (l.foldl (fun d e => d.set e.1 e.2) d).entries=d.entries++l := by
  induction l generalizing d with
  | nil => simp
  | cons e l ih =>
    rw [List.map_cons,List.nodup_cons] at hl
    rw [List.foldl_cons,ih _ hl.2,d.entries_set_of_not_mem e.2 (hd e List.mem_cons_self)]
    · simp
    · intro e' he'
      have hne : e.1≠e'.1 := fun heq => hl.1 (heq ▸ List.mem_map_of_mem he')
      rw [d.get?_set_of_ne _ hne]
      exact hd e' (List.mem_cons_of_mem _ he')

section
variable (d : Dict K V)

theorem size_set_of_not_mem (v : V) (h : d.get? k=none) : (d.set k v).size=d.size+1 := by
  rw [size_eq_keys,size_eq_keys,keys_set,if_neg ((d.get?_eq_none_iff k).mp h)]
  simp

theorem keys_erase (k : K) : (d.erase k).keys=d.keys.erase k := by
  have h : d.keys.erase k=d.keys.filter (· != k) := List.Nodup.erase_eq_filter d.nodup k
  rw [h,keys,keys,erase,filter,List.filter_map]
  congr 1
  apply List.filter_congr
  intro e _
  by_cases he : e.1=k <;> simp [he]

omit [DecidableEq K] in
theorem size_popFirst : d.popFirst.size=d.size-1 := by simp [size,popFirst]

theorem size_moveToEnd (k : K) : (d.moveToEnd k).size=d.size := by
  unfold moveToEnd
  split
  · rfl
  · rename_i v hv
    have hk : k∈d.keys := (d.mem_keys k).mpr ⟨v,hv⟩
    have hn : k∉d.keys.erase k := fun h => (List.Nodup.mem_erase_iff d.nodup).mp h |>.1 rfl
    rw [size_eq_keys,size_eq_keys,keys_set,keys_erase,if_neg hn,List.length_append,
      List.length_erase_of_mem hk]
    have := List.length_pos_of_mem hk
    simp only [List.length_singleton]
    omega

omit [DecidableEq K] in
theorem size_filter_le (p : K → V → Bool) : (d.filter p).size≤d.size :=
  List.length_filter_le _ _

end

end Dict
end RoseChain.Lib
