import RoseChain.Lib.Dict
import RoseChain.Types.Basic

namespace RoseChain
open Lib

/-- Least recently used entry first; never over capacity. -/
structure LRUCache (K V : Type) where
  cache : Dict K V
  capacity : ℕ
  fits : cache.size ≤ capacity

namespace LRUCache
variable {K V : Type} [DecidableEq K]

def new (capacity : ℕ) : LRUCache K V := ⟨Dict.empty,capacity,Nat.zero_le _⟩

def get (c : LRUCache K V) (key : K) : Option V × LRUCache K V :=
  match c.cache.get? key with
  | none => (none,c)
  | some v => (some v,⟨c.cache.moveToEnd key,c.capacity,by
      rw [Dict.size_moveToEnd]; exact c.fits⟩)

def put (c : LRUCache K V) (key : K) (value : V) : LRUCache K V :=
  let cache := (c.cache.set key value).moveToEnd key
  if h : cache.size > c.capacity then
    ⟨cache.popFirst,c.capacity,by
      have := Dict.size_set_le c.cache key value
      have := c.fits
      rw [Dict.size_popFirst,Dict.size_moveToEnd]
      omega⟩
  else ⟨cache,c.capacity,Nat.le_of_not_lt h⟩

def erase (c : LRUCache K V) (key : K) : LRUCache K V :=
  ⟨c.cache.erase key,c.capacity,Nat.le_trans (Dict.size_filter_le _ _) c.fits⟩

/-- A missing key raises. -/
def remove (c : LRUCache K V) (key : K) : Check (LRUCache K V) := do
  let _ ← lookup (c.cache.get? key)
  return c.erase key

/-- Every cached value is the one that `f` has for its key. -/
def Within (c : LRUCache K V) (f : K → Option V) : Prop :=
  ∀ k v,c.cache.get? k=some v → f k=some v

variable {c : LRUCache K V} {f : K → Option V}

@[simp] theorem get_fst (c : LRUCache K V) (key : K) : (c.get key).1=c.cache.get? key := by
  unfold get; split <;> simp [*]

@[simp] theorem get_snd_cache (c : LRUCache K V) (key q : K) : (c.get key).2.cache.get? q=c.cache.get? q := by
  unfold get; split <;> simp

@[simp] theorem put_new_zero (key : K) (value : V) : (new 0 : LRUCache K V).put key value=new 0 := by
  have h : (Dict.empty.set key value).get? key=some value := by simp
  have he : ((Dict.empty : Dict K V).set key value).erase key=Dict.empty := by
    simp [Dict.erase,Dict.filter,Dict.set,Dict.empty,upsert]
  simp [put,new,Dict.moveToEnd,h,he]
  simp [Dict.size,Dict.set,Dict.empty,upsert,Dict.popFirst]

variable {key : K}

variable {value v : V}

section
variable (c : LRUCache K V)

theorem get?_put {q : K} (h : (c.put key value).cache.get? q=some v) :
    (key=q ∧ value=v) ∨ (key≠q ∧ c.cache.get? q=some v) := by
  have h' : (c.cache.set key value).get? q=some v := by
    unfold put at h
    dsimp only at h
    split_ifs at h
    · simpa using Dict.get?_popFirst _ h
    · simpa using h
  rw [Dict.get?_set] at h'
  split_ifs at h' with hk
  · exact Or.inl ⟨hk,by simpa using h'⟩
  · exact Or.inr ⟨hk,h'⟩

theorem get?_put_of_mem (value : V) (h : key∈c.cache.keys) (q : K) :
    (c.put key value).cache.get? q=if key=q then some value else c.cache.get? q := by
  have hs : ¬ ((c.cache.set key value).moveToEnd key).size > c.capacity := by
    rw [Dict.size_moveToEnd,Dict.size_set_of_mem _ _ h]
    exact Nat.not_lt.mpr c.fits
  simp only [put,dif_neg hs,Dict.get?_moveToEnd,Dict.get?_set]

theorem get?_put_of_room (value : V) (h : c.cache.get? key=none) (hroom : c.cache.size<c.capacity) (q : K) :
    (c.put key value).cache.get? q=if key=q then some value else c.cache.get? q := by
  have hs : ¬ ((c.cache.set key value).moveToEnd key).size > c.capacity := by
    rw [Dict.size_moveToEnd,Dict.size_set_of_not_mem _ _ h]
    omega
  simp only [put,dif_neg hs,Dict.get?_moveToEnd,Dict.get?_set]

@[simp] theorem get?_erase (key q : K) :
    (c.erase key).cache.get? q=if key=q then none else c.cache.get? q := Dict.get?_erase _ _ _

theorem remove_of_mem (h : c.cache.get? key=some v) : c.remove key = .ok (c.erase key) := by
  simp [remove,h,lookup,pure,Except.pure,bind,Except.bind]

end

theorem foldlM_remove {names : List K} (hn : names.Nodup) {c : LRUCache K V}
    (h : ∀ k∈names,k∈c.cache.keys) : ∃ c',names.foldlM remove c = .ok c' ∧
      ∀ q,c'.cache.get? q=if q∈names then none else c.cache.get? q := by
  induction names generalizing c with
  | nil => exact ⟨c,rfl,by simp⟩
  | cons k names ih =>
    rw [List.nodup_cons] at hn
    obtain ⟨v,hv⟩ := (c.cache.mem_keys k).mp (h k (by simp))
    have hmem : ∀ q∈names,q∈(c.erase k).cache.keys := by
      intro q hq
      have hne : k≠q := fun e => hn.1 (e ▸ hq)
      obtain ⟨w,hw⟩ := (c.cache.mem_keys q).mp (h q (by simp [hq]))
      exact (Dict.mem_keys _ q).mpr ⟨w,by rw [get?_erase,if_neg hne,hw]⟩
    obtain ⟨c',hc',hget⟩ := ih hn.2 hmem
    refine ⟨c',?_,fun q => ?_⟩
    · rw [List.foldlM_cons,remove_of_mem c hv]
      exact hc'
    · rw [hget,get?_erase]
      by_cases hq : q=k
      · simp [hq]
      · simp [hq,Ne.symm hq]

theorem Within.get (h : c.Within f) (key : K) : (c.get key).2.Within f := by
  intro k v hv
  rw [get_snd_cache] at hv
  exact h k v hv

theorem Within.put (h : c.Within f) (hf : f key=some value) : (c.put key value).Within f := by
  intro k v hv
  obtain ⟨rfl,rfl⟩ | ⟨-,hv'⟩ := get?_put c hv
  · exact hf
  · exact h k v hv'

theorem Within.erase (h : c.Within f) {g : K → Option V} (hg : ∀ k,k≠key → g k=f k) :
    (c.erase key).Within g := by
  intro k v hv
  rw [get?_erase] at hv
  split_ifs at hv with hk
  rw [hg k (Ne.symm hk)]
  exact h k v hv

end LRUCache
end RoseChain
