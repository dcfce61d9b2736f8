import RoseChain.Lib.Dict

namespace RoseChain.Lib

namespace Dict
variable {K V : Type} [DecidableEq K]

def eraseAll (d : Dict K V) (ks : List K) : Dict K V := ks.foldl erase d

def setAll (d : Dict K V) (ks : List K) (v : V) : Dict K V := ks.foldl (fun d k => d.set k v) d

theorem get?_eraseAll (d : Dict K V) (ks : List K) (q : K) :
    (d.eraseAll ks).get? q=if q∈ks then none else d.get? q := by
  induction ks generalizing d with
  | nil => simp [eraseAll]
  | cons k ks ih =>
    have hstep : d.eraseAll (k::ks)=(d.erase k).eraseAll ks := rfl
    rw [hstep,ih,get?_erase]
    by_cases hq : q∈ks
    · simp [hq]
    · by_cases hk : k=q
      · simp [hk]
      · simp [hq,hk,Ne.symm hk]

theorem get?_setAll (d : Dict K V) (ks : List K) (v : V) (q : K) :
    (d.setAll ks v).get? q=if q∈ks then some v else d.get? q := by
  induction ks generalizing d with
  | nil => simp [setAll]
  | cons k ks ih =>
    have hstep : d.setAll (k::ks) v=(d.set k v).setAll ks v := rfl
    rw [hstep,ih,get?_set]
    by_cases hq : q∈ks
    · simp [hq]
    · by_cases hk : k=q
      · simp [hk]
      · simp [hq,hk,Ne.symm hk]

omit [DecidableEq K] in
def total (d : Dict K V) (f : V → ℕ) : ℕ := (d.values.map f).sum

variable {k : K}

theorem total_set (d : Dict K V) (f : V → ℕ) (v : V) (h : d.get? k=none) :
    (d.set k v).total f=d.total f+f v := by
  unfold total values
  rw [entries_set_of_not_mem d v h]
  simp

theorem total_erase (d : Dict K V) (f : V → ℕ) {v : V} (h : d.get? k=some v) :
    d.total f=(d.erase k).total f+f v := by
  have hmem : (k,v)∈d.entries := (d.mem_entries k v).mpr h
  obtain ⟨l,r,hsplit⟩ := List.append_of_mem hmem
  have hkeys := d.nodup
  rw [hsplit,List.map_append,List.map_cons,List.nodup_middle,List.nodup_cons,List.mem_append] at hkeys
  have hkeep {m : List (K × V)} (hm : k∉m.map Prod.fst) : m.filter (fun e => decide (e.1≠k))=m := by
    rw [List.filter_eq_self]
    intro e he
    have hne : e.1≠k := fun heq => hm (heq ▸ List.mem_map_of_mem he)
    simpa using hne
  have herase : (d.erase k).entries=l++r := by
    have hdef : (d.erase k).entries=d.entries.filter (fun e => decide (e.1≠k)) := rfl
    rw [hdef,hsplit,List.filter_append,List.filter_cons_of_neg (by simp),
      hkeep fun hl => hkeys.1 (Or.inl hl),hkeep fun hr => hkeys.1 (Or.inr hr)]
  unfold total values
  rw [herase,hsplit]
  simp only [List.map_append,List.map_cons,List.sum_append,List.sum_cons]
  omega

theorem size_erase (d : Dict K V) {v : V} (h : d.get? k=some v) : d.size=(d.erase k).size+1 := by
  have htotal := d.total_erase (fun _ => 1) h
  have hsize (d : Dict K V) : d.total (fun _ => 1)=d.size := by
    simp [total,values,size,Function.comp_def]
  rw [hsize,hsize] at htotal
  exact htotal

end Dict

section Store
variable {N K R V : Type} [DecidableEq N] [DecidableEq K] [DecidableEq R]

def Named (name : V → N) (store : Dict N V) : Prop := ∀ n v,store.get? n=some v → name v=n

/-- The index leads from each key to the one stored value that has it. -/
def Indexes (name : V → N) (keys : V → List K) (store : Dict N V) (index : Dict K V) : Prop :=
  ∀ k v,index.get? k=some v ↔ store.get? (name v)=some v ∧ k∈keys v

variable {name : V → N} {keys : V → List K} {store : Dict N V} {index : Dict K V} {v : V}

omit [DecidableEq K] in
theorem named_empty : Named name (Dict.empty : Dict N V) := by
  intro n v h
  cases h

theorem indexes_empty : Indexes name keys Dict.empty (Dict.empty : Dict K V) := by
  intro k v
  simp

omit [DecidableEq K] in
theorem Named.set (h : Named name store) (v : V) : Named name (store.set (name v) v) := by
  intro n u hu
  rw [Dict.get?_set] at hu
  split_ifs at hu with hn
  · rw [← Option.some.inj hu]
    exact hn
  · exact h n u hu

omit [DecidableEq K] in
theorem Named.erase (h : Named name store) (n : N) : Named name (store.erase n) := by
  intro m u hu
  rw [Dict.get?_erase] at hu
  split_ifs at hu
  exact h m u hu

section
variable (h : Indexes name keys store index)
include h

theorem Indexes.set (hnew : store.get? (name v)=none) {ks : List K}
    (hks : ∀ k,k∈ks ↔ k∈keys v) (hfree : ∀ k∈ks,index.get? k=none) :
    Indexes name keys (store.set (name v) v) (index.setAll ks v) := by
  intro k u
  rw [Dict.get?_setAll,Dict.get?_set]
  by_cases hu : name v=name u
  · rw [if_pos hu]
    have hnone : index.get? k≠some u := by
      intro hk
      have hstored := ((h k u).mp hk).1
      rw [← hu,hnew] at hstored
      cases hstored
    split_ifs with hk
    · constructor
      · intro huv
        exact ⟨huv,Option.some.inj huv ▸ (hks k).mp hk⟩
      · intro huv
        exact huv.1
    · constructor
      · intro hku
        exact absurd hku hnone
      · intro huv
        exact absurd ((hks k).mpr (Option.some.inj huv.1 ▸ huv.2)) hk
  · rw [if_neg hu]
    split_ifs with hk
    · constructor
      · intro huv
        exact absurd (congrArg name (Option.some.inj huv)) hu
      · intro hstored
        have hk' := hfree k hk
        rw [(h k u).mpr hstored] at hk'
        cases hk'
    · exact h k u

theorem Indexes.erase (hv : store.get? (name v)=some v) :
    Indexes name keys (store.erase (name v)) (index.eraseAll (keys v)) := by
  intro k u
  rw [Dict.get?_eraseAll,Dict.get?_erase]
  by_cases hu : name v=name u
  · rw [if_pos hu]
    have huv {w : V} (hw : store.get? (name u)=some w) : w=v := by
      rw [← hu,hv] at hw
      exact (Option.some.inj hw).symm
    split_ifs with hk
    · simp
    · constructor
      · intro hku
        obtain ⟨hstored,hmem⟩ := (h k u).mp hku
        exact absurd (huv hstored ▸ hmem) hk
      · intro hfalse
        cases hfalse.1
  · rw [if_neg hu]
    split_ifs with hk
    · constructor
      · intro hfalse
        cases hfalse
      · intro hstored
        have hku := (h k u).mpr hstored
        rw [(h k v).mpr ⟨hv,hk⟩] at hku
        exact absurd (congrArg name (Option.some.inj hku)) hu
    · exact h k u

theorem Indexes.of_sub {store' : Dict N V} {index' : Dict K V}
    (h' : Indexes name keys store' index') (hsub : ∀ n v,store'.get? n=some v → store.get? n=some v)
    {k : K} (hk : index.get? k=none) : index'.get? k=none := by
  cases hv : index'.get? k with
  | none => rfl
  | some v =>
    obtain ⟨hstored,hmem⟩ := (h' k v).mp hv
    have hold := (h k v).mpr ⟨hsub _ v hstored,hmem⟩
    rw [hk] at hold
    cases hold

end

/-- The values by rank, in buckets of their own; no bucket is empty. -/
structure Buckets (rank : V → R) (store : Dict N V) (buckets : Dict R (Dict N V)) : Prop where
  mem : ∀ r n v,((buckets.get? r).bind (·.get? n))=some v ↔ store.get? n=some v ∧ rank v=r
  nonempty : ∀ r b,buckets.get? r=some b → b.size≠0

def addToBucket (buckets : Dict R (Dict N V)) (r : R) (n : N) (v : V) : Dict R (Dict N V) :=
  buckets.set r (((buckets.get? r).getD Dict.empty).set n v)

def dropFromBucket (buckets : Dict R (Dict N V)) (r : R) (b : Dict N V) (n : N) : Dict R (Dict N V) :=
  if (b.erase n).size=0 then buckets.erase r else buckets.set r (b.erase n)

variable {rank : V → R} {buckets : Dict R (Dict N V)}

theorem buckets_empty : Buckets rank (Dict.empty : Dict N V) (Dict.empty : Dict R (Dict N V)) := by
  refine ⟨?_,?_⟩
  · intro r n v
    simp
  · intro r b h
    cases h

variable {n : N}

theorem Dict.size_ne_zero {d : Dict N V} {v : V} (h : d.get? n=some v) : d.size≠0 := by
  rw [d.size_erase h]
  omega

section
variable (h : Buckets rank store buckets)
include h

theorem Buckets.set (hnew : store.get? n=none) :
    Buckets rank (store.set n v) (addToBucket buckets (rank v) n v) := by
  have hold (r : R) (m : N) : ((buckets.get? r).getD Dict.empty).get? m=(buckets.get? r).bind (·.get? m) := by
    cases buckets.get? r with
    | none => rfl
    | some b => rfl
  refine ⟨?_,?_⟩
  · intro r m u
    unfold addToBucket
    rw [Dict.get?_set,Dict.get?_set]
    by_cases hr : rank v=r
    · subst hr
      rw [if_pos rfl,Option.bind_some,Dict.get?_set]
      by_cases hm : n=m
      · rw [if_pos hm,if_pos hm]
        constructor
        · intro hu
          exact ⟨hu,congrArg rank (Option.some.inj hu).symm⟩
        · intro hu
          exact hu.1
      · rw [if_neg hm,if_neg hm,hold]
        exact h.mem _ m u
    · rw [if_neg hr]
      by_cases hm : n=m
      · subst hm
        rw [if_pos rfl]
        constructor
        · intro hu
          have hstored := ((h.mem r n u).mp hu).1
          rw [hnew] at hstored
          cases hstored
        · intro hu
          exact absurd ((congrArg rank (Option.some.inj hu.1)).trans hu.2) hr
      · rw [if_neg hm]
        exact h.mem r m u
  · intro r b hb
    unfold addToBucket at hb
    rw [Dict.get?_set] at hb
    split_ifs at hb with hr
    · rw [← Option.some.inj hb]
      exact Dict.size_ne_zero (Dict.get?_set_self _ n v)
    · exact h.nonempty r b hb

theorem Buckets.get (hv : store.get? n=some v) : ∃ b,buckets.get? (rank v)=some b ∧ b.get? n=some v :=
  Option.bind_eq_some_iff.mp ((h.mem _ n v).mpr ⟨hv,rfl⟩)

theorem Buckets.drop (hv : store.get? n=some v) {b : Dict N V}
    (hb : buckets.get? (rank v)=some b) : Buckets rank (store.erase n) (dropFromBucket buckets (rank v) b n) := by
  have hget (r : R) (m : N) : ((dropFromBucket buckets (rank v) b n).get? r).bind (·.get? m) =
      if rank v=r then (b.erase n).get? m else (buckets.get? r).bind (·.get? m) := by
    unfold dropFromBucket
    split_ifs with hsize hr hr
    · rw [Dict.get?_erase,if_pos hr,Option.bind_none]
      cases hm : (b.erase n).get? m with
      | none => rfl
      | some u => exact absurd hsize (Dict.size_ne_zero hm)
    · rw [Dict.get?_erase,if_neg hr]
    · rw [Dict.get?_set,if_pos hr,Option.bind_some]
    · rw [Dict.get?_set,if_neg hr]
  refine ⟨?_,?_⟩
  · intro r m u
    rw [hget,Dict.get?_erase,Dict.get?_erase]
    have hold := h.mem r m u
    by_cases hr : rank v=r
    · subst hr
      rw [hb,Option.bind_some] at hold
      rw [if_pos rfl]
      split_ifs with hm
      · simp
      · exact hold
    · rw [if_neg hr]
      split_ifs with hm
      · subst hm
        constructor
        · intro hu
          obtain ⟨hstored,hrank⟩ := hold.mp hu
          rw [hv] at hstored
          exact absurd ((congrArg rank (Option.some.inj hstored)).trans hrank) hr
        · intro hfalse
          cases hfalse.1
      · exact hold
  · intro r c hc
    unfold dropFromBucket at hc
    split_ifs at hc with hsize
    · rw [Dict.get?_erase] at hc
      split_ifs at hc
      exact h.nonempty r c hc
    · rw [Dict.get?_set] at hc
      split_ifs at hc
      · rw [← Option.some.inj hc]
        exact hsize
      · exact h.nonempty r c hc

end

end Store
end RoseChain.Lib
