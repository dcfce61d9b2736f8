import RoseChain.Lib.Dict

namespace RoseChain.Lib

/-- What a ledger keeps for one name: born at a height, and dead since a height once spent. -/
@[ext] structure Entry (P : Type) where
  payload : P
  born : Nat
  dead : Option Nat

/-- One step of a ledger: the names it creates and the names it spends. -/
structure Delta (N P : Type) where
  height : Nat
  created : List (N × P)
  spent : List N

abbrev Book (N P : Type) := N → Option (Entry P)

namespace Book
variable {N P : Type} [DecidableEq N]

def empty : Book N P := fun _ => none

def Alive (b : Book N P) (n : N) : Prop := ∃ e,b n=some e ∧ e.dead=none

def create (h : Nat) (b : Book N P) (c : N × P) : Option (Book N P) :=
  match b c.1 with
  | some _ => none
  | none => some (Function.update b c.1 (some ⟨c.2,h,none⟩))

def spend (h : Nat) (b : Book N P) (n : N) : Option (Book N P) :=
  match b n with
  | some ⟨p,born,none⟩ => some (Function.update b n (some ⟨p,born,some h⟩))
  | _ => none

/-- First everything is created, then everything is spent. -/
def apply (b : Book N P) (δ : Delta N P) : Option (Book N P) :=
  (δ.created.foldlM (create δ.height) b).bind fun b' => δ.spent.foldlM (spend δ.height) b'

def replay (l : List (Delta N P)) : Option (Book N P) := l.foldlM apply empty

/-- Forgets every birth and every death at height `k` or above. -/
def keep (k : Nat) (b : Book N P) : Book N P := fun n =>
  match b n with
  | none => none
  | some e => if e.born<k then some { e with dead := e.dead.filter (· < k) } else none

/-- Every birth and every death is below height `k`. -/
def Below (k : Nat) (b : Book N P) : Prop :=
  ∀ n e,b n=some e → e.born<k ∧ ∀ d,e.dead=some d → d<k

/-- A delta can be posted: fresh distinct names, and each spent name is new or alive. -/
structure Postable (b : Book N P) (δ : Delta N P) : Prop where
  distinct : (δ.created.map Prod.fst).Nodup
  fresh : ∀ n∈δ.created.map Prod.fst,b n=none
  once : δ.spent.Nodup
  live : ∀ n∈δ.spent,n∈δ.created.map Prod.fst ∨ b.Alive n

def born (h : Nat) (b : Book N P) (cs : List (N × P)) : Book N P := fun n =>
  match assoc cs n with
  | some p => some ⟨p,h,none⟩
  | none => b n

def died (h : Nat) (b : Book N P) (ns : List N) : Book N P := fun n =>
  if n∈ns then (b n).map fun e => { e with dead := some h } else b n

theorem foldlM_cons_some {σ α : Type} {f : σ → α → Option σ} {x : α} {l : List α} {s t : σ} :
    (x::l).foldlM f s=some t ↔ ∃ s₁,f s x=some s₁ ∧ l.foldlM f s₁=some t := by
  rw [List.foldlM_cons,Option.bind_eq_bind,Option.bind_eq_some_iff]

theorem create_eq_some_iff (h : Nat) (b b' : Book N P) (c : N × P) :
    create h b c=some b' ↔ b c.1=none ∧ b'=Function.update b c.1 (some ⟨c.2,h,none⟩) := by
  unfold create
  cases hb : b c.1 <;> simp [eq_comm]

theorem spend_eq_some_iff (h : Nat) (b b' : Book N P) (n : N) :
    spend h b n=some b' ↔ ∃ e,b n=some e ∧ e.dead=none ∧
      b'=Function.update b n (some { e with dead := some h }) := by
  unfold spend
  rcases hb : b n with - | ⟨p,k,d⟩
  · simp
  · cases d <;> simp [eq_comm]

variable {p : P}

variable {m : N}

theorem born_cons (h : Nat) (b : Book N P) {cs : List (N × P)} (hmem : m∉cs.map Prod.fst) :
    born h (Function.update b m (some ⟨p,h,none⟩)) cs=born h b ((m,p)::cs) := by
  funext n
  by_cases hne : m=n
  · subst hne
    simp [born,assoc,(assoc_eq_none_iff cs m).mpr hmem]
  · simp [born,assoc,hne,Ne.symm hne]

theorem creates_eq_some_iff (h : Nat) (cs : List (N × P)) (b b' : Book N P) : cs.foldlM (create h) b=some b' ↔
      (cs.map Prod.fst).Nodup ∧ (∀ n∈cs.map Prod.fst,b n=none) ∧ b'=born h b cs := by
  induction cs generalizing b with
  | nil => simp [born,assoc,eq_comm (a := b),funext_iff]
  | cons c cs ih =>
    obtain ⟨m,p⟩ := c
    simp only [List.foldlM_cons,Option.bind_eq_bind,Option.bind_eq_some_iff,create_eq_some_iff,
      List.map_cons,List.nodup_cons,List.forall_mem_cons]
    constructor
    · intro hrun
      obtain ⟨b₁,⟨hm,rfl⟩,hr⟩ := hrun
      obtain ⟨hn,hf,rfl⟩ := (ih _).mp hr
      have hmem : m∉cs.map Prod.fst := fun hc => by simpa using hf m hc
      refine ⟨⟨hmem,hn⟩,⟨hm,fun n hc => ?_⟩,born_cons h b hmem⟩
      have hne : n≠m := fun e => hmem (e ▸ hc)
      simpa [hne] using hf n hc
    · intro hborn
      obtain ⟨⟨hmem,hn⟩,⟨hm,hf⟩,rfl⟩ := hborn
      refine ⟨_,⟨hm,rfl⟩,(ih _).mpr ⟨hn,fun n hc => ?_,(born_cons h b hmem).symm⟩⟩
      have hne : n≠m := fun e => hmem (e ▸ hc)
      simpa [hne] using hf n hc

variable {e : Entry P}

theorem died_cons (h : Nat) (b : Book N P) {ns : List N} (hm : b m=some e) (hmem : m∉ns) :
    died h (Function.update b m (some { e with dead := some h })) ns=died h b (m::ns) := by
  funext n
  by_cases hne : n=m
  · subst hne
    simp [died,hmem,hm]
  · simp [died,hne]

theorem spends_eq_some_iff (h : Nat) (ns : List N) (b b' : Book N P) :
    ns.foldlM (spend h) b=some b' ↔ ns.Nodup ∧ (∀ n∈ns,b.Alive n) ∧ b'=died h b ns := by
  induction ns generalizing b with
  | nil => simp [died,eq_comm (a := b),funext_iff]
  | cons m ns ih =>
    simp only [List.foldlM_cons,Option.bind_eq_bind,Option.bind_eq_some_iff,spend_eq_some_iff,
      List.nodup_cons,List.forall_mem_cons]
    constructor
    · intro hrun
      obtain ⟨b₁,⟨e,hm,hd,rfl⟩,hr⟩ := hrun
      obtain ⟨hn,ha,rfl⟩ := (ih _).mp hr
      have hmem : m∉ns := fun hc => by simpa [Alive] using ha m hc
      refine ⟨⟨hmem,hn⟩,⟨⟨e,hm,hd⟩,fun n hc => ?_⟩,died_cons h b hm hmem⟩
      have hne : n≠m := fun e => hmem (e ▸ hc)
      simpa [Alive,hne] using ha n hc
    · intro hdied
      obtain ⟨⟨hmem,hn⟩,⟨⟨e,hm,hd⟩,ha⟩,rfl⟩ := hdied
      refine ⟨_,⟨e,hm,hd,rfl⟩,(ih _).mpr ⟨hn,fun n hc => ?_,(died_cons h b hm hmem).symm⟩⟩
      have hne : n≠m := fun e => hmem (e ▸ hc)
      simpa [Alive,hne] using ha n hc

theorem alive_born (h : Nat) (b : Book N P) (cs : List (N × P)) (n : N) :
    (born h b cs).Alive n ↔ n∈cs.map Prod.fst ∨ b.Alive n := by
  unfold Alive born
  cases ha : assoc cs n with
  | none =>
    have hn := (assoc_eq_none_iff cs n).mp ha
    simp only [hn,false_or]
  | some p =>
    have hn : n∈cs.map Prod.fst := List.mem_map.mpr ⟨(n,p),mem_of_assoc ha,rfl⟩
    simp [hn]

theorem alive_died (h : Nat) (b : Book N P) (ns : List N) (n : N) :
    (died h b ns).Alive n ↔ b.Alive n ∧ n∉ns := by
  unfold Alive died
  by_cases hn : n∈ns
  · cases hb : b n <;> simp [hn]
  · simp [hn]

theorem apply_eq_some_iff (b b' : Book N P) (δ : Delta N P) : apply b δ=some b' ↔ Postable b δ ∧
      b'=died δ.height (born δ.height b δ.created) δ.spent := by
  simp only [apply,Option.bind_eq_some_iff,creates_eq_some_iff,spends_eq_some_iff]
  constructor
  · rintro ⟨b₁,⟨hd,hf,rfl⟩,ho,ha,rfl⟩
    exact ⟨⟨hd,hf,ho,fun n hn => (alive_born _ _ _ n).mp (ha n hn)⟩,rfl⟩
  · rintro ⟨⟨hd,hf,ho,hl⟩,rfl⟩
    exact ⟨_,⟨hd,hf,rfl⟩,ho,fun n hn => (alive_born _ _ _ n).mpr (hl n hn),rfl⟩

variable {b b' : Book N P} {δ : Delta N P}

theorem alive_apply (h : apply b δ=some b') (n : N) :
    b'.Alive n ↔ (n∈δ.created.map Prod.fst ∨ b.Alive n) ∧ n∉δ.spent := by
  obtain ⟨-,rfl⟩ := (apply_eq_some_iff b b' δ).mp h
  rw [alive_died,alive_born]

theorem replay_append (l₁ l₂ : List (Delta N P)) :
    replay (l₁++l₂)=(replay l₁).bind fun b => l₂.foldlM apply b := by
  simp [replay,List.foldlM_append]

theorem replay_concat (l : List (Delta N P)) (δ : Delta N P) :
    replay (l++[δ])=(replay l).bind fun b => apply b δ := by
  rw [replay_append]
  congr 1
  funext b
  simp

@[simp] theorem replay_nil : replay ([] : List (Delta N P))=some empty := rfl

omit [DecidableEq N] in
theorem below_empty (k : Nat) : Below k (empty : Book N P) := fun _ _ h => by simp [empty] at h

variable {k : Nat}

theorem Below.apply (hb : Below k b) (hk : δ.height<k) (h : apply b δ=some b') : Below k b' := by
  obtain ⟨-,rfl⟩ := (apply_eq_some_iff b b' δ).mp h
  have hborn : Below k (born δ.height b δ.created) := by
    intro n e he
    unfold born at he
    split at he
    · simp only [Option.some.injEq] at he
      subst he
      exact ⟨hk,fun d hd => by simp at hd⟩
    · exact hb n e he
  intro n e he
  unfold died at he
  split_ifs at he with hn
  · obtain ⟨e',he',rfl⟩ := Option.map_eq_some_iff.mp he
    exact ⟨(hborn n e' he').1,fun d hd => by simp only [Option.some.injEq] at hd; omega⟩
  · exact hborn n e he

variable {l : List (Delta N P)}

theorem Below.replay (hk : ∀ δ∈l,δ.height<k) (h : replay l=some b) : Below k b := by
  induction l using List.reverseRecOn generalizing b with
  | nil =>
    simp only [replay_nil,Option.some.injEq] at h
    exact h ▸ below_empty k
  | append_singleton l δ ih =>
    rw [replay_concat,Option.bind_eq_some_iff] at h
    obtain ⟨b₁,h₁,h₂⟩ := h
    exact (ih (fun d hd => hk d (by simp [hd])) h₁).apply (hk δ (by simp)) h₂

omit [DecidableEq N] in
theorem Below.keep (hb : Below k b) : keep k b=b := by
  funext n
  unfold Book.keep
  rcases hn : b n with - | ⟨p,m,d⟩
  · rfl
  · have h := hb n _ hn
    cases d with
    | none => simp [h.1]
    | some d => simp [h.1,h.2 d rfl]

theorem keep_apply (hk : k≤δ.height) (h : apply b δ=some b') : keep k b'=keep k b := by
  obtain ⟨hp,rfl⟩ := (apply_eq_some_iff b b' δ).mp h
  have hk' : ¬ δ.height<k := by omega
  funext n
  by_cases hc : n∈δ.created.map Prod.fst
  · have hnone := hp.fresh n hc
    obtain ⟨p,ha⟩ : ∃ p,assoc δ.created n=some p :=
      Option.ne_none_iff_exists'.mp fun e => (assoc_eq_none_iff _ _).mp e hc
    by_cases hs : n∈δ.spent <;> simp [keep,died,born,ha,hs,hnone,hk']
  · have ha := (assoc_eq_none_iff _ _).mpr hc
    by_cases hs : n∈δ.spent
    · obtain ⟨e,he,hd⟩ := (hp.live n hs).resolve_left hc
      simp [keep,died,born,ha,hs,he,hd,hk',Option.filter]
    · simp [keep,died,born,ha,hs]

theorem keep_replay {l₁ l₂ : List (Delta N P)} (h₁ : ∀ δ∈l₁,δ.height<k)
    (h₂ : ∀ δ∈l₂,k≤δ.height) (h : replay (l₁++l₂)=some b) : replay l₁=some (keep k b) := by
  induction l₂ using List.reverseRecOn generalizing b with
  | nil =>
    rw [List.append_nil] at h
    rw [h,(Below.replay h₁ h).keep]
  | append_singleton l δ ih =>
    rw [← List.append_assoc,replay_concat,Option.bind_eq_some_iff] at h
    obtain ⟨b',hb',hδ⟩ := h
    rw [ih (fun d hd => h₂ d (by simp [hd])) hb',keep_apply (h₂ δ (by simp)) hδ]

variable {n : N}

theorem apply_present (h : apply b δ=some b') (hn : b n≠none ∨ n∈δ.created.map Prod.fst) : b' n≠none := by
  obtain ⟨-,rfl⟩ := (apply_eq_some_iff b b' δ).mp h
  have hborn : born δ.height b δ.created n≠none := by
    unfold born
    cases ha : assoc δ.created n with
    | some p => simp
    | none => exact hn.resolve_right ((assoc_eq_none_iff _ _).mp ha)
  unfold died
  split_ifs
  · simpa using hborn
  · exact hborn

theorem present_of_apply (h : apply b δ=some b') (hn : b' n≠none) : b n≠none ∨ n∈δ.created.map Prod.fst := by
  obtain ⟨-,rfl⟩ := (apply_eq_some_iff b b' δ).mp h
  by_contra hno
  simp only [not_or,Classical.not_not] at hno
  have hborn : born δ.height b δ.created n=none := by
    simp [born,(assoc_eq_none_iff _ _).mpr hno.2,hno.1]
  simp [died,hborn] at hn

section
variable (h : l.foldlM apply b=some b')
include h

theorem present_of_foldlM (hn : b' n≠none) : b n≠none ∨ ∃ δ∈l,n∈δ.created.map Prod.fst := by
  induction l generalizing b with
  | nil =>
    simp only [List.foldlM_nil,Option.pure_def,Option.some.injEq] at h
    exact Or.inl (h ▸ hn)
  | cons δ l ih =>
    obtain ⟨b₁,h₁,h₂⟩ := foldlM_cons_some.mp h
    rcases ih h₂ with hb | ⟨δ',hδ',hmem⟩
    · exact (present_of_apply h₁ hb).imp_right fun hmem => ⟨δ,by simp,hmem⟩
    · exact Or.inr ⟨δ',by simp [hδ'],hmem⟩

theorem not_created_of_present (hn : b n≠none) : ∀ δ∈l,n∉δ.created.map Prod.fst := by
  induction l generalizing b with
  | nil => simp
  | cons δ l ih =>
    obtain ⟨b₁,h₁,h₂⟩ := foldlM_cons_some.mp h
    rw [List.forall_mem_cons]
    obtain ⟨hpost,-⟩ := (apply_eq_some_iff _ _ _).mp h₁
    exact ⟨fun hc => hn (hpost.fresh n hc),ih h₂ (apply_present h₁ (Or.inl hn))⟩

theorem alive_foldlM (n : N) : b'.Alive n ↔ (b.Alive n ∨ ∃ δ∈l,n∈δ.created.map Prod.fst) ∧ ∀ δ∈l,n∉δ.spent := by
  induction l generalizing b with
  | nil =>
    simp only [List.foldlM_nil,Option.pure_def,Option.some.injEq] at h
    simp [h]
  | cons δ l ih =>
    obtain ⟨b₁,h₁,h₂⟩ := foldlM_cons_some.mp h
    -- a name spent by `δ` is present afterwards, so no later delta can create it again
    have later (hs : n∈δ.spent) : ∀ δ'∈l,n∉δ'.created.map Prod.fst := by
      obtain ⟨hpost,-⟩ := (apply_eq_some_iff _ _ _).mp h₁
      refine not_created_of_present h₂ (apply_present h₁ ?_)
      rcases hpost.live n hs with hc | ⟨e,he,-⟩
      · exact Or.inr hc
      · exact Or.inl (by simp [he])
    rw [ih h₂,alive_apply h₁]
    simp only [List.mem_cons,exists_eq_or_imp,forall_eq_or_imp]
    constructor
    · rintro ⟨⟨hc,hs⟩ | hl,hr⟩
      · exact ⟨by tauto,hs,hr⟩
      · exact ⟨Or.inr (Or.inr hl),fun hs => hl.elim fun δ' h' => later hs δ' h'.1 h'.2,hr⟩
    · rintro ⟨hl,hs,hr⟩
      exact ⟨by tauto,hr⟩

end

theorem apply_keeps (h : apply b δ=some b') (hn : b n=some e) : ∃ d,b' n=some { e with dead := d } := by
  obtain ⟨hp,rfl⟩ := (apply_eq_some_iff b b' δ).mp h
  have hc : n∉δ.created.map Prod.fst := fun hc => by simp [hp.fresh n hc] at hn
  have hb : born δ.height b δ.created n=some e := by
    simp [born,(assoc_eq_none_iff _ _).mpr hc,hn]
  unfold died
  split_ifs
  · exact ⟨some δ.height,by simp [hb]⟩
  · exact ⟨e.dead,by simp [hb]⟩

theorem apply_created (h : apply b δ=some b') (hn : (n,p)∈δ.created) : ∃ d,b' n=some ⟨p,δ.height,d⟩ := by
  obtain ⟨hp,rfl⟩ := (apply_eq_some_iff b b' δ).mp h
  have hb : born δ.height b δ.created n=some ⟨p,δ.height,none⟩ := by
    simp [born,assoc_of_mem hp.distinct hn]
  unfold died
  split_ifs
  · exact ⟨some δ.height,by simp [hb]⟩
  · exact ⟨none,hb⟩

theorem foldlM_keeps (h : l.foldlM apply b=some b') (hn : b n=some e) : ∃ d,b' n=some { e with dead := d } := by
  induction l generalizing b e with
  | nil =>
    simp only [List.foldlM_nil,Option.pure_def,Option.some.injEq] at h
    exact ⟨e.dead,by rw [← h,hn]⟩
  | cons δ l ih =>
    obtain ⟨b₁,h₁,h₂⟩ := foldlM_cons_some.mp h
    obtain ⟨d,hd⟩ := apply_keeps h₁ hn
    obtain ⟨d',hd'⟩ := ih h₂ hd
    exact ⟨d',hd'⟩

theorem foldlM_created (h : l.foldlM apply b=some b') (hδ : δ∈l) (hn : (n,p)∈δ.created) :
    ∃ d,b' n=some ⟨p,δ.height,d⟩ := by
  induction l generalizing b with
  | nil => simp at hδ
  | cons δ' l ih =>
    obtain ⟨b₁,h₁,h₂⟩ := foldlM_cons_some.mp h
    rcases List.mem_cons.mp hδ with rfl | hl
    · obtain ⟨d,hd⟩ := apply_created h₁ hn
      exact foldlM_keeps h₂ hd
    · exact ih h₂ hl

variable {b₁ b₂ : Book N P}

theorem spent_once (h₁ : apply b δ=some b₁) (h₂ : l.foldlM apply b₁=some b₂) (hn : n∈δ.spent) :
    ∀ δ'∈l,n∉δ'.spent := by
  have hdead : ¬ b₁.Alive n := fun ha => ((alive_apply h₁ n).mp ha).2 hn
  have hpresent : b₁ n≠none := by
    obtain ⟨hp,-⟩ := (apply_eq_some_iff b b₁ δ).mp h₁
    refine apply_present h₁ ?_
    rcases hp.live n hn with hc | ⟨e,he,-⟩
    · exact Or.inr hc
    · exact Or.inl (by simp [he])
  clear h₁ hn
  induction l generalizing b₁ with
  | nil => simp
  | cons δ' l ih =>
    obtain ⟨b',h',h''⟩ := foldlM_cons_some.mp h₂
    obtain ⟨hp,-⟩ := (apply_eq_some_iff b₁ b' δ').mp h'
    have hc : n∉δ'.created.map Prod.fst := fun hc => hpresent (hp.fresh n hc)
    have hs : n∉δ'.spent := fun hs => (hp.live n hs).elim hc hdead
    rw [List.forall_mem_cons]
    refine ⟨hs,ih h'' (fun ha => ?_) (apply_present h' (Or.inl hpresent))⟩
    exact ((alive_apply h' n).mp ha).1.elim hc hdead

theorem created_once (h₁ : apply b δ=some b₁) (h₂ : l.foldlM apply b₁=some b₂)
    (hn : n∈δ.created.map Prod.fst) : ∀ δ'∈l,n∉δ'.created.map Prod.fst :=
  not_created_of_present h₂ (apply_present h₁ (Or.inr hn))

end Book
end RoseChain.Lib
