import Mathlib.Tactic.Common

namespace RoseChain.Lib

/-- Takes a value from the front of a stream and leaves the rest. -/
abbrev Reader (σ ε α : Type) := StateT (List σ) (Except ε) α

variable {σ ε α β : Type}

namespace Reader

variable {s t : List σ}

theorem pure_eq_ok {a b : α} : (pure a : Reader σ ε α) s = .ok (b,t) ↔ a=b ∧ s=t := by
  constructor
  · intro h
    exact Prod.mk.inj (Except.ok.inj h)
  · intro h
    rw [h.1,h.2]
    rfl

theorem bind_eq_ok {m : Reader σ ε α} {f : α → Reader σ ε β} {b : β} :
    (m >>= f) s = .ok (b,t) ↔ ∃ a s',m s = .ok (a,s') ∧ f a s' = .ok (b,t) := by
  change (m s >>= fun p => f p.1 p.2)=_ ↔ _
  cases m s with
  | error e =>
    constructor
    · intro h
      cases h
    · intro h
      obtain ⟨a,s',h,-⟩ := h
      cases h
  | ok p =>
    constructor
    · intro h
      exact ⟨p.1,p.2,rfl,h⟩
    · intro h
      obtain ⟨a,s',hp,h⟩ := h
      rw [Except.ok.inj hp]
      exact h

def many (read : Reader σ ε α) : ℕ → Reader σ ε (List α)
  | 0 => pure []
  | n+1 => do
    let a ← read
    let l ← many read n
    return a::l

theorem many_succ (read : Reader σ ε α) (n : ℕ) : many read (n+1)=(do
    let a ← read
    let l ← many read n
    return a::l) := rfl

end Reader

/-- The bytes of all values of a list, one after the other. -/
def writeAll (write : α → Except ε (List σ)) : List α → Except ε (List σ)
  | [] => .ok []
  | a::l => do
    let b ← write a
    let c ← writeAll write l
    return b++c

theorem bind_eq_ok {m : Except ε α} {f : α → Except ε β} {b : β} :
    (m >>= f) = .ok b ↔ ∃ a,m = .ok a ∧ f a = .ok b := by
  cases m with
  | error e =>
    constructor
    · intro h
      cases h
    · intro h
      obtain ⟨a,h,-⟩ := h
      cases h
  | ok a =>
    constructor
    · intro h
      exact ⟨a,rfl,h⟩
    · intro h
      obtain ⟨a',ha,h⟩ := h
      rw [Except.ok.inj ha]
      exact h

/-- What is read is a good value whose bytes were in front, and all of these can be read. -/
def Exact (good : α → Prop) (write : α → Except ε (List σ)) (read : Reader σ ε α) : Prop :=
  ∀ s x rest,read s = .ok (x,rest) ↔ good x ∧ ∃ b,write x = .ok b ∧ s=b++rest

namespace Exact
variable {good : α → Prop} {write : α → Except ε (List σ)} {read : Reader σ ε α}

theorem congr (h : Exact good write read) {good' : α → Prop} {write' : α → Except ε (List σ)}
    {read' : Reader σ ε α} (hgood : ∀ x,good' x ↔ good x) (hwrite : ∀ x,write' x=write x)
    (hread : read'=read) : Exact good' write' read' := by
  intro s x rest
  rw [hread,hgood,hwrite]
  exact h s x rest

theorem unit : Exact (fun _ => True) (fun _ : Unit => (.ok [] : Except ε (List σ))) (pure ()) := by
  intro s x rest
  rw [Reader.pure_eq_ok]
  constructor
  · intro h
    exact ⟨trivial,[],rfl,h.2⟩
  · intro h
    obtain ⟨-,b,hb,hs⟩ := h
    rw [← Except.ok.inj hb] at hs
    exact ⟨rfl,hs⟩

variable {good' : β → Prop} {write' : β → Except ε (List σ)}

section
variable (h : Exact good write read)
include h

theorem pair {read' : Reader σ ε β}
    (h' : Exact good' write' read') :
    Exact (fun p : α × β => good p.1 ∧ good' p.2)
      (fun p => do
        let b ← write p.1
        let c ← write' p.2
        return b++c)
      (do
        let a ← read
        let b ← read'
        return (a,b)) := by
  intro s x rest
  rw [Reader.bind_eq_ok]
  simp only [Reader.bind_eq_ok,Reader.pure_eq_ok,bind_eq_ok]
  constructor
  · intro hr
    obtain ⟨a,s₁,ha,b,s₂,hb,rfl,rfl⟩ := hr
    obtain ⟨hga,c,hc,rfl⟩ := (h _ _ _).mp ha
    obtain ⟨hgb,d,hd,rfl⟩ := (h' _ _ _).mp hb
    exact ⟨⟨hga,hgb⟩,c++d,⟨c,hc,d,hd,rfl⟩,(List.append_assoc c d s₂).symm⟩
  · intro hr
    obtain ⟨⟨hga,hgb⟩,b,⟨c,hc,d,hd,hcd⟩,rfl⟩ := hr
    rw [← Except.ok.inj hcd,List.append_assoc]
    exact ⟨x.1,d++rest,(h _ _ _).mpr ⟨hga,c,hc,rfl⟩,x.2,rest,(h' _ _ _).mpr ⟨hgb,d,hd,rfl⟩,rfl,rfl⟩

theorem many (n : ℕ) : Exact (fun l => l.length=n ∧ ∀ x∈l,good x) (writeAll write) (Reader.many read n) := by
  induction n with
  | zero =>
    intro s l rest
    unfold Reader.many
    rw [Reader.pure_eq_ok]
    constructor
    · intro hr
      rw [← hr.1]
      exact ⟨⟨rfl,by simp⟩,[],rfl,hr.2⟩
    · intro hr
      obtain ⟨⟨hl,-⟩,b,hb,hs⟩ := hr
      rw [List.length_eq_zero_iff.mp hl] at hb ⊢
      rw [← Except.ok.inj hb] at hs
      exact ⟨rfl,hs⟩
  | succ n ih =>
    have hcons : ∀ s (p : α × List α) rest,(do
          let a ← read
          let l ← Reader.many read n
          return (a,l) : Reader σ ε (α × List α)) s = .ok (p,rest) ↔
        Reader.many read (n+1) s = .ok (p.1::p.2,rest) := by
      intro s p rest
      rw [Reader.many_succ]
      simp only [Reader.bind_eq_ok,Reader.pure_eq_ok,List.cons.injEq,Prod.ext_iff]
    intro s l rest
    cases l with
    | nil =>
      constructor
      · intro hr
        unfold Reader.many at hr
        simp only [Reader.bind_eq_ok,Reader.pure_eq_ok] at hr
        obtain ⟨a,s₁,-,l,s₂,-,hl,-⟩ := hr
        cases hl
      · intro hr
        cases hr.1.1
    | cons a l =>
      rw [← hcons s (a,l) rest,h.pair ih s (a,l) rest]
      simp only [List.length_cons,Nat.add_right_cancel_iff,List.mem_cons,forall_eq_or_imp]
      constructor
      · intro hr
        obtain ⟨⟨ha,hl,hall⟩,hb⟩ := hr
        exact ⟨⟨hl,ha,hall⟩,hb⟩
      · intro hr
        obtain ⟨⟨hl,ha,hall⟩,hb⟩ := hr
        exact ⟨⟨ha,hl,hall⟩,hb⟩

theorem bind {good' : α → β → Prop} {read' : α → Reader σ ε β}
    (h' : ∀ a,Exact (good' a) write' (read' a)) {f : β → α}
    (hf : ∀ a y,good' a y → a=f y) :
    Exact (fun y => good (f y) ∧ good' (f y) y)
      (fun y => do
        let b ← write (f y)
        let c ← write' y
        return b++c)
      (read >>= read') := by
  intro s y rest
  rw [Reader.bind_eq_ok]
  simp only [bind_eq_ok]
  constructor
  · intro hr
    obtain ⟨a,s',ha,hy⟩ := hr
    obtain ⟨hga,b,hb,rfl⟩ := (h _ _ _).mp ha
    obtain ⟨hgy,c,hc,rfl⟩ := (h' a _ _ _).mp hy
    obtain rfl := hf a y hgy
    exact ⟨⟨hga,hgy⟩,b++c,⟨b,hb,c,hc,rfl⟩,(List.append_assoc b c rest).symm⟩
  · intro hr
    obtain ⟨⟨hga,hgy⟩,b,⟨c,hc,d,hd,hcd⟩,rfl⟩ := hr
    rw [← Except.ok.inj hcd,List.append_assoc]
    exact ⟨f y,d++rest,(h _ _ _).mpr ⟨hga,c,hc,rfl⟩,(h' _ _ _ _).mpr ⟨hgy,d,hd,rfl⟩⟩

theorem convert {f : α → Except ε β} {g : β → Except ε α}
    (hfg : ∀ a y,good a ∧ f a = .ok y ↔ good' y ∧ g y = .ok a) :
    Exact good' (fun y => g y >>= write) (read >>= fun a => StateT.lift (f a)) := by
  intro s y rest
  have hlift (a : α) (s : List σ) : (StateT.lift (f a) : Reader σ ε β) s = .ok (y,rest) ↔ f a = .ok y ∧ s=rest := by
    change (f a >>= fun y => .ok (y,s))=_ ↔ _
    rw [bind_eq_ok]
    constructor
    · intro hr
      obtain ⟨y',hy,hs⟩ := hr
      obtain ⟨rfl,rfl⟩ := Prod.mk.inj (Except.ok.inj hs)
      exact ⟨hy,rfl⟩
    · intro hr
      exact ⟨y,hr.1,by rw [hr.2]⟩
  rw [Reader.bind_eq_ok]
  simp only [hlift,bind_eq_ok]
  constructor
  · intro hr
    obtain ⟨a,s',ha,hy,rfl⟩ := hr
    obtain ⟨hga,b,hb,rfl⟩ := (h _ _ _).mp ha
    obtain ⟨hgy,hg⟩ := (hfg a y).mp ⟨hga,hy⟩
    exact ⟨hgy,b,⟨a,hg,hb⟩,rfl⟩
  · intro hr
    obtain ⟨hgy,b,⟨a,hg,hb⟩,rfl⟩ := hr
    obtain ⟨hga,hy⟩ := (hfg a y).mpr ⟨hgy,hg⟩
    exact ⟨a,rest,(h _ _ _).mpr ⟨hga,b,hb,rfl⟩,hy,rfl⟩

theorem whole {s : List σ} {x : α} : read s = .ok (x,[]) ↔ good x ∧ write x = .ok s := by
  rw [h]
  constructor
  · intro hr
    obtain ⟨hx,b,hb,rfl⟩ := hr
    rw [List.append_nil]
    exact ⟨hx,hb⟩
  · intro hr
    exact ⟨hr.1,s,hr.2,(List.append_nil s).symm⟩

end

end Exact
end RoseChain.Lib
