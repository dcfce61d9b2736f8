import RoseChain.Lib.Windows
import RoseChain.Server.RateLimits

namespace RoseChain

/-- A counter of a rate limiter. -/
inductive Meter
  | count (type : ProtocolMessageTypes)
  | size (type : ProtocolMessageTypes)
  | nonTxCount
  | nonTxSize

namespace Meter

def read (r : RateLimiter) : Meter → ℕ
  | count type => r.messageCounts type
  | size type => r.messageCumulativeSizes type
  | nonTxCount => r.nonTxMessageCounts
  | nonTxSize => r.nonTxCumulativeSize

/-- What a message of a type and a size adds to a counter. -/
def amount (type : ProtocolMessageTypes) (length : ℕ) : Meter → ℕ
  | count t => if t=type then 1 else 0
  | size t => if t=type then length else 0
  | nonTxCount => if (RateLimiter.limitsOf type).2 then 1 else 0
  | nonTxSize => if (RateLimiter.limitsOf type).2 then length else 0

def ofMessage (m : Meter) (message : Message) : ℕ :=
  match ProtocolMessageTypes.ofValue message.type with
  | none => 0
  | some type => m.amount type message.data.length

def limit : Meter → ℕ
  | count type => (RateLimiter.limitsOf type).1.frequency
  | size type =>
    let limits := (RateLimiter.limitsOf type).1
    limits.maxTotalSize.getD (limits.frequency*limits.maxSize)
  | nonTxCount => NON_TX_FREQ
  | nonTxSize => NON_TX_MAX_TOTAL_SIZE

/-- The counters that a message of a type is checked against. -/
def Concerns (type : ProtocolMessageTypes) : Meter → Prop
  | count t => t=type
  | size t => t=type
  | nonTxCount => (RateLimiter.limitsOf type).2
  | nonTxSize => (RateLimiter.limitsOf type).2

variable {m : Meter}

theorem ofMessage_none {message : Message}
    (h : ProtocolMessageTypes.ofValue message.type=none) : m.ofMessage message=0 := by
  unfold ofMessage
  rw [h]

theorem ofMessage_some {message : Message} {type : ProtocolMessageTypes}
    (h : ProtocolMessageTypes.ofValue message.type=some type) :
    m.ofMessage message=m.amount type message.data.length := by
  unfold ofMessage
  rw [h]

theorem update_add (f : ProtocolMessageTypes → ℕ) (type t : ProtocolMessageTypes) (n : ℕ) :
    Function.update f type (f type+n) t=f t+if t=type then n else 0 := by
  by_cases h : t=type
  · subst h
    rw [Function.update_self,if_pos rfl]
  · rw [Function.update_of_ne h,if_neg h,Nat.add_zero]

theorem ite_add (c : Prop) [Decidable c] (a n : ℕ) : (if c then a+n else a)=a+if c then n else 0 := by
  by_cases h : c
  · rw [if_pos h,if_pos h]
  · rw [if_neg h,if_neg h,Nat.add_zero]

theorem read_counted (m : Meter) (r : RateLimiter) (type : ProtocolMessageTypes) (length : ℕ) :
    m.read (r.counted type length)=m.read r+m.amount type length := by
  cases m with
  | count t => exact update_add r.messageCounts type t 1
  | size t => exact update_add r.messageCumulativeSizes type t length
  | nonTxCount => exact ite_add _ r.nonTxMessageCounts 1
  | nonTxSize => exact ite_add _ r.nonTxCumulativeSize length

end Meter

namespace RateLimiter
variable {r : RateLimiter} {message : Message} {now t : ℚ} {passed : List (ℚ × Message)}

theorem check_iff (type : ProtocolMessageTypes) (length : ℕ) : r.check type length=true ↔
      length≤(limitsOf type).1.maxSize ∧ ∀ m : Meter,m.Concerns type →
        (m.read (r.counted type length) : ℚ) ≤ m.limit*(r.percentageOfLimit / 100) := by
  constructor
  · intro h
    unfold check at h
    simp only [Bool.if_false_left,Bool.and_eq_true,Bool.not_eq_true',decide_eq_false_iff_not,
      not_and,not_lt] at h
    obtain ⟨hcount,hsize,htype,hmax,htotal⟩ := h
    refine ⟨hmax,?_⟩
    intro m hm
    cases m with
    | count u => obtain rfl := hm; exact htype
    | size u => obtain rfl := hm; exact htotal.1
    | nonTxCount => exact hcount hm
    | nonTxSize => exact hsize hm
  · rintro ⟨hmax,hmeters⟩
    unfold check
    simp only [Bool.if_false_left,Bool.and_eq_true,Bool.not_eq_true',decide_eq_false_iff_not,not_and,not_lt]
    have hcount := hmeters (.count type) rfl
    have hsize := hmeters (.size type) rfl
    exact ⟨hmeters .nonTxCount,hmeters .nonTxSize,hcount,hmax,hsize,trivial⟩

/-- The counters show what was counted in the current minute. -/
structure Metered (r : RateLimiter) (t : ℚ) (passed : List (ℚ × Message)) : Prop where
  reads : ∀ m : Meter,
    m.read r=Lib.windowTotal r.resetSeconds m.ofMessage r.currentMinute passed
  before : ∀ p∈passed,p.1≤t
  current : passed=[] ∨ r.currentMinute=minute r.resetSeconds t

theorem renewed_resetSeconds : (r.renewed now).resetSeconds=r.resetSeconds := by
  unfold renewed
  split_ifs <;> rfl

theorem renewed_percentage : (r.renewed now).percentageOfLimit=r.percentageOfLimit := by
  unfold renewed
  split_ifs <;> rfl

theorem renewed_incoming : (r.renewed now).incoming=r.incoming := by
  unfold renewed
  split_ifs <;> rfl

theorem renewed_currentMinute : (r.renewed now).currentMinute=minute r.resetSeconds now := by
  unfold renewed
  split_ifs with h
  · rfl
  · exact (not_not.mp h).symm

theorem renewed_same (h : minute r.resetSeconds now=r.currentMinute) : r.renewed now=r := by
  unfold renewed
  rw [if_neg (not_not.mpr h)]

theorem minute_mono (T : ℕ) (h : t≤now) : minute T t ≤ minute T now :=
  Lib.windowOf_mono (Nat.cast_nonneg T) h

theorem Metered.renewed (h : Metered r t passed) (hle : t≤now) : Metered (r.renewed now) now passed := by
  have hbefore : ∀ p∈passed,p.1≤now := fun p hp => (h.before p hp).trans hle
  by_cases hsame : minute r.resetSeconds now=r.currentMinute
  · rw [renewed_same hsame]
    exact ⟨h.reads,hbefore,Or.inr hsame.symm⟩
  · refine ⟨?_,hbefore,?_⟩
    · intro m
      rw [renewed_resetSeconds,renewed_currentMinute]
      have hzero : m.read (r.renewed now)=0 := by
        unfold RateLimiter.renewed
        rw [if_pos hsame]
        cases m <;> rfl
      rw [hzero]
      symm
      apply Lib.windowTotal_eq_zero
      intro p hp heq
      have hpt : minute r.resetSeconds p.1 ≤ minute r.resetSeconds t := minute_mono _ (h.before p hp)
      have htn : minute r.resetSeconds t ≤ minute r.resetSeconds now := minute_mono _ hle
      have hpn : minute r.resetSeconds p.1=minute r.resetSeconds now := heq
      rcases h.current with hnil | hcurrent
      · rw [hnil] at hp
        cases hp
      · omega
    · right
      rw [renewed_currentMinute,renewed_resetSeconds]

def grown (passed : List (ℚ × Message)) (now : ℚ) (message : Message) (counts : Bool) :
    List (ℚ × Message) :=
  if counts then passed++[(now,message)] else passed

theorem process_none (h : ProtocolMessageTypes.ofValue message.type=none) :
    r.processMsgAndCheck message now=(true,r.renewed now) := by
  unfold processMsgAndCheck
  rw [h]

variable {type : ProtocolMessageTypes}

theorem process_some (h : ProtocolMessageTypes.ofValue message.type=some type) :
    r.processMsgAndCheck message now = ((r.renewed now).check type message.data.length,
        if (r.renewed now).incoming ∨ (r.renewed now).check type message.data.length then
          (r.renewed now).counted type message.data.length else r.renewed now) := by
  unfold processMsgAndCheck
  rw [h]

variable (message) in
theorem Metered.counted (h : Metered r now passed) (hcurrent : r.currentMinute=minute r.resetSeconds now)
    (htype : ProtocolMessageTypes.ofValue message.type=some type) :
    Metered (r.counted type message.data.length) now (passed++[(now,message)]) := by
  refine ⟨?_,?_,Or.inr hcurrent⟩
  · intro m
    rw [Meter.read_counted,h.reads m,Lib.windowTotal_concat,← Meter.ofMessage_some htype]
    have hwindow : Lib.windowOf r.resetSeconds now=r.currentMinute := hcurrent.symm
    show _=_+(if Lib.windowOf r.resetSeconds now=r.currentMinute then _ else _)
    rw [if_pos hwindow]
    rfl
  · intro p hp
    rcases List.mem_append.mp hp with hp | hp
    · exact h.before p hp
    · rw [List.mem_singleton.mp hp]

theorem Metered.unknown (h : Metered r now passed) (hcurrent : r.currentMinute=minute r.resetSeconds now)
    (htype : ProtocolMessageTypes.ofValue message.type=none) : Metered r now (passed++[(now,message)]) := by
  refine ⟨?_,?_,Or.inr hcurrent⟩
  · intro m
    rw [h.reads m,Lib.windowTotal_concat]
    show _=_+(if _ then m.ofMessage message else 0)
    rw [Meter.ofMessage_none htype,ite_self,Nat.add_zero]
  · intro p hp
    rcases List.mem_append.mp hp with hp | hp
    · exact h.before p hp
    · rw [List.mem_singleton.mp hp]

variable (message) in
theorem Metered.process (h : Metered r t passed) (hle : t≤now) :
    Metered (r.processMsgAndCheck message now).2 now
      (grown passed now message (r.incoming || (r.processMsgAndCheck message now).1)) := by
  have hrenewed := h.renewed hle
  have hcurrent : (r.renewed now).currentMinute=minute (r.renewed now).resetSeconds now := by
    rw [renewed_currentMinute,renewed_resetSeconds]
  cases htype : ProtocolMessageTypes.ofValue message.type with
  | none =>
    rw [process_none htype]
    show Metered _ now (if (r.incoming || true)=true then _ else _)
    rw [Bool.or_true,if_pos rfl]
    exact hrenewed.unknown hcurrent htype
  | some type =>
    rw [process_some htype,renewed_incoming]
    unfold grown
    by_cases hcounts :
        r.incoming=true ∨ (r.renewed now).check type message.data.length=true
    · rw [if_pos hcounts,if_pos (by rw [Bool.or_eq_true]; exact hcounts)]
      exact hrenewed.counted message hcurrent htype
    · rw [if_neg hcounts,if_neg (by rw [Bool.or_eq_true]; exact hcounts)]
      exact hrenewed

variable (r message now) in
theorem process_settings : (r.processMsgAndCheck message now).2.resetSeconds=r.resetSeconds ∧
    (r.processMsgAndCheck message now).2.percentageOfLimit=r.percentageOfLimit ∧
    (r.processMsgAndCheck message now).2.incoming=r.incoming := by
  cases htype : ProtocolMessageTypes.ofValue message.type with
  | none =>
    rw [process_none htype]
    exact ⟨renewed_resetSeconds,renewed_percentage,renewed_incoming⟩
  | some type =>
    rw [process_some htype]
    split_ifs
    · exact ⟨renewed_resetSeconds,renewed_percentage,renewed_incoming⟩
    · exact ⟨renewed_resetSeconds,renewed_percentage,renewed_incoming⟩

def letThrough : RateLimiter → List (ℚ × Message) → List (ℚ × Message)
  | _,[] => []
  | r,(now,message)::rest =>
    let result := r.processMsgAndCheck message now
    if result.1 then (now,message)::letThrough result.2 rest else letThrough result.2 rest

def AcceptsAll : RateLimiter → List (ℚ × Message) → Prop
  | _,[] => True
  | r,(now,message)::rest =>
    (r.processMsgAndCheck message now).1=true ∧
      AcceptsAll (r.processMsgAndCheck message now).2 rest

/-- What a limiter of percentage `p` has let through is within its limits in every window. -/
structure Within (T : ℕ) (p : ℤ) (passed : List (ℚ × Message)) : Prop where
  totals : ∀ (m : Meter) (w : ℤ),
    Lib.windowTotal T m.ofMessage w passed=0 ∨
      (Lib.windowTotal T m.ofMessage w passed : ℚ) ≤ m.limit*((p : ℚ) / 100)
  sizes : ∀ e∈passed,∀ type,ProtocolMessageTypes.ofValue e.2.type=some type →
    e.2.data.length≤(limitsOf type).1.maxSize
  percentage : ∀ e∈passed,∀ type,ProtocolMessageTypes.ofValue e.2.type=some type → 0≤p

theorem amount_unconcerned {m : Meter} {length : ℕ} (h : ¬ m.Concerns type) : m.amount type length=0 := by
  cases m with
  | count t => exact if_neg h
  | size t => exact if_neg h
  | nonTxCount => exact if_neg h
  | nonTxSize => exact if_neg h

variable {T : ℕ} {p : ℤ}

theorem Within.concat (h : Within T p passed) (hmeter : Metered r now passed)
    (hT : r.resetSeconds=T) (hp : r.percentageOfLimit=p) (hcurrent : r.currentMinute=minute T now)
    (htype : ProtocolMessageTypes.ofValue message.type=some type)
    (hcheck : r.check type message.data.length=true) : Within T p (passed++[(now,message)]) := by
  obtain ⟨hsize,hmeters⟩ := (check_iff type _).mp hcheck
  have hcounted : ∀ m : Meter,m.read (r.counted type message.data.length) =
      Lib.windowTotal T m.ofMessage r.currentMinute (passed++[(now,message)]) := by
    have hnext := hmeter.counted message (hcurrent.trans (by rw [hT])) htype
    intro m
    rw [hnext.reads m]
    show Lib.windowTotal r.resetSeconds _ r.currentMinute _=_
    rw [hT]
  have hpos : 0≤p := by
    have hcount := hmeters (.count type) rfl
    rw [Meter.read_counted,hp] at hcount
    by_contra hneg
    have hlt : (p : ℚ)<0 := by exact_mod_cast not_le.mp hneg
    have hle : ((Meter.count type).limit : ℚ)*((p : ℚ) / 100)≤0 := by
      apply mul_nonpos_of_nonneg_of_nonpos (Nat.cast_nonneg _)
      linarith
    have hone : (Meter.count type).amount type message.data.length=1 := if_pos rfl
    rw [hone] at hcount
    push_cast at hcount
    have hread : (0 : ℚ)≤(Meter.count type).read r := Nat.cast_nonneg _
    linarith
  refine ⟨?_,?_,?_⟩
  · intro m w
    by_cases hw : Lib.windowOf T now=w
    · by_cases hm : m.Concerns type
      · right
        have hle := hmeters m hm
        rw [hcounted m,hp,hcurrent] at hle
        rw [← hw]
        exact hle
      · rw [Lib.windowTotal_concat]
        show _+(if _ then m.ofMessage message else 0)=0 ∨ _
        rw [Meter.ofMessage_some htype,amount_unconcerned hm,ite_self,Nat.add_zero]
        have hsame := h.totals m w
        rcases hsame with hzero | hle
        · exact Or.inl hzero
        · exact Or.inr hle
    · have hsame : Lib.windowTotal T m.ofMessage w (passed++[(now,message)]) =
          Lib.windowTotal T m.ofMessage w passed := by
        rw [Lib.windowTotal_concat]
        show _+(if Lib.windowOf T now=w then _ else _)=_
        rw [if_neg hw,Nat.add_zero]
      rw [hsame]
      exact h.totals m w
  · intro e he u hu
    rcases List.mem_append.mp he with he | he
    · exact h.sizes e he u hu
    · rw [List.mem_singleton.mp he] at hu ⊢
      obtain rfl := Option.some.inj (htype.symm.trans hu)
      exact hsize
  · intro e he u hu
    exact hpos

theorem Within.unknown (h : Within T p passed) (htype : ProtocolMessageTypes.ofValue message.type=none) :
    Within T p (passed++[(now,message)]) := by
  have hsame : ∀ (m : Meter) (w : ℤ),
      Lib.windowTotal T m.ofMessage w (passed++[(now,message)]) =
        Lib.windowTotal T m.ofMessage w passed := by
    intro m w
    rw [Lib.windowTotal_concat]
    show _+(if _ then m.ofMessage message else 0)=_
    rw [Meter.ofMessage_none htype,ite_self,Nat.add_zero]
  have hother : ∀ e∈passed++[(now,message)],∀ type,
      ProtocolMessageTypes.ofValue e.2.type=some type → e∈passed := by
    intro e he u hu
    rcases List.mem_append.mp he with he | he
    · exact he
    · rw [List.mem_singleton.mp he] at hu
      exact absurd (htype.symm.trans hu) (by simp)
  refine ⟨?_,?_,?_⟩
  · intro m w
    rw [hsame]
    exact h.totals m w
  · intro e he u hu
    exact h.sizes e (hother e he u hu) u hu
  · intro e he u hu
    exact h.percentage e (hother e he u hu) u hu

theorem letThrough_within (l : List (ℚ × Message)) : ∀ {r : RateLimiter} {t : ℚ} {passed : List (ℚ × Message)},
      r.resetSeconds=T → r.percentageOfLimit=p → r.incoming=false → Metered r t passed → Within T p passed →
      (∀ e∈l,t≤e.1) → l.Pairwise (fun e e' => e.1≤e'.1) → Within T p (passed++r.letThrough l) := by
  induction l with
  | nil =>
    intro r t passed _ _ _ _ hwithin _ _
    rw [letThrough,List.append_nil]
    exact hwithin
  | cons e rest ih =>
    obtain ⟨now,message⟩ := e
    intro r t passed hT hp hout hmeter hwithin hafter hsorted
    have hle : t≤now := hafter (now,message) List.mem_cons_self
    obtain ⟨hT',hp',hout'⟩ := process_settings r message now
    have hnext := hmeter.process message hle
    rw [hout,Bool.false_or] at hnext
    rw [List.pairwise_cons] at hsorted
    unfold letThrough
    by_cases hpass : (r.processMsgAndCheck message now).1=true
    · rw [if_pos hpass]
      rw [hpass,grown,if_pos rfl] at hnext
      have hmore : Within T p (passed++[(now,message)]) := by
        cases htype : ProtocolMessageTypes.ofValue message.type with
        | none => exact hwithin.unknown htype
        | some type =>
          rw [process_some htype] at hpass
          apply hwithin.concat (hmeter.renewed hle) _ _ _ htype hpass
          · rw [renewed_resetSeconds,hT]
          · rw [renewed_percentage,hp]
          · rw [renewed_currentMinute,hT]
      have hall := ih (hT'.trans hT) (hp'.trans hp) (hout'.trans hout) hnext hmore
        (fun e he => hsorted.1 e he) hsorted.2
      rw [List.append_assoc] at hall
      exact hall
    · rw [if_neg hpass]
      rw [Bool.not_eq_true] at hpass
      rw [hpass,grown,if_neg Bool.false_ne_true] at hnext
      exact ih (hT'.trans hT) (hp'.trans hp) (hout'.trans hout) hnext hwithin
        (fun e he => hsorted.1 e he) hsorted.2

theorem letThrough_sublist (l : List (ℚ × Message)) : ∀ r : RateLimiter,(r.letThrough l).Sublist l := by
  induction l with
  | nil => exact fun r => List.Sublist.refl []
  | cons e rest ih =>
    intro r
    unfold letThrough
    by_cases hpass : (r.processMsgAndCheck e.2 e.1).1=true
    · rw [if_pos hpass]
      exact (ih _).cons_cons _
    · rw [if_neg hpass]
      exact (ih _).cons _

variable {q : ℤ}

theorem shifted_le (hpq : 2*p≤q) (hp : 0≤p) {c : ℚ}
    {done rest : List (ℚ × Message)} {e : ℚ × Message} (h : Within T p (done++e::rest)) (m : Meter) (w : ℤ) :
    (Lib.windowTotal T m.ofMessage w (Lib.shiftTimes c (done++[e])) : ℚ) ≤ m.limit*((q : ℚ) / 100) := by
  have hall : done++e::rest=(done++[e])++rest := by rw [List.append_assoc]; rfl
  have hpart : ∀ v : ℤ,(Lib.windowTotal T m.ofMessage v (done++[e]) : ℚ) ≤
      m.limit*((p : ℚ) / 100) := by
    intro v
    have hle : Lib.windowTotal T m.ofMessage v (done++[e]) ≤
        Lib.windowTotal T m.ofMessage v (done++e::rest) := by
      rw [hall,Lib.windowTotal_append (l := done++[e])]
      exact Nat.le_add_right _ _
    have hcast : (Lib.windowTotal T m.ofMessage v (done++[e]) : ℚ) ≤
        Lib.windowTotal T m.ofMessage v (done++e::rest) := by exact_mod_cast hle
    apply hcast.trans
    rcases h.totals m v with hzero | hbound
    · rw [hzero]
      push_cast
      have hp' : (0 : ℚ)≤p := by exact_mod_cast hp
      positivity
    · exact hbound
  have hshift : (Lib.windowTotal T m.ofMessage w (Lib.shiftTimes c (done++[e])) : ℚ) ≤
      Lib.windowTotal T m.ofMessage ⌊w-c / T⌋ (done++[e]) +
        Lib.windowTotal T m.ofMessage (⌊w-c / T⌋ + 1) (done++[e]) := by
    exact_mod_cast Lib.windowTotal_shift c w (done++[e])
  have hfirst := hpart ⌊w-c / T⌋
  have hsecond := hpart (⌊w-c / T⌋ + 1)
  have hq : (2 : ℚ)*p≤q := by exact_mod_cast hpq
  have hlimit : (0 : ℚ) ≤ m.limit := Nat.cast_nonneg _
  have hdouble : (m.limit : ℚ)*((p : ℚ) / 100)+m.limit*((p : ℚ) / 100) ≤
      m.limit*((q : ℚ) / 100) := by
    rw [← mul_add]
    apply mul_le_mul_of_nonneg_left _ hlimit
    linarith
  linarith

theorem acceptsAll_of_within (hpq : 2*p≤q) (c : ℚ) (rest : List (ℚ × Message)) :
    ∀ {r : RateLimiter} {t : ℚ} {done : List (ℚ × Message)},
      r.resetSeconds=T → r.percentageOfLimit=q → r.incoming=true →
      Within T p (done++rest) → Metered r t (Lib.shiftTimes c done) →
      (∀ e∈rest,t≤e.1+c) → rest.Pairwise (fun e e' => e.1≤e'.1) → r.AcceptsAll (Lib.shiftTimes c rest) := by
  induction rest with
  | nil => exact fun _ _ _ _ _ _ _ => trivial
  | cons e rest ih =>
    obtain ⟨now,message⟩ := e
    intro r t done hT hq hin hwithin hmeter hafter hsorted
    have hle : t≤now+c := hafter (now,message) List.mem_cons_self
    obtain ⟨hT',hq',hin'⟩ := process_settings r message (now+c)
    have hnext := hmeter.process message hle
    rw [hin,Bool.true_or,grown,if_pos rfl] at hnext
    have hdone : Lib.shiftTimes c done++[(now+c,message)] =
        Lib.shiftTimes c (done++[(now,message)]) := by
      unfold Lib.shiftTimes
      rw [List.map_append]
      rfl
    rw [hdone] at hnext
    rw [List.pairwise_cons] at hsorted
    refine ⟨?_,?_⟩
    · show (r.processMsgAndCheck message (now+c)).1=true
      cases htype : ProtocolMessageTypes.ofValue message.type with
      | none => rw [process_none htype]
      | some type =>
        have hmem : (now,message)∈done++(now,message)::rest :=
          List.mem_append_right _ List.mem_cons_self
        have hp : 0≤p := hwithin.percentage _ hmem type htype
        rw [process_some htype]
        apply (check_iff type _).mpr
        refine ⟨hwithin.sizes _ hmem type htype,?_⟩
        intro m _
        have hrenewed := hmeter.renewed hle
        have hcounted := hrenewed.counted message
          (by rw [renewed_currentMinute,renewed_resetSeconds]) htype
        rw [hcounted.reads m,hdone,renewed_percentage,hq]
        show ((Lib.windowTotal ((r.renewed (now+c)).resetSeconds : ℚ) m.ofMessage
          (r.renewed (now+c)).currentMinute _ : ℕ) : ℚ)≤_
        rw [renewed_resetSeconds,hT]
        generalize (r.renewed (now+c)).currentMinute=w
        exact shifted_le hpq hp hwithin m w
    · apply ih (hT'.trans hT) (hq'.trans hq) (hin'.trans hin) _ hnext _ hsorted.2
      · rw [List.append_assoc]
        exact hwithin
      · intro e he
        have hlater := hsorted.1 e he
        linarith

theorem new_metered {incoming : Bool} (t₀ t : ℚ) : Metered (new incoming T p t₀) t [] := by
  refine ⟨?_,?_,Or.inl rfl⟩
  · intro m
    cases m <;> rfl
  · intro e he
    cases he

theorem nil_within : Within T p [] := by
  refine ⟨fun m w => Or.inl rfl,?_,?_⟩
  · intro e he
    cases he
  · intro e he
    cases he

theorem refused_renewed (hout : r.incoming=false) (h : (r.processMsgAndCheck message now).1=false) :
    (r.processMsgAndCheck message now).2=r.renewed now := by
  cases htype : ProtocolMessageTypes.ofValue message.type with
  | none => rw [process_none htype]
  | some type =>
    rw [process_some htype] at h ⊢
    have hcheck : (r.renewed now).check type message.data.length=false := h
    apply if_neg
    rw [renewed_incoming,hout,hcheck]
    exact fun hor => hor.elim Bool.false_ne_true Bool.false_ne_true

theorem letThrough_accepted (hpq : 2*p≤q) (t₀ t₁ c : ℚ)
    {l : List (ℚ × Message)} (hsorted : l.Pairwise (fun e e' => e.1≤e'.1)) :
    (new true T q t₁).AcceptsAll (Lib.shiftTimes c ((new false T p t₀).letThrough l)) := by
  have hsub := letThrough_sublist l (new false T p t₀)
  have hsorted' := hsorted.sublist hsub
  cases hl : l with
  | nil => exact trivial
  | cons first rest =>
    have hafter : ∀ e∈l,first.1≤e.1 := by
      intro e he
      rw [hl] at he hsorted
      rcases List.mem_cons.mp he with heq | he
      · rw [heq]
      · exact (List.pairwise_cons.mp hsorted).1 e he
    have hwithin := letThrough_within (T := T) (p := p) l rfl rfl rfl
      (new_metered t₀ first.1) nil_within hafter hsorted
    rw [← hl]
    apply acceptsAll_of_within hpq c _ rfl rfl rfl hwithin (new_metered t₁ (first.1+c))
    · intro e he
      have hfirst := hafter e (hsub.subset he)
      linarith
    · exact hsorted'

end RateLimiter

/-- The receiver accepts all that is sent to it; a refused message is not counted. -/
theorem rateLimiters_agree (T : ℕ) (p q : ℤ) (hpq : 2*p≤q) (t₀ t₁ c : ℚ) (r : RateLimiter)
    (hout : r.incoming=false) (l : List (ℚ × Message)) (hsorted : l.Pairwise (fun e e' => e.1≤e'.1)) :
    (RateLimiter.new true T q t₁).AcceptsAll (Lib.shiftTimes c ((RateLimiter.new false T p t₀).letThrough l)) ∧
    ∀ (message : Message) (now : ℚ),(r.processMsgAndCheck message now).1=false →
      (r.processMsgAndCheck message now).2=r.renewed now ∧
      (RateLimiter.minute r.resetSeconds now=r.currentMinute → (r.processMsgAndCheck message now).2=r) := by
  refine ⟨RateLimiter.letThrough_accepted hpq t₀ t₁ c hsorted,?_⟩
  intro message now hrefused
  have hrenewed := RateLimiter.refused_renewed hout hrefused
  exact ⟨hrenewed,fun hsame => hrenewed.trans (RateLimiter.renewed_same hsame)⟩

def usedLimiter : RateLimiter :=
  ((RateLimiter.new false 60 100 0).processMsgAndCheck ⟨27,none,[]⟩ 0).2

def twoMinutes : List (ℚ × Message) :=
  [(0,⟨2,none,[]⟩),(10,⟨27,none,List.replicate 100 0⟩),(20,⟨27,none,List.replicate 101 0⟩),(59,⟨2,none,[]⟩),
    (60,⟨27,none,List.replicate 100 0⟩),(61,⟨2,none,[]⟩)]

theorem twoMinutes_sorted : twoMinutes.Pairwise (fun e e' => e.1≤e'.1) := by
  simp only [twoMinutes]
  decide +kernel

/-- Five of the six messages are sent, and the receiver, whose clock is half a minute ahead,
accepts them all. -/
theorem rateLimiters_agree_twoMinutes :
    ((RateLimiter.new false 60 50 0).letThrough twoMinutes).map Prod.fst=[0,10,59,60,61] ∧
    (RateLimiter.new true 60 100 0).AcceptsAll
        (Lib.shiftTimes 30 ((RateLimiter.new false 60 50 0).letThrough twoMinutes)) ∧
    ∀ (message : Message) (now : ℚ),(usedLimiter.processMsgAndCheck message now).1=false →
      (usedLimiter.processMsgAndCheck message now).2=usedLimiter.renewed now ∧
      (RateLimiter.minute usedLimiter.resetSeconds now=usedLimiter.currentMinute →
        (usedLimiter.processMsgAndCheck message now).2=usedLimiter) :=
  ⟨by decide +kernel,rateLimiters_agree 60 50 100 (by decide) 0 0 30 usedLimiter (by decide +kernel)
    twoMinutes twoMinutes_sorted⟩

/-- A refused message of a new minute takes the counters of the old one back to zero. -/
theorem refused_resets : usedLimiter.incoming=false ∧
    (usedLimiter.processMsgAndCheck ⟨27,none,List.replicate 101 0⟩ 60).1=false ∧
    usedLimiter.nonTxMessageCounts=1 ∧
    (usedLimiter.processMsgAndCheck ⟨27,none,List.replicate 101 0⟩ 60).2.nonTxMessageCounts=0 := by
  decide +kernel

end RoseChain
