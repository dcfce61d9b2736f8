import RoseChain.Server.WSConnection

namespace RoseChain
open WSChiaConnection

/-- What holds of one side `c`, across from `o`, when `k` calls were made. -/
structure Pairing (s : Side) (c o : WSChiaConnection) (k : ℕ) (log : List WSEvent) : Prop where
  nonce : s.Numbers c.requestNonce
  pending : ∀ n r,c.pendingRequests n=some r → (r,n)∈c.waiting ∧ s.Numbers n ∧ r<k
  waiting : ∀ n r,(r,n)∈c.waiting → c.pendingRequests n=some r
  once : c.waiting.Nodup
  single : ∀ n n' r,(r,n)∈c.waiting → (r,n')∈c.waiting → n=n'
  results : ∀ n p,c.requestResults n=some p →
    ∃ r,c.pendingRequests n=some r ∧ p.purpose = .reply r ∧ c.isSet r=true
  asked : ∀ p n r,p∈c.outgoingQueue ∨ p∈o.incoming → p.message.id=some n →
    c.pendingRequests n=some r → p.purpose = .request r
  replied : ∀ p n r,p∈o.outgoingQueue → p.message.id=some n →
    c.pendingRequests n=some r → p.purpose = .reply r
  home : ∀ p n,p∈c.incoming → p.message.id=some n → c.pendingRequests n=none
  askedNumber : ∀ p n r,p∈c.outgoingQueue ∨ p∈o.incoming → p.purpose = .request r →
    (r,n)∈c.waiting → p.message.id=some n
  repliedNumber : ∀ p n r,p∈o.outgoingQueue → p.purpose = .reply r →
    (r,n)∈c.waiting → p.message.id=some n
  timers : ∀ t r,t∈c.timers → c.pendingRequests t.reqId=some r → t.call=r
  wakes : ∀ n r,(r,n)∈c.waiting → c.isSet r=true ∨ ∃ t∈c.timers,t.call=r ∧ t.reqId=n
  due : ∀ n r,(r,n)∈c.waiting → c.isSet r=true → c.requestResults n=none →
    .expired r∈log ∨ c.closed=true
  cancelled : ∀ t∈c.timers,t.phase = .cancelled → c.closed=true
  oldSet : ∀ r,c.isSet r=true → r<k
  oldAsked : ∀ p r,p∈c.outgoingQueue ∨ p∈o.incoming → p.purpose = .request r → r<k
  oldReplied : ∀ p r,p∈o.outgoingQueue → p.purpose = .reply r → r<k

theorem Purpose.answered_eq_reply {purpose : Purpose} {call : ℕ} : purpose.answered = .reply call ↔ purpose = .request call := by
  cases purpose <;> simp [Purpose.answered]

namespace Pairing
variable {s : Side} {c o : WSChiaConnection} {k : ℕ} {log : List WSEvent}

theorem numbers_disjoint {n : ℕ} (h : s.Numbers n) (h' : s.peer.Numbers n) : False := by
  cases s with
  | outbound => exact absurd h (not_lt.mpr h'.1)
  | inbound => exact absurd h' (not_lt.mpr h.1)

theorem nextNonce_numbers {n : ℕ} (h : s.Numbers n) : s.Numbers (s.nextNonce n) := by
  cases s with
  | outbound =>
    unfold Side.Numbers Side.nextNonce at *
    dsimp only at *
    split_ifs <;> omega
  | inbound =>
    unfold Side.Numbers Side.nextNonce at *
    dsimp only at *
    split_ifs <;> omega

section
variable (h : Pairing s c o k log)
include h

theorem later {k' : ℕ} (hk : k≤k') (more : List WSEvent) : Pairing s c o k' (log++more) :=
  { h with
    pending := fun n r hn => ⟨(h.pending n r hn).1,(h.pending n r hn).2.1,(h.pending n r hn).2.2.trans_le hk⟩
    due := fun n r hw hs hr => (h.due n r hw hs hr).imp (List.mem_append_left _) id
    oldSet := fun r hr => (h.oldSet r hr).trans_le hk
    oldAsked := fun p r hp hr => (h.oldAsked p r hp hr).trans_le hk
    oldReplied := fun p r hp hr => (h.oldReplied p r hp hr).trans_le hk }

theorem createRequest (type : ℕ) (data : Bytes)
    (hfree : c.pendingRequests c.requestNonce=none) (htimers : ∀ t∈c.timers,t.reqId≠c.requestNonce)
    (hout : ∀ p∈c.outgoingQueue,p.message.id≠some c.requestNonce)
    (hin : ∀ p∈c.incoming,p.message.id≠some c.requestNonce)
    (hback : ∀ p∈o.outgoingQueue,p.message.id≠some c.requestNonce)
    (haway : ∀ p∈o.incoming,p.message.id≠some c.requestNonce) :
    Pairing s (c.createRequest s k type data) o (k+1) log := by
  have hfresh : ∀ n,(k,n)∉c.waiting := by
    intro n hn
    have := (h.pending n k (h.waiting n k hn)).2.2
    omega
  obtain ⟨nonce,pending,waiting,once,single,results,asked,replied,home,askedNumber,repliedNumber,
    timers,wakes,due,cancelled,oldSet,oldAsked,oldReplied⟩ := h
  unfold WSChiaConnection.createRequest
  constructor
  case nonce => exact nextNonce_numbers nonce
  all_goals try simp only [Function.update_apply,List.mem_append,List.mem_singleton]
  case pending => grind
  case waiting => grind
  case once => grind
  case single => grind
  case results => grind
  case asked => grind
  case replied => grind
  case home => grind
  case askedNumber => grind
  case repliedNumber => grind
  case timers => grind
  case wakes =>
    rintro n r (hw | heq)
    · rcases wakes n r hw with hset | ⟨t,ht,hcall,hid⟩
      · exact Or.inl hset
      · exact Or.inr ⟨t,Or.inl ht,hcall,hid⟩
    · obtain ⟨rfl,rfl⟩ := Prod.mk.inj heq
      exact Or.inr ⟨_,Or.inr rfl,rfl,rfl⟩
  case due =>
    rintro n r (hw | heq) hset hnone
    · exact due n r hw hset hnone
    · obtain ⟨rfl,-⟩ := Prod.mk.inj heq
      exact absurd (oldSet r hset) (lt_irrefl r)
  case cancelled => grind
  case oldSet => grind
  case oldAsked => grind
  case oldReplied => grind

theorem createRequest_peer (type : ℕ) (data : Bytes) (hnumber : s.peer.Numbers o.requestNonce) :
    Pairing s c (o.createRequest s.peer k type data) (k+1) log := by
  have hother : c.pendingRequests o.requestNonce=none := by
    by_contra hsome
    obtain ⟨r,hr⟩ := Option.ne_none_iff_exists'.mp hsome
    exact numbers_disjoint (h.pending _ r hr).2.1 hnumber
  obtain ⟨nonce,pending,waiting,once,single,results,asked,replied,home,askedNumber,repliedNumber,
    timers,wakes,due,cancelled,oldSet,oldAsked,oldReplied⟩ := h
  unfold WSChiaConnection.createRequest
  constructor
  all_goals try simp only [List.mem_append,List.mem_singleton]
  case nonce => exact nonce
  case pending => grind
  case waiting => exact waiting
  case once => exact once
  case single => exact single
  case results => exact results
  case asked => exact asked
  case replied => grind
  case home => exact home
  case askedNumber => exact askedNumber
  case repliedNumber => grind
  case timers => exact timers
  case wakes => exact wakes
  case due => exact due
  case cancelled => exact cancelled
  case oldSet => grind
  case oldAsked => grind
  case oldReplied => grind

theorem sendMessage (m : Message) (hid : m.id=none) :
    Pairing s { c with outgoingQueue := c.outgoingQueue++[⟨m,.other⟩] } o k log := by
  refine { h with asked := ?_,askedNumber := ?_,oldAsked := ?_ }
  all_goals simp only [List.mem_append,List.mem_singleton]
  · have hasked := h.asked
    grind
  · have hnumber := h.askedNumber
    grind
  · have hold := h.oldAsked
    grind

theorem sendMessage_peer (m : Message) (hid : m.id=none) :
    Pairing s c { o with outgoingQueue := o.outgoingQueue++[⟨m,.other⟩] } k log := by
  refine { h with replied := ?_,repliedNumber := ?_,oldReplied := ?_ }
  all_goals simp only [List.mem_append,List.mem_singleton]
  · have hreplied := h.replied
    grind
  · have hnumber := h.repliedNumber
    grind
  · have hold := h.oldReplied
    grind

theorem withTimers {timers' : List Timer} (hfrom : ∀ t∈timers',∃ t'∈c.timers,t'.call=t.call ∧ t'.reqId=t.reqId)
    (hkept : ∀ t∈c.timers,∃ t'∈timers',t'.call=t.call ∧ t'.reqId=t.reqId)
    (hcancelled : ∀ t∈timers',t.phase = .cancelled → c.closed=true) :
    Pairing s { c with timers := timers' } o k log := by
  have hown := h.timers
  have hwakes := h.wakes
  refine { h with timers := ?_,wakes := ?_,cancelled := hcancelled }
  · grind
  · grind

theorem withTimers_peer (timers' : List Timer) : Pairing s c { o with timers := timers' } k log := { h with }

end

variable {t : Timer}

theorem wake (h : Pairing s c o k log) (ht : t∈c.timers)
    (hdue : .expired t.call∈log ∨ c.closed=true) : Pairing s (c.wake t) o k log := by
  have htimers := h.timers
  have hcancelled := h.cancelled
  unfold WSChiaConnection.wake WSChiaConnection.setEvent
  dsimp only
  cases hpending : c.pendingRequests t.reqId with
  | none =>
    refine { h with timers := ?_,wakes := ?_,cancelled := ?_ }
    · grind
    · intro n r hw
      rcases h.wakes n r hw with hset | ⟨t',ht',hcall,hid⟩
      · exact Or.inl hset
      · have hne : t'≠t := by
          rintro rfl
          rw [hid,h.waiting n r hw] at hpending
          cases hpending
        exact Or.inr ⟨t',(List.mem_erase_of_ne hne).mpr ht',hcall,hid⟩
    · grind
  | some call =>
    obtain rfl := htimers t call ht hpending
    have hresults := h.results
    have hold := h.oldSet
    have hlt := (h.pending _ _ hpending).2.2
    refine { h with results := ?_,timers := ?_,wakes := ?_,due := ?_,cancelled := ?_,oldSet := ?_ }
    all_goals try simp only [Function.update_apply]
    · grind
    · grind
    · intro n r hw
      by_cases hr : r=t.call
      · left
        rw [if_pos hr]
      · rcases h.wakes n r hw with hset | ⟨t',ht',hcall,hid⟩
        · left
          rw [if_neg hr]
          exact hset
        · have hne : t'≠t := by
            rintro rfl
            exact hr hcall.symm
          exact Or.inr ⟨t',(List.mem_erase_of_ne hne).mpr ht',hcall,hid⟩
    · intro n r hw hset hnone
      by_cases hr : r=t.call
      · rw [hr]
        exact hdue
      · rw [if_neg hr] at hset
        exact h.due n r hw hset hnone
    · grind
    · grind

theorem wake_peer (h : Pairing s c o k log) (t : Timer) : Pairing s c (o.wake t) k log := by
  unfold WSChiaConnection.wake WSChiaConnection.setEvent
  dsimp only
  cases o.pendingRequests t.reqId with
  | none => exact { h with }
  | some call => exact { h with }

variable {p : Packet}

section
variable (h : Pairing s c o k log)
include h

theorem lose_peer (p : Packet) : Pairing s c { o with outgoingQueue := o.outgoingQueue.erase p } k log :=
  { h with
    replied := fun q n r hq => h.replied q n r (List.mem_of_mem_erase hq)
    repliedNumber := fun q n r hq => h.repliedNumber q n r (List.mem_of_mem_erase hq)
    oldReplied := fun q r hq => h.oldReplied q r (List.mem_of_mem_erase hq) }

theorem receiveOther (hother : ∀ n,p.message.id=some n → c.pendingRequests n=none) :
    Pairing s { c with incoming := c.incoming++[p] } { o with outgoingQueue := o.outgoingQueue.erase p } k log := by
  have hhome := h.home
  refine { h.lose_peer p with home := ?_ }
  simp only [List.mem_append,List.mem_singleton]
  grind

theorem receive (hp : p∈o.outgoingQueue) :
    Pairing s (c.receive p) { o with outgoingQueue := o.outgoingQueue.erase p } k log := by
  unfold WSChiaConnection.receive
  cases hid : p.message.id with
  | none =>
    apply h.receiveOther
    simp [hid]
  | some n =>
    dsimp only
    cases hpending : c.pendingRequests n with
    | none =>
      apply h.receiveOther
      simp [hid,hpending]
    | some call =>
      have hreply : p.purpose = .reply call := h.replied p n call hp hid hpending
      have hold : call<k := h.oldReplied p call hp hreply
      have hwaits : (call,n)∈c.waiting := (h.pending n call hpending).1
      have hset := h.oldSet
      dsimp only
      refine { h.lose_peer p with results := ?_,wakes := ?_,due := ?_,oldSet := ?_ }
      all_goals simp only [Function.update_apply]
      · intro n' q hq
        by_cases hn : n'=n
        · rw [if_pos hn,Option.some.injEq] at hq
          subst hn hq
          exact ⟨call,hpending,hreply,if_pos rfl⟩
        · rw [if_neg hn] at hq
          obtain ⟨r,hr,hpurpose,hset⟩ := h.results n' q hq
          exact ⟨r,hr,hpurpose,by rw [hset,ite_self]⟩
      · intro n' r hw
        rcases h.wakes n' r hw with hset | htimer
        · left
          rw [hset,ite_self]
        · exact Or.inr htimer
      · intro n' r hw hset hnone
        by_cases hn : n'=n
        · rw [if_pos hn] at hnone
          cases hnone
        · rw [if_neg hn] at hnone
          have hne : r≠call := by
            rintro rfl
            exact hn (h.single n' n r hw hwaits)
          rw [if_neg hne] at hset
          exact h.due n' r hw hset hnone
      · grind

theorem receive_peer (hp : p∈c.outgoingQueue) :
    Pairing s { c with outgoingQueue := c.outgoingQueue.erase p } (o.receive p) k log := by
  have hout : (o.receive p).outgoingQueue=o.outgoingQueue := by
    unfold WSChiaConnection.receive
    cases p.message.id with
    | none => rfl
    | some n =>
      dsimp only
      cases o.pendingRequests n <;> rfl
  have hin : ∀ q∈(o.receive p).incoming,q∈o.incoming ∨ q=p := by
    intro q hq
    unfold WSChiaConnection.receive at hq
    cases hid : p.message.id with
    | none =>
      rw [hid] at hq
      simpa using hq
    | some n =>
      rw [hid] at hq
      dsimp only at hq
      cases hpending : o.pendingRequests n with
      | none =>
        rw [hpending] at hq
        simpa using hq
      | some call =>
        rw [hpending] at hq
        exact Or.inl hq
  have hasked : ∀ q,q∈c.outgoingQueue.erase p ∨ q∈(o.receive p).incoming →
      q∈c.outgoingQueue ∨ q∈o.incoming := by
    rintro q (hq | hq)
    · exact Or.inl (List.mem_of_mem_erase hq)
    · rcases hin q hq with hq | rfl
      · exact Or.inr hq
      · exact Or.inl hp
  exact { h with
    asked := fun q n r hq => h.asked q n r (hasked q hq)
    replied := by rw [hout]; exact h.replied
    askedNumber := fun q n r hq => h.askedNumber q n r (hasked q hq)
    repliedNumber := by rw [hout]; exact h.repliedNumber
    oldAsked := fun q r hq => h.oldAsked q r (hasked q hq)
    oldReplied := by rw [hout]; exact h.oldReplied }

theorem lose (p : Packet) : Pairing s { c with outgoingQueue := c.outgoingQueue.erase p } o k log :=
  { h with
    asked := fun q n r hq => h.asked q n r (hq.imp List.mem_of_mem_erase id)
    askedNumber := fun q n r hq => h.askedNumber q n r (hq.imp List.mem_of_mem_erase id)
    oldAsked := fun q r hq => h.oldAsked q r (hq.imp List.mem_of_mem_erase id) }

theorem answer (hp : p∈c.incoming)
    (response : Option (ℕ × Bytes)) : Pairing s (c.answer p response) o k log := by
  have hless : Pairing s { c with incoming := c.incoming.erase p } o k log :=
    { h with home := fun q n hq => h.home q n (List.mem_of_mem_erase hq) }
  cases response with
  | none => exact hless
  | some content =>
    unfold WSChiaConnection.answer
    dsimp only
    by_cases hclosed : c.closed=true
    · rw [if_pos hclosed]
      exact hless
    · rw [if_neg hclosed]
      have hpurpose : ∀ r,p.purpose.answered ≠ .request r := by
        intro r
        cases p.purpose <;> exact nofun
      refine { hless with asked := ?_,askedNumber := ?_,oldAsked := ?_ }
      all_goals simp only [List.mem_append,List.mem_singleton]
      · rintro q n r ((hq | rfl) | hq) hid hr
        · exact h.asked q n r (Or.inl hq) hid hr
        · rw [h.home p n hp hid] at hr
          cases hr
        · exact h.asked q n r (Or.inr hq) hid hr
      · rintro q n r ((hq | rfl) | hq) hr hw
        · exact h.askedNumber q n r (Or.inl hq) hr hw
        · exact absurd hr (hpurpose r)
        · exact h.askedNumber q n r (Or.inr hq) hr hw
      · rintro q r ((hq | rfl) | hq) hr
        · exact h.oldAsked q r (Or.inl hq) hr
        · exact absurd hr (hpurpose r)
        · exact h.oldAsked q r (Or.inr hq) hr

theorem answer_peer (hp : p∈o.incoming)
    (response : Option (ℕ × Bytes)) : Pairing s c (o.answer p response) k log := by
  have hasked := fun n r => h.asked p n r (Or.inr hp)
  have hnumber := fun n r => h.askedNumber p n r (Or.inr hp)
  have hold := fun r => h.oldAsked p r (Or.inr hp)
  have hless : Pairing s c { o with incoming := o.incoming.erase p } k log :=
    { h with
      asked := fun q n r hq => h.asked q n r (hq.imp id List.mem_of_mem_erase)
      askedNumber := fun q n r hq => h.askedNumber q n r (hq.imp id List.mem_of_mem_erase)
      oldAsked := fun q r hq => h.oldAsked q r (hq.imp id List.mem_of_mem_erase) }
  cases response with
  | none => exact hless
  | some content =>
    unfold WSChiaConnection.answer
    dsimp only
    by_cases hclosed : o.closed=true
    · rw [if_pos hclosed]
      exact hless
    · rw [if_neg hclosed]
      refine { hless with replied := ?_,repliedNumber := ?_,oldReplied := ?_ }
      all_goals simp only [List.mem_append,List.mem_singleton]
      · rintro q n r (hq | rfl) hid hr
        · exact h.replied q n r hq hid hr
        · dsimp only at hid ⊢
          rw [hasked n r hid hr]
          rfl
      · rintro q n r (hq | rfl) hr hw
        · exact h.repliedNumber q n r hq hr hw
        · dsimp only at hr ⊢
          exact hnumber n r (Purpose.answered_eq_reply.mp hr) hw
      · rintro q r (hq | rfl) hr
        · exact h.oldReplied q r hq hr
        · dsimp only at hr
          exact hold r (Purpose.answered_eq_reply.mp hr)

theorem resume {call reqId : ℕ} (hw : (call,reqId)∈c.waiting) : Pairing s (c.resume call reqId) o k log := by
  obtain ⟨nonce,pending,waiting,once,single,results,asked,replied,home,askedNumber,repliedNumber,
    timers,wakes,due,cancelled,oldSet,oldAsked,oldReplied⟩ := h
  have hcall := waiting reqId call hw
  have herase : ∀ r n,(r,n)∈c.waiting.erase (call,reqId) ↔ n≠reqId ∧ (r,n)∈c.waiting := by
    intro r n
    rw [once.mem_erase_iff]
    constructor
    · rintro ⟨hne,hmem⟩
      refine ⟨?_,hmem⟩
      rintro rfl
      have hr := waiting n r hmem
      rw [hcall] at hr
      obtain rfl := Option.some.inj hr
      exact hne rfl
    · rintro ⟨hne,hmem⟩
      refine ⟨?_,hmem⟩
      intro heq
      exact hne (Prod.mk.inj heq).2
  unfold WSChiaConnection.resume
  constructor
  all_goals try simp only [Function.update_apply,herase]
  case once => exact once.erase _
  case pending => grind
  case waiting => grind
  case single => grind
  case results =>
    intro n p hp
    by_cases hn : n=reqId
    · rw [if_pos hn] at hp
      cases hp
    · rw [if_neg hn] at hp ⊢
      exact results n p hp
  case asked => grind
  case replied => grind
  case home => grind
  case askedNumber => grind
  case repliedNumber => grind
  case timers => grind
  case wakes => exact fun n r hmem => wakes n r hmem.2
  case due =>
    intro n r hmem hset hnone
    rw [if_neg hmem.1] at hnone
    exact due n r hmem.2 hset hnone
  all_goals assumption

theorem close : Pairing s { c with closed := true } o k log :=
  { h with
    due := fun _ _ _ _ _ => Or.inr rfl
    cancelled := fun _ _ _ => rfl }

theorem cancelTimeouts (hclosed : c.closed=true) (hbegun : ∀ t∈c.timers,t.phase ≠ .scheduled) :
    Pairing s { c with timers := c.timers.filterMap c.cancelTimer } o k log := by
  have hsome : ∀ t∈c.timers,∃ t',c.cancelTimer t=some t' ∧ t'.call=t.call ∧ t'.reqId=t.reqId := by
    intro t ht
    unfold WSChiaConnection.cancelTimer
    by_cases hlast : c.pendingTimeouts t.reqId=some t.call
    · rw [if_pos hlast]
      cases hphase : t.phase with
      | scheduled => exact absurd hphase (hbegun t ht)
      | sleeping => exact ⟨_,rfl,rfl,rfl⟩
      | cancelled => exact ⟨_,rfl,rfl,rfl⟩
    · rw [if_neg hlast]
      exact ⟨t,rfl,rfl,rfl⟩
  apply h.withTimers
  · intro t ht
    obtain ⟨t',ht',heq⟩ := List.mem_filterMap.mp ht
    obtain ⟨u,hu,hcall,hid⟩ := hsome t' ht'
    obtain rfl := Option.some.inj (heq.symm.trans hu)
    exact ⟨t',ht',hcall.symm,hid.symm⟩
  · intro t ht
    obtain ⟨u,hu,hcall,hid⟩ := hsome t ht
    exact ⟨u,List.mem_filterMap.mpr ⟨t,ht,hu⟩,hcall,hid⟩
  · exact fun _ _ _ => hclosed

theorem startTimer (ht : t∈c.timers) :
    Pairing s { c with timers := c.timers.erase t++[{ t with phase := .sleeping }] } o k log := by
  apply h.withTimers
  · intro u hu
    rcases List.mem_append.mp hu with hu | hu
    · exact ⟨u,List.mem_of_mem_erase hu,rfl,rfl⟩
    · rw [List.mem_singleton.mp hu]
      exact ⟨t,ht,rfl,rfl⟩
  · intro u hu
    by_cases heq : u=t
    · rw [heq]
      exact ⟨_,List.mem_append_right _ (List.mem_singleton.mpr rfl),rfl,rfl⟩
    · exact ⟨u,List.mem_append_left _ ((List.mem_erase_of_ne heq).mpr hu),rfl,rfl⟩
  · intro u hu hphase
    rcases List.mem_append.mp hu with hu | hu
    · exact h.cancelled u (List.mem_of_mem_erase hu) hphase
    · rw [List.mem_singleton.mp hu] at hphase
      cases hphase

end

end Pairing

namespace RequestLink

/-- The calls and their replies are matched. -/
structure Matched (net : RequestLink) : Prop where
  /-- What a call returns is the reply to it, or nothing when that is due. -/
  returns : ∀ s call result due,.returned s call result due∈net.log →
    (∀ p,result=some p → p.purpose = .reply call) ∧ (result=none → due=true)
  /-- No reply goes to the API while its call waits. -/
  handed : ∀ s p,.handed s p true∉net.log
  raised : ∀ s,.raised s∉net.log
  /-- Entries of the dictionaries are for calls that wait, and no request is taken for a reply. -/
  pending : ∀ s n call,(net.conn s).pendingRequests n=some call → (call,n)∈(net.conn s).waiting
  results : ∀ s n p,(net.conn s).requestResults n=some p →
    ∃ call,(call,n)∈(net.conn s).waiting ∧ p.purpose = .reply call
  /-- A call that waits can go on, or has a timer that will let it. -/
  wakes : ∀ s n call,(call,n)∈(net.conn s).waiting → (net.conn s).isSet call=true ∨
    ∃ t∈(net.conn s).timers,t.call=call ∧ t.reqId=n

/-- No message with a number is on its way or with the API. -/
def NoTrace (net : RequestLink) (n : ℕ) : Prop :=
  ∀ side,(∀ p∈(net.conn side).outgoingQueue,p.message.id≠some n) ∧
    ∀ p∈(net.conn side).incoming,p.message.id≠some n

/-- A number is issued again only when nothing is left of the earlier request, and only begun timers
are cancelled. -/
def Careful (net : RequestLink) : WSAction → Prop
  | .createRequest s _ _ =>
    let n := (net.conn s).requestNonce
    (net.conn s).pendingRequests n=none ∧ (∀ t∈(net.conn s).timers,t.reqId≠n) ∧ net.NoTrace n
  | .cancelPendingTimeouts s => ∀ t∈(net.conn s).timers,t.phase ≠ .scheduled
  | _ => True

/-- What holds in a careful run. -/
structure Sound (net : RequestLink) : Prop where
  sides : ∀ s,Pairing s (net.conn s) (net.conn s.peer) net.calls net.log
  returns : ∀ s call result due,.returned s call result due∈net.log →
    (∀ p,result=some p → p.purpose = .reply call) ∧ (result=none → due=true)
  handed : ∀ s p,.handed s p true∉net.log
  raised : ∀ s,.raised s∉net.log

variable {net : RequestLink} {s : Side}

theorem sides_of (h : Pairing s (net.conn s) (net.conn s.peer) net.calls net.log)
    (hpeer : Pairing s.peer (net.conn s.peer) (net.conn s) net.calls net.log) :
    ∀ x : Side,Pairing x (net.conn x) (net.conn x.peer) net.calls net.log := by
  intro x
  cases s <;> cases x <;> assumption

section
variable (h : Sound net)
include h

theorem Sound.matched : Matched net where
  returns := h.returns
  handed := h.handed
  raised := h.raised
  pending := fun s n call hn => ((h.sides s).pending n call hn).1
  results := by
    intro s n p hp
    obtain ⟨call,hcall,hpurpose,-⟩ := (h.sides s).results n p hp
    exact ⟨call,((h.sides s).pending n call hcall).1,hpurpose⟩
  wakes := fun s n call => (h.sides s).wakes n call

theorem Sound.quiet (net' : RequestLink) (hlog : net'.log=net.log)
    (hsides : ∀ s,Pairing s (net'.conn s) (net'.conn s.peer) net'.calls net'.log) : Sound net' where
  sides := hsides
  returns := by rw [hlog]; exact h.returns
  handed := by rw [hlog]; exact h.handed
  raised := by rw [hlog]; exact h.raised

theorem Sound.note (e : WSEvent)
    (hreturned : ∀ s call result due,e = .returned s call result due →
      (∀ p,result=some p → p.purpose = .reply call) ∧ (result=none → due=true))
    (hhanded : ∀ s p,e ≠ .handed s p true) (hraised : ∀ s,e ≠ .raised s) : Sound (net.note e) where
  sides := fun s => (h.sides s).later (Nat.le_refl _) [e]
  returns := by
    intro s call result due hmem
    rcases List.mem_append.mp hmem with hmem | hmem
    · exact h.returns s call result due hmem
    · exact hreturned s call result due (List.mem_singleton.mp hmem).symm
  handed := by
    intro s p hmem
    rcases List.mem_append.mp hmem with hmem | hmem
    · exact h.handed s p hmem
    · exact hhanded s p (List.mem_singleton.mp hmem).symm
  raised := by
    intro s hmem
    rcases List.mem_append.mp hmem with hmem | hmem
    · exact h.raised s hmem
    · exact hraised s (List.mem_singleton.mp hmem).symm

theorem Sound.set {c : WSChiaConnection} (hown : Pairing s c (net.conn s.peer) net.calls net.log)
    (hpeer : Pairing s.peer (net.conn s.peer) c net.calls net.log) : Sound (net.set s c) := by
  apply h.quiet (net.set s c) rfl
  apply sides_of (s := s)
  · rw [set_conn_self,set_conn_peer]
    exact hown
  · rw [set_conn_self,set_conn_peer]
    exact hpeer

theorem Sound.peer (s : Side) : Pairing s.peer (net.conn s.peer) (net.conn s) net.calls net.log := by
  have hpeer := h.sides s.peer
  rw [Side.peer_peer] at hpeer
  exact hpeer

end

theorem start_sound : Sound start where
  sides := by
    intro s
    constructor
    case nonce => cases s <;> unfold Side.Numbers <;> decide
    case once => exact List.nodup_nil
    all_goals exact nofun
  returns := nofun
  handed := nofun
  raised := nofun

theorem createRequest_sound (h : Sound net) {type : ℕ} {data : Bytes}
    (hcareful : Careful net (.createRequest s type data)) : Sound (net.createRequest s type data) := by
  obtain ⟨hfree,htimers,htrace⟩ := hcareful
  have hmore : Sound { net with calls := net.calls+1 } := by
    refine h.quiet _ ?_ ?_
    · rfl
    intro x
    have hlater := (h.sides x).later (Nat.le_succ _) []
    rw [List.append_nil] at hlater
    exact hlater
  unfold createRequest
  dsimp only
  by_cases hclosed : (net.conn s).closed=true
  · rw [if_pos hclosed]
    apply hmore.note
    · intro s' call result due heq
      cases heq
      exact ⟨nofun,fun _ => rfl⟩
    · exact nofun
    · exact nofun
  · rw [if_neg hclosed]
    apply hmore.set
    · exact (h.sides s).createRequest type data hfree htimers (htrace s).1 (htrace s).2
        (htrace s.peer).1 (htrace s.peer).2
    · have hpeer := (h.peer s).createRequest_peer type data
        (by rw [Side.peer_peer]; exact (h.sides s).nonce)
      rw [Side.peer_peer] at hpeer
      exact hpeer

theorem deliver_sound (h : Sound net) {p : Packet} (hp : p∈(net.conn s.peer).outgoingQueue) :
    Sound (net.deliver s p) := by
  have hnet : Sound ((net.set s.peer
      { net.conn s.peer with outgoingQueue := (net.conn s.peer).outgoingQueue.erase p }).set s
        ((net.conn s).receive p)) := by
    refine h.quiet _ ?_ ?_
    · rfl
    apply sides_of (s := s)
    · rw [set_conn_self,set_conn_peer,set_conn_self]
      exact (h.sides s).receive hp
    · rw [set_conn_self,set_conn_peer,set_conn_self]
      exact (h.peer s).receive_peer hp
  unfold deliver
  dsimp only
  by_cases hsome : ((net.conn s).pendingFor p.message.id).isSome=true
  · rw [if_pos hsome]
    exact hnet
  · rw [if_neg hsome]
    apply hnet.note
    · exact nofun
    · intro s' q heq
      have hwaits : (net.conn s).waitsFor p=true := (WSEvent.handed.inj heq).2.2
      unfold WSChiaConnection.waitsFor at hwaits
      cases hpurpose : p.purpose with
      | reply call =>
        rw [hpurpose] at hwaits
        obtain ⟨⟨call',n⟩,hw,hcall⟩ := List.any_eq_true.mp hwaits
        obtain rfl := of_decide_eq_true hcall
        have hid := (h.sides s).repliedNumber p n _ hp hpurpose hw
        have hpending := (h.sides s).waiting n _ hw
        unfold WSChiaConnection.pendingFor at hsome
        rw [hid,Option.bind_some,hpending] at hsome
        exact hsome rfl
      | request call =>
        rw [hpurpose] at hwaits
        exact Bool.false_ne_true hwaits
      | other =>
        rw [hpurpose] at hwaits
        exact Bool.false_ne_true hwaits
    · exact nofun

theorem resume_sound (h : Sound net) {call reqId : ℕ} (hw : (call,reqId)∈(net.conn s).waiting)
    (hset : (net.conn s).isSet call=true) : Sound (net.resume s call reqId) := by
  have hpending := (h.sides s).waiting reqId call hw
  have hnet : Sound (net.set s ((net.conn s).resume call reqId)) :=
    h.set ((h.sides s).resume hw) { h.peer s with }
  unfold resume
  dsimp only
  rw [hpending,if_neg (by exact nofun)]
  apply hnet.note
  · intro s' call' result due heq
    obtain ⟨rfl,rfl,hresult,hdue⟩ := WSEvent.returned.inj heq
    constructor
    · intro p hp
      rw [← hresult] at hp
      obtain ⟨r,hr,hpurpose,-⟩ := (h.sides s).results reqId p hp
      obtain rfl := Option.some.inj (hpending.symm.trans hr)
      exact hpurpose
    · intro hnone
      rw [← hresult] at hnone
      rw [← hdue,Bool.or_eq_true]
      rcases (h.sides s).due reqId call hw hset hnone with hexpired | hclosed
      · exact Or.inr (List.contains_iff_mem.mpr hexpired)
      · exact Or.inl hclosed
  · exact nofun
  · exact nofun

theorem Sound.step (h : Sound net) {a : WSAction} (henabled : net.Enabled a) (hcareful : Careful net a) :
    Sound (net.step a) := by
  cases a with
  | createRequest s type data => exact createRequest_sound h hcareful
  | sendMessage s type data =>
    exact h.set ((h.sides s).sendMessage _ rfl) ((h.peer s).sendMessage_peer _ rfl)
  | startTimer s t => exact h.set ((h.sides s).startTimer henabled.1) ((h.peer s).withTimers_peer _)
  | timeOut s t =>
    have hnoted : Sound (net.note (.expired t.call)) := h.note _ nofun nofun nofun
    have hwoken := hnoted.set
      ((hnoted.sides s).wake henabled.1 (Or.inl (List.mem_append_right _ (List.mem_singleton.mpr rfl))))
      ((hnoted.peer s).wake_peer t)
    exact hwoken
  | wakeCancelled s t =>
    have hclosed := (h.sides s).cancelled t henabled.1 henabled.2
    exact h.set ((h.sides s).wake henabled.1 (Or.inr hclosed)) ((h.peer s).wake_peer t)
  | deliver s p => exact deliver_sound h henabled.1
  | lose s p => exact h.set ((h.sides s).lose p) ((h.peer s).lose_peer p)
  | answer s p response =>
    exact h.set ((h.sides s).answer henabled response) ((h.peer s).answer_peer henabled response)
  | resume s call reqId => exact resume_sound h henabled.1 henabled.2
  | close s => exact h.set (h.sides s).close { h.peer s with }
  | cancelPendingTimeouts s =>
    exact h.set ((h.sides s).cancelTimeouts henabled hcareful) ((h.peer s).withTimers_peer _)

theorem Run.sound (h : Run Careful net) : Sound net := by
  induction h with
  | start => exact start_sound
  | step _ henabled hcareful ih => exact ih.step henabled hcareful

def betweenRequests (n k : ℕ) (timers : List Timer) (timeouts : ℕ → Option ℕ) (isSet : ℕ → Bool)
    (log : List WSEvent) : RequestLink where
  conn := fun s => match s with
    | .outbound =>
      { WSChiaConnection.start .outbound with
        requestNonce := n,timers := timers,pendingTimeouts := timeouts,isSet := isSet }
    | .inbound => WSChiaConnection.start .inbound
  calls := k
  log := log

def asks (n k : ℕ) : Packet := ⟨⟨0,some n,[]⟩,.request k⟩
def replies (n k : ℕ) : Packet := ⟨⟨0,some n,[]⟩,.reply k⟩

def roundTrip (n k : ℕ) : List WSAction :=
  [.createRequest .outbound 0 [],.startTimer .outbound ⟨k,n,.scheduled⟩,
    .deliver .inbound (asks n k),.answer .inbound (asks n k) (some (0,[])),
    .deliver .outbound (replies n k),.resume .outbound k n]

variable {n k : ℕ} {timers : List Timer} {timeouts : ℕ → Option ℕ} {isSet : ℕ → Bool}
    {log : List WSEvent}

/-- The proviso on request numbers: the earlier request is not pending, and no reply is on its way. -/
def Provided (net : RequestLink) : WSAction → Prop
  | .createRequest s _ _ =>
    let n := (net.conn s).requestNonce
    (net.conn s).pendingRequests n=none ∧
      ∀ side,∀ p∈(net.conn side).outgoingQueue,p.message.id=some n → ∀ call,p.purpose ≠ .reply call
  | _ => True

def CanTake (P : RequestLink → WSAction → Prop) : RequestLink → List WSAction → Prop
  | _,[] => True
  | net,a::more => net.Enabled a ∧ P net a ∧ CanTake P (net.step a) more

theorem Run.take {P : RequestLink → WSAction → Prop} {net : RequestLink} {actions : List WSAction} (h : Run P net)
    (hcan : CanTake P net actions) : Run P (actions.foldl RequestLink.step net) := by
  induction actions generalizing net with
  | nil => exact h
  | cons a more ih => exact ih (h.step hcan.1 hcan.2.1) hcan.2.2

/-- Two requests of one side that are answered, and one of the other side that times out. -/
def threeRequests : List WSAction :=
  roundTrip 0 0++roundTrip 1 1++[.createRequest .inbound 0 [],.startTimer .inbound ⟨2,2^15,.scheduled⟩,
    .timeOut .inbound ⟨2,2^15,.sleeping⟩,.resume .inbound 2 (2^15)]

theorem threeRequests_canTake : CanTake Careful start threeRequests := by
  unfold threeRequests roundTrip
  simp only [CanTake,List.cons_append,List.nil_append]
  and_intros
  -- the numbers are new; all else is that the packet, the timer or the call is there
  all_goals first
    | trivial
    | decide
    | exact List.mem_singleton_self _
    | (intro side; cases side <;> decide)

variable (timeouts isSet log) in
theorem roundTrip_state (h : ⟨k,n,.scheduled⟩∉timers) : ∃ log',(∀ call,.expired call∉log') ∧
      (roundTrip n k).foldl RequestLink.step (betweenRequests n k timers timeouts isSet log) =
        betweenRequests (Side.nextNonce .outbound n) (k+1) (timers++[⟨k,n,.sleeping⟩])
          (Function.update timeouts n (some k)) (Function.update isSet k true) (log++log') := by
  refine ⟨[.handed .inbound (asks n k) false,
    .returned .outbound k (some (replies n k)) (decide (.expired k∈log))],by simp,?_⟩
  simp [roundTrip,RequestLink.step,createRequest,deliver,resume,betweenRequests,
    WSChiaConnection.createRequest,WSChiaConnection.receive,WSChiaConnection.answer,
    WSChiaConnection.resume,WSChiaConnection.start,set,note,Side.peer,asks,replies,
    WSChiaConnection.pendingFor,WSChiaConnection.waitsFor,Purpose.answered,List.erase_append,h]
  funext s
  cases s <;> rfl

theorem roundTrip_canTake (h : ⟨k,n,.scheduled⟩∉timers) :
    CanTake Provided (betweenRequests n k timers timeouts isSet log) (roundTrip n k) := by
  simp [CanTake,Enabled,Provided,roundTrip,RequestLink.step,createRequest,deliver,
    betweenRequests,WSChiaConnection.createRequest,WSChiaConnection.receive,
    WSChiaConnection.answer,WSChiaConnection.start,set,note,Side.peer,asks,replies,
    WSChiaConnection.pendingFor,Purpose.answered,List.erase_append,h]
  intro side p hp
  cases side <;> cases hp

theorem roundTrips (k : ℕ) (hk : k≤2^15) : ∃ timers timeouts isSet log,
    Run Provided (betweenRequests (k % 2^15) k timers timeouts isSet log) ∧
      (∀ t∈timers,t.call<k) ∧ (0<k → ⟨0,0,.sleeping⟩∈timers) ∧ ∀ call,.expired call∉log := by
  induction k with
  | zero =>
    have hstart : start=betweenRequests (0 % 2^15) 0 [] (fun _ => none) (fun _ => false) [] := by
      unfold start betweenRequests
      congr
      funext s
      cases s <;> rfl
    refine ⟨[],fun _ => none,fun _ => false,[],?_,nofun,nofun,nofun⟩
    rw [← hstart]
    exact Run.start
  | succ k ih =>
    obtain ⟨timers,timeouts,isSet,log,hrun,hcalls,hfirst,hlog⟩ := ih (by omega)
    have hnew : ⟨k,k % 2^15,.scheduled⟩∉timers := fun hmem => absurd (hcalls _ hmem) (lt_irrefl k)
    obtain ⟨log',hlog',hstate⟩ := roundTrip_state timeouts isSet log hnew
    have hnext := hrun.take (roundTrip_canTake hnew)
    have hnonce : Side.nextNonce .outbound (k % 2^15)=(k+1) % 2^15 := by
      unfold Side.nextNonce
      dsimp only
      split_ifs <;> omega
    rw [hstate,hnonce] at hnext
    refine ⟨_,_,_,_,hnext,?_,?_,?_⟩
    · intro t ht
      rcases List.mem_append.mp ht with ht | ht
      · exact (hcalls t ht).trans (Nat.lt_succ_self k)
      · rw [List.mem_singleton.mp ht]
        exact Nat.lt_succ_self k
    · intro _
      rcases Nat.eq_zero_or_pos k with rfl | hpos
      · exact List.mem_append_right _ (List.mem_singleton.mpr rfl)
      · exact List.mem_append_left _ (hfirst hpos)
    · intro call hmem
      rcases List.mem_append.mp hmem with hmem | hmem
      · exact hlog call hmem
      · exact hlog' call hmem

/-- A request under a number whose earlier timer still sleeps, woken by it. -/
def staleWake (k : ℕ) : List WSAction :=
  [.createRequest .outbound 0 [],.timeOut .outbound ⟨0,0,.sleeping⟩,.resume .outbound k 0]

theorem staleWake_canTake (h : ⟨0,0,.sleeping⟩∈timers) :
    CanTake Provided (betweenRequests 0 k timers timeouts isSet log) (staleWake k) := by
  simp [CanTake,Enabled,Provided,staleWake,RequestLink.step,createRequest,
    betweenRequests,WSChiaConnection.createRequest,WSChiaConnection.wake,WSChiaConnection.setEvent,
    WSChiaConnection.start,set,note,h]
  intro side p hp
  cases side <;> cases hp

theorem staleWake_returns (hk : k≠0) (hlog : .expired k∉log) :
    .returned .outbound k none false∈((staleWake k).foldl RequestLink.step
      (betweenRequests 0 k timers timeouts isSet log)).log := by
  simp [staleWake,RequestLink.step,createRequest,resume,betweenRequests,WSChiaConnection.createRequest,
    WSChiaConnection.wake,WSChiaConnection.setEvent,WSChiaConnection.start,set,note,hlog,hk]

theorem cancelledEarly_unmatched : ∃ net,Run Provided net ∧ ¬ Matched net := by
  have hcan : CanTake Provided start
      [.createRequest .outbound 0 [],.close .outbound,.cancelPendingTimeouts .outbound] := by
    refine ⟨trivial,⟨rfl,?_⟩,trivial,trivial,rfl,trivial,trivial⟩
    intro side p hp
    cases side <;> cases hp
  refine ⟨_,Run.start.take hcan,?_⟩
  intro hmatched
  rcases hmatched.wakes .outbound 0 0 (by decide) with hset | ⟨t,ht,-⟩
  · exact absurd hset (by decide)
  · exact List.not_mem_nil ht

end RequestLink
end RoseChain
