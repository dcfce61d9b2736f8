import RoseChain.FullNode.Store

namespace RoseChain
open Lib

def World.due (w : World) (i : Option (ℕ × PyErr)) : World := { w with interrupt := i }

variable {α β : Type} {m : NodeM α}

@[simp] theorem due_interrupt (w : World) (i : Option (ℕ × PyErr)) : (w.due i).interrupt=i := rfl

@[simp] theorem due_due (w : World) (i j : Option (ℕ × PyErr)) : (w.due i).due j=w.due j := rfl

theorem due_of_eq {w : World} {i : Option (ℕ × PyErr)} (h : w.interrupt=i) : w.due i=w := by
  cases w
  subst h
  rfl

/-- With an interruption due, a computation does what it does without one, or it is cut short. -/
structure Interruptible (m : NodeM α) : Prop where
  calm : ∀ w : World,w.interrupt=none → (m w).2.interrupt=none
  cut : ∀ (w : World) k e,(∃ k',m (w.due (some (k,e))) =
      ((m (w.due none)).1,(m (w.due none)).2.due (some (k',e)))) ∨
    ∃ f s,m (w.due (some (k,e)))=(.error f,s) ∧ s.interrupt=none

theorem interruptible_still (r : Check α) : Interruptible fun w => (r,w) :=
  ⟨fun _ h => h,fun _ k _ => Or.inl ⟨k,rfl⟩⟩

theorem interruptible_pure (a : α) : Interruptible (pure a : NodeM α) := interruptible_still _

theorem interruptible_lift (x : Check α) : Interruptible (Eff.lift x) := interruptible_still _

theorem interruptible_fail (e : Fail) : Interruptible (Eff.fail e : NodeM α) := interruptible_still _

theorem Interruptible.bind {f : α → NodeM β} (hm : Interruptible m) (hf : ∀ a,Interruptible (f a)) :
    Interruptible (m >>= f) := by
  refine ⟨fun w hw => ?_,fun w k e => ?_⟩
  · have hs := hm.calm w hw
    rcases hr : m w with ⟨a | a,s⟩
    · rw [Eff.bind_of_error hr]
      simpa [hr] using hs
    · rw [Eff.bind_of_ok hr]
      exact (hf a).calm s (by simpa [hr] using hs)
  · have hs := hm.calm (w.due none) rfl
    rcases hr : m (w.due none) with ⟨a | a,s⟩ <;> rw [hr] at hs
    · rcases hm.cut w k e with ⟨k',hk⟩ | ⟨f',s',hcut,hs'⟩
      · rw [hr] at hk
        rw [Eff.bind_of_error hr,Eff.bind_of_error hk]
        exact Or.inl ⟨k',rfl⟩
      · rw [Eff.bind_of_error hcut]
        exact Or.inr ⟨f',s',rfl,hs'⟩
    · rcases hm.cut w k e with ⟨k',hk⟩ | ⟨f',s',hcut,hs'⟩
      · rw [hr] at hk
        rw [Eff.bind_of_ok hr,Eff.bind_of_ok hk]
        have hcut := (hf a).cut s k' e
        rwa [due_of_eq hs] at hcut
      · rw [Eff.bind_of_error hcut]
        exact Or.inr ⟨f',s',rfl,hs'⟩

theorem Interruptible.read {f : World → NodeM α} (hd : ∀ (w : World) i,f (w.due i)=f w)
    (hf : ∀ w,Interruptible (f w)) : Interruptible (Eff.get >>= f) := by
  refine ⟨fun w hw => (hf w).calm w hw,fun w k e => ?_⟩
  have hcut := (hf w).cut w k e
  simpa [hd] using hcut

theorem interruptible_modify {f : World → World} (hf : ∀ (w : World) i,f (w.due i)=(f w).due i) :
    Interruptible (Eff.modify f) := by
  refine ⟨fun w hw => ?_,fun w k e => Or.inl ⟨k,?_⟩⟩
  · rw [Eff.modify_apply,← due_of_eq hw,hf]
    rfl
  · simp [hf]

theorem Interruptible.mapAnswer (h : Interruptible m) {f : Check α → Check β}
    (hf : ∀ e,∃ e',f (.error e) = .error e') : Interruptible fun w => (f (m w).1,(m w).2) := by
  refine ⟨h.calm,fun w k e => ?_⟩
  rcases h.cut w k e with ⟨k',hk⟩ | ⟨e',s,hcut,hs⟩
  · exact Or.inl ⟨k',by rw [hk]⟩
  · obtain ⟨e'',he⟩ := hf e'
    exact Or.inr ⟨e'',s,by rw [hcut,he],hs⟩

theorem await_interruptible : Interruptible await := by
  refine ⟨fun w hw => ?_,fun w k e => ?_⟩
  · unfold await
    rw [hw]
    exact hw
  · cases k with
    | zero => exact Or.inr ⟨_,_,rfl,rfl⟩
    | succ k => exact Or.inl ⟨k,rfl⟩

theorem fetch_interruptible (q : Tables → α) : Interruptible (fetch q) :=
  await_interruptible.bind fun _ => .read (fun _ _ => rfl) fun _ => await_interruptible.bind fun _ =>
    interruptible_pure _

theorem modifyCoinCache_interruptible
    (f : LRUCache Bytes32 CoinRecord → LRUCache Bytes32 CoinRecord) : Interruptible (modifyCoinCache f) :=
  interruptible_modify fun _ _ => rfl

theorem modifyBlockCache_interruptible
    (f : LRUCache Bytes32 FullBlock → LRUCache Bytes32 FullBlock) : Interruptible (modifyBlockCache f) :=
  interruptible_modify fun _ _ => rfl

namespace BlockStore

theorem getFullBlock_interruptible (headerHash : Bytes32) : Interruptible (getFullBlock headerHash) := by
  refine .read (fun _ _ => rfl) fun w => (modifyBlockCache_interruptible _).bind fun _ => ?_
  split
  · exact interruptible_pure _
  · refine (fetch_interruptible _).bind fun row => ?_
    cases row with
    | none => exact interruptible_pure _
    | some row => exact (modifyBlockCache_interruptible _).bind fun _ => interruptible_pure _

theorem getBlockRecord_interruptible (headerHash : Bytes32) : Interruptible (getBlockRecord headerHash) :=
  (fetch_interruptible _).bind fun _ => interruptible_pure _

end BlockStore

namespace CoinStore
variable (E : Env)

theorem getCoinRecord_interruptible (name : Bytes32) : Interruptible (getCoinRecord E name) := by
  refine .read (fun _ _ => rfl) fun w => (modifyCoinCache_interruptible _).bind fun _ => ?_
  split
  · exact interruptible_pure _
  · refine (fetch_interruptible _).bind fun record => ?_
    cases record with
    | none => exact interruptible_pure _
    | some record => exact (modifyCoinCache_interruptible _).bind fun _ => interruptible_pure _

end CoinStore
end RoseChain
