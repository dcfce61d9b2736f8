import RoseChain.FullNode.NodeStore

namespace RoseChain
open Lib FullNodeStore
namespace NodeStore
variable {E : Env} {V : BlockView} {s s' s'' : NodeStore} {now : ℕ} {k : Bytes32}

def waiting (s : NodeStore) (k : Bytes32) : ℕ :=
  ((s.futureEosCache.get? k).getD []).length+((s.futureSpCache.get? k).getD []).length +
    ((s.futureIpCache.get? k).getD []).length

def Cached (s : NodeStore) (k : Bytes32) : Prop :=
  (s.futureEosCache.get? k).isSome ∨ (s.futureSpCache.get? k).isSome ∨ (s.futureIpCache.get? k).isSome

/-- Nothing is different about a challenge. -/
structure SameAt (k : Bytes32) (s s' : NodeStore) : Prop where
  eos : s'.futureEosCache.get? k=s.futureEosCache.get? k
  sp : s'.futureSpCache.get? k=s.futureSpCache.get? k
  ip : s'.futureIpCache.get? k=s.futureIpCache.get? k
  time : s'.futureCacheKeyTimes.get? k=s.futureCacheKeyTimes.get? k

/-- More waits for a challenge, and its time is now. -/
structure GrownAt (now : ℕ) (k : Bytes32) (s s' : NodeStore) : Prop where
  time : s'.futureCacheKeyTimes.get? k=some now
  waiting : s.waiting k<s'.waiting k

def Grows (now : ℕ) (s s' : NodeStore) : Prop := ∀ k,SameAt k s s' ∨ GrownAt now k s s'

theorem SameAt.refl : SameAt k s s := ⟨rfl,rfl,rfl,rfl⟩

theorem SameAt.trans (h : SameAt k s s') (h' : SameAt k s' s'') : SameAt k s s'' :=
  ⟨h'.eos.trans h.eos,h'.sp.trans h.sp,h'.ip.trans h.ip,h'.time.trans h.time⟩

theorem SameAt.waiting (h : SameAt k s s') : s'.waiting k=s.waiting k := by
  simp [NodeStore.waiting,h.eos,h.sp,h.ip]

theorem SameAt.cached (h : SameAt k s s') (hcached : s'.Cached k) : s.Cached k := by
  simpa [Cached,h.eos,h.sp,h.ip] using hcached

theorem GrownAt.same (h : GrownAt now k s s') (h' : SameAt k s' s'') : GrownAt now k s s'' where
  time := h'.time.trans h.time
  waiting := by
    rw [h'.waiting]
    exact h.waiting

theorem Grows.refl : Grows now s s := fun _ => Or.inl .refl

theorem Grows.trans (h : Grows now s s') (h' : Grows now s' s'') : Grows now s s'' := by
  intro k
  rcases h k with hsame | hgrown
  · rcases h' k with hsame' | hgrown'
    · exact Or.inl (hsame.trans hsame')
    · right
      have hlt := hgrown'.waiting
      rw [hsame.waiting] at hlt
      exact ⟨hgrown'.time,hlt⟩
  · rcases h' k with hsame' | hgrown'
    · exact Or.inr (hgrown.same hsame')
    · exact Or.inr ⟨hgrown'.time,hgrown.waiting.trans hgrown'.waiting⟩

theorem grows_slots {slots : List StoredSlot} : Grows now s { s with finishedSubSlots := slots } :=
  fun _ => Or.inl ⟨rfl,rfl,rfl,rfl⟩

theorem cacheEos_grows (eos : EndOfSubSlotBundle) : Grows now s (s.cacheEos eos now) := by
  intro k
  by_cases hk : eos.rewardChain.endOfSlotVdf.challenge=k
  · right
    constructor
    · simp [cacheEos,hk]
    · simp [waiting,cacheEos,hk]
  · left
    constructor <;> simp [cacheEos,Dict.get?_set,hk]

variable {signagePoint : SignagePoint} {index : ℕ}

theorem futureSpCache_of_inFuture {s : SignagePointStore} {rcVdf : VDFInfo}
    (hrc : signagePoint.rcVdf=some rcVdf)
    (h : ({ s with
        futureSpCache := s.futureSpCache.set rcVdf.challenge ((s.futureSpCache.get? rcVdf.challenge).getD [])
      } : SignagePointStore).inFutureSpCache signagePoint index=true) :
    s.futureSpCache.get? rcVdf.challenge=some ((s.futureSpCache.get? rcVdf.challenge).getD []) := by
  cases hget : s.futureSpCache.get? rcVdf.challenge with
  | some waiting => rfl
  | none => simp [SignagePointStore.inFutureSpCache,hrc,hget] at h

theorem addToFutureSp_grows (signagePoint : SignagePoint) (index : ℕ) :
    Grows now s { s with toSignagePointStore := s.toSignagePointStore.addToFutureSp signagePoint index now } := by
  unfold SignagePointStore.addToFutureSp
  split
  · rename_i rcVdf _ _ hcc hrc _ _
    intro k
    dsimp only
    split_ifs with hin
    · left
      have hget := futureSpCache_of_inFuture hrc hin
      constructor <;> try rfl
      by_cases hk : rcVdf.challenge=k
      · subst hk
        simp [hget.symm]
      · simp [Dict.get?_set,hk]
    · by_cases hk : rcVdf.challenge=k
      · right
        constructor
        · simp [hk]
        · simp [waiting,hk]
      · left
        constructor <;> simp [Dict.get?_set,hk]
  · exact Grows.refl

variable {eos : EndOfSubSlotBundle} {added : Option (List NewInfusionPointVDF)}

theorem finishSlot_grows {challenge : Bytes32} {iters total : ℕ} {slot : SlotEnd}
    (h : finishSlot E s eos challenge iters total slot = .ok (added,s')) :
    Grows now s s' := by
  unfold finishSlot at h
  split_ifs at h
  · obtain ⟨valid,-,h⟩ := bind_ok.mp h
    cases valid <;> cases h
    · exact Grows.refl
    · exact grows_slots
  · cases h
    exact Grows.refl

theorem newFinishedSubSlot_grows {peak : Option (BlockRecord × FullBlock)}
    (h : s.newFinishedSubSlot E V eos peak now = .ok (added,s')) :
    Grows now s s' := by
  unfold newFinishedSubSlot at h
  obtain ⟨last,-,h⟩ := bind_ok.mp h
  split_ifs at h
  · cases h
    exact Grows.refl
  · cases h
    exact Grows.refl
  · obtain ⟨total,-,h⟩ := bind_ok.mp h
    cases hin : peakIn peak last.startTotalIters with
    | none =>
      rw [hin] at h
      exact finishSlot_grows h
    | some p =>
      rw [hin] at h
      obtain ⟨iters,-,h⟩ := bind_ok.mp h
      split_ifs at h
      · cases h
        exact cacheEos_grows eos
      · obtain ⟨icc,-,h⟩ := bind_ok.mp h
        obtain ⟨agrees,-,h⟩ := bind_ok.mp h
        cases agrees with
        | true => exact finishSlot_grows h
        | false =>
          cases h
          exact Grows.refl

theorem newSignagePoint_grows {next : ℕ} {peak : Option BlockRecord} {skip added : Bool}
    (h : s.newSignagePoint E V index peak next signagePoint skip now = .ok (added,s')) : Grows now s s' := by
  unfold newSignagePoint at h
  obtain ⟨⟨answer,sps⟩,hsps,h⟩ := bind_ok.mp h
  cases h
  unfold SignagePointStore.newSignagePoint at hsps
  obtain ⟨_,-,hsps⟩ := bind_ok.mp hsps
  split_ifs at hsps
  · cases hsps
    exact Grows.refl
  · simp only [bind_ok] at hsps
    obtain ⟨ccVdf,-,ccProof,-,rcVdf,-,rcProof,-,found,-,hsps⟩ := hsps
    cases found with
    | none =>
      cases hsps
      exact addToFutureSp_grows signagePoint index
    | some found =>
      obtain ⟨delta,-,hsps⟩ := bind_ok.mp hsps
      obtain ⟨info,-,hsps⟩ := bind_ok.mp hsps
      split_ifs at hsps
      · obtain ⟨slot,-,hsps⟩ := bind_ok.mp hsps
        cases hsps
        exact fun _ => Or.inl ⟨rfl,rfl,rfl,rfl⟩
      · cases hsps
        exact addToFutureSp_grows signagePoint index

variable {α : Type}

theorem run_grows {f : NodeStore → Check (α × NodeStore)} (hf : ∀ a s',f s = .ok (a,s') → Grows now s s') :
    Grows now s (run f s).2 := by
  unfold run
  cases hrun : f s with
  | ok r => exact hf r.1 r.2 hrun
  | error e => exact Grows.refl

variable {β : Type} {m : Eff NodeStore Fail α}

theorem Grows.bind {f : α → Eff NodeStore Fail β} (hm : Grows now s (m s).2)
    (hf : ∀ a s',Grows now s' (f a s').2) : Grows now s ((m >>= f) s).2 := by
  rw [Eff.bind_apply]
  rcases hrun : m s with ⟨r,s'⟩
  rw [hrun] at hm
  cases r with
  | ok a => exact hm.trans (hf a s')
  | error e => exact hm

variable {peak : BlockRecord}

variable {spSubSlot ipSubSlot : Option EndOfSubSlotBundle} {forkBlock : Option BlockRecord}

theorem replaceSlots_grows
    : Grows now s (replaceSlots E peak spSubSlot ipSubSlot forkBlock s).2 := by
  unfold replaceSlots
  split_ifs
  · exact grows_slots
  · apply Grows.bind Grows.refl
    intro _ s
    apply Grows.bind Grows.refl
    intro _ s
    apply Grows.bind grows_slots
    intro _ s
    apply Grows.bind Grows.refl
    intro prevTotalIters s
    have hlast (s : NodeStore) (sps : List (Option SignagePoint)) : Grows now s ((do
        let totalIters ← Eff.lift (peak.ipSubSlotTotalIters E.constants)
        Eff.modify fun s => { s with finishedSubSlots := s.finishedSubSlots++[⟨ipSubSlot,sps,totalIters⟩] } :
          Eff NodeStore Fail Unit) s).2 :=
      Grows.bind Grows.refl fun _ _ => grows_slots
    split_ifs
    · apply Grows.bind Grows.refl
      intro _ s
      exact Grows.bind grows_slots fun _ s => hlast s _
    · exact hlast s _

variable {block : FullBlock}

theorem addWaitingEos_grows {waiting : List EndOfSubSlotBundle} :
    Grows now s (addWaitingEos E V peak block now waiting s).2 := by
  induction waiting generalizing s with
  | nil => exact Grows.refl
  | cons eos more ih =>
    apply Grows.bind (run_grows fun _ _ h => newFinishedSubSlot_grows h)
    intro added s'
    split_ifs
    · exact Grows.refl
    · exact ih

theorem addWaitingSps_grows {waiting : List (ℕ × SignagePoint)} :
    Grows now s (addWaitingSps E V peak now waiting s).2 := by
  induction waiting generalizing s with
  | nil => exact Grows.refl
  | cons c more ih =>
    apply Grows.bind Grows.refl
    intro _ s
    apply Grows.bind (run_grows fun _ _ h => newSignagePoint_grows h)
    intro added s
    exact Grows.bind ih fun _ _ => Grows.refl

/-- What is still cached after a step was there before, or has just come. -/
def Settles (now : ℕ) (s s' : NodeStore) : Prop := ∀ k,s'.Cached k → SameAt k s s' ∨ GrownAt now k s s'

theorem Grows.settles (h : Grows now s s') : Settles now s s' := fun k _ => h k

theorem erase_settles (ch : Bytes32) : Settles now s { s with
    futureEosCache := s.futureEosCache.erase ch
    futureSpCache := s.futureSpCache.erase ch
    futureIpCache := s.futureIpCache.erase ch } := by
  intro k hcached
  left
  have hne : ch≠k := by
    rintro rfl
    simp [Cached,Dict.get?_erase] at hcached
  constructor <;> simp [Dict.get?_erase,hne]

theorem Grows.settles_trans (h : Grows now s s') (h' : Settles now s' s'') : Settles now s s'' := by
  intro k hcached
  rcases h' k hcached with hsame | hgrown
  · rcases h k with hbefore | hbefore
    · exact Or.inl (hbefore.trans hsame)
    · exact Or.inr (hbefore.same hsame)
  · right
    refine ⟨hgrown.time,?_⟩
    rcases h k with hbefore | hbefore
    · have hlt := hgrown.waiting
      rwa [hbefore.waiting] at hlt
    · exact hbefore.waiting.trans hgrown.waiting

theorem clearOldCacheEntries_settles : Settles now s (s.clearOldCacheEntries now) := by
  intro k hcached
  left
  have hfresh : ¬ s.Expired now k := by
    intro hexpired
    simp [Cached,clearOldCacheEntries,hexpired] at hcached
  have hkeep {α : Type} (o : Option α) : o.filter (fun _ => true)=o := by cases o <;> rfl
  constructor <;> simp [clearOldCacheEntries,hfresh,hkeep]

theorem Settles.bind {f : α → Eff NodeStore Fail β} (hm : Grows now s (m s).2)
    (hf : ∀ a s',Settles now s' (f a s').2) : Settles now s ((m >>= f) s).2 := by
  rw [Eff.bind_apply]
  rcases hrun : m s with ⟨r,s'⟩
  rw [hrun] at hm
  cases r with
  | ok a => exact hm.settles_trans (hf a s')
  | error e => exact hm.settles

theorem newPeak_settles :
    Settles now s (newPeak E V peak block spSubSlot ipSubSlot forkBlock now s).2 := by
  unfold newPeak
  apply Settles.bind Grows.refl
  intro _ s
  apply Settles.bind Grows.refl
  intro _ s
  apply Settles.bind replaceSlots_grows
  intro _ s
  apply Settles.bind Grows.refl
  intro _ s
  apply Settles.bind addWaitingEos_grows
  intro newEos s
  apply Settles.bind Grows.refl
  intro _ s
  apply Settles.bind addWaitingSps_grows
  intro newSps s
  apply Settles.bind Grows.refl
  intro _ s
  exact erase_settles _

section Runs

/-- The methods that a run may call in a state at a time. -/
abbrev Allowed := NodeStore → ℕ → Op → Prop

/-- The times at which something was last put under a challenge, after a step. -/
def lastInsertion (s s' : NodeStore) (now : ℕ) (last : Bytes32 → Option ℕ) (k : Bytes32) : Option ℕ :=
  if s.waiting k<s'.waiting k then some now else last k

/-- The stores that methods lead to, with the times of the last insertions. -/
inductive CacheRun (E : Env) (allowed : Allowed) : NodeStore → (Bytes32 → Option ℕ) → Prop
  | new : CacheRun E allowed (new E) fun _ => none
  | step {s : NodeStore} {last : Bytes32 → Option ℕ} (h : CacheRun E allowed s last) (now : ℕ) (op : Op)
      (hop : allowed s now op) : CacheRun E allowed (s.step E now op) (lastInsertion s (s.step E now op) now last)

/-- An infusion point comes under a challenge that has a time, which is over. -/
def TimedIp : Allowed
  | s,now,.addToFutureIp infusionPoint =>
    ∃ t∈s.futureCacheKeyTimes.get? infusionPoint.rewardChainIpVdf.challenge,t≤now
  | _,_,_ => True

/-- Each cached challenge has its time, and none stays cached an hour after its last insertion. -/
structure Bounded (s : NodeStore) (last : Bytes32 → Option ℕ) : Prop where
  timed : ∀ k,s.Cached k → (s.futureCacheKeyTimes.get? k).isSome
  cleared : ∀ now k,(s.clearOldCacheEntries now).Cached k → ∃ t∈last k,now≤t+3600

/-- The time of a cached challenge is not after its last insertion. -/
def Stamped (s : NodeStore) (last : Bytes32 → Option ℕ) : Prop :=
  ∀ k,s.Cached k → ∃ t∈s.futureCacheKeyTimes.get? k,∃ u∈last k,t≤u

variable {last : Bytes32 → Option ℕ} {allowed : Allowed}

theorem new_empty : ¬ (new E).Cached k := by
  simp [Cached,new,initializeGenesisSubSlot]

theorem Stamped.settles (h : Stamped s last) (hs : Settles now s s') : Stamped s' (lastInsertion s s' now last) := by
  intro k hcached
  rcases hs k hcached with hsame | hgrown
  · obtain ⟨t,ht,u,hu,hle⟩ := h k (hsame.cached hcached)
    refine ⟨t,?_,u,?_,hle⟩
    · rwa [hsame.time]
    · rwa [lastInsertion,if_neg (by rw [hsame.waiting]; exact lt_irrefl _)]
  · exact ⟨now,hgrown.time,now,by rw [lastInsertion,if_pos hgrown.waiting]; rfl,le_rfl⟩

variable {infusionPoint : NewInfusionPointVDF}

theorem Stamped.addToFutureIp (h : Stamped s last)
    (htimed : TimedIp s now (.addToFutureIp infusionPoint)) :
    Stamped (s.addToFutureIp infusionPoint) (lastInsertion s (s.addToFutureIp infusionPoint) now last) := by
  intro k hcached
  by_cases hk : infusionPoint.rewardChainIpVdf.challenge=k
  · obtain ⟨t,ht,hle⟩ := htimed
    rw [hk] at ht
    have hgrown : s.waiting k<(s.addToFutureIp infusionPoint).waiting k := by
      simp [waiting,NodeStore.addToFutureIp,hk]
    exact ⟨t,ht,now,by rw [lastInsertion,if_pos hgrown]; rfl,hle⟩
  · have hsame : SameAt k s (s.addToFutureIp infusionPoint) := by
      constructor <;> simp [NodeStore.addToFutureIp,Dict.get?_set,hk]
    obtain ⟨t,ht,u,hu,hle⟩ := h k (hsame.cached hcached)
    exact ⟨t,ht,u,by rwa [lastInsertion,if_neg (by rw [hsame.waiting]; exact lt_irrefl _)],hle⟩

theorem Stamped.step (h : Stamped s last) {op : Op} (hop : TimedIp s now op) :
    Stamped (s.step E now op) (lastInsertion s (s.step E now op) now last) := by
  cases op with
  | addToFutureIp infusionPoint => exact h.addToFutureIp hop
  | addToFutureSp signagePoint index => exact h.settles (addToFutureSp_grows signagePoint index).settles
  | newFinishedSubSlot V eos peak => exact h.settles (run_grows fun _ _ hrun => newFinishedSubSlot_grows hrun).settles
  | newSignagePoint V index peak next signagePoint skip =>
    exact h.settles (run_grows fun _ _ hrun => newSignagePoint_grows hrun).settles
  | newPeak V peak block spSubSlot ipSubSlot forkBlock => exact h.settles newPeak_settles
  | clearOldCacheEntries => exact h.settles clearOldCacheEntries_settles
  | clearSlots => exact h.settles grows_slots.settles
  | initializeGenesisSubSlot => exact h.settles grows_slots.settles

theorem Stamped.bounded (h : Stamped s last) : Bounded s last where
  timed := by
    intro k hcached
    obtain ⟨t,ht,-⟩ := h k hcached
    exact Option.isSome_iff_exists.mpr ⟨t,ht⟩
  cleared := by
    intro now k hcached
    have hfresh : ¬ s.Expired now k := by
      intro hexpired
      simp [Cached,clearOldCacheEntries,hexpired] at hcached
    have hbefore : s.Cached k := by
      simp [Cached,clearOldCacheEntries,hfresh] at hcached
      simpa [Cached] using hcached
    obtain ⟨t,ht,u,hu,hle⟩ := h k hbefore
    have hage : now≤t+3600 := by
      by_contra hold
      exact hfresh ⟨t,ht,by omega⟩
    exact ⟨u,hu,by omega⟩

/-- Where each infusion point comes under a challenge that has a time already, the caches stay bounded. -/
theorem cacheRun_bounded (h : CacheRun E TimedIp s last) : Bounded s last := by
  have hstamped : Stamped s last := by
    induction h with
    | new => exact fun k hcached => absurd hcached new_empty
    | step _ now op hop ih => exact ih.step hop
  exact hstamped.bounded

/-- An infusion point under a challenge without a time is never cleared. -/
theorem addToFutureIp_untimed
    (h : s.futureCacheKeyTimes.get? infusionPoint.rewardChainIpVdf.challenge=none) :
    ¬ Bounded (s.addToFutureIp infusionPoint) last ∧ ∀ now,
      ((s.addToFutureIp infusionPoint).clearOldCacheEntries now).Cached infusionPoint.rewardChainIpVdf.challenge := by
  have hcached (s' : NodeStore) (hs' : (s'.futureIpCache.get? infusionPoint.rewardChainIpVdf.challenge).isSome) :
    s'.Cached infusionPoint.rewardChainIpVdf.challenge := Or.inr (Or.inr hs')
  constructor
  · intro hbounded
    have htimed := hbounded.timed _ (hcached _ (by simp [NodeStore.addToFutureIp]))
    simp [NodeStore.addToFutureIp,h] at htimed
  · intro now
    apply hcached
    simp [NodeStore.addToFutureIp,clearOldCacheEntries,Expired,h]

end Runs

section Tiny

/-- An infusion point on the reward chain of `lateSp`. -/
def lateIp : NewInfusionPointVDF where
  unfinishedRewardHash := 9
  challengeChainIpVdf := ⟨1,1010,ClassgroupElement.getDefaultElement⟩
  challengeChainIpProof := tinyProof
  rewardChainIpVdf := ⟨0,961,ClassgroupElement.getDefaultElement⟩
  rewardChainIpProof := tinyProof
  infusedChallengeChainIpVdf := none
  infusedChallengeChainIpProof := none

def timedStore : NodeStore :=
  ((new tinyEnv).step tinyEnv 10 (.addToFutureSp lateSp 63)).step tinyEnv 20 (.addToFutureIp lateIp)

theorem cacheRun_bounded_timed : timedStore.Cached 0 ∧ ∃ last,last 0=some 20 ∧ Bounded timedStore last := by
  have hfirst : CacheRun tinyEnv TimedIp _ _ := .step .new 10 (.addToFutureSp lateSp 63) trivial
  have hsecond := CacheRun.step hfirst 20 (.addToFutureIp lateIp) ⟨10,rfl,by decide⟩
  exact ⟨Or.inr (Or.inr rfl),_,rfl,cacheRun_bounded hsecond⟩

/-- An infusion point whose block never comes stays for ever. -/
theorem cacheRun_unbounded : ∃ s last,CacheRun tinyEnv (fun _ _ _ => True) s last ∧ ¬ Bounded s last ∧
    last 0=some 0 ∧ ∀ now,(s.clearOldCacheEntries now).Cached 0 := by
  obtain ⟨hunbounded,hstays⟩ := addToFutureIp_untimed (s := new tinyEnv)
    rfl
  exact ⟨_,_,.step .new 0 (.addToFutureIp lateIp) trivial,hunbounded,rfl,hstays⟩

end Tiny

end NodeStore
end RoseChain
