import RoseChain.FullNode.Interrupts

namespace RoseChain
open Lib

def World.bare (w : World) : World := { w with blockCache := .new 0,coinRecordCache := .new 0 }

namespace World
variable (w : World)

@[simp] theorem bare_db : w.bare.db=w.db := rfl
@[simp] theorem bare_saved : w.bare.saved=w.saved := rfl
@[simp] theorem bare_chain : w.bare.chain=w.chain := rfl
def block? (h : Bytes32) : Option FullBlock := (w.db.fullBlocks.get? h).map (·.block)

def record? (h : Bytes32) : Option BlockRecord := (w.db.blockRecords.get? h).map (·.block)

@[simp] theorem bare_record? (h : Bytes32) : w.bare.record? h=w.record? h := rfl

end World

variable (E : Env)

/-- No interruption is due, and the caches hold what the database holds. -/
structure Coherent (w : World) : Prop where
  calm : w.interrupt=none
  blocks : w.blockCache.Within w.block?
  coins : w.coinRecordCache.Within w.db.coinRecord.get?
  named : ∀ n r,w.db.coinRecord.get? n=some r → E.coinName r.coin=n

/-- The same answer, the same state apart from the caches, and these are still right. -/
def Matches {α : Type} (r r' : Except Fail α × World) : Prop :=
  r.1=r'.1 ∧ r.2.bare=r'.2 ∧ Coherent E r.2

def Transparent {α : Type} (m : NodeM α) : Prop := ∀ w,Coherent E w → Matches E (m w) (m w.bare)

variable {E} {α β : Type} {w : World}

section
variable (h : w.interrupt=none)
include h

theorem await_calm : await w=(.ok (),w) := by
  unfold await; rw [h]

theorem fetch_calm (q : Tables → α) :
    fetch q w=(.ok (q w.db),w) := by
  simp [fetch,await_calm h]

theorem executeCheck_calm (f : Tables → Check Tables) :
    executeCheck f w=match f w.db with
      | .ok db => (.ok (),{ w with db := db,saved := w.saved.or (some w.db) })
      | .error e => (.error e,w) := by
  unfold executeCheck
  cases hf : f w.db with
  | ok db =>
    simp [await_calm h,hf]
    exact await_calm h
  | error e => simp [await_calm h,hf]

theorem execute_calm (f : Tables → Tables) :
    execute f w=(.ok (),{ w with db := f w.db,saved := w.saved.or (some w.db) }) := by
  rw [execute,executeCheck_calm h]

end

variable {c : Prop}

theorem lift_assertThat [Decidable c] (h : c) (w : World) :
    (Eff.lift (assertThat c) : NodeM Unit) w=(.ok (),w) := by
  simp [assertThat,h]

theorem lift_assertThat_not [Decidable c] (h : ¬ c) (w : World) :
    (Eff.lift (assertThat c) : NodeM Unit) w=(.error (.raised .assertion),w) := by
  simp [assertThat,h]

variable {m : NodeM α}

theorem Transparent.matches (h : Transparent E m) (hw : Coherent E w) :
    Matches E (m w) (m w.bare) := h w hw

theorem transparent_pure (a : α) : Transparent E (pure a : NodeM α) := fun _ hw => ⟨rfl,rfl,hw⟩

theorem transparent_lift (x : Check α) : Transparent E (Eff.lift x) := fun _ hw => ⟨rfl,rfl,hw⟩

theorem transparent_fail (e : Fail) : Transparent E (Eff.fail e : NodeM α) := fun _ hw => ⟨rfl,rfl,hw⟩

theorem transparent_raise (e : PyErr) : Transparent E (raise e : NodeM α) := transparent_fail _

variable {f : α → NodeM β}

theorem Transparent.bind (hm : Transparent E m)
    (hf : ∀ a,Transparent E (f a)) : Transparent E (m >>= f) := by
  intro w hw
  obtain ⟨h₁,h₂,h₃⟩ := hm w hw
  rcases hr : m w with ⟨r,s⟩
  rcases hr' : m w.bare with ⟨r',s'⟩
  rw [hr,hr'] at h₁ h₂
  rw [hr] at h₃
  simp only at h₁ h₂ h₃
  subst h₁ h₂
  cases r with
  | ok a =>
    rw [Eff.bind_of_ok hr,Eff.bind_of_ok hr']
    exact hf a s h₃
  | error e =>
    rw [Eff.bind_of_error hr,Eff.bind_of_error hr']
    exact ⟨rfl,rfl,h₃⟩

theorem Transparent.read {f : World → NodeM α} (hb : ∀ w : World,f w.bare=f w)
    (hf : ∀ w,Transparent E (f w)) : Transparent E (Eff.get >>= f) := by
  intro w hw
  have h := hf w w hw
  simpa [hb] using h

theorem transparent_modifyChain (f : Chain → Chain) : Transparent E (modifyChain f) :=
  fun _ hw => ⟨rfl,rfl,⟨hw.calm,hw.blocks,hw.coins,hw.named⟩⟩

theorem transparent_execute {f : Tables → Tables} (hb : ∀ t,(f t).fullBlocks=t.fullBlocks)
    (hc : ∀ t,(f t).coinRecord=t.coinRecord) : Transparent E (execute f) := by
  intro w hw
  rw [execute_calm hw.calm,execute_calm (w := w.bare) hw.calm]
  refine ⟨rfl,rfl,hw.calm,?_,?_,?_⟩
  · intro k v hv
    simpa [World.block?,hb] using hw.blocks k v hv
  · intro k v hv
    simpa [hc] using hw.coins k v hv
  · intro n r hr
    exact hw.named n r (by simpa [hc] using hr)

theorem commitTransaction_calm (h : w.interrupt=none) :
    commitTransaction w=(.ok (),{ w with saved := none }) := by
  unfold commitTransaction
  rw [Eff.bind_of_ok (await_calm h)]
  rfl

theorem commitTransaction_transparent : Transparent E commitTransaction := by
  intro w hw
  rw [commitTransaction_calm hw.calm,commitTransaction_calm (w := w.bare) hw.calm]
  exact ⟨rfl,rfl,hw.calm,hw.blocks,hw.coins,hw.named⟩

theorem transparent_forM {f : α → NodeM PUnit} (hf : ∀ a,Transparent E (f a)) (l : List α) :
    Transparent E (l.forM f) := by
  induction l with
  | nil => exact transparent_pure _
  | cons a l ih => exact (hf a).bind fun _ => ih

/-- The answer of a computation, with caches that hold nothing. -/
def observe (m : NodeM α) (w : World) : Check α := (m w.bare).1

/-- Nothing but the caches and the interruption has changed, and a cache that was right still is. -/
structure Quiet (E : Env) (w w' : World) : Prop where
  db : w'.db=w.db
  saved : w'.saved=w.saved
  chain : w'.chain=w.chain
  blocks : w.blockCache.Within w.block? → w'.blockCache.Within w.block?
  coins : (∀ n r,w.db.coinRecord.get? n=some r → E.coinName r.coin=n) →
    w.coinRecordCache.Within w.db.coinRecord.get? → w'.coinRecordCache.Within w.db.coinRecord.get?

theorem Quiet.refl (w : World) : Quiet E w w := ⟨rfl,rfl,rfl,id,fun _ => id⟩

theorem Quiet.block? {w w' : World} (h : Quiet E w w') : w'.block?=w.block? := by
  unfold World.block?
  rw [h.db]

theorem Quiet.trans {w₁ w₂ w₃ : World} (h : Quiet E w₁ w₂) (h' : Quiet E w₂ w₃) : Quiet E w₁ w₃ where
  db := h'.db.trans h.db
  saved := h'.saved.trans h.saved
  chain := h'.chain.trans h.chain
  blocks hb := by
    have h₂ := h'.blocks (by rw [h.block?]; exact h.blocks hb)
    rwa [h.block?] at h₂
  coins hn hc := by
    have h₂ := h'.coins (by rw [h.db]; exact hn) (by rw [h.db]; exact h.coins hn hc)
    rwa [h.db] at h₂

/-- A computation that reads: nothing but the caches changes, and they do not influence it. -/
structure Observes (E : Env) (m : NodeM α) : Prop where
  transparent : Transparent E m
  still : ∀ w : World,w.interrupt=none → (m w.bare).2=w.bare
  quiet : ∀ w,Quiet E w (m w).2
  interruptible : Interruptible m

theorem Observes.bare_eq (h : Observes E m) (hw : w.interrupt=none) :
    m w.bare=(observe m w,w.bare) := Prod.ext rfl (h.still w hw)

theorem Observes.run (h : Observes E m) (hw : Coherent E w) :
    ∃ w',m w=(observe m w,w') ∧ w'.bare=w.bare ∧ Coherent E w' := by
  obtain ⟨h₁,h₂,h₃⟩ := h.transparent w hw
  exact ⟨(m w).2,Prod.ext h₁ rfl,h₂.trans (h.still w hw.calm),h₃⟩

@[simp] theorem observe_pure (a : α) (w : World) : observe (pure a : NodeM α) w = .ok a := rfl

@[simp] theorem observe_lift (x : Check α) (w : World) : observe (Eff.lift x) w=x := rfl

@[simp] theorem observe_fail (e : Fail) (w : World) : observe (Eff.fail e : NodeM α) w = .error e := rfl

theorem observe_get (f : World → NodeM α) (w : World) :
    observe (Eff.get >>= f) w=observe (f w.bare) w := rfl

theorem Observes.observe_bind (hm : Observes E m) (f : α → NodeM β) {w : World}
    (hw : w.interrupt=none) : observe (m >>= f) w=observe m w >>= fun a => observe (f a) w := by
  unfold observe
  cases hr : (m w.bare).1 with
  | ok a => rw [Eff.bind_of_ok (Prod.ext hr (hm.still w hw))]; rfl
  | error e => rw [Eff.bind_of_error (Prod.ext hr (hm.still w hw))]; rfl

theorem observes_pure (a : α) : Observes E (pure a : NodeM α) :=
  ⟨transparent_pure a,fun _ _ => rfl,.refl,interruptible_pure a⟩

theorem observes_lift (x : Check α) : Observes E (Eff.lift x) :=
  ⟨transparent_lift x,fun _ _ => rfl,.refl,interruptible_lift x⟩

theorem observes_fail (e : Fail) : Observes E (Eff.fail e : NodeM α) :=
  ⟨transparent_fail e,fun _ _ => rfl,.refl,interruptible_fail e⟩

theorem observes_raise (e : PyErr) : Observes E (raise e : NodeM α) := observes_fail _

theorem quiet_bind (hm : ∀ w,Quiet E w (m w).2)
    (hf : ∀ a w,Quiet E w (f a w).2) (w : World) : Quiet E w ((m >>= f) w).2 := by
  have h := hm w
  rcases hr : m w with ⟨r | r,s⟩ <;> rw [hr] at h
  · rw [Eff.bind_of_error hr]
    exact h
  · rw [Eff.bind_of_ok hr]
    exact h.trans (hf r s)

theorem Observes.bind (hm : Observes E m)
    (hf : ∀ a,Observes E (f a)) : Observes E (m >>= f) := by
  refine ⟨hm.transparent.bind fun a => (hf a).transparent,fun w hw => ?_,
    quiet_bind hm.quiet fun a => (hf a).quiet,hm.interruptible.bind fun a => (hf a).interruptible⟩
  have h := hm.still w hw
  rcases hr : m w.bare with ⟨r,s⟩
  rw [hr] at h
  cases r with
  | ok a =>
    rw [Eff.bind_of_ok hr]
    subst h
    exact (hf a).still w hw
  | error e =>
    rw [Eff.bind_of_error hr]
    exact h

theorem Observes.read {f : World → NodeM α} (hb : ∀ w : World,f w.bare=f w)
    (hd : ∀ (w : World) i,f (w.due i)=f w) (hf : ∀ w,Observes E (f w)) :
    Observes E (Eff.get >>= f) :=
  ⟨.read hb fun w => (hf w).transparent,fun w hw => (hf w.bare).still w hw,fun w => (hf w).quiet w,
    .read hd fun w => (hf w).interruptible⟩

theorem Observes.mapAnswer (h : Observes E m) {f : Check α → Check β}
    (hf : ∀ e,∃ e',f (.error e) = .error e') : Observes E fun w => (f (m w).1,(m w).2) := by
  refine ⟨fun w hw => ?_,h.still,h.quiet,h.interruptible.mapAnswer hf⟩
  obtain ⟨h₁,h₂,h₃⟩ := h.transparent w hw
  exact ⟨congrArg f h₁,h₂,h₃⟩

theorem observes_mapM (hf : ∀ a,Observes E (f a)) (l : List α) :
    Observes E (l.mapM f) := by
  induction l with
  | nil => exact observes_pure _
  | cons a l ih =>
    rw [List.mapM_cons]
    exact (hf a).bind fun _ => ih.bind fun _ => observes_pure _

theorem await_cases (w : World) : ∃ i,await w=(.ok (),w.due i) ∨
    ∃ e,await w=(.error e,w.due i) := by
  unfold await
  split
  · exact ⟨none,Or.inl (by rw [due_of_eq ‹_›])⟩
  · exact ⟨none,Or.inr ⟨_,rfl⟩⟩
  · exact ⟨_,Or.inl rfl⟩

theorem quiet_due (w : World) (i : Option (ℕ × PyErr)) : Quiet E w (w.due i) :=
  ⟨rfl,rfl,rfl,id,fun _ => id⟩

theorem fetch_cases (q : Tables → α) (w : World) : ∃ i,fetch q w=(.ok (q w.db),w.due i) ∨
    ∃ e,fetch q w=(.error e,w.due i) := by
  unfold fetch
  obtain ⟨i,h | ⟨e,h⟩⟩ := await_cases w
  · rw [Eff.bind_of_ok h,Eff.bind_get]
    obtain ⟨j,h' | ⟨e,h'⟩⟩ := await_cases (w.due i)
    · rw [Eff.bind_of_ok h']
      exact ⟨j,Or.inl rfl⟩
    · rw [Eff.bind_of_error h']
      exact ⟨j,Or.inr ⟨e,rfl⟩⟩
  · rw [Eff.bind_of_error h]
    exact ⟨i,Or.inr ⟨e,rfl⟩⟩

theorem fetch_quiet (q : Tables → α) (w : World) : Quiet E w (fetch q w).2 := by
  obtain ⟨i,h | ⟨e,h⟩⟩ := fetch_cases q w <;> rw [h] <;> exact quiet_due w i

theorem modifyBlockCache_bare (w : World) (f : LRUCache Bytes32 FullBlock → LRUCache Bytes32 FullBlock)
    (hf : f (.new 0) = .new 0) : modifyBlockCache f w.bare=(.ok (),w.bare) := by
  simp [modifyBlockCache,World.bare,hf]

theorem modifyCoinCache_bare (w : World)
    (f : LRUCache Bytes32 CoinRecord → LRUCache Bytes32 CoinRecord) (hf : f (.new 0) = .new 0) :
    modifyCoinCache f w.bare=(.ok (),w.bare) := by
  simp [modifyCoinCache,World.bare,hf]

namespace BlockStore

theorem getFullBlock_bare (h : w.interrupt=none) (hash : Bytes32) :
    getFullBlock hash w.bare=(.ok (w.block? hash),w.bare) := by
  have hf := fetch_calm (w := w.bare) h fun t => t.fullBlocks.get? hash
  unfold getFullBlock
  rw [Eff.bind_get,Eff.bind_of_ok (modifyBlockCache_bare w _ rfl)]
  rw [show (w.bare.blockCache.get hash).1=none from rfl]
  dsimp only
  rw [Eff.bind_of_ok hf]
  cases hr : w.db.fullBlocks.get? hash with
  | none => simp [World.block?,hr]
  | some row =>
    simp only [World.bare_db,hr]
    rw [Eff.bind_of_ok (modifyBlockCache_bare w _ (by simp))]
    simp [World.block?,hr]

theorem getFullBlock_run (hw : Coherent E w) (hash : Bytes32) :
    ∃ c,getFullBlock hash w=(.ok (w.block? hash),{ w with blockCache := c }) ∧
      c.Within w.block? := by
  have hm : modifyBlockCache (fun c => (c.get hash).2) w =
      (.ok (),{ w with blockCache := (w.blockCache.get hash).2 }) := rfl
  unfold getFullBlock
  rw [Eff.bind_get,Eff.bind_of_ok hm,LRUCache.get_fst]
  cases hc : w.blockCache.cache.get? hash with
  | some v =>
    refine ⟨_,?_,hw.blocks.get hash⟩
    rw [hw.blocks hash v hc]
    rfl
  | none =>
    dsimp only
    rw [Eff.bind_of_ok (fetch_calm (by exact hw.calm) _)]
    cases hr : w.db.fullBlocks.get? hash with
    | none =>
      refine ⟨_,?_,hw.blocks.get hash⟩
      simp [World.block?,hr]
    | some row =>
      have hb : w.block? hash=some row.block := by simp [World.block?,hr]
      exact ⟨_,by rw [hb]; rfl,(hw.blocks.get hash).put hb⟩

theorem getFullBlock_transparent (hash : Bytes32) : Transparent E (getFullBlock hash) := by
  intro w hw
  obtain ⟨c,hrun,hc⟩ := getFullBlock_run hw hash
  rw [hrun,getFullBlock_bare hw.calm]
  exact ⟨rfl,rfl,hw.calm,hc,hw.coins,hw.named⟩

theorem getFullBlock_quiet (hash : Bytes32) (w : World) : Quiet E w (getFullBlock hash w).2 := by
  have hseen : Quiet E w { w with blockCache := (w.blockCache.get hash).2 } :=
    ⟨rfl,rfl,rfl,fun h => h.get hash,fun _ => id⟩
  unfold getFullBlock
  rw [Eff.bind_get]
  have hmoved : (modifyBlockCache (fun c => (c.get hash).2) : NodeM Unit) w =
      (.ok (),{ w with blockCache := (w.blockCache.get hash).2 }) := rfl
  rw [Eff.bind_of_ok hmoved]
  refine hseen.trans ?_
  cases (w.blockCache.get hash).1 with
  | some cached => exact .refl _
  | none =>
    generalize ({ w with blockCache := (w.blockCache.get hash).2 } : World)=v
    dsimp only
    obtain ⟨i,h | ⟨e,h⟩⟩ := fetch_cases (fun t => t.fullBlocks.get? hash) v
    · rw [Eff.bind_of_ok h]
      cases hrow : v.db.fullBlocks.get? hash with
      | none => exact quiet_due v i
      | some row =>
        refine ⟨rfl,rfl,rfl,fun h => h.put ?_,fun _ => id⟩
        rw [World.block?,hrow]
        rfl
    · rw [Eff.bind_of_error h]
      exact quiet_due v i

theorem getFullBlock_observes (hash : Bytes32) : Observes E (getFullBlock hash) :=
  ⟨getFullBlock_transparent hash,fun w hw => by rw [getFullBlock_bare hw],getFullBlock_quiet hash,
    getFullBlock_interruptible hash⟩

theorem observe_getFullBlock (h : w.interrupt=none) (hash : Bytes32) :
    observe (getFullBlock hash) w = .ok (w.block? hash) := by
  rw [observe,getFullBlock_bare h]

theorem getBlockRecord_calm (h : w.interrupt=none) (hash : Bytes32) :
    getBlockRecord hash w=(.ok (w.record? hash),w) := by
  unfold getBlockRecord
  rw [Eff.bind_of_ok (fetch_calm h _)]
  rfl

theorem getBlockRecord_transparent (hash : Bytes32) : Transparent E (getBlockRecord hash) := by
  intro w hw
  rw [getBlockRecord_calm hw.calm,getBlockRecord_calm (w := w.bare) hw.calm]
  exact ⟨rfl,rfl,hw⟩

theorem getBlockRecord_observes (hash : Bytes32) : Observes E (getBlockRecord hash) :=
  ⟨getBlockRecord_transparent hash,fun w hw => by rw [getBlockRecord_calm (by exact hw)],
    quiet_bind (fetch_quiet _) fun _ => .refl,getBlockRecord_interruptible hash⟩

theorem observe_getBlockRecord (h : w.interrupt=none) (hash : Bytes32) :
    observe (getBlockRecord hash) w = .ok (w.record? hash) := by
  rw [observe,getBlockRecord_calm (by exact h)]
  rfl

def withBlock (hash : Bytes32) (block : FullBlock) (record : BlockRecord) (t : Tables) : Tables :=
  { t with
    fullBlocks := t.fullBlocks.set hash (.of block)
    blockRecords := t.blockRecords.set hash (.of block record) }

theorem addFullBlock_calm (h : w.interrupt=none) (hash : Bytes32) (block : FullBlock)
    (record : BlockRecord) : addFullBlock hash block record w =
      (.ok (),{ w with
        db := withBlock hash block record w.db
        saved := w.saved.or (some w.db)
        blockCache := w.blockCache.put hash block }) := by
  have hm : modifyBlockCache (·.put hash block) w =
      (.ok (),{ w with blockCache := w.blockCache.put hash block }) := rfl
  unfold addFullBlock
  rw [Eff.bind_of_ok hm,Eff.bind_of_ok (execute_calm (by exact h) _),execute_calm (by exact h)]
  simp [withBlock]

theorem addFullBlock_transparent (hash : Bytes32) (block : FullBlock) (record : BlockRecord) :
    Transparent E (addFullBlock hash block record) := by
  intro w hw
  rw [addFullBlock_calm hw.calm,addFullBlock_calm (w := w.bare) hw.calm]
  refine ⟨rfl,by simp [World.bare],hw.calm,?_,hw.coins,hw.named⟩
  have hb (k : Bytes32) : ((w.db.fullBlocks.set hash (.of block)).get? k).map (·.block) =
      if hash=k then some block else w.block? k := by
    rw [Dict.get?_set]
    split_ifs <;> rfl
  intro k v hv
  simp only [World.block?,withBlock,hb]
  obtain ⟨rfl,rfl⟩ | ⟨hne,hv'⟩ := LRUCache.get?_put _ hv
  · simp
  · rw [if_neg hne]
    exact hw.blocks k v hv'

def withPeak (hash : Bytes32) (t : Tables) : Tables :=
  { t with blockRecords := t.blockRecords.mapVals fun h r => { r with isPeak := decide (h=hash) } }

theorem setPeak_calm (h : w.interrupt=none) (hash : Bytes32) :
    setPeak hash w=(.ok (),{ w with db := withPeak hash w.db,saved := w.saved.or (some w.db) }) := by
  unfold setPeak
  rw [Eff.bind_of_ok (execute_calm h _),execute_calm (by exact h)]
  have hm (d : Dict Bytes32 BlockRecordRow) :
      (d.mapVals fun _ r => { r with isPeak := false }).mapVals
        (fun k r => if k=hash then { r with isPeak := true } else r) =
      d.mapVals fun k r => { r with isPeak := decide (k=hash) } := by
    simp only [Dict.mapVals,List.map_map,Dict.mk.injEq]
    apply List.map_congr_left
    rintro ⟨k,r⟩ -
    by_cases hk : k=hash <;> simp [hk]
  simp [withPeak,hm]

theorem setPeak_transparent (hash : Bytes32) : Transparent E (setPeak hash) := by
  intro w hw
  rw [setPeak_calm hw.calm,setPeak_calm (w := w.bare) hw.calm]
  exact ⟨rfl,rfl,hw.calm,hw.blocks,hw.coins,hw.named⟩

end BlockStore

namespace CoinStore

theorem getCoinRecord_bare (h : w.interrupt=none) (name : Bytes32) :
    getCoinRecord E name w.bare=(.ok (w.db.coinRecord.get? name),w.bare) := by
  have hf := fetch_calm (w := w.bare) h fun t => t.coinRecord.get? name
  unfold getCoinRecord
  rw [Eff.bind_get,Eff.bind_of_ok (modifyCoinCache_bare w _ rfl)]
  rw [show (w.bare.coinRecordCache.get name).1=none from rfl]
  dsimp only
  rw [Eff.bind_of_ok hf]
  cases hr : w.db.coinRecord.get? name with
  | none => simp [hr]
  | some r =>
    simp only [World.bare_db,hr]
    rw [Eff.bind_of_ok (modifyCoinCache_bare w _ (by simp))]
    rfl

theorem getCoinRecord_run (hw : Coherent E w) (name : Bytes32) :
    ∃ c,getCoinRecord E name w=(.ok (w.db.coinRecord.get? name),{ w with coinRecordCache := c }) ∧
      c.Within w.db.coinRecord.get? := by
  have hm : modifyCoinCache (fun c => (c.get name).2) w =
      (.ok (),{ w with coinRecordCache := (w.coinRecordCache.get name).2 }) := rfl
  unfold getCoinRecord
  rw [Eff.bind_get,Eff.bind_of_ok hm,LRUCache.get_fst]
  cases hc : w.coinRecordCache.cache.get? name with
  | some v =>
    refine ⟨_,?_,hw.coins.get name⟩
    rw [hw.coins name v hc]
    rfl
  | none =>
    dsimp only
    rw [Eff.bind_of_ok (fetch_calm (by exact hw.calm) _)]
    cases hr : w.db.coinRecord.get? name with
    | none => exact ⟨_,by simp,hw.coins.get name⟩
    | some r =>
      have hn : E.coinName r.coin=name := hw.named name r hr
      exact ⟨_,rfl,(hw.coins.get name).put (by rw [hn,hr])⟩

theorem getCoinRecord_transparent (name : Bytes32) : Transparent E (getCoinRecord E name) := by
  intro w hw
  obtain ⟨c,hrun,hc⟩ := getCoinRecord_run hw name
  rw [hrun,getCoinRecord_bare hw.calm]
  exact ⟨rfl,rfl,hw.calm,hw.blocks,hc,hw.named⟩

theorem getCoinRecord_quiet (name : Bytes32) (w : World) : Quiet E w (getCoinRecord E name w).2 := by
  have hseen : Quiet E w { w with coinRecordCache := (w.coinRecordCache.get name).2 } :=
    ⟨rfl,rfl,rfl,id,fun _ h => h.get name⟩
  unfold getCoinRecord
  rw [Eff.bind_get]
  have hmoved : (modifyCoinCache (fun c => (c.get name).2) : NodeM Unit) w =
      (.ok (),{ w with coinRecordCache := (w.coinRecordCache.get name).2 }) := rfl
  rw [Eff.bind_of_ok hmoved]
  refine hseen.trans ?_
  cases (w.coinRecordCache.get name).1 with
  | some cached => exact .refl _
  | none =>
    generalize ({ w with coinRecordCache := (w.coinRecordCache.get name).2 } : World)=v
    dsimp only
    obtain ⟨i,h | ⟨e,h⟩⟩ := fetch_cases (fun t => t.coinRecord.get? name) v
    · rw [Eff.bind_of_ok h]
      cases hrow : v.db.coinRecord.get? name with
      | none => exact quiet_due v i
      | some record =>
        refine ⟨rfl,rfl,rfl,id,fun hn h => h.put ?_⟩
        rw [hn name record hrow,hrow]
    · rw [Eff.bind_of_error h]
      exact quiet_due v i

theorem getCoinRecord_observes (name : Bytes32) : Observes E (getCoinRecord E name) :=
  ⟨getCoinRecord_transparent name,fun w hw => by rw [getCoinRecord_bare hw],getCoinRecord_quiet name,
    getCoinRecord_interruptible E name⟩

theorem observe_getCoinRecord (h : w.interrupt=none) (name : Bytes32) :
    observe (getCoinRecord E name) w = .ok (w.db.coinRecord.get? name) := by
  rw [observe,getCoinRecord_bare h]

theorem addCoinRecord_calm (h : w.interrupt=none) (r : CoinRecord) (allowReplace : Bool) :
    addCoinRecord E r allowReplace w=match insertCoin (E.coinName r.coin) r allowReplace w.db with
      | .ok db => (.ok (),{ w with
          db := db
          saved := w.saved.or (some w.db)
          coinRecordCache := w.coinRecordCache.erase (E.coinName r.coin) })
      | .error e =>
        (.error e,{ w with coinRecordCache := w.coinRecordCache.erase (E.coinName r.coin) }) := by
  have hm : modifyCoinCache (·.erase (E.coinName r.coin)) w =
      (.ok (),{ w with coinRecordCache := w.coinRecordCache.erase (E.coinName r.coin) }) := rfl
  unfold addCoinRecord
  rw [Eff.bind_of_ok hm,executeCheck_calm (by exact h)]

variable {r : CoinRecord}

theorem insertCoin_eq_ok {name : Bytes32} {allowReplace : Bool} {t t' : Tables} :
    insertCoin name r allowReplace t = .ok t' ↔
      (allowReplace=false → t.coinRecord.get? name=none) ∧
        t' = { t with coinRecord := t.coinRecord.set name r } := by
  unfold insertCoin
  cases allowReplace <;> cases t.coinRecord.get? name <;> simp [eq_comm]

theorem addCoinRecord_transparent (r : CoinRecord) (allowReplace : Bool) :
    Transparent E (addCoinRecord E r allowReplace) := by
  intro w hw
  rw [addCoinRecord_calm hw.calm,addCoinRecord_calm (w := w.bare) hw.calm]
  simp only [World.bare_db,World.bare_saved]
  cases hi : insertCoin (E.coinName r.coin) r allowReplace w.db with
  | error e => exact ⟨rfl,rfl,hw.calm,hw.blocks,hw.coins.erase fun _ _ => rfl,hw.named⟩
  | ok db =>
    obtain ⟨-,rfl⟩ := insertCoin_eq_ok.mp hi
    refine ⟨rfl,rfl,hw.calm,hw.blocks,?_,?_⟩
    · exact hw.coins.erase fun k hk => Dict.get?_set_of_ne _ _ (Ne.symm hk)
    · intro n v hv
      rw [Dict.get?_set] at hv
      split_ifs at hv with hn
      · simp only [Option.some.injEq] at hv
        rw [← hv,hn]
      · exact hw.named n v hv

theorem setSpent_transparent (name : Bytes32) (index : ℕ) : Transparent E (setSpent E name index) := by
  unfold setSpent
  refine (getCoinRecord_transparent name).bind fun r => ?_
  cases r with
  | none => exact transparent_raise _
  | some current =>
    exact (transparent_lift _).bind fun _ => (addCoinRecord_transparent _ _).bind fun _ =>
      transparent_pure _

theorem setSpentAll_transparent (index : ℕ) (names : List Bytes32) :
    Transparent E (setSpentAll E index names) := by
  induction names with
  | nil => exact transparent_pure _
  | cons name more ih =>
    exact (setSpent_transparent name index).bind fun _ => ih.bind fun _ => transparent_pure _

theorem newBlock_transparent (block : FullBlock) (txAdditions : List Coin)
    (txRemovals : List Bytes32) : Transparent E (newBlock E block txAdditions txRemovals) := by
  unfold newBlock
  cases block.foliageTransactionBlock with
  | none => exact transparent_pure _
  | some ftb =>
    refine (transparent_forM (fun _ => addCoinRecord_transparent _ _) _).bind fun _ => ?_
    refine (transparent_lift _).bind fun _ => (transparent_lift _).bind fun _ => ?_
    refine (transparent_forM (fun _ => addCoinRecord_transparent _ _) _).bind fun _ => ?_
    exact (setSpentAll_transparent _ _).bind fun _ => transparent_lift _

@[simp] theorem rolledBack_coin (blockIndex : ℤ) (r : CoinRecord) :
    (rolledBack blockIndex r).coin=r.coin := by
  unfold rolledBack
  split_ifs <;> rfl

/-- One record of the cache is rewritten, when it was spent too late. -/
def unspendCached (E : Env) (blockIndex : ℤ) (c : LRUCache Bytes32 CoinRecord) (r : CoinRecord) :
    LRUCache Bytes32 CoinRecord :=
  if (r.spentBlockIndex : ℤ) > blockIndex then
    c.put (E.coinName r.coin) { r with spentBlockIndex := 0,spent := false }
  else c

/-- The cache holds an original record, still to be visited, or a record rolled back. -/
structure Unspending (blockIndex : ℤ) (orig c : LRUCache Bytes32 CoinRecord) (l : List CoinRecord) :
    Prop where
  keys : ∀ k,k∈c.cache.keys ↔ k∈orig.cache.keys
  values : ∀ k v,c.cache.get? k=some v →
    ∃ r,orig.cache.get? k=some r ∧ (v=rolledBack blockIndex r ∨ v=r ∧ r∈l)

variable {blockIndex : ℤ} {orig c : LRUCache Bytes32 CoinRecord}

theorem Unspending.step {l : List CoinRecord} (h : Unspending blockIndex orig c (r::l))
    (hnamed : ∀ k v,orig.cache.get? k=some v → E.coinName v.coin=k)
    (hr : orig.cache.get? (E.coinName r.coin)=some r) :
    Unspending blockIndex orig (unspendCached E blockIndex c r) l := by
  have hmem : E.coinName r.coin∈c.cache.keys :=
    (h.keys _).mpr ((Dict.mem_keys _ _).mpr ⟨r,hr⟩)
  unfold unspendCached
  split_ifs with hs
  · have hget := LRUCache.get?_put_of_mem c { r with spentBlockIndex := 0,spent := false } hmem
    refine ⟨fun k => ?_,fun k v hv => ?_⟩
    · rw [Dict.mem_keys,hget,← h.keys k,Dict.mem_keys]
      split_ifs with hk
      · subst hk
        obtain ⟨v,hv⟩ := (Dict.mem_keys _ _).mp hmem
        simp [hv]
      · rfl
    · rw [hget] at hv
      split_ifs at hv with hk
      · subst hk
        simp only [Option.some.injEq] at hv
        exact ⟨r,hr,Or.inl (by rw [← hv,rolledBack,if_pos hs])⟩
      · obtain ⟨r',hr',hv' | ⟨hv',hmem'⟩⟩ := h.values k v hv
        · exact ⟨r',hr',Or.inl hv'⟩
        · refine ⟨r',hr',Or.inr ⟨hv',(List.mem_cons.mp hmem').resolve_left fun e => hk ?_⟩⟩
          rw [← e,hnamed k r' hr']
  · refine ⟨h.keys,fun k v hv => ?_⟩
    obtain ⟨r',hr',hv' | ⟨hv',hmem'⟩⟩ := h.values k v hv
    · exact ⟨r',hr',Or.inl hv'⟩
    · rcases List.mem_cons.mp hmem' with rfl | hl
      · exact ⟨r',hr',Or.inl (by rw [hv',rolledBack,if_neg hs])⟩
      · exact ⟨r',hr',Or.inr ⟨hv',hl⟩⟩

theorem Unspending.foldl (hnamed : ∀ k v,orig.cache.get? k=some v → E.coinName v.coin=k) (l : List CoinRecord)
    (hl : ∀ r∈l,orig.cache.get? (E.coinName r.coin)=some r)
    (h : Unspending blockIndex orig c l) :
    Unspending blockIndex orig (l.foldl (unspendCached E blockIndex) c) [] := by
  induction l generalizing c with
  | nil => exact h
  | cons r l ih =>
    exact ih (fun r' hr' => hl r' (by simp [hr'])) (h.step hnamed (hl r (by simp)))

theorem rollbackCache_ok {cache : LRUCache Bytes32 CoinRecord} {t : Dict Bytes32 CoinRecord}
    (hw : cache.Within t.get?) (hnamed : ∀ n r,t.get? n=some r → E.coinName r.coin=n)
    (blockIndex : ℤ) :
    ∃ c,rollbackCache E blockIndex cache = .ok c ∧ c.Within
      ((t.filter fun _ r => decide ((r.confirmedBlockIndex : ℤ)≤blockIndex)).mapVals
        fun _ r => rolledBack blockIndex r).get? := by
  have hn : ∀ k v,cache.cache.get? k=some v → E.coinName v.coin=k :=
    fun k v hv => hnamed k v (hw k v hv)
  have hvals : ∀ r∈cache.cache.values,cache.cache.get? (E.coinName r.coin)=some r := by
    intro r hr
    obtain ⟨⟨k,v⟩,hmem,rfl⟩ := List.mem_map.mp hr
    have hk := (Dict.mem_entries _ _ _).mp hmem
    rw [hn k v hk,hk]
  have hstart : Unspending blockIndex cache cache cache.cache.values := by
    refine ⟨fun k => Iff.rfl,fun k v hv => ⟨v,hv,Or.inr ⟨rfl,?_⟩⟩⟩
    exact List.mem_map.mpr ⟨(k,v),(Dict.mem_entries _ _ _).mpr hv,rfl⟩
  have hdone := hstart.foldl hn _ hvals
  have hq : ∀ k∈(cache.cache.entries.filter fun e =>
      decide ((e.2.confirmedBlockIndex : ℤ) > blockIndex)).map Prod.fst,
      k∈(cache.cache.values.foldl (unspendCached E blockIndex) cache).cache.keys := by
    intro k hk
    obtain ⟨⟨k',v⟩,hmem,rfl⟩ := List.mem_map.mp hk
    rw [hdone.keys,Dict.mem_keys]
    exact ⟨v,(Dict.mem_entries _ _ _).mp (List.mem_of_mem_filter hmem)⟩
  obtain ⟨c,hc,hget⟩ := LRUCache.foldlM_remove
    (cache.cache.nodup.sublist (List.filter_sublist.map Prod.fst)) hq
  refine ⟨c,hc,fun k v hv => ?_⟩
  rw [hget] at hv
  split_ifs at hv with hk
  obtain ⟨r,hr,rfl | ⟨-,hnil⟩⟩ := hdone.values k v hv
  · have hconf : (r.confirmedBlockIndex : ℤ)≤blockIndex := by
      by_contra hlt
      refine hk (List.mem_map.mpr ⟨(k,r),List.mem_filter.mpr ⟨(Dict.mem_entries _ _ _).mpr hr,?_⟩,
        rfl⟩)
      simpa using hlt
    simp [hw k r hr,Option.filter,hconf]
  · simp at hnil

/-- The coin table after everything above an index is undone. -/
def undone (blockIndex : ℤ) (t : Dict Bytes32 CoinRecord) : Dict Bytes32 CoinRecord :=
  (t.filter fun _ r => decide ((r.confirmedBlockIndex : ℤ)≤blockIndex)).mapVals
    fun _ r => rolledBack blockIndex r

theorem rollbackToBlock_run (hw : Coherent E w) (blockIndex : ℤ) :
    ∃ c,rollbackToBlock E blockIndex w=(.ok (),{ w with
        db := { w.db with coinRecord := undone blockIndex w.db.coinRecord }
        saved := w.saved.or (some w.db)
        coinRecordCache := c }) ∧
      c.Within (undone blockIndex w.db.coinRecord).get? := by
  obtain ⟨c,hc,hwithin⟩ := rollbackCache_ok hw.coins hw.named blockIndex
  refine ⟨c,?_,hwithin⟩
  have hl : (Eff.lift (rollbackCache E blockIndex w.coinRecordCache) : NodeM _) w=(.ok c,w) := by
    rw [Eff.lift_apply,hc]
  have hm : modifyCoinCache (fun _ => c) w=(.ok (),{ w with coinRecordCache := c }) := rfl
  unfold rollbackToBlock
  rw [Eff.bind_get,Eff.bind_of_ok hl,Eff.bind_of_ok hm,
    Eff.bind_of_ok (execute_calm (by exact hw.calm) _),execute_calm (by exact hw.calm)]
  simp [undone]

theorem rollbackToBlock_bare (h : w.interrupt=none) (blockIndex : ℤ) :
    rollbackToBlock E blockIndex w.bare=(.ok (),{ w.bare with
        db := { w.db with coinRecord := undone blockIndex w.db.coinRecord }
        saved := w.saved.or (some w.db) }) := by
  have hl : (Eff.lift (rollbackCache E blockIndex w.bare.coinRecordCache) : NodeM _) w.bare =
      (.ok (.new 0),w.bare) := rfl
  unfold rollbackToBlock
  rw [Eff.bind_get,Eff.bind_of_ok hl,
    Eff.bind_of_ok (modifyCoinCache_bare w _ rfl),Eff.bind_of_ok (execute_calm (by exact h) _),
    execute_calm (by exact h)]
  simp [undone]

theorem rollbackToBlock_transparent (blockIndex : ℤ) : Transparent E (rollbackToBlock E blockIndex) := by
  intro w hw
  obtain ⟨c,hrun,hc⟩ := rollbackToBlock_run hw blockIndex
  rw [hrun,rollbackToBlock_bare hw.calm]
  refine ⟨rfl,rfl,hw.calm,hw.blocks,hc,fun n r hr => ?_⟩
  simp only [undone,Dict.get?_mapVals,Dict.get?_filter,Option.map_eq_some_iff] at hr
  obtain ⟨r',hr',rfl⟩ := hr
  rw [rolledBack_coin]
  exact hw.named n r' (Option.filter_eq_some_iff.mp hr').1

end CoinStore
end RoseChain
