import RoseChain.FullNode.ReceiveBlockBatch

namespace RoseChain
open Lib Blockchain PreValidate
variable {E : Env} {w v s : World} {P Q : List FullBlock} {b : FullBlock} {r : BlockRecord}
  {wpSummaries : Option (List SubEpochSummary)} {pre : Option PreValidationResult}

/-- A pre-validation leaves all alone but the records in memory, the sets of heights and the caches.
-/
structure Aside (w v : World) : Prop where
  db : v.db=w.db
  saved : v.saved=w.saved
  heightToHash : v.chain.heightToHash=w.chain.heightToHash
  peakHeight : v.chain.peakHeight=w.chain.peakHeight
  blocks : w.blockCache.Within w.block? → v.blockCache.Within w.block?

theorem Aside.refl (w : World) : Aside w w := ⟨rfl,rfl,rfl,rfl,id⟩

theorem Aside.block? (h : Aside w v) : v.block?=w.block? := by
  unfold World.block?
  rw [h.db]

theorem Aside.quiet (h : Aside w v) (hq : Quiet E v s) : Aside w s := by
  refine ⟨hq.db.trans h.db,hq.saved.trans h.saved,?_,?_,fun hb => ?_⟩
  · rw [hq.chain,h.heightToHash]
  · rw [hq.chain,h.peakHeight]
  · have hcache := hq.blocks (by rw [h.block?]; exact h.blocks hb)
    rwa [h.block?] at hcache

section Keeps
variable {α : Type}

theorem keepsAside_pure (a : α) : Eff.Keeps (Aside w) (pure a : NodeM α) := .pure _ fun _ h => h

theorem keepsAside_lift (x : Check α) : Eff.Keeps (Aside w) (Eff.lift x : NodeM α) :=
  .lift (fun _ _ _ h => h) fun _ _ _ h => h

theorem keepsAside_modifyChain {f : Chain → Chain} (hh : ∀ c,(f c).heightToHash=c.heightToHash)
    (hp : ∀ c,(f c).peakHeight=c.peakHeight) : Eff.Keeps (Aside w) (modifyChain f) :=
  .modify fun _ hv => ⟨hv.db,hv.saved,(hh _).trans hv.heightToHash,(hp _).trans hv.peakHeight,hv.blocks⟩

end Keeps

theorem keepsAside_removeBlockRecord (h : Bytes32) : Eff.Keeps (Aside w) (removeBlockRecord h) := by
  refine .read fun _ _ => .bind (keepsAside_lift _) fun r => ?_
  refine .bind (keepsAside_modifyChain (fun _ => rfl) fun _ => rfl) fun _ => ?_
  refine .bind (keepsAside_lift _) fun hashes => .bind (keepsAside_lift _) fun _ => ?_
  exact keepsAside_modifyChain (fun _ => rfl) fun _ => rfl

section
variable (all : List (FullBlock × Bool))

theorem keepsAside_undo : Eff.Keeps (Aside w) (undo E all) := by
  induction all with
  | nil => exact keepsAside_pure _
  | cons p all ih =>
    obtain ⟨b,present⟩ := p
    refine .read fun _ _ => ?_
    split_ifs
    · exact .bind (keepsAside_removeBlockRecord _) fun _ => ih
    · exact ih

theorem keepsAside_removeTemporary : Eff.Keeps (Aside w) (removeTemporary E all) := by
  induction all with
  | nil => exact keepsAside_pure _
  | cons p all ih =>
    obtain ⟨b,present⟩ := p
    unfold removeTemporary
    split_ifs
    · exact .bind (keepsAside_removeBlockRecord _) fun _ => ih
    · exact ih

theorem keepsAside_loop (blocks : List FullBlock) (p : PreValidation) :
    Eff.Keeps (Aside w) (loop E all wpSummaries blocks p) := by
  induction blocks generalizing p with
  | nil => exact keepsAside_pure _
  | cons b more ih =>
    refine .read fun v _ => .bind (keepsAside_lift _) fun verdict => ?_
    cases verdict with
    | badProof => exact .bind (keepsAside_undo all) fun _ => keepsAside_pure _
    | otherSummary => exact keepsAside_pure _
    | valid r difficulty subSlotIters =>
      dsimp only
      cases v.chain.view.tryBlockRecord r.headerHash with
      | none => exact .bind (keepsAside_modifyChain (fun _ => rfl) fun _ => rfl) fun _ => ih _
      | some seen => exact ih _

end

theorem keepsAside_batchGenerators (blockDict : Dict Bytes32 FullBlock) (blocks : List FullBlock) :
    Eff.Keeps (Aside w) (batchGenerators E blockDict blocks) := by
  induction blocks with
  | nil => exact keepsAside_pure _
  | cons b blocks ih =>
    refine .bind (keepsAside_lift _) fun before => .bind ?_ fun g => ?_
    · intro v hv
      have hq := (getBlockGenerator_observes (E := E) b.body (some b.height) before).quiet v
      unfold noneOnValueError
      split <;> rename_i hrun <;> split at hrun <;> rename_i heq <;> rw [heq] at hq <;> cases hrun <;>
        exact hv.quiet hq
    · cases g with
      | none => exact keepsAside_pure _
      | some g => exact .bind ih fun _ => keepsAside_pure _

theorem keepsAside_poolBatches (blockDict : Dict Bytes32 FullBlock) (p : PreValidation)
    (batches : List (List (FullBlock × (ℕ × ℕ)))) :
    Eff.Keeps (Aside w) (poolBatches E blockDict p batches) := by
  induction batches with
  | nil => exact keepsAside_pure _
  | cons batch batches ih =>
    refine .bind (keepsAside_batchGenerators blockDict _) fun generators => ?_
    cases generators with
    | none => exact keepsAside_pure _
    | some generators => exact .bind ih fun _ => keepsAside_pure _

theorem keepsAside_await : Eff.Keeps (Aside w) await := by
  intro v hv
  obtain ⟨i,h | ⟨e,h⟩⟩ := await_cases v <;> rw [h] <;>
    exact ⟨hv.db,hv.saved,hv.heightToHash,hv.peakHeight,hv.blocks⟩

/-- Whatever its outcome, a pre-validation touches only the records in memory and the caches. -/
theorem preValidate_aside (w : World) (blocks : List FullBlock) (batchSize : ℕ)
    (pool : List PoolBatch → Check (List PreValidationResult)) :
    Aside w (preValidateBlocksMultiprocessing E blocks batchSize wpSummaries pool w).2 := by
  refine Eff.Keeps.state (I := Aside w) ?_ (Aside.refl w)
  refine .read fun v _ => .bind (keepsAside_lift _) fun recent => ?_
  cases recent with
  | none => exact keepsAside_pure _
  | some recent =>
    refine .bind (keepsAside_loop _ _ _) fun p => ?_
    cases p with
    | none => exact keepsAside_pure _
    | some p =>
      refine .bind (keepsAside_removeTemporary _) fun _ => .bind (keepsAside_lift _) fun batches => ?_
      refine .bind (keepsAside_poolBatches _ _ _) fun batches => ?_
      cases batches with
      | none => exact keepsAside_pure _
      | some batches => exact .bind keepsAside_await fun _ => .bind (keepsAside_lift _) fun _ => keepsAside_pure _

theorem Indexed.of_records (h : Indexed E w) (ha : Aside w v) (hr : SameRecords w.chain v.chain) : Indexed E v := by
  have hrec : v.record?=w.record? := by
    unfold World.record?
    rw [ha.db]
  have hforest : v.forest E=w.forest E := by
    unfold World.forest
    rw [ha.block?]
  refine ⟨ha.saved.trans h.closed,?_,?_,?_,fun k => ?_,?_,?_⟩
  · rw [ha.block?]
    exact h.key
  · rw [ha.block?,ha.db]
    exact h.row
  · rw [ha.block?,ha.db]
    exact h.block
  · rw [hr,hrec]
    exact h.memory k
  · rw [ha.block?,hforest]
    exact h.ancestors
  · rw [ha.block?]
    exact h.plain

theorem Resting.aside (h : Resting E w P) (ha : Aside w v) (hr : SameRecords w.chain v.chain) : Resting E v P :=
  ⟨h.indexed.of_records ha hr,h.main.of_eq ha.block? ha.heightToHash ha.peakHeight,
    by rw [ha.block?]; exact ha.blocks h.blocks⟩

/-- What a call has done whose answer lets the batch go on. -/
inductive Accepted (E : Env) (v s : World) (P : List FullBlock) (b : FullBlock)
    (pre : Option PreValidationResult) (forkPoint : Option ℕ) :
    ReceiveBlockResult → Option ℕ → List FullBlock → Prop
  | known (h : (v.block? (b.headerHash E)).isSome) (hb : s.block?=v.block?) :
      Accepted E v s P b pre forkPoint .alreadyHaveBlock none P
  | orphan {Q : List FullBlock} {r : BlockRecord} (ha : Arrival E v P Q b r) (h : ¬ Heavier P b)
      (he : Enters E v s b pre) : Accepted E v s P b pre forkPoint .addedAsOrphan none P
  | newPeak {Q : List FullBlock} {r : BlockRecord} {k : ℕ} (ha : Arrival E v P Q b r) (h : Heavier P b)
      (he : Enters E v s b pre) (hat : ForkAt P Q k)
      (hapart : k=0 → ∀ a,P[0]?=some a → (Q++[b])[0]?≠some a)
      (hmost : forkPoint=none → P≠[] → P <+: Q → k=P.length) :
      Accepted E v s P b pre forkPoint .newPeak (some (k-1)) (Q++[b])

theorem Arrival.forksAt_prefix {p : FullBlock} (ha : Arrival E w (P++[p]) Q b r) (hpre : P++[p] <+: Q) {f : ℤ}
    (hf : ForksAt w r none f) : f=P.length := by
  obtain ⟨rp,hpeak,hrp,hstored⟩ := getPeak_concat ha.indexed ha.main
  obtain ⟨peak,hpeak',hrun⟩ := hf
  obtain rfl : some rp=peak := Except.ok.inj (hpeak.symm.trans hpeak')
  have hrun := hrun rp rfl
  obtain ⟨h,hpath⟩ := ha.main.path (by simp)
  obtain ⟨p',hfind,hlast,hheight⟩ := hpath.last
  obtain rfl : p=p' := by simpa using hlast
  have hrpheight : rp.height=P.length := by
    have hlen : p.height+1=(P++[p]).length := hheight
    rw [hrp.height]
    simpa using hlen
  unfold reorgForkHeight at hrun
  split_ifs at hrun with hext
  · rw [← Except.ok.inj hrun,hrpheight]
  · obtain ⟨ps,qs,hps,hqs,hpr,hqr,hfork⟩ := findForkPoint_records ha hrp hstored
    have hlp := hpr.length_eq
    have hlq := hqr.length_eq
    have hle := hpre.length_le
    have hkeyed := ha.indexed.view_keyed
    have hrpath : w.chain.view.forest.Path rp.headerHash (ps++[rp]) :=
      Forest.path_iff.mpr ⟨rp,ps,by rw [hrp.headerHash]; exact hstored,rfl,hps⟩
    -- The record at the height of the peak is the peak's, and so are those below it.
    have hi : P.length<qs.length := by
      rw [← hlq]
      simp only [List.length_append,List.length_singleton] at hle
      omega
    have hiQ : P.length<Q.length := by omega
    have hrec : RecordOf E Q[P.length] qs[P.length] := hqr.get hiQ hi
    have hQp : Q[P.length]=p := by
      have hget := hpre.getElem (i := P.length) (by simp)
      rw [← hget]
      simp
    rw [hQp] at hrec
    have hqne : qs≠[] := List.ne_nil_of_length_pos (by omega)
    have hqpath : w.chain.view.forest.Path (qs[P.length].headerHash) (qs.take (P.length+1)) :=
      (hqs.2.resolve_left hqne).take hkeyed P.length hi
    rw [hrec.headerHash,← hrp.headerHash] at hqpath
    have hsame := hrpath.unique hqpath
    have hn : (ps++[rp]).length=P.length+1 := by
      rw [← hlp]
      simp
    have hcommon : (ps++[rp]).length ≤ common (qs++[r]) (ps++[rp]) := by
      refine le_common (by simp at hn ⊢; omega) (Nat.le_refl _) ?_
      rw [List.take_length,hn,List.take_append_of_le_length (by omega)]
      exact hsame.symm
    have hmax := common_le_right (qs++[r]) (ps++[rp])
    have hfr : f=_ := Except.ok.inj (hrun.symm.trans hfork)
    omega

variable {code : Option Err} {height : Option ℕ}

theorem receiveBlock_alreadyHave {forkPoint : Option ℕ}
    (h : (receiveBlock E b pre forkPoint v).1 = .ok (.alreadyHaveBlock,code,height)) :
    v.chain.view.containsBlock (b.headerHash E)=true ∧ height=none := by
  unfold receiveBlock at h
  rw [Eff.bind_get] at h
  split_ifs at h with hhave hdis
  · cases h
    exact ⟨hhave,rfl⟩
  · cases h
  · exfalso
    cases hx : (Eff.lift (hasWrongHeight v.chain.view b) : NodeM Bool) v with
    | mk a v' =>
      cases a with
      | error e =>
        rw [Eff.bind_of_error hx] at h
        cases h
      | ok wrong =>
        rw [Eff.bind_of_ok hx] at h
        cases wrong with
        | true => cases h
        | false =>
          change (validateAndAdd E b pre forkPoint v').1=_ at h
          cases hadd : validateAndAdd E b pre forkPoint v' with
          | mk a s =>
            rw [hadd] at h
            dsimp only at h
            rw [h] at hadd
            unfold validateAndAdd at hadd
            obtain ⟨x,v₂,-,hadd⟩ := Eff.bind_ok hadd
            cases x with
            | error code => cases hadd
            | ok p =>
              obtain ⟨o,v₃,-,hadd⟩ := Eff.bind_ok hadd
              cases o <;> cases hadd

theorem Resting.accepted (h : Resting E v P) {forkPoint : Option ℕ} (hfork : ProperFork E v b forkPoint)
    {result : ReceiveBlockResult} (hrun : receiveBlock E b pre forkPoint v=(.ok (result,code,height),s))
    (hgo : ¬ (result = .invalidBlock ∨ result = .disconnectedBlock)) :
    ∃ P',Resting E s P' ∧ Accepted E v s P b pre forkPoint result height P' := by
  have hrest : AtRest v v := ⟨rfl,h.indexed.closed,rfl,h.blocks⟩
  have harrival := @receiveBlock_arrival E v v P b pre forkPoint h hrest
  rw [hrun] at harrival
  obtain ⟨answer,s',hcall,hs,hno⟩ | ⟨r,npcResult,Q,v',ha,hweight,hv,hcall⟩ := harrival
  · -- The block is known.
    cases hcall
    have hresult : result = .alreadyHaveBlock := by
      obtain ⟨hnp,hno⟩ := hno _ _ _ rfl
      cases result <;> simp_all
    subst hresult
    obtain ⟨hhave,rfl⟩ := receiveBlock_alreadyHave (congrArg Prod.fst hrun)
    have hb : s.block?=v.block? := by
      unfold World.block?
      rw [hs.db]
    exact ⟨P,h.still ⟨rfl,rfl,rfl⟩ hs,.known (by simpa [h.indexed.contains_iff] using hhave) hb⟩
  · rw [Eff.map_apply] at hcall
    have hadd := addBlock_outcome ha hv forkPoint npcResult
    cases hres : addBlock E b r forkPoint npcResult v' with
    | mk o s' =>
      rw [hres] at hadd hcall
      cases hadd with
      | failed c hc hs => cases hcall
      | orphan hlight hs =>
        cases hcall
        exact ⟨P,ha.resting_orphan hlight hs,.orphan ha hlight (ha.enters hweight hs.block?)⟩
      | newPeak f change hheavy hg hf hc hs =>
        obtain ⟨k,hfk,hat,hapart⟩ := ha.forksAt hfork hheavy hg hf
        obtain ⟨j,hcut,hrecs⟩ := hc.records
        obtain rfl := CutAt.eq ha hat hfk hcut
        have hk : f.toNat=j-1 := by omega
        rw [hfk] at hs
        cases hcall
        rw [hk]
        refine ⟨_,ha.resting_newPeak hat hrecs hs,.newPeak ha hheavy (ha.enters hweight hs.block?) hat hapart ?_⟩
        intro hnone hne hpre
        subst hnone
        obtain rfl | ⟨P₀,p,rfl⟩ := P.eq_nil_or_concat
        · exact absurd rfl hne
        · rw [List.concat_eq_append] at *
          have hlen := ha.forksAt_prefix hpre hf
          rw [List.length_append,List.length_singleton]
          omega

/-- Blocks that each stand on the one before; a header hash fixes the height and the previous block. -/
structure ConnectedBlocks (E : Env) (w : World) (blocks : List FullBlock) : Prop where
  linked : ∀ l x y m,blocks=l++x::y::m → y.prevHeaderHash=x.headerHash E ∧ y.height=x.height+1
  faithful : ∀ b∈blocks,∀ x,(x∈blocks ∨ ∃ h,w.block? h=some x) → x.headerHash E=b.headerHash E →
    x.prevHeaderHash=b.prevHeaderHash ∧ x.height=b.height

/-- Among the blocks is a new one that is heavier than the peak. -/
def HeavyAmong (E : Env) (w : World) (P blocks : List FullBlock) : Prop :=
  ∃ before b after,blocks=before++b::after ∧ w.block? (b.headerHash E)=none ∧
    b.headerHash E∉before.map (·.headerHash E) ∧ Heavier P b

/-- The chain of a block and the main chain have the first block in common. -/
def Shares (E : Env) (w : World) (P : List FullBlock) (b : FullBlock) : Prop :=
  ∃ Q a,(w.forest E).OnTop Q b ∧ P[0]?=some a ∧ Q[0]?=some a

def CommonAt (P P' : List FullBlock) (height : Option ℕ) : Prop :=
  ∃ n a,height=some n ∧ P[n]?=some a ∧ P'[n]?=some a

theorem commonAt_none {P' : List FullBlock} : ¬ CommonAt P P' none := by
  rintro ⟨n,a,h,-⟩
  cases h

variable {blocks : List FullBlock}

theorem HeavyAmong.append (h : HeavyAmong E w P blocks) (more : List FullBlock) :
    HeavyAmong E w P (blocks++more) := by
  obtain ⟨before,x,after,rfl,hnew,hfirst,hheavy⟩ := h
  exact ⟨before,x,after++more,by simp,hnew,hfirst,hheavy⟩

theorem heavyAmong_concat : HeavyAmong E w P (blocks++[b]) ↔
    HeavyAmong E w P blocks ∨ w.block? (b.headerHash E)=none ∧ b.headerHash E∉blocks.map (·.headerHash E) ∧
      Heavier P b := by
  constructor
  · rintro ⟨before,x,after,heq,hnew,hfirst,hheavy⟩
    obtain rfl | ⟨after,y,rfl⟩ := after.eq_nil_or_concat
    · obtain ⟨rfl,hx⟩ := List.append_inj' heq rfl
      obtain rfl : b=x := by simpa using hx
      exact Or.inr ⟨hnew,hfirst,hheavy⟩
    · rw [List.concat_eq_append,← List.cons_append,← List.append_assoc] at heq
      obtain ⟨rfl,-⟩ := List.append_inj' heq rfl
      exact Or.inl ⟨before,x,after,rfl,hnew,hfirst,hheavy⟩
  · rintro (h | ⟨hnew,hfirst,hheavy⟩)
    · exact h.append [b]
    · exact ⟨blocks,b,[],rfl,hnew,hfirst,hheavy⟩

/-- Where a batch stands after some of its blocks: `P` is the main chain before it, `P'` the one now. -/
structure Underway (E : Env) (w : World) (P : List FullBlock) (first : FullBlock) (before : List FullBlock)
    (p : FullNode.BatchProgress) (v : World) (P' : List FullBlock) : Prop where
  resting : Resting E v P'
  grown : ∀ h x,w.block? h=some x → v.block? h=some x
  known : ∀ h x,v.block? h=some x → w.block? h=some x ∨ x∈before
  here : ∀ b∈before,(v.block? (b.headerHash E)).isSome
  branch : ∀ x,before.getLast?=some x → ∃ Q L,(w.forest E).OnTop Q first ∧ Q++[first] <+: L ∧
    (v.forest E).Path (x.headerHash E) L ∧ L.length=x.height+1 ∧ (p.advancedPeak=true → P' <+: L)
  waiting : p.advancedPeak=false → P'=P ∧ ¬ HeavyAmong E w P before
  moved : p.advancedPeak=true → HeavyAmong E w P before ∧
    ∃ q,P'.getLast?=some q ∧ w.block? (q.headerHash E)=none
  told : p.advancedPeak=true → (CommonAt P P' p.forkHeight ↔ ¬ HeavyAmong E w P before.dropLast ∧ Shares E w P first)

/-- The block comes next in a batch: it is the first one, or stands on the one before. -/
structure ComesNext (E : Env) (w : World) (first : FullBlock) (before : List FullBlock) (b : FullBlock) : Prop where
  first : before=[] → b=first ∧ w.block? (b.headerHash E)=none
  later : ∀ x,before.getLast?=some x → b.prevHeaderHash=x.headerHash E ∧ b.height=x.height+1
  faithful : ∀ x,(x∈before ∨ ∃ h,w.block? h=some x) → x.headerHash E=b.headerHash E →
    x.prevHeaderHash=b.prevHeaderHash ∧ x.height=b.height

section Step
variable {first : FullBlock} {before : List FullBlock} {p : FullNode.BatchProgress} {P' : List FullBlock}

theorem OnTop.grown (hg : ∀ h x,w.block? h=some x → v.block? h=some x)
    (h : (w.forest E).OnTop Q b) : (v.forest E).OnTop Q b := h.mono hg rfl rfl

section
variable (h : Underway E w P first before p v P')
include h

theorem Underway.advanced_ne_nil (hp : p.advancedPeak=true) : before≠[] := by
  obtain ⟨⟨before₀,x,after,rfl,-⟩,-⟩ := h.moved hp
  simp

theorem Underway.entered (hn : ComesNext E w first before b)
    (hQ : (v.forest E).OnTop Q b) : (∃ Q₀,(w.forest E).OnTop Q₀ first ∧ Q₀++[first] <+: Q++[b]) ∧
      (p.advancedPeak=true → P' <+: Q) := by
  obtain rfl | ⟨before₀,x,rfl⟩ := before.eq_nil_or_concat
  · obtain ⟨rfl,-⟩ := hn.first rfl
    have hback : ∀ k y,v.block? k=some y → w.block? k=some y := fun k y hy =>
      (h.known k y hy).resolve_right List.not_mem_nil
    exact ⟨⟨Q,OnTop.grown hback hQ,List.prefix_rfl⟩,fun hp => absurd rfl (h.advanced_ne_nil hp)⟩
  · have hlast : (before₀.concat x).getLast?=some x := by simp
    obtain ⟨Q₀,L,htop,hpre,hpath,-,hmain⟩ := h.branch x hlast
    obtain ⟨hprev,hheight⟩ := hn.later x hlast
    have hQpath : (v.forest E).Path (x.headerHash E) Q := by
      rw [← hprev]
      exact hQ.path (by rw [worldForest_height,hheight]; omega)
    obtain rfl := hQpath.unique hpath
    exact ⟨⟨Q₀,htop,hpre.trans (List.prefix_append _ _)⟩,hmain⟩

theorem Underway.passed (hn : ComesNext E w first before b)
    (hb : (v.block? (b.headerHash E)).isSome) : ∃ Q L,(w.forest E).OnTop Q first ∧ Q++[first] <+: L ∧
      (v.forest E).Path (b.headerHash E) L ∧ L.length=b.height+1 ∧ (p.advancedPeak=true → P' <+: L) := by
  obtain ⟨y,hy⟩ := Option.isSome_iff_exists.mp hb
  have hold : y∈before ∨ ∃ k,w.block? k=some y := (h.known _ y hy).symm.imp id fun hw => ⟨_,hw⟩
  obtain ⟨hprev',hheight'⟩ := hn.faithful y hold (h.resting.indexed.key _ _ hy)
  obtain rfl | ⟨before₀,x,rfl⟩ := before.eq_nil_or_concat
  · obtain ⟨-,hnew⟩ := hn.first rfl
    obtain hw | hmem := h.known _ y hy
    · rw [hnew] at hw
      cases hw
    · cases hmem
  · have hlast : (before₀.concat x).getLast?=some x := by simp
    obtain ⟨Q,L,htop,hpre,hpath,hlen,hmain⟩ := h.branch x hlast
    obtain ⟨hprev,hheight⟩ := hn.later x hlast
    refine ⟨Q,L++[y],htop,hpre.trans (List.prefix_append _ _),?_,?_,
      fun hp => (hmain hp).trans (List.prefix_append _ _)⟩
    · refine .step hy ?_ ?_
      · rw [worldForest_height,hheight',hheight,hlen]
      · rw [worldForest_parent,hprev',hprev]
        exact hpath
    · rw [List.length_append,List.length_singleton,hlen,hheight]

end

variable {k : ℕ}

theorem commonAt_iff_shares {Q₀ : List FullBlock} (htop : (w.forest E).OnTop Q₀ first)
    (hpre : Q₀++[first] <+: Q++[b]) (hfirst : w.block? (first.headerHash E)=none)
    (hstored : ∀ a∈P,w.block? (a.headerHash E)=some a) (hat : ForkAt P Q k)
    (hapart : k=0 → ∀ a,P[0]?=some a → (Q++[b])[0]?≠some a) :
    CommonAt P (Q++[b]) (some (k-1)) ↔ Shares E w P first := by
  have hleft := hat.left
  have hright := hat.right
  have hzero {a : FullBlock} (ha : Q₀[0]?=some a) : (Q++[b])[0]?=some a := by
    obtain ⟨hlt,hget⟩ := List.getElem?_eq_some_iff.mp ha
    have hl : 0<(Q₀++[first]).length := by simp
    rw [List.getElem?_eq_getElem (by simp),← hpre.getElem hl,List.getElem_append_left hlt,hget]
  constructor
  · rintro ⟨n,a,hn,hPa,hQa⟩
    have hk : 0<k := by
      by_contra hk
      obtain rfl : k=0 := by omega
      cases hn
      exact hapart rfl a hPa hQa
    have hsame := hat.getElem (i := 0) hk (by omega) (by omega)
    have hP0 : P[0]?=some Q[0] := by rw [List.getElem?_eq_getElem (by omega),hsame]
    cases Q₀ with
    | nil =>
      -- The first block of the batch is on no chain before.
      have hl : 0<([]++[first]).length := by simp
      have hget := hpre.getElem hl
      rw [List.getElem_append_left (by omega : 0<Q.length)] at hget
      have hmem : first∈P := by
        have hg : first=Q[0] := by simpa using hget
        rw [hg,← hsame]
        exact List.getElem_mem _
      rw [hstored first hmem] at hfirst
      cases hfirst
    | cons a₀ Q₁ =>
      have hget := hzero (a := a₀) rfl
      rw [List.getElem?_append_left (by omega),List.getElem?_eq_getElem (by omega),Option.some.injEq] at hget
      exact ⟨a₀::Q₁,a₀,htop,by rw [hP0,hget],rfl⟩
  · rintro ⟨Q₁,a,htop₁,hPa,hQa⟩
    obtain rfl := htop.unique htop₁
    have hk : 0<k := by
      by_contra hk
      exact hapart (by omega) a hPa (hzero hQa)
    refine ⟨k-1,Q[k-1],rfl,?_,?_⟩
    · rw [List.getElem?_eq_getElem (by omega),hat.getElem (by omega) (by omega) (by omega)]
    · rw [List.getElem?_append_left (by omega),List.getElem?_eq_getElem (by omega)]

theorem Underway.store (h : Underway E w P first before p v P') (he : Enters E v s b pre) :
    (∀ k x,w.block? k=some x → s.block? k=some x) ∧ (∀ k x,v.block? k=some x → s.block? k=some x) ∧
      (∀ k x,s.block? k=some x → w.block? k=some x ∨ x∈before++[b]) ∧
      (∀ x∈before++[b],(s.block? (x.headerHash E)).isSome) ∧ w.block? (b.headerHash E)=none ∧
      b.headerHash E∉before.map (·.headerHash E) := by
  have hkeep : ∀ k x,v.block? k=some x → s.block? k=some x := by
    intro k x hx
    have hne : b.headerHash E≠k := by
      rintro rfl
      rw [he.isNew] at hx
      cases hx
    rw [he.block?,if_neg hne,hx]
  refine ⟨fun k x hx => hkeep k x (h.grown k x hx),hkeep,fun k x hx => ?_,fun x hx => ?_,?_,fun hmem => ?_⟩
  · rw [he.block?] at hx
    split_ifs at hx
    · cases hx
      exact Or.inr (by simp)
    · exact (h.known k x hx).imp id fun hmem => by simp [hmem]
  · obtain hx | hx := List.mem_append.mp hx
    · obtain ⟨y,hy⟩ := Option.isSome_iff_exists.mp (h.here x hx)
      rw [hkeep _ y hy]
      rfl
    · rw [List.mem_singleton.mp hx,he.block?,if_pos rfl]
      rfl
  · by_contra hne
    obtain ⟨x,hx⟩ := Option.ne_none_iff_exists'.mp hne
    have hold := h.grown _ x hx
    rw [he.isNew] at hold
    cases hold
  · obtain ⟨x,hx,hxb⟩ := List.mem_map.mp hmem
    have hsome := h.here x hx
    rw [hxb,he.isNew] at hsome
    cases hsome

theorem Enters.path (he : Enters E v s b pre) (hkeep : ∀ k x,v.block? k=some x → s.block? k=some x)
    (hQ : (v.forest E).OnTop Q b) : (s.forest E).Path (b.headerHash E) (Q++[b]) :=
  Forest.path_iff.mpr ⟨b,Q,by rw [worldForest_find,he.block?,if_pos rfl],rfl,OnTop.grown hkeep hQ⟩

section
variable (h : Underway E w P first before p v P')
include h

section
variable (hn : ComesNext E w first before b)
include hn

theorem Underway.step_known
    (hres : Resting E s P') (hb : (v.block? (b.headerHash E)).isSome) (hs : s.block?=v.block?) :
    Underway E w P first (before++[b]) ⟨p.advancedPeak,none⟩ s P' := by
  have hforest : s.forest E=v.forest E := by
    unfold World.forest
    rw [hs]
  have hsame : HeavyAmong E w P (before++[b]) ↔ HeavyAmong E w P before := by
    rw [heavyAmong_concat]
    refine ⟨fun hor => hor.resolve_right ?_,Or.inl⟩
    rintro ⟨hnew,hfirst,-⟩
    obtain ⟨y,hy⟩ := Option.isSome_iff_exists.mp hb
    have hkey := h.resting.indexed.key _ _ hy
    obtain hw | hmem := h.known _ y hy
    · rw [hnew] at hw
      cases hw
    · exact hfirst (List.mem_map.mpr ⟨y,hmem,hkey⟩)
  refine ⟨hres,?_,?_,?_,?_,?_,?_,?_⟩
  · rw [hs]
    exact h.grown
  · intro k x hx
    rw [hs] at hx
    exact (h.known k x hx).imp id fun hmem => by simp [hmem]
  · intro x hx
    rw [hs]
    obtain hx | hx := List.mem_append.mp hx
    · exact h.here x hx
    · rw [List.mem_singleton.mp hx]
      exact hb
  · intro x hx
    obtain rfl : b=x := by simpa using hx
    rw [hforest]
    exact h.passed hn hb
  · rw [hsame]
    exact h.waiting
  · rw [hsame]
    exact h.moved
  · intro hp
    rw [List.dropLast_concat]
    exact iff_of_false commonAt_none fun hno => hno.1 (h.moved hp).1

theorem Underway.step_orphan
    (hres : Resting E s P') (hQ : (v.forest E).OnTop Q b) (hlight : ¬ Heavier P' b) (he : Enters E v s b pre) :
    Underway E w P first (before++[b]) ⟨p.advancedPeak,none⟩ s P' := by
  obtain ⟨hgrown,hkeep,hknown,hhere,hnew,hfirst⟩ := h.store he
  obtain ⟨⟨Q₀,htop,hpre⟩,hmain⟩ := h.entered hn hQ
  refine ⟨hres,hgrown,hknown,hhere,?_,?_,?_,?_⟩
  · intro x hx
    obtain rfl : b=x := by simpa using hx
    refine ⟨Q₀,Q++[b],htop,hpre,he.path hkeep hQ,?_,fun hp => (hmain hp).trans (List.prefix_append _ _)⟩
    have hheight : b.height=Q.length := hQ.1
    simp [hheight]
  · intro hp
    obtain ⟨hP,hno⟩ := h.waiting hp
    refine ⟨hP,fun hheavy => ?_⟩
    obtain hheavy | ⟨-,-,hheavy⟩ := heavyAmong_concat.mp hheavy
    · exact hno hheavy
    · exact hlight (hP ▸ hheavy)
  · intro hp
    exact ⟨(h.moved hp).1.append [b],(h.moved hp).2⟩
  · intro hp
    rw [List.dropLast_concat]
    exact iff_of_false commonAt_none fun hno => hno.1 (h.moved hp).1

theorem Underway.step_newPeak (hfirst : w.block? (first.headerHash E)=none)
    (hstored : ∀ a∈P,w.block? (a.headerHash E)=some a) (hres : Resting E s (Q++[b]))
    (hQ : (v.forest E).OnTop Q b) (hheavy : Heavier P' b) (he : Enters E v s b pre) (hat : ForkAt P' Q k)
    (hapart : k=0 → ∀ a,P'[0]?=some a → (Q++[b])[0]?≠some a)
    (hmost : p.advancedPeak=true → P'≠[] → P' <+: Q → k=P'.length) :
    Underway E w P first (before++[b]) ⟨true,some (k-1)⟩ s (Q++[b]) := by
  obtain ⟨hgrown,hkeep,hknown,hhere,hnew,hnotBefore⟩ := h.store he
  obtain ⟨⟨Q₀,htop,hpre⟩,hmain⟩ := h.entered hn hQ
  refine ⟨hres,hgrown,hknown,hhere,?_,fun hp => (by cases hp),fun _ => ⟨?_,b,by simp,hnew⟩,fun _ => ?_⟩
  · intro x hx
    obtain rfl : b=x := by simpa using hx
    refine ⟨Q₀,Q++[b],htop,hpre,he.path hkeep hQ,?_,fun _ => List.prefix_rfl⟩
    have hheight : b.height=Q.length := hQ.1
    simp [hheight]
  · cases hp : p.advancedPeak with
    | true => exact (h.moved hp).1.append [b]
    | false =>
      rw [(h.waiting hp).1] at hheavy
      exact heavyAmong_concat.mpr (Or.inr ⟨hnew,hnotBefore,hheavy⟩)
  · rw [List.dropLast_concat]
    cases hp : p.advancedPeak with
    | false =>
      obtain ⟨rfl,hno⟩ := h.waiting hp
      rw [commonAt_iff_shares htop hpre hfirst hstored hat hapart]
      exact ⟨fun hshares => ⟨hno,hshares⟩,fun hboth => hboth.2⟩
    | true =>
      -- The peak moved before: the fork told is a block of the batch.
      obtain ⟨hamong,q,hq,hqnew⟩ := h.moved hp
      refine iff_of_false ?_ fun hboth => hboth.1 hamong
      rintro ⟨n,a,hn',hPa,hQa⟩
      obtain ⟨P₀,rfl⟩ : ∃ P₀,P'=P₀++[q] := by
        obtain ⟨ys,hys⟩ := List.getLast?_eq_some_iff.mp hq
        exact ⟨ys,hys⟩
      have hk := hmost hp (by simp) (hmain hp)
      obtain rfl : k - 1=n := Option.some.inj hn'
      have hlen : k-1=P₀.length := by
        rw [hk]
        simp
      have hlt : P₀.length<(P₀++[q]).length := by simp
      have hget := ((hmain hp).trans (List.prefix_append Q [b])).getElem hlt
      have hqa : q=a := by
        rw [hlen,List.getElem?_eq_getElem
          (hlt.trans_le ((hmain hp).trans (List.prefix_append Q [b])).length_le),← hget,Option.some.injEq] at hQa
        simpa using hQa
      have hold := hstored a (List.mem_of_getElem? hPa)
      rw [← hqa,hqnew] at hold
      cases hold

theorem Underway.step
    (hfirst : w.block? (first.headerHash E)=none) (hstored : ∀ a∈P,w.block? (a.headerHash E)=some a)
    {forkPoint : Option ℕ} (hfork : p.advancedPeak=true → forkPoint=none) {result : ReceiveBlockResult}
    {height : Option ℕ} {P'' : List FullBlock} (hres : Resting E s P'')
    (hacc : Accepted E v s P' b pre forkPoint result height P'') :
    Underway E w P first (before++[b]) ⟨p.advancedPeak || decide (result = .newPeak),height⟩ s P'' := by
  cases hacc with
  | known hb hs => simpa using h.step_known hn hres hb hs
  | orphan ha hlight he => simpa using h.step_orphan hn hres ha.onTop hlight he
  | newPeak ha hheavy he hat hapart hmost =>
    simpa using h.step_newPeak hn hfirst hstored hres ha.onTop hheavy he hat hapart fun hp => hmost (hfork hp)

theorem Underway.properFork
    (hi : Indexed E w) (hm : MainChain E w P) {forkPoint : Option ℕ} (hf : ProperFork E w first forkPoint) :
    ProperFork E v b (if p.advancedPeak then none else forkPoint) := by
  intro f hfe
  cases hp : p.advancedPeak with
  | true => simp [hp] at hfe
  | false =>
    have hfe : forkPoint=some f := by simpa [hp] using hfe
    obtain ⟨P₀,Q,a,hP₀,htop,hPf,hQf⟩ := hf f hfe
    obtain rfl := hP₀.unique hi hm
    obtain ⟨rfl,-⟩ := h.waiting hp
    obtain rfl | ⟨before₀,x,rfl⟩ := before.eq_nil_or_concat
    · obtain ⟨rfl,-⟩ := hn.first rfl
      exact ⟨P',Q,a,h.resting.main,OnTop.grown h.grown htop,hPf,hQf⟩
    · have hlast : (before₀.concat x).getLast?=some x := by simp
      obtain ⟨Q',L,htop',hpre,hpath,hlen,-⟩ := h.branch x hlast
      obtain ⟨hprev,hheight⟩ := hn.later x hlast
      obtain rfl := htop.unique htop'
      refine ⟨P',L,a,h.resting.main,⟨?_,Or.inr ?_⟩,hPf,?_⟩
      · rw [worldForest_height,hheight,hlen]
      · rw [worldForest_parent,hprev]
        exact hpath
      · obtain ⟨hlt,hget⟩ := List.getElem?_eq_some_iff.mp hQf
        have hl : f<(Q++[first]).length := by
          rw [List.length_append]
          omega
        rw [List.getElem?_eq_getElem (hl.trans_le hpre.length_le),← hpre.getElem hl,List.getElem_append_left hlt,
          hget]

end

end

end Step

variable {more : List FullBlock}

theorem ConnectedBlocks.comesNext {first : FullBlock} {before : List FullBlock}
    (h : ConnectedBlocks E w (before++b::more)) (hhead : (before++b::more).head?=some first)
    (hfirst : w.block? (first.headerHash E)=none) : ComesNext E w first before b := by
  refine ⟨?_,?_,fun x hx => h.faithful b (by simp) x (hx.imp (fun hmem => by simp [hmem]) id)⟩
  · rintro rfl
    obtain rfl : b=first := by simpa using hhead
    exact ⟨rfl,hfirst⟩
  · intro x hx
    obtain ⟨before₀,rfl⟩ := List.getLast?_eq_some_iff.mp hx
    exact h.linked before₀ x b more (by simp)

theorem ConnectedBlocks.suffix (h : ConnectedBlocks E w blocks)
    (hs : more <:+ blocks) : ConnectedBlocks E w more := by
  refine ⟨?_,fun b hb x hx => h.faithful b (hs.subset hb) x (hx.imp (fun hmem => hs.subset hmem) id)⟩
  rintro l x y m rfl
  obtain ⟨before,rfl⟩ := hs
  exact h.linked (before++l) x y m (by simp)

namespace FullNode

theorem createPrevSubEpochSegments_state (handler : Option (World → Check Unit)) (b : FullBlock) (v : World) :
    (createPrevSubEpochSegments E handler b v).2=v := by
  unfold createPrevSubEpochSegments
  rw [Eff.bind_get]
  cases v.chain.view.blockRecord (b.headerHash E) with
  | error e => rfl
  | ok r =>
    rw [Eff.lift_ok_bind]
    cases handler with
    | none => rfl
    | some handler =>
      dsimp only
      split_ifs <;> rfl

theorem receiveAll_run {first : FullBlock} {before more : List FullBlock} {p : BatchProgress} {P' : List FullBlock}
    {forkPoint : Option ℕ} (handler : Option (World → Check Unit)) (results : List PreValidationResult)
    (hstart : Resting E w P) (hconn : ConnectedBlocks E w (before++more))
    (hhead : (before++more).head?=some first) (hfirst : w.block? (first.headerHash E)=none)
    (hf : ProperFork E w first forkPoint) (h : Underway E w P first before p v P') :
    (∃ P'',Resting E (receiveAll E handler forkPoint more results p v).2 P'') ∧
      ∀ advanced height,(receiveAll E handler forkPoint more results p v).1 = .ok (true,advanced,height) →
        ∃ P'',Underway E w P first (before++more) ⟨advanced,height⟩
          (receiveAll E handler forkPoint more results p v).2 P'' := by
  induction more generalizing before results p v P' with
  | nil =>
    refine ⟨⟨P',h.resting⟩,fun advanced height heq => ⟨P',?_⟩⟩
    rw [List.append_nil]
    cases heq
    exact h
  | cons b more ih =>
    have hn := hconn.comesNext hhead hfirst
    have hfork := h.properFork hn hstart.indexed hstart.main hf
    have hstored : ∀ a∈P,w.block? (a.headerHash E)=some a := by
      intro a ha
      obtain ⟨k,hk⟩ := hstart.main.path (List.ne_nil_of_mem ha)
      exact hk.find_mem hstart.indexed.keyed ha
    rw [receiveAll]
    cases hres : index results[0]? with
    | error e => exact ⟨⟨P',h.resting⟩,fun _ _ heq => by cases heq⟩
    | ok pre =>
      rw [Eff.lift_ok_bind]
      cases hassert : assertThat (pre.requiredIters.isSome=true) with
      | error e => exact ⟨⟨P',h.resting⟩,fun _ _ heq => by cases heq⟩
      | ok u =>
        rw [Eff.lift_ok_bind]
        cases hcall : receiveBlock E b (some pre) (if p.advancedPeak then none else forkPoint) v with
        | mk a s =>
          have hanswered : Answered E v _ P' b (some pre) _ := h.resting.answered hfork v.interrupt
          rw [due_of_eq rfl,hcall] at hanswered
          obtain ⟨P₁,hr,-⟩ := h.resting.moved hanswered
          cases a with
          | error e =>
            rw [Eff.bind_of_error hcall]
            exact ⟨⟨P₁,hr⟩,fun _ _ heq => by cases heq⟩
          | ok answer =>
            obtain ⟨result,code,height⟩ := answer
            rw [Eff.bind_of_ok hcall]
            dsimp only
            by_cases hgo : result = .invalidBlock ∨ result = .disconnectedBlock
            · rw [if_pos hgo]
              exact ⟨⟨P₁,hr⟩,fun _ _ heq => by cases heq⟩
            · rw [if_neg hgo]
              obtain ⟨P₂,hr₂,hacc⟩ := h.resting.accepted hfork hcall hgo
              have hnext := h.step hn hfirst hstored (fun hp => by rw [if_pos hp]) hr₂ hacc
              have hsame := createPrevSubEpochSegments_state (E := E) handler b s
              cases hseg : createPrevSubEpochSegments E handler b s with
              | mk a s' =>
                rw [hseg] at hsame
                obtain rfl : s'=s := hsame
                cases a with
                | error e =>
                  rw [Eff.bind_of_error hseg]
                  exact ⟨⟨P₁,hr⟩,fun _ _ heq => by cases heq⟩
                | ok u =>
                  rw [Eff.bind_of_ok hseg]
                  have hsplit : before++b::more=(before++[b])++more := by simp
                  rw [hsplit] at hconn hhead ⊢
                  exact ih results.tail hconn hhead hnext

/-- The fork point that a caller gives is one of the first block to validate. -/
def BatchFork (E : Env) (w : World) (allBlocks : List FullBlock) (forkPoint : Option ℕ) : Prop :=
  ∀ first,(blocksToValidate E w.chain.view allBlocks).head?=some first → ProperFork E w first forkPoint

/-- No block to validate but the last one is new and heavier than the peak, and the chain of the blocks has
its first block in common with the main chain. -/
def OneStep (E : Env) (w : World) (P blocks : List FullBlock) : Prop :=
  ¬ HeavyAmong E w P blocks.dropLast ∧ ∃ first,blocks.head?=some first ∧ Shares E w P first

variable {allBlocks : List FullBlock} {forkPoint : Option ℕ}
  {pool : List PoolBatch → Check (List PreValidationResult)} {handler : Option (World → Check Unit)}

theorem blocksToValidate_first (hi : Indexed E w) {first : FullBlock} {rest : List FullBlock}
    (h : blocksToValidate E w.chain.view allBlocks=first::rest) : w.block? (first.headerHash E)=none := by
  have hne : blocksToValidate E w.chain.view allBlocks≠[] := by
    rw [h]
    simp
  have hhead : w.chain.view.containsBlock (((blocksToValidate E w.chain.view allBlocks).head hne).headerHash E) =
      false := List.head_dropWhile_not _ hne
  have hfirst : (blocksToValidate E w.chain.view allBlocks).head hne=first := by simp [h]
  rw [hfirst] at hhead
  by_contra hsome
  have hcontains := (hi.contains_iff _).mpr (Option.isSome_iff_ne_none.mpr hsome)
  rw [hhead] at hcontains
  cases hcontains

/-- A batch from a node between calls leaves it at rest, unless the pre-validation left a record behind; where
all blocks are good, it stands at the end of the batch. -/
theorem receiveBlockBatch_run (h : Resting E w P) (hconn : ConnectedBlocks E w allBlocks)
    (hfork : BatchFork E w allBlocks forkPoint) :
    (¬ LeavesBehind E wpSummaries w.chain (blocksToValidate E w.chain.view allBlocks) →
      ∃ P',Resting E (receiveBlockBatch E allBlocks forkPoint wpSummaries pool handler w).2 P') ∧
    ∀ height,(receiveBlockBatch E allBlocks forkPoint wpSummaries pool handler w).1 = .ok (true,true,height) →
      ∃ first P',(blocksToValidate E w.chain.view allBlocks).head?=some first ∧
        Underway E w P first (blocksToValidate E w.chain.view allBlocks) ⟨true,height⟩
          (receiveBlockBatch E allBlocks forkPoint wpSummaries pool handler w).2 P' := by
  unfold receiveBlockBatch
  rw [Eff.bind_get]
  cases hblocks : blocksToValidate E w.chain.view allBlocks with
  | nil => exact ⟨fun _ => ⟨P,h⟩,fun _ heq => by cases heq⟩
  | cons first rest =>
    have hfirst := blocksToValidate_first h.indexed hblocks
    have haside : Aside w (preValidateBlocksMultiprocessing E (first::rest) 4 wpSummaries pool w).2 :=
      preValidate_aside w (first::rest) 4 pool
    rw [if_neg (by simp)]
    cases hpre : preValidateBlocksMultiprocessing E (first::rest) 4 wpSummaries pool w with
    | mk a v =>
      rw [hpre] at haside
      have hclean (hleft : ¬ LeavesBehind E wpSummaries w.chain (first::rest)) : Resting E v P := by
        have hsame := (preValidate_cases w 4 pool).resolve_right fun h => hleft h.1
        rw [hpre] at hsame
        exact h.aside haside hsame
      cases a with
      | error e =>
        rw [Eff.bind_of_error hpre]
        exact ⟨fun hleft => ⟨P,hclean hleft⟩,fun _ heq => by cases heq⟩
      | ok o =>
        rw [Eff.bind_of_ok hpre]
        cases o with
        | none => exact ⟨fun hleft => ⟨P,hclean hleft⟩,fun _ heq => by cases heq⟩
        | some results =>
          have hv : Resting E v P := h.aside haside (preValidate_returned hpre)
          dsimp only
          cases herr : anyError (first::rest) results with
          | error e => exact ⟨fun _ => ⟨P,hv⟩,fun _ heq => by cases heq⟩
          | ok bad =>
            rw [Eff.lift_ok_bind]
            cases bad with
            | true => exact ⟨fun _ => ⟨P,hv⟩,fun _ heq => by cases heq⟩
            | false =>
              have hstart : Underway E w P first [] ⟨false,some 0⟩ v P := by
                refine ⟨hv,?_,?_,?_,?_,fun _ => ⟨rfl,?_⟩,fun hp => (by cases hp),fun hp => (by cases hp)⟩
                · rw [haside.block?]
                  exact fun _ _ hx => hx
                · rw [haside.block?]
                  exact fun _ _ hx => Or.inl hx
                · simp
                · simp
                · rintro ⟨before,x,after,heq,-⟩
                  simp at heq
              have hconn' : ConnectedBlocks E w ([]++first::rest) := by
                rw [List.nil_append,← hblocks]
                exact hconn.suffix (List.dropWhile_suffix _)
              have hrun := receiveAll_run handler results h hconn' rfl hfirst (hfork first (by rw [hblocks]; rfl)) hstart
              exact ⟨fun _ => hrun.1,fun height heq => ⟨first,(hrun.2 true height heq).imp fun _ hu => ⟨rfl,hu⟩⟩⟩

end FullNode

/-- The runs of a node: single blocks and batches, in any order and interrupted anywhere, as long as no
pre-validation leaves a record behind. -/
inductive Synced (E : Env) : World → Prop
  | start (blockCacheSize coinCacheSize : ℕ) : Synced E (World.empty blockCacheSize coinCacheSize)
  | block {w : World} (h : Synced E w) {b : FullBlock} {pre : Option PreValidationResult} {forkPoint : Option ℕ}
      (hfork : ProperFork E w b forkPoint) (i : Option (ℕ × PyErr)) :
      Synced E (receiveBlock E b pre forkPoint (w.due i)).2
  | batch {w : World} (h : Synced E w) {allBlocks : List FullBlock} {forkPoint : Option ℕ}
      {wpSummaries : Option (List SubEpochSummary)} {pool : List PoolBatch → Check (List PreValidationResult)}
      {handler : Option (World → Check Unit)} (hconn : ConnectedBlocks E w allBlocks)
      (hfork : FullNode.BatchFork E w allBlocks forkPoint)
      (hclean : ¬ LeavesBehind E wpSummaries w.chain (FullNode.blocksToValidate E w.chain.view allBlocks))
      (i : Option (ℕ × PyErr)) :
      Synced E (FullNode.receiveBlockBatch E allBlocks forkPoint wpSummaries pool handler (w.due i)).2

theorem ProperFork.due {forkPoint : Option ℕ} (h : ProperFork E w b forkPoint) (i : Option (ℕ × PyErr)) :
    ProperFork E (w.due i) b forkPoint := by
  intro f hf
  obtain ⟨P,Q,a,hm,htop,hP,hQ⟩ := h f hf
  exact ⟨P,Q,a,hm.of_eq rfl rfl rfl,htop,hP,hQ⟩

theorem Synced.resting (h : Synced E w) : ∃ P,Resting E w P := by
  induction h with
  | start m n => exact ⟨[],indexed_empty m n,mainChain_empty m n,(coherent_empty (E := E) m n).blocks⟩
  | block _ hfork i ih =>
    obtain ⟨P,hrest⟩ := ih
    obtain ⟨P',hr,-⟩ := hrest.moved (hrest.answered hfork i)
    exact ⟨P',hr⟩
  | batch _ hconn hfork hclean i ih =>
    obtain ⟨P,hrest⟩ := ih
    exact (FullNode.receiveBlockBatch_run (hrest.due i) ⟨hconn.linked,hconn.faithful⟩
      fun first hfirst => (hfork first hfirst).due i).1 hclean

namespace FullNode
variable {allBlocks : List FullBlock} {forkPoint : Option ℕ}
  {pool : List PoolBatch → Check (List PreValidationResult)} {handler : Option (World → Check Unit)}

/-- In every run the fork height that a batch reports with a new peak is that of a common ancestor of the peaks
before and after it just where the last block alone makes the new peak. -/
theorem receiveBlockBatch_forkHeight (h : Synced E w) (hconn : ConnectedBlocks E w allBlocks)
    (hfork : BatchFork E w allBlocks forkPoint) (i : Option (ℕ × PyErr)) {height : Option ℕ}
    (hret : (receiveBlockBatch E allBlocks forkPoint wpSummaries pool handler (w.due i)).1 = .ok (true,true,height)) :
    ∃ P P',MainChain E w P ∧
      MainChain E (receiveBlockBatch E allBlocks forkPoint wpSummaries pool handler (w.due i)).2 P' ∧
      (CommonAt P P' height ↔ OneStep E w P (blocksToValidate E w.chain.view allBlocks)) := by
  obtain ⟨P,hrest⟩ := h.resting
  obtain ⟨first,P',hhead,hu⟩ := (receiveBlockBatch_run (hrest.due i) ⟨hconn.linked,hconn.faithful⟩
    fun first hfirst => (hfork first hfirst).due i).2 height hret
  refine ⟨P,P',hrest.main,hu.resting.main,(hu.told rfl).trans ?_⟩
  unfold OneStep
  constructor
  · rintro ⟨hlight,hshares⟩
    exact ⟨hlight,first,hhead,hshares⟩
  · rintro ⟨hlight,first',hhead',hshares⟩
    obtain rfl : first=first' := Option.some.inj (hhead.symm.trans hhead')
    exact ⟨hlight,hshares⟩

def acceptingPool (batches : List PoolBatch) : Check (List PreValidationResult) :=
  .ok (batches.flatMap fun batch => batch.blocks.map fun _ => ⟨none,some 1,none⟩)

theorem tinyState_synced (blocks : List FullBlock) : Synced tinyEnv (tinyState blocks) := by
  have hrun : ∀ w,Synced tinyEnv w → Synced tinyEnv
      (blocks.foldl (fun w b => (receiveBlock tinyEnv b tinyPre none (w.due none)).2) w) := by
    induction blocks with
    | nil => exact fun _ h => h
    | cons b blocks ih => exact fun w h => ih _ (h.block (fun _ hf => by cases hf) none)
  exact hrun _ (.start 5 5)

theorem connectedBlocks_of_new {w : World} {blocks : List FullBlock} (hi : Indexed E w)
    (hlinked : ∀ l x y m,blocks=l++x::y::m → y.prevHeaderHash=x.headerHash E ∧ y.height=x.height+1)
    (hnew : ∀ b∈blocks,w.block? (b.headerHash E)=none) (hnodup : (blocks.map (·.headerHash E)).Nodup) :
    ConnectedBlocks E w blocks := by
  refine ⟨hlinked,fun b hb x hx hsame => ?_⟩
  obtain hx | ⟨k,hk⟩ := hx
  · obtain rfl := List.inj_on_of_nodup_map hnodup hx hb hsame
    exact ⟨rfl,rfl⟩
  · have hstored := hnew b hb
    rw [← hsame,hi.key k x hk,hk] at hstored
    cases hstored

theorem connectedBlocks_pair {w : World} {x y : FullBlock} (hi : Indexed E w)
    (hlinked : y.prevHeaderHash=x.headerHash E ∧ y.height=x.height+1)
    (hnew : ∀ b∈[x,y],w.block? (b.headerHash E)=none) (hne : x.headerHash E≠y.headerHash E) :
    ConnectedBlocks E w [x,y] := by
  refine connectedBlocks_of_new hi (fun l x' y' m heq => ?_) hnew (by simpa using hne)
  cases l with
  | nil =>
    cases heq
    exact hlinked
  | cons z l =>
    have hlen := congrArg List.length heq
    simp at hlen
    omega

/-- A side branch that only its last block makes heavier. -/
theorem receiveBlockBatch_forkHeight_last : ∃ P P',
    MainChain tinyEnv (tinyState [tinyGenesis,tinyBlock 11 10 1 8,tinyBlock 12 11 2 9]) P ∧
    MainChain tinyEnv (receiveBlockBatch tinyEnv [proofBlock 21 10 1 8 0,proofBlock 22 21 2 15 0] none none acceptingPool
      none ((tinyState [tinyGenesis,tinyBlock 11 10 1 8,tinyBlock 12 11 2 9]).due none)).2 P' ∧
    (CommonAt P P' (some 0) ↔ OneStep tinyEnv (tinyState [tinyGenesis,tinyBlock 11 10 1 8,tinyBlock 12 11 2 9]) P
      (blocksToValidate tinyEnv (tinyState [tinyGenesis,tinyBlock 11 10 1 8,tinyBlock 12 11 2 9]).chain.view
        [proofBlock 21 10 1 8 0,proofBlock 22 21 2 15 0])) := by
  obtain ⟨Q,hrest⟩ := (tinyState_synced [tinyGenesis,tinyBlock 11 10 1 8,tinyBlock 12 11 2 9]).resting
  refine receiveBlockBatch_forkHeight (tinyState_synced _) ?_ (fun _ _ _ hf => by cases hf) none ?_
  · exact connectedBlocks_pair hrest.indexed (by decide) (by decide +kernel) (by decide)
  · decide +kernel

/-- A batch that switches to another branch and goes on there: the height reported is that of its first
block, which is not on the old chain. -/
theorem receiveBlockBatch_reorg_untold : ∃ w P P' allBlocks height,Synced tinyEnv w ∧
    ConnectedBlocks tinyEnv w allBlocks ∧ MainChain tinyEnv w P ∧
    (receiveBlockBatch tinyEnv allBlocks none none acceptingPool none w).1 = .ok (true,true,height) ∧
    MainChain tinyEnv (receiveBlockBatch tinyEnv allBlocks none none acceptingPool none w).2 P' ∧
    ¬ CommonAt P P' height := by
  obtain ⟨P,hrest⟩ := (tinyState_synced [tinyGenesis,tinyBlock 11 10 1 8]).resting
  have hconn : ConnectedBlocks tinyEnv (tinyState [tinyGenesis,tinyBlock 11 10 1 8])
      [proofBlock 21 10 1 9 0,proofBlock 22 21 2 10 0] :=
    connectedBlocks_pair hrest.indexed (by decide) (by decide +kernel) (by decide)
  have hret : (receiveBlockBatch tinyEnv [proofBlock 21 10 1 9 0,proofBlock 22 21 2 10 0] none none acceptingPool
      none (tinyState [tinyGenesis,tinyBlock 11 10 1 8])).1 = .ok (true,true,some 1) := by decide +kernel
  have hbefore : (tinyState [tinyGenesis,tinyBlock 11 10 1 8]).chain.heightToHash.get? 1=some 11 := by
    decide +kernel
  have hafter : (receiveBlockBatch tinyEnv [proofBlock 21 10 1 9 0,proofBlock 22 21 2 10 0] none none acceptingPool
      none (tinyState [tinyGenesis,tinyBlock 11 10 1 8])).2.chain.heightToHash.get? 1=some 21 := by
    decide +kernel
  obtain ⟨first,P',-,hu⟩ := (receiveBlockBatch_run hrest hconn fun _ _ _ hf => by cases hf).2 (some 1) hret
  refine ⟨_,P,P',_,some 1,tinyState_synced _,hconn,hrest.main,hret,hu.resting.main,?_⟩
  rintro ⟨n,a,hn,hPa,hQa⟩
  obtain rfl : 1=n := Option.some.inj hn
  obtain ⟨hlt,hget⟩ := List.getElem?_eq_some_iff.mp hPa
  obtain ⟨hlt',hget'⟩ := List.getElem?_eq_some_iff.mp hQa
  have h₁ := hrest.main.index 1 hlt
  have h₂ := hu.resting.main.index 1 hlt'
  rw [hbefore,hget] at h₁
  rw [hafter,hget',← h₁] at h₂
  exact absurd h₂ (by decide)

end FullNode
end RoseChain
