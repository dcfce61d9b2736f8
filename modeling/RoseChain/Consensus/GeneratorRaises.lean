import RoseChain.Consensus.GeneratorLookups

namespace RoseChain
open Lib Blockchain
variable {E : Env} {w s : World} {P Q l : List FullBlock} {b : FullBlock} {r : BlockRecord}
  {pre : Option PreValidationResult} {additionalBlocks : Dict Bytes32 FullBlock} {α β : Type}

/-- The index leads to stored blocks, and covers the heights below some height, which is above the peak after a
reorganization to a lower one. -/
structure Filed (w : World) : Prop where
  stored : ∀ i k,w.chain.heightToHash.get? i=some k → ∃ b,w.block? k=some b ∧ b.height=i
  full : ∃ n,∀ i,w.chain.heightToHash.get? i≠none ↔ i<n

theorem Filed.of_eq (h : Filed w) (hb : s.block?=w.block?)
    (hc : ∀ i,s.chain.heightToHash.get? i=w.chain.heightToHash.get? i) : Filed s := by
  obtain ⟨hstored,n,hfull⟩ := h
  refine ⟨fun i k hk => ?_,n,fun i => ?_⟩
  · rw [hc] at hk
    rw [hb]
    exact hstored i k hk
  · rw [hc]
    exact hfull i

theorem Arrival.filed_block (ha : Arrival E w P Q b r) {k : Bytes32} {x : FullBlock} (hx : w.block? k=some x) :
    (w.adding E b r).block? k=some x := by
  rw [adding_block?,if_neg,hx]
  rintro rfl
  rw [ha.isNew] at hx
  cases hx

theorem Filed.newPeak (h : Filed w) (hrest : Resting E w P) (ha : Arrival E w P Q b r) {k : ℕ}
    {records : List BlockRecord} (hat : ForkAt P Q k)
    (hrecs : List.Forall₂ (StoredAs E (w.adding E b r)) ((Q++[b]).drop k) records)
    (hs : Adding E w b r (peakAt (b.headerHash E) (w.adding E b r).db.blockRecords)
      { indexRecords records (addBlockRecord r (indexBefore w P (k-1))) with
        peakHeight := some r.height } none s) : Filed s := by
  obtain ⟨hstored,n,hfull⟩ := h
  have hleft := hat.left
  have hright := hat.right
  have hlen := hrecs.length_eq
  rw [List.length_drop,List.length_append,List.length_singleton] at hlen
  have hkn : k≤n := by
    rcases Nat.eq_zero_or_pos k with rfl | hpos
    · exact Nat.zero_le n
    · have hindex := hrest.main.index (k-1) (by omega)
      have := (hfull (k-1)).mp (by rw [hindex]; exact Option.some_ne_none _)
      omega
  refine ⟨fun i hash hi => ?_,max n (Q.length+1),fun i => ?_⟩
  · have hold (hi : w.chain.heightToHash.get? i=some hash) : ∃ x,s.block? hash=some x ∧ x.height=i := by
      obtain ⟨x,hx,hheight⟩ := hstored i hash hi
      exact ⟨x,by rw [hs.block?]; exact ha.filed_block hx,hheight⟩
    rw [ha.newPeak_heightToHash hrecs hs] at hi
    split_ifs at hi with hki
    · cases hrec : records[i-k]? with
      | none =>
        rw [hrec] at hi
        exact hold hi
      | some record =>
        rw [hrec] at hi
        have hlow := (List.getElem?_eq_some_iff.mp hrec).1
        have hlt : i<(Q++[b]).length := by
          rw [List.length_append,List.length_singleton]
          omega
        have hx : ((Q++[b]).drop k)[i-k]?=some (Q++[b])[i] := by
          rw [List.getElem?_drop,Nat.add_sub_cancel' hki,List.getElem?_eq_getElem hlt]
        obtain ⟨record',hrec',hstoredAs⟩ := forall₂_getElem? hrecs hx
        obtain rfl : record=record' := Option.some.inj (hrec.symm.trans hrec')
        have hpath := ha.path
        have hkeyed : ((w.adding E b r).forest E).Keyed := fun j y hy => (ha.recorded hy).1
        have hfind := hpath.find_getElem hkeyed i hlt
        refine ⟨(Q++[b])[i],?_,hpath.height_getElem i hlt⟩
        have hhash : hash=(Q++[b])[i].headerHash E := by
          rw [← hstoredAs.of.headerHash]
          exact (Option.some.inj hi).symm
        rw [hs.block?,hhash]
        exact hfind
    · exact hold hi
  · rw [ha.newPeak_heightToHash hrecs hs]
    split_ifs with hki
    · by_cases hin : i-k < records.length
      · rw [List.getElem?_eq_getElem hin]
        refine iff_of_true (Option.some_ne_none _) ?_
        omega
      · rw [List.getElem?_eq_none (by omega),Option.map_none,Option.none_or,hfull]
        omega
    · rw [hfull]
      omega

theorem Filed.answered {answer : Check (ReceiveBlockResult × Option Err × Option ℕ)} (hrest : Resting E w P)
    (h : Filed w) (ha : Answered E w s P b pre answer) : ∃ P',Resting E s P' ∧ Filed s := by
  cases ha with
  | still hs hno =>
    have hb : s.block?=w.block? := by
      unfold World.block?
      rw [hs.db]
    exact ⟨P,hrest.still ⟨rfl,rfl,rfl⟩ hs,h.of_eq hb fun i => by rw [hs.chain]⟩
  | raised c hc hs =>
    have hb : s.block?=w.block? := by
      unfold World.block?
      rw [hs.db]
    exact ⟨P,hrest.still hc hs,h.of_eq hb fun i => by rw [hs.chain,hc.heightToHash]⟩
  | orphan ha hweight hheavy hs =>
    refine ⟨P,ha.resting_orphan hheavy hs,⟨fun i k hk => ?_,?_⟩⟩
    · rw [hs.chain] at hk
      obtain ⟨x,hx,hheight⟩ := h.stored i k hk
      exact ⟨x,by rw [hs.block?]; exact ha.filed_block hx,hheight⟩
    · rw [hs.chain]
      exact h.full
  | newPeak ha hweight hheavy hat hapart hrecs hs =>
    exact ⟨_,ha.resting_newPeak hat hrecs hs,h.newPeak hrest ha hat hrecs hs⟩

/-- The states that calls of `receive_block` lead to; a call may be interrupted and may raise. -/
inductive Received (E : Env) : World → Prop
  | start (blockCacheSize coinCacheSize : ℕ) : Received E (World.empty blockCacheSize coinCacheSize)
  | call {w : World} (h : Received E w) {b : FullBlock} {pre : Option PreValidationResult}
      {forkPointWithPeak : Option ℕ} (hfork : ProperFork E w b forkPointWithPeak) (i : Option (ℕ × PyErr)) :
      Received E (receiveBlock E b pre forkPointWithPeak (w.due i)).2

theorem Received.filed (h : Received E w) : ∃ P,Resting E w P ∧ Filed w := by
  induction h with
  | start m n =>
    refine ⟨[],⟨indexed_empty m n,mainChain_empty m n,(coherent_empty (E := E) m n).blocks⟩,?_,0,fun i => ?_⟩
    · intro i k hk
      cases hk
    · exact iff_of_false (fun h => h rfl) (Nat.not_lt_zero i)
  | call h hfork i ih =>
    obtain ⟨P,hrest,hfiled⟩ := ih
    exact hfiled.answered hrest (hrest.answered hfork i)

/-- The computation returns, or raises `ValueError`, which the callers of `get_block_generator` catch. -/
def FailsCleanly (x : Check α) : Prop := ∀ e,x = .error e → e = .raised .value

theorem failsCleanly_ok (a : α) : FailsCleanly (.ok a : Check α) := by
  intro e h
  cases h

theorem not_failsCleanly {e : PyErr} (he : e ≠ .value) : ¬ FailsCleanly (.error (.raised e) : Check α) :=
  fun h => he (Fail.raised.inj (h _ rfl))

theorem failsCleanly_bind_ok {x : Check α} (f : α → β) : FailsCleanly (x >>= fun a => .ok (f a)) ↔ FailsCleanly x := by
  cases x with
  | error e => exact ⟨fun h e' he => h e' (by rw [← Except.error.inj he]; rfl),fun h e' he => h e' (by
      rw [← Except.error.inj he])⟩
  | ok a => exact iff_of_true (failsCleanly_ok _) (failsCleanly_ok a)

/-- The block that a reference leads to: an own ancestor on a side branch, otherwise what the index has there. -/
def World.referred (w : World) (l : List FullBlock) (prevHeaderHash : Bytes32) (ref : ℕ) : Option FullBlock :=
  if ref<l.length ∧ w.chain.heightToHash.get? (l.length-1)≠some prevHeaderHash then l[ref]?
  else w.indexedBlock ref

/-- The lookup raises another exception: an assertion for references without a generator, else a missing key for
the height of the previous block or for the first such reference. -/
def LookupBreaks (w : World) (l : List FullBlock) (block : BlockBody) : Prop :=
  block.transactionsGeneratorRefList≠[] ∧
    (block.transactionsGenerator=none ∨
      (w.block? block.prevHeaderHash≠none ∧ w.chain.heightToHash.get? (l.length-1)=none) ∨
      ∃ before ref after,block.transactionsGeneratorRefList=before++ref::after ∧
        (∀ r∈before,∃ b,w.referred l block.prevHeaderHash r=some b ∧ b.transactionsGenerator≠none) ∧
        l.length ≤ ref ∧ w.chain.heightToHash.get? ref=none)

theorem Filed.referredArg_eq (h : Filed w) (branch : Dict ℕ FullBlock) (ref : ℕ) :
    w.referredArg branch ref=lookup ((branch.get? ref).or (w.indexedBlock ref)) >>= generatorArg := by
  unfold World.referredArg World.indexedBlock
  cases branch.get? ref with
  | some b => rfl
  | none =>
    cases hk : w.chain.heightToHash.get? ref with
    | none => rfl
    | some k =>
      obtain ⟨b,hb,-⟩ := h.stored ref k hk
      rw [Option.none_or,Option.bind_some]
      change (assertSome (w.block? k) >>= generatorArg)=_
      rw [hb]
      rfl

theorem Filed.indexedBlock_eq_none (h : Filed w) (ref : ℕ) :
    w.indexedBlock ref=none ↔ w.chain.heightToHash.get? ref=none := by
  unfold World.indexedBlock
  cases hk : w.chain.heightToHash.get? ref with
  | none => exact iff_of_true rfl rfl
  | some k =>
    obtain ⟨b,hb,-⟩ := h.stored ref k hk
    rw [Option.bind_some,hb]
    exact iff_of_false (Option.some_ne_none b) (Option.some_ne_none k)

theorem lookup_generatorArg (o : Option FullBlock) :
    ((∃ arg,lookup o >>= generatorArg = .ok arg) ↔ ∃ b,o=some b ∧ b.transactionsGenerator≠none) ∧
    (FailsCleanly (lookup o >>= generatorArg) ↔ o≠none) := by
  cases o with
  | none =>
    refine ⟨iff_of_false ?_ ?_,iff_of_false (not_failsCleanly (by decide)) (fun h => h rfl)⟩
    · rintro ⟨arg,h⟩
      cases h
    · rintro ⟨b,h,-⟩
      cases h
  | some b =>
    have hrun : (lookup (some b) >>= generatorArg)=generatorArg b := rfl
    rw [hrun]
    unfold generatorArg
    cases hg : b.transactionsGenerator with
    | none =>
      refine ⟨iff_of_false ?_ ?_,iff_of_true ?_ (Option.some_ne_none b)⟩
      · rintro ⟨arg,h⟩
        cases h
      · rintro ⟨b',hb,hgen⟩
        rw [← Option.some.inj hb] at hgen
        exact hgen hg
      · exact fun e he => (Except.error.inj he).symm
    | some generator =>
      refine ⟨iff_of_true ⟨_,rfl⟩ ⟨b,rfl,?_⟩,iff_of_true (failsCleanly_ok _) (Option.some_ne_none b)⟩
      rw [hg]
      exact Option.some_ne_none generator

theorem Filed.references_failCleanly (h : Filed w) {branch : Dict ℕ FullBlock} {f : ℕ → Option FullBlock}
    (hf : ∀ ref,(branch.get? ref).or (w.indexedBlock ref)=f ref) (refs : List ℕ) :
    FailsCleanly (refs.mapM (w.referredArg branch)) ↔ ¬ ∃ before ref after,refs=before++ref::after ∧
        (∀ r∈before,∃ b,f r=some b ∧ b.transactionsGenerator≠none) ∧ f ref=none := by
  have harg (ref : ℕ) : w.referredArg branch ref=lookup (f ref) >>= generatorArg := by
    rw [h.referredArg_eq,hf]
  have hreturns (ref : ℕ) : (∃ arg,w.referredArg branch ref = .ok arg) ↔
      ∃ b,f ref=some b ∧ b.transactionsGenerator≠none := by
    rw [harg]
    exact (lookup_generatorArg (f ref)).1
  have hclean (ref : ℕ) : FailsCleanly (w.referredArg branch ref) ↔ f ref≠none := by
    rw [harg]
    exact (lookup_generatorArg (f ref)).2
  constructor
  · rintro hall ⟨before,ref,after,rfl,hbefore,hnone⟩
    refine (hclean ref).mp (fun e he => hall e ?_) hnone
    exact mapM_eq_error.mpr ⟨before,ref,after,rfl,fun r hr => (hreturns r).mpr (hbefore r hr),he⟩
  · intro hno e he
    obtain ⟨before,ref,after,rfl,hbefore,herr⟩ := mapM_eq_error.mp he
    refine (hclean ref).mpr (fun hnone => hno ?_) e herr
    exact ⟨before,ref,after,rfl,fun r hr => (hreturns r).mp (hbefore r hr),hnone⟩

section Lookup
variable {block : BlockBody} {height : Option ℕ}

theorem tryBlockRecord_none (hrest : Resting E w P) (hfiled : Filed w) (hb : w.block? block.prevHeaderHash=none) :
    w.chain.view.tryBlockRecord block.prevHeaderHash=none ∧
    w.chain.heightToHash.get? (l.length-1)≠some block.prevHeaderHash := by
  refine ⟨?_,fun hk => ?_⟩
  · cases htry : w.chain.view.tryBlockRecord block.prevHeaderHash with
    | none => rfl
    | some r =>
      obtain ⟨b,hb',-⟩ := hrest.indexed.blockOf htry
      rw [hb] at hb'
      cases hb'
  · obtain ⟨b,hb',-⟩ := hfiled.stored _ _ hk
    rw [hb] at hb'
    cases hb'

theorem tryBlockRecord_some (hrest : Resting E w P) (ha : Additional w additionalBlocks)
    (hl : FitsAncestors E w additionalBlocks block.prevHeaderHash height l) {b : FullBlock} (hb : w.block? block.prevHeaderHash=some b) :
    ∃ r,w.chain.view.tryBlockRecord block.prevHeaderHash=some r ∧ r.height=l.length-1 := by
  have hfind := ha.find (E := E) hb
  have hpath : (w.forestWith E additionalBlocks).Path block.prevHeaderHash l := by
    refine hl.path.resolve_left fun h => ?_
    rw [h.2] at hfind
    cases hfind
  obtain ⟨y,hy,-,hlen⟩ := hpath.last
  obtain rfl : y=b := Option.some.inj (hy.symm.trans hfind)
  have hyh : y.height+1=l.length := hlen
  obtain ⟨r,hr,hrec⟩ := hrest.indexed.record hb
  refine ⟨r,(hrest.indexed.memory _).trans hrec,?_⟩
  rw [hr.height]
  omega

variable {branch : Dict ℕ FullBlock}

theorem referred_eq (hrest : Resting E w P)
    (hmain : w.chain.heightToHash.get? (l.length-1)=some block.prevHeaderHash → branch=Dict.empty)
    (hside : w.chain.heightToHash.get? (l.length-1)≠some block.prevHeaderHash →
      (∀ h,h<l.length → branch.get? h=l[h]? ∨ branch.get? h=none ∧ P[h]?=l[h]?) ∧
      ∀ h,l.length≤h → branch.get? h=none) (ref : ℕ) :
    (branch.get? ref).or (w.indexedBlock ref)=w.referred l block.prevHeaderHash ref := by
  unfold World.referred
  by_cases hon : w.chain.heightToHash.get? (l.length-1)=some block.prevHeaderHash
  · rw [hmain hon,if_neg fun h => h.2 hon]
    rfl
  · obtain ⟨hlow,hhigh⟩ := hside hon
    by_cases href : ref<l.length
    · rw [if_pos ⟨href,hon⟩]
      rcases hlow ref href with heq | ⟨hnone,hP⟩
      · rw [heq,List.getElem?_eq_getElem href,Option.some_or]
      · rw [hnone,Option.none_or,← hP]
        rw [List.getElem?_eq_getElem href] at hP
        obtain ⟨hlt,-⟩ := List.getElem?_eq_some_iff.mp hP
        unfold World.indexedBlock
        rw [hrest.main.index ref hlt,Option.bind_some,hrest.stored (List.getElem_mem hlt),
          List.getElem?_eq_getElem hlt]
    · rw [if_neg fun h => href h.1,hhigh ref (by omega),Option.none_or]

theorem referred_eq_none (hfiled : Filed w) (ref : ℕ) :
    w.referred l block.prevHeaderHash ref=none ↔ l.length ≤ ref ∧ w.chain.heightToHash.get? ref=none := by
  unfold World.referred
  by_cases hon : w.chain.heightToHash.get? (l.length-1)=some block.prevHeaderHash
  · rw [if_neg fun h => h.2 hon,hfiled.indexedBlock_eq_none]
    refine ⟨fun hnone => ⟨?_,hnone⟩,And.right⟩
    obtain ⟨n,hn⟩ := hfiled.full
    have htop := (hn (l.length-1)).mp (by rw [hon]; exact Option.some_ne_none _)
    by_contra hlt
    exact (hn ref).mpr (by omega) hnone
  · by_cases href : ref<l.length
    · rw [if_pos ⟨href,hon⟩,List.getElem?_eq_getElem href]
      refine iff_of_false (Option.some_ne_none _) fun h => ?_
      exact absurd h.1 (not_le.mpr href)
    · rw [if_neg fun h => href h.1,hfiled.indexedBlock_eq_none]
      exact (and_iff_right (not_lt.mp href)).symm

/-- Whether the previous block is on the main chain, as the lookup finds out. -/
def onMainChain (c : Chain) (prevHeaderHash : Bytes32) : Check Bool := do
  match c.view.tryBlockRecord prevHeaderHash with
  | none => return false
  | some prev => return decide ((← c.view.heightToHash prev.height)=prevHeaderHash)

/-- The height of the previous block of a stored branch may be missing from the index. -/
def PrevMissing (w : World) (l : List FullBlock) (prevHeaderHash : Bytes32) : Prop :=
  w.block? prevHeaderHash≠none ∧ w.chain.heightToHash.get? (l.length-1)=none

theorem onMainChain_missing (hrest : Resting E w P) (ha : Additional w additionalBlocks)
    (hl : FitsAncestors E w additionalBlocks block.prevHeaderHash height l)
    (h : PrevMissing w l block.prevHeaderHash) : onMainChain w.chain block.prevHeaderHash = .error (.raised .key) := by
  obtain ⟨b,hb⟩ := Option.ne_none_iff_exists'.mp h.1
  obtain ⟨r,htry,hr⟩ := tryBlockRecord_some hrest ha hl hb
  unfold onMainChain
  rw [htry]
  change lookup (w.chain.heightToHash.get? r.height) >>= _=_
  rw [hr,h.2]
  rfl

theorem onMainChain_found (hrest : Resting E w P) (hfiled : Filed w) (ha : Additional w additionalBlocks)
    (hl : FitsAncestors E w additionalBlocks block.prevHeaderHash height l)
    (h : ¬ PrevMissing w l block.prevHeaderHash) : onMainChain w.chain block.prevHeaderHash =
      .ok (decide (w.chain.heightToHash.get? (l.length-1)=some block.prevHeaderHash)) := by
  unfold onMainChain
  cases hb : w.block? block.prevHeaderHash with
  | none =>
    obtain ⟨htry,hoff⟩ := tryBlockRecord_none hrest hfiled hb
    rw [htry,decide_eq_false hoff]
    rfl
  | some b =>
    obtain ⟨r,htry,hr⟩ := tryBlockRecord_some hrest ha hl hb
    cases hk : w.chain.heightToHash.get? (l.length-1) with
    | none => exact absurd ⟨by rw [hb]; exact Option.some_ne_none b,hk⟩ h
    | some k =>
      rw [htry]
      change lookup (w.chain.heightToHash.get? r.height) >>= _=_
      rw [hr,hk]
      simp [lookup,bind,Except.bind,pure,Except.pure]

theorem generatorArgs_reads (generator : SerializedProgram) (refs : List ℕ) (branch : Dict ℕ FullBlock) :
    Reads w (do return some (⟨generator,← refs.mapM (generatorArgAt branch)⟩ : BlockGenerator))
      (refs.mapM (w.referredArg branch) >>= fun args => .ok (some ⟨generator,args⟩)) :=
  (Reads.mapM (generatorArgAt_reads branch) _).bind fun _ _ => Reads.pure _

theorem references_failCleanly_iff (hfiled : Filed w) {generator : SerializedProgram}
    (hgen : block.transactionsGenerator=some generator) (hrefs : block.transactionsGeneratorRefList≠[])
    (hprev : ¬ PrevMissing w l block.prevHeaderHash)
    (hbranch : ∀ ref,(branch.get? ref).or (w.indexedBlock ref)=w.referred l block.prevHeaderHash ref) :
    FailsCleanly (block.transactionsGeneratorRefList.mapM (w.referredArg branch) >>= fun args =>
      .ok (some (⟨generator,args⟩ : BlockGenerator))) ↔ ¬ LookupBreaks w l block := by
  rw [failsCleanly_bind_ok,hfiled.references_failCleanly hbranch]
  apply not_congr
  constructor
  · intro ⟨before,ref,after,heq,hbefore,hnone⟩
    exact ⟨hrefs,Or.inr (Or.inr ⟨before,ref,after,heq,hbefore,(referred_eq_none hfiled ref).mp hnone⟩)⟩
  · intro ⟨_,hbreaks⟩
    obtain hno | hmissing | ⟨before,ref,after,heq,hbefore,hnone⟩ := hbreaks
    · rw [hgen] at hno
      cases hno
    · exact absurd hmissing hprev
    · exact ⟨before,ref,after,heq,hbefore,(referred_eq_none hfiled ref).mpr hnone⟩

/-- The generators are looked up with no exception other than `ValueError`, unless the lookup breaks. -/
theorem getBlockGenerator_reads (hrest : Resting E w P) (hfiled : Filed w) (ha : Additional w additionalBlocks)
    (hl : FitsAncestors E w additionalBlocks block.prevHeaderHash height l) :
    ∃ x,Reads w (getBlockGenerator block height additionalBlocks) x ∧
      (FailsCleanly x ↔ ¬ LookupBreaks w l block) := by
  unfold getBlockGenerator
  cases hgen : block.transactionsGenerator with
  | none =>
    refine ⟨_,(Reads.lift _).bind fun _ _ => Reads.pure none,?_⟩
    by_cases hrefs : block.transactionsGeneratorRefList=[]
    · rw [hrefs]
      exact iff_of_true (failsCleanly_ok _) fun h => h.1 hrefs
    · have hlen : ¬ block.transactionsGeneratorRefList.length=0 := fun h => hrefs (List.eq_nil_of_length_eq_zero h)
      refine iff_of_false ?_ (not_not.mpr ⟨hrefs,Or.inl hgen⟩)
      unfold assertThat
      rw [if_neg hlen]
      exact not_failsCleanly (by decide)
  | some generator =>
    dsimp only
    by_cases hrefs : block.transactionsGeneratorRefList=[]
    · rw [if_pos hrefs]
      exact ⟨_,Reads.pure _,iff_of_true (failsCleanly_ok _) fun h => h.1 hrefs⟩
    rw [if_neg hrefs]
    by_cases hprev : PrevMissing w l block.prevHeaderHash
    · refine ⟨.error (.raised .key),Reads.chain fun v hv => ?_,iff_of_false (not_failsCleanly (by decide))
        (not_not.mpr ⟨hrefs,Or.inr (Or.inl hprev)⟩)⟩
      rw [hv]
      change Reads w (Eff.lift (onMainChain w.chain block.prevHeaderHash) >>= _) _
      rw [onMainChain_missing hrest ha hl hprev]
      exact fun v hv hcalm => ⟨v,rfl,hv,hcalm⟩
    have htest := onMainChain_found hrest hfiled ha hl hprev
    by_cases hon : w.chain.heightToHash.get? (l.length-1)=some block.prevHeaderHash
    · refine ⟨_,Reads.chain fun v hv => ?_,references_failCleanly_iff hfiled hgen hrefs hprev
        (referred_eq hrest (fun _ => rfl) (absurd hon ·))⟩
      rw [hv]
      change Reads w (Eff.lift (onMainChain w.chain block.prevHeaderHash) >>= _) _
      rw [htest,decide_eq_true hon]
      exact (Reads.lift (.ok true)).bind_ok (generatorArgs_reads generator _ Dict.empty)
    · obtain ⟨branch,hbranch,hside⟩ := sideBranchBlocks_reads hrest ha hl
      refine ⟨_,Reads.chain fun v hv => ?_,references_failCleanly_iff hfiled hgen hrefs hprev
        (referred_eq hrest (absurd · hon) fun _ => hside)⟩
      rw [hv]
      change Reads w (Eff.lift (onMainChain w.chain block.prevHeaderHash) >>= _) _
      rw [htest,decide_eq_false hon]
      exact (Reads.lift (.ok false)).bind_ok (hbranch.bind_ok (generatorArgs_reads generator _ branch))

end Lookup

/-- In every state that a node can reach, the lookup for a block answers or raises a `ValueError`,
unless it breaks. -/
theorem getBlockGenerator_failsCleanly_iff (h : Received E w) (ha : Additional w additionalBlocks) {block : BlockBody}
    {height : Option ℕ} (hl : FitsAncestors E w additionalBlocks block.prevHeaderHash height l) :
    FailsCleanly (getBlockGenerator block height additionalBlocks (w.due none)).1 ↔ ¬ LookupBreaks w l block := by
  obtain ⟨P,hrest,hfiled⟩ := h.filed
  obtain ⟨x,hread,hclean⟩ := getBlockGenerator_reads hrest hfiled ha hl
  obtain ⟨v',hrun,-,-⟩ := hread (w.due none) (hrest.atRest none) rfl
  rw [hrun]
  exact hclean

def greedyBlock (refs : List ℕ) : BlockBody :=
  { (tinyBlock 31 30 1 15).body with transactionsGenerator := some [7],transactionsGeneratorRefList := refs }

theorem greedyBlock_fits (refs : List ℕ) : FitsAncestors generatingEnv (generatorState [(generatorFirst,generatorPre)])
    Dict.empty (greedyBlock refs).prevHeaderHash (some 1) [generatorFirst] := by
  refine ⟨Or.inr (.root generatorFirst_stored.1 rfl),fun root hroot => ?_,fun h hsome => (Option.some.inj hsome).symm⟩
  obtain rfl := Option.some.inj hroot
  exact generatorFirst_stored.2

theorem generatorFirst_received : Received generatingEnv (generatorState [(generatorFirst,generatorPre)]) :=
  .call (.start 5 5) (fun _ h => by cases h) none

/-- A reference to a height that the chain has not reached raises `KeyError`. -/
theorem getBlockGenerator_unreachedHeight : Received generatingEnv (generatorState [(generatorFirst,generatorPre)]) ∧
    FitsAncestors generatingEnv (generatorState [(generatorFirst,generatorPre)]) Dict.empty (greedyBlock [9]).prevHeaderHash
      (some 1) [generatorFirst] ∧ (getBlockGenerator (greedyBlock [9]) (some 1) Dict.empty
      ((generatorState [(generatorFirst,generatorPre)]).due none)).1 = .error (.raised .key) :=
  ⟨generatorFirst_received,greedyBlock_fits [9],by decide +kernel⟩

theorem getBlockGenerator_failsCleanly_iff_reached :
    FailsCleanly (getBlockGenerator (greedyBlock [0,0]) (some 1) Dict.empty
      ((generatorState [(generatorFirst,generatorPre)]).due none)).1 := by
  refine (getBlockGenerator_failsCleanly_iff generatorFirst_received (fun _ _ _ h => by cases h)
    (greedyBlock_fits [0,0])).mpr ?_
  rintro ⟨-,hnone | ⟨-,hindex⟩ | ⟨before,ref,after,heq,-,hle,-⟩⟩
  · cases hnone
  · revert hindex
    decide +kernel
  · have hmem : ref∈[0,0] := by
      change [0,0]=_ at heq
      rw [heq]
      simp
    have hzero : ref=0 := by simpa using hmem
    rw [hzero] at hle
    exact absurd hle (by decide)

end RoseChain
