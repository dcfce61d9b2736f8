import RoseChain.Consensus.IndexStep
import RoseChain.Consensus.Runs

namespace RoseChain
open Lib Blockchain
variable {E : Env} {w s v : World} {P Q : List FullBlock} {b : FullBlock} {r : BlockRecord}
  {pre : Option PreValidationResult} {forkPointWithPeak : Option ℕ} {npcResult : Option NPCResult}

/-- The weight checks of header validation: a first block has the starting difficulty, and no block
is lighter than the one before it. -/
structure WeightChecked (E : Env) (w : World) (b : FullBlock) : Prop where
  first : b.height=0 → b.weight=E.difficultyStarting
  later : b.height≠0 → ∀ p,w.block? b.prevHeaderHash=some p → p.weight≤b.weight

variable {V : BlockView} {n : ℕ}

theorem validateFinishedHeaderBlock_weight {header : HeaderBlock} {filter summary : Bool} {difficulty iters : ℕ}
    (h : validateFinishedHeaderBlock E V header filter difficulty iters summary = .ok n) :
    (header.rewardChainBlock.height=0 → header.rewardChainBlock.weight=E.difficultyStarting) ∧
      (header.rewardChainBlock.height≠0 → ∃ prev,V.blockRecord header.foliage.prevBlockHash = .ok prev ∧
        header.rewardChainBlock.weight=prev.weight+difficulty) := by
  unfold validateFinishedHeaderBlock at h
  obtain ⟨_,_,h⟩ := bind_ok.mp h
  by_cases hz : header.rewardChainBlock.height=0
  · rw [if_pos hz] at h
    dsimp only at h
    obtain ⟨prev,hprev,h⟩ := bind_ok.mp h
    obtain ⟨_,_,h⟩ := bind_ok.mp h
    have hnone : none=prev := Except.ok.inj hprev
    subst hnone
    obtain ⟨_,hw,_⟩ := bind_ok.mp h
    rw [reject_eq_ok,Classical.not_not] at hw
    exact ⟨fun _ => hw,fun hnz => absurd hz hnz⟩
  · rw [if_neg hz] at h
    dsimp only at h
    obtain ⟨prev,hprev,h⟩ := bind_ok.mp h
    obtain ⟨_,_,h⟩ := bind_ok.mp h
    cases hrec : V.blockRecord header.foliage.prevBlockHash with
    | error e =>
      rw [hrec] at hprev
      cases hprev
    | ok p =>
      rw [hrec] at hprev
      have hsome : some p=prev := Except.ok.inj hprev
      subst hsome
      obtain ⟨_,_,h⟩ := bind_ok.mp h
      obtain ⟨_,hw,_⟩ := bind_ok.mp h
      rw [reject_eq_ok,Classical.not_not] at hw
      exact ⟨fun h => absurd h hz,fun _ => ⟨p,rfl,hw⟩⟩

theorem validateHeader_weight {p : ℕ × Option NPCResult} (hi : Indexed E w) (hc : v.chain=w.chain)
    (h : validateHeader E b v=(.ok p,s)) : WeightChecked E w b := by
  unfold validateHeader at h
  rw [Eff.bind_get] at h
  obtain ⟨_,_,_,h⟩ := Eff.bind_ok h
  obtain ⟨_,_,_,h⟩ := Eff.bind_ok h
  obtain ⟨_,_,_,h⟩ := Eff.bind_ok h
  obtain ⟨_,_,_,h⟩ := Eff.bind_ok h
  obtain ⟨header,_,hh,h⟩ := Eff.bind_ok h
  obtain ⟨n,_,hn,h⟩ := Eff.bind_ok h
  have hheader : getBlockHeader E b _ _ = .ok header := congrArg Prod.fst hh
  unfold getBlockHeader at hheader
  obtain ⟨_,_,hheader⟩ := bind_ok.mp hheader
  have hvalid : validateFinishedHeaderBlock E v.chain.view header _ _ _ _ = .ok n := congrArg Prod.fst hn
  obtain ⟨hfirst,hlater⟩ := validateFinishedHeaderBlock_weight hvalid
  rw [← Except.ok.inj hheader] at hfirst hlater
  refine ⟨hfirst,?_⟩
  intro hz p hp
  obtain ⟨prev,hprev,hw⟩ := hlater hz
  obtain ⟨r,hr,hrecord⟩ := hi.record hp
  have hget : v.chain.view.blockRecord b.prevHeaderHash = .ok r := by
    rw [hc]
    unfold BlockView.blockRecord
    rw [lookup_eq_ok]
    exact (hi.memory _).trans hrecord
  have hsame : prev=r := Except.ok.inj (hprev.symm.trans hget)
  have hweight : b.weight=prev.weight+_ := hw
  rw [hweight,hsame,hr.weight]
  exact Nat.le_add_right _ _

theorem validateBlockBody_plain {peak : Option BlockRecord} {g : GetBlockGenerator} {out : Option NPCResult}
    (h : validateBlockBody E V peak b.body b.height npcResult forkPointWithPeak g v=(.ok out,s))
    (ht : ¬ b.isTransactionBlock) : b.transactionsGenerator=none := by
  unfold validateBlockBody at h
  by_cases hnone : b.body.foliageTransactionBlockHash.isNone
  · rw [if_pos hnone] at h
    obtain ⟨_,_,hbody,_⟩ := Eff.bind_ok h
    have hbody : validateNoBody E V b.body = .ok _ := congrArg Prod.fst hbody
    obtain ⟨_,hreject,_⟩ := bind_ok.mp hbody
    rw [reject_eq_ok] at hreject
    have hg : ¬ b.transactionsGenerator.isSome := fun hg => hreject (Or.inr (Or.inr hg))
    simpa using hg
  · rw [if_neg hnone] at h
    have hftb : b.body.foliageTransactionBlock=none := by
      have hno : ¬ b.foliageTransactionBlock.isSome := ht
      change b.foliageTransactionBlock=none
      simpa using hno
    rw [hftb] at h
    cases h

theorem validateBlock_answer (hi : Indexed E w) (hc : v.chain=w.chain)
    (h : validateBlock E b pre forkPointWithPeak v=(.ok (r,npcResult),s)) :
    RecordOf E b r ∧ (¬ b.isTransactionBlock → b.transactionsGenerator=none) ∧
      (pre=none → WeightChecked E w b) := by
  have hrest (p : ℕ × Option NPCResult) (v : World) (h : (do
      let w ← Eff.get
      let peak ← Eff.lift (getPeak w.chain)
      let _ ← validateBlockBody E w.chain.view peak b.body b.height p.2 forkPointWithPeak blockGenerator
      let blockRecord ← Eff.lift (blockToBlockRecord E w.chain.view p.1 b)
      return (blockRecord,p.2) : NodeM _) v=(.ok (r,npcResult),s)) :
      RecordOf E b r ∧ (¬ b.isTransactionBlock → b.transactionsGenerator=none) := by
    rw [Eff.bind_get] at h
    obtain ⟨peak,_,_,h⟩ := Eff.bind_ok h
    obtain ⟨out,_,hbody,h⟩ := Eff.bind_ok h
    obtain ⟨r',_,hr,h⟩ := Eff.bind_ok h
    have hrr : r'=r := (Prod.mk.inj (Except.ok.inj (congrArg Prod.fst h))).1
    have hrec : blockToBlockRecord E v.chain.view p.1 b = .ok r' := congrArg Prod.fst hr
    rw [← hrr]
    exact ⟨recordOf_of_ok hrec,validateBlockBody_plain hbody⟩
  unfold validateBlock at h
  cases pre with
  | none =>
    obtain ⟨p,_,hp,h⟩ := Eff.bind_ok h
    obtain ⟨h₁,h₂⟩ := hrest p _ h
    exact ⟨h₁,h₂,fun _ => validateHeader_weight hi hc hp⟩
  | some result =>
    obtain ⟨p,_,_,h⟩ := Eff.bind_ok h
    obtain ⟨h₁,h₂⟩ := hrest p _ h
    exact ⟨h₁,h₂,fun h => by cases h⟩

/-- A node between calls, as far as its blocks and its index go; the coins may be in any state. -/
structure Resting (E : Env) (w : World) (P : List FullBlock) : Prop where
  indexed : Indexed E w
  main : MainChain E w P
  blocks : w.blockCache.Within w.block?

theorem Indexed.of_eq (h : Indexed E w) (hs : s.saved=none) (hd : s.db=w.db)
    (hm : s.chain.blockRecords=w.chain.blockRecords) : Indexed E s := by
  have hb : s.block?=w.block? := by
    unfold World.block?
    rw [hd]
  have hr : s.record?=w.record? := by
    unfold World.record?
    rw [hd]
  have hf : s.forest E=w.forest E := by
    unfold World.forest
    rw [hb]
  refine ⟨hs,?_,?_,?_,?_,?_,?_⟩
  · rw [hb]
    exact h.key
  · rw [hb,hd]
    exact h.row
  · rw [hb,hd]
    exact h.block
  · rw [hm,hr]
    exact h.memory
  · rw [hb,hf]
    exact h.ancestors
  · rw [hb]
    exact h.plain

theorem MainChain.of_eq (h : MainChain E w P) (hd : s.block?=w.block?)
    (hi : s.chain.heightToHash=w.chain.heightToHash) (hp : s.chain.peakHeight=w.chain.peakHeight) :
    MainChain E s P := by
  have hf : s.forest E=w.forest E := by
    unfold World.forest
    rw [hd]
  refine ⟨?_,?_,?_,?_⟩
  · rw [hp]
    exact h.peakHeight
  · rw [hf]
    exact h.path
  · rw [hi]
    exact h.index
  · rw [hd]
    exact h.start

/-- Only the sub-epoch summaries may differ in an index that still names the same chain. -/
structure SameIndex (w : World) (c : Chain) : Prop where
  blockRecords : c.blockRecords=w.chain.blockRecords
  heightToHash : c.heightToHash=w.chain.heightToHash
  peakHeight : c.peakHeight=w.chain.peakHeight

variable {c : Chain}

theorem Leaves.sameIndex (h : Leaves w P b r forkPointWithPeak c) : SameIndex w c := by
  obtain rfl | ⟨_,_,f,_,rfl⟩ := h
  · exact ⟨rfl,rfl,rfl⟩
  · exact ⟨rfl,rfl,rfl⟩

theorem Resting.still (h : Resting E w P) (hc : SameIndex w c)
    (hs : AtRest { w with chain := c } s) : Resting E s P := by
  have hb : s.block?=w.block? := by
    unfold World.block?
    rw [hs.db]
  refine ⟨h.indexed.of_eq hs.saved hs.db ?_,h.main.of_eq hb ?_ ?_,?_⟩
  · rw [hs.chain]
    exact hc.blockRecords
  · rw [hs.chain]
    exact hc.heightToHash
  · rw [hs.chain]
    exact hc.peakHeight
  · rw [hb]
    exact hs.blocks

theorem Resting.atRest (h : Resting E w P) (i : Option (ℕ × PyErr)) : AtRest w (w.due i) :=
  ⟨rfl,h.indexed.closed,rfl,h.blocks⟩

theorem Resting.due (h : Resting E w P) (i : Option (ℕ × PyErr)) : Resting E (w.due i) P :=
  ⟨h.indexed.of_eq h.indexed.closed rfl rfl,h.main.of_eq rfl rfl rfl,h.blocks⟩

theorem receiveBlock_arrival (h : Resting E w P) (hv : AtRest w v) :
    (∃ answer s,receiveBlock E b pre forkPointWithPeak v=(answer,s) ∧ AtRest w s ∧
      ∀ result code height,answer = .ok (result,code,height) → result ≠ .newPeak ∧ result ≠ .addedAsOrphan) ∨
    ∃ r npcResult Q s,Arrival E w P Q b r ∧ (pre=none → WeightChecked E w b) ∧ AtRest w s ∧
      receiveBlock E b pre forkPointWithPeak v =
        (verdict <$> addBlock E b r forkPointWithPeak npcResult) s := by
  have hget : receiveBlock E b pre forkPointWithPeak v=_ := Eff.bind_get _ _
  have hstill {code : Option Err} {result : ReceiveBlockResult} (hne : result ≠ .newPeak ∧ result ≠ .addedAsOrphan)
      (hrun : receiveBlock E b pre forkPointWithPeak v=(.ok (result,code,none),v)) :
      ∃ answer s,receiveBlock E b pre forkPointWithPeak v=(answer,s) ∧ AtRest w s ∧
        ∀ result code height,answer = .ok (result,code,height) → result ≠ .newPeak ∧ result ≠ .addedAsOrphan := by
    refine ⟨_,v,hrun,hv,?_⟩
    intro result' code' height' heq
    cases heq
    exact hne
  by_cases hhave : v.chain.view.containsBlock (b.headerHash E)
  · rw [if_pos hhave] at hget
    exact Or.inl (hstill (by decide) hget)
  rw [if_neg hhave] at hget
  by_cases hdis : ¬ v.chain.view.containsBlock b.prevHeaderHash ∧ ¬ b.height=0
  · rw [if_pos hdis] at hget
    exact Or.inl (hstill (by decide) hget)
  rw [if_neg hdis] at hget
  cases hheight : hasWrongHeight v.chain.view b with
  | error e =>
    rw [hheight] at hget
    exact Or.inl ⟨_,v,hget,hv,fun _ _ _ heq => by cases heq⟩
  | ok wrong =>
    rw [hheight] at hget
    cases wrong with
    | true => exact Or.inl (hstill (by decide) hget)
    | false =>
      have hrun : receiveBlock E b pre forkPointWithPeak v=validateAndAdd E b pre forkPointWithPeak v := hget
      rw [hrun]
      have hquiet := (validateBlock_observes (E := E) b pre forkPointWithPeak).quiet v
      unfold validateAndAdd
      cases hval : validateBlock E b pre forkPointWithPeak v with
      | mk answer s =>
        rw [hval] at hquiet
        have hbv : v.block?=w.block? := by
          unfold World.block?
          rw [hv.db]
        have hs : AtRest w s := by
          refine ⟨hquiet.db.trans hv.db,hquiet.saved.trans hv.saved,hquiet.chain.trans hv.chain,?_⟩
          rw [← hbv]
          exact hquiet.blocks (by rw [hbv]; exact hv.blocks)
        cases answer with
        | error e =>
          cases e with
          | invalid code =>
            refine Or.inl ⟨.ok (.invalidBlock,some code,none),s,?_,hs,?_⟩
            · have hcode : codeOf (validateBlock E b pre forkPointWithPeak) v=(.ok (.error code),s) := by
                unfold codeOf
                rw [hval]
              exact Eff.bind_of_ok hcode _
            · intro result' code' height' heq
              cases heq
              decide
          | raised e =>
            refine Or.inl ⟨.error (.raised e),s,?_,hs,fun _ _ _ heq => by cases heq⟩
            have hcode : codeOf (validateBlock E b pre forkPointWithPeak) v=(.error (.raised e),s) := by
              unfold codeOf
              rw [hval]
            exact Eff.bind_of_error hcode _
        | ok p =>
          obtain ⟨r,npcResult⟩ := p
          obtain ⟨hrec,hplain,hweight⟩ := validateBlock_answer h.indexed hv.chain hval
          have hconn : Connected w b := by
            have hc := connected_of_height rfl hheight
            unfold Connected at hc ⊢
            rw [← hv.chain]
            exact hc
          obtain ⟨Q,htop⟩ := h.indexed.onTop_of_connected hconn
          have hnew : w.block? (b.headerHash E)=none := by
            rw [hv.chain] at hhave
            simpa [h.indexed.contains_iff] using hhave
          refine Or.inr ⟨r,npcResult,Q,s,⟨h.indexed,h.main,hnew,htop,hrec,hplain⟩,hweight,hs,?_⟩
          have hcode : codeOf (validateBlock E b pre forkPointWithPeak) v=(.ok (.ok (r,npcResult)),s) := by
            unfold codeOf
            rw [hval]
          rw [Eff.bind_of_ok hcode]
          dsimp only
          rw [Eff.map_apply,Eff.bind_apply]
          cases hadd : addBlock E b r forkPointWithPeak npcResult s with
          | mk o s' =>
            cases o with
            | error e => rfl
            | ok o => cases o <;> rfl

variable {f : ℤ}

theorem CutAt.eq {k j : ℕ} (ha : Arrival E w P Q b r) (hat : ForkAt P Q k) (hf : f=(k : ℤ)-1)
    (hcut : CutAt E w f (Q++[b]) j) : j=k := by
  have hright := hat.right
  have hleft := hat.left
  have hfork (hk : 0<k) : w.chain.heightToHash.get? f.toNat=some (Q[k-1].headerHash E) := by
    rw [show f.toNat=k-1 by omega,ha.main.index (k-1) (by omega),hat.getElem (by omega) (by omega) (by omega)]
  obtain hlt | heq | hgt := Nat.lt_trichotomy j k
  · exfalso
    apply hcut.above Q[k-1] _ ⟨by omega,hfork (by omega)⟩
    rw [List.drop_append_of_le_length (by omega)]
    apply List.mem_append_left
    rw [List.mem_drop_iff_getElem]
    exact ⟨k-1-j,by omega,by simp [show j+(k-1-j)=k-1 by omega]⟩
  · exact heq
  · have hle := hcut.le
    have hj : j-1<(Q++[b]).length := by omega
    obtain ⟨hpos,hget⟩ := hcut.below _ (by omega) (List.getElem?_eq_getElem hj)
    have hk : 0<k := by omega
    rw [hfork hk,Option.some.injEq] at hget
    -- one hash at two heights of one path
    have hkeyed : ((w.adding E b r).forest E).Keyed := fun _ _ h => (ha.recorded h).1
    have hk' : k-1<(Q++[b]).length := by simp; omega
    have h₁ := ha.path.find_mem hkeyed (List.getElem_mem hj)
    have h₂ := ha.path.find_mem hkeyed (List.getElem_mem hk')
    have hsame : (Q++[b])[k-1]=Q[k-1] := List.getElem_append_left (by omega)
    rw [worldForest_key] at h₁ h₂
    rw [hsame,hget,h₁,Option.some.injEq] at h₂
    have horder := inHeightOrder_of_onTop ha.onTop
    have h₃ := horder (j-1) hj
    have h₄ := horder (k-1) hk'
    rw [hsame,← h₂,h₃] at h₄
    omega

theorem ForkAt.nil (Q : List FullBlock) : ForkAt [] Q 0 := ⟨Nat.le_refl _,Nat.zero_le _,rfl⟩

theorem Arrival.forksAt (ha : Arrival E w P Q b r) (hfork : ProperFork E w b forkPointWithPeak)
    (h : Heavier P b) (hg : P=[] → f = -1) (hf : ForksAt w r forkPointWithPeak f) :
    ∃ k : ℕ,f=(k : ℤ)-1 ∧ ForkAt P Q k ∧ (k=0 → ∀ a,P[0]?=some a → (Q++[b])[0]?≠some a) := by
  obtain rfl | ⟨P,p,rfl⟩ := P.eq_nil_or_concat
  · exact ⟨0,by rw [hg rfl]; rfl,.nil Q,by simp⟩
  · rw [List.concat_eq_append] at *
    obtain ⟨rp,hpeak,hrp,hstored⟩ := getPeak_concat ha.indexed ha.main
    obtain ⟨peak,hpeak',hrun⟩ := hf
    have hsome : some rp=peak := Except.ok.inj (hpeak.symm.trans hpeak')
    have hrun := hrun rp hsome.symm
    have hz : b.height≠0 := (h.resolve_left (by simp)).1
    obtain ⟨k,hk,hat,-⟩ := reorgForkHeight_eq ha hz hrp hstored hfork
    have hfk : f=(k : ℤ)-1 := Except.ok.inj (hrun.symm.trans hk)
    refine ⟨k,hfk,hat,?_⟩
    intro hzero a haP
    have hQ : 0<Q.length := by
      have hheight : b.height=Q.length := ha.onTop.1
      omega
    rw [List.getElem?_append_left hQ]
    exact reorgForkHeight_apart ha hrp hstored (by omega) hrun haP

/-- How a call ends in state `s`, seen from the index: `P` is the main chain before it. -/
inductive Answered (E : Env) (w s : World) (P : List FullBlock) (b : FullBlock)
    (pre : Option PreValidationResult) : Check (ReceiveBlockResult × Option Err × Option ℕ) → Prop
  | still {answer : Check (ReceiveBlockResult × Option Err × Option ℕ)} (hs : AtRest w s)
      (hno : ∀ result code height,answer = .ok (result,code,height) →
        result ≠ .newPeak ∧ result ≠ .addedAsOrphan) : Answered E w s P b pre answer
  | raised {e : Fail} (c : Chain) (hc : SameIndex w c) (hs : AtRest { w with chain := c } s) :
      Answered E w s P b pre (.error e)
  | orphan {Q : List FullBlock} {r : BlockRecord} (ha : Arrival E w P Q b r)
      (hweight : pre=none → WeightChecked E w b) (h : ¬ Heavier P b)
      (hs : Adding E w b r (w.adding E b r).db.blockRecords (addBlockRecord r w.chain) none s) :
      Answered E w s P b pre (.ok (.addedAsOrphan,none,none))
  | newPeak {Q : List FullBlock} {r : BlockRecord} {k : ℕ} {records : List BlockRecord}
      (ha : Arrival E w P Q b r) (hweight : pre=none → WeightChecked E w b) (h : Heavier P b)
      (hat : ForkAt P Q k) (hapart : k=0 → ∀ a,P[0]?=some a → (Q++[b])[0]?≠some a)
      (hrecs : List.Forall₂ (StoredAs E (w.adding E b r)) ((Q++[b]).drop k) records)
      (hs : Adding E w b r (peakAt (b.headerHash E) (w.adding E b r).db.blockRecords)
        { indexRecords records (addBlockRecord r (indexBefore w P (k-1))) with
          peakHeight := some r.height } none s) :
      Answered E w s P b pre (.ok (.newPeak,none,some (k-1)))

theorem Resting.answered (h : Resting E w P) (hfork : ProperFork E w b forkPointWithPeak)
    (i : Option (ℕ × PyErr)) : Answered E w (receiveBlock E b pre forkPointWithPeak (w.due i)).2 P b pre
      (receiveBlock E b pre forkPointWithPeak (w.due i)).1 := by
  obtain ⟨answer,s,hrun,hs,hno⟩ | ⟨r,npcResult,Q,v,ha,hweight,hv,hrun⟩ :=
    receiveBlock_arrival (b := b) h (h.atRest i)
  · rw [hrun]
    exact .still hs hno
  · rw [hrun,Eff.map_apply]
    have hadd := addBlock_outcome ha hv forkPointWithPeak npcResult
    cases hres : addBlock E b r forkPointWithPeak npcResult v with
    | mk answer s =>
      rw [hres] at hadd
      cases hadd with
      | failed c hc hs => exact .raised c hc.sameIndex hs
      | orphan hheavy hs => exact .orphan ha hweight hheavy hs
      | newPeak f change hheavy hg hf hc hs =>
        obtain ⟨k,hfk,hat,hapart⟩ := ha.forksAt hfork hheavy hg hf
        obtain ⟨j,hcut,hrecs⟩ := hc.records
        obtain rfl := CutAt.eq ha hat hfk hcut
        have hk : f.toNat=j-1 := by omega
        rw [hfk] at hs
        rw [hk]
        exact .newPeak ha hweight hheavy hat hapart hrecs hs

theorem StoredAs.forall₂ {l : List FullBlock} {records : List BlockRecord}
    (h : List.Forall₂ (StoredAs E v) l records) : List.Forall₂ (RecordOf E) l records :=
  h.imp fun _ _ hr => hr.of

theorem Arrival.resting_orphan (ha : Arrival E w P Q b r) (h : ¬ Heavier P b)
    (hs : Adding E w b r (w.adding E b r).db.blockRecords (addBlockRecord r w.chain) none s) :
    Resting E s P := by
  have hb := hs.block?
  refine ⟨?_,?_,?_⟩
  · apply ha.indexed_after hs.saved (fun k => congrFun hb k) (fun _ row => row.isPeak)
    · intro k
      rw [hs.blockRecords]
      simp
    · rw [hs.chain]
      rfl
  · apply (ha.orphaned_mainChain h).of_eq
    · rw [hb]
      rfl
    · rw [hs.chain]
      rfl
    · rw [hs.chain]
      rfl
  · rw [hb]
    exact hs.blocks

section NewPeak
variable {k : ℕ} {records : List BlockRecord} (ha : Arrival E w P Q b r) (hat : ForkAt P Q k)
  (hrecs : List.Forall₂ (StoredAs E (w.adding E b r)) ((Q++[b]).drop k) records)
  (hs : Adding E w b r (peakAt (b.headerHash E) (w.adding E b r).db.blockRecords)
    { indexRecords records (addBlockRecord r (indexBefore w P (k-1))) with
      peakHeight := some r.height } none s)
include ha hrecs hs

theorem Arrival.newPeak_heightToHash (i : ℕ) : s.chain.heightToHash.get? i =
    if k ≤ i then ((records[i-k]?).map (·.headerHash)).or (w.chain.heightToHash.get? i)
    else w.chain.heightToHash.get? i := by
  rw [hs.chain]
  simp only
  rw [indexRecords_heightToHash _ (ha.records_height (StoredAs.forall₂ hrecs))]
  simp [addBlockRecord,indexBefore_heightToHash]

include hat

theorem Arrival.resting_newPeak : Resting E s (Q++[b]) := by
  have hb := hs.block?
  refine ⟨?_,?_,?_⟩
  · apply ha.indexed_after hs.saved (fun k => congrFun hb k) (fun h _ => decide (h=b.headerHash E))
    · intro k
      rw [hs.blockRecords,peakAt,Dict.get?_mapVals]
    · rw [hs.chain]
      change (indexRecords records (addBlockRecord r (indexBefore w P (k-1)))).blockRecords=_
      rw [indexRecords_blockRecords]
      simp [addBlockRecord,indexBefore_blockRecords]
  · apply (ha.seated_mainChain hat (StoredAs.forall₂ hrecs) w.db.coinRecord
      (indexBefore_heightToHash (w := w) (P := P) (k-1))).of_eq
    · rw [hb]
      rfl
    · rw [hs.chain]
      rfl
    · rw [hs.chain]
      rfl
  · rw [hb]
    exact hs.blocks

end NewPeak

/-- The block is a new one, and now it is stored with the others. -/
structure Enters (E : Env) (w s : World) (b : FullBlock) (pre : Option PreValidationResult) : Prop where
  isNew : w.block? (b.headerHash E)=none
  block? : ∀ h,s.block? h=if b.headerHash E=h then some b else w.block? h
  weighed : pre=none → WeightChecked E w b
  prev : b.height≠0 → ∃ p,w.block? b.prevHeaderHash=some p

theorem Arrival.enters (ha : Arrival E w P Q b r) (hweight : pre=none → WeightChecked E w b)
    (hs : s.block?=(w.adding E b r).block?) : Enters E w s b pre := by
  refine ⟨ha.isNew,fun k => by rw [hs,adding_block?],hweight,?_⟩
  intro hz
  obtain ⟨p,_,hp,_⟩ := Forest.path_iff.mp (ha.onTop.path hz)
  exact ⟨p,hp⟩

/-- How the main chain answers a block: `P` before it, `P'` after it. -/
inductive Moved (E : Env) (w s : World) (P P' : List FullBlock) (b : FullBlock)
    (pre : Option PreValidationResult) : Check (ReceiveBlockResult × Option Err × Option ℕ) → Prop
  | still {answer : Check (ReceiveBlockResult × Option Err × Option ℕ)} (hP : P'=P)
      (hb : s.block?=w.block?) (hno : ∀ result code height,answer = .ok (result,code,height) →
        result ≠ .newPeak ∧ result ≠ .addedAsOrphan) : Moved E w s P P' b pre answer
  | orphan (hP : P'=P) (h : ¬ Heavier P b) (he : Enters E w s b pre) :
      Moved E w s P P' b pre (.ok (.addedAsOrphan,none,none))
  | newPeak {Q : List FullBlock} {k : ℕ} (hP : P'=Q++[b]) (h : Heavier P b) (he : Enters E w s b pre)
      (hat : ForkAt P Q k) (hapart : k=0 → ∀ a,P[0]?=some a → (Q++[b])[0]?≠some a)
      (hindex : ∀ i<k,s.chain.heightToHash.get? i=w.chain.heightToHash.get? i) :
      Moved E w s P P' b pre (.ok (.newPeak,none,some (k-1)))

variable {answer : Check (ReceiveBlockResult × Option Err × Option ℕ)}

theorem Resting.moved (h : Resting E w P)
    (ha : Answered E w s P b pre answer) : ∃ P',Resting E s P' ∧ Moved E w s P P' b pre answer := by
  cases ha with
  | still hs hno =>
    have hb : s.block?=w.block? := by
      unfold World.block?
      rw [hs.db]
    exact ⟨P,h.still ⟨rfl,rfl,rfl⟩ hs,.still rfl hb hno⟩
  | raised c hc hs =>
    have hb : s.block?=w.block? := by
      unfold World.block?
      rw [hs.db]
    exact ⟨P,h.still hc hs,.still rfl hb fun _ _ _ heq => by cases heq⟩
  | orphan ha hweight hheavy hs =>
    exact ⟨P,ha.resting_orphan hheavy hs,.orphan rfl hheavy (ha.enters hweight hs.block?)⟩
  | newPeak ha hweight hheavy hat hapart hrecs hs =>
    refine ⟨_,ha.resting_newPeak hat hrecs hs,.newPeak rfl hheavy (ha.enters hweight hs.block?) hat hapart ?_⟩
    intro i hi
    rw [ha.newPeak_heightToHash hrecs hs,if_neg (by omega)]

/-- A call as it is made: the fork point is proper, and a header validated before has passed the weight checks.
-/
structure ForkCall (E : Env) (w : World) (b : FullBlock) (pre : Option PreValidationResult)
    (forkPointWithPeak : Option ℕ) : Prop where
  fork : ProperFork E w b forkPointWithPeak
  weighed : pre≠none → WeightChecked E w b

theorem ForkCall.weightChecked (hp : ForkCall E w b pre forkPointWithPeak)
    (h : pre=none → WeightChecked E w b) : WeightChecked E w b := by
  by_cases hpre : pre=none
  · exact h hpre
  · exact hp.weighed hpre

/-- The block that a call adds to those accepted so far. -/
def nowAccepted (b : FullBlock) : Check (ReceiveBlockResult × Option Err × Option ℕ) → List FullBlock
  | .ok (.newPeak,_,_) => [b]
  | .ok (.addedAsOrphan,_,_) => [b]
  | _ => []

/-- The runs of a node: the blocks accepted so far, in the order of their arrival, and the state.
A call may be interrupted anywhere, and may raise. -/
inductive Ran (E : Env) : List FullBlock → World → Prop
  | start (blockCacheSize coinCacheSize : ℕ) : Ran E [] (World.empty blockCacheSize coinCacheSize)
  | call {accepted : List FullBlock} {w : World} (h : Ran E accepted w) {b : FullBlock}
      {pre : Option PreValidationResult} {forkPointWithPeak : Option ℕ}
      (hp : ForkCall E w b pre forkPointWithPeak) (i : Option (ℕ × PyErr)) :
      Ran E (accepted++nowAccepted b (receiveBlock E b pre forkPointWithPeak (w.due i)).1)
        (receiveBlock E b pre forkPointWithPeak (w.due i)).2

/-- The last block of the path is the first of the heaviest blocks that have come. -/
def FirstHeaviest (accepted P : List FullBlock) : Prop :=
  ∀ p,P.getLast?=some p → ∃ before after,accepted=before++p::after ∧
    (∀ a∈before,a.weight<p.weight) ∧ ∀ a∈after,a.weight≤p.weight

/-- The blocks accepted are those stored, their weights are checked, and the peak is the first of the
heaviest. -/
structure Chosen (E : Env) (accepted : List FullBlock) (w : World) (P : List FullBlock) : Prop where
  resting : Resting E w P
  stored : ∀ h x,w.block? h=some x ↔ x∈accepted ∧ x.headerHash E=h
  least : ∀ a∈accepted,E.difficultyStarting≤a.weight
  first : ∀ a∈accepted,a.height=0 → a.weight=E.difficultyStarting
  best : FirstHeaviest accepted P
  started : P=[] → accepted=[]

variable {accepted : List FullBlock}

variable {p : FullBlock}

theorem FirstHeaviest.append (h : FirstHeaviest accepted P) (hp : P.getLast?=some p)
    (hb : b.weight≤p.weight) : FirstHeaviest (accepted++[b]) P := by
  intro q hq
  have hpq : p=q := Option.some.inj (hp.symm.trans hq)
  subst hpq
  obtain ⟨before,after,rfl,hbefore,hafter⟩ := h p hp
  refine ⟨before,after++[b],by simp,hbefore,?_⟩
  intro a ha
  obtain ha | ha := List.mem_append.mp ha
  · exact hafter a ha
  · rw [List.mem_singleton.mp ha]
    exact hb

theorem FirstHeaviest.replace (h : FirstHeaviest accepted P) (hs : P=[] → accepted=[])
    (hheavy : Heavier P b) (Q : List FullBlock) : FirstHeaviest (accepted++[b]) (Q++[b]) := by
  intro q hq
  have hbq : b=q := by simpa using hq
  subst hbq
  refine ⟨accepted,[],rfl,?_,by simp⟩
  intro a ha
  obtain hP | ⟨_,p,hp,hlt⟩ := hheavy
  · rw [hs hP] at ha
    cases ha
  · obtain ⟨before,after,rfl,hbefore,hafter⟩ := h p hp
    obtain ha | ha := List.mem_append.mp ha
    · exact (hbefore a ha).trans hlt
    · obtain rfl | ha := List.mem_cons.mp ha
      · exact hlt
      · exact (hafter a ha).trans_lt hlt

theorem Resting.peak_stored (h : Resting E w P) (hp : P.getLast?=some p) :
    w.block? (p.headerHash E)=some p := by
  have hne : P≠[] := by
    intro hP
    simp [hP] at hp
  obtain ⟨k,hk⟩ := h.main.path hne
  exact hk.find_mem h.indexed.keyed (List.mem_of_getLast? hp)

theorem Chosen.enters (h : Chosen E accepted w P) (he : Enters E w s b pre) (hw : WeightChecked E w b) :
    (∀ k x,s.block? k=some x ↔ x∈accepted++[b] ∧ x.headerHash E=k) ∧
      (∀ a∈accepted++[b],E.difficultyStarting≤a.weight) ∧
      ∀ a∈accepted++[b],a.height=0 → a.weight=E.difficultyStarting := by
  refine ⟨?_,?_,?_⟩
  · intro k x
    rw [he.block?]
    split_ifs with hk
    · constructor
      · intro hx
        cases hx
        exact ⟨by simp,hk⟩
      · intro hx
        obtain ⟨hmem,hxk⟩ := hx
        obtain hmem | hmem := List.mem_append.mp hmem
        · have hold := (h.stored k x).mpr ⟨hmem,hxk⟩
          rw [← hk,he.isNew] at hold
          cases hold
        · rw [List.mem_singleton.mp hmem]
    · rw [h.stored]
      constructor
      · intro hx
        exact ⟨by simp [hx.1],hx.2⟩
      · intro hx
        obtain ⟨hmem,hxk⟩ := hx
        obtain hmem | hmem := List.mem_append.mp hmem
        · exact ⟨hmem,hxk⟩
        · rw [List.mem_singleton.mp hmem] at hxk
          exact absurd hxk hk
  · intro a ha
    obtain ha | ha := List.mem_append.mp ha
    · exact h.least a ha
    · rw [List.mem_singleton.mp ha]
      by_cases hz : b.height=0
      · exact (hw.first hz).ge
      · obtain ⟨p,hp⟩ := he.prev hz
        exact (h.least p ((h.stored _ p).mp hp).1).trans (hw.later hz p hp)
  · intro a ha
    obtain ha | ha := List.mem_append.mp ha
    · exact h.first a ha
    · rw [List.mem_singleton.mp ha]
      exact hw.first

theorem Chosen.light (h : Chosen E accepted w P) (hw : WeightChecked E w b) (hlight : ¬ Heavier P b)
    (hp : P.getLast?=some p) : b.weight≤p.weight := by
  have hpa := ((h.stored _ p).mp (h.resting.peak_stored hp)).1
  by_cases hz : b.height=0
  · rw [hw.first hz]
    exact h.least p hpa
  · by_contra hlt
    exact hlight (Or.inr ⟨hz,p,hp,by omega⟩)

variable {P' : List FullBlock}

theorem Chosen.moved (h : Chosen E accepted w P) (hp : ForkCall E w b pre forkPointWithPeak)
    (hr : Resting E s P') (hm : Moved E w s P P' b pre answer) :
    Chosen E (accepted++nowAccepted b answer) s P' := by
  cases hm with
  | still hP hb hno =>
    have hnone : nowAccepted b answer=[] := by
      unfold nowAccepted
      split
      · exact absurd rfl (hno _ _ _ rfl).1
      · exact absurd rfl (hno _ _ _ rfl).2
      · rfl
    rw [hnone,List.append_nil,hP]
    rw [hP] at hr
    exact ⟨hr,by rw [hb]; exact h.stored,h.least,h.first,h.best,h.started⟩
  | orphan hP hlight he =>
    subst hP
    obtain ⟨hstored,hleast,hfirst⟩ := h.enters he (hp.weightChecked he.weighed)
    have hne : P'≠[] := fun hP => hlight (Or.inl hP)
    obtain ⟨p,hlast⟩ := Option.isSome_iff_exists.mp (List.getLast?_isSome.mpr hne)
    exact ⟨hr,hstored,hleast,hfirst,h.best.append hlast (h.light (hp.weightChecked he.weighed) hlight hlast),fun hP => absurd hP hne⟩
  | newPeak hP hheavy he hat hapart hindex =>
    subst hP
    obtain ⟨hstored,hleast,hfirst⟩ := h.enters he (hp.weightChecked he.weighed)
    exact ⟨hr,hstored,hleast,hfirst,h.best.replace h.started hheavy _,fun hP => by simp at hP⟩

theorem Ran.chosen (h : Ran E accepted w) : ∃ P,Chosen E accepted w P := by
  induction h with
  | start m n =>
    have hblock : ∀ h,(World.empty m n).block? h=none := fun _ => rfl
    refine ⟨[],⟨indexed_empty m n,mainChain_empty m n,?_⟩,?_,?_,?_,?_,fun _ => rfl⟩
    · exact (coherent_empty (E := E) m n).blocks
    · intro k x
      simp [hblock]
    · simp
    · simp
    · intro p hp
      simp at hp
  | call _ hp i ih =>
    obtain ⟨P,hc⟩ := ih
    obtain ⟨P',hr,hm⟩ := hc.resting.moved (hc.resting.answered hp.fork i)
    exact ⟨P',hc.moved hp hr hm⟩

/-- The new peak's path and the height that is returned with it. -/
structure ForkHeight (w s : World) (P P' : List FullBlock) (height : ℕ) : Prop where
  common : (∃ a,P[0]?=some a ∧ P'[0]?=some a) →
    (∃ a,P[height]?=some a ∧ P'[height]?=some a) ∧
      ∀ i≤height,s.chain.heightToHash.get? i=w.chain.heightToHash.get? i
  apart : (¬ ∃ a,P[0]?=some a ∧ P'[0]?=some a) → height=0

theorem Moved.forkHeight {code : Option Err} {height : Option ℕ}
    (hm : Moved E w s P P' b pre (.ok (.newPeak,code,height))) :
    code=none ∧ ∃ n,height=some n ∧ ForkHeight w s P P' n := by
  cases hm with
  | still hP hb hno => exact absurd rfl (hno _ _ _ rfl).1
  | @newPeak Q k hP h he hat hapart hindex =>
    subst hP
    refine ⟨rfl,k-1,rfl,?_,?_⟩
    · intro hcommon
      obtain ⟨a,haP,haQ⟩ := hcommon
      have hk : 0<k := by
        by_contra hk
        exact hapart (by omega) a haP haQ
      have hleft := hat.left
      have hright := hat.right
      refine ⟨⟨Q[k-1],?_,?_⟩,fun i hi => hindex i (by omega)⟩
      · rw [← hat.getElem (by omega) (by omega) (by omega)]
        exact List.getElem?_eq_getElem (by omega)
      · rw [List.getElem?_append_left (by omega)]
        exact List.getElem?_eq_getElem (by omega)
    · intro hno
      by_contra hk
      have hleft := hat.left
      have hright := hat.right
      apply hno
      refine ⟨Q[0],?_,?_⟩
      · rw [← hat.getElem (by omega) (by omega) (by omega)]
        exact List.getElem?_eq_getElem (by omega)
      · rw [List.getElem?_append_left (by omega)]
        exact List.getElem?_eq_getElem (by omega)

/-- What a call tells about the fork choice. -/
structure Tells (E : Env) (accepted : List FullBlock) (w s : World) (P P' : List FullBlock)
    (answer : Check (ReceiveBlockResult × Option Err × Option ℕ)) : Prop where
  before : MainChain E w P
  after : MainChain E s P'
  best : FirstHeaviest accepted P'
  stored : ∀ h x,s.block? h=some x ↔ x∈accepted ∧ x.headerHash E=h
  changed : (∃ code height,answer = .ok (.newPeak,code,height)) ↔ P'.getLast?≠P.getLast?
  forkHeight : ∀ code height,answer = .ok (.newPeak,code,height) →
    code=none ∧ ∃ n,height=some n ∧ ForkHeight w s P P' n

/-- Before and after every call of every run the index names the path of the first of the heaviest
blocks, and the answer tells whether and where the peak has moved. -/
theorem ran_forkChoice (h : Ran E accepted w) (hp : ForkCall E w b pre forkPointWithPeak)
    (i : Option (ℕ × PyErr)) :
    ∃ P P',Tells E (accepted++nowAccepted b (receiveBlock E b pre forkPointWithPeak (w.due i)).1) w
      (receiveBlock E b pre forkPointWithPeak (w.due i)).2 P P'
      (receiveBlock E b pre forkPointWithPeak (w.due i)).1 := by
  obtain ⟨P,hc⟩ := h.chosen
  obtain ⟨P',hr,hm⟩ := hc.resting.moved (hc.resting.answered hp.fork i)
  have hc' := hc.moved hp hr hm
  refine ⟨P,P',hc.resting.main,hr.main,hc'.best,hc'.stored,?_,?_⟩
  · generalize (receiveBlock E b pre forkPointWithPeak (w.due i)).1=answer at hm
    cases hm with
    | still hP hb hno =>
      rw [hP]
      constructor
      · intro hex
        obtain ⟨code,height,heq⟩ := hex
        exact absurd rfl (hno _ _ _ heq).1
      · intro hne
        exact absurd rfl hne
    | orphan hP hlight he =>
      rw [hP]
      constructor
      · intro hex
        obtain ⟨code,height,heq⟩ := hex
        cases heq
      · intro hne
        exact absurd rfl hne
    | newPeak hP hheavy he hat hapart hindex =>
      subst hP
      refine ⟨fun _ => ?_,fun _ => ⟨_,_,rfl⟩⟩
      intro hlast
      have hb : P.getLast?=some b := by
        rw [← hlast]
        simp
      have hold := hc.resting.peak_stored hb
      rw [he.isNew] at hold
      cases hold
  · intro code height heq
    rw [heq] at hm
    exact hm.forkHeight

def tinyState (blocks : List FullBlock) : World :=
  blocks.foldl (fun w b => (receiveBlock tinyEnv b tinyPre none (w.due none)).2) (World.empty 5 5)

theorem tinyFirst_call (w : World) (hash : Bytes32) : ForkCall tinyEnv w (tinyFirst hash) tinyPre none := by
  refine ⟨fun _ h => (by cases h),fun _ => ⟨fun _ => rfl,?_⟩⟩
  intro hz
  exact absurd rfl hz

theorem tinyBlock_call {w : World} {hash prev : Bytes32} {height weight : ℕ}
    (hprev : (w.block? prev).map FullBlock.weight=some n) (hle : n≤weight) :
    ForkCall tinyEnv w (tinyBlock hash prev (height+1) weight) tinyPre none := by
  refine ⟨fun _ h => (by cases h),fun _ => ⟨fun hz => absurd hz (Nat.succ_ne_zero height),?_⟩⟩
  intro _ p hp
  have hp' : w.block? prev=some p := hp
  rw [hp',Option.map_some,Option.some.injEq] at hprev
  rw [hprev]
  exact hle

/-- A chain of three blocks, and a side branch on its first block that becomes as long. -/
def forkRun : List FullBlock := [tinyGenesis,tinyBlock 11 10 1 8,tinyBlock 12 11 2 9,tinyBlock 21 10 1 8]

def forkTip : FullBlock := tinyBlock 22 21 2 15

theorem forkRun_ran : ∃ accepted,Ran tinyEnv accepted (tinyState forkRun) := by
  have h1 := (Ran.start 5 5).call (tinyFirst_call _ 10) none
  have h2 := h1.call (b := tinyBlock 11 10 1 8) (tinyBlock_call (n := 7) (by decide +kernel) (by decide)) none
  have h3 := h2.call (b := tinyBlock 12 11 2 9) (tinyBlock_call (n := 8) (by decide +kernel) (by decide)) none
  exact ⟨_,h3.call (b := tinyBlock 21 10 1 8) (tinyBlock_call (n := 7) (by decide +kernel) (by decide)) none⟩

/-- The heavier tip of the side branch makes that the main chain, above the first block. -/
theorem ran_forkChoice_fork : (receiveBlock tinyEnv forkTip tinyPre none ((tinyState forkRun).due none)).1 =
      .ok (.newPeak,none,some 0) ∧ ∃ accepted P P',Tells tinyEnv
      (accepted++nowAccepted forkTip (receiveBlock tinyEnv forkTip tinyPre none ((tinyState forkRun).due none)).1)
      (tinyState forkRun) (receiveBlock tinyEnv forkTip tinyPre none ((tinyState forkRun).due none)).2 P P'
      (receiveBlock tinyEnv forkTip tinyPre none ((tinyState forkRun).due none)).1 := by
  obtain ⟨accepted,hran⟩ := forkRun_ran
  refine ⟨by decide +kernel,accepted,?_⟩
  exact ran_forkChoice hran (tinyBlock_call (n := 8) (by decide +kernel) (by decide)) none

/-- A branch on another first block: the height returned is zero, and the entry there changes. -/
theorem forkHeight_of_second_genesis : ∃ accepted w b,Ran tinyEnv accepted w ∧ ForkCall tinyEnv w b tinyPre none ∧
    (receiveBlock tinyEnv b tinyPre none (w.due none)).1 = .ok (.newPeak,none,some 0) ∧
    w.chain.heightToHash.get? 0=some 10 ∧
    (receiveBlock tinyEnv b tinyPre none (w.due none)).2.chain.heightToHash.get? 0=some 20 := by
  have hran : Ran tinyEnv _ (tinyState [tinyFirst 10,tinyFirst 20]) :=
    ((Ran.start 5 5).call (tinyFirst_call _ 10) none).call (tinyFirst_call _ 20) none
  refine ⟨_,_,tinyBlock 21 20 1 15,hran,tinyBlock_call (n := 7) ?_ (by decide),?_,?_,?_⟩
  · decide +kernel
  · decide +kernel
  · decide +kernel
  · decide +kernel

end RoseChain
