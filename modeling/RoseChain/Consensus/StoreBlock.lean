import RoseChain.Consensus.NewPeak

namespace RoseChain
open Lib
variable (E : Env) (fx : FullBlock → Effects)

def World.orphaned (w : World) (b : FullBlock) (r : BlockRecord) : World :=
  { w with
    db := BlockStore.withBlock (b.headerHash E) b r w.db
    saved := none
    chain := Blockchain.addBlockRecord r w.chain }

/-- The node after a new peak; `t` is the coin table, and `records` is what enters the index `c`. -/
def World.seated (w : World) (b : FullBlock) (r : BlockRecord) (t : Dict Bytes32 CoinRecord) (c : Chain)
    (records : List BlockRecord) : World :=
  { w with
    db := BlockStore.withPeak (b.headerHash E)
      { BlockStore.withBlock (b.headerHash E) b r w.db with coinRecord := t }
    saved := none
    chain := { Blockchain.indexRecords records (Blockchain.addBlockRecord r c) with
      peakHeight := some r.height } }

/-- The fork point a caller gives is the height of a common ancestor of the block and the peak. -/
def ProperFork (w : World) (b : FullBlock) (forkPointWithPeak : Option ℕ) : Prop :=
  ∀ f,forkPointWithPeak=some f → ∃ P Q a,MainChain E w P ∧ (w.forest E).OnTop Q b ∧
    P[f]?=some a ∧ Q[f]?=some a

/-- A first block, or a later one above height zero that is heavier than the peak. -/
def Heavier (P : List FullBlock) (b : FullBlock) : Prop :=
  P=[] ∨ b.height≠0 ∧ ∃ p,P.getLast?=some p ∧ p.weight<b.weight

variable {E fx} {w : World} {P Q : List FullBlock} {b : FullBlock} {r : BlockRecord}

variable {P' : List FullBlock}

theorem MainChain.length_eq (h : MainChain E w P) (h' : MainChain E w P') : P.length=P'.length := by
  have hp := h.peakHeight.symm.trans h'.peakHeight
  split_ifs at hp <;> simp at hp <;> omega

theorem MainChain.unique (hi : Indexed E w) (h : MainChain E w P) (h' : MainChain E w P') : P=P' := by
  have hlen := h.length_eq h'
  by_cases hP : P=[]
  · subst hP
    exact (List.eq_nil_of_length_eq_zero hlen.symm).symm
  have hP' : P'≠[] := by
    rintro rfl
    exact hP (List.eq_nil_of_length_eq_zero hlen)
  obtain ⟨k,hk⟩ := h.path hP
  obtain ⟨k',hk'⟩ := h'.path hP'
  have hpos := hk.length_pos
  have hlast : P.length-1<P.length := by omega
  have hlast' : P.length-1<P'.length := by omega
  have hkey := (h.index _ hlast).symm.trans (h'.index _ hlast')
  have hmeet := hk.meet hi.keyed hk' _ hlast hlast' (by simpa using hkey)
  rwa [List.take_of_length_le (by omega),List.take_of_length_le (by omega)] at hmeet

theorem ProperFork.forkAt {f : ℕ} (ha : Arrival E w P Q b r) (h : ProperFork E w b (some f)) :
    ForkAt P Q (f+1) := by
  obtain ⟨P',Q',a,hP',hQ',hPf,hQf⟩ := h f rfl
  obtain rfl := hP'.unique ha.indexed ha.main
  obtain rfl := hQ'.unique ha.onTop
  obtain ⟨hp,hpa⟩ := List.getElem?_eq_some_iff.mp hPf
  obtain ⟨hq,hqa⟩ := List.getElem?_eq_some_iff.mp hQf
  refine ⟨hp,hq,?_⟩
  obtain ⟨k,hk⟩ := ha.main.path (List.ne_nil_of_length_pos (by omega))
  have hne : Q'≠[] := List.ne_nil_of_length_pos (by omega)
  exact hk.meet ha.indexed.keyed (ha.onTop.2.resolve_left hne) f hp hq (by rw [hpa,hqa])

theorem eq_of_records {l m : List FullBlock} {rs : List BlockRecord}
    (hl : List.Forall₂ (RecordOf E) l rs) (hm : List.Forall₂ (RecordOf E) m rs)
    (hls : ∀ x∈l,w.block? (x.headerHash E)=some x) (hms : ∀ x∈m,w.block? (x.headerHash E)=some x) : l=m := by
  induction hl generalizing m with
  | nil => cases hm; rfl
  | cons hx _ ih =>
    cases hm with
    | cons hy hm =>
      have hkey := hx.headerHash.symm.trans hy.headerHash
      have hxs := hls _ (List.mem_cons_self ..)
      rw [hkey,hms _ (List.mem_cons_self ..),Option.some.injEq] at hxs
      rw [hxs,ih hm (fun x h => hls x (List.mem_cons_of_mem _ h)) fun x h =>
        hms x (List.mem_cons_of_mem _ h)]

variable {p : FullBlock} {rp : BlockRecord}

section
variable (ha : Arrival E w (P++[p]) Q b r) (hrp : RecordOf E p rp)
  (hstored : w.chain.blockRecords.get? (p.headerHash E)=some rp)
include ha hrp hstored

theorem findForkPoint_records : ∃ ps qs,w.chain.view.forest.OnTop ps rp ∧ w.chain.view.forest.OnTop qs r ∧
      List.Forall₂ (RecordOf E) (P++[p]) (ps++[rp]) ∧ List.Forall₂ (RecordOf E) Q qs ∧
      findForkPointInChain w.chain.view r rp = .ok ((common (qs++[r]) (ps++[rp]) : ℤ)-1) := by
  obtain ⟨h,hpath⟩ := ha.main.path (by simp)
  obtain ⟨p',P',hfind,hlist,htop⟩ := Forest.path_iff.mp hpath
  obtain ⟨rfl,hp'⟩ := List.append_inj' hlist rfl
  obtain rfl : p=p' := by simpa using hp'
  obtain ⟨ps,hps,hpall⟩ := ha.indexed.onTop htop hrp
  obtain ⟨qs,hqs,hqall⟩ := ha.indexed.onTop ha.onTop ha.record
  have hnew : ∀ r',w.chain.view.blockRecords.get? r.headerHash=some r' → r'=r := by
    intro r' hr'
    have hno := ha.noRecord
    rw [← ha.record.headerHash,← ha.indexed.memory] at hno
    rw [show w.chain.view.blockRecords=w.chain.blockRecords from rfl,hno] at hr'
    cases hr'
  have hold : w.chain.view.blockRecords.get? rp.headerHash=some rp := by
    rw [hrp.headerHash]
    exact hstored
  exact ⟨ps,qs,hps,hqs,List.rel_append hpall (.cons hrp .nil),hqall,
    findForkPointInChain_eq ha.indexed.view_keyed hqs hps hnew hold⟩

theorem forkAt_findForkPoint : ∃ k : ℕ,findForkPointInChain w.chain.view r rp = .ok ((k : ℤ)-1) ∧ ForkAt (P++[p]) Q k := by
  obtain ⟨h,hpath⟩ := ha.main.path (by simp)
  obtain ⟨ps,qs,-,-,hpr,hqall,hfork⟩ := findForkPoint_records ha hrp hstored
  refine ⟨_,hfork,?_⟩
  set k := common (qs++[r]) (ps++[rp]) with hk
  have hleft : k≤(P++[p]).length := by
    have h := common_le_right (qs++[r]) (ps++[rp])
    rw [← hk,← hpr.length_eq] at h
    exact h
  have htake : (qs++[r]).take k=(ps++[rp]).take k := take_common _ _
  have hall : ∀ x∈P++[p],w.block? (x.headerHash E)=some x :=
    fun x hx => hpath.find_mem ha.indexed.keyed hx
  have hright : k≤Q.length := by
    -- the new record itself is not on the main chain
    by_contra hlt
    have hle := common_le_left (qs++[r]) (ps++[rp])
    rw [← hk,List.length_append,List.length_singleton,← hqall.length_eq] at hle
    have hkq : k=(qs++[r]).length := by simp [← hqall.length_eq]; omega
    have hmem : r∈ps++[rp] := by
      refine List.mem_of_mem_take (i := k) ?_
      rw [← htake,hkq,List.take_length]
      simp
    obtain ⟨i,hi,hri⟩ := List.getElem_of_mem hmem
    have hi' : i<(P++[p]).length := by rw [hpr.length_eq]; exact hi
    have hrec := hpr.get hi' hi
    rw [List.get_eq_getElem,List.get_eq_getElem,hri] at hrec
    have hfound := hall _ (List.getElem_mem hi')
    rw [← hrec.headerHash,ha.record.headerHash,ha.isNew] at hfound
    cases hfound
  refine ⟨hleft,hright,?_⟩
  have hq : List.Forall₂ (RecordOf E) (Q.take k) ((ps++[rp]).take k) := by
    rw [← htake,List.take_append_of_le_length (by rw [← hqall.length_eq]; exact hright)]
    exact List.forall₂_take k hqall
  exact eq_of_records (List.forall₂_take k hpr) hq (fun x hx => hall x (List.mem_of_mem_take hx))
    fun x hx => ha.onTop.find_mem ha.indexed.keyed (List.mem_of_mem_take hx)

variable {a : FullBlock}

theorem findForkPoint_apart (hf : findForkPointInChain w.chain.view r rp = .ok (-1)) (hP : (P++[p])[0]?=some a) : Q[0]?≠some a := by
  intro hQ
  obtain ⟨ps,qs,hps,hqs,hpr,hqr,hfork⟩ := findForkPoint_records ha hrp hstored
  rw [hf,Except.ok.injEq] at hfork
  have hzero : common (qs++[r]) (ps++[rp])=0 := by omega
  have hpP : 0<(P++[p]).length := by simp
  obtain ⟨hq,hqa⟩ := List.getElem?_eq_some_iff.mp hQ
  have hpp : 0<(ps++[rp]).length := by simp
  have hqq : 0<qs.length := by rw [← hqr.length_eq]; exact hq
  have hx := hpr.get hpP hpp
  have hy := hqr.get hq hqq
  rw [List.get_eq_getElem,List.get_eq_getElem] at hx hy
  rw [List.getElem?_eq_getElem hpP,Option.some.injEq] at hP
  rw [hP] at hx
  rw [hqa] at hy
  -- the two first records are stored for one block
  have hkeyed := ha.indexed.view_keyed
  have hold : w.chain.view.forest.find rp.headerHash=some rp := by
    rw [hrp.headerHash]
    exact hstored
  have hpath : w.chain.view.forest.Path rp.headerHash (ps++[rp]) := Forest.path_iff.mpr ⟨rp,ps,hold,rfl,hps⟩
  have h₁ := hpath.find_mem hkeyed (List.getElem_mem hpp)
  have h₂ := hqs.find_mem hkeyed (List.getElem_mem hqq)
  rw [forest_key,hx.headerHash] at h₁
  rw [forest_key,hy.headerHash,h₁,Option.some.injEq] at h₂
  have hpos : 0<common (qs++[r]) (ps++[rp]) := by
    apply common_pos (a := qs[0])
    · rw [List.getElem?_append_left hqq,List.getElem?_eq_getElem hqq]
    · rw [List.getElem?_eq_getElem hpp,h₂]
  omega

variable {forkPointWithPeak : Option ℕ}

theorem reorgForkHeight_apart {f : ℤ} (hneg : f<0) (hf : Blockchain.reorgForkHeight w.chain.view r rp forkPointWithPeak = .ok f)
    (hP : (P++[p])[0]?=some a) : Q[0]?≠some a := by
  unfold Blockchain.reorgForkHeight at hf
  split_ifs at hf with hext
  · rw [Except.ok.injEq] at hf
    omega
  · cases forkPointWithPeak with
    | some k =>
      simp only [Except.ok.injEq] at hf
      omega
    | none =>
      obtain ⟨ps,qs,-,-,-,-,hfork⟩ := findForkPoint_records ha hrp hstored
      have hone : f = -1 := by
        have h := hf.symm.trans hfork
        rw [Except.ok.injEq] at h
        omega
      rw [hone] at hf
      exact findForkPoint_apart ha hrp hstored hf hP

end

theorem reorgForkHeight_eq (ha : Arrival E w (P++[p]) Q b r) (hz : b.height≠0) (hrp : RecordOf E p rp)
    (hstored : w.chain.blockRecords.get? (p.headerHash E)=some rp) (hf : ProperFork E w b forkPointWithPeak) :
    ∃ k : ℕ,Blockchain.reorgForkHeight w.chain.view r rp forkPointWithPeak = .ok ((k : ℤ)-1) ∧
      ForkAt (P++[p]) Q k ∧ (r.prevHash=rp.headerHash → k=(P++[p]).length) := by
  unfold Blockchain.reorgForkHeight
  by_cases hext : r.prevHash=rp.headerHash
  · rw [if_pos hext]
    obtain ⟨h,hpath⟩ := ha.main.path (by simp)
    obtain ⟨p',hfind,hlast,hheight⟩ := hpath.last
    obtain rfl : p=p' := by simpa using hlast
    have hQ : Q=P++[p] := by
      refine (ha.onTop.path hz).unique ?_
      rw [worldForest_parent,← ha.record.prevHash,hext,hrp.headerHash]
      rwa [← ha.indexed.key h p hfind] at hpath
    refine ⟨(P++[p]).length,?_,⟨Nat.le_refl _,by rw [hQ],by rw [hQ]⟩,fun _ => rfl⟩
    rw [hrp.height,← hheight]
    simp
  · rw [if_neg hext]
    cases forkPointWithPeak with
    | some f =>
      refine ⟨f+1,?_,hf.forkAt ha,fun h => absurd h hext⟩
      simp
    | none =>
      obtain ⟨k,hk,hat⟩ := forkAt_findForkPoint ha hrp hstored
      exact ⟨k,hk,hat,fun h => absurd h hext⟩

namespace Blockchain

theorem addRows_run (hw : w.interrupt=none) (hc : w.saved=none) (α : Type) (f : NodeM α) :
    (do
      beginTransaction
      BlockStore.addFullBlock (b.headerHash E) b r
      f) w.bare=f (w.bare.adding E b r) := by
  have hopen : beginTransaction w.bare=(.ok (),{ w.bare with saved := some w.db }) := by
    rw [beginTransaction,execute_calm (by exact hw)]
    simp [hc]
  have hadd := BlockStore.addFullBlock_calm (w := { w.bare with saved := some w.db }) hw
    (b.headerHash E) b r
  rw [Eff.bind_of_ok hopen,Eff.bind_of_ok hadd]
  simp [World.adding,World.bare]

theorem commit_run {v : World} (hv : v.interrupt=none) (change : PeakChange) :
    (do
      commitTransaction
      modifyChain fun c =>
        let c := indexRecords change.2.2 (addBlockRecord r c)
        { c with peakHeight := change.2.1.or c.peakHeight }
      return change.1 : NodeM (Option ℕ)) v =
    (.ok change.1,{ v with
      saved := none
      chain := { indexRecords change.2.2 (addBlockRecord r v.chain) with
        peakHeight := change.2.1.or (indexRecords change.2.2 (addBlockRecord r v.chain)).peakHeight } }) := by
  rw [Eff.bind_of_ok (commitTransaction_calm hv)]
  rfl

@[simp] theorem indexRecords_blockRecords (records : List BlockRecord) (c : Chain) :
    (indexRecords records c).blockRecords=c.blockRecords := by
  unfold indexRecords
  induction records generalizing c with
  | nil => rfl
  | cons r records ih => exact ih _

theorem storeBlock_orphan (ha : Arrival E w P Q b r) (hw : w.interrupt=none) (h : ¬ Heavier P b)
    (forkPointWithPeak : Option ℕ) (npcResult : Option NPCResult) :
    storeBlock E b r forkPointWithPeak npcResult w.bare=(.ok none,w.bare.orphaned E b r) := by
  obtain ⟨P,p,rfl⟩ : ∃ P' p,P=P'++[p] := by
    rcases List.eq_nil_or_concat P with rfl | ⟨P',p,rfl⟩
    · exact absurd (Or.inl rfl) h
    · exact ⟨P',p,by simp⟩
  obtain ⟨rp,hpeak,hrp,-⟩ := getPeak_concat ha.indexed ha.main
  have hrun : reconsiderPeak E r (b.height=0) forkPointWithPeak npcResult (w.bare.adding E b r) =
      (.ok (none,none,[]),w.bare.adding E b r) := by
    have hl : (Eff.lift (getPeak (w.bare.adding E b r).chain) : NodeM _) (w.bare.adding E b r) =
        (.ok (some rp),w.bare.adding E b r) := by
      rw [Eff.lift_apply]
      exact Prod.ext hpeak rfl
    unfold reconsiderPeak
    rw [Eff.bind_get,Eff.bind_of_ok hl]
    by_cases hz : b.height=0
    · simp [hz]
    · have hle : ¬ r.weight > rp.weight := by
        rw [ha.record.weight,hrp.weight]
        exact fun hlt => h (Or.inr ⟨hz,p,by simp,hlt⟩)
      simp [hz,hle,assertSome]
  unfold storeBlock
  rw [addRows_run hw ha.indexed.closed,Eff.bind_of_ok hrun]
  exact commit_run (by exact hw) (none,none,[])

variable {npcResult : Option NPCResult}

theorem genesisPeak_run (ha : Arrival E w [] [] b r) (hw : w.interrupt=none)
    (hs : Shows E w.db.coinRecord Book.empty) (hres : resultEffects npcResult = .ok (fx b)) :
    (∃ book' t,Replays E fx [b] book' ∧ Shows E t book' ∧ genesisPeak E r npcResult (w.bare.adding E b r) =
        (.ok (some 0,some 0,[r]),(w.bare.adding E b r).repeaked (b.headerHash E) t)) ∨
    ((∀ book',¬ Replays E fx [b] book') ∧
      ∃ e w',genesisPeak E r npcResult (w.bare.adding E b r)=(.error e,w')) := by
  have hready := ready_adding (E := E) hw b r
  have hfull : BlockStore.getFullBlock r.headerHash (w.bare.adding E b r) =
      (.ok (some b),w.bare.adding E b r) := by
    have h := BlockStore.getFullBlock_bare hready.calm r.headerHash
    rwa [hready.bare,adding_block?,if_pos ha.record.headerHash.symm] at h
  have hsome : (Eff.lift (assertSome (some b)) : NodeM FullBlock) (w.bare.adding E b r) =
      (.ok b,w.bare.adding E b r) := rfl
  have hfx : (Eff.lift (resultEffects npcResult) : NodeM Effects) (w.bare.adding E b r) =
      (.ok (fx b),w.bare.adding E b r) := by
    rw [hres]
    rfl
  have hrun : genesisPeak E r npcResult (w.bare.adding E b r) =
      (do
        CoinStore.newBlock E b (fx b).2 (fx b).1
        BlockStore.setPeak r.headerHash
        return (some 0,some 0,[r]) : NodeM PeakChange) (w.bare.adding E b r) := by
    unfold genesisPeak
    rw [Eff.bind_of_ok hfull,Eff.bind_of_ok hsome]
    exact Eff.bind_of_ok hfx _
  have hone (book' : CoinBook) : Replays E fx [b] book' ↔ Posts E b (fx b) Book.empty book' := by
    refine postAll_cons_iff.trans ⟨?_,fun h => ⟨book',h,.nil _⟩⟩
    rintro ⟨book₁,h,hnil⟩
    cases hnil
    exact h
  rw [hrun]
  rcases CoinStore.newBlock_run hready hs b (fx b) with ⟨book',t,hp,hnew,ht⟩ | ⟨hno,e,w',hnew⟩
  · refine Or.inl ⟨book',t,(hone book').mpr hp,ht,?_⟩
    rw [Eff.bind_of_ok hnew,Eff.bind_of_ok (BlockStore.setPeak_calm (by exact hw) _),
      ha.record.headerHash]
    rfl
  · exact Or.inr ⟨fun book' h => hno book' ((hone book').mp h),e,w',Eff.bind_of_error hnew _⟩

theorem observe_getTx_of_result (hres : resultEffects npcResult = .ok (fx b))
    (hfit : b.isTransactionBlock → (npcResult.isSome ↔ b.transactionsGenerator.isSome))
    (ht : b.isTransactionBlock) (w : World) :
    observe (getTxRemovalsAndAdditions E b npcResult) w = .ok (fx b) := by
  have hf := hfit ht
  unfold getTxRemovalsAndAdditions
  cases npcResult with
  | none =>
    have hg : ¬ b.transactionsGenerator.isSome := fun hg => by simpa using hf.mpr hg
    rw [if_neg fun h => hg h.2]
    exact hres
  | some r =>
    rw [if_pos ⟨ht,hf.mp rfl⟩]
    exact hres

/-- What a node keeps in memory when the new peak enters the index. -/
def indexBefore (w : World) (P : List FullBlock) (forkHeight : ℤ) : Chain :=
  if P=[] then w.chain else (w.pruned forkHeight).chain

theorem storeBlock_heavier (ha : Arrival E w P Q b r) (hw : w.interrupt=none) {book : CoinBook}
    (hs : Shows E w.db.coinRecord book) (hrep : Replays E fx P book) (hfx : FixedEffects E fx w)
    (hres : resultEffects npcResult = .ok (fx b))
    (hfit : b.isTransactionBlock → (npcResult.isSome ↔ b.transactionsGenerator.isSome))
    {forkPointWithPeak : Option ℕ} (hf : ProperFork E w b forkPointWithPeak) (h : Heavier P b) :
    ∃ k,ForkAt P Q k ∧ ((∃ book' t records,Replays E fx (Q++[b]) book' ∧ Shows E t book' ∧
        List.Forall₂ (RecordOf E) ((Q++[b]).drop k) records ∧
        storeBlock E b r forkPointWithPeak npcResult w.bare =
          (.ok (some (k-1)),w.bare.seated E b r t (indexBefore w P (k-1)) records)) ∨
      ((∀ book',¬ Replays E fx (Q++[b]) book') ∧
        ∃ e w',storeBlock E b r forkPointWithPeak npcResult w.bare=(.error e,w'))) := by
  have hadd := addRows_run (E := E) (b := b) (r := r) hw ha.indexed.closed (Option ℕ)
  have hget (o : Option BlockRecord) (hpeak : getPeak w.chain = .ok o) :
      (Eff.lift (getPeak (w.bare.adding E b r).chain) : NodeM _) (w.bare.adding E b r) =
        (.ok o,w.bare.adding E b r) := by
    rw [Eff.lift_apply]
    exact Prod.ext hpeak rfl
  rcases List.eq_nil_or_concat P with rfl | ⟨P',p,rfl⟩
  · -- an empty chain has no ancestors to offer
    have hQ : Q=[] := by
      by_contra hne
      obtain ⟨v,hv,-⟩ := (ha.onTop.2.resolve_left hne).last
      simp [ha.main.start rfl] at hv
    subst hQ
    have hz : b.height=0 := ha.onTop.1
    have hbook : book=Book.empty := by
      cases hrep
      rfl
    subst hbook
    have hrun : reconsiderPeak E r (b.height=0) forkPointWithPeak npcResult (w.bare.adding E b r) =
        genesisPeak E r npcResult (w.bare.adding E b r) := by
      unfold reconsiderPeak
      rw [Eff.bind_get,Eff.bind_of_ok (hget _ (getPeak_nil ha.main))]
      simp [hz]
    refine ⟨0,⟨Nat.le_refl _,Nat.le_refl _,rfl⟩,?_⟩
    rcases genesisPeak_run ha hw hs hres with ⟨book',t,hrep',ht,hgen⟩ | ⟨hno,e,w',hgen⟩
    · refine Or.inl ⟨book',t,[r],hrep',ht,.cons ha.record .nil,?_⟩
      unfold storeBlock
      rw [hadd,Eff.bind_of_ok (hrun.trans hgen)]
      refine (commit_run (by exact hw) (some 0,some 0,[r])).trans ?_
      simp [World.seated,World.repeaked,World.adding,indexBefore,ha.record.height,hz]
    · refine Or.inr ⟨hno,e,w',?_⟩
      unfold storeBlock
      rw [hadd,Eff.bind_of_error (hrun.trans hgen)]
  · rw [List.concat_eq_append] at ha hrep h ⊢
    obtain ⟨rp,hpeak,hrp,hstored⟩ := getPeak_concat ha.indexed ha.main
    obtain ⟨hz,hweight⟩ : b.height≠0 ∧ r.weight > rp.weight := by
      rcases h with h | ⟨hz,p',hp',hlt⟩
      · simp at h
      · obtain rfl : p=p' := by simpa using hp'
        exact ⟨hz,by rw [ha.record.weight,hrp.weight]; exact hlt⟩
    obtain ⟨k,hk,hat,htip⟩ := reorgForkHeight_eq ha hz hrp hstored hf
    have hrun : reconsiderPeak E r (b.height=0) forkPointWithPeak npcResult (w.bare.adding E b r) =
        heavierPeak E r rp forkPointWithPeak npcResult (w.bare.adding E b r) := by
      unfold reconsiderPeak
      rw [Eff.bind_get,Eff.bind_of_ok (hget _ hpeak)]
      simp [hz,hweight,assertSome]
    refine ⟨k,hat,?_⟩
    rcases heavierPeak_run ha hw hs hrep hfx (fun ht => observe_getTx_of_result hres hfit ht w)
      (f := (k : ℤ)-1) (by omega) hk hat htip with
      ⟨book',t,records,hrep',ht,hrecs,hheavy⟩ | ⟨hno,e,w',hheavy⟩
    · refine Or.inl ⟨book',t,records,hrep',ht,hrecs,?_⟩
      unfold storeBlock
      rw [hadd,Eff.bind_of_ok (hrun.trans hheavy)]
      refine (commit_run (by exact hw) (_,some r.height,records)).trans ?_
      have hmax : (max ((k : ℤ)-1) 0).toNat=k-1 := by omega
      simp [World.seated,World.repeaked,World.adding,World.pruned,indexBefore,hmax]
    · refine Or.inr ⟨hno,e,w',?_⟩
      unfold storeBlock
      rw [hadd,Eff.bind_of_error (hrun.trans hheavy)]

end Blockchain
end RoseChain
