import RoseChain.Consensus.ChainState
import RoseChain.Consensus.Growth

namespace RoseChain
open Lib
variable (E : Env) (fx : FullBlock → Effects)

/-- The node while a new block is being added: a transaction is open, its rows are written. -/
def World.adding (w : World) (b : FullBlock) (r : BlockRecord) : World :=
  { w with db := BlockStore.withBlock (b.headerHash E) b r w.db,saved := some w.db }

/-- The node with the sub-epoch summaries above a height gone. -/
def World.pruned (w : World) (forkHeight : ℤ) : World :=
  { w with chain := { w.chain with
      subEpochSummaries := w.chain.subEpochSummaries.filter fun h _ => decide ((h : ℤ)≤forkHeight) } }

/-- The node with another coin table, and the peak at a header hash. -/
def World.repeaked (w : World) (headerHash : Bytes32) (t : Dict Bytes32 CoinRecord) : World :=
  { w with db := BlockStore.withPeak headerHash { w.db with coinRecord := t } }

/-- The first `k` blocks are common to the main chain and the chain of the new block. -/
structure ForkAt (P Q : List FullBlock) (k : ℕ) : Prop where
  left : k≤P.length
  right : k≤Q.length
  take : P.take k=Q.take k

/-- Running the generators of the stored blocks again gives their fixed effects. -/
def FixedEffects (w : World) : Prop := ∀ h b,w.block? h=some b →
  observe (Blockchain.getTxRemovalsAndAdditions E b none) w = .ok (fx b) ∧
  observe (forkEffects E Blockchain.blockGenerator b) w = .ok (fx b)

/-- The effects that the result of a generator stands for. -/
def resultEffects (npcResult : Option NPCResult) : Check Effects :=
  match npcResult with
  | some r => txRemovalsAndAdditions r.npcList
  | none => .ok ([],[])

/-- A block that is not stored yet, its record, and its ancestors; `P` is the main chain. -/
structure Arrival (w : World) (P Q : List FullBlock) (b : FullBlock) (r : BlockRecord) : Prop where
  indexed : Indexed E w
  main : MainChain E w P
  isNew : w.block? (b.headerHash E)=none
  onTop : (w.forest E).OnTop Q b
  record : RecordOf E b r
  plain : ¬ b.isTransactionBlock → b.transactionsGenerator=none

variable {E fx} {w : World} {P Q : List FullBlock} {b : FullBlock} {r : BlockRecord}

theorem FixedEffects.plain (hi : Indexed E w) (h : FixedEffects E fx w) {k : Bytes32}
    (hb : w.block? k=some b) (ht : ¬ b.isTransactionBlock) : fx b=([],[]) := by
  have hrun := (h k b hb).2
  unfold forkEffects at hrun
  rw [hi.plain k b hb ht] at hrun
  simpa [eq_comm] using hrun

theorem adding_block? (w : World) (b : FullBlock) (r : BlockRecord) (h : Bytes32) :
    (w.adding E b r).block? h=if b.headerHash E=h then some b else w.block? h := by
  simp only [World.block?,World.adding,BlockStore.withBlock,Dict.get?_set]
  split_ifs <;> rfl

theorem adding_record? (w : World) (b : FullBlock) (r : BlockRecord) (h : Bytes32) :
    (w.adding E b r).record? h=if b.headerHash E=h then some r else w.record? h := by
  simp only [World.record?,World.adding,BlockStore.withBlock,Dict.get?_set]
  split_ifs <;> rfl

theorem ready_adding (hw : w.interrupt=none) (b : FullBlock) (r : BlockRecord) :
    Ready (w.bare.adding E b r) := ⟨hw,rfl,rfl,rfl⟩

theorem ForkAt.getElem {k i : ℕ} (h : ForkAt P Q k) (hi : i<k) (hP : i<P.length)
    (hQ : i<Q.length) : P[i]=Q[i] := by
  have hget : P[i]?=Q[i]? := by
    rw [← List.getElem?_take_of_lt hi,h.take,List.getElem?_take_of_lt hi]
  simpa [hP,hQ] using hget

namespace Arrival

section
variable (h : Arrival E w P Q b r)
include h

theorem noRecord : w.record? (b.headerHash E)=none := by
  rw [World.record?,Option.map_eq_none_iff]
  by_contra hne
  obtain ⟨row,hrow⟩ := Option.ne_none_iff_exists'.mp hne
  have hb := h.indexed.block _ row hrow
  rw [h.isNew] at hb
  simp at hb

theorem growth (hw : w.interrupt=none) : w.Extends (w.adding E b r) where
  calm := hw
  calm' := hw
  view := rfl
  peakHeight := rfl
  block := by
    intro k b' hb
    rw [adding_block?,if_neg,hb]
    rintro rfl
    simp [h.isNew] at hb
  record := by
    intro k r' hr
    rw [adding_record?,if_neg,hr]
    rintro rfl
    simp [h.noRecord] at hr

theorem path : ((w.adding E b r).forest E).Path (b.headerHash E) (Q++[b]) := by
  refine Forest.path_iff.mpr ⟨b,Q,by simp [adding_block?],rfl,h.onTop.mono ?_ rfl rfl⟩
  intro k v hv
  rw [worldForest_find] at hv ⊢
  rw [adding_block?,if_neg,hv]
  rintro rfl
  simp [h.isNew] at hv

theorem recorded {k : Bytes32} {b' : FullBlock} (hb : (w.adding E b r).block? k=some b') :
    b'.headerHash E=k ∧ ∃ r',RecordOf E b' r' ∧ (w.adding E b r).record? k=some r' := by
  rw [adding_block?] at hb
  rw [adding_record?]
  split_ifs at hb ⊢ with hk
  · simp only [Option.some.injEq] at hb
    subst hb
    exact ⟨hk,r,h.record,rfl⟩
  · exact ⟨h.indexed.key k b' hb,h.indexed.record hb⟩

end

end Arrival

theorem getPeak_nil (h : MainChain E w []) : Blockchain.getPeak w.chain = .ok none := by
  have hp := h.peakHeight
  simp only [List.length_nil,if_true] at hp
  simp [Blockchain.getPeak,hp]

theorem getPeak_concat {p : FullBlock} (hi : Indexed E w) (h : MainChain E w (P++[p])) :
    ∃ rp,Blockchain.getPeak w.chain = .ok (some rp) ∧ RecordOf E p rp ∧
      w.chain.blockRecords.get? (p.headerHash E)=some rp := by
  have hp := h.peakHeight
  rw [if_neg (by simp),List.length_append,List.length_singleton,Nat.add_sub_cancel] at hp
  have hidx := h.index P.length (by simp)
  simp only [List.getElem_append_right (Nat.le_refl _),Nat.sub_self,List.getElem_singleton] at hidx
  obtain ⟨k,hpath⟩ := h.path (by simp)
  have hfind := hpath.find_getElem hi.keyed P.length (by simp)
  simp only [List.getElem_append_right (Nat.le_refl _),Nat.sub_self,List.getElem_singleton,
    worldForest_find,worldForest_key] at hfind
  obtain ⟨rp,hrp,hrec⟩ := hi.record hfind
  have hmem : w.chain.blockRecords.get? (p.headerHash E)=some rp := (hi.memory _).trans hrec
  refine ⟨rp,?_,hrp,hmem⟩
  simp [Blockchain.getPeak,hp,BlockView.heightToBlockRecord,BlockView.heightToHash,Chain.view,hidx,
    BlockView.blockRecord,hmem,lookup,bind,Except.bind,Functor.map,Except.map]

def Recorded (E : Env) (l : List FullBlock) (L : List (FullBlock × BlockRecord)) : Prop :=
  L.map Prod.fst=l ∧ ∀ p∈L,RecordOf E p.1 p.2

namespace Blockchain

variable {f : ℤ}

theorem atFork_eq {V : BlockView} (curr : Bytes32) {h : Bytes32} (hat : 0≤f → V.heights.get? f.toNat=some h) :
    atFork V f curr = .ok (decide (0≤f ∧ curr=h)) := by
  unfold atFork
  by_cases hf : 0≤f
  · simp [not_lt.mpr hf,BlockView.heightToHash,hat hf,lookup,hf,bind,Except.bind,pure,Except.pure]
  · simp [not_le.mp hf,hf]

variable {v : World}

theorem observe_blocksToAdd_succ (hv : v.interrupt=none) {curr : Bytes32}
    (hb : v.block? curr=some b) (hr : v.record? curr=some r) {a : Bool}
    (ha : atFork v.chain.view f curr = .ok a) (n : ℕ) :
    observe (blocksToAdd f (n+1) curr) v =
      if a then .ok []
      else if b.height=0 then .ok [(b,r)]
      else do return (b,r)::(← observe (blocksToAdd f n r.prevHash) v) := by
  have hfork : (Eff.lift (atFork v.bare.chain.view f curr) : NodeM Bool) v.bare=(.ok a,v.bare) := by
    rw [World.bare_chain,ha]
    rfl
  have hfull := BlockStore.getFullBlock_bare hv curr
  have hrecord := BlockStore.getBlockRecord_calm (w := v.bare) hv curr
  rw [hb] at hfull
  rw [World.bare_record?,hr] at hrecord
  have hsome {α : Type} (x : α) : (Eff.lift (assertSome (some x)) : NodeM α) v.bare=(.ok x,v.bare) := rfl
  unfold observe
  rw [blocksToAdd,Eff.bind_get,Eff.bind_of_ok hfork]
  cases a with
  | true => rfl
  | false =>
    rw [if_neg Bool.false_ne_true,if_neg Bool.false_ne_true,Eff.bind_of_ok hfull,
      Eff.bind_of_ok hrecord,Eff.bind_of_ok (hsome b),Eff.bind_of_ok (hsome r)]
    split
    · rfl
    · rcases hrest : blocksToAdd f n r.prevHash v.bare with ⟨e | rest,s⟩
      · rw [Eff.bind_of_error hrest]
        rfl
      · rw [Eff.bind_of_ok hrest]
        rfl

variable {tip : Bytes32} {k : ℕ}

theorem observe_blocksToAdd (hv : v.interrupt=none) (hrec : ∀ k b,v.block? k=some b →
      b.headerHash E=k ∧ ∃ r,RecordOf E b r ∧ v.record? k=some r)
    {l : List FullBlock} (hp : (v.forest E).Path tip l) {n : ℕ} (hk : f+1=k) (hkl : k≤l.length)
    (hat : ∀ i (hi : i<l.length),i+1=k → v.chain.heightToHash.get? i=some (l[i].headerHash E))
    (hn : l.length<n) : ∃ L,observe (blocksToAdd f n tip) v = .ok L ∧ Recorded E (l.drop k).reverse L := by
  have hkeyed : (v.forest E).Keyed := fun k b hb => (hrec k b hb).1
  induction l using List.reverseRecOn generalizing tip n with
  | nil => exact absurd rfl hp.ne_nil
  | append_singleton m b ih =>
    obtain ⟨b',m',hb,hlist,htop⟩ := Forest.path_iff.mp hp
    obtain ⟨hm,hlast⟩ := List.append_inj' hlist rfl
    obtain rfl : b=b' := by simpa using hlast
    subst hm
    obtain ⟨hkey,r,hr,hrv⟩ := hrec _ _ hb
    obtain ⟨n,rfl⟩ := Nat.exists_eq_succ_of_ne_zero (Nat.ne_of_gt (Nat.zero_lt_of_lt hn))
    simp only [List.length_append,List.length_singleton] at hkl hn
    have hh : b.height=m.length := htop.1
    rcases Nat.lt_or_ge m.length k with hlt | hge
    · -- the fork is at this block, and the walk ends
      have hidx := hat m.length (by simp) (by omega)
      rw [List.getElem_append_right (Nat.le_refl _)] at hidx
      simp only [Nat.sub_self,List.getElem_singleton] at hidx
      have hfork := atFork_eq (V := v.chain.view) (f := f) tip (h := b.headerHash E) fun _ => by
        rw [show f.toNat=m.length by omega]
        exact hidx
      rw [hkey,decide_eq_true ⟨by omega,rfl⟩] at hfork
      refine ⟨[],?_,?_⟩
      · rw [observe_blocksToAdd_succ hv hb hrv hfork]
        rfl
      · rw [List.drop_of_length_le (by simp; omega)]
        exact ⟨rfl,by simp⟩
    · -- the fork is further down
      have hfork : atFork v.chain.view f tip = .ok false := by
        rcases Nat.eq_zero_or_pos k with rfl | hpos
        · have hneg : f<0 := by omega
          simp [atFork,hneg]
        · have hi : k-1<(m++[b]).length := by simp; omega
          have hidx := hat (k-1) hi (by omega)
          have hne : ¬ tip=(m++[b])[k-1].headerHash E := by
            intro he
            have hfind := hp.find_getElem hkeyed (k-1) hi
            have hht := hp.height_getElem (k-1) hi
            rw [worldForest_key,← he] at hfind
            have heq : b=(m++[b])[k-1] := by simpa using hb.symm.trans hfind
            rw [← heq,worldForest_height] at hht
            omega
          rw [atFork_eq tip (h := (m++[b])[k-1].headerHash E) fun _ => by
            rw [show f.toNat=k-1 by omega]
            exact hidx]
          simp [hne]
      rw [observe_blocksToAdd_succ hv hb hrv hfork,if_neg Bool.false_ne_true,
        List.drop_append_of_le_length hge,List.reverse_append]
      by_cases hz : b.height=0
      · have hm : m=[] := List.eq_nil_of_length_eq_zero (by omega)
        subst hm
        rw [if_pos hz]
        exact ⟨[(b,r)],rfl,by simp,by simpa using hr⟩
      · rw [if_neg hz]
        have hpath := htop.path hz
        obtain ⟨L,hL,hmap,hall⟩ := ih hpath hge (fun i hi hik => by
          have h := hat i (by simp; omega) hik
          rwa [List.getElem_append_left hi] at h) (n := n) (by omega)
        rw [hr.prevHash]
        refine ⟨(b,r)::L,?_,?_,?_⟩
        · rw [worldForest_parent] at hpath
          rw [show observe (blocksToAdd f n b.prevHeaderHash) v = .ok L from hL]
          rfl
        · simp [hmap]
        · intro p hp'
          rcases List.mem_cons.mp hp' with rfl | hmem
          · exact hr
          · exact hall p hmem

theorem extends_withCoins (hv : v.interrupt=none) (t : Dict Bytes32 CoinRecord) :
    v.Extends (v.withCoins t) := ⟨hv,hv,rfl,rfl,fun _ _ h => h,fun _ _ h => h⟩

variable {npcResult : Option NPCResult}

theorem applyBlock_eq (hv : Ready v) {p : FullBlock × BlockRecord} (hp : RecordOf E p.1 p.2)
    (hfx : p.1.isTransactionBlock → observe (getTxRemovalsAndAdditions E p.1
      (if p.2.headerHash=tip then npcResult else none)) v = .ok (fx p.1)) : applyBlock E tip npcResult p v =
      if p.1.isTransactionBlock then CoinStore.newBlock E p.1 (fx p.1).2 (fx p.1).1 v else (.ok (),v) := by
  unfold applyBlock
  rw [hp.isTransactionBlock]
  split
  · rename_i ht
    have h := (getTxRemovalsAndAdditions_observes (E := E) p.1
      (if p.2.headerHash=tip then npcResult else none)).bare_eq hv.calm
    rw [hv.bare,hfx ht] at h
    rw [Eff.bind_of_ok h]
  · rfl

variable {book : CoinBook}

theorem applyBlocks_eq (hv : Ready v)
    (hs : Shows E v.db.coinRecord book) {L : List (FullBlock × BlockRecord)} (hL : ∀ p∈L,RecordOf E p.1 p.2)
    (hfx : ∀ p∈L,p.1.isTransactionBlock → observe (getTxRemovalsAndAdditions E p.1
      (if p.2.headerHash=tip then npcResult else none)) v = .ok (fx p.1)) :
    L.forM (applyBlock E tip npcResult) v=foldNewBlock E fx (L.map Prod.fst) v := by
  induction L generalizing v book with
  | nil => rfl
  | cons p L ih =>
    have happ := applyBlock_eq hv (hL p (by simp)) (hfx p (by simp))
    have hrest (t : Dict Bytes32 CoinRecord) : ∀ p∈L,p.1.isTransactionBlock →
        observe (getTxRemovalsAndAdditions E p.1
          (if p.2.headerHash=tip then npcResult else none)) (v.withCoins t) = .ok (fx p.1) :=
      fun q hq ht => (getTxRemovalsAndAdditions_stable _ _).grows _ _ (extends_withCoins hv.calm t) _
        (hfx q (by simp [hq]) ht)
    have hL' : ∀ q∈L,RecordOf E q.1 q.2 := fun q hq => hL q (by simp [hq])
    rw [List.map_cons]
    by_cases ht : p.1.isTransactionBlock
    · rw [if_pos ht] at happ
      have hf : foldNewBlock E fx (p.1::L.map Prod.fst) =
          CoinStore.newBlock E p.1 (fx p.1).2 (fx p.1).1 >>= fun _ =>
            foldNewBlock E fx (L.map Prod.fst) := by
        simp only [foldNewBlock,List.filter_cons_of_pos ht]
        rfl
      rw [hf]
      rcases CoinStore.newBlock_run hv hs p.1 (fx p.1) with ⟨book',t,-,hrun,ht'⟩ | ⟨-,e,v',hrun⟩
      · rw [Eff.forM_cons_of_ok (happ.trans hrun),Eff.bind_of_ok hrun]
        exact ih (hv.withCoins t) ht' hL' (hrest t)
      · rw [Eff.forM_cons_of_error (happ.trans hrun),Eff.bind_of_error hrun]
    · rw [if_neg ht] at happ
      have hf : foldNewBlock E fx (p.1::L.map Prod.fst)=foldNewBlock E fx (L.map Prod.fst) := by
        simp only [foldNewBlock,List.filter_cons_of_neg ht]
      rw [Eff.forM_cons_of_ok happ,hf]
      exact ih hv hs hL' fun q hq => hfx q (by simp [hq])

variable {peak : BlockRecord}

theorem rollback_run (ha : Arrival E w P Q b r) (hw : w.interrupt=none)
    (hs : Shows E w.db.coinRecord book) (hrep : Replays E fx P book) (hk : f+1=k)
    (htip : r.prevHash=peak.headerHash → k=P.length) :
    ∃ t,rollbackForReorg E r peak f (w.bare.adding E b r) = (.ok (),(w.bare.adding E b r).withCoins t) ∧
      Shows E t (Book.keep k book) ∧ Replays E fx (P.take k) (Book.keep k book) := by
  have hkeep : Replays E fx (P.take k) (Book.keep k book) := by
    refine hrep.take ?_ k
    by_cases hP : P=[]
    · subst hP
      exact fun i hi => by simp at hi
    · obtain ⟨h,hpath⟩ := ha.main.path hP
      exact inHeightOrder_of_path hpath
  unfold rollbackForReorg
  split
  · refine ⟨_,CoinStore.rollbackToBlock_ready (ready_adding hw b r) f,?_,hkeep⟩
    have h := CoinStore.shows_undone hs f
    rwa [hk,Int.toNat_natCast] at h
  · rename_i hno
    have hlen := htip (not_not.mp hno)
    have heq : Book.keep k book=book := by
      rw [hlen,List.take_length] at hkeep
      rw [hlen]
      exact hkeep.unique hrep
    exact ⟨w.db.coinRecord,rfl,by rwa [heq],hkeep⟩

theorem heavierPeak_run (ha : Arrival E w P Q b r) (hw : w.interrupt=none)
    (hs : Shows E w.db.coinRecord book) (hrep : Replays E fx P book) (hfx : FixedEffects E fx w)
    (hres : b.isTransactionBlock → observe (getTxRemovalsAndAdditions E b npcResult) w = .ok (fx b))
    {forkPointWithPeak : Option ℕ} (hk : f+1=k)
    (hf : reorgForkHeight w.chain.view r peak forkPointWithPeak = .ok f) (hat : ForkAt P Q k)
    (htip : r.prevHash=peak.headerHash → k=P.length) :
    (∃ book' t records,Replays E fx (Q++[b]) book' ∧ Shows E t book' ∧
      List.Forall₂ (RecordOf E) ((Q++[b]).drop k) records ∧
      heavierPeak E r peak forkPointWithPeak npcResult (w.bare.adding E b r) =
        (.ok (some (max f 0).toNat,some r.height,records),
          ((w.bare.adding E b r).pruned f).repeaked (b.headerHash E) t)) ∨
    ((∀ book',¬ Replays E fx (Q++[b]) book') ∧
      ∃ e w',heavierPeak E r peak forkPointWithPeak npcResult (w.bare.adding E b r)=(.error e,w')) := by
  obtain ⟨t₀,hroll,hs₀,hrep₀⟩ := rollback_run ha hw hs hrep hk htip
  -- the world in which the blocks of the new branch are applied
  set v := ((w.bare.adding E b r).withCoins t₀).pruned f with hv
  have hready : Ready v := ⟨hw,rfl,rfl,rfl⟩
  have hgrow : w.Extends v := by
    obtain ⟨h₁,h₂,h₃,h₄,h₅,h₆⟩ := ha.growth hw
    exact ⟨h₁,h₂,h₃,h₄,h₅,h₆⟩
  have hpath : (v.forest E).Path (b.headerHash E) (Q++[b]) := ha.path
  have hlift : (Eff.lift (reorgForkHeight (w.bare.adding E b r).chain.view r peak forkPointWithPeak) :
      NodeM ℤ) (w.bare.adding E b r)=(.ok f,w.bare.adding E b r) := by
    rw [Eff.lift_apply]
    exact Prod.ext hf rfl
  have hheight : r.height=Q.length := ha.record.height.trans ha.onTop.1
  have hindex : ∀ i (hi : i<(Q++[b]).length),i+1=k →
      v.chain.heightToHash.get? i=some ((Q++[b])[i].headerHash E) := by
    intro i hi hik
    have hl := hat.left
    have hr := hat.right
    rw [List.getElem_append_left (by omega),← hat.getElem (by omega) (by omega) (by omega)]
    exact ha.main.index i (by omega)
  obtain ⟨L,hL,hmap,hrec⟩ := observe_blocksToAdd (n := r.height+2) hready.calm
    (fun k b' hb' => ha.recorded hb') hpath hk (by have := hat.right; simp; omega) hindex
    (by simp; omega)
  have hblocks : blocksToAdd f (r.height+2) r.headerHash v=(.ok L,v) := by
    have h := (blocksToAdd_observes (E := E) f (r.height+2) (b.headerHash E)).bare_eq hready.calm
    rwa [hready.bare,hL,← ha.record.headerHash] at h
  have hfst : L.reverse.map Prod.fst=(Q++[b]).drop k := by
    rw [List.map_reverse,hmap,List.reverse_reverse]
  have heff : ∀ p∈L.reverse,p.1.isTransactionBlock → observe (getTxRemovalsAndAdditions E p.1
      (if p.2.headerHash=r.headerHash then npcResult else none)) v = .ok (fx p.1) := by
    intro p hp ht
    have hmem : p.1∈(Q++[b]).drop k := hfst ▸ List.mem_map_of_mem hp
    have hp2 := (hrec p (List.mem_reverse.mp hp)).headerHash
    refine (getTxRemovalsAndAdditions_stable _ _).grows w v hgrow _ ?_
    rcases List.mem_append.mp (List.mem_of_mem_drop hmem) with hq | hb
    · have hfind := ha.onTop.find_mem ha.indexed.keyed hq
      have hne : p.2.headerHash≠r.headerHash := by
        rw [hp2,ha.record.headerHash]
        intro he
        rw [worldForest_find,worldForest_key,he,ha.isNew] at hfind
        cases hfind
      rw [if_neg hne]
      exact (hfx _ _ hfind).1
    · obtain rfl : p.1=b := by simpa using hb
      rw [if_pos (hp2.trans ha.record.headerHash.symm)]
      exact hres ht
  have hrun : heavierPeak E r peak forkPointWithPeak npcResult (w.bare.adding E b r) =
      (do
        L.reverse.forM (applyBlock E r.headerHash npcResult)
        BlockStore.setPeak r.headerHash
        return (some (max f 0).toNat,some r.height,L.reverse.map Prod.snd) : NodeM PeakChange) v := by
    unfold heavierPeak
    rw [Eff.bind_get,Eff.bind_of_ok hlift,Eff.bind_of_ok hroll]
    exact Eff.bind_of_ok hblocks _
  have htake : (Q++[b]).take k=P.take k := by
    rw [List.take_append_of_le_length hat.right,hat.take]
  rw [hrun]
  have hs₁ : Shows E v.db.coinRecord (Book.keep k book) := hs₀
  have happ := applyBlocks_eq hready hs₁
    (fun p hp => hrec p (List.mem_reverse.mp hp)) heff
  rcases foldNewBlock_run hready hs₁
    (L.reverse.map Prod.fst) with ⟨book',t,hpost,hfold,hshow⟩ | ⟨hno,e,w',hfold⟩
  · refine Or.inl ⟨book',t,L.reverse.map Prod.snd,?_,hshow,?_,?_⟩
    · rw [hfst] at hpost
      have h := PostAll.append hrep₀ hpost
      rwa [← htake,List.take_append_drop] at h
    · rw [← hfst,List.forall₂_map_left_iff,List.forall₂_map_right_iff,List.forall₂_same]
      exact fun p hp => hrec p (List.mem_reverse.mp hp)
    · rw [Eff.bind_of_ok (happ.trans hfold),
        Eff.bind_of_ok (BlockStore.setPeak_calm (by exact hw) _),ha.record.headerHash]
      rfl
  · refine Or.inr ⟨fun book' hrep' => ?_,e,w',Eff.bind_of_error (happ.trans hfold) _⟩
    have hsplit : PostAll E fx Book.empty ((Q++[b]).take k++(Q++[b]).drop k) book' := by
      rwa [List.take_append_drop]
    obtain ⟨book₁,h₁,h₂⟩ := hsplit.split
    rw [htake] at h₁
    rw [Replays.unique h₁ hrep₀,← hfst] at h₂
    exact hno book' h₂

end Blockchain
end RoseChain
