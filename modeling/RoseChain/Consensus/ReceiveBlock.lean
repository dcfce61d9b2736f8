import RoseChain.Consensus.AcceptedBody
import RoseChain.Consensus.ChainInvariant

namespace RoseChain
open Lib Blockchain
variable {E : Env} {w : World} {b : FullBlock} {r : BlockRecord} {npcResult : Option NPCResult}
  {pre : Option PreValidationResult} {forkPointWithPeak : Option ℕ}

variable {V : BlockView}

theorem recordOf_of_ok {requiredIters : ℕ}
    (h : blockToBlockRecord E V requiredIters b = .ok r) : RecordOf E b r := by
  unfold blockToBlockRecord at h
  simp only [bind_ok] at h
  obtain ⟨_,-,⟨subSlotIters,_⟩,-,overflow,-,deficit,-,h⟩ := h
  split at h
  · simp only [bind_ok,pure,Except.pure,Except.ok.injEq] at h
    obtain ⟨_,rfl,height,-,rfl⟩ := h
    exact ⟨requiredIters,subSlotIters,overflow,deficit,height,none,rfl⟩
  · simp only [bind_ok,pure,Except.pure,Except.ok.injEq] at h
    obtain ⟨_,-,_,-,_,-,ses,-,_,-,_,rfl,height,-,rfl⟩ := h
    exact ⟨requiredIters,subSlotIters,overflow,deficit,height,some ses,rfl⟩

theorem validateBlock_ok (hw : w.interrupt=none)
    (h : observe (validateBlock E b pre forkPointWithPeak) w = .ok (r,npcResult)) :
    RecordOf E b r ∧ ∃ peak,getPeak w.chain = .ok peak ∧
      BodyAccepted E w.chain.view peak b.body b.height npcResult forkPointWithPeak blockGenerator w := by
  have hrest (p : ℕ × Option NPCResult) (h : observe (do
      let w ← Eff.get
      let peak ← Eff.lift (getPeak w.chain)
      let _ ← validateBlockBody E w.chain.view peak b.body b.height p.2 forkPointWithPeak blockGenerator
      let blockRecord ← Eff.lift (blockToBlockRecord E w.chain.view p.1 b)
      return (blockRecord,p.2)) w = .ok (r,npcResult)) :
      RecordOf E b r ∧ ∃ peak,getPeak w.chain = .ok peak ∧
        BodyAccepted E w.chain.view peak b.body b.height npcResult forkPointWithPeak blockGenerator w := by
    rw [observe_get,observe_lift_bind,bind_ok] at h
    obtain ⟨peak,hpeak,h⟩ := h
    rw [(validateBlockBody_observes blockGenerator_observes _ _ _ _ _).observe_bind _ hw,bind_ok] at h
    obtain ⟨out,hbody,h⟩ := h
    simp only [observe_lift_bind,bind_ok,observe_pure,Except.ok.injEq,Prod.mk.injEq] at h
    obtain ⟨r',hr,rfl,rfl⟩ := h
    exact ⟨recordOf_of_ok hr,peak,hpeak,bodyAccepted_of_ok hw blockGenerator_observes hbody⟩
  unfold validateBlock at h
  cases pre with
  | none =>
    rw [(validateHeader_observes b).observe_bind _ hw,bind_ok] at h
    obtain ⟨p,-,h⟩ := h
    exact hrest p h
  | some result =>
    rw [observe_lift_bind,bind_ok] at h
    obtain ⟨p,-,h⟩ := h
    exact hrest p h

variable {peak : Option BlockRecord} {g : GetBlockGenerator}

section
variable (h : BodyAccepted E V peak b.body b.height npcResult forkPointWithPeak g w)
include h

theorem BodyAccepted.plain (ht : ¬ b.isTransactionBlock) : b.transactionsGenerator=none := by
  cases h with
  | noData hash body =>
    simp only [validateNoBody,bind_ok,reject_eq_ok,not_or] at body
    obtain ⟨_,⟨-,-,hg⟩,-⟩ := body
    simpa [FullBlock.body] using hg
  | data hash foliage =>
    have hf : b.foliageTransactionBlock.isSome := Option.isSome_of_eq_some foliage
    exact absurd hf ht

theorem BodyAccepted.fit (ht : b.isTransactionBlock) : npcResult.isSome ↔ b.transactionsGenerator.isSome := by
  cases h with
  | noData hash body =>
    simp only [validateNoBody,bind_ok,reject_eq_ok,not_or] at body
    obtain ⟨_,⟨hf,-⟩,-⟩ := body
    exact absurd ht hf
  | data _ _ _ _ _ cost => exact (validateCost_ok cost).2

end

/-- Whether the block is the first one, or fits on a block that is known. -/
def Connected (w : World) (b : FullBlock) : Prop :=
  b.height=0 ∨ ∃ rp,w.chain.view.blockRecords.get? b.prevHeaderHash=some rp ∧
    rp.height+1=b.height

def verdict : Option ℕ → ReceiveBlockResult × Option Err × Option ℕ
  | some forkHeight => (.newPeak,none,some forkHeight)
  | none => (.addedAsOrphan,none,none)

theorem connected_of_height (hV : w.chain.view=V) (h : hasWrongHeight V b = .ok false) : Connected w b := by
  unfold hasWrongHeight at h
  split at h
  · exact Or.inl ‹_›
  · simp only [bind_ok,pure,Except.pure,Except.ok.injEq,decide_eq_false_iff_not,Classical.not_not] at h
    obtain ⟨rp,hrp,hh⟩ := h
    subst hV
    exact Or.inr ⟨rp,by simpa [BlockView.blockRecord] using hrp,hh⟩

theorem validateAndAdd_cases (hw : Coherent E w) (b : FullBlock) (pre : Option PreValidationResult)
    (forkPointWithPeak : Option ℕ) :
    (∃ answer w',validateAndAdd E b pre forkPointWithPeak w=(answer,w') ∧ w'.bare=w.bare ∧ Coherent E w') ∨
    ∃ r npcResult w₁,observe (validateBlock E b pre forkPointWithPeak) w = .ok (r,npcResult) ∧
      w₁.bare=w.bare ∧ Coherent E w₁ ∧ validateAndAdd E b pre forkPointWithPeak w =
        (verdict <$> addBlock E b r forkPointWithPeak npcResult) w₁ := by
  obtain ⟨w₁,hrun,hbare,hcoh⟩ := (validateBlock_observes b pre forkPointWithPeak).run hw
  have hcode : codeOf (validateBlock E b pre forkPointWithPeak) w =
      (codeOfAnswer (observe (validateBlock E b pre forkPointWithPeak) w),w₁) :=
    (congrFun (codeOf_eq _) w).trans (by simp only [hrun])
  unfold validateAndAdd
  cases hobs : observe (validateBlock E b pre forkPointWithPeak) w with
  | ok p =>
    rw [hobs] at hcode
    refine Or.inr ⟨p.1,p.2,w₁,rfl,hbare,hcoh,(Eff.bind_of_ok hcode _).trans ?_⟩
    rw [← bind_pure_comp]
    refine congrArg (fun f => (addBlock E b p.1 forkPointWithPeak p.2 >>= f) w₁) ?_
    funext o
    cases o <;> rfl
  | error e =>
    rw [hobs] at hcode
    cases e with
    | invalid code => exact Or.inl ⟨_,w₁,Eff.bind_of_ok hcode _,hbare,hcoh⟩
    | raised e => exact Or.inl ⟨_,w₁,Eff.bind_of_error hcode _,hbare,hcoh⟩

theorem receiveBlock_cases (hw : Coherent E w) (b : FullBlock) (pre : Option PreValidationResult)
    (forkPointWithPeak : Option ℕ) :
    (∃ answer w',receiveBlock E b pre forkPointWithPeak w=(answer,w') ∧ w'.bare=w.bare ∧ Coherent E w') ∨
    ∃ r npcResult w₁,observe (validateBlock E b pre forkPointWithPeak) w = .ok (r,npcResult) ∧
      ¬ w.chain.view.containsBlock (b.headerHash E) ∧ Connected w b ∧ w₁.bare=w.bare ∧
      Coherent E w₁ ∧ receiveBlock E b pre forkPointWithPeak w =
        (verdict <$> addBlock E b r forkPointWithPeak npcResult) w₁ := by
  have hget : receiveBlock E b pre forkPointWithPeak w=_ := Eff.bind_get _ _
  by_cases hhave : w.chain.view.containsBlock (b.headerHash E)
  · rw [if_pos hhave] at hget
    exact Or.inl ⟨_,w,hget,rfl,hw⟩
  rw [if_neg hhave] at hget
  by_cases hdis : ¬ w.chain.view.containsBlock b.prevHeaderHash ∧ ¬ b.height=0
  · rw [if_pos hdis] at hget
    exact Or.inl ⟨_,w,hget,rfl,hw⟩
  rw [if_neg hdis] at hget
  cases hheight : hasWrongHeight w.chain.view b with
  | error e =>
    rw [hheight] at hget
    exact Or.inl ⟨_,w,hget,rfl,hw⟩
  | ok wrong =>
    rw [hheight] at hget
    cases wrong with
    | true => exact Or.inl ⟨_,w,hget,rfl,hw⟩
    | false =>
      have hrun : receiveBlock E b pre forkPointWithPeak w =
          validateAndAdd E b pre forkPointWithPeak w := hget
      rw [hrun]
      refine (validateAndAdd_cases hw b pre forkPointWithPeak).imp_right ?_
      rintro ⟨r,npcResult,w₁,hval,hbare,hcoh,hadd⟩
      exact ⟨r,npcResult,w₁,hval,hhave,connected_of_height rfl hheight,hbare,hcoh,hadd⟩

section Bare
variable {w' : World} (he : w'.bare=w.bare)
include he

theorem db_of_bare : w'.db=w.db := by
  simpa using congrArg World.db he

theorem Indexed.congr (h : Indexed E w) : Indexed E w' := by
  have hb : Indexed E w.bare :=
    ⟨h.closed,h.key,h.row,h.block,h.memory,h.ancestors,h.plain⟩
  rw [← he] at hb
  exact ⟨hb.closed,hb.key,hb.row,hb.block,hb.memory,hb.ancestors,hb.plain⟩

theorem MainChain.congr {P : List FullBlock} (h : MainChain E w P) : MainChain E w' P := by
  have hb : MainChain E w.bare P := ⟨h.peakHeight,h.path,h.index,h.start⟩
  rw [← he] at hb
  exact ⟨hb.peakHeight,hb.path,hb.index,hb.start⟩

end Bare

/-- A node between calls: the coin store replays the main chain, and any block can be replayed. -/
structure Settled (E : Env) (fx : FullBlock → Effects) (w : World) : Prop where
  coherent : Coherent E w
  indexed : Indexed E w
  chain : ∃ P book,MainChain E w P ∧ Replays E fx P book ∧ Shows E w.db.coinRecord book
  replays : ∀ h l,(w.forest E).Path h l → ∃ book,Replays E fx l book

/-- A call with a proper fork point, for a block whose removals and additions are fixed and whose
coins do not collide with those of its ancestors. -/
structure ProperCall (E : Env) (fx : FullBlock → Effects) (w : World) (b : FullBlock)
    (pre : Option PreValidationResult) (forkPointWithPeak : Option ℕ) : Prop where
  fork : ProperFork E w b forkPointWithPeak
  fixed : FixedEffects E fx w
  received : ∀ r npcResult,observe (validateBlock E b pre forkPointWithPeak) w = .ok (r,npcResult) →
    resultEffects npcResult = .ok (fx b)
  fresh : ∀ Q,(w.forest E).OnTop Q b → ∀ n∈madeNames E b (fx b),∀ a∈Q,n∉madeNames E a (fx a)

section Step
variable {fx : FullBlock → Effects} {P Q : List FullBlock}

theorem Settled.replays_onTop (hs : Settled E fx w) (htop : (w.forest E).OnTop Q b) :
    ∃ book,Replays E fx Q book := by
  rcases htop.2 with rfl | hpath
  · exact ⟨Book.empty,.nil _⟩
  · exact hs.replays _ Q hpath

variable {book : CoinBook}

theorem Replays.fresh (h : Replays E fx Q book) {n : Bytes32}
    (hn : ∀ a∈Q,n∉madeNames E a (fx a)) : book n=none := by
  by_contra hne
  rcases Book.present_of_foldlM h.apply hne with he | ⟨δ,hδ,hmem⟩
  · exact he rfl
  · obtain ⟨a,ha,rfl⟩ := List.mem_map.mp hδ
    exact hn a ha hmem

theorem Indexed.onTop_of_connected (hi : Indexed E w) (hc : Connected w b) : ∃ Q,(w.forest E).OnTop Q b := by
  rcases hc with hz | ⟨rp,hrp,hh⟩
  · exact ⟨[],hz,Or.inl rfl⟩
  · obtain ⟨p,hp,hrec⟩ := hi.blockOf hrp
    obtain ⟨l,hl⟩ := hi.ancestors _ p hp
    refine ⟨l++[p],?_,Or.inr (Forest.path_iff.mpr ⟨p,l,hp,rfl,hl⟩)⟩
    have hheight : p.height=l.length := hl.1
    rw [worldForest_height,← hh,hrec.height,hheight]
    simp

theorem Arrival.path_cases (ha : Arrival E w P Q b r) {h : Bytes32} {l : List FullBlock}
    (hl : ((w.adding E b r).forest E).Path h l) : l=Q++[b] ∨ (w.forest E).Path h l := by
  obtain ⟨v,m,hv,-,-⟩ := Forest.path_iff.mp hl
  rw [worldForest_find,adding_block?] at hv
  split_ifs at hv with hk
  · subst hk
    exact Or.inl (hl.unique ha.path)
  · right
    obtain ⟨m',hm'⟩ := ha.indexed.ancestors h v hv
    have hold : (w.forest E).Path h (m'++[v]) := Forest.path_iff.mpr ⟨v,m',hv,rfl,hm'⟩
    have hnew := hold.mono (G := (w.adding E b r).forest E) (fun k u hu => ?_) rfl rfl
    · rw [hl.unique hnew]
      exact hold
    · rw [worldForest_find] at hu ⊢
      rw [adding_block?,if_neg,hu]
      rintro rfl
      simp [ha.isNew] at hu

theorem Settled.arrival (hs : Settled E fx w) (hd : E.HalvesDiffer)
    (hp : ProperCall E fx w b pre forkPointWithPeak)
    (hval : observe (validateBlock E b pre forkPointWithPeak) w = .ok (r,npcResult))
    (hnew : ¬ w.chain.view.containsBlock (b.headerHash E)) (hc : Connected w b) :
    ∃ P Q book,Arrival E w P Q b r ∧ Replays E fx P book ∧ Shows E w.db.coinRecord book ∧
      (∃ book',Replays E fx (Q++[b]) book') ∧
      (b.isTransactionBlock → (npcResult.isSome ↔ b.transactionsGenerator.isSome)) := by
  obtain ⟨P,book,hm,hrep,hshow⟩ := hs.chain
  obtain ⟨Q,htop⟩ := hs.indexed.onTop_of_connected hc
  obtain ⟨hrec,peak,hpeak,hbody⟩ := validateBlock_ok hs.coherent.calm hval
  obtain ⟨bookQ,hrepQ⟩ := hs.replays_onTop htop
  have hcommon : CommonHeight P Q forkPointWithPeak := by
    rintro f rfl
    obtain ⟨P',Q',a,hP',hQ',hPf,hQf⟩ := hp.fork f rfl
    rw [hP'.unique hs.indexed hm] at hPf
    rw [hQ'.unique htop] at hQf
    exact ⟨a,hPf,hQf⟩
  obtain ⟨book',hpost,-⟩ := hbody.posts hs.coherent.calm hs.indexed hm htop hshow hrep hrepQ hp.fixed
    hpeak hcommon (hp.received r npcResult hval) hd fun n hn => hrepQ.fresh (hp.fresh Q htop n hn)
  have hnone : w.block? (b.headerHash E)=none := by
    simpa [hs.indexed.contains_iff] using hnew
  exact ⟨P,Q,book,⟨hs.indexed,hm,hnone,htop,hrec,hbody.plain⟩,hrep,hshow,
    ⟨book',postAll_concat_iff.mpr ⟨bookQ,hrepQ,hpost⟩⟩,hbody.fit⟩

theorem addBlock_of_ok {o : Option ℕ} {s : World}
    (h : storeBlock E b r forkPointWithPeak npcResult w=(.ok o,s)) :
    addBlock E b r forkPointWithPeak npcResult w=(.ok o,s) := by
  unfold addBlock onException
  rw [h]

theorem addBlock_run (ha : Arrival E w P Q b r) {w₁ : World} (he : w₁.bare=w.bare)
    (hw₁ : Coherent E w₁) (hshow : Shows E w.db.coinRecord book)
    (hrep : Replays E fx P book) (hp : ProperCall E fx w b pre forkPointWithPeak)
    (hval : observe (validateBlock E b pre forkPointWithPeak) w = .ok (r,npcResult))
    (hnext : ∃ book',Replays E fx (Q++[b]) book')
    (hfit : b.isTransactionBlock → (npcResult.isSome ↔ b.transactionsGenerator.isSome)) :
    ∃ o s,addBlock E b r forkPointWithPeak npcResult w₁=(.ok o,s) ∧ Coherent E s ∧
      ((¬ Heavier P b ∧ o=none ∧ s.bare=(w.orphaned E b r).bare) ∨
        (Heavier P b ∧ ∃ k book' t records,ForkAt P Q k ∧ o=some (k-1) ∧
          Replays E fx (Q++[b]) book' ∧ Shows E t book' ∧ List.Forall₂ (RecordOf E) ((Q++[b]).drop k) records ∧
          s.bare=(w.seated E b r t (indexBefore w P (k-1)) records).bare)) := by
  have hw : w.interrupt=none := (congrArg World.interrupt he).symm.trans hw₁.calm
  obtain ⟨h₁,h₂,h₃⟩ := (storeBlock_transparent b r forkPointWithPeak npcResult).matches hw₁
  rw [he] at h₁ h₂
  rcases hres : storeBlock E b r forkPointWithPeak npcResult w₁ with ⟨answer,s⟩
  rw [hres] at h₁ h₂ h₃
  by_cases hheavy : Heavier P b
  · obtain ⟨k,hat,hyes | ⟨hno,-⟩⟩ := storeBlock_heavier ha hw hshow hrep hp.fixed
      (hp.received r npcResult hval) hfit hp.fork hheavy
    · obtain ⟨book',t,records,hrep',hshow',hrecs,hrun⟩ := hyes
      rw [hrun] at h₁ h₂
      obtain rfl : answer = .ok (some (k - 1)) := h₁
      exact ⟨_,s,addBlock_of_ok hres,h₃,Or.inr ⟨hheavy,k,book',t,records,hat,rfl,hrep',hshow',hrecs,h₂⟩⟩
    · obtain ⟨book',hrep'⟩ := hnext
      exact absurd hrep' (hno book')
  · have hrun := storeBlock_orphan ha hw hheavy forkPointWithPeak npcResult
    rw [hrun] at h₁ h₂
    obtain rfl : answer = .ok none := h₁
    exact ⟨_,s,addBlock_of_ok hres,h₃,Or.inl ⟨hheavy,rfl,h₂⟩⟩

/-- Every call, whatever it returns, leaves a settled node settled. -/
theorem Settled.receiveBlock (hs : Settled E fx w) (hd : E.HalvesDiffer)
    (hp : ProperCall E fx w b pre forkPointWithPeak) :
    Settled E fx (receiveBlock E b pre forkPointWithPeak w).2 := by
  rcases receiveBlock_cases hs.coherent b pre forkPointWithPeak with
    ⟨answer,w',hrun,he,hcoh⟩ | ⟨r,npcResult,w₁,hval,hnew,hconn,he,hcoh,hrun⟩
  · -- only the caches have changed
    rw [hrun]
    obtain ⟨P,book,hm,hrep,hshow⟩ := hs.chain
    have hdb : w'.db=w.db := db_of_bare he
    have hb : w'.block?=w.block? := by unfold World.block?; rw [hdb]
    refine ⟨hcoh,hs.indexed.congr he,⟨P,book,hm.congr he,hrep,by rw [hdb]; exact hshow⟩,?_⟩
    intro h l hl
    refine hs.replays h l ?_
    rw [World.forest,hb] at hl
    exact hl
  · obtain ⟨P,Q,book,ha,hrep,hshow,hnext,hfit⟩ := hs.arrival hd hp hval hnew hconn
    obtain ⟨o,s,hadd,hcoh',hcases⟩ := addBlock_run ha he hcoh hshow hrep hp hval hnext hfit
    have hstate : (Blockchain.receiveBlock E b pre forkPointWithPeak w).2=s := by
      rw [hrun,Eff.map_apply,hadd]
    rw [hstate]
    -- the stored blocks are the old ones and the new one, either way
    have hreplays (hb : s.block?=(w.adding E b r).block?) (h : Bytes32) (l : List FullBlock)
        (hl : (s.forest E).Path h l) : ∃ book,Replays E fx l book := by
      rw [World.forest,hb] at hl
      rcases ha.path_cases hl with rfl | hold
      · exact hnext
      · exact hs.replays h l hold
    rcases hcases with ⟨hlight,-,hs'⟩ | ⟨-,k,book',t,records,hat,-,hrep',hshow',hrecs,hs'⟩
    · have hdb : s.db=(w.orphaned E b r).db := db_of_bare hs'
      refine ⟨hcoh',ha.orphaned_indexed.congr hs',⟨P,book,(ha.orphaned_mainChain hlight).congr hs',
        hrep,by rw [hdb]; exact hshow⟩,hreplays ?_⟩
      unfold World.block?
      rw [hdb]
      rfl
    · have hdb : s.db=(w.seated E b r t (indexBefore w P (k-1)) records).db :=
        db_of_bare hs'
      refine ⟨hcoh',(ha.seated_indexed t (indexBefore_blockRecords _) records).congr hs',⟨Q++[b],
        book',(ha.seated_mainChain hat hrecs t (indexBefore_heightToHash _)).congr hs',hrep',by rw [hdb]; exact hshow'⟩,
        hreplays ?_⟩
      unfold World.block?
      rw [hdb]
      rfl

theorem settled_empty (m n : ℕ) : Settled E fx (World.empty m n) := by
  have hblock : ∀ h,(World.empty m n).block? h=none := fun _ => rfl
  refine ⟨coherent_empty m n,indexed_empty m n,⟨[],Book.empty,mainChain_empty m n,.nil _,fun _ => rfl,?_⟩,?_⟩
  · intro n e he
    simp [Book.empty] at he
  · intro h l hl
    obtain ⟨v,m,hv,-⟩ := Forest.path_iff.mp hl
    simp [hblock] at hv

end Step

end RoseChain
