import RoseChain.Consensus.Runs
import RoseChain.Wallet.WalletFeed

namespace RoseChain
open Lib WalletBlockchain
variable (E : Env)

/-- A call of `receive_block` with its arguments. -/
structure ReceiveCall where
  block : HeaderBlockRecord
  pre : Option PreValidationResult
  trusted : Bool
  forkPointWithPeak : Option ℕ
  additionalCoinSpends : List CoinSpend

def ReceiveCall.run (c : ReceiveCall) : WalletM WalletAnswer :=
  receiveBlock E c.block c.pre c.trusted c.forkPointWithPeak c.additionalCoinSpends

/-- The header is one above the one before it, and a first header is that of a transaction block. -/
structure Fits (V : BlockView) (b : HeaderBlock) : Prop where
  height : b.height≠0 → ∀ p,V.blockRecords.get? b.prevHeaderHash=some p → b.height=p.height+1
  first : b.height=0 → b.isTransactionBlock

/-- What callers promise: a header validated elsewhere is well placed, a header hash stands for one record and
is not the genesis challenge, and a fork point is the height of a common ancestor of the new block and the peak.
-/
structure WalletCall (s : WalletState) (c : ReceiveCall) : Prop where
  fits : c.trusted ∨ c.pre.isSome → Fits s.chain.view c.block.header
  challenge : s.chain.blockRecords.get? E.genesisChallenge=none
  same : ∀ n r r',validateHeader E s.chain.view c.block.header c.pre c.trusted = .ok n →
    blockToBlockRecord E s.chain.view n c.block.header.block = .ok r →
    s.db.blockRecords.get? r.headerHash=some r' → r'=r
  ancestor : ∀ P p Q n,WalletMain s (P++[p]) → s.forest.Path c.block.header.prevHeaderHash Q →
    c.block.header.height≠0 → c.forkPointWithPeak=some n → n<common (P++[p]) Q

/-- Where the block is heavier than the peak, their chains share a block, and where it follows the peak,
no transaction block is above the fork point. -/
def SafeFork (s : WalletState) (c : ReceiveCall) : Prop :=
  ∀ P p Q,WalletMain s (P++[p]) → s.forest.Path c.block.header.prevHeaderHash Q →
    c.block.header.height≠0 → p.weight<c.block.header.rewardChainBlock.weight →
    0<common (P++[p]) Q ∧
      ∀ n,c.forkPointWithPeak=some n → Q=P++[p] → isTransactions ((P++[p]).drop (n+1))=[]

/-- The states of a wallet's block chain after calls that meet a condition. -/
inductive WalletRun (C : WalletState → ReceiveCall → Prop) : WalletState → Prop
  | start : WalletRun C start
  | call {s : WalletState} {c : ReceiveCall} (h : WalletRun C s) (hc : WalletCall E s c) (hC : C s c) :
    WalletRun C (c.run E s).2

def WalletState.peakHash (s : WalletState) : Option Bytes32 :=
  s.chain.peakHeight.bind s.chain.heightToHash.get?

/-- The wallet has been told of the transaction blocks of the path to the peak, in order. -/
def FeedsMainChain (s : WalletState) : Prop :=
  ∃ P,WalletMain s P ∧ fed s.events=isTransactions P

/-- The answer is that there is a new peak just where the peak has changed. -/
def AnswersPeak (s : WalletState) (c : ReceiveCall) : Prop :=
  ∀ answer s',c.run E s=(.ok answer,s') → (answer.1 = .newPeak ↔ s'.peakHash≠s.peakHash)

variable {E} {s : WalletState} {P Q : List BlockRecord} {r : BlockRecord}

theorem WalletMain.peakHash (h : WalletMain s P) : s.peakHash=P.getLast?.map (·.headerHash) := by
  unfold WalletState.peakHash
  rw [h.peakHeight]
  rcases List.eq_nil_or_concat P with rfl | ⟨m,p,rfl⟩
  · rfl
  · rw [List.concat_eq_append] at *
    have hheight := h.heights m.length p List.getElem?_concat_length
    rw [if_neg (by simp),List.length_append,List.length_singleton,Nat.add_sub_cancel,List.getLast?_concat]
    exact hheight

variable {V : BlockView} {n : ℕ} {p : BlockRecord}

theorem validateFinishedHeaderBlock_next {header : HeaderBlock} {filter summary : Bool}
    {difficulty iters : ℕ} (hz : header.height≠0) (hp : V.blockRecords.get? header.prevHeaderHash=some p)
    (h : validateFinishedHeaderBlock E V header filter difficulty iters summary = .ok n) :
    header.height=p.height+1 := by
  unfold validateFinishedHeaderBlock at h
  obtain ⟨_,_,h⟩ := bind_ok.mp h
  have hz' : ¬ header.rewardChainBlock.height=0 := hz
  rw [if_neg hz'] at h
  dsimp only at h
  obtain ⟨prev,hprev,h⟩ := bind_ok.mp h
  have hrecord : V.blockRecord header.foliage.prevBlockHash = .ok p := lookup_eq_ok.mpr hp
  rw [hrecord] at hprev
  obtain rfl : some p=prev := Except.ok.inj hprev
  obtain ⟨_,_,h⟩ := bind_ok.mp h
  obtain ⟨_,hheight,_⟩ := bind_ok.mp h
  rwa [reject_eq_ok,Classical.not_not] at hheight

theorem validateHeader_finished {header : HeaderBlock}
    (h : validateHeader E V header none false = .ok n) : ∃ difficulty iters,
      validateFinishedHeaderBlock E V header false difficulty iters true = .ok n := by
  unfold validateHeader at h
  extract_lets jp at h
  have hjp : ∀ prevB,jp prevB = .ok n → ∃ difficulty iters,
      validateFinishedHeaderBlock E V header false difficulty iters true = .ok n := by
    intro prevB hrun
    obtain ⟨x,-,hrun⟩ := bind_ok.mp hrun
    exact ⟨x.2,x.1,hrun⟩
  clear_value jp
  split_ifs at h
  · obtain ⟨prevB,-,h⟩ := bind_ok.mp h
    exact hjp prevB h
  · obtain ⟨prevB,-,h⟩ := bind_ok.mp h
    exact hjp prevB h

theorem validateHeader_fits {header : HeaderBlock} {pre : Option PreValidationResult}
    {trusted : Bool} (hpromise : trusted ∨ pre.isSome → Fits V header)
    (hchallenge : V.blockRecords.get? E.genesisChallenge=none)
    (h : validateHeader E V header pre trusted = .ok n) : Fits V header := by
  cases trusted with
  | true => exact hpromise (Or.inl rfl)
  | false =>
    cases pre with
    | some result => exact hpromise (Or.inr rfl)
    | none =>
      obtain ⟨_,_,hvalid⟩ := validateHeader_finished h
      refine ⟨fun hz p hp => validateFinishedHeaderBlock_next hz hp hvalid,fun hz => ?_⟩
      have hfirst := validateFinishedHeaderBlock_first hz hvalid
      obtain ⟨sp,htx,hfoliage⟩ := validateFinishedHeaderBlock_foliage hvalid
      have hnone : V.tryBlockRecord header.foliage.prevBlockHash=none := by
        rw [hfirst]
        exact hchallenge
      rw [hnone] at htx hfoliage
      unfold validateIsTransactionBlock at htx
      unfold validateFoliage at hfoliage
      obtain ⟨_,hpresent,_⟩ := bind_ok.mp hfoliage
      rw [reject_eq_ok,Classical.not_not] at hpresent
      rw [reject_eq_ok,Option.isNone_iff_eq_none,← ne_eq,← Option.isSome_iff_ne_none] at htx
      exact hpresent.symm.trans htx

theorem fits_onTop (h : WalletKept s) {b : HeaderBlock} (hr : RecordOf E b.block r) (hfits : Fits s.chain.view b)
    (hprev : b.height≠0 → ∃ p,s.chain.blockRecords.get? b.prevHeaderHash=some p) : ∃ Q,s.forest.OnTop Q r := by
  have hheight : r.height=b.height := hr.height
  by_cases hz : b.height=0
  · exact ⟨[],hheight.trans hz,Or.inl rfl⟩
  · obtain ⟨p,hp⟩ := hprev hz
    have hfind := h.memory _ p hp
    obtain ⟨m,hm⟩ := h.ancestors _ p hfind
    have hnext := hfits.height hz p hp
    have hlen : p.height=m.length := hm.1
    have hparent : r.prevHash=b.prevHeaderHash := hr.prevHash
    refine ⟨m++[p],?_,Or.inr ?_⟩
    · rw [walletForest_height,hheight,hnext,hlen,List.length_append,List.length_singleton]
    · rw [walletForest_parent,hparent]
      exact Forest.path_iff.mpr ⟨p,m,hfind,rfl,hm⟩

/-- The wallet's chain with a new block stored, and its record in memory. -/
structure HeaderStored (E : Env) (s : WalletState) (block : HeaderBlockRecord) (r : BlockRecord) (spends : List CoinSpend)
    (s' : WalletState) : Prop where
  db : s'.db=WalletBlockStore.addBlockRecord E block r spends s.db
  chain : Cleaned (Blockchain.addBlockRecord r s.chain) s'.chain
  events : s'.events=s.events

namespace HeaderStored
variable {block : HeaderBlockRecord} {spends : List CoinSpend}

theorem find (h : HeaderStored E s block r spends s') (hhash : r.headerHash=block.header.headerHash E) (k : Bytes32) :
    s'.forest.find k=if r.headerHash=k then some r else s.forest.find k := by
  rw [walletForest_find,walletForest_find,h.db,hhash]
  exact Dict.get?_set ..

theorem memory (h : HeaderStored E s block r spends s') {k : Bytes32} {u : BlockRecord}
    (hu : s'.chain.blockRecords.get? k=some u) :
    (r.headerHash=k ∧ r=u) ∨ s.chain.blockRecords.get? k=some u := by
  have hadded := h.chain.blockRecords k u hu
  unfold Blockchain.addBlockRecord at hadded
  dsimp only at hadded
  rw [Dict.get?_set] at hadded
  split_ifs at hadded with hk
  · exact Or.inl ⟨hk,Option.some.inj hadded⟩
  · exact Or.inr hadded

variable (h : HeaderStored E s block r spends s') (hhash : r.headerHash=block.header.headerHash E)
  (hsame : ∀ r',s.db.blockRecords.get? r.headerHash=some r' → r'=r)
include h hhash hsame

theorem mono (k : Bytes32) (u : BlockRecord) (hu : s.forest.find k=some u) : s'.forest.find k=some u := by
  rw [h.find hhash]
  split_ifs with hk
  · rw [← hk] at hu
    rw [hsame u hu]
  · exact hu

theorem onTop (hQ : s.forest.OnTop Q r) : s'.forest.OnTop Q r := hQ.mono (h.mono hhash hsame) rfl rfl

theorem path (hQ : s.forest.OnTop Q r) : s'.forest.Path r.headerHash (Q++[r]) := by
  refine Forest.path_iff.mpr ⟨r,Q,?_,rfl,h.onTop hhash hsame hQ⟩
  rw [h.find hhash,if_pos rfl]

theorem kept (hs : WalletKept s) (hheight : block.header.height=r.height) (hQ : s.forest.OnTop Q r) :
    WalletKept s' := by
  refine ⟨?_,?_,?_,?_⟩
  · intro k u hu
    rw [h.find hhash] at hu
    split_ifs at hu with hk
    · rw [← Option.some.inj hu]
      exact hk
    · exact hs.key k u hu
  · intro k u hu
    rw [h.find hhash] at hu
    rw [h.db]
    show ∃ b,(s.db.headerBlocks.set (block.header.headerHash E) block).get? k=some b ∧ _
    rw [Dict.get?_set,← hhash]
    split_ifs at hu ⊢ with hk
    · rw [← Option.some.inj hu]
      exact ⟨block,rfl,hheight⟩
    · exact hs.header k u hu
  · intro k u hu
    rcases h.memory hu with ⟨hk,rfl⟩ | hold
    · rw [h.find hhash,if_pos hk]
    · exact h.mono hhash hsame k u (hs.memory k u hold)
  · intro k u hu
    rw [h.find hhash] at hu
    split_ifs at hu with hk
    · rw [← Option.some.inj hu]
      exact ⟨Q,h.onTop hhash hsame hQ⟩
    · obtain ⟨l,hl⟩ := hs.ancestors k u hu
      exact ⟨l,hl.mono (h.mono hhash hsame) rfl rfl⟩

theorem fed (hs : WalletFed s P) (hheight : block.header.height=r.height) (hQ : s.forest.OnTop Q r) :
    WalletFed s' P := by
  refine ⟨h.kept hhash hsame hs.kept hheight hQ,⟨?_,?_,?_⟩,?_⟩
  · rw [h.chain.peakHeight]
    exact hs.main.peakHeight
  · intro hP
    obtain ⟨k,hk⟩ := hs.main.path hP
    exact ⟨k,hk.mono (h.mono hhash hsame) rfl rfl⟩
  · rw [h.chain.heightToHash]
    exact hs.main.heights
  · rw [h.events]
    exact hs.fed

omit hsame in
theorem header : s'.db.headerBlocks.get? r.headerHash=some block := by
  rw [h.db]
  show (s.db.headerBlocks.set (block.header.headerHash E) block).get? _=_
  rw [Dict.get?_set,if_pos hhash.symm]

end HeaderStored

theorem WalletBlockchain.WalletFed.congr (h : WalletFed s P) (hdb : s'.db=s.db)
    (hrec : s'.chain.blockRecords=s.chain.blockRecords) (hheights : s'.chain.heightToHash=s.chain.heightToHash)
    (hpeak : s'.chain.peakHeight=s.chain.peakHeight) (hevents : s'.events=s.events) : WalletFed s' P := by
  refine ⟨h.kept.congr ?_ ?_ ?_,h.main.congr ?_ hheights hpeak,?_⟩
  · rw [hdb]
  · rw [hdb]
  · intro k u hu
    rwa [hrec] at hu
  · rw [hdb]
  · rw [hevents]
    exact h.fed

/-- What a block that passed its checks is. -/
structure Checked (E : Env) (s : WalletState) (block : HeaderBlockRecord) (r : BlockRecord) (Q : List BlockRecord) :
    Prop where
  hash : r.headerHash=block.header.headerHash E
  height : block.header.height=r.height
  first : r.height=0 → r.isTransactionBlock
  same : ∀ r',s.db.blockRecords.get? r.headerHash=some r' → r'=r
  onTop : s.forest.OnTop Q r

variable {forkPoint : Option ℕ}

theorem storeBlock_run (hs : WalletFed s P) {block : HeaderBlockRecord} (hb : Checked E s block r Q)
    (hfork : ∀ p,P.getLast?=some p → r.height≠0 → p.weight < r.weight →
      ForkPoint P Q forkPoint) (spends : List CoinSpend) :
    (∃ e s',storeBlock E block r forkPoint spends s=(.error e,s') ∧ s'.events=s.events ∧
      s'.chain.peakHeight=s.chain.peakHeight ∧ ∀ k u,s'.chain.blockRecords.get? k=some u →
        r.headerHash=k ∨ s.chain.blockRecords.get? k=some u) ∨
    (∃ s',storeBlock E block r forkPoint spends s=(.ok none,s') ∧ WalletFed s' P) ∨
    ∃ f s',storeBlock E block r forkPoint spends s=(.ok (some f),s') ∧ WalletFed s' (Q++[r]) ∧
      P.getLast?≠some r := by
  set s₁ : WalletState := ⟨WalletBlockStore.addBlockRecord E block r spends s.db,
    Blockchain.addBlockRecord r s.chain,s.events⟩ with hs₁
  have hdb : (Eff.modify fun s : WalletState =>
      { s with db := WalletBlockStore.addBlockRecord E block r spends s.db } : WalletM Unit) s =
        (.ok (),{ s with db := WalletBlockStore.addBlockRecord E block r spends s.db }) := rfl
  have hadd : onChain (Eff.modify (Blockchain.addBlockRecord r))
      { s with db := WalletBlockStore.addBlockRecord E block r spends s.db } = (.ok (),s₁) := rfl
  unfold storeBlock
  rw [Eff.bind_of_ok hdb,Eff.bind_of_ok hadd]
  have hclean := cleanBlockRecord_cleaned (r.height-E.blocksCacheSize) s₁.chain
  have hrun₂ : onChain (cleanBlockRecord (r.height-E.blocksCacheSize)) s₁ =
      ((cleanBlockRecord (r.height-E.blocksCacheSize) s₁.chain).1,
        { s₁ with chain := (cleanBlockRecord (r.height-E.blocksCacheSize) s₁.chain).2 }) := rfl
  set s₂ : WalletState := { s₁ with chain := (cleanBlockRecord (r.height-E.blocksCacheSize) s₁.chain).2 } with hs₂
  have hstored : HeaderStored E s block r spends s₂ := ⟨rfl,hclean,rfl⟩
  have hmemory (k : Bytes32) (u : BlockRecord) (hu : s₂.chain.blockRecords.get? k=some u) :
      r.headerHash=k ∨ s.chain.blockRecords.get? k=some u := (hstored.memory hu).imp And.left id
  cases hres : (cleanBlockRecord (r.height-E.blocksCacheSize) s₁.chain).1 with
  | error e =>
    rw [hres] at hrun₂
    rw [Eff.bind_of_error hrun₂]
    exact Or.inl ⟨e,s₂,rfl,rfl,hclean.peakHeight,hmemory⟩
  | ok u =>
    rw [hres] at hrun₂
    rw [Eff.bind_of_ok hrun₂,hb.height]
    have hfed := hstored.fed hb.hash hb.same hs hb.height hb.onTop
    rcases reconsiderPeak_run (E := E) hfed (hstored.path hb.hash hb.same hb.onTop)
      (hstored.onTop hb.hash hb.same hb.onTop) hb.first (hstored.header hb.hash) hb.hash.symm hfork spends with
      ⟨e,s₃,hrun,hun⟩ | hrun | ⟨f,records,s₃,hrun,hfed₃,hne⟩
    · rw [Eff.bind_of_error hrun]
      exact Or.inl ⟨e,s₃,rfl,hun.events,hun.peakHeight.trans hclean.peakHeight,
        fun k u hu => hmemory k u (hun.memory k u hu)⟩
    · rw [Eff.bind_of_ok hrun]
      exact Or.inr (Or.inl ⟨_,rfl,hfed.congr rfl rfl rfl rfl rfl⟩)
    · rw [Eff.bind_of_ok hrun]
      exact Or.inr (Or.inr ⟨f,_,rfl,hfed₃.congr rfl rfl rfl rfl rfl,hne⟩)

theorem rollingBack_run (hs : WalletFed s P) {m : WalletM (Option ℕ)} {e : Fail} (hrun : m s=(.error e,s'))
    (hevents : s'.events=s.events) (hpeak : s'.chain.peakHeight=s.chain.peakHeight)
    (hmem : ∀ k u,s'.chain.blockRecords.get? k=some u → r.headerHash=k ∨ s.chain.blockRecords.get? k=some u) :
    ∃ t,rollingBack r.headerHash m s=(.error e,t) ∧ WalletFed t P := by
  obtain ⟨hcleaned,hgone⟩ := removeBlockRecord_cleaned r.headerHash s'.chain
  set t : WalletState := { s' with
    db := s.db
    chain := { (removeBlockRecord r.headerHash s'.chain).2 with heightToHash := s.chain.heightToHash } } with ht
  refine ⟨t,?_,hs.kept.congr rfl rfl ?_,hs.main.congr rfl rfl ?_,?_⟩
  · unfold rollingBack
    rw [hrun]
  · intro k u hu
    have hk : r.headerHash≠k := by
      rintro rfl
      have hnone : t.chain.blockRecords.get? r.headerHash=none := hgone
      rw [hnone] at hu
      cases hu
    exact (hmem k u (hcleaned.blockRecords k u hu)).resolve_left hk
  · exact hcleaned.peakHeight.trans hpeak
  · show fed s'.events=_
    rw [hevents]
    exact hs.fed

/-- The states before and after a call, and what the call says. -/
structure CallKeeps (E : Env) (s : WalletState) (c : ReceiveCall) (P P' : List BlockRecord) : Prop where
  fed : WalletFed (c.run E s).2 P'
  answer : ∀ answer,(c.run E s).1 = .ok answer →
    (answer.1 = .newPeak ↔ P'.getLast?.map (·.headerHash)≠P.getLast?.map (·.headerHash))

variable {c : ReceiveCall}

theorem CallKeeps.unchanged (hs : WalletFed s P) {x : Except Fail WalletAnswer}
    (hrun : c.run E s=(x,s)) (hx : ∀ answer,x = .ok answer → answer.1 ≠ .newPeak) : CallKeeps E s c P P := by
  refine ⟨?_,?_⟩
  · rw [hrun]
    exact hs
  · intro answer ha
    rw [hrun] at ha
    exact ⟨fun h => absurd h (hx answer ha),fun h => absurd rfl h⟩

theorem checked_of_valid (hk : WalletKept s) (hc : WalletCall E s c)
    (hdis : ¬ (¬ s.chain.view.containsBlock c.block.header.prevHeaderHash ∧ c.block.header.height≠0))
    (hheader : validateHeader E s.chain.view c.block.header c.pre c.trusted = .ok n)
    (hrecord : blockToBlockRecord E s.chain.view n c.block.header.block = .ok r) : ∃ Q,Checked E s c.block r Q := by
  have hr := recordOf_of_ok hrecord
  have hheight : r.height=c.block.header.height := hr.height
  have hfits := validateHeader_fits hc.fits hc.challenge hheader
  have hprev (hz : c.block.header.height≠0) :
      ∃ p,s.chain.blockRecords.get? c.block.header.prevHeaderHash=some p := by
    by_contra hnone
    refine hdis ⟨fun hin => hnone ?_,hz⟩
    exact Option.isSome_iff_exists.mp hin
  obtain ⟨Q,hQ⟩ := fits_onTop hk hr hfits hprev
  have hfirst (hz : r.height=0) : r.isTransactionBlock := by
    rw [hr.isTransactionBlock]
    exact hfits.first (hheight ▸ hz)
  exact ⟨Q,hr.headerHash,hheight.symm,hfirst,fun r' => hc.same n r r' hheader hrecord,hQ⟩

theorem checked_of_header (hs : WalletFed s P) (hc : WalletCall E s c) (hsafe : SafeFork s c)
    (hdis : ¬ (¬ s.chain.view.containsBlock c.block.header.prevHeaderHash ∧ c.block.header.height≠0))
    (hheader : validateHeader E s.chain.view c.block.header c.pre c.trusted = .ok n)
    (hrecord : blockToBlockRecord E s.chain.view n c.block.header.block = .ok r) : ∃ Q,Checked E s c.block r Q ∧
      ∀ p,P.getLast?=some p → r.height≠0 → p.weight < r.weight → ForkPoint P Q c.forkPointWithPeak := by
  obtain ⟨Q,hchecked⟩ := checked_of_valid hs.kept hc hdis hheader hrecord
  refine ⟨Q,hchecked,?_⟩
  intro p hp hz hlt
  have hr := recordOf_of_ok hrecord
  have hheight : r.height=c.block.header.height := hr.height
  have hweight : r.weight=c.block.header.rewardChainBlock.weight := hr.weight
  obtain ⟨P,rfl⟩ := List.getLast?_eq_some_iff.mp hp
  rw [hheight] at hz
  rw [hweight] at hlt
  have hpath := hchecked.onTop.path (by rwa [walletForest_height,hheight])
  have hparent : r.prevHash=c.block.header.prevHeaderHash := hr.prevHash
  rw [walletForest_parent,hparent] at hpath
  obtain ⟨hcommon,hplain⟩ := hsafe P p Q hs.main hpath hz hlt
  exact ⟨fun n hn => hc.ancestor P p Q n hs.main hpath hz hn,hcommon,hplain⟩

theorem stored_keeps (hs : WalletFed s P) {block : HeaderBlockRecord} {Q : List BlockRecord}
    (hchecked : Checked E s block r Q)
    (hfork : ∀ p,P.getLast?=some p → r.height≠0 → p.weight < r.weight → ForkPoint P Q forkPoint)
    (spends : List CoinSpend) : ∃ P' x s',
      rollingBack r.headerHash (storeBlock E block r forkPoint spends) s=(x,s') ∧ WalletFed s' P' ∧
      (x = .ok none → P'=P) ∧
      ∀ f,x = .ok (some f) → P'.getLast?.map (·.headerHash)≠P.getLast?.map (·.headerHash) := by
  rcases storeBlock_run hs hchecked hfork spends with
    ⟨e,s',hstore,hevents,hpeak,hmem⟩ | ⟨s',hstore,hs'⟩ | ⟨f,s',hstore,hs',hne⟩
  · obtain ⟨t,hroll,ht⟩ := rollingBack_run hs hstore hevents hpeak hmem
    exact ⟨P,_,t,hroll,ht,fun _ => rfl,fun f hf => by cases hf⟩
  · refine ⟨P,.ok none,s',?_,hs',fun _ => rfl,fun f hf => by cases hf⟩
    unfold rollingBack
    rw [hstore]
  · refine ⟨Q++[r],.ok (some f),s',?_,hs',fun hf => (by cases hf),fun _ _ heq => ?_⟩
    · unfold rollingBack
      rw [hstore]
    · rw [List.getLast?_concat,Option.map_some,eq_comm,Option.map_eq_some_iff] at heq
      obtain ⟨p,hp,hhash⟩ := heq
      obtain ⟨P,rfl⟩ := List.getLast?_eq_some_iff.mp hp
      have hstored := (peak_onTop hs.kept hs.main).1
      rw [walletForest_find,hhash] at hstored
      have heq := hchecked.same p hstored
      rw [heq] at hne
      exact hne List.getLast?_concat

theorem receiveBlock_keeps (hs : WalletFed s P) (hc : WalletCall E s c) (hsafe : SafeFork s c) :
    ∃ P',CallKeeps E s c P P' := by
  have hrun : c.run E s=receiveBlock E c.block c.pre c.trusted c.forkPointWithPeak c.additionalCoinSpends s := rfl
  unfold receiveBlock at hrun
  rw [Eff.bind_get] at hrun
  by_cases hhave : s.chain.view.containsBlock (c.block.header.headerHash E)
  · rw [if_pos hhave] at hrun
    exact ⟨P,.unchanged hs hrun fun a ha => by rw [← Except.ok.inj ha]; exact nofun⟩
  rw [if_neg hhave] at hrun
  by_cases hdis : ¬ s.chain.view.containsBlock c.block.header.prevHeaderHash ∧ c.block.header.height≠0
  · rw [if_pos hdis] at hrun
    exact ⟨P,.unchanged hs hrun fun a ha => by rw [← Except.ok.inj ha]; exact nofun⟩
  rw [if_neg hdis] at hrun
  cases hheader : validateHeader E s.chain.view c.block.header c.pre c.trusted with
  | error e =>
    rw [hheader] at hrun
    cases e with
    | invalid e => exact ⟨P,.unchanged hs hrun fun a ha => by rw [← Except.ok.inj ha]; exact nofun⟩
    | raised e => exact ⟨P,.unchanged hs hrun fun a ha => (by cases ha)⟩
  | ok n =>
    rw [hheader] at hrun
    dsimp only at hrun
    cases hrecord : blockToBlockRecord E s.chain.view n c.block.header.block with
    | error e =>
      rw [hrecord,Eff.bind_of_error (by rfl)] at hrun
      exact ⟨P,.unchanged hs hrun fun a ha => (by cases ha)⟩
    | ok r =>
      have hlift : (Eff.lift (blockToBlockRecord E s.chain.view n c.block.header.block) : WalletM BlockRecord) s =
          (.ok r,s) := by
        rw [hrecord]
        rfl
      rw [Eff.bind_of_ok hlift] at hrun
      obtain ⟨Q,hchecked,hfork⟩ := checked_of_header hs hc hsafe hdis hheader hrecord
      obtain ⟨P',x,s',hroll,hfed,hsame,hmoved⟩ := stored_keeps hs hchecked hfork c.additionalCoinSpends
      cases x with
      | error e =>
        rw [Eff.bind_of_error hroll] at hrun
        refine ⟨P',by rw [hrun]; exact hfed,fun answer ha => ?_⟩
        rw [hrun] at ha
        cases ha
      | ok forkHeight =>
        rw [Eff.bind_of_ok hroll] at hrun
        cases forkHeight with
        | none =>
          refine ⟨P',by rw [hrun]; exact hfed,fun answer ha => ?_⟩
          rw [hrun] at ha
          rw [← Except.ok.inj ha,hsame rfl]
          exact ⟨nofun,fun h => absurd rfl h⟩
        | some f =>
          refine ⟨P',by rw [hrun]; exact hfed,fun answer ha => ?_⟩
          rw [hrun] at ha
          rw [← Except.ok.inj ha]
          exact ⟨fun _ => hmoved f rfl,fun _ => rfl⟩

theorem start_fed : WalletFed WalletBlockchain.start [] := by
  refine ⟨⟨?_,?_,?_,?_⟩,⟨rfl,fun h => absurd rfl h,fun _ _ h => (by cases h)⟩,rfl⟩
  · exact fun _ _ h => (by cases h)
  · exact fun _ _ h => (by cases h)
  · exact fun _ _ h => (by cases h)
  · exact fun _ _ h => (by cases h)

theorem WalletRun.fed (h : WalletRun E SafeFork s) : ∃ P,WalletFed s P := by
  induction h with
  | start => exact ⟨[],start_fed⟩
  | call h hc hsafe ih =>
    obtain ⟨P,hP⟩ := ih
    obtain ⟨P',hkeeps⟩ := receiveBlock_keeps hP hc hsafe
    exact ⟨P',hkeeps.fed⟩

/-- Where no fork point breaks it, the wallet is fed the main chain's transaction blocks, and told
of each peak. -/
theorem feedsMainChain_of_safeFork (h : WalletRun E SafeFork s) :
    FeedsMainChain s ∧ ∀ c,WalletCall E s c → SafeFork s c → AnswersPeak E s c := by
  obtain ⟨P,hP⟩ := h.fed
  refine ⟨⟨P,hP.main,hP.fed⟩,?_⟩
  intro c hc hsafe answer s' hrun
  obtain ⟨P',hkeeps⟩ := receiveBlock_keeps hP hc hsafe
  have hanswer := hkeeps.answer answer (by rw [hrun])
  have hfed := hkeeps.fed
  rw [hrun] at hfed
  rw [hanswer,hP.main.peakHash,hfed.main.peakHash]

theorem path_of_peakHash (hk : WalletKept s) (hm : WalletMain s (P++[p])) {h : Bytes32}
    (hpeak : s.peakHash=some h) (hQ : s.forest.Path h Q) : Q=P++[p] := by
  obtain ⟨-,-,hpath⟩ := peak_onTop hk hm
  rw [hm.peakHash,List.getLast?_concat,Option.map_some] at hpeak
  rw [Option.some.inj hpeak] at hpath
  exact hQ.unique hpath

def tinyTransactions (hash prev : Bytes32) (height weight : ℕ) : FullBlock :=
  { tinyBlock hash prev height weight with
    foliage := { (tinyBlock hash prev height weight).foliage with foliageTransactionBlockHash := some 0 }
    foliageTransactionBlock := some ⟨0,height+1,0,0,0,0⟩
    transactionsInfo := some ⟨0,ones32,[],0,0,[]⟩ }

def tinyHeader (b : FullBlock) : HeaderBlock where
  finishedSubSlots := b.finishedSubSlots
  rewardChainBlock := b.rewardChainBlock
  challengeChainSpProof := b.challengeChainSpProof
  challengeChainIpProof := b.challengeChainIpProof
  rewardChainSpProof := b.rewardChainSpProof
  rewardChainIpProof := b.rewardChainIpProof
  infusedChallengeChainIpProof := b.infusedChallengeChainIpProof
  foliage := b.foliage
  foliageTransactionBlock := b.foliageTransactionBlock
  transactionsFilter := []
  transactionsInfo := b.transactionsInfo

def tinyReceive (hash prev : Bytes32) (height weight : ℕ) (forkPointWithPeak : Option ℕ) : ReceiveCall :=
  ⟨⟨tinyHeader (tinyTransactions hash prev height weight),[],[]⟩,tinyPre,false,forkPointWithPeak,[]⟩

def tinyWallet (calls : List ReceiveCall) : WalletState :=
  calls.foldl (fun s c => (c.run tinyEnv s).2) WalletBlockchain.start

def tinyOne : WalletState := tinyWallet [tinyReceive 10 1 0 7 none]
def tinyTwo : WalletState := tinyWallet [tinyReceive 10 1 0 7 none,tinyReceive 11 10 1 8 none]

def tinyThree : WalletState :=
  tinyWallet [tinyReceive 10 1 0 7 none,tinyReceive 11 10 1 8 none,tinyReceive 12 11 2 9 (some 0)]

variable {hash prev : Bytes32} {height : ℕ}

theorem tinyReceive_new (weight : ℕ) (hchallenge : s.chain.blockRecords.get? tinyEnv.genesisChallenge=none)
    (hnew : s.db.blockRecords.get? hash=none)
    (hprev : height≠0 → (s.chain.blockRecords.get? prev).map (·.height+1)=some height) :
    WalletCall tinyEnv s (tinyReceive hash prev height weight none) := by
  refine ⟨fun _ => ⟨?_,fun _ => rfl⟩,hchallenge,?_,fun _ _ _ n _ _ _ hn => by cases hn⟩
  · intro hz p hp
    have hget : s.chain.blockRecords.get? prev=some p := hp
    have hheight := hprev hz
    rw [hget] at hheight
    exact (Option.some.inj hheight).symm
  · intro n r r' _ hrecord hstored
    rw [(recordOf_of_ok hrecord).headerHash] at hstored
    have hnone : s.db.blockRecords.get? hash=some r' := hstored
    rw [hnew] at hnone
    cases hnone

variable {weight : ℕ}

theorem tinyReceive_call (hk : WalletKept s) (hchallenge : s.chain.blockRecords.get? tinyEnv.genesisChallenge=none)
    (hnew : s.db.blockRecords.get? hash=none) (hpeak : height≠0 → s.peakHash=some prev)
    (hprev : height≠0 → (s.chain.blockRecords.get? prev).map (·.height+1)=some height)
    (hfork : ∀ n,forkPoint=some n → s.chain.peakHeight.any (n ≤ ·)) :
    WalletCall tinyEnv s (tinyReceive hash prev height weight forkPoint) := by
  have hcall := tinyReceive_new weight hchallenge hnew hprev
  refine ⟨hcall.fits,hchallenge,hcall.same,?_⟩
  intro P p Q n hm hpath hz hn
  rw [path_of_peakHash hk hm (hpeak hz) hpath,common_self]
  have hle := hfork n hn
  rw [hm.peakHeight,if_neg (by simp),Option.any_some,decide_eq_true_eq] at hle
  have hpos : 0<(P++[p]).length := by simp
  omega

theorem tinyReceive_safe (hk : WalletKept s) (hpeak : height≠0 → s.peakHash=some prev) : SafeFork s (tinyReceive hash prev height weight none) := by
  intro P p Q hm hpath hz _
  rw [path_of_peakHash hk hm (hpeak hz) hpath,common_self]
  exact ⟨by simp,nofun⟩

example : tinyThree.peakHash=some 12 := by decide +kernel

theorem tinyOne_run : WalletRun tinyEnv SafeFork tinyOne := by
  have hk := start_fed.kept
  refine WalletRun.start.call (c := tinyReceive 10 1 0 7 none) ?_ (tinyReceive_safe hk fun h => absurd rfl h)
  exact tinyReceive_call hk rfl rfl (fun h => absurd rfl h) (fun h => absurd rfl h) nofun

theorem tinyTwo_run : WalletRun tinyEnv SafeFork tinyTwo := by
  obtain ⟨P,hP⟩ := tinyOne_run.fed
  have hpeak : tinyOne.peakHash=some 10 := by decide +kernel
  have hprev : (tinyOne.chain.blockRecords.get? 10).map (·.height+1)=some 1 := by decide +kernel
  have hchallenge : tinyOne.chain.blockRecords.get? tinyEnv.genesisChallenge=none := by decide +kernel
  have hnew : tinyOne.db.blockRecords.get? 11=none := by decide +kernel
  refine tinyOne_run.call (c := tinyReceive 11 10 1 8 none) ?_ (tinyReceive_safe hP.kept fun _ => hpeak)
  exact tinyReceive_call hP.kept hchallenge hnew (fun _ => hpeak) (fun _ => hprev) nofun

theorem feedsMainChain_tinyTwo : FeedsMainChain tinyTwo ∧
    ∀ c,WalletCall tinyEnv tinyTwo c → SafeFork tinyTwo c → AnswersPeak tinyEnv tinyTwo c :=
  feedsMainChain_of_safeFork tinyTwo_run

theorem WalletRun.mono {C D : WalletState → ReceiveCall → Prop} (h : WalletRun E C s)
    (hCD : ∀ s c,C s c → D s c) : WalletRun E D s := by
  induction h with
  | start => exact .start
  | call h hc hC ih => exact ih.call hc (hCD _ _ hC)

theorem tinyThree_run : WalletRun tinyEnv (fun _ _ => True) tinyThree := by
  obtain ⟨P,hP⟩ := tinyTwo_run.fed
  have hpeak : tinyTwo.peakHash=some 11 := by decide +kernel
  have hprev : (tinyTwo.chain.blockRecords.get? 11).map (·.height+1)=some 2 := by decide +kernel
  have hchallenge : tinyTwo.chain.blockRecords.get? tinyEnv.genesisChallenge=none := by decide +kernel
  have hnew : tinyTwo.db.blockRecords.get? 12=none := by decide +kernel
  have hheight : tinyTwo.chain.peakHeight=some 1 := by decide +kernel
  refine (tinyTwo_run.mono fun _ _ _ => trivial).call (c := tinyReceive 12 11 2 9 (some 0)) ?_ trivial
  refine tinyReceive_call hP.kept hchallenge hnew (fun _ => hpeak) (fun _ => hprev) ?_
  intro n hn
  rw [hheight,← Option.some.inj hn]
  rfl

/-- A block that follows the peak with a fork point below it: the second block is told of twice. -/
theorem fedTwice : ¬ ∀ s,WalletRun tinyEnv (fun _ _ => True) s →
    FeedsMainChain s ∧ ∀ c,WalletCall tinyEnv s c → AnswersPeak tinyEnv s c := by
  intro h
  obtain ⟨⟨P,hmain,hfed⟩,-⟩ := h tinyThree tinyThree_run
  have hlength : (fed tinyThree.events).length=4 := by decide +kernel
  have hheight : tinyThree.chain.peakHeight=some 2 := by decide +kernel
  have hle : (isTransactions P).length≤P.length := List.length_filter_le ..
  have hpeak := hmain.peakHeight
  rw [hheight] at hpeak
  split_ifs at hpeak with hz
  have hlen := Option.some.inj hpeak
  rw [hfed] at hlength
  omega

end RoseChain
