import Mathlib.Data.Finset.Image
import RoseChain.Wallet.UnspentCoins
import RoseChain.Wallet.WalletPuzzleStore
import RoseChain.Wallet.WalletRuns

namespace RoseChain
open Lib

/-- What the filter of a block is matched against is read from these. -/
structure FilterSources where
  coinStore : WalletCoinStore
  puzzleStore : WalletPuzzleStore
  blockchain : WalletState
  /-- Coins of pending trades, by their names. -/
  tradeRemovals : Dict Bytes32 Coin
  tradeAdditions : Dict Bytes32 Coin
  interestedCoinIds : List Bytes32
  interestedPuzzleHashes : List Bytes32

namespace WalletBlockchain

def getBlockRecordFromDb (s : WalletState) (headerHash : Bytes32) : Option BlockRecord :=
  match s.chain.blockRecords.get? headerHash with
  | some r => some r
  | none => s.db.blockRecords.get? headerHash

end WalletBlockchain

namespace FilterSources
open WalletBlockchain
variable (E : Env)

/-- `find_fork_point_in_chain` with a header as the second block, which no record is equal to. -/
def findForkPointOfHeader (V : BlockView) : ℕ → BlockRecord → HeaderBlock → Check ℤ
  | 0,_,_ => .error (.raised .diverged)
  | n+1,block1,block2 =>
    if block2.height > 0 ∨ block1.height > 0 then
      if block2.height > block1.height then do
        findForkPointFrom V n block1 (← V.blockRecord block2.prevHeaderHash)
      else if block1.height > block2.height then do
        findForkPointOfHeader V n (← V.blockRecord block1.prevHash) block2
      else if block2.headerHash E=block1.headerHash then .ok block2.height
      else do
        let block2 ← V.blockRecord block2.prevHeaderHash
        findForkPointFrom V n (← V.blockRecord block1.prevHash) block2
    else .ok (-1)

/-- Where the chain of a new block leaves the main chain: as the caller says, or searched for. -/
def forkHeight (s : WalletState) (newBlock : HeaderBlock) (forkPointWithPeak : Option ℕ) : Check ℤ :=
  match forkPointWithPeak with
  | some h => .ok h
  | none =>
    if newBlock.prevHeaderHash≠E.genesisChallenge then do
      match ← Blockchain.getPeak s.chain with
      | none => return 0
      | some peak =>
        let record ← assertSome (getBlockRecordFromDb s peak.headerHash)
        findForkPointOfHeader E s.chain.view (record.height+newBlock.height+1) record newBlock
    else return 0

/-- The header blocks above the fork, the newest first. -/
def reorgBlocks (s : WalletState) (forkH : ℤ) : ℕ → BlockRecord → Check (List HeaderBlockRecord)
  | 0,_ => .error (.raised .diverged)
  | n+1,curr =>
    if (curr.height : ℤ) > forkH then do
      let headerBlockRecord ← assertSome (s.db.headerBlocks.get? curr.headerHash)
      if curr.height=0 then return [headerBlockRecord]
      else
        let prev ← assertSome (getBlockRecordFromDb s curr.prevHash)
        return headerBlockRecord::(← reorgBlocks s forkH n prev)
    else return []

/-- The puzzle hash is looked up as bytes; a coin, unlike its name, is in no set of names. -/
def removeCoin (s : FilterSources) (names : Finset Bytes32) (removal : Coin) : Check (Finset Bytes32) :=
  match s.puzzleStore.getDerivationRecordForPuzzleHash (.blob removal.puzzleHash) with
  | none => return names
  | some _ => .error (.raised .key)

def namesOf (coins : List Coin) : Finset Bytes32 := (coins.map E.coinName).toFinset

def replayBlock (s : FilterSources) (names : Finset Bytes32) (block : HeaderBlockRecord) : Check (Finset Bytes32) :=
  block.removals.foldlM (removeCoin s) (names ∪ namesOf E block.additions)

def namesUpToFork (s : FilterSources) (forkH : ℤ) : Finset Bytes32 :=
  let myCoinRecords := s.coinStore.getUnspentCoinsAtHeight (if forkH ≥ 0 then some forkH.toNat else none)
  (myCoinRecords.filter fun r => (r.confirmedBlockHeight : ℤ)≤forkH).image fun r => E.coinName r.coin

def unspentCoinNames (s : FilterSources) (newBlock : HeaderBlock) (forkH : ℤ) : Check (Finset Bytes32) :=
  if newBlock.height > 0 then do
    let curr ← s.blockchain.chain.view.blockRecord newBlock.prevHeaderHash
    let blocks ← reorgBlocks s.blockchain forkH (curr.height+1) curr
    blocks.reverse.foldlM (replayBlock E s) (namesUpToFork E s forkH)
  else return namesUpToFork E s forkH

/-- The puzzle hashes that are looked for in a filter, in the order of some sets. -/
def watchedAdditions (s : FilterSources) : Multiset Bytes32 :=
  (s.tradeAdditions.values.map (·.puzzleHash) : Multiset Bytes32)+s.puzzleStore.allPuzzleHashes.val +
    (s.interestedPuzzleHashes : Multiset Bytes32)

def watchedRemovals (s : FilterSources) (names : Finset Bytes32) : Multiset Bytes32 :=
  (s.tradeRemovals.values.map E.coinName : Multiset Bytes32)+names.val+(s.interestedCoinIds : Multiset Bytes32)

/-- The puzzle hashes and the coins that match the filter. -/
def getFilterAdditionsRemovals (filterMatch : Bytes → Bytes32 → Bool) (s : FilterSources) (newBlock : HeaderBlock)
    (transactionsFilter : Bytes) (forkPointWithPeak : Option ℕ) : Check (Multiset Bytes32 × Multiset Bytes32) := do
  let forkH ← forkHeight E s.blockchain newBlock forkPointWithPeak
  let names ← unspentCoinNames E s newBlock forkH
  return ((watchedAdditions s).filter fun h => filterMatch transactionsFilter h,
    (watchedRemovals E s names).filter fun n => filterMatch transactionsFilter n)

section Branch

/-- The way back from a record to the fork, with the blocks above the fork. -/
inductive Branch (s : WalletState) (forkH : ℤ) : BlockRecord → List HeaderBlockRecord → Prop
  | fork {curr : BlockRecord} : (curr.height : ℤ)≤forkH → Branch s forkH curr []
  | first {curr : BlockRecord} {block : HeaderBlockRecord} :
    forkH<curr.height → curr.height=0 → s.db.headerBlocks.get? curr.headerHash=some block →
    Branch s forkH curr [block]
  | later {curr prev : BlockRecord} {block : HeaderBlockRecord} {more : List HeaderBlockRecord} :
    forkH<curr.height → s.db.headerBlocks.get? curr.headerHash=some block →
    getBlockRecordFromDb s curr.prevHash=some prev → curr.height=prev.height+1 →
    Branch s forkH prev more → Branch s forkH curr (block::more)

def BranchOf (s : WalletState) (forkH : ℤ) (newBlock : HeaderBlock) (blocks : List HeaderBlockRecord) : Prop :=
  if newBlock.height > 0 then
    ∃ curr,s.chain.view.blockRecord newBlock.prevHeaderHash = .ok curr ∧ Branch s forkH curr blocks
  else blocks=[]

theorem reorgBlocks_of_branch {s : WalletState} {forkH : ℤ} {curr : BlockRecord} {blocks : List HeaderBlockRecord}
    (h : Branch s forkH curr blocks) : reorgBlocks s forkH (curr.height+1) curr = .ok blocks := by
  induction h with
  | fork hle =>
    rw [reorgBlocks,if_neg (by omega)]
    rfl
  | @first curr block hlt hzero hblock =>
    rw [reorgBlocks,if_pos hlt,bind_of_ok (assertSome_eq_ok.mpr hblock),if_pos hzero]
    rfl
  | @later curr prev block more hlt hblock hprev hheight _ ih =>
    rw [reorgBlocks,if_pos hlt,bind_of_ok (assertSome_eq_ok.mpr hblock),if_neg (by omega),
      bind_of_ok (assertSome_eq_ok.mpr hprev),hheight,bind_of_ok ih]
    rfl

end Branch

section Names
variable {E} {s : FilterSources} {forkH : ℤ} {newBlock : HeaderBlock} {blocks : List HeaderBlockRecord}

variable (E) in
/-- Names of the coins confirmed at or below the fork and not spent there. -/
def coinsAtFork (s : FilterSources) (forkH : ℤ) : Finset Bytes32 :=
  namesOf E ((s.coinStore.coinRecordCache.values.filter fun r => decide ((r.confirmedBlockHeight : ℤ)≤forkH ∧
    ¬ (r.spent=true ∧ (r.spentBlockHeight : ℤ)≤forkH))).map (·.coin))

def additionsOf (blocks : List HeaderBlockRecord) : List Coin := blocks.flatMap (·.additions)

def removalsOf (blocks : List HeaderBlockRecord) : List Coin := blocks.flatMap (·.removals)

def ownAdditionsOf (s : FilterSources) (blocks : List HeaderBlockRecord) : List Coin :=
  (additionsOf blocks).filter fun c => s.puzzleStore.puzzleHashExists c.puzzleHash

variable (E) in
/-- Names of the wallets' coins that are unspent on the chain of a block with these blocks since the fork. -/
def unspentOnBranch (s : FilterSources) (forkH : ℤ) (blocks : List HeaderBlockRecord) : Finset Bytes32 :=
  (coinsAtFork E s forkH ∪ namesOf E (ownAdditionsOf s blocks)) \ namesOf E (removalsOf blocks)

theorem mem_namesOf {coins : List Coin} {n : Bytes32} : n∈namesOf E coins ↔ ∃ c∈coins,E.coinName c=n := by
  simp [namesOf]

theorem namesOf_append (l l' : List Coin) : namesOf E (l++l')=namesOf E l ∪ namesOf E l' := by
  simp [namesOf]

theorem foldlM_removeCoin (names : Finset Bytes32) (removals : List Coin) :
    removals.foldlM (removeCoin s) names = .ok names := by
  induction removals with
  | nil => rfl
  | cons c more ih =>
    have hkept : removeCoin s names c = .ok names := by
      rw [removeCoin,WalletPuzzleStore.getDerivationRecordForPuzzleHash_blob]
      rfl
    rw [List.foldlM_cons,bind_of_ok hkept]
    exact ih

theorem foldlM_replayBlock (names : Finset Bytes32) (blocks : List HeaderBlockRecord) :
    blocks.foldlM (replayBlock E s) names = .ok (names ∪ namesOf E (additionsOf blocks)) := by
  induction blocks generalizing names with
  | nil =>
    simp [additionsOf,namesOf]
    rfl
  | cons b more ih =>
    have hadded : replayBlock E s names b = .ok (names ∪ namesOf E b.additions) := foldlM_removeCoin _ _
    have hall : additionsOf (b::more)=b.additions++additionsOf more := by
      simp [additionsOf]
    rw [List.foldlM_cons,bind_of_ok hadded,ih,hall,namesOf_append,Finset.union_assoc]

theorem namesUpToFork_eq : namesUpToFork E s forkH=coinsAtFork E s forkH := by
  ext n
  simp only [namesUpToFork,Finset.mem_image,Finset.mem_filter,coinsAtFork,mem_namesOf,List.mem_map,List.mem_filter,
    decide_eq_true_eq]
  constructor
  · intro ⟨r,⟨hr,hle⟩,hn⟩
    rw [if_pos (by omega),WalletCoinStore.mem_getUnspentCoinsAtHeight_some] at hr
    refine ⟨r.coin,⟨r,⟨hr.1,hle,?_⟩,rfl⟩,hn⟩
    rcases hr.2 with hunspent | ⟨-,hlater⟩
    · simp [hunspent]
    · omega
  · intro ⟨_,⟨r,⟨hr,hle,hnot⟩,rfl⟩,hn⟩
    refine ⟨r,⟨?_,hle⟩,hn⟩
    rw [if_pos (by omega),WalletCoinStore.mem_getUnspentCoinsAtHeight_some]
    refine ⟨hr,?_⟩
    cases hspent : r.spent with
    | false => exact Or.inl rfl
    | true =>
      have hlater : ¬ (r.spentBlockHeight : ℤ)≤forkH := fun h => hnot ⟨hspent,h⟩
      exact Or.inr ⟨by omega,by omega⟩

/-- The set ends as the coins at the fork and all additions since. -/
theorem unspentCoinNames_eq (h : BranchOf s.blockchain forkH newBlock blocks) :
    unspentCoinNames E s newBlock forkH = .ok (coinsAtFork E s forkH ∪ namesOf E (additionsOf blocks)) := by
  unfold unspentCoinNames
  rw [namesUpToFork_eq]
  unfold BranchOf at h
  split_ifs at h ⊢ with hpos
  · obtain ⟨curr,hcurr,hbranch⟩ := h
    have hsame : namesOf E (additionsOf blocks.reverse)=namesOf E (additionsOf blocks) := by
      ext n
      simp [mem_namesOf,additionsOf]
    rw [bind_of_ok hcurr,bind_of_ok (reorgBlocks_of_branch hbranch),foldlM_replayBlock,hsame]
  · subst h
    simp [additionsOf,namesOf]
    rfl

theorem ownAdditions_subset : namesOf E (ownAdditionsOf s blocks) ⊆ namesOf E (additionsOf blocks) := by
  intro n hn
  rw [mem_namesOf] at hn ⊢
  obtain ⟨c,hc,hname⟩ := hn
  exact ⟨c,List.mem_of_mem_filter hc,hname⟩

theorem union_eq_sdiff_iff {F A O R : Finset Bytes32} (h : O ⊆ A) :
    F ∪ A=(F ∪ O) \ R ↔ A ⊆ F ∪ O ∧ Disjoint R (F ∪ A) := by
  constructor
  · intro heq
    have hsub : F ∪ A ⊆ (F ∪ O) \ R := heq.subset
    exact ⟨(Finset.subset_union_right.trans hsub).trans Finset.sdiff_subset,
      (Finset.sdiff_disjoint.mono_left hsub).symm⟩
  · intro ⟨hsub,hdisjoint⟩
    have hsame : F ∪ A=F ∪ O :=
      (Finset.union_subset Finset.subset_union_left hsub).antisymm (Finset.union_subset_union_right h)
    rw [← hsame,Finset.sdiff_eq_self_of_disjoint hdisjoint.symm]

/-- All coins of the wallets that a block can spend are in the set, and no other exactly if the branch pays to
the wallets only and spends none of the coins in it. -/
theorem unspentCoinNames_exact_iff (h : BranchOf s.blockchain forkH newBlock blocks) :
    ∃ names,unspentCoinNames E s newBlock forkH = .ok names ∧ unspentOnBranch E s forkH blocks ⊆ names ∧
      (names=unspentOnBranch E s forkH blocks ↔
        (∀ c∈additionsOf blocks,s.puzzleStore.puzzleHashExists c.puzzleHash=false →
          E.coinName c∈coinsAtFork E s forkH ∪ namesOf E (ownAdditionsOf s blocks)) ∧
        ∀ c∈removalsOf blocks,E.coinName c∉coinsAtFork E s forkH ∪ namesOf E (additionsOf blocks)) := by
  refine ⟨_,unspentCoinNames_eq h,?_,?_⟩
  · exact Finset.sdiff_subset.trans (Finset.union_subset_union_right ownAdditions_subset)
  · rw [unspentOnBranch,union_eq_sdiff_iff ownAdditions_subset]
    apply and_congr
    · constructor
      · intro hsub c hc _
        exact hsub (mem_namesOf.mpr ⟨c,hc,rfl⟩)
      · intro hforeign n hn
        obtain ⟨c,hc,rfl⟩ := mem_namesOf.mp hn
        cases hown : s.puzzleStore.puzzleHashExists c.puzzleHash with
        | false => exact hforeign c hc hown
        | true =>
          have hmem : c∈ownAdditionsOf s blocks := List.mem_filter.mpr ⟨hc,hown⟩
          exact Finset.mem_union_right _ (mem_namesOf.mpr ⟨c,hmem,rfl⟩)
    · rw [Finset.disjoint_left]
      constructor
      · intro hdisjoint c hc
        exact hdisjoint (mem_namesOf.mpr ⟨c,hc,rfl⟩)
      · intro hspends n hn
        obtain ⟨c,hc,rfl⟩ := mem_namesOf.mp hn
        exact hspends c hc

/-- The filter is matched against every coin of the wallets that the block can spend. -/
theorem getFilterAdditionsRemovals_complete {filterMatch : Bytes → Bytes32 → Bool} {filter : Bytes}
    {forkPoint : Option ℕ} (hfork : forkHeight E s.blockchain newBlock forkPoint = .ok forkH)
    (h : BranchOf s.blockchain forkH newBlock blocks) :
    ∃ additions removals,getFilterAdditionsRemovals E filterMatch s newBlock filter forkPoint =
      .ok (additions,removals) ∧
        ∀ n∈unspentOnBranch E s forkH blocks,filterMatch filter n=true → n∈removals := by
  obtain ⟨names,hnames,hall⟩ : ∃ names,unspentCoinNames E s newBlock forkH = .ok names ∧
      unspentOnBranch E s forkH blocks ⊆ names :=
    ⟨_,unspentCoinNames_eq h,Finset.sdiff_subset.trans (Finset.union_subset_union_right ownAdditions_subset)⟩
  refine ⟨(watchedAdditions s).filter fun h => filterMatch filter h,
    (watchedRemovals E s names).filter fun n => filterMatch filter n,?_,?_⟩
  · rw [getFilterAdditionsRemovals,bind_of_ok hfork,bind_of_ok hnames]
    rfl
  · intro n hn hmatch
    rw [Multiset.mem_filter]
    have hmem : n∈names.val := hall hn
    refine ⟨?_,hmatch⟩
    unfold watchedRemovals
    rw [Multiset.mem_add,Multiset.mem_add]
    exact Or.inl (Or.inr hmem)

end Names

section Spent

def passingCoin : Coin := ⟨3,6,5⟩

def makingBlock : HeaderBlockRecord := ⟨tinyHeader (tinyTransactions 11 10 1 8),[passingCoin],[]⟩
def spendingBlock : HeaderBlockRecord := ⟨tinyHeader (tinyTransactions 12 11 2 9),[],[passingCoin]⟩

def passingChain : WalletState :=
  tinyWallet [tinyReceive 10 1 0 7 none,{ tinyReceive 11 10 1 8 none with block := makingBlock },
    { tinyReceive 12 11 2 9 none with block := spendingBlock }]

def passingSources : FilterSources where
  coinStore := .create tinyEnv (Dict.empty.set (tinyEnv.coinName passingCoin)
    ⟨passingCoin,1,2,true,false,.standardWallet,1⟩)
  puzzleStore := .create [⟨0,[],6,.standardWallet,1,true⟩]
  blockchain := passingChain
  tradeRemovals := .empty
  tradeAdditions := .empty
  interestedCoinIds := []
  interestedPuzzleHashes := []

def passingHeader : HeaderBlock := tinyHeader (tinyTransactions 13 12 3 10)

theorem passing_branch : BranchOf passingChain 0 passingHeader [spendingBlock,makingBlock] := by
  have h12 : (passingChain.chain.blockRecords.get? 12).isSome := by decide +kernel
  have h11 : (getBlockRecordFromDb passingChain 11).isSome := by decide +kernel
  have h10 : (getBlockRecordFromDb passingChain 10).isSome := by decide +kernel
  obtain ⟨r12,hr12⟩ := Option.isSome_iff_exists.mp h12
  obtain ⟨r11,hr11⟩ := Option.isSome_iff_exists.mp h11
  obtain ⟨r10,hr10⟩ := Option.isSome_iff_exists.mp h10
  have hrow12 : (passingChain.chain.blockRecords.get? 12).map (fun r => (r.headerHash,r.prevHash,r.height)) =
      some (12,11,2) := by decide +kernel
  have hrow11 : (getBlockRecordFromDb passingChain 11).map (fun r => (r.headerHash,r.prevHash,r.height)) =
      some (11,10,1) := by decide +kernel
  have hrow10 : (getBlockRecordFromDb passingChain 10).map (·.height)=some 0 := by decide +kernel
  have hblock12 : passingChain.db.headerBlocks.get? 12=some spendingBlock := by decide +kernel
  have hblock11 : passingChain.db.headerBlocks.get? 11=some makingBlock := by decide +kernel
  simp only [hr12,hr11,hr10,Option.map_some,Option.some.injEq,Prod.mk.injEq] at hrow12 hrow11 hrow10
  obtain ⟨hhash12,hprev12,hheight12⟩ := hrow12
  obtain ⟨hhash11,hprev11,hheight11⟩ := hrow11
  have hbranch : Branch passingChain 0 r12 [spendingBlock,makingBlock] := by
    refine .later (by omega) (hhash12 ▸ hblock12) (hprev12 ▸ hr11) (by omega) ?_
    exact .later (by omega) (hhash11 ▸ hblock11) (hprev11 ▸ hr10) (by omega) (.fork (by omega))
  exact ⟨r12,lookup_eq_ok.mpr hr12,hbranch⟩

theorem unspentCoinNames_exact_iff_passing :
    ∃ names,unspentCoinNames tinyEnv passingSources passingHeader 0 = .ok names ∧
      unspentOnBranch tinyEnv passingSources 0 [spendingBlock,makingBlock] ⊆ names ∧
      (names=unspentOnBranch tinyEnv passingSources 0 [spendingBlock,makingBlock] ↔
        (∀ c∈additionsOf [spendingBlock,makingBlock],passingSources.puzzleStore.puzzleHashExists c.puzzleHash=false →
          tinyEnv.coinName c∈coinsAtFork tinyEnv passingSources 0 ∪
            namesOf tinyEnv (ownAdditionsOf passingSources [spendingBlock,makingBlock])) ∧
        ∀ c∈removalsOf [spendingBlock,makingBlock],tinyEnv.coinName c∉coinsAtFork tinyEnv passingSources 0 ∪
            namesOf tinyEnv (additionsOf [spendingBlock,makingBlock])) :=
  unspentCoinNames_exact_iff passing_branch

theorem making_branch : BranchOf passingChain 0 spendingBlock.header [makingBlock] := by
  have h11 : (passingChain.chain.blockRecords.get? 11).isSome := by decide +kernel
  have h10 : (getBlockRecordFromDb passingChain 10).isSome := by decide +kernel
  obtain ⟨r11,hr11⟩ := Option.isSome_iff_exists.mp h11
  obtain ⟨r10,hr10⟩ := Option.isSome_iff_exists.mp h10
  have hrow11 : (passingChain.chain.blockRecords.get? 11).map (fun r => (r.headerHash,r.prevHash,r.height)) =
      some (11,10,1) := by decide +kernel
  have hrow10 : (getBlockRecordFromDb passingChain 10).map (·.height)=some 0 := by decide +kernel
  have hblock11 : passingChain.db.headerBlocks.get? 11=some makingBlock := by decide +kernel
  simp only [hr11,hr10,Option.map_some,Option.some.injEq,Prod.mk.injEq] at hrow11 hrow10
  obtain ⟨hhash11,hprev11,hheight11⟩ := hrow11
  exact ⟨r11,lookup_eq_ok.mpr hr11,
    .later (by omega) (hhash11 ▸ hblock11) (hprev11 ▸ hr10) (by omega) (.fork (by omega))⟩

/-- The block that spends the coin is looked for the coin, which the branch before it has made. -/
theorem getFilterAdditionsRemovals_complete_spending : ∃ additions removals,
    getFilterAdditionsRemovals tinyEnv (fun _ _ => true) passingSources spendingBlock.header [] (some 0) =
      .ok (additions,removals) ∧ coinsAtFork tinyEnv passingSources 0=∅ ∧
      tinyEnv.coinName passingCoin∈removals := by
  obtain ⟨additions,removals,hrun,hall⟩ := @getFilterAdditionsRemovals_complete tinyEnv passingSources 0
    spendingBlock.header [makingBlock] (fun _ _ => true) [] (some 0) rfl making_branch
  exact ⟨additions,removals,hrun,by decide +kernel,hall _ (by decide +kernel) rfl⟩

/-- The coin is spent on the chain of the new block and still among the unspent ones. -/
theorem unspentCoinNames_spent : BranchOf passingSources.blockchain 0 passingHeader [spendingBlock,makingBlock] ∧
    unspentCoinNames tinyEnv passingSources passingHeader 0 = .ok {tinyEnv.coinName passingCoin} ∧
    unspentOnBranch tinyEnv passingSources 0 [spendingBlock,makingBlock]=∅ := by
  refine ⟨passing_branch,?_,?_⟩
  · rw [unspentCoinNames_eq (E := tinyEnv) (s := passingSources) passing_branch]
    decide +kernel
  · decide +kernel

end Spent

end FilterSources
end RoseChain
