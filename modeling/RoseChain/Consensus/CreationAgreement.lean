import RoseChain.Consensus.BlockCreation
import RoseChain.Consensus.RewardClaims
import RoseChain.Util.CoinLists

namespace RoseChain
open Lib
variable {E : Env} {V : BlockView}

section Claims
variable {C : ConsensusConstants} {n : ℕ} {b : BlockRecord} {coins : List Coin}

/-- The blocks of a chain, as they are looked up. -/
structure ChainView (V : BlockView) : Prop where
  stored : ∀ h b,V.blockRecord h = .ok b → V.blockRecord b.headerHash = .ok b
  height : ∀ b p,V.blockRecord b.headerHash = .ok b → V.blockRecord b.prevHash = .ok p → b.height=p.height+1
  small : ∀ b,V.blockRecord b.headerHash = .ok b → b.height<2^32

theorem claimsBefore_eq (n : ℕ) (b : BlockRecord) (claims : List Coin) : claimsBefore V C n b claims =
    (rewardsBefore C V n b).map (claims ++ ·) := by
  induction n generalizing b claims with
  | zero => rfl
  | succ n ih =>
    unfold claimsBefore rewardsBefore
    by_cases htx : b.isTransactionBlock=true
    · rw [if_pos htx,if_pos htx]
      simp [Except.map]
    · rw [if_neg htx,if_neg htx]
      cases hprev : V.blockRecord b.prevHash with
      | error e => rfl
      | ok prev =>
        rw [bind_of_ok rfl,bind_of_ok rfl,ih]
        cases rewardsBefore C V n prev with
        | error e => rfl
        | ok older => simp [Except.map,bind,Except.bind,pure,Except.pure]

theorem mem_rewardCoins_parent {fees : ℕ} {c : Coin} (h : c∈rewardCoins C b fees) :
    ∃ half<2^128,c.parentCoinInfo=rewardParentId half b.height := by
  have hlt := C.genesisChallenge.isLt
  rcases List.mem_cons.mp h with rfl | h
  · exact ⟨_,Nat.div_lt_of_lt_mul (by omega),rfl⟩
  · rcases List.mem_singleton.mp h with rfl
    exact ⟨_,Nat.mod_lt _ (by norm_num),rfl⟩

theorem rewardCoins_nodup (hd : C.HalvesDiffer) (fees : ℕ) : (rewardCoins C b fees).Nodup := by
  simpa [rewardCoins] using createPoolCoin_ne _ hd _ _ _ _ _ _

theorem rewardsBefore_nodup (hd : C.HalvesDiffer) (hv : ChainView V) (hb : V.blockRecord b.headerHash = .ok b)
    (h : rewardsBefore C V n b = .ok coins) : coins.Nodup ∧ ∀ c∈coins,∃ half<2^128,∃ height≤b.height,
      c.parentCoinInfo=rewardParentId half height := by
  induction n generalizing b coins with
  | zero => cases h
  | succ n ih =>
    unfold rewardsBefore at h
    split at h
    · cases h
      exact ⟨List.nodup_nil,fun c hc => absurd hc List.not_mem_nil⟩
    · obtain ⟨prev,hprev,h⟩ := bind_ok.mp h
      obtain ⟨older,holder,h⟩ := bind_ok.mp h
      cases h
      obtain ⟨hnodup,hparents⟩ := ih (hv.stored _ _ hprev) holder
      have hheight := hv.height _ _ hb hprev
      have hsmall := hv.small _ hb
      refine ⟨List.nodup_append.mpr ⟨rewardCoins_nodup hd 0,hnodup,?_⟩,?_⟩
      · rintro c hc _ hc' rfl
        obtain ⟨half,hhalf,hparent⟩ := mem_rewardCoins_parent hc
        obtain ⟨half',hhalf',height,hle,hparent'⟩ := hparents c hc'
        have heq := rewardParentId_height hhalf hhalf' hsmall (by omega) (hparent.symm.trans hparent')
        omega
      · intro c hc
        rcases List.mem_append.mp hc with hc | hc
        · obtain ⟨half,hhalf,hparent⟩ := mem_rewardCoins_parent hc
          exact ⟨half,hhalf,b.height,le_refl _,hparent⟩
        · obtain ⟨half,hhalf,height,hle,hparent⟩ := hparents c hc
          exact ⟨half,hhalf,height,by omega,hparent⟩

theorem expectedRewardCoins_nodup (hd : E.HalvesDiffer) (hv : ChainView V)
    (hb : V.blockRecord b.headerHash = .ok b) (h : expectedRewardCoins E V b = .ok coins) : coins.Nodup := by
  unfold expectedRewardCoins at h
  obtain ⟨fees,-,h⟩ := bind_ok.mp h
  obtain ⟨_,-,h⟩ := bind_ok.mp h
  split at h
  · obtain ⟨prev,hprev,h⟩ := bind_ok.mp h
    obtain ⟨older,holder,h⟩ := bind_ok.mp h
    cases h
    obtain ⟨hnodup,hparents⟩ := rewardsBefore_nodup hd hv (hv.stored _ _ hprev) holder
    have hheight := hv.height _ _ hb hprev
    have hsmall := hv.small _ hb
    refine List.nodup_append.mpr ⟨rewardCoins_nodup hd fees,hnodup,?_⟩
    rintro c hc _ hc' rfl
    obtain ⟨half,hhalf,hparent⟩ := mem_rewardCoins_parent hc
    obtain ⟨half',hhalf',height,hle,hparent'⟩ := hparents c hc'
    have heq := rewardParentId_height hhalf hhalf' hsmall (by omega) (hparent.symm.trans hparent')
    omega
  · cases h
    exact rewardCoins_nodup hd fees

theorem rewardClaimsIncorporated_eq {prev last : BlockRecord} (hlast : V.lastTransactionBlock prev = .ok last)
    (h : rewardClaimsIncorporated E V prev last = .ok coins) : expectedRewardCoins E V last = .ok coins := by
  unfold rewardClaimsIncorporated at h
  obtain ⟨curr,hcurr,h⟩ := bind_ok.mp h
  cases hlast.symm.trans hcurr
  obtain ⟨fees,hfees,h⟩ := bind_ok.mp h
  obtain ⟨_,huint,h⟩ := bind_ok.mp h
  obtain ⟨_,-,h⟩ := bind_ok.mp h
  unfold expectedRewardCoins
  rw [bind_of_ok hfees,bind_of_ok huint]
  split at h
  · next hpos =>
    obtain ⟨older,holder,h⟩ := bind_ok.mp h
    rw [if_pos hpos,bind_of_ok holder]
    rw [claimsBefore_eq] at h
    cases hrewards : rewardsBefore E.constants V (older.height+1) older with
    | error e =>
      rw [hrewards] at h
      cases h
    | ok rewards =>
      rw [hrewards] at h
      exact h
  · next hpos =>
    rw [if_neg hpos]
    exact h

end Claims

section Placement
variable {sp : ℕ} {a b last : BlockRecord}

/-- A chain goes on from a block, with blocks that are all infused after the signage point. -/
inductive DescendsAfter (V : BlockView) (sp : ℕ) (a : BlockRecord) : BlockRecord → Prop
  | refl : DescendsAfter V sp a a
  | step {b c : BlockRecord} : DescendsAfter V sp a b → V.blockRecord c.prevHash = .ok b → c.height=b.height+1 →
    sp<c.totalIters → DescendsAfter V sp a c

theorem DescendsAfter.lastTransactionBlock (h : DescendsAfter V sp a b) (hlast : V.lastTransactionBlock b = .ok last) :
    V.lastTransactionBlock a = .ok last ∨ sp<last.totalIters := by
  induction h with
  | refl => exact Or.inl hlast
  | @step b c _ hprev hheight hafter ih =>
    cases htx : c.isTransactionBlock with
    | true =>
      cases (BlockView.walkBack_here htx).symm.trans hlast
      exact Or.inr hafter
    | false =>
      apply ih
      rw [BlockView.lastTransactionBlock,← BlockView.walkBack_prev htx hprev hheight]
      exact hlast

theorem lastTransactionBlock_first (hzero : a.height=0) (hlast : V.lastTransactionBlock a = .ok last) : last=a := by
  unfold BlockView.lastTransactionBlock BlockView.walkBack at hlast
  rw [hzero,BlockView.walk] at hlast
  split at hlast
  · cases hlast
    rfl
  · obtain ⟨prev,-,hlast⟩ := bind_ok.mp hlast
    cases hlast

theorem getPrevTransactionBlock_ok {flag : Bool} {prevTransactionBlock : BlockRecord}
    (h : getPrevTransactionBlock V b sp = .ok (flag,prevTransactionBlock)) :
    ∃ last,V.lastTransactionBlock b = .ok last ∧ flag=decide (sp > last.totalIters) ∧
      (flag=true → prevTransactionBlock=last) := by
  unfold getPrevTransactionBlock at h
  obtain ⟨last,hlast,h⟩ := bind_ok.mp h
  refine ⟨last,hlast,?_⟩
  split at h
  · next hgt =>
    cases h
    exact ⟨(decide_eq_true hgt).symm,fun _ => rfl⟩
  · next hle =>
    cases h
    exact ⟨(decide_eq_false hle).symm,fun h => by cases h⟩

end Placement

section Agreement
variable {i : FoliageInput} {j : Infusion} {u : UnfinishedBlock} {prevSp prevIp : Option BlockRecord} {full : FullBlock}

/-- The previous block at the infusion comes after the one at the signage point, and all blocks in between are
infused after the signage point. -/
inductive InfusionPlace (V : BlockView) (sp : ℕ) : Option BlockRecord → Option BlockRecord → Prop
  | first : InfusionPlace V sp none none
  | early {g b : BlockRecord} : g.height=0 → sp<g.totalIters → DescendsAfter V sp g b → InfusionPlace V sp none (some b)
  | after {a b : BlockRecord} : V.blockRecord a.headerHash = .ok a → a.totalIters ≤ sp → DescendsAfter V sp a b →
    InfusionPlace V sp (some a) (some b)

theorem InfusionPlace.lastTransactionBlock {sp : ℕ} {b last : BlockRecord} (hp : InfusionPlace V sp prevSp (some b))
    (hlast : V.lastTransactionBlock b = .ok last) (hgt : sp > last.totalIters) :
    ∃ a,prevSp=some a ∧ V.blockRecord a.headerHash = .ok a ∧ V.lastTransactionBlock a = .ok last := by
  cases hp with
  | @early g _ hzero hafter hdesc =>
    rcases hdesc.lastTransactionBlock hlast with hsame | hlate
    · cases lastTransactionBlock_first hzero hsame
      omega
    · omega
  | @after a _ hstored _ hdesc =>
    rcases hdesc.lastTransactionBlock hlast with hsame | hlate
    · exact ⟨a,rfl,hstored,hsame⟩
    · omega

/-- The checks of the transaction part; the validator may list additions and removals in any order.
-/
structure RequiredBody (E : Env) (V : BlockView) (prevB : Option BlockRecord) (additions removals : List Coin)
    (height : ℕ) (ftb : FoliageTransactionBlock) (info : TransactionsInfo) : Prop where
  infoHash : ftb.transactionsInfoHash=E.hashTransactionsInfo info
  prevHash : requiredPrevHash E V prevB = .ok ftb.prevTransactionBlockHash
  claims : ∃ prevHeight,validateRewardClaims E V height ftb info = .ok (info.rewardClaimsIncorporated,prevHeight)
  roots : ∀ added removed claimed,added.Perm additions → removed.Perm (removals.map E.coinName) →
    claimed.Perm info.rewardClaimsIncorporated →
    validateBlockMerkleRoots E ftb.additionsRoot ftb.removalsRoot (added++claimed) removed = .ok ()
  filterHash : ∀ added removed claimed,added.Perm additions → removed.Perm (removals.map E.coinName) →
    claimed.Perm info.rewardClaimsIncorporated →
    ftb.filterHash=E.stdHash (E.bip158 (filterItems (added++claimed) removed))

/-- What the checks require of a block after `prevB`, with a signage point at `sp`. -/
structure Required (E : Env) (V : BlockView) (sp : ℕ) (prevB : Option BlockRecord) (additions removals : List Coin)
    (full : FullBlock) : Prop where
  flag : full.rewardChainBlock.isTransactionBlock=full.foliage.foliageTransactionBlockHash.isSome
  isTransactionBlock : validateIsTransactionBlock V prevB full.foliage sp = .ok ()
  presence : full.foliage.foliageTransactionBlockHash=full.foliageTransactionBlock.map E.hashFoliageTransactionBlock
  noBody : full.foliageTransactionBlock=none → full.transactionsInfo=none ∧ full.transactionsGenerator=none ∧
    full.transactionsGeneratorRefList=[]
  body : ∀ ftb,full.foliageTransactionBlock=some ftb → ∃ info,full.transactionsInfo=some info ∧
    RequiredBody E V prevB additions removals full.height ftb info

theorem walk_stored (hv : ChainView V) {stop : BlockRecord → Bool} {n : ℕ} {b c : BlockRecord}
    (hb : V.blockRecord b.headerHash = .ok b) (h : V.walk stop n b = .ok c) : V.blockRecord c.headerHash = .ok c := by
  induction n generalizing b with
  | zero => cases h
  | succ n ih =>
    unfold BlockView.walk at h
    split at h
    · cases h
      exact hb
    · obtain ⟨prev,hprev,h⟩ := bind_ok.mp h
      exact ih (hv.stored _ _ hprev) h

variable {ftb : FoliageTransactionBlock} {info : TransactionsInfo}

variable {additions removals : List Coin}

theorem transactionFoliage_ok (hfilter : ∀ l l' : List Bytes,l.Perm l' → E.bip158 l=E.bip158 l')
    {generator : Option BlockGenerator} {sig : G2Element} {claims : List Coin} {prevHash : Bytes32}
    {timestamp : ℕ} (h : transactionFoliage E generator sig additions removals claims prevHash timestamp = .ok (ftb,info)) :
    ftb.prevTransactionBlockHash=prevHash ∧ info.rewardClaimsIncorporated=claims ∧
      ftb.transactionsInfoHash=E.hashTransactionsInfo info ∧
      (∀ added removed claimed,added.Perm additions → removed.Perm (removals.map E.coinName) → claimed.Perm claims →
        validateBlockMerkleRoots E ftb.additionsRoot ftb.removalsRoot (added++claimed) removed = .ok ()) ∧
      ∀ added removed claimed,added.Perm additions → removed.Perm (removals.map E.coinName) → claimed.Perm claims →
        ftb.filterHash=E.stdHash (E.bip158 (filterItems (added++claimed) removed)) := by
  unfold transactionFoliage at h
  obtain ⟨⟨fees,cost⟩,-,h⟩ := bind_ok.mp h
  obtain ⟨additionsRoot,hadditions,h⟩ := bind_ok.mp h
  obtain ⟨removalsRoot,hremovals,h⟩ := bind_ok.mp h
  cases h
  refine ⟨rfl,rfl,rfl,?_,?_⟩
  · intro added removed claimed hadded hremoved hclaimed
    unfold validateBlockMerkleRoots
    rw [removalsRootOf_perm hremoved,bind_of_ok hremovals,additionsRootOf_perm (hadded.append hclaimed),
      bind_of_ok hadditions]
    simp [reject,bind,Except.bind]
  · intro added removed claimed hadded hremoved hclaimed
    refine congrArg E.stdHash (hfilter _ _ ?_)
    exact ((hadded.append hclaimed).symm.map _).append (hremoved.symm.map _)

theorem validateRewardClaims_zero (h : info.rewardClaimsIncorporated=[]) : validateRewardClaims E V 0 ftb info = .ok ([],0) := by
  simp [validateRewardClaims,h,reject,bind,Except.bind,pure,Except.pure]

variable {height : ℕ}

theorem validateRewardClaims_eq {last : BlockRecord} (hheight : height > 0) (hlast : V.blockRecord ftb.prevTransactionBlockHash = .ok last)
    (hclaims : expectedRewardCoins E V last = .ok info.rewardClaimsIncorporated)
    (hnodup : info.rewardClaimsIncorporated.Nodup) :
    validateRewardClaims E V height ftb info = .ok (info.rewardClaimsIncorporated,last.height) := by
  unfold validateRewardClaims
  rw [if_pos hheight,bind_of_ok hlast,bind_of_ok hclaims,hnodup.dedup]
  simp [reject,bind,Except.bind,pure,Except.pure]

theorem createFoliage_ok
    (h : createFoliage E V i prevSp = .ok (u.foliage,u.foliageTransactionBlock,u.transactionsInfo)) :
    ∃ made,createTransactionFoliage E V i prevSp = .ok made ∧
      u.foliageTransactionBlock=made.map (·.1) ∧ u.transactionsInfo=made.map (·.2) ∧
      u.foliage.foliageTransactionBlockHash=made.map (fun m => E.hashFoliageTransactionBlock m.1) ∧
      u.foliage.foliageTransactionBlockSignature.isSome=made.isSome := by
  unfold createFoliage at h
  obtain ⟨_,-,h⟩ := bind_ok.mp h
  obtain ⟨made,hmade,h⟩ := bind_ok.mp h
  have hall := Except.ok.inj h
  have hfoliage := congrArg Prod.fst hall
  refine ⟨made,hmade,(congrArg (·.2.1) hall).symm,(congrArg (·.2.2) hall).symm,?_,?_⟩
  · exact (congrArg Foliage.foliageTransactionBlockHash hfoliage).symm
  · rw [← congrArg Foliage.foliageTransactionBlockSignature hfoliage]
    simp

theorem required_of_made {pair : FoliageTransactionBlock × TransactionsInfo} {sp : ℕ}
    (hflag : full.rewardChainBlock.isTransactionBlock=true)
    (hftb : full.foliageTransactionBlock=some pair.1) (hinfo : full.transactionsInfo=some pair.2)
    (hhash : full.foliage.foliageTransactionBlockHash=some (E.hashFoliageTransactionBlock pair.1))
    (hcheck : validateIsTransactionBlock V prevIp full.foliage sp = .ok ())
    (hbody : RequiredBody E V prevIp additions removals full.height pair.1 pair.2) :
    Required E V sp prevIp additions removals full where
  flag := by rw [hflag,hhash]; rfl
  isTransactionBlock := hcheck
  presence := by rw [hhash,hftb]; rfl
  noBody := fun hnone => by rw [hftb] at hnone; cases hnone
  body := by
    intro ftb hsome
    cases hftb.symm.trans hsome
    exact ⟨pair.2,hinfo,hbody⟩

theorem requiredBody_after (hfilter : ∀ l l' : List Bytes,l.Perm l' → E.bip158 l=E.bip158 l')
    (hd : E.HalvesDiffer) (hv : ChainView V) {a b last : BlockRecord}
    {made : Option (FoliageTransactionBlock × TransactionsInfo)}
    (hstored : V.blockRecord a.headerHash = .ok a) (hlasta : V.lastTransactionBlock a = .ok last)
    (hlastb : V.lastTransactionBlock b = .ok last) (hsp : i.totalItersSp > last.totalIters) (hheight : height > 0)
    (h : createTransactionFoliage E V i (some a) = .ok made) :
    ∃ pair,made=some pair ∧ RequiredBody E V (some b) i.additions i.removals height pair.1 pair.2 := by
  unfold createTransactionFoliage at h
  obtain ⟨⟨flag,prevTransactionBlock⟩,hprev,h⟩ := bind_ok.mp h
  obtain ⟨last',hlast',hflag,hsame⟩ := getPrevTransactionBlock_ok hprev
  cases hlasta.symm.trans hlast'
  rw [decide_eq_true hsp] at hflag
  subst hflag
  cases hsame rfl
  dsimp only at h
  rw [if_pos rfl] at h
  obtain ⟨claims,hclaims,h⟩ := bind_ok.mp h
  cases hmade : transactionFoliage E i.blockGenerator i.aggregateSig i.additions i.removals claims last.headerHash
    i.timestamp with
  | error e =>
    rw [hmade] at h
    cases h
  | ok pair =>
    rw [hmade] at h
    cases h
    obtain ⟨hprevHash,hincorporated,hinfoHash,hroots,hitems⟩ := transactionFoliage_ok hfilter hmade
    have hlastStored := walk_stored hv hstored hlasta
    have hexpected := rewardClaimsIncorporated_eq hlasta hclaims
    have hnodup := expectedRewardCoins_nodup hd hv hlastStored hexpected
    rw [← hincorporated] at hexpected hnodup hroots hitems
    refine ⟨pair,rfl,hinfoHash,?_,⟨last.height,?_⟩,hroots,hitems⟩
    · rw [requiredPrevHash,bind_of_ok hlastb,hprevHash]
      rfl
    · exact validateRewardClaims_eq hheight (by rw [hprevHash]; exact hlastStored) hexpected hnodup

/-- What farmer and timelord made of the block is what the validators require. -/
theorem createdBlock_required (hfilter : ∀ l l' : List Bytes,l.Perm l' → E.bip158 l=E.bip158 l')
    (hd : E.HalvesDiffer) (hv : ChainView V)
    (hc : createFoliage E V i prevSp = .ok (u.foliage,u.foliageTransactionBlock,u.transactionsInfo))
    (hp : InfusionPlace V i.totalItersSp prevSp prevIp) (hsp : j.totalItersSp=i.totalItersSp)
    (hu : unfinishedBlockToFullBlock E V u j prevIp = .ok full) :
    Required E V i.totalItersSp prevIp i.additions i.removals full := by
  obtain ⟨made,hmade,hftb,hinfo,hhash,hsig⟩ := createFoliage_ok hc
  cases prevIp with
  | none =>
    cases hp
    unfold createTransactionFoliage at hmade
    unfold unfinishedBlockToFullBlock at hu
    obtain ⟨weight,-,hu⟩ := bind_ok.mp hu
    cases hu
    cases hpair : transactionFoliage E i.blockGenerator i.aggregateSig i.additions i.removals [] E.genesisChallenge
      i.timestamp with
    | error e =>
      rw [hpair] at hmade
      cases hmade
    | ok pair =>
      rw [hpair] at hmade
      cases hmade
      obtain ⟨hprevHash,hincorporated,hinfoHash,hroots,hitems⟩ := transactionFoliage_ok hfilter hpair
      rw [← hincorporated] at hroots hitems
      refine required_of_made rfl hftb hinfo hhash ?_ ⟨hinfoHash,by rw [hprevHash]; rfl,⟨0,?_⟩,hroots,hitems⟩
      · show reject (u.foliage.foliageTransactionBlockHash.isNone) _=_
        rw [hhash]
        rfl
      · rw [hincorporated]
        exact validateRewardClaims_zero hincorporated
  | some b =>
    unfold unfinishedBlockToFullBlock at hu
    obtain ⟨⟨flag,prevTransactionBlock⟩,hprev,hu⟩ := bind_ok.mp hu
    obtain ⟨last,hlast,hflag,-⟩ := getPrevTransactionBlock_ok hprev
    obtain ⟨weight,-,hu⟩ := bind_ok.mp hu
    obtain ⟨height,hheight,hu⟩ := bind_ok.mp hu
    obtain ⟨_,-,hu⟩ := bind_ok.mp hu
    cases hu
    rw [hsp] at hflag
    have hcheck : ∀ foliage : Foliage,foliage.foliageTransactionBlockHash.isSome=flag →
        foliage.foliageTransactionBlockSignature.isSome=flag →
        validateIsTransactionBlock V (some b) foliage i.totalItersSp = .ok () := by
      intro foliage hhash hsig
      unfold validateIsTransactionBlock
      dsimp only
      rw [bind_of_ok hlast]
      simp [reject,hhash,hsig,← hflag,bind,Except.bind]
    cases flag with
    | true =>
      have hgt : i.totalItersSp > last.totalIters := of_decide_eq_true hflag.symm
      obtain ⟨a,rfl,hstored,hlasta⟩ := hp.lastTransactionBlock hlast hgt
      have hpos : height > 0 := by
        have hvalue := (uint_eq_ok.mp hheight).1
        omega
      obtain ⟨pair,rfl,hbody⟩ := requiredBody_after hfilter hd hv hstored hlasta hlast hgt hpos hmade
      have hmarked : u.foliage.foliageTransactionBlockHash.isSome=true := by
        rw [hhash]
        rfl
      exact required_of_made rfl hftb hinfo hhash (hcheck _ hmarked hsig) hbody
    | false =>
      -- infused too late: the transaction part is dropped, as a later transaction block asks for
      refine ⟨rfl,hcheck _ rfl rfl,rfl,fun _ => ⟨rfl,rfl,rfl⟩,fun ftb hsome => ?_⟩
      cases hsome

def farmedFirst : BlockRecord := headerBlockToSubBlockRecord tinyEnv 1 (tinyFirst 10) 1024 false 0 0 none

def farmedNext : BlockRecord :=
  { headerBlockToSubBlockRecord tinyEnv 1 (tinyBlock 11 10 1 14) 1024 false 0 0 none with totalIters := 160 }

def farmed : BlockView := ⟨(Dict.empty.set 10 farmedFirst).set 11 farmedNext,Dict.empty⟩

def farmedInput : FoliageInput :=
  ⟨⟨170,0,0,tinySpace,none,[],none,[]⟩,none,[],[⟨3,4,5⟩],[],150,20,0,⟨0,0⟩,⟨fun _ _ => [],fun _ _ => none⟩,12⟩

def farmedInfusion : Infusion := ⟨tinyVdf,tinyProof,tinyVdf,tinyProof,none,none,[],150,7⟩

def farmedUnfinished (r : Foliage × Option FoliageTransactionBlock × Option TransactionsInfo) : UnfinishedBlock :=
  ⟨[],farmedInput.rewardBlockUnfinished,none,none,r.1,r.2.1,r.2.2,none,[]⟩

theorem farmed_blockRecord {h : Bytes32} {b : BlockRecord} (hb : farmed.blockRecord h = .ok b) :
    h=10 ∧ b=farmedFirst ∨ h=11 ∧ b=farmedNext := by
  unfold BlockView.blockRecord farmed at hb
  rw [Dict.get?_set,Dict.get?_set,Dict.get?_empty] at hb
  split_ifs at hb with hnext hfirst
  · exact Or.inr ⟨hnext.symm,(Except.ok.inj hb).symm⟩
  · exact Or.inl ⟨hfirst.symm,(Except.ok.inj hb).symm⟩
  · cases hb

theorem farmed_chainView : ChainView farmed where
  stored := by
    intro h b hb
    obtain ⟨-,rfl⟩ | ⟨-,rfl⟩ := farmed_blockRecord hb <;> rfl
  height := by
    intro b p hb hp
    obtain ⟨-,rfl⟩ | ⟨-,rfl⟩ := farmed_blockRecord hb
    · cases hp
    · cases hp
      rfl
  small := by
    intro b hb
    obtain ⟨-,rfl⟩ | ⟨-,rfl⟩ := farmed_blockRecord hb
    · exact Nat.two_pow_pos 32
    · exact Nat.one_lt_two_pow (Nat.succ_ne_zero 31)

theorem createdBlock_required_next : ∃ full,full.rewardChainBlock.isTransactionBlock=true ∧
    Required tinyEnv farmed 150 (some farmedNext) [⟨3,4,5⟩] [] full := by
  have hrun : ((createFoliage tinyEnv farmed farmedInput (some farmedFirst)).bind fun r =>
      (unfinishedBlockToFullBlock tinyEnv farmed (farmedUnfinished r) farmedInfusion (some farmedNext)).map
        (·.rewardChainBlock.isTransactionBlock)) = .ok true := by
    decide +kernel
  have hplaced : InfusionPlace farmed 150 (some farmedFirst) (some farmedNext) :=
    .after rfl (Nat.le_add_right 100 50) (.step .refl rfl rfl (Nat.lt_add_of_pos_right (Nat.succ_pos 9)))
  rcases hc : createFoliage tinyEnv farmed farmedInput (some farmedFirst) with e | r
  · rw [hc] at hrun
    cases hrun
  · rw [hc,Except.bind] at hrun
    rcases hu : unfinishedBlockToFullBlock tinyEnv farmed (farmedUnfinished r) farmedInfusion (some farmedNext)
      with e | full
    · rw [hu] at hrun
      cases hrun
    · rw [hu] at hrun
      exact ⟨full,Except.ok.inj hrun,createdBlock_required (fun _ _ _ => rfl) tinyEnv_halvesDiffer farmed_chainView
        hc hplaced rfl hu⟩

end Agreement

end RoseChain
