import Mathlib.Data.List.Chain
import Mathlib.Data.List.TakeWhile
import RoseChain.Wallet.PoolWallet

namespace RoseChain
open Lib
variable {E : Env} {P : PoolPrograms} {walletId : ℕ}

variable {spend : CoinSpend} {c : Coin}

theorem additions_parent {l : List Coin} (h : spend.additions E P = .ok l) (hc : c∈l) :
    c.parentCoinInfo=E.coinName spend.coin := by
  unfold CoinSpend.additions at h
  cases hrun : (P.run spend.puzzleReveal spend.solution).bind parseSexpToConditions with
  | none =>
    rw [hrun] at h
    obtain rfl := Except.ok.inj h
    exact absurd hc List.not_mem_nil
  | some conditions =>
    rw [hrun] at h
    have hall := mapM_eq_ok.mp h
    obtain ⟨i,hi,rfl⟩ := List.mem_iff_getElem.mp hc
    have hget := hall.get (hall.length_eq ▸ hi) hi
    simp only [List.get_eq_getElem,bind_ok] at hget
    obtain ⟨puzzleHash,-,amountBin,-,amount,-,hcoin⟩ := hget
    rw [← Except.ok.inj hcoin]

variable (E P) in
/-- The next spend is of the coin that the singleton goes on with. -/
def Continues (spend next : CoinSpend) : Prop := getMostRecentSingletonCoinFromCoinSpend E P spend = .ok (some next.coin)

theorem mostRecent_parent (h : getMostRecentSingletonCoinFromCoinSpend E P spend = .ok (some c)) :
    c.parentCoinInfo=E.coinName spend.coin ∧ c.amount % 2=1 := by
  obtain ⟨l,hl,hfind⟩ := bind_ok.mp h
  have hfind := Except.ok.inj hfind
  have hodd := List.find?_some hfind
  exact ⟨additions_parent hl (List.mem_of_find?_eq_some hfind),of_decide_eq_true hodd⟩

variable (E P) in
/-- The longest chain of spends of a block from a tip. -/
inductive Follows (spends : List CoinSpend) : CoinSpend → List CoinSpend → Prop
  | stop {tip : CoinSpend} : (∀ s∈spends,¬ Continues E P tip s) → Follows spends tip []
  | step {tip s : CoinSpend} {more : List CoinSpend} : s∈spends → Continues E P tip s → Follows spends s more →
    Follows spends tip (s::more)

/-- The spends of a block, and its height. -/
abbrev SpentBlock := ℕ × List CoinSpend

variable (E P) in
/-- The launcher spend, and block after block what continues it. -/
inductive PoolReplays (launcher : Transition) : List SpentBlock → List Transition → Prop
  | launcher : PoolReplays launcher [] [launcher]
  | block {blocks : List SpentBlock} {hist : List Transition} {tip : Transition} {b : SpentBlock}
    {more : List CoinSpend} : PoolReplays launcher blocks hist → hist.getLast?=some tip → Follows E P b.2 tip.2 more →
    PoolReplays launcher (blocks++[b]) (hist++more.map fun s => (b.1,s))

variable (E P) in
/-- The spends of the singleton, among the spends that occur. -/
inductive IsSingleton (occurs : CoinSpend → Prop) (launcher : CoinSpend) : CoinSpend → Prop
  | launcher : IsSingleton occurs launcher launcher
  | next {p s : CoinSpend} : IsSingleton occurs launcher p → occurs s → Continues E P p s → IsSingleton occurs launcher s

namespace WalletPoolStore

/-- The cache and the rows of the wallet, with contiguous indices. -/
structure Stored (walletId : ℕ) (s : WalletPoolStore) (hist : List Transition) : Prop where
  cache : s.stateTransitionsCache.get? walletId=some hist
  rows : ∀ i,s.poolStateTransitions.get? (i,walletId)=hist[i]?

variable {s : WalletPoolStore} {hist : List Transition}

section
variable (h : Stored walletId s hist)
include h

theorem Stored.spends : s.getSpendsForWallet walletId=hist := by
  rw [getSpendsForWallet,h.cache,Option.getD_some]

theorem Stored.append (entry : Transition) :
    Stored walletId (s.append walletId entry) (hist++[entry]) := by
  constructor
  · simp [WalletPoolStore.append,h.spends]
  · intro i
    simp only [WalletPoolStore.append,h.spends,Dict.get?_set,Prod.mk.injEq,and_true,h.rows]
    by_cases hi : hist.length=i
    · simp [hi]
    · rw [if_neg hi,List.getElem?_append]
      split_ifs with hlt
      · rfl
      · rw [List.getElem?_eq_none (by omega),List.getElem?_eq_none (by simp; omega)]

theorem Stored.addSpend {last : Transition} (hlast : hist.getLast?=some last)
    {spend : CoinSpend} {height : ℕ} (hnew : (height,spend)∉hist) (hheight : last.1≤height)
    (hparent : spend.coin.parentCoinInfo=E.coinName last.2.coin) :
    s.addSpend E walletId spend height = .ok (s.append walletId (height,spend)) := by
  have henter : s.enter walletId=s := by simp [enter,h.cache]
  have hup : raiseIf (height<last.1) = .ok () := raiseIf_eq_ok.mpr (by omega)
  have hextends : raiseIf (spend.coin.parentCoinInfo≠E.coinName last.2.coin) = .ok () :=
    raiseIf_eq_ok.mpr (not_not.mpr hparent)
  simp only [WalletPoolStore.addSpend,henter,h.spends,hnew,if_false,hlast]
  rw [bind_of_ok hup,bind_of_ok hextends]
  rfl

end

end WalletPoolStore

namespace PoolWallet
variable {occurs : CoinSpend → Prop} {launcher : Transition} {hist : List Transition} {tip : Transition}
  {blocks : List SpentBlock} {spends : List CoinSpend} {height : ℕ} {w : PoolWallet} {rank : Bytes32 → ℕ}

/-- What is relied on: coins have names of their own, which do not go round in a circle; every spend of the singleton
has a child of an odd amount, and a solution that can be read. -/
structure Proper (E : Env) (P : PoolPrograms) (occurs : CoinSpend → Prop) (launcher : CoinSpend) (rank : Bytes32 → ℕ) :
    Prop where
  names : ∀ s p c,occurs s → IsSingleton E P occurs launcher p →
    getMostRecentSingletonCoinFromCoinSpend E P p = .ok (some c) → E.coinName s.coin=E.coinName c → s.coin=c
  acyclic : ∀ s,occurs s → rank s.coin.parentCoinInfo < rank (E.coinName s.coin)
  child : ∀ s,IsSingleton E P occurs launcher s → ∃ c,getMostRecentSingletonCoinFromCoinSpend E P s = .ok (some c)
  readable : ∀ s,IsSingleton E P occurs launcher s → ∃ state,solutionToExtraData P s = .ok state

/-- A chain of spends from the launcher on. -/
structure Linked (E : Env) (P : PoolPrograms) (occurs : CoinSpend → Prop) (launcher : Transition) (rank : Bytes32 → ℕ)
    (hist : List Transition) : Prop where
  first : hist.head?=some launcher
  singletons : ∀ e∈hist,IsSingleton E P occurs launcher.2 e.2
  chain : hist.IsChain fun a b => Continues E P a.2 b.2
  heights : hist.Pairwise fun a b => a.1≤b.1
  ranks : hist.Pairwise fun a b => rank (E.coinName a.2.coin) < rank (E.coinName b.2.coin)

theorem pairwise_getLast {α : Type} {R : α → α → Prop} {l : List α} {a : α} (h : l.Pairwise R)
    (hlast : l.getLast?=some a) : ∀ x∈l,x=a ∨ R x a := by
  obtain ⟨l',rfl⟩ := List.getLast?_eq_some_iff.mp hlast
  intro x hx
  rcases List.mem_append.mp hx with hx | hx
  · exact Or.inr ((List.pairwise_append.mp h).2.2 x hx a (List.mem_singleton_self a))
  · exact Or.inl (List.mem_singleton.mp hx)

theorem Linked.start : Linked E P occurs launcher rank [launcher] := by
  refine ⟨rfl,?_,List.isChain_singleton _,List.pairwise_singleton _ _,List.pairwise_singleton _ _⟩
  simpa using IsSingleton.launcher

theorem Linked.extend (hp : Proper E P occurs launcher.2 rank) (h : Linked E P occurs launcher rank hist)
    (htip : hist.getLast?=some tip) {s : CoinSpend} (hs : occurs s) (hnext : Continues E P tip.2 s)
    (hheight : tip.1≤height) : Linked E P occurs launcher rank (hist++[(height,s)]) := by
  have htip' := h.singletons tip (List.mem_of_getLast? htip)
  have hrank : rank (E.coinName tip.2.coin) < rank (E.coinName s.coin) := by
    rw [← (mostRecent_parent hnext).1]
    exact hp.acyclic s hs
  have hne : hist≠[] := by
    rintro rfl
    cases htip
  refine ⟨?_,?_,?_,?_,?_⟩
  · rw [List.head?_append_of_ne_nil _ hne,h.first]
  · intro e he
    rcases List.mem_append.mp he with he | he
    · exact h.singletons e he
    · rw [List.mem_singleton.mp he]
      exact htip'.next hs hnext
  · apply h.chain.append (List.isChain_singleton _)
    intro a ha b hb
    rw [htip] at ha
    obtain rfl := Option.some.inj ha
    obtain rfl := Option.some.inj hb
    exact hnext
  · rw [List.pairwise_append]
    refine ⟨h.heights,List.pairwise_singleton _ _,fun a ha b hb => ?_⟩
    rw [List.mem_singleton.mp hb]
    rcases pairwise_getLast h.heights htip a ha with rfl | hle
    · exact hheight
    · exact hle.trans hheight
  · rw [List.pairwise_append]
    refine ⟨h.ranks,List.pairwise_singleton _ _,fun a ha b hb => ?_⟩
    rw [List.mem_singleton.mp hb]
    rcases pairwise_getLast h.ranks htip a ha with rfl | hlt
    · exact hrank
    · exact hlt.trans hrank

theorem Linked.new (h : Linked E P occurs launcher rank hist) (htip : hist.getLast?=some tip) {s : CoinSpend}
    (hrank : rank (E.coinName tip.2.coin) < rank (E.coinName s.coin)) : (height,s)∉hist := by
  intro hmem
  rcases pairwise_getLast h.ranks htip _ hmem with heq | hlt
  · rw [← heq] at hrank
    exact lt_irrefl _ hrank
  · exact lt_asymm hlt hrank

theorem coinNameToSpend_some {n : Bytes32} {s : CoinSpend} (h : (coinNameToSpend E spends).get? n=some s) :
    s∈spends ∧ E.coinName s.coin=n := by
  induction spends using List.reverseRecOn with
  | nil => cases h
  | append_singleton spends cs ih =>
    rw [coinNameToSpend,List.foldl_append,List.foldl_cons,List.foldl_nil,Dict.get?_set] at h
    split_ifs at h with hn
    · obtain rfl := Option.some.inj h
      exact ⟨by simp,hn⟩
    · obtain ⟨hmem,hname⟩ := ih h
      exact ⟨List.mem_append_left _ hmem,hname⟩

theorem coinNameToSpend_mem {s : CoinSpend} (h : s∈spends) :
    (coinNameToSpend E spends).get? (E.coinName s.coin)≠none := by
  induction spends using List.reverseRecOn with
  | nil => cases h
  | append_singleton spends cs ih =>
    rw [coinNameToSpend,List.foldl_append,List.foldl_cons,List.foldl_nil,Dict.get?_set]
    split_ifs with hn
    · simp
    · rcases List.mem_append.mp h with h | h
      · exact ih h
      · exact absurd (by rw [List.mem_singleton.mp h]) hn

variable {l : List Transition}

theorem resetTarget_ok (target : Option PoolState)
    (h : ∀ e∈l,∃ state,solutionToExtraData P e.2 = .ok state) : ∃ target',resetTarget P target l = .ok target' := by
  induction l with
  | nil => exact ⟨target,rfl⟩
  | cons e l ih =>
    obtain ⟨state,hstate⟩ := h e List.mem_cons_self
    unfold resetTarget
    rw [bind_of_ok hstate]
    cases state with
    | none => exact ih fun e' he' => h e' (List.mem_cons_of_mem _ he')
    | some state => exact ⟨_,rfl⟩

theorem size_erase_lt {K V : Type} [DecidableEq K] (d : Dict K V) {k : K} {v : V} (h : d.get? k=some v) :
    (d.erase k).size<d.size := by
  have hmem : k∈d.keys := (Dict.mem_keys d k).mpr ⟨v,h⟩
  have hpos := List.length_pos_of_mem hmem
  rw [Dict.size_eq_keys,Dict.size_eq_keys,Dict.keys_erase,List.length_erase_of_mem hmem]
  omega

/-- The loop follows the chain of the block to its end. What it takes out of the dictionary has a rank that the
tip has reached, so that nothing that continues the tip is missing. -/
theorem followTip_run (hp : Proper E P occurs launcher.2 rank) (hoccurs : ∀ s∈spends,occurs s) {n : ℕ}
    {left : Dict Bytes32 CoinSpend} (hl : Linked E P occurs launcher rank hist) (htip : hist.getLast?=some tip)
    (hheight : tip.1≤height) (hstored : w.store.Stored walletId hist)
    (hsub : ∀ name s,left.get? name=some s → (coinNameToSpend E spends).get? name=some s)
    (hleft : ∀ name,rank (E.coinName tip.2.coin) < rank name → left.get? name=(coinNameToSpend E spends).get? name)
    (hn : left.size<n) : ∃ more w',followTip E P walletId height n left tip.2 w = .ok w' ∧
      Follows E P spends tip.2 more ∧ Linked E P occurs launcher rank (hist++more.map fun s => (height,s)) ∧
      w'.store.Stored walletId (hist++more.map fun s => (height,s)) := by
  induction n generalizing left hist tip w with
  | zero => omega
  | succ n ih =>
    have hsingle := hl.singletons tip (List.mem_of_getLast? htip)
    obtain ⟨c,hc⟩ := hp.child tip.2 hsingle
    have hsome : assertSome (some c) = .ok c := rfl
    unfold followTip
    rw [bind_of_ok hc,bind_of_ok hsome]
    cases hget : left.get? (E.coinName c) with
    | none =>
      refine ⟨[],w,rfl,.stop fun s hs hnext => ?_,by simpa using hl,by simpa using hstored⟩
      obtain rfl : c=s.coin := Option.some.inj (Except.ok.inj (hc.symm.trans hnext))
      have hrank := hp.acyclic s (hoccurs s hs)
      rw [(mostRecent_parent hc).1] at hrank
      exact coinNameToSpend_mem hs ((hleft _ hrank).symm.trans hget)
    | some s =>
      obtain ⟨hs,hname⟩ := coinNameToSpend_some (hsub _ s hget)
      have hcoin : s.coin=c := hp.names s tip.2 c (hoccurs s hs) hsingle hc hname
      have hnext : Continues E P tip.2 s := by rw [Continues,hc,hcoin]
      have hparent : s.coin.parentCoinInfo=E.coinName tip.2.coin := (mostRecent_parent hnext).1
      have hrank := hp.acyclic s (hoccurs s hs)
      rw [hparent] at hrank
      have hadd := hstored.addSpend htip (hl.new htip hrank) hheight hparent
      have hl' := hl.extend hp htip (hoccurs s hs) hnext hheight
      have hstored' := hstored.append (height,s)
      have htip' : (hist++[(height,s)]).getLast?=some (height,s) := by simp
      obtain ⟨target,htarget⟩ := resetTarget_ok (P := P) w.targetState fun e he =>
        hp.readable e.2 (hl'.singletons e (List.mem_reverse.mp he))
      let next : PoolWallet := { store := w.store.append walletId (height,s),targetState := target }
      have hkept : next.store.Stored walletId (hist++[(height,s)]) := hstored'
      have hsub' (name : Bytes32) (s' : CoinSpend) (h : (left.erase (E.coinName c)).get? name=some s') :
          (coinNameToSpend E spends).get? name=some s' := by
        rw [Dict.get?_erase] at h
        split_ifs at h
        exact hsub name s' h
      have hleft' (name : Bytes32) (h : rank (E.coinName s.coin) < rank name) :
          (left.erase (E.coinName c)).get? name=(coinNameToSpend E spends).get? name := by
        have hne : E.coinName c≠name := by
          rintro rfl
          rw [hname] at h
          exact lt_irrefl _ h
        rw [Dict.get?_erase,if_neg hne,hleft name (hrank.trans h)]
      have hsize := size_erase_lt left hget
      obtain ⟨more,w',hrun,hfollows,hlinked,hkept'⟩ :=
        ih hl' htip' le_rfl hkept hsub' hleft' (by omega)
      refine ⟨s::more,w',?_,.step hs hnext hfollows,?_,?_⟩
      · dsimp only
        rw [bind_of_ok hadd]
        have hindex : index (some (height,s)) = .ok (height,s) := rfl
        simp only [getTip,history,hstored'.spends,htip']
        rw [bind_of_ok hindex,bind_of_ok htarget]
        exact hrun
      · rw [List.append_assoc] at hlinked
        exact hlinked
      · rw [List.append_assoc] at hkept'
        exact hkept'

/-- What the launcher spend tells about the pool. -/
structure Launched (P : PoolPrograms) (launcher : CoinSpend) : Prop where
  state : ∃ state,solutionToExtraData P launcher = .ok (some state)
  delayed : ∃ delayed,getDelayedPuzInfoFromLauncherSpend P launcher = .ok delayed

theorem lastAnnounced_ok (h : ∀ e∈l,∃ state,solutionToExtraData P e.2 = .ok state)
    (hsome : ∃ e∈l,∃ state,solutionToExtraData P e.2 = .ok (some state)) :
    ∃ answer,lastAnnounced P l = .ok answer := by
  induction l with
  | nil =>
    obtain ⟨e,he,-⟩ := hsome
    cases he
  | cons e l ih =>
    obtain ⟨state,hstate⟩ := h e List.mem_cons_self
    unfold lastAnnounced
    rw [bind_of_ok hstate]
    cases state with
    | some state => exact ⟨_,rfl⟩
    | none =>
      apply ih fun e' he' => h e' (List.mem_cons_of_mem _ he')
      obtain ⟨e',he',state,hsome⟩ := hsome
      rcases List.mem_cons.mp he' with rfl | he'
      · rw [hstate] at hsome
        cases hsome
      · exact ⟨e',he',state,hsome⟩

section
variable (hp : Proper E P occurs launcher.2 rank)
include hp

section
variable (hlaunched : Launched P launcher.2)
include hlaunched

theorem getCurrentState_ok
    (hl : Linked E P occurs launcher rank hist) (hstored : w.store.Stored walletId hist) :
    ∃ info,getCurrentState E P walletId w = .ok info := by
  have hne : hist≠[] := by
    rintro rfl
    cases hl.first
  obtain ⟨tip,htip⟩ : ∃ tip,hist.getLast?=some tip := ⟨_,List.getLast?_eq_some_getLast hne⟩
  obtain ⟨delayed,hdelayed⟩ := hlaunched.delayed
  obtain ⟨c,hc⟩ := hp.child tip.2 (hl.singletons tip (List.mem_of_getLast? htip))
  obtain ⟨announced,hannounced⟩ := lastAnnounced_ok (P := P) (l := hist.reverse)
    (fun e he => hp.readable e.2 (hl.singletons e (List.mem_reverse.mp he)))
    ⟨launcher,List.mem_reverse.mpr (List.mem_of_head? hl.first),hlaunched.state⟩
  have hlauncher : assertSome (some launcher) = .ok launcher := rfl
  have htipok : index (some tip) = .ok tip := rfl
  have hcok : assertSome (some c) = .ok c := rfl
  simp only [getCurrentState,getTip,history,hstored.spends,hl.first,htip]
  rw [bind_of_ok hlauncher,bind_of_ok hdelayed,bind_of_ok htipok,bind_of_ok hc,bind_of_ok hcok,
    bind_of_ok hannounced]
  exact ⟨_,rfl⟩

theorem updatePoolConfig_ok
    (hl : Linked E P occurs launcher rank hist) (hstored : w.store.Stored walletId hist) :
    updatePoolConfig E P walletId w = .ok () := by
  obtain ⟨info,hinfo⟩ := getCurrentState_ok hp hlaunched hl hstored
  unfold updatePoolConfig
  rw [bind_of_ok hinfo]
  rfl

theorem applyStateTransitions_run
    (hoccurs : ∀ s∈spends,occurs s) (hl : Linked E P occurs launcher rank hist) (htip : hist.getLast?=some tip)
    (hheight : tip.1≤height) (hstored : w.store.Stored walletId hist) :
    ∃ more w',applyStateTransitions E P walletId spends height w = .ok w' ∧ Follows E P spends tip.2 more ∧
      Linked E P occurs launcher rank (hist++more.map fun s => (height,s)) ∧
      w'.store.Stored walletId (hist++more.map fun s => (height,s)) := by
  obtain ⟨more,w',hrun,hfollows,hlinked,hkept⟩ := followTip_run hp hoccurs hl htip hheight hstored
    (fun _ _ h => h) (fun _ _ => rfl) (Nat.lt_succ_self (coinNameToSpend E spends).size)
  refine ⟨more,w',?_,hfollows,hlinked,hkept⟩
  have htipok : index (some tip) = .ok tip := rfl
  have hassert : assertThat (height ≥ tip.1) = .ok () := assertThat_eq_ok.mpr hheight
  simp only [applyStateTransitions,getTip,history,hstored.spends,htip]
  rw [bind_of_ok htipok,bind_of_ok hassert,bind_of_ok hrun,
    bind_of_ok (updatePoolConfig_ok hp hlaunched hlinked hkept)]
  rfl

theorem applyStateTransitions_same
    (hoccurs : ∀ s∈spends,occurs s) (hl : Linked E P occurs launcher rank hist) (htip : hist.getLast?=some tip)
    (hheight : tip.1≤height) (hstored : w.store.Stored walletId hist)
    (hstop : ∀ s∈spends,¬ Continues E P tip.2 s) : applyStateTransitions E P walletId spends height w = .ok w := by
  have hsingle := hl.singletons tip (List.mem_of_getLast? htip)
  obtain ⟨c,hc⟩ := hp.child tip.2 hsingle
  have hnone : (coinNameToSpend E spends).get? (E.coinName c)=none := by
    rw [Option.eq_none_iff_forall_ne_some]
    intro s hget
    obtain ⟨hs,hname⟩ := coinNameToSpend_some hget
    have hcoin := hp.names s tip.2 c (hoccurs s hs) hsingle hc hname
    exact hstop s hs (by rw [Continues,hc,hcoin])
  have hsome : assertSome (some c) = .ok c := rfl
  have hfollow : followTip E P walletId height ((coinNameToSpend E spends).size+1) (coinNameToSpend E spends)
      tip.2 w = .ok w := by
    unfold followTip
    rw [bind_of_ok hc,bind_of_ok hsome,hnone]
    rfl
  have htipok : index (some tip) = .ok tip := rfl
  have hassert : assertThat (height ≥ tip.1) = .ok () := assertThat_eq_ok.mpr hheight
  simp only [applyStateTransitions,getTip,history,hstored.spends,htip]
  rw [bind_of_ok htipok,bind_of_ok hassert,bind_of_ok hfollow,
    bind_of_ok (updatePoolConfig_ok hp hlaunched hl hstored)]
  rfl

end

end

section Rewind
variable {h : ℤ}

/-- Heights that a rewind keeps. -/
abbrev Kept (h : ℤ) (e : Transition) : Bool := decide ((e.1 : ℤ)≤h)

theorem takeWhile_getElem? (hs : hist.Pairwise fun a b => a.1≤b.1) (i : ℕ) :
    (hist.takeWhile (Kept h))[i]?=hist[i]?.filter (Kept h) := by
  induction hist generalizing i with
  | nil => simp
  | cons a l ih =>
    obtain ⟨hle,hs⟩ := List.pairwise_cons.mp hs
    rw [List.takeWhile_cons]
    by_cases ha : Kept h a=true
    · rw [if_pos ha]
      cases i with
      | zero => simp [Option.filter,ha]
      | succ i => simpa using ih hs i
    · rw [if_neg ha]
      cases i with
      | zero => simp [Option.filter,ha]
      | succ i =>
        rw [List.getElem?_nil,List.getElem?_cons_succ]
        cases hget : l[i]? with
        | none => rfl
        | some b =>
          have hab := hle b (List.mem_of_getElem? hget)
          simp only [Kept,decide_eq_true_eq] at ha
          simp only [Option.filter,Kept,decide_eq_true_eq]
          rw [if_neg (by omega)]

theorem stored_rollback (hs : hist.Pairwise fun a b => a.1≤b.1) (hstored : w.store.Stored walletId hist) :
    (w.store.rollback h walletId).Stored walletId (hist.takeWhile (Kept h)) := by
  constructor
  · simp only [WalletPoolStore.rollback,Dict.get?_mapVals,hstored.cache,Option.map_some,if_true]
  · intro i
    rw [takeWhile_getElem? hs,← hstored.rows i]
    simp only [WalletPoolStore.rollback,Dict.get?_filter]
    apply congrArg fun p => Option.filter p (w.store.poolStateTransitions.get? (i,walletId))
    funext row
    by_cases hrow : (row.1 : ℤ)≤h
    · simp [Kept,hrow]
    · simp [Kept,hrow,not_le.mp hrow]

theorem linked_rollback (hl : Linked E P occurs launcher rank hist) (hlow : (launcher.1 : ℤ)≤h) :
    Linked E P occurs launcher rank (hist.takeWhile (Kept h)) := by
  have hprefix := List.takeWhile_prefix (l := hist) (Kept h)
  have hsub := hprefix.sublist
  refine ⟨?_,fun e he => hl.singletons e (hsub.subset he), hl.chain.prefix hprefix,hl.heights.sublist hsub,
    hl.ranks.sublist hsub⟩
  cases hist with
  | nil => cases hl.first
  | cons a l =>
    obtain rfl := Option.some.inj hl.first
    rw [List.takeWhile_cons,if_pos (by simpa [Kept] using hlow)]
    rfl

theorem replays_height (hr : PoolReplays E P launcher blocks hist) {e : Transition} (he : e∈hist) :
    e.1=launcher.1 ∨ ∃ b∈blocks,e.1=b.1 := by
  induction hr with
  | launcher => exact Or.inl (by rw [List.mem_singleton.mp he])
  | block _ _ _ ih =>
    rcases List.mem_append.mp he with he | he
    · apply (ih he).imp_right
      rintro ⟨b,hb,heq⟩
      exact ⟨b,List.mem_append_left _ hb,heq⟩
    · obtain ⟨s,-,rfl⟩ := List.mem_map.mp he
      exact Or.inr ⟨_,List.mem_append_right _ (List.mem_singleton_self _),rfl⟩

theorem replays_rollback (hr : PoolReplays E P launcher blocks hist) (hsorted : blocks.Pairwise fun a b => a.1≤b.1)
    (hlow : (launcher.1 : ℤ)≤h) :
    PoolReplays E P launcher (blocks.filter fun b => decide ((b.1 : ℤ)≤h)) (hist.takeWhile (Kept h)) := by
  induction hr with
  | launcher =>
    rw [List.filter_nil,List.takeWhile_cons,if_pos (by simpa [Kept] using hlow)]
    exact .launcher
  | @block blocks hist tip b more hr htip hfollows ih =>
    obtain ⟨hsorted,-,hle⟩ := List.pairwise_append.mp hsorted
    by_cases hb : (b.1 : ℤ)≤h
    · have hblocks (b' : SpentBlock) (hb' : b'∈blocks) : (b'.1 : ℤ)≤h := by
        have := hle b' hb' b (List.mem_singleton_self b)
        omega
      have hfilter : (blocks++[b]).filter (fun b => decide ((b.1 : ℤ)≤h))=blocks++[b] := by
        rw [List.filter_eq_self]
        intro b' hb'
        rcases List.mem_append.mp hb' with hb' | hb'
        · exact decide_eq_true (hblocks b' hb')
        · exact decide_eq_true (by rwa [List.mem_singleton.mp hb'])
      have htake : (hist++more.map fun s => (b.1,s)).takeWhile (Kept h)=hist++more.map fun s => (b.1,s) := by
        rw [List.takeWhile_eq_self_iff]
        intro e he
        rcases List.mem_append.mp he with he | he
        · apply decide_eq_true
          rcases replays_height hr he with heq | ⟨b',hb',heq⟩
          · rwa [heq]
          · rw [heq]
            exact hblocks b' hb'
        · obtain ⟨s,-,rfl⟩ := List.mem_map.mp he
          exact decide_eq_true hb
      rw [hfilter,htake]
      exact .block hr htip hfollows
    · have hfilter : (blocks++[b]).filter (fun b => decide ((b.1 : ℤ)≤h)) =
          blocks.filter fun b => decide ((b.1 : ℤ)≤h) := by simp [List.filter_append,hb]
      have hnone : (more.map fun s => (b.1,s)).takeWhile (Kept h)=[] := by
        cases more <;> simp [Kept,hb]
      have htake : (hist++more.map fun s => (b.1,s)).takeWhile (Kept h)=hist.takeWhile (Kept h) := by
        rw [List.takeWhile_append,hnone,List.append_nil]
        split_ifs with hlen
        · exact ((List.takeWhile_prefix _).eq_of_length hlen).symm
        · rfl
      rw [hfilter,htake]
      exact ih hsorted

/-- Rewinding to the launcher or above it never raises, and keeps the wallet. -/
theorem tryRewind_run (hp : Proper E P occurs launcher.2 rank) (hlaunched : Launched P launcher.2)
    (hl : Linked E P occurs launcher rank hist) (hstored : w.store.Stored walletId hist)
    (hlow : (launcher.1 : ℤ)≤h) :
    tryRewind E P walletId h w = .ok (false,{ w with store := w.store.rollback h walletId }) := by
  let w' : PoolWallet := { w with store := w.store.rollback h walletId }
  have hl' := linked_rollback hl hlow
  have hstored' : w'.store.Stored walletId (hist.takeWhile (Kept h)) := stored_rollback hl.heights hstored
  obtain ⟨info,hinfo⟩ := getCurrentState_ok hp hlaunched hl hstored
  obtain ⟨info',hinfo'⟩ := getCurrentState_ok hp hlaunched hl' hstored'
  have hconfig := updatePoolConfig_ok hp hlaunched hl' hstored'
  have hkeep : ¬ ((some launcher).any fun e : Transition => decide ((e.1 : ℤ) > h))=true := by simpa using hlow
  simp only [tryRewind,history,hstored.spends,hl.first]
  rw [bind_of_ok hinfo,if_neg hkeep,bind_of_ok hinfo']
  split_ifs
  · rw [bind_of_ok hconfig]
    rfl
  · rfl

end Rewind

/-- The blocks so far that no rewind has dropped, and the wallet; heights do not go down. -/
inductive Ran (E : Env) (P : PoolPrograms) (walletId : ℕ) (occurs : CoinSpend → Prop) (launcher : Transition) :
    List SpentBlock → PoolWallet → Prop
  | create {launcherCoinId : Bytes32} {spends : List CoinSpend} {store : WalletPoolStore} {w : PoolWallet} :
    store.getSpendsForWallet walletId=[] → (∀ i,store.poolStateTransitions.get? (i,walletId)=none) →
    spends.reverse.find? (fun s => decide (E.coinName s.coin=launcherCoinId))=some launcher.2 →
    create E P walletId launcherCoinId spends launcher.1 store = .ok w → Ran E P walletId occurs launcher [] w
  | apply {blocks : List SpentBlock} {w w' : PoolWallet} {b : SpentBlock} : Ran E P walletId occurs launcher blocks w →
    (∀ s∈b.2,occurs s) → launcher.1≤b.1 → (∀ b'∈blocks,b'.1≤b.1) →
    applyStateTransitions E P walletId b.2 b.1 w = .ok w' → Ran E P walletId occurs launcher (blocks++[b]) w'
  | rewind {blocks : List SpentBlock} {w : PoolWallet} {h : ℤ} : Ran E P walletId occurs launcher blocks w →
    (launcher.1 : ℤ)≤h →
    Ran E P walletId occurs launcher (blocks.filter fun b => decide ((b.1 : ℤ)≤h)) (rewind E P walletId h w).2

/-- What every step keeps. -/
structure Resting (E : Env) (P : PoolPrograms) (walletId : ℕ) (occurs : CoinSpend → Prop) (launcher : Transition)
    (rank : Bytes32 → ℕ) (blocks : List SpentBlock) (w : PoolWallet) (hist : List Transition) : Prop where
  stored : w.store.Stored walletId hist
  linked : Linked E P occurs launcher rank hist
  replays : PoolReplays E P launcher blocks hist
  sorted : blocks.Pairwise fun a b => a.1≤b.1
  low : ∀ b∈blocks,launcher.1≤b.1
  occurring : ∀ b∈blocks,∀ s∈b.2,occurs s
  launched : Launched P launcher.2

theorem Resting.exists_tip (h : Resting E P walletId occurs launcher rank blocks w hist) :
    ∃ tip,hist.getLast?=some tip ∧ (tip.1=launcher.1 ∨ ∃ b∈blocks,tip.1=b.1) := by
  have hne : hist≠[] := by
    rintro rfl
    cases h.linked.first
  exact ⟨_,List.getLast?_eq_some_getLast hne,replays_height h.replays (List.getLast_mem hne)⟩

theorem launched_of_config (hhist : w.history walletId=[launcher])
    (h : updatePoolConfig E P walletId w = .ok ()) : Launched P launcher.2 := by
  obtain ⟨info,hinfo,-⟩ := bind_ok.mp h
  simp only [getCurrentState,hhist] at hinfo
  obtain ⟨e,he,hinfo⟩ := bind_ok.mp hinfo
  obtain rfl := Except.ok.inj he
  obtain ⟨delayed,hdelayed,hinfo⟩ := bind_ok.mp hinfo
  obtain ⟨tip,-,hinfo⟩ := bind_ok.mp hinfo
  obtain ⟨coin,-,hinfo⟩ := bind_ok.mp hinfo
  obtain ⟨c,-,hinfo⟩ := bind_ok.mp hinfo
  obtain ⟨announced,hannounced,-⟩ := bind_ok.mp hinfo
  obtain ⟨state,hstate,hannounced⟩ := bind_ok.mp hannounced
  refine ⟨?_,delayed,hdelayed⟩
  cases state with
  | none => cases hannounced
  | some state => exact ⟨state,hstate⟩

theorem stored_create {store store' : WalletPoolStore} {entry : Transition} (hnone : store.getSpendsForWallet walletId=[])
    (hrows : ∀ i,store.poolStateTransitions.get? (i,walletId)=none)
    (h : store.addSpend E walletId entry.2 entry.1 = .ok store') : store'.Stored walletId [entry] := by
  have hentered : (store.enter walletId).getSpendsForWallet walletId=[] := by
    unfold WalletPoolStore.enter
    cases hget : store.stateTransitionsCache.get? walletId with
    | none => simp [WalletPoolStore.getSpendsForWallet]
    | some items => exact hnone
  have hsame : (store.enter walletId).poolStateTransitions=store.poolStateTransitions := by
    unfold WalletPoolStore.enter
    cases store.stateTransitionsCache.get? walletId <;> rfl
  simp only [WalletPoolStore.addSpend,hentered,List.not_mem_nil,if_false,List.getLast?_nil] at h
  obtain rfl := Except.ok.inj h
  constructor
  · simp [WalletPoolStore.append,hentered]
  · intro i
    simp only [WalletPoolStore.append,hentered,hsame,Dict.get?_set,Prod.mk.injEq,and_true,List.length_nil,hrows]
    cases i with
    | zero => rfl
    | succ i => simp

theorem Ran.resting (hp : Proper E P occurs launcher.2 rank) (h : Ran E P walletId occurs launcher blocks w) :
    ∃ hist,Resting E P walletId occurs launcher rank blocks w hist := by
  induction h with
  | @create launcherCoinId spends store w hnone hrows hfind hcreate =>
    have hsome : assertSome (some launcher.2) = .ok launcher.2 := rfl
    rw [PoolWallet.create,hfind,bind_of_ok hsome] at hcreate
    obtain ⟨store',hadd,hcreate⟩ := bind_ok.mp hcreate
    obtain ⟨u,hconfig,hw⟩ := bind_ok.mp hcreate
    obtain rfl := Except.ok.inj hw
    have hstored : store'.Stored walletId [launcher] := stored_create hnone hrows hadd
    let w₀ : PoolWallet := { store := store',targetState := none }
    have hhist : w₀.history walletId=[launcher] := hstored.spends
    exact ⟨[launcher],hstored,.start,.launcher,.nil,fun _ hb => absurd hb List.not_mem_nil,
      fun _ hb => absurd hb List.not_mem_nil,launched_of_config hhist hconfig⟩
  | @apply blocks w w' b _ hoccurs hlow hheight hrun ih =>
    obtain ⟨hist,hrest⟩ := ih
    obtain ⟨tip,htip,hfrom⟩ := hrest.exists_tip
    have hle : tip.1≤b.1 := by
      rcases hfrom with heq | ⟨b',hb',heq⟩
      · rwa [heq]
      · rw [heq]
        exact hheight b' hb'
    obtain ⟨more,w'',hrun',hfollows,hlinked,hkept⟩ :=
      applyStateTransitions_run hp hrest.launched hoccurs hrest.linked htip hle hrest.stored
    obtain rfl := Except.ok.inj (hrun'.symm.trans hrun)
    refine ⟨_,hkept,hlinked,.block hrest.replays htip hfollows,?_,?_,?_,hrest.launched⟩
    · rw [List.pairwise_append]
      refine ⟨hrest.sorted,List.pairwise_singleton _ _,fun a ha b' hb' => ?_⟩
      rw [List.mem_singleton.mp hb']
      exact hheight a ha
    · intro b' hb'
      rcases List.mem_append.mp hb' with hb' | hb'
      · exact hrest.low b' hb'
      · rwa [List.mem_singleton.mp hb']
    · intro b' hb'
      rcases List.mem_append.mp hb' with hb' | hb'
      · exact hrest.occurring b' hb'
      · rwa [List.mem_singleton.mp hb']
  | @rewind blocks w h _ hlow ih =>
    obtain ⟨hist,hrest⟩ := ih
    have hrun := tryRewind_run hp hrest.launched hrest.linked hrest.stored hlow
    refine ⟨hist.takeWhile (Kept h),?_,linked_rollback hrest.linked hlow,
      replays_rollback hrest.replays hrest.sorted hlow,hrest.sorted.filter _,
      fun b hb => hrest.low b (List.mem_filter.mp hb).1,fun b hb => hrest.occurring b (List.mem_filter.mp hb).1,
      hrest.launched⟩
    rw [PoolWallet.rewind,hrun]
    exact stored_rollback hrest.linked.heights hrest.stored

variable {from' : CoinSpend} {more : List CoinSpend}

theorem follows_end (h : Follows E P spends from' more) :
    ∀ s∈spends,¬ Continues E P (more.getLast?.getD from') s := by
  induction h with
  | stop hstop => exact hstop
  | @step tip s more _ _ _ ih => simpa [List.getLast?_cons] using ih

theorem replays_end {b : SpentBlock} (h : PoolReplays E P launcher (blocks++[b]) hist) (htip : hist.getLast?=some tip) :
    ∀ s∈b.2,¬ Continues E P tip.2 s := by
  generalize hall : blocks++[b]=all at h
  cases h with
  | launcher => simp at hall
  | @block blocks' hist' tip' b' more hr htip' hfollows =>
    obtain ⟨-,hb⟩ := List.append_inj' hall rfl
    obtain rfl := List.singleton_inj.mp hb
    have hend := follows_end hfollows
    rw [List.getLast?_append,htip',List.getLast?_map] at htip
    cases hlast : more.getLast? with
    | none =>
      rw [hlast] at htip hend
      obtain rfl := Option.some.inj htip
      exact hend
    | some last =>
      rw [hlast] at htip hend
      obtain rfl := Option.some.inj htip
      exact hend

theorem follows_unique (hspent : ∀ s∈spends,∀ s'∈spends,s.coin=s'.coin → s=s')
    {more' : List CoinSpend} (h : Follows E P spends from' more) (h' : Follows E P spends from' more') :
    more=more' := by
  induction h generalizing more' with
  | stop hstop =>
    cases h' with
    | stop => rfl
    | step hs hnext _ => exact absurd hnext (hstop _ hs)
  | step hs hnext _ ih =>
    cases h' with
    | stop hstop => exact absurd hnext (hstop _ hs)
    | step hs' hnext' hrest =>
      have hcoin := Option.some.inj (Except.ok.inj (hnext.symm.trans hnext'))
      obtain rfl := hspent _ hs _ hs' hcoin
      rw [ih hrest]

theorem replays_unique (hspent : ∀ b∈blocks,∀ s∈b.2,∀ s'∈b.2,s.coin=s'.coin → s=s') {hist' : List Transition}
    (h : PoolReplays E P launcher blocks hist) (h' : PoolReplays E P launcher blocks hist') : hist=hist' := by
  induction h generalizing hist' with
  | launcher =>
    generalize hnil : ([] : List SpentBlock)=none' at h'
    cases h' with
    | launcher => rfl
    | block _ _ _ => simp at hnil
  | @block blocks hist tip b more hr htip hfollows ih =>
    generalize hall : blocks++[b]=all at h'
    cases h' with
    | launcher => simp at hall
    | @block blocks' hist'' tip' b' more' hr' htip' hfollows' =>
      obtain ⟨rfl,hb⟩ := List.append_inj' hall rfl
      obtain rfl := List.singleton_inj.mp hb
      obtain rfl := ih (fun b hb => hspent b (List.mem_append_left _ hb)) hr'
      obtain rfl := Option.some.inj (htip.symm.trans htip')
      rw [follows_unique (hspent b (List.mem_append_right _ (List.mem_singleton_self b))) hfollows hfollows']

/-- The history of a pool wallet: a chain of spends, the same in the cache and in the database; what comes next
raises nothing, and the block at the top changes nothing when it comes again. -/
structure History (E : Env) (P : PoolPrograms) (walletId : ℕ) (occurs : CoinSpend → Prop) (launcher : Transition)
    (blocks : List SpentBlock) (w : PoolWallet) (hist : List Transition) : Prop where
  stored : w.store.Stored walletId hist
  replays : PoolReplays E P launcher blocks hist
  exact : (∀ b∈blocks,∀ s∈b.2,∀ s'∈b.2,s.coin=s'.coin → s=s') →
    ∀ hist',PoolReplays E P launcher blocks hist' → hist'=hist
  first : hist.head?=some launcher
  chain : hist.IsChain fun a b => Continues E P a.2 b.2 ∧ b.2.coin.parentCoinInfo=E.coinName a.2.coin ∧
    b.2.coin.amount % 2=1
  heights : hist.Pairwise fun a b => a.1≤b.1
  again : ∀ b∈blocks,(∀ b'∈blocks,b'.1<b.1 ∨ b'=b) → applyStateTransitions E P walletId b.2 b.1 w = .ok w
  applies : ∀ b : SpentBlock,(∀ s∈b.2,occurs s) → launcher.1≤b.1 → (∀ b'∈blocks,b'.1≤b.1) →
    ∃ w',applyStateTransitions E P walletId b.2 b.1 w = .ok w'
  rewinds : ∀ h : ℤ,(launcher.1 : ℤ)≤h → ∃ w',tryRewind E P walletId h w = .ok (false,w')

/-- Values as the CLVM writes them, without long atoms, with one atom of two length bytes allowed for. -/
def smallValue : ℕ → Bytes → Option (SExp × Bytes)
  | 0,_ => none
  | _+1,[] => none
  | n+1,x::b =>
    if x=255 then do
      let (first,b) ← smallValue n b
      let (rest,b) ← smallValue n b
      return (.pair first rest,b)
    else if x<128 then some (.atom [x],b)
    else if x<192 then some (.atom (b.take (x.toNat-128)),b.drop (x.toNat-128))
    else some (.atom (b.tail.take ((b.headD 0).toNat)),b.tail.drop ((b.headD 0).toNat))

/-- A CLVM that reads small values and runs quoted puzzles only; pool states are read without an address. -/
def quotingPrograms : PoolPrograms where
  fromBytes b :=
    match smallValue (b.length+1) b with
    | some (value,[]) => .ok value
    | _ => .error (.raised .value)
  run puzzleReveal _ :=
    match smallValue (puzzleReveal.length+1) puzzleReveal with
    | some (.pair (.atom [1]) value,[]) => some value
    | _ => none
  poolStateFromBytes b :=
    if b.length=87 then .ok ⟨(b.headD 0).toNat,(b.tail.headD 0).toNat,toBytes32 ((b.drop 2).take 32),
      (b.drop 34).take 48,none,natOfBytes (b.drop 83)⟩
    else .error (.raised .assertion)
  launcherIdToP2PuzzleHash launcherId _ _ := launcherId
  poolStateToInnerPuzzle _ _ _ _ _ := .atom []
  singletonLauncherHash := 77

def quotedChild (puzzleHash : Bytes32) : SerializedProgram :=
  [255,1,255,255,51,255,160]++bytes32 puzzleHash++[255,1,128,128]

/-- `(() () ((p state) (t ()) (h hash)))`, of a pool wallet that farms for itself. -/
def launcherSolution : SerializedProgram :=
  [255,128,255,128,255,255,255,112,255,192,87]++[1,1]++bytes32 5++List.replicate 48 7++[0,0,0,0,0] ++
    [128,255,255,116,255,128,128,255,255,104,255,160]++bytes32 6++[128,128,128]

def launcherSpend : CoinSpend := ⟨⟨1,77,1⟩,quotedChild 8,launcherSolution⟩

/-- The spend of the launcher's child, with some arguments to the inner puzzle: `(() () (() 1 …))`. -/
def memberSpend (arguments : SerializedProgram) : CoinSpend :=
  ⟨⟨tinyEnv.coinName launcherSpend.coin,8,1⟩,quotedChild 8,[255,128,255,128,255,255,128,255,1]++arguments++[128]⟩

def launchedWallet : PoolWallet := ⟨WalletPoolStore.append 3 (10,launcherSpend) ⟨Dict.empty,Dict.empty⟩,none⟩

example : updatePoolConfig tinyEnv quotingPrograms 3 launchedWallet = .ok () := by decide +kernel

theorem launchedWallet_ran (occurs : CoinSpend → Prop) :
    Ran tinyEnv quotingPrograms 3 occurs (10,launcherSpend) [] launchedWallet := by
  have hfind : [launcherSpend].reverse.find? (fun s => decide (tinyEnv.coinName s.coin =
      tinyEnv.coinName launcherSpend.coin))=some launcherSpend := by decide +kernel
  have hadd : WalletPoolStore.addSpend tinyEnv 3 launcherSpend 10 ⟨Dict.empty,Dict.empty⟩ = .ok launchedWallet.store := rfl
  have hconfig : updatePoolConfig tinyEnv quotingPrograms 3 launchedWallet = .ok () := by decide +kernel
  have hsome : assertSome (some launcherSpend) = .ok launcherSpend := rfl
  have hcreate : create tinyEnv quotingPrograms 3 (tinyEnv.coinName launcherSpend.coin) [launcherSpend] 10
      ⟨Dict.empty,Dict.empty⟩ = .ok launchedWallet := by
    unfold create
    rw [hfind,bind_of_ok hsome,bind_of_ok hadd]
    exact (bind_of_ok hconfig).trans rfl
  exact Ran.create rfl (fun _ => rfl) hfind hcreate

theorem singleton_member {arguments : SerializedProgram} {s : CoinSpend}
    (h : IsSingleton tinyEnv quotingPrograms (· = memberSpend arguments) launcherSpend s) :
    s=launcherSpend ∨ s=memberSpend arguments := by
  cases h with
  | launcher => exact Or.inl rfl
  | next _ hs _ => exact Or.inr hs

theorem mostRecent_spends :
    getMostRecentSingletonCoinFromCoinSpend tinyEnv quotingPrograms launcherSpend = .ok (some (memberSpend []).coin) ∧
    getMostRecentSingletonCoinFromCoinSpend tinyEnv quotingPrograms (memberSpend []) =
      .ok (some ⟨tinyEnv.coinName (memberSpend []).coin,8,1⟩) := by decide +kernel

theorem mostRecent_member (arguments : SerializedProgram) :
    getMostRecentSingletonCoinFromCoinSpend tinyEnv quotingPrograms (memberSpend arguments) =
      .ok (some ⟨tinyEnv.coinName (memberSpend []).coin,8,1⟩) := by
  have hsame : getMostRecentSingletonCoinFromCoinSpend tinyEnv quotingPrograms (memberSpend arguments) =
      getMostRecentSingletonCoinFromCoinSpend tinyEnv quotingPrograms (memberSpend []) := rfl
  rw [hsame]
  exact mostRecent_spends.2

theorem member_proper : Proper tinyEnv quotingPrograms (· = memberSpend [128]) launcherSpend BitVec.toNat where
  names := by
    rintro s p c rfl hp hc hname
    rcases singleton_member hp with rfl | rfl
    · rw [mostRecent_spends.1] at hc
      exact Option.some.inj (Except.ok.inj hc)
    · rw [mostRecent_member] at hc
      obtain rfl := Option.some.inj (Except.ok.inj hc)
      exact absurd hname (by decide +kernel)
  acyclic := by
    rintro s rfl
    decide +kernel
  child := by
    intro s hs
    rcases singleton_member hs with rfl | rfl
    · exact ⟨_,mostRecent_spends.1⟩
    · exact ⟨_,mostRecent_member _⟩
  readable := by
    intro s hs
    rcases singleton_member hs with rfl | rfl
    · exact ⟨some ⟨1,1,5,List.replicate 48 7,none,0⟩,by decide +kernel⟩
    · exact ⟨none,by decide +kernel⟩

end PoolWallet

end RoseChain
