import RoseChain.Wallet.WalletChain

namespace RoseChain
open Lib WalletBlockchain
variable {E : Env} {s s' : WalletState} {P Q : List BlockRecord} {r p : BlockRecord}

theorem WalletKept.congr (h : WalletKept s) (hrec : s'.db.blockRecords=s.db.blockRecords)
    (hhead : s'.db.headerBlocks=s.db.headerBlocks)
    (hmem : ∀ k r,s'.chain.blockRecords.get? k=some r → s.chain.blockRecords.get? k=some r) :
    WalletKept s' := by
  have hforest : s'.forest=s.forest := by
    unfold WalletState.forest
    rw [hrec]
  refine ⟨?_,?_,?_,?_⟩
  · rw [hforest]
    exact h.key
  · rw [hforest,hhead]
    exact h.header
  · intro k r hr
    rw [hforest]
    exact h.memory k r (hmem k r hr)
  · rw [hforest]
    exact h.ancestors

theorem WalletMain.congr (h : WalletMain s P) (hrec : s'.db.blockRecords=s.db.blockRecords)
    (hheights : s'.chain.heightToHash=s.chain.heightToHash)
    (hpeak : s'.chain.peakHeight=s.chain.peakHeight) : WalletMain s' P := by
  have hforest : s'.forest=s.forest := by
    unfold WalletState.forest
    rw [hrec]
  refine ⟨hpeak.trans h.peakHeight,?_,?_⟩
  · rw [hforest]
    exact h.path
  · rw [hheights]
    exact h.heights

theorem WalletMain.height (h : WalletMain s P) {i : ℕ} (hr : P[i]?=some r) : r.height=i := by
  obtain ⟨hi,rfl⟩ := List.getElem?_eq_some_iff.mp hr
  obtain ⟨k,hpath⟩ := h.path (List.ne_nil_of_length_pos (by omega))
  exact hpath.height_getElem i hi

theorem filter_height {f : ℤ} {k : ℕ} (hf : f+1=k) (h : ∀ (i : ℕ) (r : BlockRecord),P[i]?=some r → r.height=i) :
    (P.filter fun r => decide ((r.height : ℤ)≤f))=P.take k := by
  have hbelow : (P.take k).filter (fun r => decide ((r.height : ℤ)≤f))=P.take k := by
    apply List.filter_eq_self.mpr
    intro r hr
    obtain ⟨i,hi,hget⟩ := List.mem_take_iff_getElem.mp hr
    have hh := h i r (List.getElem?_eq_some_iff.mpr ⟨by omega,hget⟩)
    rw [decide_eq_true_eq]
    omega
  have habove : (P.drop k).filter (fun r => decide ((r.height : ℤ)≤f))=[] := by
    apply List.filter_eq_nil_iff.mpr
    intro r hr
    obtain ⟨i,hi,hget⟩ := List.mem_drop_iff_getElem.mp hr
    have hh := h (k+i) r (List.getElem?_eq_some_iff.mpr ⟨by omega,hget⟩)
    rw [decide_eq_true_eq]
    omega
  calc
    _=(P.take k++P.drop k).filter fun r => decide ((r.height : ℤ)≤f) := by rw [List.take_append_drop]
    _=P.take k := by rw [List.filter_append,hbelow,habove,List.append_nil]

namespace WalletBlockchain

variable {f : ℤ}

theorem blocksToAdd_succ (hk : WalletKept s) (newHash : Bytes32) {curr : Bytes32} (spends : List CoinSpend)
    (hr : s.forest.find curr=some r) {a : Bool} (ha : Blockchain.atFork s.chain.view f curr = .ok a) (n : ℕ) :
    ∃ block spends',block.header.height=r.height ∧ blocksToAdd s f newHash spends (n+1) curr =
      if a then .ok []
      else if r.height=0 then .ok [(block,r,spends')]
      else do return (block,r,spends')::(← blocksToAdd s f newHash spends n r.prevHash) := by
  obtain ⟨block,hblock,hheight⟩ := hk.header curr r hr
  rw [walletForest_find] at hr
  refine ⟨block,if curr=newHash then spends else (s.db.additionalCoinSpends.get? curr).getD [],hheight,?_⟩
  rw [blocksToAdd,ha]
  cases a with
  | true => rfl
  | false =>
    rw [hblock,hr,← hheight]
    rfl

variable {k : ℕ}

variable {l : List BlockRecord}

theorem blocksToAdd_ok (hk : WalletKept s) (newHash : Bytes32) {tip : Bytes32} (spends : List CoinSpend)
    (hp : s.forest.Path tip l) {n : ℕ} (hf : f+1=k) (hkl : k≤l.length)
    (hat : ∀ i r,l[i]?=some r → i+1=k → s.chain.heightToHash.get? i=some r.headerHash) (hn : l.length<n) :
    ∃ L,blocksToAdd s f newHash spends n tip = .ok L ∧ L.map (·.2.1)=(l.drop k).reverse := by
  induction l using List.reverseRecOn generalizing tip n with
  | nil => exact absurd rfl hp.ne_nil
  | append_singleton m r ih =>
    obtain ⟨r',m',hr,hlist,htop⟩ := Forest.path_iff.mp hp
    obtain ⟨hm,hlast⟩ := List.append_inj' hlist rfl
    obtain rfl : r=r' := by simpa using hlast
    subst hm
    obtain ⟨n,rfl⟩ := Nat.exists_eq_succ_of_ne_zero (Nat.ne_of_gt (Nat.zero_lt_of_lt hn))
    simp only [List.length_append,List.length_singleton] at hkl hn
    have hkey : r.headerHash=tip := hk.key tip r hr
    have hh : r.height=m.length := htop.1
    rcases Nat.lt_or_ge m.length k with hlt | hge
    · -- the fork is at this block, and the walk ends
      have hidx := hat m.length r List.getElem?_concat_length (by omega)
      have hfork := Blockchain.atFork_eq (V := s.chain.view) (f := f) tip (h := r.headerHash) fun _ => by
        rw [show f.toNat=m.length by omega]
        exact hidx
      rw [hkey,decide_eq_true ⟨by omega,rfl⟩] at hfork
      obtain ⟨block,spends',-,hsucc⟩ := blocksToAdd_succ hk newHash spends hr hfork n
      refine ⟨[],hsucc,?_⟩
      rw [List.drop_of_length_le (by simp; omega)]
      rfl
    · -- the fork is further down
      have hfork : Blockchain.atFork s.chain.view f tip = .ok false := by
        rcases Nat.eq_zero_or_pos k with rfl | hpos
        · have hneg : f<0 := by omega
          simp [Blockchain.atFork,hneg]
        · obtain ⟨u,hu⟩ : ∃ u,m[k - 1]?=some u := ⟨_,List.getElem?_eq_getElem (by omega)⟩
          have hu' : (m++[r])[k-1]?=some u := by rwa [List.getElem?_append_left (by omega)]
          have hidx := hat (k-1) u hu' (by omega)
          have hne : ¬ tip=u.headerHash := by
            intro he
            obtain ⟨hi,hget⟩ := List.getElem?_eq_some_iff.mp hu'
            have hfind := hp.find_getElem hk.keyed (k-1) hi
            have hht := hp.height_getElem (k-1) hi
            rw [hget,walletForest_key,← he,hr] at hfind
            rw [hget,← Option.some.inj hfind,walletForest_height] at hht
            omega
          rw [Blockchain.atFork_eq tip (h := u.headerHash) fun _ => by
            rw [show f.toNat=k-1 by omega]
            exact hidx]
          simp [hne]
      obtain ⟨block,spends',-,hsucc⟩ := blocksToAdd_succ hk newHash spends hr hfork n
      rw [if_neg Bool.false_ne_true] at hsucc
      rw [List.drop_append_of_le_length hge,List.reverse_append,hsucc]
      by_cases hz : r.height=0
      · obtain rfl : m=[] := List.eq_nil_of_length_eq_zero (by omega)
        rw [if_pos hz]
        exact ⟨[(block,r,spends')],rfl,by simp⟩
      · rw [if_neg hz]
        have hpath := htop.path hz
        have hat' : ∀ i r,m[i]?=some r → i+1=k → s.chain.heightToHash.get? i=some r.headerHash := by
          intro i u hu hik
          have hi := (List.getElem?_eq_some_iff.mp hu).1
          apply hat i u ?_ hik
          rwa [List.getElem?_append_left hi]
        obtain ⟨L,hL,hmap⟩ := ih hpath hge hat' (n := n) (by omega)
        rw [walletForest_parent] at hL
        rw [hL]
        exact ⟨(block,r,spends')::L,rfl,by simp [hmap]⟩

/-- The state after records from a height up have been applied. -/
structure Applied (k : ℕ) (rs : List BlockRecord) (s s' : WalletState) : Prop where
  db : s'.db=s.db
  blockRecords : s'.chain.blockRecords=s.chain.blockRecords
  peakHeight : s'.chain.peakHeight=s.chain.peakHeight
  fed : fed s'.events=fed s.events++isTransactions rs
  below : ∀ i,i<k → s'.chain.heightToHash.get? i=s.chain.heightToHash.get? i
  above : ∀ i r,rs[i]?=some r → s'.chain.heightToHash.get? (k+i)=some r.headerHash

theorem applyBlock_run (b : HeaderBlockRecord × BlockRecord × List CoinSpend) (s : WalletState) :
    ∃ s',applyBlock b s=(.ok (),s') ∧ Applied b.2.1.height [b.2.1] s s' := by
  set record := b.2.1 with hrecord
  have habove (i : ℕ) (r : BlockRecord) (h : [record][i]?=some r) :
      (s.chain.heightToHash.set record.height record.headerHash).get? (record.height+i)=some r.headerHash := by
    obtain ⟨rfl,rfl⟩ : i=0 ∧ record=r := by
      cases i with
      | zero => exact ⟨rfl,by simpa using h⟩
      | succ i => simp at h
    rw [Nat.add_zero,Dict.get?_set,if_pos rfl]
  have hbelow (i : ℕ) (hi : i < record.height) :
      (s.chain.heightToHash.set record.height record.headerHash).get? i=s.chain.heightToHash.get? i := by
    rw [Dict.get?_set,if_neg (by omega)]
  set s₁ : WalletState := { s with
    chain := { s.chain with heightToHash := s.chain.heightToHash.set record.height record.headerHash } } with hs₁
  have hfirst : onChain (Eff.modify fun c =>
      { c with heightToHash := c.heightToHash.set record.height record.headerHash }) s=(.ok (),s₁) := rfl
  unfold applyBlock
  rw [Eff.bind_of_ok hfirst]
  by_cases ht : record.isTransactionBlock
  · rw [if_pos ht]
    refine ⟨_,rfl,rfl,rfl,rfl,?_,hbelow,habove⟩
    have hone : isTransactions [record]=[record] := List.filter_cons_of_pos ht
    rw [hone]
    exact fed_append s.events _
  · rw [if_neg ht]
    refine ⟨s₁,rfl,rfl,rfl,rfl,?_,hbelow,habove⟩
    have hnone : isTransactions [record]=[] := List.filter_cons_of_neg ht
    rw [hnone,List.append_nil]

theorem applyBlocks_run {L : List (HeaderBlockRecord × BlockRecord × List CoinSpend)}
    (hL : ∀ i r,(L.map (·.2.1))[i]?=some r → r.height=k+i) (s : WalletState) :
    ∃ s',L.forM applyBlock s=(.ok (),s') ∧ Applied k (L.map (·.2.1)) s s' := by
  induction L generalizing k s with
  | nil => exact ⟨s,rfl,rfl,rfl,rfl,by simp [isTransactions],fun _ _ => rfl,fun _ _ h => (by cases h)⟩
  | cons b L ih =>
    have hb : b.2.1.height=k := hL 0 b.2.1 rfl
    have hrest : ∀ i r,(L.map (·.2.1))[i]?=some r → r.height=k+1+i := by
      intro i r hr
      have h := hL (i+1) r hr
      omega
    obtain ⟨s₁,hrun₁,h₁⟩ := applyBlock_run b s
    obtain ⟨s₂,hrun₂,h₂⟩ := ih hrest s₁
    rw [hb] at h₁
    refine ⟨s₂,?_,h₂.db.trans h₁.db,h₂.blockRecords.trans h₁.blockRecords,
      h₂.peakHeight.trans h₁.peakHeight,?_,?_,?_⟩
    · rw [Eff.forM_cons_of_ok hrun₁]
      exact hrun₂
    · rw [h₂.fed,h₁.fed,List.append_assoc,← isTransactions_append]
      rfl
    · intro i hi
      rw [h₂.below i (by omega),h₁.below i hi]
    · intro i r hr
      cases i with
      | zero =>
        have h := h₁.above 0 r hr
        rw [Nat.add_zero] at h ⊢
        rw [h₂.below k (by omega),h]
      | succ i =>
        have h := h₂.above i r hr
        rwa [show k+1+i=k+(i+1) by omega] at h

/-- The wallet has been told of the transaction blocks of the main chain, in order. -/
structure WalletFed (s : WalletState) (P : List BlockRecord) : Prop where
  kept : WalletKept s
  main : WalletMain s P
  fed : fed s.events=isTransactions P

variable {peak : BlockRecord}

theorem rollbackToFork_run (h : WalletFed s P) (hf : f+1=k)
    (hplain : r.prevHash=peak.headerHash → isTransactions (P.drop k)=[]) :
    ∃ events,rollbackToFork r peak f s=(.ok (),{ s with events }) ∧
      RoseChain.fed events=isTransactions (P.take k) := by
  unfold rollbackToFork
  by_cases hne : r.prevHash≠peak.headerHash
  · refine ⟨s.events++[.reorgRollback f],?_,?_⟩
    · rw [if_pos hne]
      rfl
    · rw [fed_append,h.fed]
      have hcomm : WalletEvent.feed (isTransactions P) (.reorgRollback f) =
          isTransactions (P.filter fun r => decide ((r.height : ℤ)≤f)) := by
        show (P.filter _).filter _=(P.filter _).filter _
        rw [List.filter_comm]
      rw [hcomm,filter_height hf fun i r hr => h.main.height hr]
  · refine ⟨s.events,?_,?_⟩
    · rw [if_neg hne]
      rfl
    · have hsplit : isTransactions P=isTransactions (P.take k)++isTransactions (P.drop k) := by
        rw [← isTransactions_append,List.take_append_drop]
      rw [h.fed,hsplit,hplain (not_not.mp hne),List.append_nil]

theorem heavierPeak_run (h : WalletFed s P) (hp : s.forest.Path r.headerHash l)
    (hlen : r.height+1=l.length) (hf : f+1=k) (hkl : k≤l.length) (htake : P.take k=l.take k)
    (hplain : r.prevHash=peak.headerHash → isTransactions (P.drop k)=[]) (spends : List CoinSpend) :
    ∃ s' records,heavierPeak r peak f spends s =
      (.ok (if f<0 then none else some f.toNat,records),s') ∧ WalletFed s' l := by
  obtain ⟨events,hroll,hfed⟩ := rollbackToFork_run h hf hplain
  set s₁ : WalletState := { s with
    events,chain := { s.chain with
      subEpochSummaries := s.chain.subEpochSummaries.filter fun height _ => decide ((height : ℤ)≤f) } } with hs₁
  have hprune : onChain (Eff.modify fun c => { c with
      subEpochSummaries := c.subEpochSummaries.filter fun height _ => decide ((height : ℤ)≤f) })
      { s with events } = (.ok (),s₁) := rfl
  have hkept : WalletKept s₁ := h.kept.congr rfl rfl fun _ _ hr => hr
  have hindex : ∀ i r,l[i]?=some r → i+1=k → s₁.chain.heightToHash.get? i=some r.headerHash := by
    intro i u hu hik
    apply h.main.heights i u
    rw [← List.getElem?_take_of_lt (by omega : i<k),htake,List.getElem?_take_of_lt (by omega),hu]
  obtain ⟨L,hL,hmap⟩ := blocksToAdd_ok hkept r.headerHash spends hp hf hkl hindex
    (n := r.height+2) (by omega)
  have hmap' : L.reverse.map (·.2.1)=l.drop k := by
    rw [List.map_reverse,hmap,List.reverse_reverse]
  have hheight (i : ℕ) (u : BlockRecord) (hu : (L.reverse.map (·.2.1))[i]?=some u) : u.height=k+i := by
    rw [hmap',List.getElem?_drop] at hu
    obtain ⟨hi,rfl⟩ := List.getElem?_eq_some_iff.mp hu
    exact hp.height_getElem (k+i) hi
  obtain ⟨s₂,hrun,hs₂⟩ := applyBlocks_run hheight s₁
  have hlift : (Eff.lift (blocksToAdd s₁ f r.headerHash spends (r.height+2) r.headerHash) :
      WalletM _) s₁=(.ok L,s₁) := by
    rw [hL]
    rfl
  set s₃ : WalletState := { s₂ with
    db := { s₂.db with peak := some r.headerHash },chain := { s₂.chain with peakHeight := some r.height } } with hs₃
  refine ⟨s₃,L.reverse.map (·.2.1),?_,?_,?_,?_⟩
  · unfold heavierPeak
    rw [Eff.bind_of_ok hroll,Eff.bind_of_ok hprune,Eff.bind_get,Eff.bind_of_ok hlift,Eff.bind_of_ok hrun]
    rfl
  · refine hkept.congr ?_ ?_ ?_
    · rw [hs₃,hs₂.db]
    · rw [hs₃,hs₂.db]
    · intro k u hu
      rw [hs₃,hs₂.blockRecords] at hu
      exact hu
  · have hforest : s₃.forest=s.forest := by
      unfold WalletState.forest
      rw [hs₃,hs₂.db]
    refine ⟨?_,?_,?_⟩
    · rw [← hlen,if_neg (by omega),Nat.add_sub_cancel]
    · rw [hforest]
      exact fun _ => ⟨_,hp⟩
    · intro i u hu
      rcases Nat.lt_or_ge i k with hlt | hge
      · show s₂.chain.heightToHash.get? i=_
        rw [hs₂.below i hlt]
        apply h.main.heights i u
        rw [← List.getElem?_take_of_lt hlt,htake,List.getElem?_take_of_lt hlt,hu]
      · have habove := hs₂.above (i-k) u
        rw [hmap',List.getElem?_drop,Nat.add_sub_cancel' hge] at habove
        exact habove hu
  · show RoseChain.fed s₂.events=_
    rw [hs₂.fed,hmap']
    show RoseChain.fed events++_=_
    rw [hfed,htake,← isTransactions_append,List.take_append_drop]

/-- A call that fails has told the wallet of nothing, and has brought nothing new into memory. -/
structure Unfed (s s' : WalletState) : Prop where
  events : s'.events=s.events
  peakHeight : s'.chain.peakHeight=s.chain.peakHeight
  memory : ∀ h r,s'.chain.blockRecords.get? h=some r → s.chain.blockRecords.get? h=some r

theorem Unfed.refl (s : WalletState) : Unfed s s := ⟨rfl,rfl,fun _ _ h => h⟩

theorem peak_onTop (hk : WalletKept s) (hm : WalletMain s (P++[p])) :
    s.forest.find p.headerHash=some p ∧ s.forest.OnTop P p ∧ s.forest.Path p.headerHash (P++[p]) := by
  obtain ⟨k,hpath⟩ := hm.path (by simp)
  obtain ⟨p',P',hfind,hlist,htop⟩ := Forest.path_iff.mp hpath
  obtain ⟨rfl,hlast⟩ := List.append_inj' hlist rfl
  obtain rfl : p=p' := by simpa using hlast
  obtain rfl : p.headerHash=k := hk.key k p hfind
  exact ⟨hfind,htop,hpath⟩

theorem getPeak_run (h : WalletFed s P) {o : Option BlockRecord} (hpeak : Blockchain.getPeak s.chain = .ok o) :
    o=P.getLast? := by
  have hp := h.main.peakHeight
  unfold Blockchain.getPeak at hpeak
  rcases List.eq_nil_or_concat P with rfl | ⟨m,p,rfl⟩
  · rw [if_pos List.length_nil] at hp
    rw [hp] at hpeak
    exact (Except.ok.inj hpeak).symm
  · rw [List.concat_eq_append] at *
    rw [if_neg (by simp),List.length_append,List.length_singleton,Nat.add_sub_cancel] at hp
    have hheight := h.main.heights m.length p List.getElem?_concat_length
    obtain ⟨hfind,-,-⟩ := peak_onTop h.kept h.main
    rw [hp] at hpeak
    unfold BlockView.heightToBlockRecord BlockView.heightToHash at hpeak
    have hview : s.chain.view.heights.get? m.length=some p.headerHash := hheight
    cases hmem : s.chain.blockRecords.get? p.headerHash with
    | none =>
      have hview' : s.chain.view.blockRecords.get? p.headerHash=none := hmem
      simp [hview,BlockView.blockRecord,hview',lookup,bind,Except.bind,Functor.map,Except.map] at hpeak
    | some r =>
      have hview' : s.chain.view.blockRecords.get? p.headerHash=some r := hmem
      have heq := h.kept.memory _ _ hmem
      rw [heq] at hfind
      simp [hview,BlockView.blockRecord,hview',lookup,bind,Except.bind,Functor.map,Except.map] at hpeak
      rw [List.getLast?_concat,← hpeak,Option.some.inj hfind]

variable {forkPoint : Option ℕ}

theorem forkHeight_run (h : WalletFed s (P++[p])) (hp : s.forest.Path r.headerHash (Q++[r]))
    (hQ : s.forest.OnTop Q r)
    (hanc : ∀ n,forkPoint=some n → n<common (P++[p]) Q) (hcommon : 0<common (P++[p]) Q)
    (hplain : ∀ n,forkPoint=some n → Q=P++[p] → isTransactions ((P++[p]).drop (n+1))=[])
    (hf : forkHeight s.chain.view r p forkPoint = .ok f) :
    ∃ k : ℕ,f+1=k ∧ 0<k ∧ k≤(Q++[r]).length ∧ (P++[p]).take k=(Q++[r]).take k ∧
      (r.prevHash=p.headerHash → isTransactions ((P++[p]).drop k)=[]) := by
  obtain ⟨hpfind,hptop,hppath⟩ := peak_onTop h.kept h.main
  have hright := common_le_right (P++[p]) Q
  have hleft := common_le_left (P++[p]) Q
  have htake := take_common (P++[p]) Q
  have hfollows : r.prevHash=p.headerHash → Q=P++[p] := by
    intro he
    rcases hQ.2 with rfl | hpath
    · exact absurd hright (by simp; omega)
    · rw [walletForest_parent,he] at hpath
      exact hpath.unique hppath
  have hlen : (Q++[r]).length=Q.length+1 := by simp
  cases forkPoint with
  | some n =>
    obtain rfl : (n : ℤ)=f := Except.ok.inj hf
    have hn := hanc n rfl
    refine ⟨n+1,rfl,by omega,by omega,?_,fun he => hplain n rfl (hfollows he)⟩
    have h := congrArg (List.take (n+1)) htake
    rw [List.take_take,List.take_take,min_eq_left (by omega)] at h
    rw [h,List.take_append_of_le_length (by omega)]
  | none =>
    have hrfind : s.forest.find r.headerHash=some r := by
      obtain ⟨v,m,hv,hm,-⟩ := Forest.path_iff.mp hp
      obtain ⟨-,hlast⟩ := List.append_inj' hm rfl
      obtain rfl : r=v := by simpa using hlast
      exact hv
    have hsearch := findForkPointFrom_ok h.kept.keyed rfl rfl rfl h.kept.memory hQ hptop hrfind hpfind hf
    rw [common_comm] at hsearch
    have hmore : common (P++[p]) Q ≤ common (P++[p]) (Q++[r]) := by
      apply le_common hleft (by omega)
      rw [htake,List.take_append_of_le_length (by omega)]
    refine ⟨common (P++[p]) (Q++[r]),by omega,by omega,common_le_right _ _,take_common _ _,?_⟩
    intro he
    obtain rfl := hfollows he
    rw [common_self] at hmore
    rw [List.drop_of_length_le hmore]
    rfl

variable {block : HeaderBlockRecord}

theorem genesisPeak_run (h : WalletFed s []) (hp : s.forest.Path r.headerHash [r]) (ht : r.isTransactionBlock)
    (hblock : s.db.headerBlocks.get? r.headerHash=some block) (hhash : block.header.headerHash E=r.headerHash) :
    (∃ e s',genesisPeak E r s=(.error e,s') ∧ Unfed s s') ∨
      ∃ s',genesisPeak E r s=(.ok (some 0,[r]),s') ∧ WalletFed s' [r] := by
  set s₁ : WalletState := { s with
    chain := { s.chain with heightToHash := s.chain.heightToHash.set 0 (block.header.headerHash E) } } with hs₁
  have hget : (Eff.lift (assertSome (s.db.headerBlocks.get? r.headerHash)) : WalletM _) s=(.ok block,s) := by
    rw [hblock]
    rfl
  have hset : onChain (Eff.modify fun c =>
      { c with heightToHash := c.heightToHash.set 0 (block.header.headerHash E) }) s=(.ok (),s₁) := rfl
  unfold genesisPeak
  rw [Eff.bind_get,Eff.bind_of_ok hget,Eff.bind_of_ok hset]
  by_cases hempty : block.additions.length=0 ∧ block.removals.length=0
  · have hassert : (Eff.lift (assertThat (block.additions.length=0 ∧ block.removals.length=0)) :
        WalletM Unit) s₁=(.ok (),s₁) := by
      unfold assertThat
      rw [if_pos hempty]
      rfl
    rw [Eff.bind_of_ok hassert]
    refine Or.inr ⟨_,rfl,h.kept.congr rfl rfl fun _ _ hr => hr,⟨rfl,fun _ => ⟨_,hp⟩,?_⟩,?_⟩
    · intro i u hu
      obtain ⟨rfl,rfl⟩ : i=0 ∧ r=u := by
        cases i with
        | zero => exact ⟨rfl,by simpa using hu⟩
        | succ i => simp at hu
      show (s.chain.heightToHash.set 0 (block.header.headerHash E)).get? 0=_
      rw [Dict.get?_set,if_pos rfl,hhash]
    · show fed (s.events++[_])=_
      have hone : isTransactions [r]=[r] := List.filter_cons_of_pos ht
      rw [fed_append,h.fed,hone]
      rfl
  · have hassert : (Eff.lift (assertThat (block.additions.length=0 ∧ block.removals.length=0)) :
        WalletM Unit) s₁=(.error (.raised .assertion),s₁) := by
      unfold assertThat
      rw [if_neg hempty]
      rfl
    rw [Eff.bind_of_error hassert]
    exact Or.inl ⟨_,s₁,rfl,rfl,rfl,fun _ _ hr => hr⟩

/-- What the caller's fork point is worth, for a block on top of `Q` that becomes the peak. -/
structure ForkPoint (P Q : List BlockRecord) (forkPoint : Option ℕ) : Prop where
  ancestor : ∀ n,forkPoint=some n → n<common P Q
  common : 0<common P Q
  plain : ∀ n,forkPoint=some n → Q=P → isTransactions (P.drop (n+1))=[]

theorem reconsiderPeak_run (h : WalletFed s P) (hp : s.forest.Path r.headerHash (Q++[r]))
    (hQ : s.forest.OnTop Q r) (ht : r.height=0 → r.isTransactionBlock)
    (hblock : s.db.headerBlocks.get? r.headerHash=some block) (hhash : block.header.headerHash E=r.headerHash)
    (hfork : ∀ p,P.getLast?=some p → r.height≠0 → p.weight < r.weight →
      ForkPoint P Q forkPoint) (spends : List CoinSpend) :
    (∃ e s',reconsiderPeak E r (decide (r.height=0)) forkPoint spends s=(.error e,s') ∧ Unfed s s') ∨
    reconsiderPeak E r (decide (r.height=0)) forkPoint spends s=(.ok (none,[]),s) ∨
    ∃ f records s',reconsiderPeak E r (decide (r.height=0)) forkPoint spends s=(.ok (some f,records),s') ∧
      WalletFed s' (Q++[r]) ∧ P.getLast?≠some r := by
  unfold reconsiderPeak
  rw [Eff.bind_get]
  cases hpeak : Blockchain.getPeak s.chain with
  | error e => exact Or.inl ⟨e,s,rfl,.refl s⟩
  | ok o =>
    obtain rfl := getPeak_run h hpeak
    have hlift : (Eff.lift (.ok P.getLast?) : WalletM (Option BlockRecord)) s=(.ok P.getLast?,s) := rfl
    rw [Eff.bind_of_ok hlift]
    have hlen : r.height=Q.length := hQ.1
    by_cases hz : r.height=0
    · rw [if_pos (decide_eq_true hz)]
      rcases List.eq_nil_or_concat P with rfl | ⟨m,p,rfl⟩
      · obtain rfl : Q=[] := List.eq_nil_of_length_eq_zero (hlen.symm.trans hz)
        rcases genesisPeak_run h hp (ht hz) hblock hhash with hfail | ⟨s',hrun,hs'⟩
        · exact Or.inl hfail
        · exact Or.inr (Or.inr ⟨0,[r],s',hrun,hs',by simp⟩)
      · rw [List.concat_eq_append,List.getLast?_concat]
        exact Or.inr (Or.inl rfl)
    · rw [if_neg (by rw [decide_eq_false hz]; exact Bool.false_ne_true)]
      rcases List.eq_nil_or_concat P with rfl | ⟨m,p,rfl⟩
      · exact Or.inl ⟨_,s,rfl,.refl s⟩
      · rw [List.concat_eq_append] at *
        rw [List.getLast?_concat]
        have hsome : (Eff.lift (assertSome (some p)) : WalletM BlockRecord) s=(.ok p,s) := rfl
        rw [Eff.bind_of_ok hsome]
        by_cases hweight : r.weight > p.weight
        · rw [if_pos hweight]
          obtain ⟨hanc,hcommon,hplain⟩ := hfork p List.getLast?_concat hz hweight
          cases hf : forkHeight s.chain.view r p forkPoint with
          | error e => exact Or.inl ⟨e,s,rfl,.refl s⟩
          | ok f =>
            obtain ⟨k,hk,hpos,hkl,htake,hno⟩ := forkHeight_run h hp hQ hanc hcommon hplain hf
            obtain ⟨s',records,hrun,hs'⟩ := heavierPeak_run h hp (by simp [hlen]) hk hkl htake hno spends
            rw [if_neg (by omega)] at hrun
            refine Or.inr (Or.inr ⟨f.toNat,records,s',hrun,hs',?_⟩)
            intro he
            rw [Option.some.inj he] at hweight
            exact absurd hweight (lt_irrefl _)
        · rw [if_neg hweight]
          exact Or.inr (Or.inl rfl)

end WalletBlockchain
end RoseChain
