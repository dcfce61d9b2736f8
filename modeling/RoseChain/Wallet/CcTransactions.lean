import RoseChain.Wallet.CcSpends

namespace RoseChain
open Lib

variable {α β : Type}

theorem forall₂_mem {R : α → β → Prop} {l : List α} {m : List β} (h : List.Forall₂ R l m) :
    List.Forall₂ (fun a b => a∈l ∧ R a b) l m := by
  induction h with
  | nil => exact .nil
  | cons hab _ ih =>
    apply List.Forall₂.cons ⟨List.mem_cons_self,hab⟩
    exact ih.imp fun _ _ h => ⟨List.mem_cons_of_mem _ h.1,h.2⟩

theorem mapM_zip_right {γ : Type} {f : α → β → Check γ} {g : β → Check γ} {l : List α} {m : List β}
    (h : ∀ a∈l,∀ b,f a b=g b) (hlength : l.length=m.length) : (l.zip m).mapM (fun c => f c.1 c.2)=m.mapM g := by
  induction l generalizing m with
  | nil =>
    rw [List.eq_nil_of_length_eq_zero hlength.symm]
    rfl
  | cons a l ih =>
    cases m with
    | nil => simp at hlength
    | cons b m =>
      rw [List.zip_cons_cons,List.mapM_cons,List.mapM_cons,h a List.mem_cons_self,
        ih (fun a' ha' => h a' (List.mem_cons_of_mem _ ha')) (by simpa using hlength)]

theorem sum_zipWith_sub (f : α → ℤ) {l : List α} {outs : List ℤ} (h : l.length=outs.length) :
    (List.zipWith (fun a out => f a-out) l outs).sum=(l.map f).sum-outs.sum := by
  induction l generalizing outs with
  | nil =>
    rw [List.eq_nil_of_length_eq_zero h.symm]
    rfl
  | cons a l ih =>
    cases outs with
    | nil => simp at h
    | cons out outs =>
      simp only [List.zipWith_cons_cons,List.map_cons,List.sum_cons]
      rw [ih (by simpa using h)]
      ring

theorem length_runningSums (subtotal : ℤ) (deltas : List ℤ) : (runningSums subtotal deltas).length=deltas.length := by
  induction deltas generalizing subtotal with
  | nil => rfl
  | cons delta deltas ih => simp [runningSums,ih]

theorem subtotalsForDeltas_ok (deltas : List ℤ) (h : deltas≠[]) :
    ∃ subtotals,subtotalsForDeltas deltas = .ok subtotals ∧ subtotals.length=deltas.length := by
  unfold subtotalsForDeltas
  dsimp only
  cases hmin : (runningSums 0 deltas).min? with
  | none =>
    apply absurd _ h
    apply List.eq_nil_of_length_eq_zero
    rw [← length_runningSums 0 deltas,List.min?_eq_none_iff.mp hmin]
    rfl
  | some subtotalOffset =>
    refine ⟨(runningSums 0 deltas).map (· - subtotalOffset),rfl,?_⟩
    rw [List.length_map,length_runningSums]

theorem getElem?_runningSums (subtotal : ℤ) (deltas : List ℤ) {i : ℕ} (hi : i<deltas.length) :
    (runningSums subtotal deltas)[i]?=some (subtotal+(deltas.take i).sum) := by
  induction deltas generalizing subtotal i with
  | nil => simp at hi
  | cons delta deltas ih =>
    cases i with
    | zero => simp [runningSums]
    | succ i => simp [runningSums,ih (subtotal+delta) (by simpa using hi),add_assoc]

/-- Around the ring the subtotals differ by the deltas, and the smallest of them is 0. -/
structure RingSubtotals (deltas subtotals : List ℤ) : Prop where
  length : subtotals.length=deltas.length
  step : ∀ i s t d,subtotals[i]?=some s → subtotals[(i+1) % deltas.length]?=some t → deltas[i]?=some d →
    t-s=d
  least : subtotals.min?=some 0

variable {deltas : List ℤ}

theorem RingSubtotals.nonneg {subtotals : List ℤ} (h : RingSubtotals deltas subtotals) {s : ℤ}
    (hs : s∈subtotals) : 0 ≤ s := (List.min?_eq_some_iff.mp h.least).2 s hs

theorem ringSubtotals_offset (hsum : deltas.sum=0) {subtotalOffset : ℤ}
    (hmin : (runningSums 0 deltas).min?=some subtotalOffset) :
    RingSubtotals deltas ((runningSums 0 deltas).map (· - subtotalOffset)) where
  length := by simp [length_runningSums]
  step := by
    intro i s t d hs ht hd
    have hi : i<deltas.length := (List.getElem?_eq_some_iff.mp hd).1
    have htake : (deltas.take (i+1)).sum=(deltas.take i).sum+d := by
      rw [List.take_add_one,hd]
      simp
    rw [List.getElem?_map,getElem?_runningSums 0 deltas hi] at hs
    rw [List.getElem?_map,getElem?_runningSums 0 deltas (Nat.mod_lt _ (by omega))] at ht
    simp only [Option.map_some,Option.some.injEq,zero_add] at hs ht
    by_cases hlast : i+1=deltas.length
    · rw [hlast,List.take_length] at htake
      simp only [hlast,Nat.mod_self,List.take_zero,List.sum_nil] at ht
      omega
    · rw [Nat.mod_eq_of_lt (by omega)] at ht
      omega
  least := by
    obtain ⟨hmem,hle⟩ := List.min?_eq_some_iff.mp hmin
    apply List.min?_eq_some_iff.mpr
    constructor
    · exact List.mem_map.mpr ⟨subtotalOffset,hmem,sub_self _⟩
    · intro s hs
      obtain ⟨sum,hsum,rfl⟩ := List.mem_map.mp hs
      have := hle sum hsum
      omega

/-- The parts of a spend that do not depend on its place in the ring. -/
def ProgramSpend.parts (s : ProgramSpend) : Coin × SExp × Check SExp := (s.coin,s.puzzleReveal,s.solution.first)

section Ring
variable {E : Env} {P : CcPrograms} {modCode checker : SExp} {l : List SpendableCC} {innersols : List SExp}

variable (E P modCode checker) in
theorem ringSpend_ok {subtotals : List ℤ} (hinner : innersols.length=l.length) (hsub : subtotals.length=l.length)
    {i : ℕ} (hi : i<l.length) : ∃ spend,ringSpend E P modCode checker l innersols subtotals i = .ok spend ∧
      spend.parts=(l[i].coin,ccPuzzleForInnerPuzzle E P modCode checker l[i].innerPuzzle,.ok innersols[i]) := by
  have hbundle (j : ℕ) : (l.map bundleForSpendableCcList)[j % l.length]? =
      some (bundleForSpendableCcList (l.get ⟨j % l.length,Nat.mod_lt _ (by omega)⟩)) := by
    rw [List.getElem?_map,List.getElem?_eq_getElem (Nat.mod_lt _ (by omega))]
    rfl
  have hmy := hbundle i
  simp only [Nat.mod_eq_of_lt hi] at hmy
  unfold ringSpend
  simp only [hbundle,hmy,List.getElem?_eq_getElem hi,List.getElem?_eq_getElem (hinner ▸ hi : i < innersols.length),
    List.getElem?_eq_getElem (hsub ▸ hi : i<subtotals.length),index]
  exact ⟨_,rfl,rfl⟩

variable (E modCode checker) in
/-- The bundle spends the coins of the ring, unless they do not balance. -/
theorem spendBundle_spec (sigs : List G2Element) {outs : List ℤ} (hl : l≠[]) (hinner : innersols.length=l.length)
    (houts : (l.zip innersols).mapM (fun c => outputAmount P c.1.innerPuzzle c.2) = .ok outs) :
    (((l.map fun c => (c.coin.amount : ℤ)).sum≠outs.sum →
      ∃ e,spendBundleForSpendableCcs E P modCode checker l innersols sigs = .error e) ∧
    ((l.map fun c => (c.coin.amount : ℤ)).sum=outs.sum → ∃ spends,
      spendBundleForSpendableCcs E P modCode checker l innersols sigs = .ok ⟨spends,aggregateSigs P sigs⟩ ∧
      spends.map ProgramSpend.parts=(l.zip innersols).map fun c =>
        (c.1.coin,ccPuzzleForInnerPuzzle E P modCode checker c.1.innerPuzzle,.ok c.2))) := by
  have hlength : outs.length=l.length := by
    rw [← (mapM_eq_ok.mp houts).length_eq,List.length_zip,hinner,Nat.min_self]
  have hsum := sum_zipWith_sub (fun c : SpendableCC => (c.coin.amount : ℤ)) hlength.symm
  obtain ⟨subtotals,hsub,hsublength⟩ := subtotalsForDeltas_ok
    (List.zipWith (fun (c : SpendableCC) out => (c.coin.amount : ℤ)-out) l outs) (by
      intro hnil
      apply hl
      apply List.eq_nil_of_length_eq_zero
      have hzero := congrArg List.length hnil
      rw [List.length_zipWith,hlength,Nat.min_self] at hzero
      exact hzero)
  have hstart : raiseIf (innersols.length≠l.length) = .ok () := raiseIf_eq_ok.mpr (by simp [hinner])
  unfold spendBundleForSpendableCcs
  rw [bind_of_ok hstart,bind_of_ok houts]
  dsimp only
  rw [bind_of_ok hsub,hsum]
  constructor
  · intro hne
    have hraise : raiseIf ((l.map fun c => (c.coin.amount : ℤ)).sum-outs.sum≠0) = .error (.raised .value) := by
      unfold raiseIf
      rw [if_pos (by omega)]
    rw [hraise]
    exact ⟨_,rfl⟩
  · intro heq
    have hpass : raiseIf ((l.map fun c => (c.coin.amount : ℤ)).sum-outs.sum≠0) = .ok () :=
      raiseIf_eq_ok.mpr (by omega)
    rw [bind_of_ok hpass]
    rw [List.length_zipWith,hlength,Nat.min_self] at hsublength
    have hspend : ∀ i∈List.range l.length,∃ spend,
        ringSpend E P modCode checker l innersols subtotals i = .ok spend := by
      intro i hi
      obtain ⟨spend,hspend,-⟩ := ringSpend_ok E P modCode checker hinner hsublength (List.mem_range.mp hi)
      exact ⟨spend,hspend⟩
    obtain ⟨spends,hspends⟩ := mapM_exists hspend
    refine ⟨spends,by rw [bind_of_ok hspends]; rfl,?_⟩
    have hall := mapM_eq_ok.mp hspends
    have hsl : spends.length=l.length := by rw [← hall.length_eq,List.length_range]
    apply List.ext_getElem
    · simp [hsl,hinner]
    · intro i hi _
      rw [List.length_map,hsl] at hi
      obtain ⟨spend,hspend,hparts⟩ := ringSpend_ok E P modCode checker hinner hsublength hi
      have hget := hall.get (by simpa using hi) (hsl ▸ hi)
      simp only [List.get_eq_getElem,List.getElem_range,hspend,Except.ok.injEq] at hget
      rw [List.getElem_map,← hget,hparts,List.getElem_map,List.getElem_zip]

theorem shown_of_parts {spends : List ProgramSpend} {innerPuzzle : SExp} (hinner : innersols.length=l.length)
    (hown : ∀ s∈l,s.innerPuzzle=innerPuzzle) (hparts : spends.map ProgramSpend.parts=(l.zip innersols).map
      fun c => (c.1.coin,ccPuzzleForInnerPuzzle E P modCode checker c.1.innerPuzzle,.ok c.2)) :
    spends.map (·.coin)=l.map (·.coin) ∧ (spends.map fun s => (s.puzzleReveal,s.solution.first)) =
      innersols.map fun sol => (ccPuzzleForInnerPuzzle E P modCode checker innerPuzzle,.ok sol) := by
  have hfst : (l.zip innersols).map Prod.fst=l := List.map_fst_zip (by omega)
  have hsnd : (l.zip innersols).map Prod.snd=innersols := List.map_snd_zip (by omega)
  have hcoin := congrArg (List.map fun p : Coin × SExp × Check SExp => p.1) hparts
  have hrest := congrArg (List.map fun p : Coin × SExp × Check SExp => p.2) hparts
  rw [List.map_map,List.map_map] at hcoin hrest
  refine ⟨hcoin.trans ?_,hrest.trans ?_⟩
  · conv_rhs => rw [← hfst,List.map_map]
    rfl
  · conv_rhs => rw [← hsnd,List.map_map]
    apply List.map_congr_left
    intro c hc
    simp only [Function.comp_apply,hown c.1 (List.of_mem_zip hc).1]

end Ring

/-- The coins are of the colour, and the wallet has a key and a lineage proof for each of them. What it owns of a
colour fits into 64 bits. -/
structure Held (E : Env) (P : CcPrograms) (w : CCWallet) (checker : SExp) (coins : List Coin) : Prop where
  nonempty : coins≠[]
  colour : w.myGenesisChecker=some checker
  genesis : ∃ genesisId,P.genesisCoinIdForGenesisCoinChecker checker = .ok genesisId
  derived : ∀ c∈coins,∃ pubkey,w.derivationRecord c.puzzleHash=some pubkey ∧
    (ccPuzzleForInnerPuzzle E P P.ccMod checker (P.puzzleForPk pubkey)).treeHash E=c.puzzleHash ∧
    (w.privateKey ((P.puzzleForPk pubkey).treeHash E)).isSome
  lineage : ∀ c∈coins,(w.getLineageProofForCoin c).isSome
  supply : (coins.map (·.amount)).sum<2^64

/-- Every reveal hashes to the puzzle hash of its coin, the signatures are those of the revealed inner puzzles, and
the outputs are the inputs. -/
structure SpendableBundle (E : Env) (P : CcPrograms) (w : CCWallet) (checker : SExp) (coins : List Coin)
    (bundle : ProgramBundle) : Prop where
  spends : bundle.coinSpends.map (·.coin)=coins
  revealed : ∀ s∈bundle.coinSpends,s.puzzleReveal.treeHash E=s.coin.puzzleHash
  inner : ∃ inner : List (SExp × SExp),
    (bundle.coinSpends.map fun s => (s.puzzleReveal,s.solution.first)) =
      (inner.map fun p => (ccPuzzleForInnerPuzzle E P P.ccMod checker p.1,.ok p.2)) ∧
    (∃ sigs,(coins.zip inner).mapM (fun c => w.getSigs E P c.2.1 c.2.2 (E.coinName c.1)) = .ok sigs ∧
      bundle.aggregatedSignature=aggregateSigs P sigs.flatten) ∧
    ∃ outs,inner.mapM (fun p => outputAmount P p.1 p.2) = .ok outs ∧ outs.sum=((coins.map (·.amount)).sum : ℕ)

def payments (primaries : List Primary) (fee : ℕ) : List Coin → List (List Primary × ℕ)
  | [] => []
  | _::coins => (primaries,fee)::coins.map fun _ => ([],0)

section Payments
variable (primaries : List Primary) (fee : ℕ) (coins : List Coin)

theorem innersolList_payments :
    CCWallet.innersolList primaries fee coins=(payments primaries fee coins).map fun q => makeSolution q.1 q.2 := by
  cases coins with
  | nil => rfl
  | cons c coins => simp [CCWallet.innersolList,payments]

theorem length_payments : (payments primaries fee coins).length=coins.length := by
  cases coins with
  | nil => rfl
  | cons c coins => simp [payments]

theorem payments_sum (h : coins≠[]) :
    ((payments primaries fee coins).map fun q => (((q.1.map (·.1)).sum : ℕ) : ℤ)).sum =
      ((primaries.map (·.1)).sum : ℕ) := by
  cases coins with
  | nil => exact absurd rfl h
  | cons c coins => simp [payments]

variable {primaries fee coins}

theorem payments_primary {q : List Primary × ℕ} (hq : q∈payments primaries fee coins) {p : Primary} (hp : p∈q.1) :
    p∈primaries := by
  cases coins with
  | nil => cases hq
  | cons c coins =>
    obtain rfl | hq := List.mem_cons.mp hq
    · exact hp
    · obtain ⟨_,-,rfl⟩ := List.mem_map.mp hq
      cases hp

end Payments

section Selected
variable {E : Env} {P : CcPrograms} {w : CCWallet} {checker : SExp} {coins : List Coin}

variable {c : Coin × SExp}

theorem spendable_inv {innerPuzzle : SExp} {genesisId : Option Bytes}
    {s : SpendableCC × List G2Element} (h : w.spendable E P innerPuzzle genesisId c = .ok s) :
    s.1.coin=c.1 ∧ s.1.innerPuzzle=innerPuzzle ∧ ∃ own,w.innerPuzzleForCcPuzhash P c.1.puzzleHash = .ok own ∧
      w.getSigs E P own c.2 (E.coinName c.1) = .ok s.2 := by
  unfold CCWallet.spendable at h
  simp only [bind_ok] at h
  obtain ⟨own,hown,lineageProof,-,sigs,hsigs,hs⟩ := h
  rw [← Except.ok.inj hs]
  exact ⟨rfl,rfl,own,hown,hsigs⟩

def SamePuzzleHash (coins : List Coin) : Prop := ∀ c∈coins,∀ d∈coins,c.puzzleHash=d.puzzleHash

theorem innerPuzzle_of_record {pubkey : G1Element} {puzzleHash : Bytes32}
    (h : w.derivationRecord puzzleHash=some pubkey) :
    w.innerPuzzleForCcPuzhash P puzzleHash = .ok (P.puzzleForPk pubkey) := by
  unfold CCWallet.innerPuzzleForCcPuzhash
  rw [h]

theorem spendable_ok (hP : P.Lawful E) (hw : Held E P w checker coins) (innerPuzzle : SExp) (genesisId : Option Bytes)
    (primaries : List Primary) (fee : ℕ) (hc : c∈coins.zip (CCWallet.innersolList primaries fee coins)) :
    ∃ s,w.spendable E P innerPuzzle genesisId c = .ok s := by
  obtain ⟨hcoin,hsol⟩ := List.of_mem_zip hc
  rw [innersolList_payments] at hsol
  obtain ⟨q,-,hq⟩ := List.mem_map.mp hsol
  obtain ⟨pubkey,hrecord,-,hkey⟩ := hw.derived c.1 hcoin
  obtain ⟨proof,hproof⟩ := Option.isSome_iff_exists.mp (hw.lineage c.1 hcoin)
  obtain ⟨sigs,hsigs⟩ := getSigs_standard hP pubkey q.1 q.2 w (E.coinName c.1) hkey
  rw [hq] at hsigs
  unfold CCWallet.spendable
  rw [bind_of_ok (innerPuzzle_of_record hrecord),hproof,bind_of_ok (show assertSome (some proof)=_ from rfl),
    bind_of_ok hsigs]
  exact ⟨_,rfl⟩

theorem spendables_ok (hP : P.Lawful E) (hw : Held E P w checker coins) (innerPuzzle : SExp) (genesisId : Option Bytes)
    (primaries : List Primary) (fee : ℕ) : ∃ spendables : List (SpendableCC × List G2Element),
      (coins.zip (CCWallet.innersolList primaries fee coins)).mapM (w.spendable E P innerPuzzle genesisId) =
        .ok spendables ∧
      (spendables.map (·.1)).map (·.coin)=coins ∧ (∀ s∈spendables.map (·.1),s.innerPuzzle=innerPuzzle) ∧
      List.Forall₂ (fun c s => c.1∈coins ∧ ∃ own,w.innerPuzzleForCcPuzhash P c.1.puzzleHash = .ok own ∧
        w.getSigs E P own c.2 (E.coinName c.1) = .ok s.2)
        (coins.zip (CCWallet.innersolList primaries fee coins)) spendables := by
  obtain ⟨spendables,hspendables⟩ := mapM_exists fun c hc =>
    spendable_ok (w := w) hP hw innerPuzzle genesisId primaries fee hc
  have hall := forall₂_mem (mapM_eq_ok.mp hspendables)
  refine ⟨spendables,hspendables,?_,?_,?_⟩
  · have hfst : spendables.map (fun s => s.1.coin) =
        (coins.zip (CCWallet.innersolList primaries fee coins)).map (fun c => c.1) :=
      map_eq_of_forall₂ (hall.imp fun c s h => (spendable_inv h.2).1)
    rw [List.map_map]
    apply hfst.trans
    apply List.map_fst_zip
    rw [innersolList_payments,List.length_map,length_payments]
  · have hown : spendables.map (fun s => s.1.innerPuzzle) =
        (coins.zip (CCWallet.innersolList primaries fee coins)).map (fun _ => innerPuzzle) :=
      map_eq_of_forall₂ (hall.imp fun c s h => (spendable_inv h.2).2.1)
    intro s hs
    obtain ⟨t,ht,rfl⟩ := List.mem_map.mp hs
    obtain ⟨_,-,h⟩ := List.mem_map.mp (hown ▸ List.mem_map_of_mem ht)
    exact h.symm
  · exact hall.imp fun c s h => ⟨(List.of_mem_zip h.1).1,(spendable_inv h.2).2.2⟩

theorem payment_of_shown {spends : List ProgramSpend} {puzzle : SExp} {primaries : List Primary} {fee : ℕ}
    (hshown : (spends.map fun s => (s.puzzleReveal,s.solution.first)) =
      (CCWallet.innersolList primaries fee coins).map fun sol => (puzzle,.ok sol))
    {s : ProgramSpend} (hs : s∈spends) : s.puzzleReveal=puzzle ∧
      ∃ q∈payments primaries fee coins,∃ rest,s.solution = .pair (makeSolution q.1 q.2) rest := by
  have hmem := List.mem_map_of_mem (f := fun s : ProgramSpend => (s.puzzleReveal,s.solution.first)) hs
  rw [hshown,innersolList_payments,List.map_map] at hmem
  obtain ⟨q,hq,heq⟩ := List.mem_map.mp hmem
  obtain ⟨hpuzzle,hfirst⟩ := Prod.mk.inj heq
  refine ⟨hpuzzle.symm,q,hq,?_⟩
  cases hsol : s.solution with
  | atom b =>
    rw [hsol] at hfirst
    cases hfirst
  | pair first rest =>
    rw [hsol] at hfirst
    obtain rfl : makeSolution q.1 q.2=first := Except.ok.inj hfirst
    exact ⟨rest,rfl⟩

theorem outputs_ok (hP : P.Lawful E) (pubkey : G1Element) (primaries : List Primary) (fee : ℕ) :
    (CCWallet.innersolList primaries fee coins).mapM (outputAmount P (P.puzzleForPk pubkey)) =
      .ok ((payments primaries fee coins).map fun q => (((q.1.map (·.1)).sum : ℕ) : ℤ)) := by
  rw [innersolList_payments,List.mapM_map]
  exact mapM_eq_ok_map fun q _ => outputAmount_standard hP pubkey q.1 q.2

theorem spendSelected_spec (hP : P.Lawful E) (hw : Held E P w checker coins) (primaries : List Primary) (fee : ℕ) :
    ((coins.map (·.amount)).sum≠(primaries.map (·.1)).sum →
      ∃ e,w.spendSelected E P coins primaries fee = .error e) ∧
    ((coins.map (·.amount)).sum=(primaries.map (·.1)).sum → ∃ bundle,
      w.spendSelected E P coins primaries fee = .ok bundle ∧ bundle.coinSpends.map (·.coin)=coins ∧
      (∃ c₀∈coins,∀ s∈bundle.coinSpends,s.puzzleReveal.treeHash E=c₀.puzzleHash) ∧
      (SamePuzzleHash coins → SpendableBundle E P w checker coins bundle) ∧
      ((∀ p∈primaries,p.1<2^64) → ∃ l,bundle.additions E P = .ok l)) := by
  obtain ⟨c₀,cs,hcs⟩ := List.exists_cons_of_ne_nil hw.nonempty
  have hc₀ : c₀∈coins := by simp [hcs]
  obtain ⟨pubkey,hrecord,hhash,-⟩ := hw.derived c₀ hc₀
  obtain ⟨genesisId,hgenesis⟩ := hw.genesis
  obtain ⟨spendables,hspendables,hcoins,hinner,hall⟩ :=
    spendables_ok hP hw (P.puzzleForPk pubkey) genesisId primaries fee
  have hlength : (CCWallet.innersolList primaries fee coins).length=(spendables.map (·.1)).length := by
    have hlen := congrArg List.length hcoins
    rw [List.length_map] at hlen
    rw [innersolList_payments,List.length_map,length_payments,hlen]
  have houts : ((spendables.map (·.1)).zip (CCWallet.innersolList primaries fee coins)).mapM
      (fun c => outputAmount P c.1.innerPuzzle c.2) =
      .ok ((payments primaries fee coins).map fun q => (((q.1.map (·.1)).sum : ℕ) : ℤ)) := by
    have hown : ∀ s∈spendables.map (·.1),∀ sol,
        outputAmount P s.innerPuzzle sol=outputAmount P (P.puzzleForPk pubkey) sol :=
      fun s hs sol => by rw [hinner s hs]
    rw [mapM_zip_right (f := fun (s : SpendableCC) sol => outputAmount P s.innerPuzzle sol) hown hlength.symm]
    exact outputs_ok hP pubkey primaries fee
  have hne : spendables.map (·.1)≠[] := by
    intro hnil
    rw [hnil] at hcoins
    exact hw.nonempty hcoins.symm
  have htotal : ((spendables.map (·.1)).map fun c => (c.coin.amount : ℤ)).sum=((coins.map (·.amount)).sum : ℕ) := by
    rw [Nat.cast_list_sum]
    conv_rhs => rw [← hcoins]
    simp only [List.map_map]
    rfl
  obtain ⟨herror,hok⟩ := spendBundle_spec E P.ccMod checker (spendables.flatMap (·.2)) hne hlength houts
  rw [htotal,payments_sum primaries fee coins hw.nonempty] at herror hok
  have hrun : w.spendSelected E P coins primaries fee=spendBundleForSpendableCcs E P P.ccMod checker
      (spendables.map (·.1)) (CCWallet.innersolList primaries fee coins) (spendables.flatMap (·.2)) := by
    have hfirst : index coins[0]? = .ok c₀ := by simp [hcs,index]
    unfold CCWallet.spendSelected
    rw [bind_of_ok hfirst,bind_of_ok (innerPuzzle_of_record hrecord),hw.colour]
    dsimp only
    rw [bind_of_ok (show (Except.ok checker : Check SExp)=_ from rfl),bind_of_ok hgenesis,
      bind_of_ok hspendables]
  rw [hrun]
  refine ⟨fun hsum => herror (by exact_mod_cast hsum),fun hsum => ?_⟩
  obtain ⟨spends,hbundle,hparts⟩ := hok (by exact_mod_cast hsum)
  obtain ⟨hspends,hshown⟩ := shown_of_parts hlength hinner hparts
  rw [hcoins] at hspends
  have hreveal {s : ProgramSpend} (hs : s∈spends) : s.puzzleReveal.treeHash E=c₀.puzzleHash := by
    rw [(payment_of_shown hshown hs).1,hhash]
  refine ⟨_,hbundle,hspends,⟨c₀,hc₀,fun s hs => hreveal hs⟩,fun hsame => ?_,fun hfits => ?_⟩
  · refine ⟨hspends,fun s hs => ?_,
      (CCWallet.innersolList primaries fee coins).map fun sol => (P.puzzleForPk pubkey,sol),?_,?_,?_⟩
    · exact (hreveal hs).trans (hsame c₀ hc₀ s.coin (hspends ▸ List.mem_map_of_mem hs))
    · rw [hshown,List.map_map]
      rfl
    · refine ⟨spendables.map (·.2),?_,rfl⟩
      rw [List.zip_map_right,List.mapM_map,mapM_eq_ok,List.forall₂_map_right_iff]
      apply hall.imp
      rintro c s ⟨hc,own,hown,hsigs⟩
      rw [hsame c.1 hc c₀ hc₀,innerPuzzle_of_record hrecord] at hown
      rw [← Except.ok.inj hown] at hsigs
      exact hsigs
    · refine ⟨(payments primaries fee coins).map fun q => (((q.1.map (·.1)).sum : ℕ) : ℤ),?_,?_⟩
      · rw [List.mapM_map]
        exact outputs_ok hP pubkey primaries fee
      · rw [payments_sum primaries fee coins hw.nonempty,hsum]
  · have hadditions : ∀ s∈spends,∃ l,s.additions E P = .ok l := by
      intro s hs
      obtain ⟨hpuzzle,q,hq,rest,hsol⟩ := payment_of_shown hshown hs
      exact additions_standard hP pubkey q.1 q.2 (fun p hp => hfits p (payments_primary hq hp)) hpuzzle hsol
    obtain ⟨m,hm⟩ := mapM_exists hadditions
    exact ⟨m.flatten,by unfold ProgramBundle.additions; rw [bind_of_ok hm]; rfl⟩

end Selected

end RoseChain
