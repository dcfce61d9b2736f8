import Mathlib.Algebra.Order.BigOperators.Group.List
import RoseChain.Wallet.CcTransactions

namespace RoseChain
open Lib
variable {E : Env} {P : CcPrograms} {w : CCWallet} {checker : SExp} {coins : List Coin} {amounts : List ℕ}
  {puzzleHashes : List Bytes32} {fee : ℕ} {ignoreMaxSendAmount : Bool}

def paid (amounts : List ℕ) (puzzleHashes : List Bytes32) : ℕ := ((amounts.zip puzzleHashes).map (·.1)).sum

/-- Neither the coins nor what may go out in one transaction cover the amounts and the fee. -/
def Insufficient (w : CCWallet) (amounts : List ℕ) (fee : ℕ) (coins : List Coin) (ignoreMaxSendAmount : Bool) : Prop :=
  (coins.map (·.amount)).sum<amounts.sum+fee ∨
    ignoreMaxSendAmount=false ∧ ∃ maxSend,w.getMaxSendAmount = .ok maxSend ∧ maxSend<amounts.sum+fee

def Refused (w : CCWallet) (amounts : List ℕ) (fee : ℕ) (ignoreMaxSendAmount : Bool) : Prop :=
  2^64≤amounts.sum ∨
    ignoreMaxSendAmount=false ∧ ∀ maxSend,w.getMaxSendAmount = .ok maxSend → maxSend<amounts.sum+fee

variable (E P w checker coins amounts puzzleHashes fee ignoreMaxSendAmount) in
/-- A call that raises for want of funds, or returns a bundle that can be spent. -/
def SendsOrLacksFunds : Prop :=
  (∃ e,w.generateSignedTransaction E P amounts puzzleHashes fee (some coins) ignoreMaxSendAmount = .error e) ∧
      Insufficient w amounts fee coins ignoreMaxSendAmount ∨
    ∃ tx,w.generateSignedTransaction E P amounts puzzleHashes fee (some coins) ignoreMaxSendAmount = .ok tx ∧
      SpendableBundle E P w checker coins tx.spendBundle

theorem paid_le (amounts : List ℕ) (puzzleHashes : List Bytes32) : paid amounts puzzleHashes≤amounts.sum := by
  unfold paid
  induction amounts generalizing puzzleHashes with
  | nil => simp
  | cons a amounts ih =>
    cases puzzleHashes with
    | nil => simp
    | cons h puzzleHashes =>
      have hle := ih puzzleHashes
      simp only [List.zip_cons_cons,List.map_cons,List.sum_cons]
      omega

theorem primariesFor_sum (w : CCWallet) (amounts : List ℕ) (puzzleHashes : List Bytes32) (change : ℤ) :
    ((w.primariesFor amounts puzzleHashes change).map (·.1)).sum=paid amounts puzzleHashes+change.toNat := by
  unfold CCWallet.primariesFor paid
  rw [List.map_append,List.sum_append]
  split_ifs with hpos
  · simp
  · simp [Int.toNat_of_nonpos (by omega : change≤0)]

variable (E P coins puzzleHashes) in
theorem refused_raises (h : Refused w amounts fee ignoreMaxSendAmount) :
    ∃ e,w.generateSignedTransaction E P amounts puzzleHashes fee (some coins) ignoreMaxSendAmount = .error e := by
  unfold CCWallet.generateSignedTransaction
  cases hout : uint64 (amounts.sum : ℕ) with
  | error e => exact ⟨e,rfl⟩
  | ok out =>
    obtain ⟨heq,hlt⟩ := uint_eq_ok.mp hout
    obtain rfl := Int.ofNat.inj heq
    obtain hlarge | ⟨hcheck,hmax⟩ := h
    · exact absurd hlt (by omega)
    rw [bind_of_ok rfl]
    dsimp only
    rw [if_pos hcheck]
    cases hsend : w.getMaxSendAmount with
    | error e => exact ⟨e,rfl⟩
    | ok maxSend =>
      have hraise : raiseIf (amounts.sum+fee > maxSend) = .error (.raised .value) := by
        unfold raiseIf
        rw [if_pos (hmax maxSend hsend)]
      rw [bind_of_ok rfl,hraise]
      exact ⟨_,rfl⟩

theorem generateSignedTransaction_run (h : ¬ Refused w amounts fee ignoreMaxSendAmount) :
    w.generateSignedTransaction E P amounts puzzleHashes fee (some coins) ignoreMaxSendAmount=(do
      let spendBundle ← w.spendSelected E P coins (w.primariesFor amounts puzzleHashes
        (((coins.map (·.amount)).sum : ℕ)-(amounts.sum+fee : ℕ))) fee
      let toPuzzleHash ← index puzzleHashes[0]?
      let additions ← spendBundle.additions E P
      return ⟨w.currentTime,toPuzzleHash,amounts.sum,spendBundle,additions,spendBundle.removals,w.walletId⟩) := by
  unfold Refused at h
  push Not at h
  obtain ⟨hlarge,hmax⟩ := h
  have hout : uint64 (amounts.sum : ℕ) = .ok amounts.sum := uint_eq_ok.mpr ⟨rfl,hlarge⟩
  unfold CCWallet.generateSignedTransaction
  rw [bind_of_ok hout]
  dsimp only
  split_ifs with hcheck
  · obtain ⟨maxSend,hsend,hle⟩ := hmax hcheck
    have hpass : raiseIf (amounts.sum+fee > maxSend) = .ok () := raiseIf_eq_ok.mpr (by omega)
    rw [hsend,bind_of_ok rfl,bind_of_ok hpass]
    rfl
  · rfl

variable (puzzleHashes) in
theorem sends_iff (hP : P.Lawful E) (hw : Held E P w checker coins) (h : ¬ Refused w amounts fee ignoreMaxSendAmount) :
    ((∃ tx,w.generateSignedTransaction E P amounts puzzleHashes fee (some coins) ignoreMaxSendAmount = .ok tx ∧
      SpendableBundle E P w checker coins tx.spendBundle) ↔
      (coins.map (·.amount)).sum=paid amounts puzzleHashes +
        (((coins.map (·.amount)).sum : ℕ)-(amounts.sum+fee : ℕ) : ℤ).toNat ∧
        puzzleHashes≠[] ∧ SamePuzzleHash coins) ∧
    ((∃ e,w.generateSignedTransaction E P amounts puzzleHashes fee (some coins) ignoreMaxSendAmount = .error e) ↔
      ¬ ((coins.map (·.amount)).sum=paid amounts puzzleHashes +
        (((coins.map (·.amount)).sum : ℕ)-(amounts.sum+fee : ℕ) : ℤ).toNat ∧ puzzleHashes≠[])) := by
  rw [generateSignedTransaction_run h]
  have hspec := spendSelected_spec hP hw (w.primariesFor amounts puzzleHashes
    (((coins.map (·.amount)).sum : ℕ)-(amounts.sum+fee : ℕ))) fee
  have hbound : ∀ p∈w.primariesFor amounts puzzleHashes
      (((coins.map (·.amount)).sum : ℕ)-(amounts.sum+fee : ℕ)),p.1≤paid amounts puzzleHashes +
        (((coins.map (·.amount)).sum : ℕ)-(amounts.sum+fee : ℕ) : ℤ).toNat := by
    intro p hp
    rw [← primariesFor_sum w]
    exact List.le_sum_of_mem (List.mem_map_of_mem hp)
  rw [primariesFor_sum] at hspec
  obtain ⟨herror,hok⟩ := hspec
  by_cases hsum : (coins.map (·.amount)).sum=paid amounts puzzleHashes +
      (((coins.map (·.amount)).sum : ℕ)-(amounts.sum+fee : ℕ) : ℤ).toNat
  · obtain ⟨bundle,hbundle,hspends,⟨c₀,hc₀,hreveal⟩,hsame,hadditions⟩ := hok hsum
    obtain ⟨l,hl⟩ := hadditions fun p hp => lt_of_le_of_lt ((hbound p hp).trans_eq hsum.symm) hw.supply
    rw [bind_of_ok hbundle]
    cases puzzleHashes with
    | nil =>
      refine ⟨⟨?_,fun h => absurd rfl h.2.1⟩,fun _ h => h.2 rfl,fun _ => ⟨_,rfl⟩⟩
      rintro ⟨tx,htx,-⟩
      cases htx
    | cons puzzleHash puzzleHashes =>
      rw [bind_of_ok (show index (puzzleHash::puzzleHashes)[0]? = .ok puzzleHash from rfl),bind_of_ok hl]
      refine ⟨⟨?_,fun h => ⟨_,rfl,hsame h.2.2⟩⟩,?_,fun h => absurd ⟨hsum,nofun⟩ h⟩
      · rintro ⟨tx,htx,hspendable⟩
        rw [← Except.ok.inj htx] at hspendable
        have hhash : ∀ c∈coins,c.puzzleHash=c₀.puzzleHash := by
          intro c hc
          rw [← hspends] at hc
          obtain ⟨s,hs,rfl⟩ := List.mem_map.mp hc
          rw [← hspendable.revealed s hs,hreveal s hs]
        exact ⟨hsum,nofun,fun c hc d hd => (hhash c hc).trans (hhash d hd).symm⟩
      · rintro ⟨e,he⟩
        cases he
  · obtain ⟨e,he⟩ := herror hsum
    rw [he]
    refine ⟨⟨?_,fun h => absurd h.1 hsum⟩,fun _ h => hsum h.1,fun _ => ⟨e,rfl⟩⟩
    rintro ⟨tx,htx,-⟩
    cases htx

/-- Coloured coins go out as they should exactly if the funds do not suffice and the call stops or has coins of
one puzzle hash, or without a fee, with a puzzle hash for each amount and one for all coins. -/
theorem generateSignedTransaction_right_iff (hP : P.Lawful E) (hw : Held E P w checker coins) :
    SendsOrLacksFunds E P w checker coins amounts puzzleHashes fee ignoreMaxSendAmount ↔
      Insufficient w amounts fee coins ignoreMaxSendAmount ∧
          (Refused w amounts fee ignoreMaxSendAmount ∨ (coins.map (·.amount)).sum≠paid amounts puzzleHashes ∨
            puzzleHashes=[] ∨ SamePuzzleHash coins) ∨
        ¬ Refused w amounts fee ignoreMaxSendAmount ∧ fee=0 ∧ paid amounts puzzleHashes=amounts.sum ∧
          puzzleHashes≠[] ∧ SamePuzzleHash coins := by
  have hpaid := paid_le amounts puzzleHashes
  unfold SendsOrLacksFunds
  by_cases hrefused : Refused w amounts fee ignoreMaxSendAmount
  · have hraises := refused_raises E P coins puzzleHashes hrefused
    obtain ⟨e,he⟩ := hraises
    rw [he]
    simp [hrefused]
  · obtain ⟨hreturns,hraises⟩ := sends_iff puzzleHashes hP hw hrefused
    rw [hreturns,hraises]
    by_cases hshort : (coins.map (·.amount)).sum<amounts.sum+fee
    · have hinsufficient : Insufficient w amounts fee coins ignoreMaxSendAmount := Or.inl hshort
      rw [show ((((coins.map (·.amount)).sum : ℕ)-(amounts.sum+fee : ℕ) : ℤ).toNat)=0 by omega]
      have hnot (hfee : fee=0) (hall : paid amounts puzzleHashes=amounts.sum) :
          (coins.map (·.amount)).sum≠paid amounts puzzleHashes := by omega
      rw [Nat.add_zero]
      constructor
      · rintro (⟨hne,-⟩ | ⟨-,-,hsame⟩)
        · rw [not_and_or,not_not] at hne
          exact Or.inl ⟨hinsufficient,Or.inr (hne.imp id Or.inl)⟩
        · exact Or.inl ⟨hinsufficient,Or.inr (Or.inr (Or.inr hsame))⟩
      · rintro (⟨-,hrefuses | hne | hnil | hsame⟩ | ⟨-,hfee,hall,-⟩)
        · exact absurd hrefuses hrefused
        · exact Or.inl ⟨fun h => hne h.1,hinsufficient⟩
        · exact Or.inl ⟨fun h => h.2 hnil,hinsufficient⟩
        · by_cases hready : (coins.map (·.amount)).sum=paid amounts puzzleHashes ∧ puzzleHashes≠[]
          · exact Or.inr ⟨hready.1,hready.2,hsame⟩
          · exact Or.inl ⟨hready,hinsufficient⟩
        · exact Or.inl ⟨fun h => hnot hfee hall h.1,hinsufficient⟩
    · have hsufficient : ¬ Insufficient w amounts fee coins ignoreMaxSendAmount := by
        rintro (hlt | ⟨hcheck,maxSend,hsend,hlt⟩)
        · exact hshort hlt
        · apply hrefused
          refine Or.inr ⟨hcheck,fun m hm => ?_⟩
          rw [hsend] at hm
          rwa [← Except.ok.inj hm]
      have hbalance : (coins.map (·.amount)).sum=paid amounts puzzleHashes +
          (((coins.map (·.amount)).sum : ℕ)-(amounts.sum+fee : ℕ) : ℤ).toNat ↔
          fee=0 ∧ paid amounts puzzleHashes=amounts.sum := by omega
      rw [hbalance]
      constructor
      · rintro (⟨-,hlacks⟩ | ⟨⟨hfee,hall⟩,hrest⟩)
        · exact absurd hlacks hsufficient
        · exact Or.inr ⟨hrefused,hfee,hall,hrest⟩
      · rintro (⟨hlacks,-⟩ | ⟨-,hfee,hall,hrest⟩)
        · exact absurd hlacks hsufficient
        · exact Or.inr ⟨⟨hfee,hall⟩,hrest⟩

section Tiny

def tinyCcEnv : Env := { tinyEnv with stdHash := fun b => BitVec.ofNat 256 (natOfBytes b % (2^127-1)) }

def tinyKey (pk : G1Element) : Bytes := (pk++List.replicate 48 0).take 48

def tinyStandard : SExp → SExp → Option (ℕ × SExp)
  | .pair (.atom [2]) (.atom key),.pair (.atom []) (.pair (.pair (.atom [1]) conditions) (.pair (.atom []) (.atom []))) =>
    some (0,.pair (.ofList [.atom [ConditionOpcode.aggSigMe.value],.atom key,
      .ofBytes32 ((puzzleForConditions conditions).treeHash tinyCcEnv)]) conditions)
  | _,_ => none

def tinyMorph : SExp → SExp
  | .pair (.atom [51]) (.pair (.atom puzzleHash) rest) =>
    .pair (.atom [51]) (.pair (.ofBytes32 (tinyCcEnv.stdHash (3::puzzleHash))) rest)
  | condition => condition

def tinyEvaluate : SExp → SExp → Option (ℕ × SExp)
  | .pair (.atom [3]) (.pair _ (.pair _ (.pair _ (.pair inner _)))),.pair innerSolution _ => do
    let (cost,result) ← tinyStandard inner innerSolution
    return (cost,.ofList ((← result.asIter).map tinyMorph))
  | puzzle,solution => tinyStandard puzzle solution

def tinyCcPrograms : CcPrograms where
  evaluate := tinyEvaluate
  curry modCode args := .pair (.atom [3]) (.ofList (modCode::args))
  ccMod := .atom [4]
  puzzleForPk pk := .pair (.atom [2]) (.atom (tinyKey pk))
  genesisCoinIdForGenesisCoinChecker _ := .ok none
  signSynthetic key message := key++message
  aggregate := List.flatten
  nullSignature := []

def tinyColour : SExp := .atom [9]

def tinyCcHash (pk : G1Element) : Bytes32 := (ccPuzzleForInnerPuzzle tinyCcEnv tinyCcPrograms tinyCcPrograms.ccMod tinyColour
  (tinyCcPrograms.puzzleForPk pk)).treeHash tinyCcEnv

def tinyCcWallet : CCWallet where
  myGenesisChecker := some tinyColour
  lineageProofs := [(1,some (.atom [1])),(2,some (.atom [1]))]
  derivationRecord h := if h=tinyCcHash [1] then some [1] else if h=tinyCcHash [2] then some [2] else none
  privateKey h := if h=(tinyCcPrograms.puzzleForPk [1]).treeHash tinyCcEnv then some [1] else
    if h=(tinyCcPrograms.puzzleForPk [2]).treeHash tinyCcEnv then some [2] else none
  walletId := 2
  getMaxSendAmount := .ok 1000
  selectCoins _ := .ok []
  getNewInnerHash := 77
  currentTime := 0

def tinyCcCoin (parent : Bytes32) (pk : G1Element) (amount : ℕ) : Coin := ⟨parent,tinyCcHash pk,amount⟩

def tinyColoured (p : Primary) : ConditionWithArgs :=
  ⟨.createCoin,[bytes32 (tinyCcEnv.stdHash (3::bytes32 p.2)),intToBytes p.1]⟩

theorem parse_tinyMorph (primaries : List Primary) (fee : ℕ) :
    ((conditionList primaries fee).map tinyMorph).mapM parseSexpToCondition =
      some (primaries.map tinyColoured++if fee≠0 then [⟨.reserveFee,[intToBytes fee]⟩] else []) := by
  have hcreate : ((primaries.map fun p => makeCreateCoinCondition p.2 p.1).map tinyMorph).mapM parseSexpToCondition =
      some (primaries.map tinyColoured) := by
    rw [List.map_map,List.mapM_map]
    apply mapM_eq_some_map
    intro p _
    rfl
  unfold conditionList
  rw [List.map_append,List.mapM_append,hcreate]
  split_ifs <;> rfl

theorem tinyCcPrograms_lawful : tinyCcPrograms.Lawful tinyCcEnv := by
  constructor
  · intro pk
    refine ⟨tinyKey pk,by simp [tinyKey],rfl,fun conditions => ⟨0,Nat.zero_le _,rfl⟩⟩
  · intro checker pk primaries fee rest r hrun
    set message := SExp.ofBytes32 ((puzzleForConditions (.ofList (conditionList primaries fee))).treeHash tinyCcEnv)
    have heq : r=(0,SExp.ofList ((SExp.ofList [.atom [ConditionOpcode.aggSigMe.value],.atom (tinyKey pk),
        message]::conditionList primaries fee).map tinyMorph)) := by
      have hstandard : tinyStandard (tinyCcPrograms.puzzleForPk pk) (makeSolution primaries fee)=some (0,
          .ofList (SExp.ofList [.atom [ConditionOpcode.aggSigMe.value],.atom (tinyKey pk),message] ::
            conditionList primaries fee)) := rfl
      have hcoloured : tinyCcPrograms.evaluate (ccPuzzleForInnerPuzzle tinyCcEnv tinyCcPrograms tinyCcPrograms.ccMod
          checker (tinyCcPrograms.puzzleForPk pk)) (.pair (makeSolution primaries fee) rest) =
          ((tinyStandard (tinyCcPrograms.puzzleForPk pk) (makeSolution primaries fee)).bind fun q =>
            q.2.asIter.bind fun l => some (q.1,.ofList (l.map tinyMorph))) := rfl
      rw [hcoloured,hstandard,Option.bind_some,SExp.asIter_ofList,Option.bind_some] at hrun
      exact (Option.some.inj hrun).symm
    refine ⟨⟨.aggSigMe,[tinyKey pk,bytes32 ((puzzleForConditions (.ofList (conditionList primaries fee))).treeHash
      tinyCcEnv)]⟩::(primaries.map tinyColoured++if fee≠0 then [⟨.reserveFee,[intToBytes fee]⟩] else []),?_,?_⟩
    · rw [heq,parseSexpToConditions_ofList,List.map_cons,List.mapM_cons,parse_tinyMorph]
      rfl
    · intro c hc hop
      obtain rfl | hc := List.mem_cons.mp hc
      · cases hop
      obtain hcreate | hfee := List.mem_append.mp hc
      · obtain ⟨p,hp,rfl⟩ := List.mem_map.mp hcreate
        exact ⟨_,p,hp,rfl⟩
      · split_ifs at hfee
        · rw [List.mem_singleton.mp hfee] at hop
          cases hop
        · cases hfee

theorem tinyCcHash_ne : tinyCcHash [2]≠tinyCcHash [1] := by decide +kernel

theorem tinyKey_ne : (tinyCcPrograms.puzzleForPk [2]).treeHash tinyCcEnv ≠
    (tinyCcPrograms.puzzleForPk [1]).treeHash tinyCcEnv := by decide +kernel

theorem tinyCc_derived {pk : G1Element} (hpk : pk=[1] ∨ pk=[2]) : ∃ pubkey,
    tinyCcWallet.derivationRecord (tinyCcHash pk)=some pubkey ∧ (ccPuzzleForInnerPuzzle tinyCcEnv tinyCcPrograms
      tinyCcPrograms.ccMod tinyColour (tinyCcPrograms.puzzleForPk pubkey)).treeHash tinyCcEnv=tinyCcHash pk ∧
    (tinyCcWallet.privateKey ((tinyCcPrograms.puzzleForPk pubkey).treeHash tinyCcEnv)).isSome := by
  have hrecord (h : Bytes32) : tinyCcWallet.derivationRecord h =
      if h=tinyCcHash [1] then some [1] else if h=tinyCcHash [2] then some [2] else none := rfl
  have hkey (h : Bytes32) : tinyCcWallet.privateKey h =
      if h=(tinyCcPrograms.puzzleForPk [1]).treeHash tinyCcEnv then some [1] else
        if h=(tinyCcPrograms.puzzleForPk [2]).treeHash tinyCcEnv then some [2] else none := rfl
  refine ⟨pk,?_,rfl,?_⟩
  · rcases hpk with rfl | rfl
    · rw [hrecord,if_pos rfl]
    · rw [hrecord,if_neg tinyCcHash_ne,if_pos rfl]
  · rcases hpk with rfl | rfl
    · rw [hkey,if_pos rfl,Option.isSome_some]
    · rw [hkey,if_neg tinyKey_ne,if_pos rfl,Option.isSome_some]

theorem tinyCc_held {pk : G1Element} (hpk : pk=[1] ∨ pk=[2]) :
    Held tinyCcEnv tinyCcPrograms tinyCcWallet tinyColour [tinyCcCoin 1 [1] 60,tinyCcCoin 2 pk 40] where
  nonempty := nofun
  colour := rfl
  genesis := ⟨none,rfl⟩
  derived := by
    intro c hc
    obtain rfl | hc := List.mem_cons.mp hc
    · exact tinyCc_derived (Or.inl rfl)
    · rw [List.mem_singleton.mp hc]
      exact tinyCc_derived hpk
  lineage := by
    intro c hc
    obtain rfl | hc := List.mem_cons.mp hc
    · rfl
    · rw [List.mem_singleton.mp hc]
      rfl
  supply := by simp [tinyCcCoin]

theorem tinyCc_not_refused {fee : ℕ} (hfee : fee≤5) : ¬ Refused tinyCcWallet [70] fee false := by
  rintro (hlarge | ⟨-,hmax⟩)
  · exact absurd hlarge (by decide)
  · have hlt := hmax 1000 rfl
    simp at hlt
    omega

theorem generateSignedTransaction_right_oneHash :
    SendsOrLacksFunds tinyCcEnv tinyCcPrograms tinyCcWallet tinyColour [tinyCcCoin 1 [1] 60,tinyCcCoin 2 [1] 40]
      [70] [5] 0 false := by
  have hsame : SamePuzzleHash [tinyCcCoin 1 [1] 60,tinyCcCoin 2 [1] 40] := by
    intro c hc d hd
    simp only [List.mem_cons,List.not_mem_nil,or_false] at hc hd
    rcases hc with rfl | rfl <;> rcases hd with rfl | rfl <;> rfl
  apply (generateSignedTransaction_right_iff tinyCcPrograms_lawful (tinyCc_held (Or.inl rfl))).mpr
  exact Or.inr ⟨tinyCc_not_refused (by omega),rfl,rfl,nofun,hsame⟩

theorem tinyCc_not_insufficient {fee : ℕ} (hfee : fee≤5) (pk : G1Element) :
    ¬ Insufficient tinyCcWallet [70] fee [tinyCcCoin 1 [1] 60,tinyCcCoin 2 pk 40] false := by
  rintro (hshort | ⟨-,maxSend,hsend,hlt⟩)
  · simp [tinyCcCoin] at hshort
    omega
  · obtain rfl : 1000=maxSend := Except.ok.inj hsend
    simp at hlt
    omega

/-- Two coins of different puzzle hashes show one puzzle, and a fee leaves the ring out of balance. -/
theorem mixedCoins_unspendable :
    ¬ SendsOrLacksFunds tinyCcEnv tinyCcPrograms tinyCcWallet tinyColour [tinyCcCoin 1 [1] 60,tinyCcCoin 2 [2] 40]
      [70] [5] 0 false ∧
    ¬ SendsOrLacksFunds tinyCcEnv tinyCcPrograms tinyCcWallet tinyColour [tinyCcCoin 1 [1] 60,tinyCcCoin 2 [1] 40]
      [70] [5] 5 false := by
  constructor
  · rintro (⟨-,hlacks⟩ | hsends)
    · exact tinyCc_not_insufficient (by omega) _ hlacks
    · obtain ⟨-,-,hsame⟩ := (sends_iff _ tinyCcPrograms_lawful (tinyCc_held (Or.inr rfl))
        (tinyCc_not_refused (by omega))).1.mp hsends
      exact tinyCcHash_ne (hsame (tinyCcCoin 2 [2] 40) (by simp) (tinyCcCoin 1 [1] 60) (by simp))
  · rintro (⟨-,hlacks⟩ | hsends)
    · exact tinyCc_not_insufficient le_rfl _ hlacks
    · obtain ⟨hbalance,-⟩ := (sends_iff _ tinyCcPrograms_lawful (tinyCc_held (Or.inl rfl))
        (tinyCc_not_refused le_rfl)).1.mp hsends
      exact absurd hbalance (by decide)

end Tiny

section Accounting

def tinyRing : List SpendableCC :=
  [⟨tinyCcCoin 1 [1] 60,none,tinyCcPrograms.puzzleForPk [1],.atom [1]⟩,
    ⟨tinyCcCoin 2 [2] 40,none,tinyCcPrograms.puzzleForPk [2],.atom [1]⟩]

def tinyRingSolutions : List SExp := [makeSolution [(70,5)] 0,makeSolution [(30,6)] 0]

variable {E : Env} {P : CcPrograms} {modCode checker : SExp} {l : List SpendableCC} {innersols : List SExp}
  {sigs : List G2Element} {bundle : ProgramBundle}

def outputAmounts (P : CcPrograms) (l : List SpendableCC) (innersols : List SExp) : Check (List ℤ) :=
  (l.zip innersols).mapM fun c => outputAmount P c.1.innerPuzzle c.2

/-- The amount of each coin without what its inner puzzle creates. -/
def ringDeltas (l : List SpendableCC) (outs : List ℤ) : List ℤ :=
  List.zipWith (fun (c : SpendableCC) out => (c.coin.amount : ℤ)-out) l outs

/-- The spend of a coin shows the coins on both of its sides and its own subtotal. -/
def SeesNeighbours (E : Env) (P : CcPrograms) (modCode checker : SExp) (l : List SpendableCC) (innersols : List SExp)
    (subtotals : List ℤ) (i : ℕ) (spend : ProgramSpend) : Prop :=
  ∃ innersol prev own next s,innersols[i]?=some innersol ∧ l[(i+l.length-1) % l.length]?=some prev ∧
    l[i]?=some own ∧ l[(i+1) % l.length]?=some next ∧ subtotals[i]?=some s ∧ 0 ≤ s ∧
    spend=⟨own.coin,ccPuzzleForInnerPuzzle E P modCode checker own.innerPuzzle,
      .ofList [innersol,bundleForSpendableCcList prev,bundleForSpendableCcList own,bundleForSpendableCcList next,
        .ofInt s]⟩

theorem subtotalsForDeltas_ring {deltas subtotals : List ℤ} (hsum : deltas.sum=0)
    (h : subtotalsForDeltas deltas = .ok subtotals) : RingSubtotals deltas subtotals := by
  unfold subtotalsForDeltas at h
  dsimp only at h
  cases hmin : (runningSums 0 deltas).min? with
  | none =>
    rw [hmin] at h
    cases h
  | some subtotalOffset =>
    rw [hmin] at h
    rw [← Except.ok.inj h]
    exact ringSubtotals_offset hsum hmin

theorem spendBundle_ok_iff (hl : l≠[]) :
    (∃ bundle,spendBundleForSpendableCcs E P modCode checker l innersols sigs = .ok bundle) ↔
      innersols.length=l.length ∧ ∃ outs,outputAmounts P l innersols = .ok outs ∧
        (l.map fun c => (c.coin.amount : ℤ)).sum=outs.sum := by
  constructor
  · intro ⟨bundle,h⟩
    obtain ⟨_,hlength,h'⟩ := bind_ok.mp h
    obtain ⟨outs,houts,-⟩ := bind_ok.mp h'
    have hinner : innersols.length=l.length := by simpa using raiseIf_eq_ok.mp hlength
    refine ⟨hinner,outs,houts,?_⟩
    by_contra hne
    obtain ⟨e,he⟩ := (spendBundle_spec E modCode checker sigs hl hinner houts).1 hne
    rw [h] at he
    cases he
  · intro ⟨hinner,outs,houts,hsum⟩
    obtain ⟨spends,hspends,-⟩ := (spendBundle_spec E modCode checker sigs hl hinner houts).2 hsum
    exact ⟨_,hspends⟩

theorem seesNeighbours_of_ringSpend {outs subtotals : List ℤ} (hring : RingSubtotals (ringDeltas l outs) subtotals)
    {i : ℕ} {spend : ProgramSpend} (h : ringSpend E P modCode checker l innersols subtotals i = .ok spend) :
    SeesNeighbours E P modCode checker l innersols subtotals i spend := by
  unfold ringSpend at h
  simp only [bind_ok,index_eq_ok,List.getElem?_map,Option.map_eq_some_iff] at h
  obtain ⟨own,hown,_,⟨prev,hprev,rfl⟩,_,⟨own',hown',rfl⟩,_,⟨next,hnext,rfl⟩,innersol,hinnersol,s,hs,h⟩ := h
  obtain rfl := Option.some.inj (hown.symm.trans hown')
  have hnonneg := hring.nonneg (List.mem_of_getElem? hs)
  exact ⟨innersol,prev,own,next,s,hinnersol,hprev,hown,hnext,hs,hnonneg,(Except.ok.inj h).symm⟩

theorem spendBundle_ring (h : spendBundleForSpendableCcs E P modCode checker l innersols sigs = .ok bundle) :
    ∃ outs subtotals,outputAmounts P l innersols = .ok outs ∧ RingSubtotals (ringDeltas l outs) subtotals ∧
      bundle.coinSpends.length=l.length ∧ ∀ i spend,bundle.coinSpends[i]?=some spend →
        SeesNeighbours E P modCode checker l innersols subtotals i spend := by
  obtain ⟨_,_,h⟩ := bind_ok.mp h
  obtain ⟨outs,houts,h⟩ := bind_ok.mp h
  obtain ⟨subtotals,hsubtotals,h⟩ := bind_ok.mp h
  obtain ⟨_,hbalance,h⟩ := bind_ok.mp h
  obtain ⟨spends,hspends,h⟩ := bind_ok.mp h
  have hsum : (ringDeltas l outs).sum=0 := by simpa [ringDeltas] using raiseIf_eq_ok.mp hbalance
  have hring := subtotalsForDeltas_ring hsum hsubtotals
  have hall := mapM_eq_ok.mp hspends
  rw [← Except.ok.inj h]
  refine ⟨outs,subtotals,houts,hring,?_,?_⟩
  · simp [← hall.length_eq]
  · intro i spend hspend
    obtain ⟨hi,hget⟩ := List.getElem?_eq_some_iff.mp hspend
    have hrun := hall.get (by rw [hall.length_eq]; exact hi) hi
    simp only [List.get_eq_getElem,List.getElem_range,hget] at hrun
    exact seesNeighbours_of_ringSpend hring hrun

/-- Non-empty lists balance or fail, the subtotals of deltas that sum up to 0 go around the ring, and each spend of a
bundle has its own place in it. -/
theorem colouredRing_accounting (E : Env) (P : CcPrograms) (modCode checker : SExp) :
    (∀ l innersols sigs,l≠[] → ((∃ bundle,spendBundleForSpendableCcs E P modCode checker l innersols sigs = .ok bundle) ↔
      innersols.length=l.length ∧ ∃ outs,outputAmounts P l innersols = .ok outs ∧
        (l.map fun c => (c.coin.amount : ℤ)).sum=outs.sum)) ∧ (∀ deltas : List ℤ,deltas≠[] → deltas.sum=0 →
      ∃ subtotals,subtotalsForDeltas deltas = .ok subtotals ∧ RingSubtotals deltas subtotals) ∧
    ∀ l innersols sigs bundle,spendBundleForSpendableCcs E P modCode checker l innersols sigs = .ok bundle →
      ∃ outs subtotals,outputAmounts P l innersols = .ok outs ∧ RingSubtotals (ringDeltas l outs) subtotals ∧
        bundle.coinSpends.length=l.length ∧ ∀ i spend,bundle.coinSpends[i]?=some spend →
          SeesNeighbours E P modCode checker l innersols subtotals i spend := by
  refine ⟨fun l innersols sigs hl => spendBundle_ok_iff hl,?_,fun l innersols sigs bundle h => spendBundle_ring h⟩
  intro deltas hne hsum
  obtain ⟨subtotals,hsubtotals,-⟩ := subtotalsForDeltas_ok deltas hne
  exact ⟨subtotals,hsubtotals,subtotalsForDeltas_ring hsum hsubtotals⟩

theorem tinyRing_outputs : outputAmounts tinyCcPrograms tinyRing tinyRingSolutions = .ok [70,30] := by
  unfold outputAmounts tinyRing tinyRingSolutions
  simp only [List.zip_cons_cons,List.zip_nil_right,List.mapM_cons,List.mapM_nil,
    outputAmount_standard tinyCcPrograms_lawful]
  rfl

/-- Two coins of 60 and 40 pay 70 and 30. -/
theorem colouredRing_accounting_two : ∃ bundle subtotals,
    spendBundleForSpendableCcs tinyCcEnv tinyCcPrograms tinyCcPrograms.ccMod tinyColour tinyRing tinyRingSolutions [] =
      .ok bundle ∧ RingSubtotals [-10,10] subtotals ∧ ∀ i spend,bundle.coinSpends[i]?=some spend →
        SeesNeighbours tinyCcEnv tinyCcPrograms tinyCcPrograms.ccMod tinyColour tinyRing tinyRingSolutions subtotals i spend := by
  obtain ⟨hbalance,-,hring⟩ := colouredRing_accounting tinyCcEnv tinyCcPrograms tinyCcPrograms.ccMod tinyColour
  obtain ⟨bundle,hbundle⟩ := (hbalance tinyRing tinyRingSolutions [] nofun).mpr ⟨rfl,[70,30],tinyRing_outputs,rfl⟩
  obtain ⟨outs,subtotals,houts,hsubtotals,-,hspends⟩ := hring _ _ _ _ hbundle
  obtain rfl := Except.ok.inj (tinyRing_outputs.symm.trans houts)
  exact ⟨bundle,subtotals,hbundle,hsubtotals,hspends⟩

/-- No deltas sum up to 0, and there is no smallest subtotal. -/
theorem subtotalsForDeltas_nil : ([] : List ℤ).sum=0 ∧ subtotalsForDeltas [] = .error (.raised .value) := ⟨rfl,rfl⟩

end Accounting

end RoseChain
