import Mathlib.Data.Nat.Digits.Lemmas
import RoseChain.FullNode.BundleTools

namespace RoseChain
open Lib

/-- The entry of a spend: parent, puzzle, amount, solution. -/
def EntryOf (coinSpend : CoinSpend) (entry : SExp) : Prop :=
  ∃ puzzle solution,sexpFromStream coinSpend.puzzleReveal=some (puzzle,[]) ∧
    sexpFromStream coinSpend.solution=some (solution,[]) ∧
    entry = .ofList [.ofBytes32 coinSpend.coin.parentCoinInfo,puzzle,.ofInt coinSpend.coin.amount,solution]

/-- Both programs are serializations with nothing left over. -/
def CoinSpend.WellFormed (coinSpend : CoinSpend) : Prop :=
  (∃ puzzle,sexpFromStream coinSpend.puzzleReveal=some (puzzle,[])) ∧
    ∃ solution,sexpFromStream coinSpend.solution=some (solution,[])

/-- The puzzle is the one that the coin is locked with. -/
def CoinSpend.RevealsPuzzle (E : Env) (coinSpend : CoinSpend) : Prop :=
  ∀ puzzle,sexpFromStream coinSpend.puzzleReveal=some (puzzle,[]) → puzzle.treeHash E=coinSpend.coin.puzzleHash

theorem ReadsAs.ofList {l : List (Bytes × SExp)} (h : ∀ p∈l,ReadsAs p.1 p.2) :
    ReadsAs (l.flatMap (fun p => 0xff::p.1)++[0x80]) (.ofList (l.map (·.2))) := by
  induction l with
  | nil => exact ReadsAs.nil
  | cons p l ih =>
    have hp := (h p List.mem_cons_self).pair (ih fun q hq => h q (List.mem_cons_of_mem _ hq))
    simpa [SExp.ofList] using hp

variable {n k : ℕ}

theorem bytesOfNat_length (h : n<256^k) : (bytesOfNat n).length≤k := by
  unfold bytesOfNat
  rw [List.length_map,List.length_reverse]
  exact (Nat.digits_length_le_iff (by decide) n).mpr h

theorem intToBytes_length (h : n<256^k) : (intToBytes (n : ℤ)).length≤k+1 := by
  have hlen := bytesOfNat_length h
  rw [← Int.ofNat_eq_natCast]
  unfold intToBytes
  dsimp only
  cases hb : bytesOfNat n with
  | nil => simp
  | cons x t =>
    rw [hb] at hlen
    dsimp only
    split_ifs
    · omega
    · rw [List.length_cons]
      omega

variable {coinSpend : CoinSpend}

theorem appendCoinSpend_reads (hwf : coinSpend.WellFormed) (hamount : coinSpend.coin.amount<2^64) :
    ∃ b entry,(∀ r,appendCoinSpend r coinSpend=some (r++0xff::b)) ∧ EntryOf coinSpend entry ∧ ReadsAs b entry := by
  obtain ⟨⟨puzzle,hpuzzle⟩,solution,hsolution⟩ := hwf
  obtain ⟨parent,hparent⟩ : ∃ c,(SExp.ofBytes32 coinSpend.coin.parentCoinInfo).asBin=some c := by
    apply asBin_short
    rw [bytes32_length]
    decide
  obtain ⟨amount,hamount⟩ : ∃ c,(SExp.ofInt coinSpend.coin.amount).asBin=some c := by
    have hlen := intToBytes_length (k := 8) (n := coinSpend.coin.amount) (by omega)
    exact asBin_short (by omega)
  have hlist : ∀ p∈[(parent,.ofBytes32 coinSpend.coin.parentCoinInfo),(coinSpend.puzzleReveal,puzzle),
      (amount,.ofInt coinSpend.coin.amount),(coinSpend.solution,solution)],ReadsAs p.1 p.2 := by
    simp only [List.mem_cons,List.not_mem_nil,or_false,forall_eq_or_imp,forall_eq]
    exact ⟨readsAs_asBin hparent,.of_stream hpuzzle,readsAs_asBin hamount,.of_stream hsolution⟩
  refine ⟨_,_,?_,⟨puzzle,solution,hpuzzle,hsolution,rfl⟩,ReadsAs.ofList hlist⟩
  intro r
  unfold appendCoinSpend
  rw [hparent,hamount]
  simp

variable {coinSpends : List CoinSpend}

theorem foldlM_appendCoinSpend (hwf : ∀ s∈coinSpends,s.WellFormed)
    (hamount : ∀ s∈coinSpends,s.coin.amount<2^64) (r : Bytes) :
    ∃ l : List (Bytes × SExp),coinSpends.foldlM appendCoinSpend r=some (r++l.flatMap fun p => 0xff::p.1) ∧
      List.Forall₂ EntryOf coinSpends (l.map (·.2)) ∧ ∀ p∈l,ReadsAs p.1 p.2 := by
  induction coinSpends generalizing r with
  | nil => exact ⟨[],by simp,.nil,by simp⟩
  | cons s coinSpends ih =>
    obtain ⟨b,entry,happend,hentry,hb⟩ :=
      appendCoinSpend_reads (hwf s List.mem_cons_self) (hamount s List.mem_cons_self)
    obtain ⟨l,hfold,hentries,hl⟩ := ih (fun s hs => hwf s (List.mem_cons_of_mem _ hs))
      (fun s hs => hamount s (List.mem_cons_of_mem _ hs)) (r++0xff::b)
    refine ⟨(b,entry)::l,?_,.cons hentry hentries,?_⟩
    · rw [List.foldlM_cons,happend,Option.bind_eq_bind,Option.bind_some,hfold]
      simp
    · simp only [List.mem_cons,forall_eq_or_imp]
      exact ⟨hb,hl⟩

theorem entryList_reads (hwf : ∀ s∈coinSpends,s.WellFormed) (hamount : ∀ s∈coinSpends,s.coin.amount<2^64) :
    ∃ cseList entries,spendBundleToSerializedCoinSpendEntryList coinSpends=some cseList ∧
      ReadsAs cseList (.ofList entries) ∧ List.Forall₂ EntryOf coinSpends entries := by
  obtain ⟨l,hfold,hentries,hl⟩ := foldlM_appendCoinSpend hwf hamount []
  refine ⟨_,l.map (·.2),?_,ReadsAs.ofList hl,hentries⟩
  unfold spendBundleToSerializedCoinSpendEntryList
  rw [hfold]
  rfl

theorem processCoinSpend_entry {E : Env} {entry : SExp} (h : EntryOf coinSpend entry)
    (hreveal : coinSpend.RevealsPuzzle E) : processCoinSpend E entry=some coinSpend.coin := by
  obtain ⟨puzzle,solution,hpuzzle,-,rfl⟩ := h
  simp [SExp.ofList,SExp.ofBytes32,SExp.ofInt,processCoinSpend,intFromBytes_intToBytes,hreveal puzzle hpuzzle]

/-- The generator is the quoted list of spends, and the validator reads the coins off it. -/
theorem simpleSolutionGenerator_faithful (E : Env) (coinSpends : List CoinSpend) (hwf : ∀ s∈coinSpends,s.WellFormed)
    (hamount : ∀ s∈coinSpends,s.coin.amount<2^64) :
    ∃ generator entries,simpleSolutionGenerator coinSpends=some generator ∧ generator.generatorArgs=[] ∧
      sexpFromStream generator.program=some (.pair (.atom [1]) (.ofList [.ofList entries]),[]) ∧
      List.Forall₂ EntryOf coinSpends entries ∧
      ((∀ s∈coinSpends,s.RevealsPuzzle E) → entries.mapM (processCoinSpend E)=some (coinSpends.map (·.coin))) := by
  obtain ⟨cseList,entries,hlist,hreads,hentries⟩ := entryList_reads hwf hamount
  refine ⟨⟨0xff::[1]++(0xff::cseList++[0x80]),[]⟩,entries,?_,rfl,?_,hentries,?_⟩
  · unfold simpleSolutionGenerator
    rw [hlist]
    rfl
  · have hquote : ReadsAs [1] (.atom [1]) := readsAs_asBin rfl
    exact (hquote.pair (hreads.pair ReadsAs.nil)).stream
  · intro hreveal
    clear hlist hreads hwf hamount
    induction hentries with
    | nil => rfl
    | cons hentry _ ih =>
      have hcoin := processCoinSpend_entry hentry (hreveal _ List.mem_cons_self)
      have hcoins := ih fun s hs => hreveal s (List.mem_cons_of_mem _ hs)
      simp [List.mapM_cons,hcoin,hcoins]

/-- A coin of the largest amount and a coin of none. -/
theorem simpleSolutionGenerator_faithful_two :
    ∃ generator entries,simpleSolutionGenerator [⟨⟨1,0,2^64-1⟩,[0xff,1,0x80],[0x80]⟩,⟨⟨2,0,0⟩,[1],[0x82,1,2]⟩] =
        some generator ∧ generator.generatorArgs=[] ∧
      sexpFromStream generator.program=some (.pair (.atom [1]) (.ofList [.ofList entries]),[]) ∧
      List.Forall₂ EntryOf [⟨⟨1,0,2^64-1⟩,[0xff,1,0x80],[0x80]⟩,⟨⟨2,0,0⟩,[1],[0x82,1,2]⟩] entries ∧
      ((∀ s∈[(⟨⟨1,0,2^64-1⟩,[0xff,1,0x80],[0x80]⟩ : CoinSpend),⟨⟨2,0,0⟩,[1],[0x82,1,2]⟩],
          s.RevealsPuzzle tinyEnv) → entries.mapM (processCoinSpend tinyEnv)=some [⟨1,0,2^64-1⟩,⟨2,0,0⟩]) := by
  apply simpleSolutionGenerator_faithful
  · simp only [List.mem_cons,List.not_mem_nil,or_false,forall_eq_or_imp,forall_eq]
    exact ⟨⟨⟨_,rfl⟩,_,rfl⟩,⟨_,rfl⟩,_,rfl⟩
  · decide

end RoseChain
