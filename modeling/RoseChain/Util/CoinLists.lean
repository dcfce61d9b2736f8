import RoseChain.Util.MerkleRoots

namespace RoseChain
open Lib MerkleSet
variable {E : Env}

theorem puzzlehashCoinsMap_get? (coins : List Coin) (puzzleHash : Bytes32) :
    (puzzlehashCoinsMap coins).get? puzzleHash =
      if ∃ c∈coins,c.puzzleHash=puzzleHash then some (coins.filter fun c => decide (c.puzzleHash=puzzleHash))
      else none := by
  induction coins using List.reverseRecOn with
  | nil => simp [puzzlehashCoinsMap]
  | append_singleton coins c ih =>
    have hset : puzzlehashCoinsMap (coins++[c])=(puzzlehashCoinsMap coins).set c.puzzleHash
        (((puzzlehashCoinsMap coins).get? c.puzzleHash).getD []++[c]) := by
      simp only [puzzlehashCoinsMap,List.foldl_append,List.foldl_cons,List.foldl_nil]
    rw [hset,Dict.get?_set]
    by_cases hc : c.puzzleHash=puzzleHash
    · subst hc
      have hnew : ∃ c'∈coins++[c],c'.puzzleHash=c.puzzleHash := ⟨c,by simp,rfl⟩
      rw [if_pos rfl,ih,if_pos hnew,List.filter_append]
      by_cases hold : ∃ c'∈coins,c'.puzzleHash=c.puzzleHash
      · rw [if_pos hold]
        simp
      · rw [if_neg hold]
        have hnone : coins.filter (fun c' => decide (c'.puzzleHash=c.puzzleHash))=[] := by
          rw [List.filter_eq_nil_iff]
          intro c' hc' heq
          exact hold ⟨c',hc',of_decide_eq_true heq⟩
        simp [hnone]
    · rw [if_neg hc,ih,List.filter_append]
      simp [hc]

variable {coins : List Coin}

variable {puzzleHash : Bytes32}

theorem mem_puzzlehashCoinsMap {l : List Coin} : (puzzleHash,l)∈(puzzlehashCoinsMap coins).entries ↔
      (∃ c∈coins,c.puzzleHash=puzzleHash) ∧ l=coins.filter fun c => decide (c.puzzleHash=puzzleHash) := by
  rw [Dict.mem_entries,puzzlehashCoinsMap_get?]
  split_ifs with h
  · rw [Option.some.injEq]
    exact ⟨fun heq => ⟨h,heq.symm⟩,fun heq => heq.2.symm⟩
  · exact iff_of_false (fun heq => by cases heq) fun heq => h heq.1

def coinsWith (added : List Coin) (puzzleHash : Bytes32) : List Coin :=
  added.filter fun c => decide (c.puzzleHash=puzzleHash)

variable {added : List Coin}

theorem mem_coinsWith {c : Coin} : c∈coinsWith added puzzleHash ↔ c∈added ∧ c.puzzleHash=puzzleHash := by
  simp [coinsWith]

theorem mem_additionLeaves {v : Bytes32} : v∈additionLeaves E added ↔
    (∃ c∈added,c.puzzleHash=v) ∨ ∃ c∈added,hashCoinList E (coinsWith added c.puzzleHash)=v := by
  unfold additionLeaves
  rw [List.mem_flatMap]
  constructor
  · rintro ⟨⟨puzzleHash,l⟩,he,hv⟩
    obtain ⟨⟨c,hc,rfl⟩,rfl⟩ := mem_puzzlehashCoinsMap.mp he
    rcases List.mem_cons.mp hv with rfl | hv
    · exact Or.inl ⟨c,hc,rfl⟩
    · exact Or.inr ⟨c,hc,(List.mem_singleton.mp hv).symm⟩
  · have hentry (c : Coin) (hc : c∈added) :
        (c.puzzleHash,coinsWith added c.puzzleHash)∈(puzzlehashCoinsMap added).entries :=
      mem_puzzlehashCoinsMap.mpr ⟨⟨c,hc,rfl⟩,rfl⟩
    rintro (⟨c,hc,rfl⟩ | ⟨c,hc,rfl⟩)
    · exact ⟨_,hentry c hc,by simp⟩
    · exact ⟨_,hentry c hc,by simp⟩

variable (E) in
/-- `hash_coin_list` leaves the list that it is given sorted by name, the largest first. -/
def sortCoinList (coins : List Coin) : List Coin := coins.insertionSort fun c c' => E.coinName c ≥ E.coinName c'

theorem sortCoinList_perm (coins : List Coin) : (sortCoinList E coins).Perm coins := List.perm_insertionSort _ coins

/-- The string that `hash_coin_list` hashes. -/
def coinListString (E : Env) (coins : List Coin) : Bytes :=
  ((coins.map E.coinName).insertionSort (· ≥ ·)).flatMap bytes32

theorem hashCoinList_eq (coins : List Coin) : hashCoinList E coins=E.stdHash (coinListString E coins) := rfl

theorem flatMap_bytes32_inj {l l' : List Bytes32} (h : l.flatMap bytes32=l'.flatMap bytes32) : l=l' := by
  have hne (x : Bytes32) (b : Bytes) : bytes32 x++b≠[] := by
    intro h
    have hlen := congrArg List.length h
    rw [List.length_append,bytes32_length] at hlen
    simp at hlen
  induction l generalizing l' with
  | nil =>
    cases l' with
    | nil => rfl
    | cons y l' => exact absurd h.symm (hne y _)
  | cons x l ih =>
    cases l' with
    | nil => exact absurd h (hne x _)
    | cons y l' =>
      rw [List.flatMap_cons,List.flatMap_cons] at h
      obtain ⟨hx,hl⟩ := List.append_inj h (by rw [bytes32_length,bytes32_length])
      rw [bytes32_inj hx,ih hl]

variable {coins' : List Coin}

section
variable (h : coins.Perm coins')
include h

theorem coinListString_perm : coinListString E coins=coinListString E coins' := by
  unfold coinListString
  have : Std.Total (α := Bytes32) (· ≥ ·) := ⟨fun a b => by simp only [ge_iff_le,BitVec.le_def]; omega⟩
  have : IsTrans Bytes32 (· ≥ ·) := ⟨fun a b c => by simp only [ge_iff_le,BitVec.le_def]; omega⟩
  have hsorted (l : List Bytes32) : (l.insertionSort (· ≥ ·)).Pairwise (· ≥ ·) :=
    List.pairwise_insertionSort (· ≥ ·) l
  have hperm : ((coins.map E.coinName).insertionSort (· ≥ ·)).Perm ((coins'.map E.coinName).insertionSort (· ≥ ·)) :=
    ((List.perm_insertionSort _ _).trans (h.map _)).trans (List.perm_insertionSort _ _).symm
  rw [hperm.eq_of_pairwise (fun a b _ _ hab hba => BitVec.le_antisymm hba hab) (hsorted _) (hsorted _)]

theorem hashCoinList_perm : hashCoinList E coins=hashCoinList E coins' := by
  rw [hashCoinList_eq,hashCoinList_eq,coinListString_perm h]

theorem coinsWith_perm (puzzleHash : Bytes32) :
    (coinsWith coins puzzleHash).Perm (coinsWith coins' puzzleHash) := h.filter _

theorem mem_additionLeaves_perm (v : Bytes32) : v∈additionLeaves E coins ↔ v∈additionLeaves E coins' := by
  simp only [mem_additionLeaves,h.mem_iff,hashCoinList_perm (coinsWith_perm h _)]

theorem additionsRootOf_perm :
    additionsRootOf E coins=additionsRootOf E coins' := rootOf_congr (mem_additionLeaves_perm h)

end

theorem removalsRootOf_perm {names names' : List Bytes32} (h : names.Perm names') :
    removalsRootOf E names=removalsRootOf E names' := rootOf_congr fun _ => h.mem_iff

/-- Lists with one string have the same coins, unless two of them share a name. -/
theorem perm_of_coinListString (h : coinListString E coins=coinListString E coins')
    (hnames : ∀ c∈coins++coins',∀ c'∈coins++coins',E.coinName c=E.coinName c' → c=c') : coins.Perm coins' := by
  have hsorted := flatMap_bytes32_inj h
  have hperm : (coins.map E.coinName).Perm (coins'.map E.coinName) := by
    have h₁ := List.perm_insertionSort (· ≥ ·) (coins.map E.coinName)
    rw [hsorted] at h₁
    exact h₁.symm.trans (List.perm_insertionSort _ _)
  -- A name leads back to its coin.
  let back (n : Bytes32) : Option Coin := (coins++coins').find? fun c => decide (E.coinName c=n)
  have hback (c : Coin) (hc : c∈coins++coins') : back (E.coinName c)=some c := by
    cases hfind : back (E.coinName c) with
    | none =>
      have hno := List.find?_eq_none.mp hfind c hc
      simp at hno
    | some c' =>
      have hname := List.find?_some hfind
      rw [decide_eq_true_eq] at hname
      rw [hnames c' (List.mem_of_find?_eq_some hfind) c hc hname]
  have hall {l : List Coin} (hl : ∀ c∈l,c∈coins++coins') : (l.map E.coinName).filterMap back=l := by
    rw [List.filterMap_map]
    induction l with
    | nil => rfl
    | cons c l ih =>
      rw [List.filterMap_cons_some (f := back ∘ E.coinName) (hback c (hl c List.mem_cons_self)),
        ih fun c' hc' => hl c' (List.mem_cons_of_mem _ hc')]
  have hfilter := hperm.filterMap back
  rwa [hall fun c hc => List.mem_append_left _ hc,hall fun c hc => List.mem_append_right _ hc] at hfilter

end RoseChain
