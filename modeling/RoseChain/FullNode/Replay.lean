import RoseChain.FullNode.CoinLedger

namespace RoseChain
open Lib

def World.empty (blockCacheSize coinCacheSize : ℕ) : World where
  db := ⟨Dict.empty,Dict.empty,Dict.empty⟩
  saved := none
  blockCache := .new blockCacheSize
  coinRecordCache := .new coinCacheSize
  chain := ⟨Dict.empty,Dict.empty,Dict.empty,Dict.empty,none⟩
  interrupt := none

variable (E : Env) (fx : FullBlock → Effects)

/-- Folds `new_block` over the transaction blocks of a list. -/
def foldNewBlock (l : List FullBlock) : NodeM Unit :=
  (l.filter (·.isTransactionBlock)).forM fun b => CoinStore.newBlock E b (fx b).2 (fx b).1

/-- The coin store from scratch, in a transaction of its own. -/
def replayCoins (l : List FullBlock) : NodeM Unit := do
  beginTransaction
  foldNewBlock E fx l

/-- The blocks of a list post one after the other. -/
inductive PostAll : CoinBook → List FullBlock → CoinBook → Prop
  | nil (book : CoinBook) : PostAll book [] book
  | cons {b : FullBlock} {l : List FullBlock} {book book₁ book₂ : CoinBook}
      (hb : Posts E b (fx b) book book₁) (h : PostAll book₁ l book₂) : PostAll book (b::l) book₂

/-- The book after all blocks of a list, from an empty one. -/
def Replays (l : List FullBlock) (book : CoinBook) : Prop := PostAll E fx Book.empty l book

def deltas (l : List FullBlock) : List (Delta Bytes32 CoinPayload) :=
  l.map fun b => blockDelta E b (fx b)

/-- Each block of a list stands at the height of its place. -/
def InHeightOrder (l : List FullBlock) : Prop := ∀ i (h : i<l.length),l[i].height=i

variable {E fx} {l m : List FullBlock} {b : FullBlock} {book book₁ book₂ : CoinBook} {w : World}

@[simp] theorem blockDelta_height (b : FullBlock) (e : Effects) : (blockDelta E b e).height=b.height := by
  unfold blockDelta
  split <;> rfl

variable {e : Effects}

theorem Posts.unique (h : Posts E b e book book₁) (h' : Posts E b e book book₂) : book₁=book₂ := by
  simpa [h.applied] using h'.applied

theorem PostAll.append (h : PostAll E fx book l book₁) (h' : PostAll E fx book₁ m book₂) :
    PostAll E fx book (l++m) book₂ := by
  induction h with
  | nil => exact h'
  | cons hb _ ih => exact .cons hb (ih h')

theorem PostAll.split (h : PostAll E fx book (l++m) book₂) :
    ∃ book₁,PostAll E fx book l book₁ ∧ PostAll E fx book₁ m book₂ := by
  induction l generalizing book with
  | nil => exact ⟨book,.nil book,h⟩
  | cons b l ih =>
    cases h with
    | cons hb h =>
      obtain ⟨book₁,h₁,h₂⟩ := ih h
      exact ⟨book₁,.cons hb h₁,h₂⟩

theorem postAll_cons_iff : PostAll E fx book (b::l) book₂ ↔
    ∃ book₁,Posts E b (fx b) book book₁ ∧ PostAll E fx book₁ l book₂ := by
  constructor
  · rintro (_ | ⟨hb,h⟩)
    exact ⟨_,hb,h⟩
  · rintro ⟨book₁,hb,h⟩
    exact .cons hb h

theorem postAll_concat_iff : PostAll E fx book (l++[b]) book₂ ↔
    ∃ book₁,PostAll E fx book l book₁ ∧ Posts E b (fx b) book₁ book₂ := by
  constructor
  · intro h
    obtain ⟨book₁,h₁,h₂⟩ := h.split
    cases h₂ with
    | cons hb h₂ =>
      cases h₂
      exact ⟨book₁,h₁,hb⟩
  · rintro ⟨book₁,h₁,hb⟩
    exact h₁.append (.cons hb (.nil _))

theorem PostAll.apply (h : PostAll E fx book l book₁) : (deltas E fx l).foldlM Book.apply book=some book₁ := by
  induction h with
  | nil => rfl
  | cons hb _ ih =>
    simp only [deltas,List.map_cons,List.foldlM_cons,hb.applied]
    exact ih

theorem Replays.replay (h : Replays E fx l book) : Book.replay (deltas E fx l)=some book := h.apply

theorem Replays.unique (h : Replays E fx l book₁) (h' : Replays E fx l book₂) : book₁=book₂ := by
  simpa [h.replay] using h'.replay

theorem blockDelta_named {n : Bytes32} {p : CoinPayload}
    (h : (n,p)∈(blockDelta E b e).created) : E.coinName p.coin=n := by
  unfold blockDelta newCoins at h
  split at h
  · simp at h
  · simp only [List.mem_append,List.mem_map,Prod.mk.injEq] at h
    rcases h with ⟨c,-,rfl,rfl⟩ | ⟨c,-,rfl,rfl⟩ <;> rfl

/-- Every entry of a book is under the name of its coin. -/
def Named (E : Env) (book : CoinBook) : Prop :=
  ∀ n e,book n=some e → E.coinName e.payload.coin=n

theorem PostAll.named (h : PostAll E fx book l book₁) (hn : Named E book) : Named E book₁ := by
  induction h with
  | nil => exact hn
  | cons hb _ ih =>
    refine ih fun n e he => ?_
    obtain ⟨-,rfl⟩ := (Book.apply_eq_some_iff _ _ _).mp hb.applied
    unfold Book.died Book.born at he
    split at he
    · obtain ⟨e',he',rfl⟩ := Option.map_eq_some_iff.mp he
      split at he'
      · rename_i p hp
        obtain rfl : _=e' := by simpa using he'
        exact blockDelta_named (mem_of_assoc hp)
      · exact hn n e' he'
    · split at he
      · rename_i p hp
        obtain rfl : _=e := by simpa using he
        exact blockDelta_named (mem_of_assoc hp)
      · exact hn n e he

theorem Replays.named (h : Replays E fx l book) : Named E book :=
  PostAll.named h fun n e he => by simp [Book.empty] at he

theorem Replays.take (hl : InHeightOrder l) (h : Replays E fx l book) (k : ℕ) :
    Replays E fx (l.take k) (Book.keep k book) := by
  have hk : Replays E fx (l.take k++l.drop k) book := by rwa [List.take_append_drop]
  obtain ⟨book₀,h₀,-⟩ := PostAll.split hk
  have hr : Book.replay (deltas E fx (l.take k)++deltas E fx (l.drop k))=some book := by
    rw [deltas,deltas,← List.map_append]
    exact hk.replay
  have hkeep := Book.keep_replay (k := k) ?_ ?_ hr
  · have he : book₀=Book.keep k book := by simpa [Replays.replay h₀] using hkeep
    exact he ▸ h₀
  · intro δ hδ
    obtain ⟨b,hb,rfl⟩ := List.mem_map.mp hδ
    obtain ⟨i,hi,rfl⟩ := List.getElem_of_mem hb
    rw [List.length_take] at hi
    rw [List.getElem_take,blockDelta_height,hl i (by omega)]
    omega
  · intro δ hδ
    obtain ⟨b,hb,rfl⟩ := List.mem_map.mp hδ
    obtain ⟨i,hi,rfl⟩ := List.getElem_of_mem hb
    rw [List.length_drop] at hi
    rw [List.getElem_drop,blockDelta_height,hl (k+i) (by omega)]
    omega

theorem posts_of_not_transactionBlock (h : ¬ b.isTransactionBlock) : Posts E b e book book₁ ↔ book₁=book := by
  have hb : b.foliageTransactionBlock=none := by simpa [FullBlock.isTransactionBlock] using h
  have ha : book.apply (blockDelta E b e)=some book := by simp [blockDelta,hb,Book.apply]
  constructor
  · intro hp
    simpa [ha,eq_comm] using hp.applied
  · rintro rfl
    exact ⟨ha,fun ht => absurd ht h,fun ht => absurd ht h,fun ht => absurd ht h⟩

theorem foldNewBlock_run (hw : Ready w) (hs : Shows E w.db.coinRecord book) (l : List FullBlock) :
    (∃ book' t,PostAll E fx book l book' ∧ foldNewBlock E fx l w=(.ok (),w.withCoins t) ∧ Shows E t book') ∨
    ((∀ book',¬ PostAll E fx book l book') ∧ ∃ e w',foldNewBlock E fx l w=(.error e,w')) := by
  induction l generalizing w book with
  | nil => exact Or.inl ⟨book,w.db.coinRecord,.nil book,rfl,hs⟩
  | cons b l ih =>
    simp only [postAll_cons_iff]
    by_cases hb : b.isTransactionBlock
    · have hf : foldNewBlock E fx (b::l) =
          CoinStore.newBlock E b (fx b).2 (fx b).1 >>= fun _ => foldNewBlock E fx l := by
        simp only [foldNewBlock,List.filter_cons_of_pos hb]
        rfl
      rw [hf]
      rcases CoinStore.newBlock_run hw hs b (fx b) with ⟨book₁,t,hp,hrun,ht⟩ | ⟨hp,e,w',hrun⟩
      · rw [Eff.bind_of_ok hrun]
        rcases ih (hw.withCoins t) ht with ⟨book₂,t',hl,hrest,ht'⟩ | ⟨hl,e,w',hrest⟩
        · exact Or.inl ⟨book₂,t',⟨book₁,hp,hl⟩,hrest,ht'⟩
        · refine Or.inr ⟨?_,e,w',hrest⟩
          rintro book₂ ⟨book₁',hp',hl'⟩
          rw [hp'.unique hp] at hl'
          exact hl book₂ hl'
      · refine Or.inr ⟨?_,e,w',Eff.bind_of_error hrun _⟩
        rintro book₂ ⟨book₁,hp',-⟩
        exact hp book₁ hp'
    · have hf : foldNewBlock E fx (b::l)=foldNewBlock E fx l := by
        simp only [foldNewBlock,List.filter_cons_of_neg hb]
      rw [hf]
      simpa only [posts_of_not_transactionBlock hb,exists_eq_left] using ih hw hs

theorem foldNewBlock_transparent (l : List FullBlock) : Transparent E (foldNewBlock E fx l) :=
  transparent_forM (fun _ => CoinStore.newBlock_transparent _ _ _) _

theorem coherent_empty (m n : ℕ) : Coherent E (World.empty m n) :=
  ⟨rfl,fun _ _ h => by simp [World.empty,LRUCache.new] at h,
    fun _ _ h => by simp [World.empty,LRUCache.new] at h,fun _ _ h => by simp [World.empty] at h⟩

/-- The coin store from scratch holds the replayed book, and fails where blocks do not post. -/
theorem replayCoins_cases (E : Env) (fx : FullBlock → Effects) (l : List FullBlock) (m n : ℕ) :
    (∃ book s,Replays E fx l book ∧ replayCoins E fx l (World.empty m n)=(.ok (),s) ∧
      Shows E s.db.coinRecord book) ∨
    ((∀ book,¬ Replays E fx l book) ∧ ∃ e s,replayCoins E fx l (World.empty m n)=(.error e,s)) := by
  have hopen : beginTransaction (World.empty 0 0) =
      (.ok (),{ World.empty 0 0 with saved := some (World.empty 0 0).db }) := execute_calm rfl _
  have hready : Ready { World.empty 0 0 with saved := some (World.empty 0 0).db } :=
    ⟨rfl,rfl,rfl,rfl⟩
  have hshows : Shows E (World.empty 0 0).db.coinRecord Book.empty :=
    ⟨fun _ => rfl,fun _ _ he => by simp [Book.empty] at he⟩
  have htr : Transparent E (replayCoins E fx l) :=
    (transparent_execute (fun _ => rfl) fun _ => rfl).bind fun _ => foldNewBlock_transparent l
  obtain ⟨h₁,h₂,-⟩ := htr _ (coherent_empty m n)
  obtain ⟨book,t,hl,hrun,ht⟩ | ⟨hno,e,s,hrun⟩ := foldNewBlock_run hready hshows l
  · have hbare : replayCoins E fx l (World.empty m n).bare=(.ok (),_) :=
      (Eff.bind_of_ok hopen _).trans hrun
    rw [hbare] at h₁ h₂
    refine Or.inl ⟨book,(replayCoins E fx l (World.empty m n)).2,hl,Prod.ext h₁ rfl,?_⟩
    have hdb : (replayCoins E fx l (World.empty m n)).2.db.coinRecord=t :=
      congrArg (fun s : World => s.db.coinRecord) h₂
    rw [hdb]
    exact ht
  · have hbare : replayCoins E fx l (World.empty m n).bare=(.error e,s) :=
      (Eff.bind_of_ok hopen _).trans hrun
    rw [hbare] at h₁
    exact Or.inr ⟨hno,e,(replayCoins E fx l (World.empty m n)).2,Prod.ext h₁ rfl⟩

theorem replayCoins_run (m n : ℕ) (h : Replays E fx l book) :
    ∃ s,replayCoins E fx l (World.empty m n)=(.ok (),s) ∧ Shows E s.db.coinRecord book := by
  rcases replayCoins_cases E fx l m n with ⟨book',s,hl,hrun,hs⟩ | ⟨hno,-⟩
  · rw [h.unique hl]
    exact ⟨s,hrun,hs⟩
  · exact absurd h (hno book)

theorem replays_of_replayCoins {m n : ℕ} {s : World} (h : replayCoins E fx l (World.empty m n)=(.ok (),s)) :
    ∃ book,Replays E fx l book ∧ Shows E s.db.coinRecord book := by
  rcases replayCoins_cases E fx l m n with ⟨book,s',hl,hrun,hs⟩ | ⟨-,e,s',hrun⟩
  · rw [hrun,Prod.mk.injEq] at h
    exact ⟨book,hl,h.2 ▸ hs⟩
  · simp [hrun] at h

end RoseChain
