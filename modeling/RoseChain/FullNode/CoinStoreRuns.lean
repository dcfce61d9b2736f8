import RoseChain.Consensus.Runs

namespace RoseChain
open Lib

namespace CoinStore

/-- What is asked of the store; reopening it starts with an empty cache of another capacity. -/
inductive Call
  | begin
  | commit
  | newBlock (block : FullBlock) (txAdditions : List Coin) (txRemovals : List Bytes32)
  | rollbackToBlock (blockIndex : ℤ)
  | getCoinRecord (name : Bytes32)
  | reopen (capacity : ℕ)

/-- A call that neither writes nor opens or commits a transaction. -/
def Call.queries : Call → Bool
  | .getCoinRecord _ => true
  | .reopen _ => true
  | _ => false

variable (E : Env)

def perform : Call → NodeM (Option CoinRecord)
  | .begin => do beginTransaction; return none
  | .commit => do commitTransaction; return none
  | .newBlock block txAdditions txRemovals => do newBlock E block txAdditions txRemovals; return none
  | .rollbackToBlock blockIndex => do rollbackToBlock E blockIndex; return none
  | .getCoinRecord name => getCoinRecord E name
  | .reopen capacity => do modifyCoinCache fun _ => .new capacity; return none

/-- Runs of calls on a new database, none of which raised. -/
inductive Runs : List Call → World → Prop
  | start (blockCacheSize coinCacheSize : ℕ) : Runs [] (World.empty blockCacheSize coinCacheSize)
  | step {calls : List Call} {w w' : World} {call : Call} {answer : Option CoinRecord} :
    Runs calls w → perform E call w=(.ok answer,w') → Runs (calls++[call]) w'

def performAll : List Call → NodeM Unit
  | [] => return ()
  | call::more => do
    let _ ← perform E call
    performAll more

variable {E}

variable {w : World}

theorem Coherent.reopen (h : Coherent E w) (capacity : ℕ) :
    Coherent E { w with coinRecordCache := .new capacity } :=
  ⟨h.calm,h.blocks,fun k v hv => by simp [LRUCache.new] at hv,h.named⟩

theorem perform_transparent (call : Call) (h : ∀ capacity,call ≠ .reopen capacity) :
    Transparent E (perform E call) := by
  cases call with
  | begin => exact (transparent_execute (fun _ => rfl) fun _ => rfl).bind fun _ => transparent_pure _
  | commit => exact commitTransaction_transparent.bind fun _ => transparent_pure _
  | newBlock block txAdditions txRemovals =>
    exact (newBlock_transparent block txAdditions txRemovals).bind fun _ => transparent_pure _
  | rollbackToBlock blockIndex =>
    exact (rollbackToBlock_transparent blockIndex).bind fun _ => transparent_pure _
  | getCoinRecord name => exact getCoinRecord_transparent name
  | reopen capacity => exact absurd rfl (h capacity)

theorem perform_answer (hw : Coherent E w) (call : Call) : (perform E call w).1=(perform E call w.bare).1 := by
  by_cases h : ∃ capacity,call = .reopen capacity
  · obtain ⟨capacity,rfl⟩ := h
    rfl
  · exact (perform_transparent call (fun c hc => h ⟨c,hc⟩) w hw).1

variable {w' : World} {call : Call} {answer : Option CoinRecord}

theorem perform_coherent (hw : Coherent E w) (h : perform E call w=(.ok answer,w')) : Coherent E w' := by
  by_cases hc : ∃ capacity,call = .reopen capacity
  · obtain ⟨capacity,rfl⟩ := hc
    cases h
    exact Coherent.reopen hw capacity
  · have ht := (perform_transparent call (fun c hr => hc ⟨c,hr⟩) w hw).2.2
    rwa [h] at ht

theorem query_bare (hw : Coherent E w)
    (hq : call.queries=true) (h : perform E call w=(.ok answer,w')) : w'.bare=w.bare := by
  cases call with
  | getCoinRecord name =>
    obtain ⟨c,hrun,-⟩ := getCoinRecord_run hw name
    obtain ⟨-,rfl⟩ := Prod.mk.inj (hrun.symm.trans h)
    rfl
  | reopen capacity =>
    cases h
    rfl
  | begin => cases hq
  | commit => cases hq
  | newBlock block txAdditions txRemovals => cases hq
  | rollbackToBlock blockIndex => cases hq

theorem statement_bare (hw : Coherent E w) (hq : call.queries=false) (h : perform E call w=(.ok answer,w')) :
    perform E call w.bare=(.ok answer,w'.bare) := by
  have hne (capacity : ℕ) : call ≠ .reopen capacity := by
    rintro rfl
    cases hq
  obtain ⟨h₁,h₂,-⟩ := perform_transparent call hne w hw
  rw [h] at h₁ h₂
  exact Prod.ext h₁.symm h₂.symm

theorem performAll_append (calls : List Call) (call : Call)
    (h : performAll E calls w=(.ok (),w')) :
    performAll E (calls++[call]) w=(do let _ ← perform E call; return ()) w' := by
  induction calls generalizing w with
  | nil =>
    obtain ⟨-,rfl⟩ := Prod.mk.inj h
    rfl
  | cons first more ih =>
    rcases hr : perform E first w with ⟨e | a,s⟩
    · rw [performAll,Eff.bind_of_error hr] at h
      cases h
    · rw [performAll,Eff.bind_of_ok hr] at h
      rw [List.cons_append,performAll,Eff.bind_of_ok hr]
      exact ih h

variable {calls : List Call}

theorem Runs.coherent (h : Runs E calls w) : Coherent E w := by
  induction h with
  | start blockCacheSize coinCacheSize => exact coherent_empty blockCacheSize coinCacheSize
  | step _ hstep ih => exact perform_coherent ih hstep

theorem Runs.statements (h : Runs E calls w) :
    performAll E (calls.filter fun c => !c.queries) (World.empty 0 0)=(.ok (),w.bare) := by
  induction h with
  | start blockCacheSize coinCacheSize => rfl
  | @step calls w w' call answer hrun hstep ih =>
    rw [List.filter_append]
    cases hq : call.queries with
    | true => simpa [hq,query_bare hrun.coherent hq hstep] using ih
    | false =>
      have hbare := statement_bare hrun.coherent hq hstep
      have hone : [call].filter (fun c => !c.queries)=[call] := by simp [hq]
      rw [hone,performAll_append _ call ih,Eff.bind_of_ok hbare]
      rfl

theorem Runs.bare_eq {calls' : List Call} (h : Runs E calls w) (h' : Runs E calls' w')
    (hsame : calls'.filter (fun c => !c.queries)=calls.filter fun c => !c.queries) : w'.bare=w.bare := by
  have hstatements := h'.statements
  rw [hsame,h.statements] at hstatements
  exact (Prod.mk.inj hstatements).2.symm

/-- In every run a cached record is the row of its name, a query answers the row, and what any further call
answers depends on the statements of the run alone: not on the capacities nor on the queries. -/
theorem coinRecordCache_coherent {calls : List Call} {w : World} (h : Runs E calls w) :
    (∀ name r,w.coinRecordCache.cache.get? name=some r →
      w.db.coinRecord.get? name=some r ∧ E.coinName r.coin=name) ∧
    (∀ name,(perform E (.getCoinRecord name) w).1 = .ok (w.db.coinRecord.get? name)) ∧
    ∀ calls' w',Runs E calls' w' → calls'.filter (fun c => !c.queries)=calls.filter (fun c => !c.queries) →
      w'.db=w.db ∧ ∀ call,(perform E call w').1=(perform E call w).1 := by
  have hw := h.coherent
  refine ⟨fun name r hr => ?_,fun name => ?_,fun calls' w' h' hsame => ⟨?_,fun call => ?_⟩⟩
  · have hrow := hw.coins name r hr
    exact ⟨hrow,hw.named name r hrow⟩
  · obtain ⟨c,hrun,-⟩ := getCoinRecord_run hw name
    rw [perform,hrun]
  · simpa using congrArg World.db (h.bare_eq h' hsame)
  · rw [perform_answer h'.coherent,perform_answer hw,h.bare_eq h' hsame]

def coinGenesis : FullBlock :=
  { tinyGenesis with
    foliageTransactionBlock := some ⟨1,1,0,0,0,0⟩
    transactionsInfo := some ⟨0,0,[],0,0,[]⟩ }

/-- A coin is made and asked for, the store is reopened, and the coin is made undone. -/
def coinCalls : List Call :=
  [.begin,.newBlock coinGenesis [⟨5,0,0⟩] [],.commit,.getCoinRecord (5+2^100),.reopen 1,
    .getCoinRecord (5+2^100),.begin,.rollbackToBlock (-1)]

theorem Runs.all {more : List Call} (h : Runs E calls w)
    (hmore : (performAll E more w).1 = .ok ()) : Runs E (calls++more) (performAll E more w).2 := by
  induction more generalizing calls w with
  | nil => simpa [performAll] using h
  | cons call more ih =>
    rcases hr : perform E call w with ⟨e | a,s⟩
    · rw [performAll,Eff.bind_of_error hr] at hmore
      cases hmore
    · rw [performAll,Eff.bind_of_ok hr] at hmore ⊢
      simpa using ih (h.step hr) hmore

theorem coinCalls_runs (m n : ℕ) (h : (performAll tinyEnv coinCalls (World.empty m n)).1 = .ok ()) :
    Runs tinyEnv coinCalls (performAll tinyEnv coinCalls (World.empty m n)).2 :=
  (Runs.start m n).all h

theorem coinRecordCache_coherent_calls :
    (perform tinyEnv (.getCoinRecord 5) (performAll tinyEnv coinCalls (World.empty 1 1)).2).1 =
      (perform tinyEnv (.getCoinRecord 5) (performAll tinyEnv coinCalls (World.empty 9 3)).2).1 :=
  ((coinRecordCache_coherent (coinCalls_runs 9 3 (by decide +kernel))).2.2 _ _
    (coinCalls_runs 1 1 (by decide +kernel)) rfl).2 _

end CoinStore
end RoseChain
