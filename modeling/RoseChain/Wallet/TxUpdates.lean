import RoseChain.FullNode.MempoolManager
import RoseChain.Wallet.WalletTransactionStore

namespace RoseChain
open Lib

def MempoolInclusionStatus.value : MempoolInclusionStatus → ℕ
  | .success => 1
  | .pending => 2
  | .failed => 3

namespace WalletTransactionStore

def sentCount (current : TransactionRecord) (name : Bytes) : ℕ :=
  if name∈current.sentTo.map (·.1) then current.sent else current.sent+1

/-- The record after an answer of a peer, which is written down in any case; the trade is forgotten. -/
def answered (current : TransactionRecord) (name : Bytes) (sendStatus : MempoolInclusionStatus) (err : Option Bytes) :
    Check TransactionRecord := do
  let status ← uint8 sendStatus.value
  let sent ← uint32 (sentCount current name)
  return { current with sent := sent,sentTo := current.sentTo++[(name,status,err)],tradeId := none }

/-- Whether the transaction is known; an error goes by its name. -/
def incrementSent (s : WalletTransactionStore) (txId : Bytes32) (name : Bytes) (sendStatus : MempoolInclusionStatus)
    (err : Option Bytes) : Check (Bool × WalletTransactionStore) :=
  match getTransactionRecord s txId with
  | none => .ok (false,s)
  | some current => do return (true,addTransactionRecord s (← answered current name sendStatus err))

/-- The calls that update the status of a transaction. -/
inductive StatusCall
  | setConfirmed (height : ℕ)
  | incrementSent (name : Bytes) (sendStatus : MempoolInclusionStatus) (err : Option Bytes)
  | txReorged

def update (s : WalletTransactionStore) (txId : Bytes32) : StatusCall → Check WalletTransactionStore
  | .setConfirmed height => .ok (s.setConfirmed txId height)
  | .incrementSent name sendStatus err => do return (← s.incrementSent txId name sendStatus err).2
  | .txReorged =>
    match getTransactionRecord s txId with
    | none => .ok s
    | some record => .ok (s.txReorged record)

/-- A call that raises leaves things as they were. -/
def unlessRaised {α : Type} (old : α) : Check α → α
  | .ok new => new
  | .error _ => old

variable {α : Type}

@[simp] theorem unlessRaised_ok (old new : α) : unlessRaised old (.ok new)=new := rfl

@[simp] theorem unlessRaised_error (old : α) (e : Fail) : unlessRaised old (.error e)=old := rfl

def updated (txId : Bytes32) (s : WalletTransactionStore) (call : StatusCall) : WalletTransactionStore :=
  unlessRaised s (s.update txId call)

def updates (s : WalletTransactionStore) (txId : Bytes32) (calls : List StatusCall) : WalletTransactionStore :=
  calls.foldl (updated txId) s

def identity (r : TransactionRecord) : TransactionRecord :=
  { r with confirmedAtHeight := 0,confirmed := false,sent := 0,sentTo := [] }

def withoutTrade (r : TransactionRecord) : TransactionRecord := { r with tradeId := none }

/-- The peers that answered, with the status of the answer. -/
def answers (r : TransactionRecord) : List (Bytes × ℕ) := r.sentTo.map fun a => (a.1,a.2.1)

/-- The record is still that of `r`, and no peer is in it twice with one status. -/
structure Keeps (r r' : TransactionRecord) : Prop where
  same : identity r'=identity r
  once : (answers r').Nodup

/-- There is no trade to forget, and no answer is repeated; a call that raises does nothing. -/
def Harmless (r : TransactionRecord) : StatusCall → Prop
  | .incrementSent name sendStatus _ =>
    2^32 ≤ sentCount r name ∨ r.tradeId=none ∧ (name,sendStatus.value)∉answers r
  | _ => r.tradeId=none

section Record

def recordAfter (r : TransactionRecord) : StatusCall → TransactionRecord
  | .setConfirmed height => { r with confirmedAtHeight := height,confirmed := true,tradeId := none }
  | .incrementSent name sendStatus err => unlessRaised r (answered r name sendStatus err)
  | .txReorged => reorged r

theorem answered_eq (r : TransactionRecord) (name : Bytes) (sendStatus : MempoolInclusionStatus) (err : Option Bytes) :
    answered r name sendStatus err =
      if sentCount r name<2^32 then
        .ok { r with
          sent := sentCount r name
          sentTo := r.sentTo++[(name,sendStatus.value,err)]
          tradeId := none }
      else .error (.raised .value) := by
  have hstatus : uint8 sendStatus.value = .ok sendStatus.value := by
    cases sendStatus <;> rfl
  unfold answered
  rw [bind_of_ok hstatus]
  split_ifs with hlt
  · have hsent : uint32 (sentCount r name) = .ok (sentCount r name) := uint_eq_ok.mpr ⟨rfl,hlt⟩
    rw [bind_of_ok hsent]
    rfl
  · have hrange : ¬ (0≤(sentCount r name : ℤ) ∧ (sentCount r name : ℤ)<2^32) := by omega
    simp only [uint32,uint,if_neg hrange]
    rfl

theorem recordAfter_name (r : TransactionRecord) (call : StatusCall) : (recordAfter r call).name=r.name := by
  cases call with
  | incrementSent name sendStatus err =>
    simp only [recordAfter,answered_eq]
    split_ifs <;> rfl
  | _ => rfl

theorem identity_recordAfter {r : TransactionRecord} {call : StatusCall}
    (h : ∀ name sendStatus err,call = .incrementSent name sendStatus err → sentCount r name<2^32) :
    identity (recordAfter r call)=withoutTrade (identity r) := by
  cases call with
  | incrementSent name sendStatus err =>
    rw [recordAfter,answered_eq,if_pos (h name sendStatus err rfl)]
    rfl
  | _ => rfl

theorem identity_eq_iff {r : TransactionRecord} :
    withoutTrade (identity r)=identity r ↔ r.tradeId=none := by
  constructor
  · intro h
    have htrade := congrArg TransactionRecord.tradeId h
    exact htrade.symm
  · intro h
    simp [identity,withoutTrade,h]

theorem Keeps.recordAfter_iff {r r' : TransactionRecord} (h : Keeps r r') (call : StatusCall) :
    Keeps r (recordAfter r' call) ↔ Harmless r' call := by
  cases call with
  | setConfirmed height =>
    have hsame : identity (recordAfter r' (.setConfirmed height))=withoutTrade (identity r') :=
      identity_recordAfter (by simp)
    refine ⟨fun hk => identity_eq_iff.mp ?_,fun hnone => ⟨?_,h.once⟩⟩
    · rw [← hsame,hk.same,h.same]
    · rw [hsame,identity_eq_iff.mpr hnone,h.same]
  | txReorged =>
    have hsame : identity (recordAfter r' .txReorged)=withoutTrade (identity r') := identity_recordAfter (by simp)
    refine ⟨fun hk => identity_eq_iff.mp ?_,fun hnone => ⟨?_,List.nodup_nil⟩⟩
    · rw [← hsame,hk.same,h.same]
    · rw [hsame,identity_eq_iff.mpr hnone,h.same]
  | incrementSent name sendStatus err =>
    by_cases hlt : sentCount r' name<2^32
    · have hsame : identity (recordAfter r' (.incrementSent name sendStatus err))=withoutTrade (identity r') := by
        apply identity_recordAfter
        rintro _ _ _ ⟨⟩
        exact hlt
      have hlist : answers (recordAfter r' (.incrementSent name sendStatus err)) =
          answers r'++[(name,sendStatus.value)] := by
        rw [recordAfter,answered_eq,if_pos hlt,unlessRaised_ok]
        simp [answers]
      have hfull : ¬ 2^32 ≤ sentCount r' name := by omega
      have hnodup : (answers r'++[(name,sendStatus.value)]).Nodup ↔ (name,sendStatus.value)∉answers r' := by
        rw [← List.concat_eq_append,List.nodup_concat]
        simp [h.once]
      simp only [Harmless,hfull,false_or]
      constructor
      · intro hk
        refine ⟨identity_eq_iff.mp ?_,hnodup.mp ?_⟩
        · rw [← hsame,hk.same,h.same]
        · rw [← hlist]
          exact hk.once
      · intro ⟨hnone,hnew⟩
        refine ⟨?_,?_⟩
        · rw [hsame,identity_eq_iff.mpr hnone,h.same]
        · rw [hlist]
          exact hnodup.mpr hnew
    · have hraises : recordAfter r' (.incrementSent name sendStatus err)=r' := by
        rw [recordAfter,answered_eq,if_neg hlt,unlessRaised_error]
      have hfull : 2^32 ≤ sentCount r' name := by omega
      rw [hraises]
      exact ⟨fun _ => Or.inl hfull,fun _ => h⟩

end Record

section Store
variable {s : WalletTransactionStore} {r : TransactionRecord}

theorem getTransactionRecord_add (s : WalletTransactionStore) (r : TransactionRecord) :
    (s.addTransactionRecord r).getTransactionRecord r.name=some r := by
  simp [getTransactionRecord,addTransactionRecord]

theorem updated_record (h : s.getTransactionRecord r.name=some r) (call : StatusCall) :
    (updated r.name s call).getTransactionRecord r.name=some (recordAfter r call) := by
  cases call with
  | setConfirmed height =>
    simp only [updated,update,setConfirmed,h,recordAfter]
    exact getTransactionRecord_add s { r with confirmedAtHeight := height,confirmed := true,tradeId := none }
  | txReorged =>
    simp only [updated,update,h,recordAfter]
    exact getTransactionRecord_add s (reorged r)
  | incrementSent name sendStatus err =>
    simp only [updated,update,incrementSent,h,recordAfter]
    rw [answered_eq]
    split_ifs with hlt
    · exact getTransactionRecord_add s { r with
        sent := sentCount r name
        sentTo := r.sentTo++[(name,sendStatus.value,err)]
        tradeId := none }
    · exact h

theorem updates_record (h : s.getTransactionRecord r.name=some r) (calls : List StatusCall) :
    (s.updates r.name calls).getTransactionRecord r.name=some (calls.foldl recordAfter r) := by
  induction calls generalizing s r with
  | nil => exact h
  | cons call more ih =>
    have hname := recordAfter_name r call
    have hnext := updated_record h call
    rw [← hname] at hnext
    have hrest := ih hnext
    rw [hname] at hrest
    rw [updates,List.foldl_cons,List.foldl_cons]
    exact hrest

/-- In a run of calls on a stored record it stays that of the same transaction, and names no peer twice with one
status, exactly if each call is harmless to the record that it finds. -/
theorem statusCalls_keep_iff (h : s.getTransactionRecord r.name=some r) (calls : List StatusCall) :
    (∀ before,before <+: calls → ∃ r',(s.updates r.name before).getTransactionRecord r.name=some r' ∧ Keeps r r') ↔
      (answers r).Nodup ∧ ∀ before call,before++[call] <+: calls → ∀ r',
        (s.updates r.name before).getTransactionRecord r.name=some r' → Harmless r' call := by
  simp only [updates_record h,Option.some.injEq,exists_eq_left',forall_eq']
  constructor
  · intro hkeeps
    refine ⟨(hkeeps [] List.nil_prefix).once,fun before call hprefix => ?_⟩
    have hnext := hkeeps _ hprefix
    rw [List.foldl_concat] at hnext
    have hbefore := hkeeps before ((List.prefix_append before [call]).trans hprefix)
    exact (hbefore.recordAfter_iff call).mp hnext
  · intro ⟨hnodup,hharmless⟩ before
    induction before using List.reverseRecOn with
    | nil => exact fun _ => ⟨rfl,hnodup⟩
    | append_singleton before call ih =>
      intro hprefix
      have hbefore := ih ((List.prefix_append before [call]).trans hprefix)
      rw [List.foldl_concat]
      exact (hbefore.recordAfter_iff call).mpr (hharmless before call hprefix)

end Store

section Traded

def tradedRecord : TransactionRecord where
  confirmedAtHeight := 0
  createdAtTime := 5
  toPuzzleHash := 3
  amount := 7
  feeAmount := 0
  confirmed := false
  sent := 0
  spendBundle := none
  additions := [⟨1,3,7⟩]
  removals := [⟨2,2,7⟩]
  walletId := 1
  sentTo := []
  tradeId := some 9
  type := .outgoingTrade
  name := 4

def plainRecord : TransactionRecord := { tradedRecord with tradeId := none }

def storeOf (r : TransactionRecord) : WalletTransactionStore := .create (Dict.empty.set r.name r)

theorem statusCalls_keep_plain :
    (∀ before,before <+: [.incrementSent [1] .success none,.setConfirmed 8] →
      ∃ r',((storeOf plainRecord).updates plainRecord.name before).getTransactionRecord plainRecord.name=some r' ∧
        Keeps plainRecord r') ↔
      (answers plainRecord).Nodup ∧ ∀ before call,
        before++[call] <+: [.incrementSent [1] .success none,.setConfirmed 8] → ∀ r',
          ((storeOf plainRecord).updates plainRecord.name before).getTransactionRecord plainRecord.name=some r' →
            Harmless r' call :=
  statusCalls_keep_iff (by decide) _

/-- The first answer of a peer takes the trade out of the record; without one, an answer is written down twice.
-/
theorem statusCalls_forget :
    tradedRecord.tradeId=some 9 ∧
      (((storeOf tradedRecord).updates 4 [.incrementSent [1] .success none]).getTransactionRecord 4).map
        (·.tradeId)=some none ∧
      (((storeOf plainRecord).updates 4 [.incrementSent [1] .success none,.incrementSent [1] .success none]).getTransactionRecord
        4).map answers=some [([1],1),([1],1)] := by
  refine ⟨rfl,?_,?_⟩
  · decide
  · decide

end Traded

end WalletTransactionStore
end RoseChain
