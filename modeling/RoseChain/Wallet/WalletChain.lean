import RoseChain.Consensus.HeaderChecks
import RoseChain.Consensus.ReceiveBlock
import RoseChain.Wallet.WalletBlockchain

namespace RoseChain
open Lib

def WalletState.forest (s : WalletState) : Forest Bytes32 BlockRecord :=
  ⟨s.db.blockRecords.get?,BlockRecord.headerHash,BlockRecord.prevHash,BlockRecord.height⟩

/-- Every stored record has its header and its ancestors, and what is in memory is stored. -/
structure WalletKept (s : WalletState) : Prop where
  key : ∀ h r,s.forest.find h=some r → r.headerHash=h
  header : ∀ h r,s.forest.find h=some r →
    ∃ b,s.db.headerBlocks.get? h=some b ∧ b.header.height=r.height
  memory : ∀ h r,s.chain.blockRecords.get? h=some r → s.forest.find h=some r
  ancestors : ∀ h r,s.forest.find h=some r → ∃ l,s.forest.OnTop l r

/-- The records from the genesis block to the peak; none before there is a peak. -/
structure WalletMain (s : WalletState) (P : List BlockRecord) : Prop where
  peakHeight : s.chain.peakHeight=if P.length=0 then none else some (P.length-1)
  path : P≠[] → ∃ h,s.forest.Path h P
  heights : ∀ i r,P[i]?=some r → s.chain.heightToHash.get? i=some r.headerHash

def isTransactions (l : List BlockRecord) : List BlockRecord := l.filter (·.isTransactionBlock)

/-- What the wallet has been told of, a rollback taken back. -/
def WalletEvent.feed (stack : List BlockRecord) : WalletEvent → List BlockRecord
  | .newTransactionBlock _ _ block _ => stack++[block]
  | .reorgRollback height => stack.filter fun r => decide ((r.height : ℤ)≤height)

def fed (events : List WalletEvent) : List BlockRecord := events.foldl WalletEvent.feed []

variable {E : Env} {s : WalletState} {P : List BlockRecord}

@[simp] theorem walletForest_find (h : Bytes32) : s.forest.find h=s.db.blockRecords.get? h := rfl
@[simp] theorem walletForest_key (r : BlockRecord) : s.forest.key r=r.headerHash := rfl
@[simp] theorem walletForest_parent (r : BlockRecord) : s.forest.parent r=r.prevHash := rfl
@[simp] theorem walletForest_height (r : BlockRecord) : s.forest.height r=r.height := rfl

theorem WalletKept.keyed (h : WalletKept s) : s.forest.Keyed := h.key

theorem WalletKept.parent (hs : WalletKept s) {h : Bytes32} {r : BlockRecord} (hr : s.forest.find h=some r)
    (hz : r.height≠0) : ∃ p,s.forest.find r.prevHash=some p ∧ p.height+1=r.height := by
  obtain ⟨l,hl⟩ := hs.ancestors h r hr
  obtain ⟨p,hp,-,hheight⟩ := (hl.path hz).last
  exact ⟨p,hp,hheight.trans hl.1.symm⟩

theorem fed_append (events : List WalletEvent) (e : WalletEvent) : fed (events++[e])=e.feed (fed events) := by
  unfold fed
  rw [List.foldl_append]
  rfl

@[simp] theorem isTransactions_append (l m : List BlockRecord) :
    isTransactions (l++m)=isTransactions l++isTransactions m := List.filter_append ..

section ForkPoint
variable {F : Forest Bytes32 BlockRecord} {V : BlockView}

theorem parent_of_memory (hpar : F.parent=BlockRecord.prevHash) (hht : F.height=BlockRecord.height)
    (hV : ∀ h r,V.blockRecords.get? h=some r → F.find h=some r)
    {l : List BlockRecord} {r p : BlockRecord} (ht : F.OnTop l r) (hpos : 0 < r.height)
    (hp : V.blockRecord r.prevHash = .ok p) : ∃ m,l=m++[p] ∧ F.OnTop m p ∧ F.find r.prevHash=some p := by
  have hfind : F.find r.prevHash=some p := hV _ _ (lookup_eq_ok.mp hp)
  have hheight : F.height r≠0 := by
    rw [hht]
    omega
  obtain ⟨v,m,hv,hl,hm⟩ := Forest.path_iff.mp (ht.path hheight)
  rw [hpar,hfind] at hv
  obtain rfl := Option.some.inj hv
  exact ⟨m,hl,hm,hfind⟩

theorem findForkPointFrom_ok (hk : F.Keyed) (hkey : F.key=BlockRecord.headerHash)
    (hpar : F.parent=BlockRecord.prevHash) (hht : F.height=BlockRecord.height)
    (hV : ∀ h r,V.blockRecords.get? h=some r → F.find h=some r)
    {n : ℕ} {l₁ l₂ : List BlockRecord} {block1 block2 : BlockRecord} {f : ℤ}
    (h₁ : F.OnTop l₁ block1) (h₂ : F.OnTop l₂ block2) (hf₁ : F.find block1.headerHash=some block1)
    (hf₂ : F.find block2.headerHash=some block2) (h : findForkPointFrom V n block1 block2 = .ok f) :
    f=(common (l₁++[block1]) (l₂++[block2]) : ℤ)-1 := by
  have hown {k : Bytes32} {p : BlockRecord} (hp : F.find k=some p) : F.find p.headerHash=some p := by
    have h := hk k p hp
    rw [hkey] at h
    rw [h]
    exact hp
  induction n generalizing l₁ l₂ block1 block2 with
  | zero => cases h
  | succ n ih =>
    have hl₁ : block1.height=l₁.length := by
      have hb := h₁.1
      rwa [hht] at hb
    have hl₂ : block2.height=l₂.length := by
      have hb := h₂.1
      rwa [hht] at hb
    unfold findForkPointFrom at h
    by_cases hz : block2.height > 0 ∨ block1.height > 0
    · rw [if_pos hz] at h
      by_cases hlt : block2.height > block1.height
      · rw [if_pos hlt] at h
        obtain ⟨p,hp,h⟩ := bind_ok.mp h
        obtain ⟨m,rfl,hm,hfind⟩ := parent_of_memory hpar hht hV h₂ (by omega) hp
        have hc : common (l₁++[block1]) (m++[p]++[block2])=common (l₁++[block1]) (m++[p]) := by
          rw [common_comm,common_append_left _ (by simp at hl₂ ⊢; omega),common_comm]
        rw [hc]
        exact ih h₁ hm hf₁ (hown hfind) h
      · rw [if_neg hlt] at h
        by_cases hgt : block1.height > block2.height
        · rw [if_pos hgt] at h
          obtain ⟨p,hp,h⟩ := bind_ok.mp h
          obtain ⟨m,rfl,hm,hfind⟩ := parent_of_memory hpar hht hV h₁ (by omega) hp
          rw [common_append_left _ (by simp at hl₁ ⊢; omega)]
          exact ih hm h₂ (hown hfind) hf₂ h
        · rw [if_neg hgt] at h
          by_cases he : block2.headerHash=block1.headerHash
          · rw [if_pos he] at h
            rw [he,hf₁] at hf₂
            obtain rfl := Option.some.inj hf₂
            rw [h₁.unique h₂,← Except.ok.inj h]
            simp [hl₂]
          · rw [if_neg he] at h
            obtain ⟨p₂,hp₂,h⟩ := bind_ok.mp h
            obtain ⟨p₁,hp₁,h⟩ := bind_ok.mp h
            obtain ⟨m₂,rfl,hm₂,hfind₂⟩ := parent_of_memory hpar hht hV h₂ (by omega) hp₂
            obtain ⟨m₁,rfl,hm₁,hfind₁⟩ := parent_of_memory hpar hht hV h₁ (by omega) hp₁
            have hne : block1≠block2 := fun heq => he (congrArg BlockRecord.headerHash heq.symm)
            rw [common_append_ne (by omega) hne]
            exact ih hm₁ hm₂ (hown hfind₁) (hown hfind₂) h
    · rw [if_neg hz] at h
      obtain rfl : l₁=[] := List.eq_nil_of_length_eq_zero (by omega)
      obtain rfl : l₂=[] := List.eq_nil_of_length_eq_zero (by omega)
      by_cases he : block2=block1
      · subst he
        rw [if_neg (not_not.mpr rfl)] at h
        rw [← Except.ok.inj h]
        simp
      · rw [if_pos he] at h
        rw [← Except.ok.inj h]
        simp [common,Ne.symm he]

end ForkPoint

section Clean
open WalletBlockchain

/-- Cleaning only takes records out of memory. -/
structure Cleaned (c c' : Chain) : Prop where
  blockRecords : ∀ h r,c'.blockRecords.get? h=some r → c.blockRecords.get? h=some r
  heightToHash : c'.heightToHash=c.heightToHash
  peakHeight : c'.peakHeight=c.peakHeight

theorem Cleaned.refl (c : Chain) : Cleaned c c := ⟨fun _ _ h => h,rfl,rfl⟩

theorem Cleaned.trans {a b c : Chain} (h : Cleaned a b) (h' : Cleaned b c) : Cleaned a c :=
  ⟨fun k r hr => h.blockRecords k r (h'.blockRecords k r hr),h'.heightToHash.trans h.heightToHash,
    h'.peakHeight.trans h.peakHeight⟩

theorem cleaned_erase (c : Chain) (hash : Bytes32) :
    Cleaned c { c with blockRecords := c.blockRecords.erase hash } := by
  refine ⟨?_,rfl,rfl⟩
  intro h r hr
  dsimp only at hr
  rw [Dict.get?_erase] at hr
  split_ifs at hr
  exact hr

theorem cleaned_bind {α β : Type} {m : Eff Chain Fail α} {f : α → Eff Chain Fail β} {c : Chain}
    (hm : Cleaned c (m c).2) (hf : ∀ a c',Cleaned c c' → Cleaned c (f a c').2) : Cleaned c ((m >>= f) c).2 := by
  rcases hrun : m c with ⟨⟨e⟩ | a,c'⟩
  · rw [hrun] at hm
    rw [Eff.bind_of_error hrun]
    exact hm
  · rw [hrun] at hm
    rw [Eff.bind_of_ok hrun]
    exact hf a c' hm

theorem delBlockRecord_cleaned (hash : Bytes32) (c : Chain) : Cleaned c (delBlockRecord hash c).2 := by
  unfold delBlockRecord
  rw [Eff.bind_get]
  cases hget : c.blockRecords.get? hash with
  | none => exact .refl c
  | some r => exact cleaned_erase c hash

theorem cleanFrom_cleaned (height : ℕ) (c : Chain) : Cleaned c (cleanFrom height c).2 := by
  have herase (l : List Bytes32) (c : Chain) : Cleaned c (l.forM delBlockRecord c).2 := by
    induction l generalizing c with
    | nil => exact .refl c
    | cons hash l ih =>
      have hone := delBlockRecord_cleaned hash c
      rcases hrun : delBlockRecord hash c with ⟨e | u,c'⟩
      · rw [hrun] at hone
        rw [Eff.forM_cons_of_error hrun]
        exact hone
      · rw [hrun] at hone
        rw [Eff.forM_cons_of_ok hrun]
        exact hone.trans (ih c')
  induction height generalizing c with
  | zero =>
    unfold cleanFrom
    rw [Eff.bind_get]
    cases c.heightsInCache.get? 0 with
    | none => exact .refl c
    | some l =>
      refine cleaned_bind (herase l c) fun _ c' hc' => ?_
      exact hc'.trans ⟨fun _ _ h => h,rfl,rfl⟩
  | succ n ih =>
    unfold cleanFrom
    rw [Eff.bind_get]
    cases c.heightsInCache.get? (n+1) with
    | none => exact .refl c
    | some l =>
      refine cleaned_bind (herase l c) fun _ c' hc' => ?_
      have herased : Cleaned c' { c' with heightsInCache := c'.heightsInCache.erase (n+1) } :=
        ⟨fun _ _ h => h,rfl,rfl⟩
      exact hc'.trans (herased.trans (ih _))

theorem cleanBlockRecord_cleaned (height : ℤ) (c : Chain) : Cleaned c (cleanBlockRecord height c).2 := by
  unfold cleanBlockRecord
  split_ifs
  · exact .refl c
  · exact cleanFrom_cleaned _ c

theorem removeBlockRecord_cleaned (hash : Bytes32) (c : Chain) : Cleaned c (removeBlockRecord hash c).2 ∧
    (removeBlockRecord hash c).2.blockRecords.get? hash=none := by
  unfold removeBlockRecord
  rw [Eff.bind_get]
  cases hget : c.blockRecords.get? hash with
  | none => exact ⟨.refl c,hget⟩
  | some r =>
    have hgone : (c.blockRecords.erase hash).get? hash=none := by
      rw [Dict.get?_erase,if_pos rfl]
    cases hheights : c.heightsInCache.get? r.height with
    | none =>
      simp only [lookup,Eff.bind_apply,Eff.lift_apply,Eff.modify_apply,hheights]
      exact ⟨cleaned_erase c hash,hgone⟩
    | some hashes =>
      simp only [lookup,Eff.bind_apply,Eff.lift_apply,Eff.modify_apply,hheights,assertThat]
      split_ifs
      · exact ⟨⟨(cleaned_erase c hash).blockRecords,rfl,rfl⟩,hgone⟩
      · exact ⟨cleaned_erase c hash,hgone⟩

end Clean
end RoseChain
