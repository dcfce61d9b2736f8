import RoseChain.Consensus.SinceFork
import RoseChain.Consensus.StoreBlock

namespace RoseChain
open Lib
variable (E : Env)

/-- The record that a removal is checked against: of a coin the block makes, or of an unspent coin
of its ancestors. -/
def RecordFor (height timestamp : ℕ) (allAdditions : List Coin) (book : CoinBook) (rem : Bytes32)
    (record : CoinRecord) : Prop :=
  (∃ c∈allAdditions,E.coinName c=rem ∧ record=⟨c,height,height,true,false,timestamp⟩) ∨
    rem∉allAdditions.map E.coinName ∧ ∃ e,book rem=some e ∧ e.dead=none ∧
      record.coin=e.payload.coin ∧ record.confirmedBlockIndex=e.born ∧
        record.timestamp=e.payload.timestamp

/-- A removal can be spent: the block makes it, or it is unspent after the block's ancestors. -/
def Spendable (allAdditions : List Coin) (book : CoinBook) (rem : Bytes32) : Prop :=
  rem∈allAdditions.map E.coinName ∨ book.Alive rem

variable {E} {fx : FullBlock → Effects} {w : World} {P Q : List FullBlock} {prevHeaderHash : Bytes32}
  {bookP bookQ : CoinBook} {k : ℕ}

/-- A fork point that is given is the height of a block on both chains. -/
def CommonHeight (P Q : List FullBlock) (forkPointWithPeak : Option ℕ) : Prop :=
  ∀ f,forkPointWithPeak=some f → ∃ a,P[f]?=some a ∧ Q[f]?=some a

theorem forkAt_of_common (hi : Indexed E w) (hP : P≠[] → ∃ h,(w.forest E).Path h P)
    (hQ : Q=[] ∨ (w.forest E).Path prevHeaderHash Q) {f : ℕ} {a : FullBlock} (hPf : P[f]?=some a)
    (hQf : Q[f]?=some a) : ForkAt P Q (f+1) := by
  obtain ⟨hp,hpa⟩ := List.getElem?_eq_some_iff.mp hPf
  obtain ⟨hq,hqa⟩ := List.getElem?_eq_some_iff.mp hQf
  obtain ⟨h,hpath⟩ := hP (List.ne_nil_of_length_pos (by omega))
  have hQ' := hQ.resolve_left (List.ne_nil_of_length_pos (by omega))
  exact ⟨hp,hq,hpath.meet hi.keyed hQ' f hp hq (by rw [hpa,hqa])⟩

variable {peak : Option BlockRecord} {forkPointWithPeak : Option ℕ}

theorem forkHeight_eq (hi : Indexed E w) (hm : MainChain E w P)
    (hQ : Q=[] ∨ (w.forest E).Path prevHeaderHash Q) (hpeak : Blockchain.getPeak w.chain = .ok peak)
    (hf : CommonHeight P Q forkPointWithPeak) :
    ∃ k : ℕ,forkHeight w.chain.view peak Q.length prevHeaderHash forkPointWithPeak =
      .ok ((k : ℤ)-1) ∧ ForkAt P Q k := by
  have hzero : ForkAt P Q 0 := ⟨Nat.zero_le _,Nat.zero_le _,by simp⟩
  rcases List.eq_nil_or_concat P with rfl | ⟨P',p,rfl⟩
  · rw [getPeak_nil hm,Except.ok.injEq] at hpeak
    subst hpeak
    exact ⟨0,rfl,hzero⟩
  rw [List.concat_eq_append] at hm hf hzero ⊢
  obtain ⟨rp,hp,hrp,hstored⟩ := getPeak_concat hi hm
  rw [hp,Except.ok.injEq] at hpeak
  subst hpeak
  rcases hQ with rfl | hpathQ
  · exact ⟨0,rfl,hzero⟩
  have hpos : Q.length≠0 := Nat.ne_of_gt hpathQ.length_pos
  simp only [forkHeight,hpos,if_false]
  cases forkPointWithPeak with
  | some f =>
    obtain ⟨a,hPf,hQf⟩ := hf f rfl
    exact ⟨f+1,by simp,forkAt_of_common hi hm.path (Or.inr hpathQ) hPf hQf⟩
  | none =>
    obtain ⟨h,hpathP⟩ := hm.path (by simp)
    obtain ⟨p',P'',-,hlist,htopP⟩ := Forest.path_iff.mp hpathP
    obtain ⟨rfl,hlast⟩ := List.append_inj' hlist rfl
    obtain rfl : p=p' := by simpa using hlast
    obtain ⟨q,Q',hfindQ,rfl,htopQ⟩ := Forest.path_iff.mp hpathQ
    obtain ⟨rq,hrq,hrecq⟩ := hi.record hfindQ
    obtain ⟨ps,hps,hpall⟩ := hi.onTop htopP hrp
    obtain ⟨qs,hqs,hqall⟩ := hi.onTop htopQ hrq
    have hq : w.chain.view.blockRecords.get? prevHeaderHash=some rq := (hi.memory _).trans hrecq
    have hkeyq : rq.headerHash=prevHeaderHash := hi.view_keyed _ _ hq
    have hlook : w.chain.view.blockRecord prevHeaderHash = .ok rq := by
      simp [BlockView.blockRecord,hq,lookup]
    have hsp : w.chain.view.blockRecords.get? rp.headerHash=some rp := by
      rw [hrp.headerHash]
      exact hstored
    have hfork := findForkPointInChain_eq hi.view_keyed hps hqs
      (fun r hr => by simpa [hsp,eq_comm] using hr) (hkeyq ▸ hq)
    refine ⟨_,by simp only [hlook]; exact hfork,?_⟩
    have hpr := List.rel_append hpall (.cons hrp .nil)
    have hqr := List.rel_append hqall (.cons hrq .nil)
    have htake := take_common (ps++[rp]) (qs++[rq])
    refine ⟨?_,?_,?_⟩
    · rw [hpr.length_eq]
      exact common_le_left _ _
    · rw [hqr.length_eq]
      exact common_le_right _ _
    · refine eq_of_records (w := w) (List.forall₂_take _ hpr) ?_ (fun x hx => ?_) fun x hx => ?_
      · rw [htake]
        exact List.forall₂_take _ hqr
      · exact hpathP.find_mem hi.keyed (List.mem_of_mem_take hx)
      · exact hpathQ.find_mem hi.keyed (List.mem_of_mem_take hx)

section Lookup
variable {s : SinceFork}

theorem alive_iff (hK : PostAll E fx (Book.keep k bookP) (Q.drop k) bookQ)
    (hcov : s.Covers E fx (Q.drop k)) (rem : Bytes32) : bookQ.Alive rem ↔
      ((Book.keep k bookP).Alive rem ∨ ∃ a,s.additions.get? rem=some a) ∧ rem∉s.removals := by
  rw [Book.alive_foldlM hK.apply rem,hcov.removals]
  simp only [deltas,List.mem_map,exists_exists_and_eq_and,forall_exists_index,and_imp,
    forall_apply_eq_imp_iff₂,not_exists,not_and]
  refine and_congr_left fun _ => or_congr_right ⟨?_,?_⟩
  · rintro ⟨b,hb,⟨n,p⟩,hmem,rfl⟩
    exact ⟨_,(hcov.additions n _).mpr ⟨b,hb,p,hmem,rfl⟩⟩
  · rintro ⟨a,ha⟩
    obtain ⟨b,hb,p,hmem,-⟩ := (hcov.additions rem a).mp ha
    exact ⟨b,hb,(rem,p),hmem,rfl⟩

theorem keep_lookup (book : CoinBook) (k : ℕ) (rem : Bytes32) :
    (((book rem).map coinRecordOf).filter fun u => decide ((u.confirmedBlockIndex : ℤ)≤(k : ℤ)-1)) =
      ((book rem).filter fun e => decide (e.born<k)).map coinRecordOf := by
  rcases book rem with - | e
  · rfl
  · have h : ((e.born : ℤ)≤(k : ℤ)-1) ↔ e.born<k := by omega
    by_cases hk : e.born<k <;> simp [Option.filter,coinRecordOf,h,hk]

/-- The record of a coin that the block does not make, from that of the store before the fork, the addition
above the fork, and whether it is gone again there. -/
def ancestorRecord (k : ℕ) (unspent : Option CoinRecord) (addition : Option ForkAddition) (gone : Prop)
    [Decidable gone] : Check CoinRecord := do
  let record ← match unspent with
    | some u => do
      reject (u.spent=true ∧ (u.spentBlockIndex : ℤ)≤(k : ℤ)-1) .doubleSpend
      pure u
    | none =>
      match addition with
      | none => .error (.invalid .unknownUnspent)
      | some a => pure ⟨a.coin,a.confirmedHeight,0,false,false,a.confirmedTimestamp⟩
  reject gone .doubleSpendInFork
  return record

/-- A lookup gives the record of a coin that is alive in a book, and turns every other one down. -/
def FindsAlive (book : CoinBook) (rem : Bytes32) (x : Check CoinRecord) : Prop :=
  (book.Alive rem ∧ ∃ record,x = .ok record ∧ ∃ e,book rem=some e ∧ e.dead=none ∧
    record.coin=e.payload.coin ∧ record.confirmedBlockIndex=e.born ∧ record.timestamp=e.payload.timestamp) ∨
  (¬ book.Alive rem ∧ ∃ code,x = .error (.invalid code))

section Ancestors
variable (hK : PostAll E fx (Book.keep k bookP) (Q.drop k) bookQ) (hcov : s.Covers E fx (Q.drop k)) {rem : Bytes32}
include hK hcov

theorem ancestorRecord_since (hb : (bookP rem).filter (fun e => decide (e.born<k))=none) :
    FindsAlive bookQ rem (ancestorRecord k none (s.additions.get? rem) (rem∈s.removals)) := by
  have hkeep : Book.keep k bookP rem=none := by
    unfold Book.keep
    cases he : bookP rem with
    | none => rfl
    | some e =>
      have hlt : ¬ e.born<k := by simpa [he,Option.filter] using hb
      simp [hlt]
  have hnot : ¬ (Book.keep k bookP).Alive rem := by
    rintro ⟨e,he,-⟩
    simp [hkeep] at he
  have halive := alive_iff hK hcov rem
  simp only [hnot,false_or] at halive
  unfold ancestorRecord
  cases ha : s.additions.get? rem with
  | none =>
    refine Or.inr ⟨?_,.unknownUnspent,rfl⟩
    rw [halive]
    simp [ha]
  | some a =>
    by_cases hr : rem∈s.removals
    · refine Or.inr ⟨?_,.doubleSpendInFork,?_⟩
      · rw [halive]
        simp [hr]
      · simp [reject,hr,bind,Except.bind,pure,Except.pure]
    · have hspend : bookQ.Alive rem := halive.mpr ⟨⟨a,ha⟩,hr⟩
      refine Or.inl ⟨hspend,⟨a.coin,a.confirmedHeight,0,false,false,a.confirmedTimestamp⟩,?_,?_⟩
      · simp [reject,hr,bind,Except.bind,pure,Except.pure]
      · obtain ⟨e,he,hd⟩ := hspend
        obtain ⟨b,hbm,p,hmem,rfl⟩ := (hcov.additions rem a).mp ha
        obtain ⟨d,hd'⟩ := Book.foldlM_created hK.apply (List.mem_map_of_mem hbm) hmem
        rw [he,Option.some.injEq] at hd'
        subst hd'
        exact ⟨_,he,hd,rfl,by simp,rfl⟩

theorem ancestorRecord_before {e : Entry CoinPayload} (he : bookP rem=some e) (hlt : e.born<k) :
    FindsAlive bookQ rem (ancestorRecord k (some (coinRecordOf e)) (s.additions.get? rem) (rem∈s.removals)) := by
  have hkeep : Book.keep k bookP rem=some { e with dead := e.dead.filter (· < k) } := by
    simp [Book.keep,he,hlt]
  have hadd : ¬ ∃ a,s.additions.get? rem=some a := by
    rintro ⟨a,ha⟩
    obtain ⟨b,hbm,p,hmem,-⟩ := (hcov.additions rem a).mp ha
    exact Book.not_created_of_present hK.apply (by simp [hkeep]) _ (List.mem_map_of_mem hbm)
      (List.mem_map_of_mem hmem)
  have halive := alive_iff hK hcov rem
  simp only [hadd,or_false] at halive
  have hdead : (Book.keep k bookP).Alive rem ↔
      ¬ ((coinRecordOf e).spent=true ∧ ((coinRecordOf e).spentBlockIndex : ℤ)≤(k : ℤ)-1) := by
    simp only [Book.Alive,hkeep,Option.some.injEq,exists_eq_left',coinRecordOf]
    cases e.dead with
    | none => simp
    | some d =>
      have h : ((d : ℤ)≤(k : ℤ)-1) ↔ d<k := by omega
      by_cases hd : d<k <;> simp [Option.filter,h,hd]
  unfold ancestorRecord
  by_cases hbefore : (coinRecordOf e).spent=true ∧ ((coinRecordOf e).spentBlockIndex : ℤ)≤(k : ℤ)-1
  · refine Or.inr ⟨fun h => hdead.mp (halive.mp h).1 hbefore,.doubleSpend,?_⟩
    simp only [reject,if_pos hbefore]
    rfl
  · have hpass : reject ((coinRecordOf e).spent=true ∧
        ((coinRecordOf e).spentBlockIndex : ℤ)≤(k : ℤ)-1) .doubleSpend = .ok () := by
      rw [reject,if_neg hbefore]
    simp only [hpass,bind,Except.bind,pure,Except.pure]
    by_cases hr : rem∈s.removals
    · refine Or.inr ⟨?_,.doubleSpendInFork,by simp [reject,hr]⟩
      rw [halive]
      simp [hr]
    · have hspend : bookQ.Alive rem := halive.mpr ⟨hdead.mpr hbefore,hr⟩
      refine Or.inl ⟨hspend,coinRecordOf e,by simp [reject,hr],?_⟩
      obtain ⟨e',he',hd'⟩ := hspend
      obtain ⟨d,hkept⟩ := Book.foldlM_keeps hK.apply hkeep
      rw [he',Option.some.injEq] at hkept
      subst hkept
      exact ⟨_,he',hd',rfl,rfl,rfl⟩

end Ancestors

theorem observe_removalCoinRecord (hw : w.interrupt=none) (hs : Shows E w.db.coinRecord bookP)
    (hK : PostAll E fx (Book.keep k bookP) (Q.drop k) bookQ) (hcov : s.Covers E fx (Q.drop k))
    (height timestamp : ℕ) (allAdditions : List Coin) (rem : Bytes32) :
    (Spendable E allAdditions bookQ rem ∧ ∃ record,
      observe (removalCoinRecord E height timestamp allAdditions ((k : ℤ)-1) s rem) w = .ok record ∧
        RecordFor E height timestamp allAdditions bookQ rem record) ∨
    (¬ Spendable E allAdditions bookQ rem ∧ ∃ code,
      observe (removalCoinRecord E height timestamp allAdditions ((k : ℤ)-1) s rem) w =
        .error (.invalid code)) := by
  unfold removalCoinRecord Spendable
  cases hfind : allAdditions.reverse.find? fun c => E.coinName c=rem with
  | some c =>
    have hmem := List.mem_of_find?_eq_some hfind
    have hname : E.coinName c=rem := by simpa using List.find?_some hfind
    refine Or.inl ⟨Or.inl (List.mem_map.mpr ⟨c,by simpa using hmem,hname⟩),_,rfl,
      Or.inl ⟨c,by simpa using hmem,hname,rfl⟩⟩
  | none =>
    have hno : rem∉allAdditions.map E.coinName := by
      rintro hmem
      obtain ⟨c,hc,hn⟩ := List.mem_map.mp hmem
      simpa [hn] using List.find?_eq_none.mp hfind c (by simpa using hc)
    dsimp only
    rw [(CoinStore.getCoinRecord_observes rem).observe_bind _ hw,CoinStore.observe_getCoinRecord hw,hs.get rem]
    change (_ ∧ ∃ record,ancestorRecord k (((bookP rem).map coinRecordOf).filter fun u =>
        decide ((u.confirmedBlockIndex : ℤ)≤(k : ℤ)-1)) (s.additions.get? rem) (rem∈s.removals) = .ok record ∧ _) ∨
      (_ ∧ ∃ code,ancestorRecord k (((bookP rem).map coinRecordOf).filter fun u =>
        decide ((u.confirmedBlockIndex : ℤ)≤(k : ℤ)-1)) (s.additions.get? rem) (rem∈s.removals) =
          .error (.invalid code))
    rw [keep_lookup]
    have hfinds : FindsAlive bookQ rem (ancestorRecord k
        (((bookP rem).filter fun e => decide (e.born<k)).map coinRecordOf) (s.additions.get? rem)
        (rem∈s.removals)) := by
      cases hb : (bookP rem).filter fun e => decide (e.born<k) with
      | none => exact ancestorRecord_since hK hcov hb
      | some e =>
        obtain ⟨he,hlt⟩ : bookP rem=some e ∧ e.born<k := by simpa [Option.filter_eq_some_iff] using hb
        exact ancestorRecord_before hK hcov he hlt
    obtain ⟨halive,record,hrun,hrecord⟩ | ⟨hdead,code,hrun⟩ := hfinds
    · exact Or.inl ⟨Or.inr halive,record,hrun,Or.inr ⟨hno,hrecord⟩⟩
    · exact Or.inr ⟨fun h => hdead (h.resolve_left hno),code,hrun⟩

theorem RecordFor.name (hnamed : ∀ n e,bookQ n=some e → E.coinName e.payload.coin=n)
    {height timestamp : ℕ} {allAdditions : List Coin} {rem : Bytes32} {record : CoinRecord}
    (h : RecordFor E height timestamp allAdditions bookQ rem record) : E.coinName record.coin=rem := by
  rcases h with ⟨c,-,hn,rfl⟩ | ⟨-,e,he,-,hc,-⟩
  · exact hn
  · rw [hc]
    exact hnamed rem e he

theorem observe_removalCoinRecords (hw : w.interrupt=none) (hs : Shows E w.db.coinRecord bookP)
    (hK : PostAll E fx (Book.keep k bookP) (Q.drop k) bookQ) (hcov : s.Covers E fx (Q.drop k))
    (hnamed : ∀ n e,bookQ n=some e → E.coinName e.payload.coin=n) (height timestamp : ℕ)
    (allAdditions : List Coin) {removals : List Bytes32} (hnd : removals.Nodup)
    {records : Dict Bytes32 CoinRecord} (hnew : ∀ rem∈removals,records.get? rem=none) :
    ((∀ rem∈removals,Spendable E allAdditions bookQ rem) ∧ ∃ records' rs,
      observe (removalCoinRecords E height timestamp allAdditions ((k : ℤ)-1) s removals records) w =
        .ok records' ∧ List.Forall₂ (RecordFor E height timestamp allAdditions bookQ) removals rs ∧
      records'.entries=records.entries++removals.zip rs) ∨
    (¬ (∀ rem∈removals,Spendable E allAdditions bookQ rem) ∧ ∃ code,
      observe (removalCoinRecords E height timestamp allAdditions ((k : ℤ)-1) s removals records) w =
        .error (.invalid code)) := by
  induction removals generalizing records with
  | nil => exact Or.inl ⟨by simp,records,[],rfl,.nil,by simp⟩
  | cons rem more ih =>
    rw [List.nodup_cons] at hnd
    unfold removalCoinRecords
    rw [(removalCoinRecord_observes _ _ _ _ _ rem).observe_bind _ hw,List.forall_mem_cons]
    rcases observe_removalCoinRecord hw hs hK hcov height timestamp allAdditions rem with
      ⟨hsp,record,hrun,hrec⟩ | ⟨hsp,code,hrun⟩
    swap
    · rw [hrun]
      exact Or.inr ⟨fun h => hsp h.1,code,rfl⟩
    have hname := hrec.name hnamed
    rw [hrun]
    have hfresh : ∀ r∈more,(records.set (E.coinName record.coin) record).get? r=none := by
      intro r hr
      have hne : rem≠r := fun h => hnd.1 (h ▸ hr)
      rw [hname,Dict.get?_set_of_ne _ _ hne]
      exact hnew r (by simp [hr])
    rcases ih hnd.2 hfresh with ⟨hall,records',rs,hrest,hrecs,hentries⟩ | ⟨hall,code,hrest⟩
    · refine Or.inl ⟨⟨hsp,hall⟩,records',record::rs,hrest,.cons hrec hrecs,?_⟩
      rw [hentries,hname,Dict.entries_set_of_not_mem _ _ (hnew rem (by simp)),List.append_assoc]
      rfl
    · exact Or.inr ⟨fun h => hall h.2,code,hrest⟩

end Lookup

theorem observe_validateRemovals (hw : w.interrupt=none) (hi : Indexed E w) (hm : MainChain E w P)
    (hQ : Q=[] ∨ (w.forest E).Path prevHeaderHash Q) (hs : Shows E w.db.coinRecord bookP)
    (hrepP : Replays E fx P bookP) (hrepQ : Replays E fx Q bookQ) {g : GetBlockGenerator}
    (hg : ∀ b,Observes E (g b)) (hfx : ∀ b∈Q,observe (forkEffects E g b) w = .ok (fx b))
    (hbody : ∀ b∈Q,¬ b.isTransactionBlock → fx b=([],[])) (hpeak : Blockchain.getPeak w.chain = .ok peak)
    (hf : CommonHeight P Q forkPointWithPeak) (timestamp : ℕ) (allAdditions : List Coin)
    (removals : List Bytes32) :
    ((removals.Nodup ∧ ∀ rem∈removals,Spendable E allAdditions bookQ rem) ∧ ∃ records rs,
      observe (validateRemovals E w.chain.view peak prevHeaderHash Q.length timestamp allAdditions
        removals forkPointWithPeak g) w = .ok records ∧
      List.Forall₂ (RecordFor E Q.length timestamp allAdditions bookQ) removals rs ∧
      records.entries=removals.zip rs) ∨
    (¬ (removals.Nodup ∧ ∀ rem∈removals,Spendable E allAdditions bookQ rem) ∧ ∃ code,
      observe (validateRemovals E w.chain.view peak prevHeaderHash Q.length timestamp allAdditions
        removals forkPointWithPeak g) w = .error (.invalid code)) := by
  unfold validateRemovals
  rw [(observes_lift (E := E) _).observe_bind _ hw,observe_lift]
  by_cases hnd : removals.Nodup
  swap
  · refine Or.inr ⟨fun h => hnd h.1,.doubleSpend,?_⟩
    simp [reject,hnd,bind,Except.bind]
  have hpass : reject (¬ removals.Nodup) .doubleSpend = .ok () := by simp [reject,hnd]
  obtain ⟨k,hfork,hat⟩ := forkHeight_eq hi hm hQ hpeak hf
  have hPK : Replays E fx (P.take k) (Book.keep k bookP) := by
    refine hrepP.take ?_ k
    by_cases hP : P=[]
    · subst hP
      exact fun i hi => by simp at hi
    · obtain ⟨h,hpath⟩ := hm.path hP
      exact inHeightOrder_of_path hpath
  have hsplit : PostAll E fx Book.empty (Q.take k++Q.drop k) bookQ := by
    rw [List.take_append_drop]
    exact hrepQ
  obtain ⟨book₁,h₁,hK⟩ := hsplit.split
  rw [← hat.take] at h₁
  rw [Replays.unique h₁ hPK] at hK
  obtain ⟨s,hs',hcov⟩ := observe_sinceFork hw hg hQ hat.right hfx hbody hrepQ
  rw [hpass]
  change (_ ∧ ∃ records rs,observe (Eff.lift _ >>= _) w=_ ∧ _) ∨ _ ∧ ∃ code,observe (Eff.lift _ >>= _) w=_
  rw [(observes_lift (E := E) _).observe_bind _ hw,observe_lift,hfork]
  change (_ ∧ ∃ records rs,observe (sinceFork E g _ _ _ >>= _) w=_ ∧ _) ∨
    _ ∧ ∃ code,observe (sinceFork E g _ _ _ >>= _) w=_
  rw [(sinceFork_observes hg _ _ _).observe_bind _ hw,hs']
  have hempty : ∀ rem∈removals,(Dict.empty : Dict Bytes32 CoinRecord).get? rem=none :=
    fun _ _ => rfl
  rcases observe_removalCoinRecords hw hs hK hcov hrepQ.named Q.length timestamp allAdditions hnd
    hempty with ⟨hall,records,rs,hrun,hrecs,hent⟩ | ⟨hall,code,hrun⟩
  · exact Or.inl ⟨⟨hnd,hall⟩,records,rs,hrun,hrecs,hent⟩
  · exact Or.inr ⟨fun h => hall h.2,code,hrun⟩

end RoseChain
