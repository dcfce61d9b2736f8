import RoseChain.Consensus.GeneratorLookups
import RoseChain.FullNode.FullNodeApi
import RoseChain.Wallet.LightClientAdditions
import RoseChain.Wallet.LightClientRemovals

namespace RoseChain
open Lib MerkleSet WalletNode
variable {E : Env} {added rows : List Coin} {root : Bytes32} {t : MerkleNode}

theorem hashCoinList_sort (coins : List Coin) : hashCoinList E (sortCoinList E coins)=hashCoinList E coins :=
  hashCoinList_perm (sortCoinList_perm coins)

def Unmistaken (E : Env) (added : List Coin) (puzzleHash : Bytes32) : Prop :=
  (∃ c∈added,hashCoinList E (coinsWith added c.puzzleHash)=puzzleHash) → ∃ c∈added,c.puzzleHash=puzzleHash

theorem unmistaken_iff {puzzleHash : Bytes32} : Unmistaken E added puzzleHash ↔
    (puzzleHash∈additionLeaves E added → ∃ c∈added,c.puzzleHash=puzzleHash) := by
  rw [mem_additionLeaves]
  constructor
  · rintro h (hph | hlist)
    · exact hph
    · exact h hlist
  · exact fun h hlist => h (Or.inr hlist)

theorem get?_coinsMap (puzzleHash : Bytes32) : (puzzlehashCoinsMap rows).get? puzzleHash =
    if ∃ c∈rows,c.puzzleHash=puzzleHash then some (coinsWith rows puzzleHash) else none :=
  puzzlehashCoinsMap_get? rows puzzleHash

namespace FullNodeAPI

/-- What an entry of a response says about a puzzle hash, with a proof that convinces. -/
structure EntryOf (E : Env) (rows : List Coin) (root puzzleHash : Bytes32) (entry : ListedCoins × AdditionProof) : Prop where
  coins : entry.1=(puzzleHash,sortCoinList E (coinsWith rows puzzleHash))
  same : entry.1.1=entry.2.1
  valid : validateAddition E root entry.1 entry.2 = .ok true

section Entry
variable (hincluded : ∀ v,∃ proof,isIncludedAlreadyHashed v t = .ok (decide (v∈additionLeaves E rows),proof) ∧
    (v∈additionLeaves E rows → confirmIncludedAlreadyHashed E.toOracles root v proof = .ok true) ∧
    (v∉additionLeaves E rows → confirmNotIncludedAlreadyHashed E.toOracles root v proof = .ok true))
include hincluded

variable {puzzleHash : Bytes32}

theorem additionEntry_ok (h : Unmistaken E rows puzzleHash) :
    ∃ entry,additionEntry E (puzzlehashCoinsMap rows) t puzzleHash = .ok entry ∧ EntryOf E rows root puzzleHash entry := by
  obtain ⟨proof,hanswer,hin,hout⟩ := hincluded puzzleHash
  by_cases hph : ∃ c∈rows,c.puzzleHash=puzzleHash
  · obtain ⟨c,hc,rfl⟩ := hph
    obtain ⟨proof₂,hanswer₂,hin₂,-⟩ := hincluded (hashCoinList E (coinsWith rows c.puzzleHash))
    have hleaf : c.puzzleHash∈additionLeaves E rows := mem_additionLeaves.mpr (Or.inl ⟨c,hc,rfl⟩)
    have hleaf₂ : hashCoinList E (coinsWith rows c.puzzleHash)∈additionLeaves E rows :=
      mem_additionLeaves.mpr (Or.inr ⟨c,hc,rfl⟩)
    have hmap : (puzzlehashCoinsMap rows).get? c.puzzleHash=some (coinsWith rows c.puzzleHash) := by
      rw [get?_coinsMap,if_pos ⟨c,hc,rfl⟩]
    refine ⟨((c.puzzleHash,sortCoinList E (coinsWith rows c.puzzleHash)),c.puzzleHash,proof,some proof₂),?_,rfl,rfl,?_⟩
    · rw [decide_eq_true hleaf] at hanswer
      rw [decide_eq_true hleaf₂] at hanswer₂
      unfold additionEntry
      rw [bind_of_ok hanswer]
      dsimp only
      rw [hmap]
      dsimp only
      rw [bind_of_ok hanswer₂]
      rfl
    · have hne : sortCoinList E (coinsWith rows c.puzzleHash)≠[] := by
        intro hnil
        have hmem := (sortCoinList_perm (E := E) _).symm.subset (mem_coinsWith.mpr ⟨hc,rfl⟩)
        rw [hnil] at hmem
        exact absurd hmem List.not_mem_nil
      unfold validateAddition
      rw [if_neg hne]
      dsimp only
      rw [hashCoinList_sort,bind_of_ok (falseOnAssertion_eq_true.mpr (hin₂ hleaf₂)),if_pos rfl,
        falseOnAssertion_eq_true.mpr (hin hleaf)]
  · have hleaf : puzzleHash∉additionLeaves E rows := fun hmem => hph (unmistaken_iff.mp h hmem)
    have hmap : (puzzlehashCoinsMap rows).get? puzzleHash=none := by rw [get?_coinsMap,if_neg hph]
    have hnil : coinsWith rows puzzleHash=[] := by
      rw [List.eq_nil_iff_forall_not_mem]
      exact fun c hc => hph ⟨c,mem_coinsWith.mp hc⟩
    refine ⟨((puzzleHash,[]),puzzleHash,proof,none),?_,by rw [hnil]; rfl,rfl,?_⟩
    · rw [decide_eq_false hleaf] at hanswer
      unfold additionEntry
      rw [bind_of_ok hanswer]
      dsimp only
      rw [hmap]
      rfl
    · unfold validateAddition
      rw [if_pos rfl,hout hleaf]

theorem additionEntry_raises (h : ¬ Unmistaken E rows puzzleHash) :
    additionEntry E (puzzlehashCoinsMap rows) t puzzleHash = .error (.raised .assertion) := by
  obtain ⟨hleaf,hph⟩ := Classical.not_imp.mp (unmistaken_iff.not.mp h)
  obtain ⟨proof,hanswer,-⟩ := hincluded puzzleHash
  have hmap : (puzzlehashCoinsMap rows).get? puzzleHash=none := by rw [get?_coinsMap,if_neg hph]
  rw [decide_eq_true hleaf] at hanswer
  unfold additionEntry
  rw [bind_of_ok hanswer]
  dsimp only
  rw [hmap]
  rfl

end Entry

variable {puzzleHashes : List Bytes32}

theorem validateAdditionProofs_entries {entries : List (ListedCoins × AdditionProof)}
    (h : List.Forall₂ (EntryOf E rows root) puzzleHashes entries) :
    validateAdditionProofs E root (entries.map (·.1)) (entries.map (·.2)) = .ok true ∧
      ((entries.map (·.1)).flatMap (·.2)).Perm (puzzleHashes.flatMap (coinsWith rows)) := by
  induction h with
  | nil => exact ⟨rfl,.nil⟩
  | cons hentry _ ih =>
    obtain ⟨hvalid,hperm⟩ := ih
    rw [List.map_cons,List.map_cons]
    constructor
    · have hsame : assertThat (_=_) = .ok () := assertThat_eq_ok.mpr hentry.same
      rw [validateAdditionProofs,bind_of_ok hsame,bind_of_ok hentry.valid,if_pos rfl,hvalid]
    · rw [List.flatMap_cons,List.flatMap_cons,hentry.coins]
      exact (sortCoinList_perm _).append hperm

theorem flatMap_filter_perm {α β : Type} [DecidableEq β] (key : α → β) {keys : List β} (hn : keys.Nodup) (l : List α)
    (hkeys : ∀ a∈l,key a∈keys) : (keys.flatMap fun k => l.filter fun a => decide (key a=k)).Perm l := by
  induction keys generalizing l with
  | nil => rw [List.eq_nil_iff_forall_not_mem.mpr fun a ha => List.not_mem_nil (hkeys a ha)]; rfl
  | cons k keys ih =>
    obtain ⟨hk,hn⟩ := List.nodup_cons.mp hn
    have hrest := ih hn (l.filter fun a => !decide (key a=k)) fun a ha => by
      obtain ⟨hal,hne⟩ := List.mem_filter.mp ha
      rcases List.mem_cons.mp (hkeys a hal) with heq | hmem
      · simp [heq] at hne
      · exact hmem
    have hsame : (keys.flatMap fun k' => l.filter fun a => decide (key a=k')) =
        keys.flatMap fun k' => (l.filter fun a => !decide (key a=k)).filter fun a => decide (key a=k') := by
      apply List.flatMap_congr
      intro k' hk'
      rw [List.filter_filter]
      apply List.filter_congr
      intro a _
      by_cases ha : key a=k'
      · have hne : key a≠k := fun h => hk (by rwa [← h,ha])
        simp [ha,ha ▸ hne]
      · simp [ha]
    rw [List.flatMap_cons,hsame]
    exact (hrest.append_left _).trans (List.filter_append_perm _ l)

theorem coinsMap_perm (rows : List Coin) : ((puzzlehashCoinsMap rows).entries.flatMap (·.2)).Perm rows := by
  have hentries : (puzzlehashCoinsMap rows).entries.flatMap (·.2) =
      (puzzlehashCoinsMap rows).keys.flatMap fun k => rows.filter fun c => decide (c.puzzleHash=k) := by
    rw [Dict.keys,List.flatMap_map]
    apply List.flatMap_congr
    rintro ⟨k,l⟩ he
    exact (mem_puzzlehashCoinsMap.mp he).2
  rw [hentries]
  refine flatMap_filter_perm Coin.puzzleHash (puzzlehashCoinsMap rows).nodup rows fun c hc => ?_
  exact List.mem_map.mpr ⟨_,mem_puzzlehashCoinsMap.mpr ⟨⟨c,hc,rfl⟩,rfl⟩,rfl⟩

section Respond
variable (hroot : additionsRootOf E rows = .ok root)
include hroot

theorem respondAdditions_all : ∃ res,respondAdditions E root rows none = .ok res ∧
    validateAdditions E res.coins res.proofs root = .ok true ∧ (res.coins.flatMap (·.2)).Perm rows := by
  refine ⟨_,rfl,?_,coinsMap_perm rows⟩
  exact bind_ok.mpr ⟨root,hroot,by rw [decide_eq_true rfl]; rfl⟩

theorem respondAdditions_some {puzzleHashes : List Bytes32} (h : ∀ puzzleHash∈puzzleHashes,Unmistaken E rows puzzleHash) :
    ∃ res,respondAdditions E root rows (some puzzleHashes) = .ok res ∧
      validateAdditions E res.coins res.proofs root = .ok true ∧
      (res.coins.flatMap (·.2)).Perm (puzzleHashes.flatMap (coinsWith rows)) := by
  obtain ⟨t,root',ht,hrootOf,hgetRoot,hincluded⟩ := isIncluded_rootOf (O := E.toOracles) (additionLeaves E rows)
  obtain rfl : root'=root := Except.ok.inj (hrootOf.symm.trans hroot)
  obtain ⟨entries,hentries,hall⟩ := exists_mapM fun puzzleHash hmem =>
    additionEntry_ok hincluded (h puzzleHash hmem)
  have hassert : assertThat (root'=root') = .ok () := assertThat_eq_ok.mpr rfl
  obtain ⟨hvalid,hperm⟩ := validateAdditionProofs_entries hall
  refine ⟨{ coins := entries.map (·.1),proofs := some (entries.map (·.2)) },?_,hvalid,hperm⟩
  simp only [respondAdditions]
  rw [bind_of_ok ht,bind_of_ok hgetRoot,bind_of_ok hassert,bind_of_ok hentries]
  rfl

end Respond

theorem respondAdditions_raises {puzzleHash : Bytes32} (hmem : puzzleHash∈puzzleHashes)
    (h : ¬ Unmistaken E rows puzzleHash) (root : Bytes32) (res : RespondAdditions) :
    respondAdditions E root rows (some puzzleHashes) ≠ .ok res := by
  intro hok
  obtain ⟨t,root',ht,hrootOf,hgetRoot,hincluded⟩ := isIncluded_rootOf (O := E.toOracles) (additionLeaves E rows)
  simp only [respondAdditions] at hok
  rw [bind_of_ok ht,bind_of_ok hgetRoot] at hok
  obtain ⟨-,-,hok⟩ := bind_ok.mp hok
  obtain ⟨entries,hentries,-⟩ := bind_ok.mp hok
  have hall := mapM_eq_ok.mp hentries
  obtain ⟨entry,hzip⟩ := exists_zip hall.length_eq hmem
  have hentry := List.forall₂_zip hall hzip
  rw [additionEntry_raises hincluded h] at hentry
  cases hentry

section Removals
variable (hnames : (rows.map E.coinName).Nodup)
include hnames

theorem removalsDict_entries : (removalsDict E rows).entries=rows.map fun c => (E.coinName c,c) := by
  induction rows using List.reverseRecOn with
  | nil => rfl
  | append_singleton rows c ih =>
    rw [List.map_append,List.nodup_append] at hnames
    obtain ⟨hnodup,-,hdisjoint⟩ := hnames
    have hold := ih hnodup
    have hset : removalsDict E (rows++[c])=(removalsDict E rows).set (E.coinName c) c := by
      simp only [removalsDict,List.foldl_append,List.foldl_cons,List.foldl_nil]
    have hnew : (removalsDict E rows).get? (E.coinName c)=none := by
      rw [Dict.get?_eq_none_iff,Dict.keys,hold,List.map_map]
      exact fun hmem => hdisjoint _ hmem _ (List.mem_singleton_self _) rfl
    rw [hset,Dict.entries_set_of_not_mem _ _ hnew,hold,List.map_append]
    rfl

theorem removalsDict_keys : (removalsDict E rows).keys=rows.map E.coinName := by
  rw [Dict.keys,removalsDict_entries hnames,List.map_map]
  rfl

theorem removalsDict_get? {name : Bytes32} {c : Coin} :
    (removalsDict E rows).get? name=some c ↔ c∈rows ∧ E.coinName c=name := by
  rw [← Dict.mem_entries,removalsDict_entries hnames,List.mem_map]
  constructor
  · rintro ⟨c',hc,heq⟩
    obtain ⟨rfl,rfl⟩ := Prod.mk.inj heq
    exact ⟨hc,rfl⟩
  · rintro ⟨hc,rfl⟩
    exact ⟨c,hc,rfl⟩

end Removals

def coinsNamed (E : Env) (removed : List Coin) (name : Bytes32) : List Coin :=
  removed.filter fun c => decide (E.coinName c=name)

/-- What an entry of a response says about a name, with a proof that convinces. -/
structure RemovalOf (E : Env) (rows : List Coin) (root name : Bytes32) (entry : ListedRemoval × Bytes32 × Bytes) : Prop where
  coin : entry.1.2.toList.Perm (coinsNamed E rows name)
  valid : validateRemoval E root entry.1 entry.2 = .ok true

theorem validateRemovalProofs_entries {names : List Bytes32} {entries : List (ListedRemoval × Bytes32 × Bytes)}
    (h : List.Forall₂ (RemovalOf E rows root) names entries) :
    WalletNode.validateRemovals E (entries.map (·.1)) (some (entries.map (·.2))) root = .ok true ∧
      ((entries.map (·.1)).filterMap (·.2)).Perm (names.flatMap (coinsNamed E rows)) := by
  have hlen : ¬ (entries.map (·.1)).length≠(entries.map (·.2)).length := by simp
  simp only [WalletNode.validateRemovals]
  rw [if_neg hlen]
  induction h with
  | nil => exact ⟨rfl,.nil⟩
  | cons hentry _ ih =>
    obtain ⟨hvalid,hperm⟩ := ih (by simp)
    rw [List.map_cons,List.map_cons,List.zip_cons_cons]
    constructor
    · rw [validateRemovalProofs,bind_of_ok hentry.valid,if_pos rfl,hvalid]
    · rw [List.filterMap_cons,List.flatMap_cons]
      refine List.Perm.trans ?_ (hentry.coin.append hperm)
      split <;> simp [*]

theorem removalEntry_ok (hnames : (rows.map E.coinName).Nodup)
    (hincluded : ∀ v,∃ proof,isIncludedAlreadyHashed v t = .ok (decide (v∈rows.map E.coinName),proof) ∧
      (v∈rows.map E.coinName → confirmIncludedAlreadyHashed E.toOracles root v proof = .ok true) ∧
      (v∉rows.map E.coinName → confirmNotIncludedAlreadyHashed E.toOracles root v proof = .ok true)) (name : Bytes32) :
    ∃ entry,removalEntry (removalsDict E rows) t name = .ok entry ∧ RemovalOf E rows root name entry := by
  obtain ⟨proof,hanswer,hin,hout⟩ := hincluded name
  have hmem : name∈rows.map E.coinName ↔ ((removalsDict E rows).get? name).isSome := by
    rw [← removalsDict_keys hnames,Dict.mem_keys,Option.isSome_iff_exists]
  have hassert : assertThat (decide (name∈rows.map E.coinName)=((removalsDict E rows).get? name).isSome) = .ok () := by
    rw [assertThat_eq_ok,Bool.eq_iff_iff,decide_eq_true_eq,hmem]
  refine ⟨((name,(removalsDict E rows).get? name),name,proof),?_,?_,?_⟩
  · unfold removalEntry
    rw [bind_of_ok hanswer]
    dsimp only
    rw [bind_of_ok hassert]
    rfl
  · have hrows : (coinsNamed E rows name).Nodup := (List.Nodup.of_map _ hnames).filter _
    have htoList (o : Option Coin) : o.toList.Nodup := by cases o <;> simp
    rw [List.perm_ext_iff_of_nodup (htoList _) hrows]
    intro c
    rw [Option.mem_toList,removalsDict_get? hnames,coinsNamed,List.mem_filter,decide_eq_true_eq]
  · simp only [validateRemoval]
    rw [if_neg (not_not.mpr rfl)]
    cases hget : (removalsDict E rows).get? name with
    | none => exact hout (by simp [hmem,hget])
    | some c =>
      obtain ⟨-,hname⟩ := (removalsDict_get? hnames).mp hget
      dsimp only
      rw [if_neg (not_not.mpr hname.symm),hname]
      exact hin (by simp [hmem,hget])

theorem respondRemovals_right (hnames : (rows.map E.coinName).Nodup) (hroot : removalsRootOf E (rows.map E.coinName) = .ok root)
    {hasTransactions : Bool} (hnone : hasTransactions=false → rows=[]) (coinNames : Option (List Bytes32)) :
    ∃ res,respondRemovals E hasTransactions root rows coinNames = .ok res ∧
      WalletNode.validateRemovals E res.coins res.proofs root = .ok true ∧ (res.coins.filterMap (·.2)).Perm
        (if coinNames.getD []=[] then rows else (coinNames.getD []).flatMap (coinsNamed E rows)) := by
  unfold respondRemovals
  have hall (coins : List ListedRemoval) (h : coins.filterMap (·.2)=rows) :
      WalletNode.validateRemovals E coins none root = .ok true := by
    refine bind_ok.mpr ⟨root,?_,by rw [decide_eq_true rfl]; rfl⟩
    rw [h]
    exact hroot
  by_cases htx : hasTransactions=false
  · have hrows := hnone htx
    rw [if_pos htx]
    refine ⟨_,rfl,?_,?_⟩
    · cases coinNames with
      | none => exact hall [] hrows.symm
      | some names => rfl
    · subst hrows
      have hnothing (names : List Bytes32) : names.flatMap (coinsNamed E [])=[] := by simp [coinsNamed]
      rw [hnothing,ite_self]
      rfl
  · rw [if_neg htx]
    by_cases hnil : coinNames.getD []=[]
    · have hrows : ((removalsDict E rows).entries.map fun e => ((e.1,some e.2) : ListedRemoval)).filterMap (·.2)=rows := by
        rw [removalsDict_entries hnames,List.map_map,List.filterMap_map]
        exact List.filterMap_some
      rw [if_pos hnil,if_pos hnil]
      exact ⟨_,rfl,hall _ hrows,by rw [hrows]⟩
    · rw [if_neg hnil,if_neg hnil]
      obtain ⟨t,root',ht,hrootOf,hgetRoot,hincluded⟩ := isIncluded_rootOf (O := E.toOracles) (rows.map E.coinName)
      obtain rfl : root'=root := Except.ok.inj (hrootOf.symm.trans hroot)
      obtain ⟨entries,hentries,hforall⟩ := exists_mapM (l := coinNames.getD []) fun name _ =>
        removalEntry_ok hnames hincluded name
      obtain ⟨hvalid,hperm⟩ := validateRemovalProofs_entries hforall
      have hassert : assertThat (root'=root') = .ok () := assertThat_eq_ok.mpr rfl
      refine ⟨{ coins := entries.map (·.1),proofs := some (entries.map (·.2)) },?_,hvalid,hperm⟩
      rw [removalsDict_keys hnames,bind_of_ok ht,bind_of_ok hgetRoot,bind_of_ok hassert,bind_of_ok hentries]
      rfl

end FullNodeAPI

/-- The coins of the records that the store has for a height. -/
def World.addedAt (w : World) (height : ℕ) : List Coin :=
  (w.db.coinRecord.values.filter fun r => decide (r.confirmedBlockIndex=height)).map (·.coin)

def World.removedAt (w : World) (height : ℕ) : List Coin :=
  (w.db.coinRecord.values.filter fun r => decide (r.spentBlockIndex=height) && r.spent).map (·.coin)

/-- A node at rest that has a transaction block in its main chain, with exact records for it. -/
structure Served (E : Env) (w : World) (b : FullBlock) (foliage : FoliageTransactionBlock) (added removed : List Coin) : Prop where
  rest : AtRest w w
  calm : w.interrupt=none
  stored : w.block? (b.headerHash E)=some b
  isTransactionBlock : b.foliageTransactionBlock=some foliage
  onChain : w.chain.heightToHash.get? b.height=some (b.headerHash E)
  peak : ∃ h,w.chain.peakHeight=some h ∧ b.height≤h
  named : ∀ name r,w.db.coinRecord.get? name=some r → E.coinName r.coin=name
  addedRows : (w.addedAt b.height).Perm added
  removedRows : (w.removedAt b.height).Perm removed
  additionsRoot : additionsRootOf E added = .ok foliage.additionsRoot
  removalsRoot : removalsRootOf E (removed.map E.coinName) = .ok foliage.removalsRoot
  noTransactions : b.transactionsGenerator=none → removed=[]

namespace FullNodeAPI
variable {w : World} {b : FullBlock} {foliage : FoliageTransactionBlock} {removed : List Coin}

theorem Reads.fetch {α : Type} (q : Tables → α) : Reads w (fetch q) (.ok (q w.db)) := by
  intro v hv hcalm
  exact ⟨v,by rw [fetch_calm hcalm,hv.db],hv,hcalm⟩

theorem Reads.heightToHash {height : ℕ} {hash : Bytes32} (h : w.chain.heightToHash.get? height=some hash) :
    Reads w (heightToHash height) (.ok hash) := by
  refine Reads.chain fun v hv => ?_
  have hget : v.chain.view.heightToHash height = .ok hash := lookup_eq_ok.mpr (by rw [hv]; exact h)
  rw [hget]
  exact Reads.lift _

section Served
variable (hs : Served E w b foliage added removed)
include hs

theorem requestAdditions_reads (puzzleHashes : Option (List Bytes32)) :
    Reads w (requestAdditions E (b.headerHash E) puzzleHashes)
      (respondAdditions E foliage.additionsRoot (w.addedAt b.height) puzzleHashes >>= fun r => .ok (.respond r)) := by
  have hraise : raiseIf (b.headerHash E≠b.headerHash E) = .ok () := raiseIf_eq_ok.mpr fun h => h rfl
  unfold requestAdditions
  refine (Reads.getFullBlock _).bind_ok ?_
  rw [hs.stored]
  dsimp only
  rw [hs.isTransactionBlock]
  dsimp only
  refine (Reads.heightToHash hs.onChain).bind_ok ?_
  rw [if_neg (not_not.mpr rfl)]
  refine (Reads.fetch _).bind_ok ((Reads.heightToHash hs.onChain).bind_ok ?_)
  rw [hraise]
  exact (Reads.lift _).bind_ok ((Reads.lift _).bind fun r _ => Reads.pure _)

theorem requestRemovals_reads (coinNames : Option (List Bytes32)) :
    Reads w (requestRemovals E b.height (b.headerHash E) coinNames)
      (respondRemovals E b.transactionsGenerator.isSome foliage.removalsRoot (w.removedAt b.height) coinNames >>=
        fun r => .ok (.respond r)) := by
  have hraise : raiseIf (b.headerHash E≠b.headerHash E) = .ok () := raiseIf_eq_ok.mpr fun h => h rfl
  obtain ⟨peakHeight,hpeak,hle⟩ := hs.peak
  unfold requestRemovals
  refine (Reads.getFullBlock _).bind_ok ?_
  rw [hs.stored]
  dsimp only
  rw [hs.isTransactionBlock]
  dsimp only
  rw [if_neg (not_not.mpr rfl)]
  refine Reads.chain fun v hv => ?_
  rw [hv,hpeak]
  dsimp only
  rw [if_neg (not_lt.mpr hle)]
  refine (Reads.heightToHash hs.onChain).bind_ok ?_
  rw [if_neg (not_not.mpr rfl)]
  refine (Reads.fetch _).bind_ok ((Reads.heightToHash hs.onChain).bind_ok ?_)
  rw [hraise]
  exact (Reads.lift _).bind_ok ((Reads.lift _).bind fun r _ => Reads.pure _)

theorem removedAt_names : ((w.removedAt b.height).map E.coinName).Nodup := by
  have hkeys : w.db.coinRecord.values.map (fun r => E.coinName r.coin)=w.db.coinRecord.keys := by
    rw [Dict.values,Dict.keys,List.map_map]
    apply List.map_congr_left
    rintro ⟨name,r⟩ he
    exact hs.named name r ((Dict.mem_entries _ _ _).mp he)
  have hsub : ((w.db.coinRecord.values.filter fun r => decide (r.spentBlockIndex=b.height) && r.spent).map
      fun r => E.coinName r.coin).Sublist (w.db.coinRecord.values.map fun r => E.coinName r.coin) :=
    List.filter_sublist.map _
  rw [hkeys] at hsub
  rw [World.removedAt,List.map_map]
  exact hsub.nodup w.db.coinRecord.nodup

theorem addedAt_root : additionsRootOf E (w.addedAt b.height) = .ok foliage.additionsRoot :=
  (additionsRootOf_perm hs.addedRows).trans hs.additionsRoot

theorem removedAt_root : removalsRootOf E ((w.removedAt b.height).map E.coinName) = .ok foliage.removalsRoot :=
  (removalsRootOf_perm (hs.removedRows.map _)).trans hs.removalsRoot

theorem unmistaken_rows (puzzleHash : Bytes32) :
    Unmistaken E (w.addedAt b.height) puzzleHash ↔ Unmistaken E added puzzleHash := by
  simp only [unmistaken_iff,mem_additionLeaves_perm hs.addedRows,hs.addedRows.mem_iff]

end Served

/-- A request that raises is not answered. -/
def answered {α : Type} : Check (PeerAnswer α) → PeerAnswer α
  | .ok a => a
  | .error _ => .nothing

/-- The node answers the request, the wallet accepts the answer, and has the additions that it asked for. -/
structure AdditionsExchanged (E : Env) (w : World) (b : FullBlock) (foliage : FoliageTransactionBlock) (added : List Coin)
    (additions : Option (List Bytes32)) (getAllAdditions : Bool) : Prop where
  accepted : ∃ res w',requestAdditions E (b.headerHash E) (if getAllAdditions then none else additions) w =
    (.ok (.respond res),w') ∧ validateAdditions E res.coins res.proofs foliage.additionsRoot = .ok true
  returned : ∃ coins,getAdditions E foliage.additionsRoot additions getAllAdditions
      (fun request => answered (requestAdditions E (b.headerHash E) request w).1) = .ok (some coins) ∧
    coins.Perm (if getAllAdditions then added else (additions.getD []).flatMap (coinsWith added))

structure RemovalsExchanged (E : Env) (w : World) (b : FullBlock) (foliage : FoliageTransactionBlock) (removed : List Coin)
    (walletType : Bytes32 → Option WalletType) (additions : List Coin) (removals : List Bytes32)
    (requestAllRemovals : Bool) : Prop where
  accepted : ∃ res w',requestRemovals E b.height (b.headerHash E)
    (if requestAllRemovals || needsAllRemovals walletType additions then none else some removals) w =
      (.ok (.respond res),w') ∧ WalletNode.validateRemovals E res.coins res.proofs foliage.removalsRoot = .ok true
  returned : ∃ coins,getRemovals E foliage.removalsRoot walletType additions removals requestAllRemovals
      (fun request => answered (requestRemovals E b.height (b.headerHash E) request w).1) = .ok (some coins) ∧
    coins.Perm (if requestAllRemovals || needsAllRemovals walletType additions then removed
      else removals.flatMap (coinsNamed E removed))

variable {additions : Option (List Bytes32)}

section
variable (hs : Served E w b foliage added removed)
include hs

theorem additionsExchanged {getAllAdditions : Bool}
    (h : getAllAdditions=false → ∀ puzzleHash∈additions.getD [],Unmistaken E added puzzleHash) :
    AdditionsExchanged E w b foliage added additions getAllAdditions := by
  have hres : ∃ res,respondAdditions E foliage.additionsRoot (w.addedAt b.height)
      (if getAllAdditions then none else additions) = .ok res ∧
      validateAdditions E res.coins res.proofs foliage.additionsRoot = .ok true ∧
      (additions.getD []≠[] ∨ getAllAdditions=true → (res.coins.flatMap (·.2)).Perm
        (if getAllAdditions then added else (additions.getD []).flatMap (coinsWith added))) := by
    cases getAllAdditions with
    | true =>
      obtain ⟨res,hres,hvalid,hperm⟩ := respondAdditions_all (addedAt_root hs)
      exact ⟨res,hres,hvalid,fun _ => hperm.trans hs.addedRows⟩
    | false =>
      cases additions with
      | none =>
        obtain ⟨res,hres,hvalid,-⟩ := respondAdditions_all (addedAt_root hs)
        exact ⟨res,hres,hvalid,fun hask => by simp at hask⟩
      | some puzzleHashes =>
        obtain ⟨res,hres,hvalid,hperm⟩ := respondAdditions_some (addedAt_root hs) fun puzzleHash hmem =>
          (unmistaken_rows hs puzzleHash).mpr (h rfl puzzleHash hmem)
        refine ⟨res,hres,hvalid,fun _ => hperm.trans ?_⟩
        exact List.Perm.flatMap_left _ fun puzzleHash _ => coinsWith_perm hs.addedRows puzzleHash
  obtain ⟨res,hres,hvalid,hperm⟩ := hres
  have hread := requestAdditions_reads hs (if getAllAdditions then none else additions)
  rw [hres] at hread
  obtain ⟨w',hrun,-⟩ := hread w hs.rest hs.calm
  refine ⟨⟨res,w',hrun,hvalid⟩,?_⟩
  by_cases hask : additions.getD []≠[] ∨ getAllAdditions=true
  · refine ⟨_,getAdditions_accepted hask (by rw [hrun]; rfl) hvalid,?_⟩
    exact (List.Perm.flatMap_left _ fun e _ => sortCoinList_perm e.2).trans (hperm hask)
  · obtain ⟨hnil,hall⟩ := not_or.mp hask
    refine ⟨[],if_neg hask,?_⟩
    rw [if_neg hall,not_not.mp hnil]
    rfl

theorem not_additionsExchanged
    {puzzleHash : Bytes32} (hmem : puzzleHash∈additions.getD []) (h : ¬ Unmistaken E added puzzleHash) :
    ¬ AdditionsExchanged E w b foliage added additions false := by
  rintro ⟨⟨res,w',hrun,-⟩,-⟩
  cases additions with
  | none => exact absurd hmem List.not_mem_nil
  | some puzzleHashes =>
    obtain ⟨v,hread,-⟩ := requestAdditions_reads hs (some puzzleHashes) w hs.rest hs.calm
    have hsame := congrArg Prod.fst (hrun.symm.trans hread)
    obtain ⟨res',hok,-⟩ := bind_ok.mp hsame.symm
    exact respondAdditions_raises hmem (fun hrows => h ((unmistaken_rows hs puzzleHash).mp hrows)) _ _ hok

theorem removalsExchanged (walletType : Bytes32 → Option WalletType)
    (additions : List Coin) (removals : List Bytes32) (requestAllRemovals : Bool) :
    RemovalsExchanged E w b foliage removed walletType additions removals requestAllRemovals := by
  have hrows : b.transactionsGenerator.isSome=false → w.removedAt b.height=[] := by
    intro hnone
    have hnil := hs.noTransactions (Option.isNone_iff_eq_none.mp (by simpa using hnone))
    exact (hnil ▸ hs.removedRows).eq_nil
  obtain ⟨res,hres,hvalid,hperm⟩ := respondRemovals_right (removedAt_names hs) (removedAt_root hs) hrows
    (if requestAllRemovals || needsAllRemovals walletType additions then none else some removals)
  have hread := requestRemovals_reads hs
    (if requestAllRemovals || needsAllRemovals walletType additions then none else some removals)
  rw [hres] at hread
  obtain ⟨w',hrun,-⟩ := hread w hs.rest hs.calm
  refine ⟨⟨res,w',hrun,hvalid⟩,?_⟩
  have hnamed (name : Bytes32) : (coinsNamed E (w.removedAt b.height) name).Perm (coinsNamed E removed name) :=
    hs.removedRows.filter _
  by_cases hask : removals≠[] ∨ (requestAllRemovals || needsAllRemovals walletType additions)=true
  · refine ⟨_,getRemovals_accepted rfl hask (by rw [hrun]; rfl) hvalid,hperm.trans ?_⟩
    by_cases hall : (requestAllRemovals || needsAllRemovals walletType additions)=true
    · have hnil : (none : Option (List Bytes32)).getD []=[] := rfl
      rw [if_pos hall,if_pos hall,if_pos hnil]
      exact hs.removedRows
    · have hne : (some removals).getD []≠[] := hask.resolve_right hall
      rw [if_neg hall,if_neg hall,if_neg hne]
      exact List.Perm.flatMap_left _ fun name _ => hnamed name
  · obtain ⟨hnil,hall⟩ := not_or.mp hask
    refine ⟨[],if_neg hask,?_⟩
    rw [if_neg hall,not_not.mp hnil]
    rfl

end

/-- Node and wallet agree on every request, unless it takes the hash of a coin list for a puzzle hash. -/
theorem exchange_complete_iff (hs : Served E w b foliage added removed) (additions : Option (List Bytes32))
    (getAllAdditions : Bool) (walletType : Bytes32 → Option WalletType) (addedCoins : List Coin)
    (removals : List Bytes32) (requestAllRemovals : Bool) :
    AdditionsExchanged E w b foliage added additions getAllAdditions ∧
      RemovalsExchanged E w b foliage removed walletType addedCoins removals requestAllRemovals ↔
      (getAllAdditions=false → ∀ puzzleHash∈additions.getD [],Unmistaken E added puzzleHash) := by
  constructor
  · rintro ⟨hadditions,-⟩ hall puzzleHash hmem
    subst hall
    by_contra hmistaken
    exact not_additionsExchanged hs hmem hmistaken hadditions
  · exact fun h => ⟨additionsExchanged hs h,removalsExchanged hs walletType addedCoins removals requestAllRemovals⟩

def servedFoliage : FoliageTransactionBlock :=
  ⟨0,1,0,2^254+2^100+128,2^254+2^100+33,0⟩

def servedBlock : FullBlock :=
  { tinyFirst 30 with foliageTransactionBlock := some servedFoliage,transactionsGenerator := some [1] }

def servedState : World :=
  { World.empty 5 5 with
    db := ⟨Dict.empty.set 30 (.of servedBlock),Dict.empty,
      Dict.empty.set (clientEnv.coinName lowCoin) ⟨lowCoin,0,0,true,false,1⟩⟩
    chain := ⟨Dict.empty,Dict.empty,Dict.empty.set 0 30,Dict.empty,some 0⟩ }

theorem servedState_served : Served clientEnv servedState servedBlock servedFoliage [lowCoin] [lowCoin] where
  rest := ⟨rfl,rfl,rfl,fun k v hv => by simp [servedState,World.empty,LRUCache.new] at hv⟩
  calm := rfl
  stored := by decide +kernel
  isTransactionBlock := rfl
  onChain := by decide +kernel
  peak := ⟨0,rfl,by decide +kernel⟩
  named := by
    intro name r hr
    have hmem := (Dict.mem_entries _ _ _).mpr hr
    obtain ⟨rfl,rfl⟩ := Prod.mk.inj (List.mem_singleton.mp hmem)
    rfl
  addedRows := by decide +kernel
  removedRows := by decide +kernel
  additionsRoot := by decide +kernel
  removalsRoot := by decide +kernel
  noTransactions := fun h => by cases h

theorem exchange_complete_iff_served : AdditionsExchanged clientEnv servedState servedBlock servedFoliage [lowCoin]
    (some [5,9,5]) false ∧ RemovalsExchanged clientEnv servedState servedBlock servedFoliage [lowCoin]
    (fun _ => none) [] [clientEnv.coinName lowCoin,4] false := by
  refine (exchange_complete_iff servedState_served (some [5,9,5]) false _ _ _ _).mpr fun _ => ?_
  rintro puzzleHash hmem ⟨c,hc,rfl⟩
  obtain rfl := List.mem_singleton.mp hc
  exact absurd hmem (by decide +kernel)

/-- The full node trips over a request for the hash of a coin list. -/
theorem requestAdditions_coinListHash : Served clientEnv servedState servedBlock servedFoliage [lowCoin] [lowCoin] ∧
    (requestAdditions clientEnv (servedBlock.headerHash clientEnv) (some [hashCoinList clientEnv [lowCoin]])
      servedState).1 = .error (.raised .assertion) :=
  ⟨servedState_served,by decide +kernel⟩

end FullNodeAPI

end RoseChain
