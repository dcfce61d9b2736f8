import RoseChain.Util.RoundTrip
import RoseChain.Wallet.WalletBlockStore

namespace RoseChain.WalletDb
open Lib Streamable
variable {X : External} {IsProgram : Bytes → Prop}

mutual

def NoProgram : FieldType → Bool
  | .serializedProgram => false
  | .optional t => NoProgram t
  | .list t => NoProgram t
  | .tuple ts => NoPrograms ts
  | .streamable ts => NoPrograms ts
  | _ => true

def NoPrograms : List FieldType → Bool
  | [] => true
  | t::ts => NoProgram t && NoPrograms ts

end

mutual

theorem wellTyped_of_noProgram : (t : FieldType) → NoProgram t=true → (x : t.Value X) → WellTyped X IsProgram t x
  | .int _,_,_ => trivial
  | .bool,_,_ => trivial
  | .bytes,_,_ => trivial
  | .sizedBytes _,_,_ => trivial
  | .str,_,_ => trivial
  | .sizeHint _,_,_ => trivial
  | .optional t,h,_ => fun x _ => wellTyped_of_noProgram t h x
  | .list t,h,_ => fun x _ => wellTyped_of_noProgram t h x
  | .tuple ts,h,xs => wellTypedItems_of_noPrograms ts h xs
  | .streamable ts,h,xs => wellTypedItems_of_noPrograms ts h xs

theorem wellTypedItems_of_noPrograms : (ts : List FieldType) → NoPrograms ts=true → (xs : FieldType.Values X ts) →
    WellTypedItems X IsProgram ts xs
  | [],_,_ => trivial
  | t::ts,h,(x,xs) =>
    have hboth := Bool.and_eq_true_iff.mp h
    ⟨wellTyped_of_noProgram t hboth.1 x,wellTypedItems_of_noPrograms ts hboth.2 xs⟩

end

variable {b : Bytes}

variable {fields : List FieldType}

theorem fromBytes_of_toBytes (hX : Lawful X IsProgram) (hfields : NoPrograms fields=true)
    {x : FieldType.Values X fields} (h : toBytes X fields x = .ok b) : fromBytes X fields b = .ok x :=
  fromBytes_eq_ok.mpr ((parseItems_exact hX fields).whole.mpr ⟨wellTypedItems_of_noPrograms fields hfields x,h⟩)

theorem fromBytes_longer (hX : Lawful X IsProgram) {more : List FieldType} (hfields : NoPrograms fields=true)
    {x : FieldType.Values X fields} {xs : FieldType.Values X more}
    (hmore : ∀ c,streamItems X more xs = .ok c → c≠[])
    (h : toBytes X (.streamable fields::more) (x,xs) = .ok b) : fromBytes X fields b = .error (.raised .assertion) := by
  obtain ⟨front,hfront,h⟩ := bind_ok.mp h
  obtain ⟨rest,hrest,h⟩ := bind_ok.mp h
  rw [← Except.ok.inj h]
  have hparse : parseItems X fields (front++rest) = .ok (x,rest) :=
    (parseItems_exact hX fields _ _ _).mpr ⟨wellTypedItems_of_noPrograms fields hfields x,front,hfront,rfl⟩
  unfold fromBytes
  rw [bind_of_ok hparse]
  dsimp only
  unfold assertThat
  rw [if_neg (hmore rest hrest)]
  rfl

theorem streamList_ne_nil {α : Type} {f : α → Check Bytes} {l : List α} (h : streamList f l = .ok b) :
    b≠[] := by
  unfold streamList streamSize at h
  obtain ⟨size,hsize,h⟩ := bind_ok.mp h
  obtain ⟨n,-,hsize⟩ := bind_ok.mp hsize
  obtain ⟨elements,-,h⟩ := bind_ok.mp h
  rw [← Except.ok.inj h,← Except.ok.inj hsize]
  intro hnil
  have hlength := congrArg List.length (List.append_eq_nil_iff.mp hnil).1
  rw [length_bigEndian] at hlength
  cases hlength

/-- A stored record is never read as a header: there are its additions behind. -/
theorem header_not_read (hX : Lawful X IsProgram) {r : Classes.HeaderBlockRecord X}
    (h : toBytes X Classes.headerBlockRecord r = .ok b) :
    fromBytes X Classes.headerBlock b = .error (.raised .assertion) := by
  obtain ⟨header,additions,removals,u⟩ := r
  apply fromBytes_longer hX (by decide) _ h
  intro c hc hnil
  obtain ⟨front,hfront,hc⟩ := bind_ok.mp hc
  obtain ⟨rest,-,hc⟩ := bind_ok.mp hc
  rw [hnil] at hc
  exact streamList_ne_nil hfront (List.append_eq_nil_iff.mp (Except.ok.inj hc)).1

namespace WalletBlockStore
variable {getHash : Classes.Foliage X → Hash} {s s' : WalletBlockStore X} {key : Hash}
  {r : Classes.HeaderBlockRecord X} {br : Classes.BlockRecord X}

/-- What was written under each hash, which peak was set, and which row is marked as the peak. -/
structure History (X : External) where
  written : Hash → Option (Classes.HeaderBlockRecord X × Classes.BlockRecord X)
  peak : Option Hash
  marked : Option Hash

namespace History

def empty : History X := ⟨fun _ => none,none,none⟩

def add (g : History X) (key : Hash) (w : Classes.HeaderBlockRecord X × Classes.BlockRecord X) : History X where
  written := Function.update g.written key (some w)
  peak := g.peak
  marked := if g.marked=some key then none else g.marked

def setPeak (g : History X) (key : Hash) : History X where
  written := g.written
  peak := some key
  marked := if (g.written key).isSome then some key else none

theorem written_add (g : History X) (key q : Hash) (w : Classes.HeaderBlockRecord X × Classes.BlockRecord X) :
    (g.add key w).written q=if key=q then some w else g.written q := by
  unfold add
  simp only [Function.update_apply,eq_comm]

theorem marked_add (g : History X) (key q : Hash) (w : Classes.HeaderBlockRecord X × Classes.BlockRecord X) :
    (g.add key w).marked=some q ↔ key≠q ∧ g.marked=some q := by
  unfold add
  dsimp only
  split_ifs with hm
  · rw [hm,Option.some.injEq]
    exact iff_of_false (by simp) fun h => h.1 h.2
  · constructor
    · intro h
      refine ⟨?_,h⟩
      intro heq
      exact hm (h.trans (congrArg some heq.symm))
    · exact fun h => h.2

theorem marked_setPeak (g : History X) (key q : Hash) :
    (g.setPeak key).marked=some q ↔ key=q ∧ (g.written q).isSome := by
  unfold setPeak
  dsimp only
  by_cases heq : key=q
  · rw [heq]
    split_ifs with hw
    · simp [hw]
    · simp [hw]
  · split_ifs <;> simp [heq]

end History

/-- Any order of calls that return: records are added, some of them read, and peaks set. -/
inductive StoreRun (getHash : Classes.Foliage X → Hash) : WalletBlockStore X → History X → Prop
  | create : StoreRun getHash WalletBlockStore.create History.empty
  | addBlockRecord {s s' : WalletBlockStore X} {g : History X} (h : StoreRun getHash s g)
      {r : Classes.HeaderBlockRecord X} {br : Classes.BlockRecord X}
      (hrun : WalletBlockStore.addBlockRecord getHash r br s=(.ok (),s')) :
      StoreRun getHash s' (g.add (headerHash getHash r) (r,br))
  | getHeaderBlockRecord {s : WalletBlockStore X} {g : History X} (h : StoreRun getHash s g) (key : Hash) :
      StoreRun getHash (WalletBlockStore.getHeaderBlockRecord getHash key s).2 g
  | setPeak {s : WalletBlockStore X} {g : History X} (h : StoreRun getHash s g) (key : Hash) :
      StoreRun getHash (s.setPeak key) (g.setPeak key)

/-- The two rows of a hash hold what has been written for it. -/
structure RowsOf (getHash : Classes.Foliage X → Hash) (s : WalletBlockStore X) (key : Hash)
    (w : Classes.HeaderBlockRecord X × Classes.BlockRecord X) (isPeak : Bool) : Prop where
  named : headerHash getHash w.1=key
  header : ∃ b,toBytes X Classes.headerBlockRecord w.1 = .ok b ∧
    s.headerBlocks.get? key=some ⟨w.1.header.height,b⟩
  record : ∃ c summary,toBytes X Classes.blockRecord w.2 = .ok c ∧ encodeSummary w.2 = .ok summary ∧
    s.blockRecords.get? key=some ⟨w.1.header.prevHeaderHash,w.1.header.height,c,summary,isPeak⟩

/-- The tables hold exactly what has been written, and the cache nothing else. -/
structure Sound (getHash : Classes.Foliage X → Hash) (s : WalletBlockStore X) (g : History X) : Prop where
  unwritten : ∀ key,g.written key=none → s.headerBlocks.get? key=none ∧ s.blockRecords.get? key=none
  rows : ∀ key w,g.written key=some w → RowsOf getHash s key w (decide (g.marked=some key))
  cache : ∀ key v,s.blockCache.cache.get? key=some (some v) → ∃ br,g.written key=some (v,br)

theorem get?_insertOrReplace {V : Type} (table : Dict Hash V) (key q : Hash) (row : V) :
    (insertOrReplace table key row).get? q=if key=q then some row else table.get? q := by
  unfold insertOrReplace
  rw [Dict.get?_set]
  split_ifs with hq
  · rfl
  · rw [Dict.get?_erase,if_neg hq]

theorem cacheGet_apply (key : Hash) (s : WalletBlockStore X) :
    cacheGet key s=(.ok (s.blockCache.cache.get? key).join,{ s with blockCache := (s.blockCache.get key).2 }) := by
  rw [← LRUCache.get_fst]
  rfl

theorem cachePut_apply (key : Hash) (value : Option (Classes.HeaderBlockRecord X)) (s : WalletBlockStore X) :
    cachePut key value s=(.ok (),{ s with blockCache := s.blockCache.put key value }) := rfl

/-- What a call leaves that has returned. -/
structure Added (getHash : Classes.Foliage X → Hash) (s s' : WalletBlockStore X) (r : Classes.HeaderBlockRecord X)
    (br : Classes.BlockRecord X) : Prop where
  header : ∃ b,toBytes X Classes.headerBlockRecord r = .ok b ∧
    s'.headerBlocks=insertOrReplace s.headerBlocks (headerHash getHash r) ⟨r.header.height,b⟩
  record : ∃ c summary,toBytes X Classes.blockRecord br = .ok c ∧ encodeSummary br = .ok summary ∧
    s'.blockRecords=insertOrReplace s.blockRecords (headerHash getHash r)
      ⟨r.header.prevHeaderHash,r.header.height,c,summary,false⟩
  cache : ∀ q v,s'.blockCache.cache.get? q=some (some v) →
    headerHash getHash r≠q ∧ s.blockCache.cache.get? q=some (some v)

theorem insertRows_ok {t : WalletBlockStore X} {x y : Check Bytes} {z : Check (Option Bytes)} {prevHash : Hash} {height : ℕ}
    (h : ((Eff.lift x >>= fun block =>
      Eff.modify (fun s => { s with headerBlocks := insertOrReplace s.headerBlocks key ⟨height,block⟩ }) >>= fun _ =>
      Eff.lift y >>= fun record => Eff.lift z >>= fun summary => Eff.modify fun s => { s with
        blockRecords := insertOrReplace s.blockRecords key ⟨prevHash,height,record,summary,false⟩ }) : StoreM X Unit) t =
          (.ok (),s')) : ∃ b c summary,x = .ok b ∧ y = .ok c ∧ z = .ok summary ∧ s' = { t with
      headerBlocks := insertOrReplace t.headerBlocks key ⟨height,b⟩
      blockRecords := insertOrReplace t.blockRecords key ⟨prevHash,height,c,summary,false⟩ } := by
  cases x with
  | error e => cases h
  | ok b =>
    cases y with
    | error e => cases h
    | ok c =>
      cases z with
      | error e => cases h
      | ok summary => exact ⟨b,c,summary,rfl,rfl,rfl,(Prod.mk.inj h).2.symm⟩

theorem addBlockRecord_ok (h : addBlockRecord getHash r br s=(.ok (),s')) : Added getHash s s' r br := by
  unfold addBlockRecord at h
  rw [Eff.bind_of_ok (cacheGet_apply _ s)] at h
  split_ifs at h with hcached
  · rw [Eff.bind_of_ok (cachePut_apply _ _ _)] at h
    obtain ⟨b,c,summary,hb,hc,hsummary,rfl⟩ := insertRows_ok h
    refine ⟨⟨b,hb,rfl⟩,⟨c,summary,hc,hsummary,rfl⟩,?_⟩
    intro q v hv
    obtain ⟨-,hnone⟩ | ⟨hne,hold⟩ := LRUCache.get?_put _ hv
    · cases hnone
    · rw [LRUCache.get_snd_cache] at hold
      exact ⟨hne,hold⟩
  · obtain ⟨b,c,summary,hb,hc,hsummary,rfl⟩ := insertRows_ok h
    refine ⟨⟨b,hb,rfl⟩,⟨c,summary,hc,hsummary,rfl⟩,?_⟩
    intro q v hv
    rw [LRUCache.get_snd_cache] at hv
    refine ⟨?_,hv⟩
    intro hq
    rw [hq,hv] at hcached
    exact hcached rfl

theorem Sound.add {g : History X} (hs : Sound getHash s g) (h : Added getHash s s' r br) :
    Sound getHash s' (g.add (headerHash getHash r) (r,br)) := by
  obtain ⟨⟨b,hb,hheaders⟩,⟨c,summary,hc,hsummary,hrecords⟩,hcache⟩ := h
  refine ⟨?_,?_,?_⟩
  · intro q hq
    rw [History.written_add] at hq
    split_ifs at hq with hne
    rw [hheaders,hrecords,get?_insertOrReplace,get?_insertOrReplace,if_neg hne,if_neg hne]
    exact hs.unwritten q hq
  · intro q w hq
    rw [History.written_add] at hq
    simp only [History.marked_add]
    split_ifs at hq with heq
    · obtain rfl := Option.some.inj hq
      refine ⟨heq,⟨b,hb,?_⟩,c,summary,hc,hsummary,?_⟩
      · rw [hheaders,get?_insertOrReplace,if_pos heq]
      · rw [hrecords,get?_insertOrReplace,if_pos heq]
        simp [heq]
    · obtain ⟨hkey,⟨b',hb',hrow⟩,c',summary',hc',hsummary',hrow'⟩ := hs.rows q w hq
      refine ⟨hkey,⟨b',hb',?_⟩,c',summary',hc',hsummary',?_⟩
      · rw [hheaders,get?_insertOrReplace,if_neg heq]
        exact hrow
      · rw [hrecords,get?_insertOrReplace,if_neg heq,hrow']
        simp [heq]
  · intro q v hv
    obtain ⟨hne,hold⟩ := hcache q v hv
    obtain ⟨br',hwritten⟩ := hs.cache q v hold
    refine ⟨br',?_⟩
    rw [History.written_add,if_neg hne]
    exact hwritten

theorem Sound.setPeak {g : History X} (hs : Sound getHash s g) (key : Hash) :
    Sound getHash (s.setPeak key) (g.setPeak key) := by
  refine ⟨?_,?_,hs.cache⟩
  · intro q hq
    obtain ⟨hheader,hrecord⟩ := hs.unwritten q hq
    refine ⟨hheader,?_⟩
    unfold WalletBlockStore.setPeak
    rw [Dict.get?_mapVals,hrecord]
    rfl
  · intro q w hq
    obtain ⟨hkey,hheader,c,summary,hc,hsummary,hrow⟩ := hs.rows q w hq
    refine ⟨hkey,hheader,c,summary,hc,hsummary,?_⟩
    have hwritten : g.written q=some w := hq
    simp only [History.marked_setPeak,hwritten,Option.isSome_some,and_true]
    unfold WalletBlockStore.setPeak
    rw [Dict.get?_mapVals,hrow]
    simp [eq_comm]

section Readers
variable {g : History X}

theorem Sound.getHeaderBlockRecord (hX : Lawful X IsProgram) (hs : Sound getHash s g) (key : Hash) :
    (WalletBlockStore.getHeaderBlockRecord getHash key s).1 = .ok ((g.written key).map Prod.fst) ∧
      Sound getHash (WalletBlockStore.getHeaderBlockRecord getHash key s).2 g := by
  have hcache : Sound getHash { s with blockCache := (s.blockCache.get key).2 } g := by
    refine ⟨hs.unwritten,fun q w hq => ?_,?_⟩
    · exact ⟨(hs.rows q w hq).named,(hs.rows q w hq).header,(hs.rows q w hq).record⟩
    · intro q v hv
      rw [LRUCache.get_snd_cache] at hv
      exact hs.cache q v hv
  unfold WalletBlockStore.getHeaderBlockRecord
  rw [Eff.bind_of_ok (cacheGet_apply key s)]
  cases hjoin : (s.blockCache.cache.get? key).join with
  | some v =>
    obtain ⟨br,hwritten⟩ := hs.cache key v (Option.join_eq_some_iff.mp hjoin)
    rw [hwritten]
    exact ⟨rfl,hcache⟩
  | none =>
    dsimp only
    rw [Eff.bind_get]
    cases hwritten : g.written key with
    | none =>
      rw [(hs.unwritten key hwritten).1]
      exact ⟨rfl,hcache⟩
    | some w =>
      obtain ⟨hnamed,⟨b,hb,hrow⟩,-⟩ := hs.rows key w hwritten
      rw [hrow]
      dsimp only
      rw [fromBytes_of_toBytes hX (by decide) hb,Eff.lift_ok_bind,Eff.bind_of_ok (cachePut_apply _ _ _),hnamed]
      refine ⟨rfl,hcache.unwritten,fun q w hq => ?_,?_⟩
      · exact ⟨(hcache.rows q w hq).named,(hcache.rows q w hq).header,(hcache.rows q w hq).record⟩
      · intro q v hv
        obtain ⟨rfl,hsame⟩ | ⟨-,hold⟩ := LRUCache.get?_put _ hv
        · rw [← Option.some.inj hsame]
          exact ⟨w.2,hwritten⟩
        · exact hcache.cache q v hold

theorem StoreRun.sound (hX : Lawful X IsProgram) (h : StoreRun getHash s g) : Sound getHash s g := by
  induction h with
  | create => exact ⟨fun _ _ => ⟨rfl,rfl⟩,fun _ _ hw => (by cases hw),fun _ _ hv => (by cases hv)⟩
  | addBlockRecord _ hrun ih => exact ih.add (addBlockRecord_ok hrun)
  | getHeaderBlockRecord _ key ih => exact (ih.getHeaderBlockRecord hX key).2
  | setPeak _ key ih => exact ih.setPeak key

theorem Sound.getBlockRecord (hX : Lawful X IsProgram) (hs : Sound getHash s g) (key : Hash) :
    s.getBlockRecord key = .ok ((g.written key).map Prod.snd) := by
  unfold WalletBlockStore.getBlockRecord
  cases hwritten : g.written key with
  | none =>
    rw [(hs.unwritten key hwritten).2]
    rfl
  | some w =>
    obtain ⟨-,-,c,summary,hc,-,hrow⟩ := hs.rows key w hwritten
    rw [hrow]
    dsimp only
    rw [fromBytes_of_toBytes hX (by decide) hc]
    rfl

variable {V W : Type}

theorem collect_from (decode : V → Check (Option W)) (f : Hash × V → Option W) (rows : List (Hash × V))
    (acc : Dict Hash W) (hn : (rows.map Prod.fst).Nodup) (hnew : ∀ e∈rows,acc.get? e.1=none)
    (h : ∀ e∈rows,decode e.2 = .ok (f e)) :
    ∃ d,rows.foldlM (fun ret e => do
        match ← decode e.2 with
        | some w => return ret.set e.1 w
        | none => return ret) acc = .ok d ∧
      ∀ k w,d.get? k=some w ↔ (∃ e∈rows,e.1=k ∧ f e=some w) ∨ acc.get? k=some w := by
  induction rows generalizing acc with
  | nil => exact ⟨acc,rfl,by simp⟩
  | cons e rows ih =>
    rw [List.map_cons,List.nodup_cons] at hn
    have hne {e' : Hash × V} (he' : e'∈rows) : e.1≠e'.1 := fun heq =>
      hn.1 (heq ▸ List.mem_map_of_mem (f := Prod.fst) he')
    have hrest {e' : Hash × V} (he' : e'∈rows) := hnew e' (List.mem_cons_of_mem e he')
    have hdecode : decode e.2 = .ok (f e) := h e List.mem_cons_self
    rw [List.foldlM_cons,hdecode]
    cases hf : f e with
    | none =>
      obtain ⟨d,hd,hget⟩ := ih acc hn.2 (fun e' he' => hrest he') fun e' he' => h e' (List.mem_cons_of_mem e he')
      refine ⟨d,hd,?_⟩
      intro k w
      rw [hget]
      simp [hf]
    | some w₀ =>
      have hset {q : Hash} : (acc.set e.1 w₀).get? q=if e.1=q then some w₀ else acc.get? q := Dict.get?_set _ _ _ _
      obtain ⟨d,hd,hget⟩ := ih (acc.set e.1 w₀) hn.2
        (fun e' he' => by rw [hset,if_neg (hne he')]; exact hrest he') fun e' he' => h e' (List.mem_cons_of_mem e he')
      refine ⟨d,hd,?_⟩
      intro k w
      rw [hget,hset]
      by_cases hk : e.1=k
      · have hnone : acc.get? k=none := hk ▸ hnew e List.mem_cons_self
        simp [hk,hf,hnone,or_comm]
      · simp [hk]

variable {rows : List (Hash × V)}

theorem collect_ok (decode : V → Check (Option W)) (f : Hash × V → Option W)
    (hn : (rows.map Prod.fst).Nodup) (h : ∀ e∈rows,decode e.2 = .ok (f e)) :
    ∃ d,collect decode rows = .ok d ∧ ∀ k w,d.get? k=some w ↔ ∃ e∈rows,e.1=k ∧ f e=some w := by
  obtain ⟨d,hd,hget⟩ := collect_from decode f rows Dict.empty hn (fun _ _ => rfl) h
  refine ⟨d,hd,?_⟩
  intro k w
  rw [hget]
  simp

theorem collect_error {decode : V → Check (Option W)} {x : Fail} (hne : rows≠[])
    (h : ∀ e∈rows,decode e.2 = .error x) : collect decode rows = .error x := by
  cases rows with
  | nil => exact absurd rfl hne
  | cons e rows =>
    unfold collect
    rw [List.foldlM_cons,h e List.mem_cons_self]
    rfl

theorem Sound.row_written (hs : Sound getHash s g) {key : Hash} {row : RecordRow}
    (hrow : (key,row)∈s.blockRecords.entries) : ∃ w c summary,g.written key=some w ∧
      toBytes X Classes.blockRecord w.2 = .ok c ∧ encodeSummary w.2 = .ok summary ∧
      row=⟨w.1.header.prevHeaderHash,w.1.header.height,c,summary,decide (g.marked=some key)⟩ := by
  rw [Dict.mem_entries] at hrow
  cases hwritten : g.written key with
  | none =>
    rw [(hs.unwritten key hwritten).2] at hrow
    cases hrow
  | some w =>
    obtain ⟨-,-,c,summary,hc,hsummary,hrow'⟩ := hs.rows key w hwritten
    rw [hrow'] at hrow
    exact ⟨w,c,summary,rfl,hc,hsummary,(Option.some.inj hrow).symm⟩

theorem Sound.header_written (hs : Sound getHash s g) {key : Hash} {row : HeaderRow}
    (hrow : (key,row)∈s.headerBlocks.entries) : ∃ w b,g.written key=some w ∧
      toBytes X Classes.headerBlockRecord w.1 = .ok b ∧ row=⟨w.1.header.height,b⟩ := by
  rw [Dict.mem_entries] at hrow
  cases hwritten : g.written key with
  | none =>
    rw [(hs.unwritten key hwritten).1] at hrow
    cases hrow
  | some w =>
    obtain ⟨-,⟨b,hb,hrow'⟩,-⟩ := hs.rows key w hwritten
    rw [hrow'] at hrow
    exact ⟨w,b,rfl,hb,(Option.some.inj hrow).symm⟩

theorem nodup_filter (d : Dict Hash V) (p : Hash × V → Bool) :
    ((d.entries.filter p).map Prod.fst).Nodup := d.nodup.sublist (List.filter_sublist.map Prod.fst)

theorem Sound.getBlockRecordsInRange (hX : Lawful X IsProgram) (hs : Sound getHash s g) (start stop : ℤ) :
    ∃ d,s.getBlockRecordsInRange start stop = .ok d ∧ ∀ key br,d.get? key=some br ↔
      ∃ r,g.written key=some (r,br) ∧ start ≤ r.header.height ∧ (r.header.height : ℤ) ≤ stop := by
  let decode (row : RecordRow) : Check (Option (Classes.BlockRecord X)) := do
    return some (← fromBytes X Classes.blockRecord row.block)
  have hdecode : ∀ e∈s.blockRecords.entries.filter fun e => decide (start≤e.2.height ∧ (e.2.height : ℤ) ≤ stop),
      decode e.2 = .ok ((g.written e.1).map Prod.snd) := by
    intro e he
    obtain ⟨w,c,summary,hwritten,hc,-,hrow⟩ := hs.row_written (List.mem_of_mem_filter he)
    rw [hwritten,hrow]
    dsimp only [decode]
    rw [fromBytes_of_toBytes hX (by decide) hc]
    rfl
  obtain ⟨d,hd,hget⟩ := collect_ok decode (fun e => (g.written e.1).map Prod.snd) (nodup_filter _ _) hdecode
  refine ⟨d,hd,?_⟩
  intro key br
  rw [hget]
  constructor
  · intro h
    obtain ⟨e,he,rfl,hbr⟩ := h
    rw [List.mem_filter,decide_eq_true_eq] at he
    obtain ⟨w,c,summary,hwritten,-,-,hrow⟩ := hs.row_written he.1
    rw [hwritten] at hbr
    rw [hrow] at he
    obtain rfl := Option.some.inj hbr
    exact ⟨w.1,hwritten,he.2⟩
  · intro h
    obtain ⟨r,hwritten,hin⟩ := h
    obtain ⟨-,-,c,summary,-,-,hrow⟩ := hs.rows key _ hwritten
    refine ⟨(key,⟨r.header.prevHeaderHash,r.header.height,c,summary,decide (g.marked=some key)⟩),?_,rfl,?_⟩
    · rw [List.mem_filter,Dict.mem_entries,decide_eq_true_eq]
      exact ⟨hrow,hin⟩
    · rw [hwritten]
      rfl

theorem Sound.headers_iff (hs : Sound getHash s g) (p : ℕ → Bool) :
    s.headerBlocks.entries.filter (fun e => p e.2.height)=[] ↔
      ∀ key w,g.written key=some w → ¬ p w.1.header.height := by
  rw [List.filter_eq_nil_iff]
  constructor
  · intro h key w hwritten
    obtain ⟨-,⟨b,-,hrow⟩,-⟩ := hs.rows key w hwritten
    exact h (key,_) ((Dict.mem_entries _ _ _).mpr hrow)
  · intro h e he
    obtain ⟨w,b,hwritten,-,hrow⟩ := hs.header_written he
    rw [hrow]
    exact h e.1 w hwritten

theorem Sound.header_error (hX : Lawful X IsProgram) (hs : Sound getHash s g) {e : Hash × HeaderRow}
    (he : e∈s.headerBlocks.entries) : fromBytes X Classes.headerBlock e.2.block = .error (.raised .assertion) := by
  obtain ⟨w,b,-,hb,hrow⟩ := hs.header_written he
  rw [hrow]
  exact header_not_read hX hb

/-- What a reader of headers in a range of heights is to give. -/
def HeadersInRange (s : WalletBlockStore X) (g : History X) (start stop : ℤ) : Prop :=
  ∃ d,s.getHeaderBlocksInRange start stop = .ok d ∧ ∀ key header,d.get? key=some header ↔
    ∃ r br,g.written key=some (r,br) ∧ r.header=header ∧ start≤header.height ∧ (header.height : ℤ) ≤ stop

theorem Sound.headersInRange_iff (hX : Lawful X IsProgram) (hs : Sound getHash s g) (start stop : ℤ) :
    HeadersInRange s g start stop ↔ ∀ key w,g.written key=some w →
      ¬ (start≤w.1.header.height ∧ (w.1.header.height : ℤ) ≤ stop) := by
  have hnone := hs.headers_iff fun height => decide (start≤(height : ℤ) ∧ (height : ℤ) ≤ stop)
  simp only [decide_eq_true_eq] at hnone
  rw [← hnone]
  constructor
  · intro h
    obtain ⟨d,hd,-⟩ := h
    by_contra hne
    unfold WalletBlockStore.getHeaderBlocksInRange at hd
    rw [collect_error hne] at hd
    · cases hd
    · intro e he
      rw [hs.header_error hX (List.mem_of_mem_filter he)]
      rfl
  · intro h
    refine ⟨Dict.empty,?_,?_⟩
    · unfold WalletBlockStore.getHeaderBlocksInRange
      rw [h]
      rfl
    · intro key header
      rw [hnone] at h
      rw [Dict.get?_empty]
      refine iff_of_false (by simp) ?_
      intro hin
      obtain ⟨r,br,hwritten,rfl,hrange⟩ := hin
      exact h key _ hwritten hrange

/-- What a reader of headers at some heights is to give. -/
def HeadersAt (s : WalletBlockStore X) (g : History X) (heights : List ℕ) : Prop :=
  ∃ l,s.getHeaderBlockAt heights = .ok l ∧ ∀ header,header∈l ↔
    ∃ key r br,g.written key=some (r,br) ∧ r.header=header ∧ header.height∈heights

theorem Sound.headersAt_iff (hX : Lawful X IsProgram) (hs : Sound getHash s g) (heights : List ℕ) :
    HeadersAt s g heights ↔ ∀ key w,g.written key=some w → w.1.header.height∉heights := by
  have hnone := hs.headers_iff fun height => decide (height∈heights)
  simp only [decide_eq_true_eq] at hnone
  rw [← hnone]
  unfold HeadersAt WalletBlockStore.getHeaderBlockAt
  constructor
  · intro h
    obtain ⟨l,hl,-⟩ := h
    by_cases hlen : heights.length=0
    · rw [List.length_eq_zero_iff.mp hlen]
      simp
    · rw [if_neg hlen] at hl
      cases hrows : s.headerBlocks.entries.filter fun e => decide (e.2.height∈heights) with
      | nil => rfl
      | cons e rows =>
        have he : e∈s.headerBlocks.entries := by
          apply List.mem_of_mem_filter (p := fun e => decide (e.2.height∈heights))
          rw [hrows]
          exact List.mem_cons_self
        rw [hrows,List.mapM_cons,hs.header_error hX he] at hl
        cases hl
  · intro h
    refine ⟨[],?_,?_⟩
    · rw [h]
      split_ifs <;> rfl
    · intro header
      rw [hnone] at h
      refine iff_of_false (by simp) ?_
      intro hin
      obtain ⟨key,r,br,hwritten,rfl,hheight⟩ := hin
      exact h key _ hwritten hheight

end Readers

section Peak
variable {g : History X}

namespace History

def heightOf (g : History X) (key : Hash) (n : ℕ) : Prop := ∃ w,g.written key=some w ∧ w.1.header.height=n

/-- One block back; a block at height zero has none before it. -/
def Back (g : History X) (key p : Hash) : Prop :=
  ∃ w,g.written key=some w ∧ w.1.header.height≠0 ∧ w.1.header.prevHeaderHash=p

def Ancestor (g : History X) : Hash → Hash → Prop := Relation.ReflTransGen g.Back

def Connected (g : History X) : Prop := ∀ key w,g.written key=some w → w.1.header.height≠0 →
  ∃ v,g.written w.1.header.prevHeaderHash=some v ∧ v.1.header.height+1=w.1.header.height

variable {key k : Hash} {w : Classes.HeaderBlockRecord X × Classes.BlockRecord X}

theorem ancestor_first (h : ∀ p,¬ g.Back key p) : g.Ancestor key k ↔ k=key := by
  constructor
  · intro ha
    obtain heq | ⟨p,hback,-⟩ := Relation.ReflTransGen.cases_head ha
    · exact heq.symm
    · exact absurd hback (h p)
  · intro heq
    rw [heq]
    exact Relation.ReflTransGen.refl

theorem ancestor_next (hw : g.written key=some w) (hheight : w.1.header.height≠0) :
    g.Ancestor key k ↔ k=key ∨ g.Ancestor w.1.header.prevHeaderHash k := by
  constructor
  · intro ha
    obtain heq | ⟨p,⟨w',hw',-,rfl⟩,hrest⟩ := Relation.ReflTransGen.cases_head ha
    · exact Or.inl heq.symm
    · rw [hw] at hw'
      rw [Option.some.inj hw']
      exact Or.inr hrest
  · intro ha
    obtain rfl | ha := ha
    · exact Relation.ReflTransGen.refl
    · exact Relation.ReflTransGen.head ⟨w,hw,hheight,rfl⟩ ha

end History

/-- What the two dictionaries hold of the blocks below a block. -/
structure Walked (g : History X) (curr : Hash) (n : ℕ) (heights heights' : Dict ℕ Hash)
    (summaries summaries' : Dict ℕ (Classes.SubEpochSummary X)) : Prop where
  heights : ∀ m k,heights'.get? m=some k ↔ g.Ancestor curr k ∧ g.heightOf k m ∨ n < m ∧ heights.get? m=some k
  summaries : ∀ m ses,summaries'.get? m=some ses ↔
    (∃ k v,g.Ancestor curr k ∧ g.written k=some v ∧ v.1.header.height=m ∧ v.2.subEpochSummaryIncluded=some ses) ∨
      summaries.get? m=some ses

variable {m : ℕ}

theorem heightOf_iff {key : Hash} {w : Classes.HeaderBlockRecord X × Classes.BlockRecord X}
    (hw : g.written key=some w) : g.heightOf key m ↔ w.1.header.height=m := by
  unfold History.heightOf
  rw [hw]
  simp

def setSummary (summaries : Dict ℕ (Classes.SubEpochSummary X)) (n : ℕ) : Option (Classes.SubEpochSummary X) →
    Dict ℕ (Classes.SubEpochSummary X)
  | some ses => summaries.set n ses
  | none => summaries

variable {summaries : Dict ℕ (Classes.SubEpochSummary X)}

variable {n : ℕ}

theorem get?_setSummary
    {o : Option (Classes.SubEpochSummary X)} {ses : Classes.SubEpochSummary X} (hnone : summaries.get? n=none) :
    (setSummary summaries n o).get? m=some ses ↔ m=n ∧ o=some ses ∨ summaries.get? m=some ses := by
  cases o with
  | none => simp [setSummary]
  | some x =>
    unfold setSummary
    rw [Dict.get?_set]
    by_cases hm : n=m
    · subst hm
      simp [hnone]
    · simp [hm,Ne.symm hm]

variable {curr : Hash}

variable {sums : Dict Hash (Classes.SubEpochSummary X)}

theorem Sound.walkHeights_step (hs : Sound getHash s g)
    {w : Classes.HeaderBlockRecord X × Classes.BlockRecord X} (hw : g.written curr=some w)
    (hsums : sums.get? curr=w.2.subEpochSummaryIncluded) (fuel : ℕ) (heights : Dict ℕ Hash)
    (summaries : Dict ℕ (Classes.SubEpochSummary X)) :
    walkHeights s.blockRecords sums (fuel+1) curr heights summaries = if w.1.header.height=0 then
        .ok (heights.set w.1.header.height curr,setSummary summaries w.1.header.height w.2.subEpochSummaryIncluded)
      else walkHeights s.blockRecords sums fuel w.1.header.prevHeaderHash (heights.set w.1.header.height curr)
        (setSummary summaries w.1.header.height w.2.subEpochSummaryIncluded) := by
  obtain ⟨-,-,c,summary,-,-,hrow⟩ := hs.rows curr w hw
  have hlookup : lookup (s.blockRecords.get? curr) =
      .ok ⟨w.1.header.prevHeaderHash,w.1.header.height,c,summary,decide (g.marked=some curr)⟩ := by
    rw [hrow]
    rfl
  rw [walkHeights,bind_of_ok hlookup,hsums]
  cases w.2.subEpochSummaryIncluded <;> rfl

theorem walked_first {w : Classes.HeaderBlockRecord X × Classes.BlockRecord X}
    (hw : g.written curr=some w) (hheight : w.1.header.height=0) (heights : Dict ℕ Hash)
    (hnone : summaries.get? 0=none) :
    Walked g curr 0 heights (heights.set 0 curr) summaries (setSummary summaries 0 w.2.subEpochSummaryIncluded) := by
  have hfirst (k : Hash) : g.Ancestor curr k ↔ k=curr := by
    apply History.ancestor_first
    intro p hback
    obtain ⟨w',hw',hne,-⟩ := hback
    rw [hw] at hw'
    rw [← Option.some.inj hw'] at hne
    exact hne hheight
  refine ⟨?_,?_⟩
  · intro m k
    rw [Dict.get?_set,hfirst]
    by_cases hm : 0=m
    · subst hm
      rw [if_pos rfl,Option.some.injEq]
      constructor
      · intro heq
        rw [← heq,heightOf_iff hw]
        exact Or.inl ⟨rfl,hheight⟩
      · intro h
        obtain ⟨heq,-⟩ | ⟨hlt,-⟩ := h
        · exact heq.symm
        · omega
    · rw [if_neg hm]
      constructor
      · exact fun h => Or.inr ⟨Nat.pos_of_ne_zero (Ne.symm hm),h⟩
      · intro h
        obtain ⟨rfl,hof⟩ | ⟨-,h⟩ := h
        · rw [heightOf_iff hw] at hof
          omega
        · exact h
  · intro m ses
    rw [get?_setSummary hnone]
    apply or_congr_left
    constructor
    · intro h
      exact ⟨curr,w,(hfirst curr).mpr rfl,hw,hheight.trans h.1.symm,h.2⟩
    · intro h
      obtain ⟨k,v,hk,hv,hvh,hses⟩ := h
      rw [(hfirst k).mp hk,hw] at hv
      rw [Option.some.inj hv]
      rw [← Option.some.inj hv] at hvh
      exact ⟨hvh.symm.trans hheight,hses⟩

theorem Walked.push {w : Classes.HeaderBlockRecord X × Classes.BlockRecord X}
    {heights heights' : Dict ℕ Hash} {summaries' : Dict ℕ (Classes.SubEpochSummary X)}
    (hw : g.written curr=some w) (hheight : w.1.header.height=n+1) (hnone : summaries.get? (n+1)=none)
    (h : Walked g w.1.header.prevHeaderHash n (heights.set (n+1) curr) heights'
      (setSummary summaries (n+1) w.2.subEpochSummaryIncluded) summaries') :
    Walked g curr (n+1) heights heights' summaries summaries' := by
  have hnext (k : Hash) : g.Ancestor curr k ↔ k=curr ∨ g.Ancestor w.1.header.prevHeaderHash k :=
    History.ancestor_next hw (by omega)
  refine ⟨?_,?_⟩
  · intro m k
    rw [h.heights,hnext,Dict.get?_set]
    constructor
    · intro h
      obtain ⟨ha,hof⟩ | ⟨hlt,hget⟩ := h
      · exact Or.inl ⟨Or.inr ha,hof⟩
      · split_ifs at hget with hm
        · obtain rfl := Option.some.inj hget
          exact Or.inl ⟨Or.inl rfl,(heightOf_iff hw).mpr (hheight.trans hm)⟩
        · exact Or.inr ⟨by omega,hget⟩
    · intro h
      obtain ⟨rfl | ha,hof⟩ | ⟨hlt,hget⟩ := h
      · have hm := (heightOf_iff hw).mp hof
        refine Or.inr ⟨by omega,?_⟩
        rw [if_pos (hheight.symm.trans hm)]
      · exact Or.inl ⟨ha,hof⟩
      · refine Or.inr ⟨by omega,?_⟩
        rw [if_neg (by omega)]
        exact hget
  · intro m ses
    rw [h.summaries,get?_setSummary hnone,← or_assoc]
    apply or_congr_left
    constructor
    · intro h
      obtain ⟨k,u,ha,hu⟩ | ⟨hm,hses⟩ := h
      · exact ⟨k,u,(hnext k).mpr (Or.inr ha),hu⟩
      · exact ⟨curr,w,Relation.ReflTransGen.refl,hw,hheight.trans hm.symm,hses⟩
    · intro h
      obtain ⟨k,u,ha,hu,huh,hses⟩ := h
      obtain rfl | ha := (hnext k).mp ha
      · rw [hw] at hu
        obtain rfl := Option.some.inj hu
        exact Or.inr ⟨huh.symm.trans hheight,hses⟩
      · exact Or.inl ⟨k,u,ha,hu,huh,hses⟩

theorem Sound.walkHeights_ok (hs : Sound getHash s g) (hc : g.Connected)
    (hsums : ∀ k w,g.written k=some w → sums.get? k=w.2.subEpochSummaryIncluded) (n : ℕ) :
    ∀ (fuel : ℕ) (curr : Hash) (w : Classes.HeaderBlockRecord X × Classes.BlockRecord X) (heights : Dict ℕ Hash)
      (summaries : Dict ℕ (Classes.SubEpochSummary X)),g.written curr=some w → w.1.header.height=n → n<fuel →
      (∀ m≤n,summaries.get? m=none) →
      ∃ heights' summaries',walkHeights s.blockRecords sums fuel curr heights summaries = .ok (heights',summaries') ∧
        Walked g curr n heights heights' summaries summaries' := by
  induction n with
  | zero =>
    intro fuel curr w heights summaries hw hheight hfuel hnone
    obtain ⟨fuel,rfl⟩ := Nat.exists_eq_succ_of_ne_zero (Nat.ne_of_gt hfuel)
    have hstep := hs.walkHeights_step hw (hsums curr w hw) fuel heights summaries
    rw [if_pos hheight,hheight] at hstep
    exact ⟨_,_,hstep,walked_first hw hheight heights (hnone 0 (le_refl 0))⟩
  | succ n ih =>
    intro fuel curr w heights summaries hw hheight hfuel hnone
    obtain ⟨fuel,rfl⟩ := Nat.exists_eq_succ_of_ne_zero (Nat.ne_of_gt (Nat.lt_of_le_of_lt (Nat.zero_le _) hfuel))
    have hne : w.1.header.height≠0 := by omega
    have hstep := hs.walkHeights_step hw (hsums curr w hw) fuel heights summaries
    rw [if_neg hne,hheight] at hstep
    obtain ⟨v,hv,hvh⟩ := hc curr w hw hne
    have hnone' : ∀ m≤n,(setSummary summaries (n+1) w.2.subEpochSummaryIncluded).get? m=none := by
      intro m hm
      rw [Option.eq_none_iff_forall_ne_some]
      intro ses hses
      obtain ⟨heq,-⟩ | hold := (get?_setSummary (hnone _ (le_refl _))).mp hses
      · omega
      · rw [hnone m (by omega)] at hold
        cases hold
    obtain ⟨heights',summaries',hrun,hwalked⟩ := ih fuel w.1.header.prevHeaderHash v (heights.set (n+1) curr)
      (setSummary summaries (n+1) w.2.subEpochSummaryIncluded) hv (by omega) (by omega) hnone'
    exact ⟨heights',summaries',hstep.trans hrun,hwalked.push hw hheight (hnone _ (le_refl _))⟩

variable {q : Hash}

theorem StoreRun.marked_peak (h : StoreRun getHash s g) (hm : g.marked=some q) :
    g.peak=some q ∧ ∃ w,g.written q=some w := by
  induction h with
  | create => cases hm
  | addBlockRecord _ _ ih =>
    rw [History.marked_add] at hm
    rw [History.written_add,if_neg hm.1]
    exact ih hm.2
  | getHeaderBlockRecord _ _ ih => exact ih hm
  | setPeak _ key ih =>
    rw [History.marked_setPeak] at hm
    refine ⟨congrArg some hm.1,?_⟩
    exact Option.isSome_iff_exists.mp hm.2

theorem Sound.summaries_collected (hX : Lawful X IsProgram) (hs : Sound getHash s g) :
    ∃ sums,collect decodeSummary s.blockRecords.entries = .ok sums ∧
      ∀ k w,g.written k=some w → sums.get? k=w.2.subEpochSummaryIncluded := by
  let summaryOf (e : Hash × RecordRow) := (g.written e.1).bind fun w => w.2.subEpochSummaryIncluded
  have hdecode : ∀ e∈s.blockRecords.entries,decodeSummary e.2 = .ok (summaryOf e) := by
    intro e he
    obtain ⟨w,c,summary,hwritten,-,hsummary,hrow⟩ := hs.row_written he
    dsimp only [summaryOf]
    rw [hwritten,hrow,Option.bind_some]
    unfold encodeSummary at hsummary
    unfold decodeSummary
    cases hses : w.2.subEpochSummaryIncluded with
    | none =>
      rw [hses] at hsummary
      rw [← Except.ok.inj hsummary]
    | some ses =>
      rw [hses] at hsummary
      obtain ⟨b,hb,hsummary⟩ := bind_ok.mp hsummary
      rw [← Except.ok.inj hsummary]
      dsimp only
      rw [fromBytes_of_toBytes hX (by decide) hb]
      rfl
  obtain ⟨sums,hsums,hget⟩ := collect_ok decodeSummary summaryOf s.blockRecords.nodup hdecode
  refine ⟨sums,hsums,?_⟩
  intro k w hw
  apply Option.ext
  intro ses
  rw [hget]
  constructor
  · intro h
    obtain ⟨e,-,rfl,hses⟩ := h
    dsimp only [summaryOf] at hses
    rw [hw] at hses
    exact hses
  · intro hses
    obtain ⟨-,-,c,summary,-,-,hrow⟩ := hs.rows k w hw
    refine ⟨(k,_),(Dict.mem_entries _ _ _).mpr hrow,rfl,?_⟩
    dsimp only [summaryOf]
    rw [hw]
    exact hses

/-- What the peak's chain is to give: its blocks and its summaries, by height. -/
def PeakExact (s : WalletBlockStore X) (g : History X) : Prop :=
  ∃ heights summaries,s.getPeakHeightsDicts = .ok (heights,summaries) ∧
    (∀ n k,heights.get? n=some k ↔ ∃ p,g.peak=some p ∧ g.Ancestor p k ∧ g.heightOf k n) ∧
    ∀ n ses,summaries.get? n=some ses ↔ ∃ p k v,g.peak=some p ∧ g.Ancestor p k ∧ g.written k=some v ∧
      v.1.header.height=n ∧ v.2.subEpochSummaryIncluded=some ses

theorem Sound.unmarked (hs : Sound getHash s g) (h : g.marked=none) :
    s.getPeakHeightsDicts = .ok (.empty,.empty) := by
  have hnone : s.blockRecords.entries.find? (fun e => e.2.isPeak)=none := by
    rw [List.find?_eq_none]
    intro e he
    obtain ⟨w,c,summary,-,-,-,hrow⟩ := hs.row_written he
    rw [hrow,h]
    simp
  unfold WalletBlockStore.getPeakHeightsDicts
  rw [hnone]
  rfl

theorem Sound.marked_walked (hX : Lawful X IsProgram) (hs : Sound getHash s g) (hc : g.Connected)
    {w : Classes.HeaderBlockRecord X × Classes.BlockRecord X} (hm : g.marked=some q) (hw : g.written q=some w) :
    ∃ heights summaries,s.getPeakHeightsDicts = .ok (heights,summaries) ∧
      Walked g q w.1.header.height .empty heights .empty summaries := by
  obtain ⟨sums,hcollect,hsums⟩ := hs.summaries_collected hX
  obtain ⟨-,-,c,summary,-,-,hrow⟩ := hs.rows q w hw
  rw [hm,decide_eq_true rfl] at hrow
  have hfind : s.blockRecords.entries.find? (fun e => e.2.isPeak) =
      some (q,⟨w.1.header.prevHeaderHash,w.1.header.height,c,summary,true⟩) := by
    cases hf : s.blockRecords.entries.find? fun e => e.2.isPeak with
    | none => exact absurd rfl (List.find?_eq_none.mp hf _ ((Dict.mem_entries _ _ _).mpr hrow))
    | some e =>
      have hpeak := List.find?_some hf
      have he := List.mem_of_find?_eq_some hf
      obtain ⟨w',c',summary',-,-,-,hrow'⟩ := hs.row_written he
      rw [hrow',hm,decide_eq_true_eq] at hpeak
      have hq : q=e.1 := Option.some.inj hpeak
      rw [Dict.mem_entries,← hq,hrow] at he
      rw [Option.some.inj he,hq]
  unfold WalletBlockStore.getPeakHeightsDicts
  rw [hfind]
  dsimp only
  rw [hcollect]
  exact hs.walkHeights_ok hc hsums _ _ q w .empty .empty hw rfl (by omega) fun _ _ => rfl

theorem Sound.unmarked_exact_iff (hs : Sound getHash s g) (hm : g.marked=none) :
    PeakExact s g ↔ ∀ p w,g.peak=some p → g.written p≠some w := by
  constructor
  · intro hexact p w hp hw
    obtain ⟨heights,summaries,hget,hheights,-⟩ := hexact
    rw [hs.unmarked hm] at hget
    have hempty := (Prod.mk.inj (Except.ok.inj hget)).1
    have hmem := (hheights w.1.header.height p).mpr ⟨p,hp,Relation.ReflTransGen.refl,w,hw,rfl⟩
    rw [← hempty,Dict.get?_empty] at hmem
    cases hmem
  · intro hall
    have hno {p : Hash} (hp : g.peak=some p) : g.written p=none :=
      Option.eq_none_iff_forall_ne_some.mpr fun w => hall p w hp
    have honly {p k : Hash} (hp : g.peak=some p) (ha : g.Ancestor p k) : g.written k=none := by
      have hfirst := (History.ancestor_first (k := k) fun p' hback => by
        obtain ⟨w,hw,-⟩ := hback
        rw [hno hp] at hw
        cases hw).mp ha
      rw [hfirst]
      exact hno hp
    refine ⟨.empty,.empty,hs.unmarked hm,?_,?_⟩
    · intro n k
      apply iff_of_false (by simp)
      intro hin
      obtain ⟨p,hp,ha,w,hw,-⟩ := hin
      rw [honly hp ha] at hw
      cases hw
    · intro n ses
      apply iff_of_false (by simp)
      intro hin
      obtain ⟨p,k,v,hp,ha,hv,-⟩ := hin
      rw [honly hp ha] at hv
      cases hv

/-- The peak's chain is walked unless its record was missing when it became the peak, or written
again. -/
theorem StoreRun.peakExact_iff (hX : Lawful X IsProgram) (h : StoreRun getHash s g) (hc : g.Connected) :
    PeakExact s g ↔ ∀ p w,g.peak=some p → g.written p=some w → g.marked=some p := by
  have hs := h.sound hX
  cases hm : g.marked with
  | none =>
    rw [hs.unmarked_exact_iff hm]
    constructor
    · intro hall p w hp hw
      exact absurd hw (hall p w hp)
    · intro hall p w hp hw
      cases hall p w hp hw
  | some q =>
    obtain ⟨hpeak,w,hw⟩ := h.marked_peak hm
    obtain ⟨heights,summaries,hget,hwalked⟩ := hs.marked_walked hX hc hm hw
    constructor
    · intro _ p _ hp _
      rw [← hpeak,hp]
    · intro _
      refine ⟨heights,summaries,hget,?_,?_⟩
      · intro n k
        rw [hwalked.heights]
        simp [hpeak]
      · intro n ses
        rw [hwalked.summaries]
        simp [hpeak]

end Peak

/-- In any run, each reader by itself. Headers by height are read as their records are written. -/
theorem walletBlockStore_returns (hX : Lawful X IsProgram) {g : History X} (h : StoreRun getHash s g) :
    (∀ key,(WalletBlockStore.getHeaderBlockRecord getHash key s).1 = .ok ((g.written key).map Prod.fst)) ∧
    (∀ key,s.getBlockRecord key = .ok ((g.written key).map Prod.snd)) ∧
    (∀ start stop,∃ d,s.getBlockRecordsInRange start stop = .ok d ∧ ∀ key br,d.get? key=some br ↔
      ∃ r,g.written key=some (r,br) ∧ start ≤ r.header.height ∧ (r.header.height : ℤ) ≤ stop) ∧
    (∀ heights,HeadersAt s g heights ↔ ∀ key w,g.written key=some w → w.1.header.height∉heights) ∧
    (∀ start stop,HeadersInRange s g start stop ↔ ∀ key w,g.written key=some w →
      ¬ (start≤w.1.header.height ∧ (w.1.header.height : ℤ) ≤ stop)) ∧
    (g.Connected → (PeakExact s g ↔ ∀ p w,g.peak=some p → g.written p=some w → g.marked=some p)) := by
  have hs := h.sound hX
  exact ⟨fun key => (hs.getHeaderBlockRecord hX key).1,hs.getBlockRecord hX,hs.getBlockRecordsInRange hX,
    hs.headersAt_iff hX,hs.headersInRange_iff hX,h.peakExact_iff hX⟩

section Tiny

def tinyHash : Hash := ⟨List.replicate 32 0,rfl⟩

def tinyVdfInfo : FieldType.Values tinyExternal Classes.vdfInfo :=
  (tinyHash,⟨0,by decide⟩,(⟨List.replicate 100 0,rfl⟩,()),())

def tinyVdfProof : FieldType.Values tinyExternal Classes.vdfProof := (⟨0,by decide⟩,[],false,())

def tinyProofOfSpace : FieldType.Values tinyExternal Classes.proofOfSpace :=
  (tinyHash,none,none,(),⟨0,by decide⟩,[],())

def tinyRewardChainBlock : FieldType.Values tinyExternal Classes.rewardChainBlock :=
  (⟨0,by decide⟩,⟨0,by decide⟩,⟨0,by decide⟩,⟨0,by decide⟩,tinyHash,tinyProofOfSpace,none,(),tinyVdfInfo,
    none,(),tinyVdfInfo,none,false,())

def tinyFoliage : Classes.Foliage tinyExternal :=
  (tinyHash,tinyHash,(tinyHash,(tinyHash,⟨0,by decide⟩,()),none,tinyHash,tinyHash,()),(),none,none,())

def tinyRecord : Classes.HeaderBlockRecord tinyExternal :=
  (([],tinyRewardChainBlock,none,tinyVdfProof,none,tinyVdfProof,none,tinyFoliage,none,[],none,()),[],[],())

def tinyBlockRecord : Classes.BlockRecord tinyExternal :=
  (tinyHash,tinyHash,⟨0,by decide⟩,⟨0,by decide⟩,⟨0,by decide⟩,⟨0,by decide⟩,
    (⟨List.replicate 100 0,rfl⟩,()),none,tinyHash,tinyHash,⟨0,by decide⟩,tinyHash,tinyHash,⟨0,by decide⟩,
    ⟨0,by decide⟩,false,⟨0,by decide⟩,none,none,none,none,none,none,none,none,())

def tinyStored : WalletBlockStore tinyExternal :=
  (addBlockRecord (fun _ => tinyHash) tinyRecord tinyBlockRecord create).2

theorem tinyStored_run : StoreRun (fun _ => tinyHash) tinyStored
    (History.empty.add tinyHash (tinyRecord,tinyBlockRecord)) := StoreRun.create.addBlockRecord rfl

/-- One record has been written, and its header is not read; its own record is. -/
theorem header_never_returned :
    addBlockRecord (fun _ => tinyHash) tinyRecord tinyBlockRecord create=(.ok (),tinyStored) ∧
      tinyStored.getHeaderBlockAt [0] = .error (.raised .assertion) ∧
      tinyStored.getHeaderBlocksInRange 0 0 = .error (.raised .assertion) := by
  obtain ⟨b,hb,hrow⟩ : ∃ b,toBytes tinyExternal Classes.headerBlockRecord tinyRecord = .ok b ∧
      tinyStored.headerBlocks.entries=[(tinyHash,⟨0,b⟩)] := ⟨_,rfl,rfl⟩
  refine ⟨rfl,?_,?_⟩
  · unfold getHeaderBlockAt
    simp [hrow,header_not_read tinyExternal_lawful hb]
  · unfold getHeaderBlocksInRange collect
    simp [hrow,header_not_read tinyExternal_lawful hb]

theorem walletBlockStore_returns_tiny : tinyStored.getBlockRecord tinyHash = .ok (some tinyBlockRecord) ∧
    ¬ HeadersAt tinyStored (History.empty.add tinyHash (tinyRecord,tinyBlockRecord)) [0] := by
  obtain ⟨-,hrecord,-,hat,-⟩ := walletBlockStore_returns tinyExternal_lawful tinyStored_run
  refine ⟨hrecord tinyHash,?_⟩
  rw [hat]
  intro hnone
  exact hnone tinyHash (tinyRecord,tinyBlockRecord) rfl (List.mem_singleton.mpr rfl)

end Tiny

end WalletBlockStore
end RoseChain.WalletDb
