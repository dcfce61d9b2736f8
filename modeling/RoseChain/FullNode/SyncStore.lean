import Mathlib.Data.Finset.Basic
import RoseChain.Lib.Dict
import RoseChain.Types.Basic

namespace RoseChain
open Lib

/-- A peak that a peer told us of. -/
structure PeerPeak where
  headerHash : Bytes32
  height : ℕ
  weight : ℕ
  deriving DecidableEq

structure SyncStore where
  syncMode : Bool
  longSync : Bool
  /-- The peers that have a block. -/
  peakToPeer : Dict Bytes32 (Finset Bytes32)
  peerToPeak : Dict Bytes32 PeerPeak
  syncTargetHeaderHash : Option Bytes32
  syncTargetHeight : Option ℕ
  /-- Whether the event is set. -/
  peersChanged : Bool

namespace SyncStore

def create : SyncStore where
  syncMode := false
  longSync := false
  peakToPeer := .empty
  peerToPeak := .empty
  syncTargetHeaderHash := none
  syncTargetHeight := none
  peersChanged := false

variable (s : SyncStore)

def setPeakTarget (peakHash : Bytes32) (targetHeight : ℕ) : SyncStore :=
  { s with syncTargetHeaderHash := some peakHash,syncTargetHeight := some targetHeight }

def seenHeaderHash (headerHash : Bytes32) : Bool := s.peakToPeer.contains headerHash

def peerHasBlock (headerHash peerId : Bytes32) (weight height : ℕ) (newPeak : Bool) : SyncStore :=
  { s with
    peersChanged := s.peersChanged || decide (some headerHash=s.syncTargetHeaderHash)
    peakToPeer := match s.peakToPeer.get? headerHash with
      | some peers => s.peakToPeer.set headerHash (insert peerId peers)
      | none => s.peakToPeer.set headerHash {peerId}
    peerToPeak := if newPeak then s.peerToPeak.set peerId ⟨headerHash,height,weight⟩ else s.peerToPeak }

def getPeersThatHavePeak (headerHashes : List Bytes32) : Finset Bytes32 :=
  headerHashes.foldl (fun nodeIds headerHash => nodeIds ∪ (s.peakToPeer.get? headerHash).getD ∅) ∅

def getPeakOfEachPeer : Dict Bytes32 PeerPeak := s.peerToPeak.filter fun _ v => s.peakToPeer.contains v.headerHash

/-- One round of the loop over `peer_to_peak`; the three variables for the heaviest peak are set together. -/
def heavierPeak (heaviest : Option PeerPeak) (peak : PeerPeak) : Option PeerPeak :=
  if s.peakToPeer.contains peak.headerHash then
    match heaviest with
    | none => some peak
    | some best => if peak.weight > best.weight then some peak else some best
  else heaviest

def getHeaviestPeak : Check (Option PeerPeak) := do
  if s.peerToPeak.size=0 then return none
  else return some (← assertSome (s.peerToPeak.values.foldl s.heavierPeak none))

def clearSyncInfo : SyncStore := { s with peakToPeer := .empty }

/-- Takes the peer out of each set, and asserts that it is gone. -/
def peerDisconnected (nodeId : Bytes32) : Check SyncStore := do
  let peakToPeer := s.peakToPeer.mapVals fun _ peers => peers.erase nodeId
  assertThat (peakToPeer.values.all fun peers => decide (nodeId∉peers))
  return { s with peerToPeak := s.peerToPeak.erase nodeId,peakToPeer := peakToPeer,peersChanged := true }

/-- The calls that change the store; the queries are functions of it. -/
inductive Call
  | setPeakTarget (peakHash : Bytes32) (targetHeight : ℕ)
  | peerHasBlock (headerHash peerId : Bytes32) (weight height : ℕ) (newPeak : Bool)
  | clearSyncInfo
  | peerDisconnected (nodeId : Bytes32)

def perform : Call → Check SyncStore
  | .setPeakTarget peakHash targetHeight => .ok (s.setPeakTarget peakHash targetHeight)
  | .peerHasBlock headerHash peerId weight height newPeak => .ok (s.peerHasBlock headerHash peerId weight height newPeak)
  | .clearSyncInfo => .ok s.clearSyncInfo
  | .peerDisconnected nodeId => s.peerDisconnected nodeId

def performAll (calls : List Call) : Check SyncStore := calls.foldlM perform create

/-- What the connected peers have said: their last peaks, and the blocks that they have. -/
structure Heard where
  peak : Bytes32 → Option PeerPeak
  blocks : Bytes32 → Set Bytes32

def Heard.next (heard : Heard) : Call → Heard
  | .setPeakTarget _ _ => heard
  | .peerHasBlock headerHash peerId weight height newPeak =>
    { peak := if newPeak then Function.update heard.peak peerId (some ⟨headerHash,height,weight⟩) else heard.peak
      blocks := Function.update heard.blocks peerId (insert headerHash (heard.blocks peerId)) }
  | .clearSyncInfo => heard
  | .peerDisconnected nodeId =>
    { peak := Function.update heard.peak nodeId none
      blocks := Function.update heard.blocks nodeId ∅ }

def heardIn (calls : List Call) : Heard := calls.foldl Heard.next ⟨fun _ => none,fun _ => ∅⟩

/-- The store knows the peak of each connected peer and says which is the heaviest. -/
structure Tracks (heard : Heard) (s : SyncStore) : Prop where
  peaks : ∀ peer,s.peerToPeak.get? peer=heard.peak peer
  noPeak : (∀ peer,heard.peak peer=none) → s.getHeaviestPeak = .ok none
  heaviest : (∃ peer,heard.peak peer≠none) → ∃ peak,s.getHeaviestPeak = .ok (some peak) ∧
    (∃ peer,heard.peak peer=some peak) ∧ ∀ peer other,heard.peak peer=some other → other.weight≤peak.weight
  consistent : ∀ peer peak,s.peerToPeak.get? peer=some peak → ∃ peers∈s.peakToPeer.get? peak.headerHash,peer∈peers
  members : ∀ headerHash,∀ peers∈s.peakToPeer.get? headerHash,∀ peer∈peers,headerHash∈heard.blocks peer

/-- Every call keeps this: the peaks are those heard, and no set holds a peer that did not say so.
-/
structure Follows (heard : Heard) (s : SyncStore) : Prop where
  peaks : ∀ peer,s.peerToPeak.get? peer=heard.peak peer
  members : ∀ headerHash,∀ peers∈s.peakToPeer.get? headerHash,∀ peer∈peers,headerHash∈heard.blocks peer

def Consistent (s : SyncStore) : Prop :=
  ∀ peer peak,s.peerToPeak.get? peer=some peak → ∃ peers∈s.peakToPeer.get? peak.headerHash,peer∈peers

variable {s} {s' : SyncStore} {heard : Heard}

theorem get?_peerHasBlock (s : SyncStore) (headerHash peerId : Bytes32) (weight height : ℕ) (newPeak : Bool) (q : Bytes32) :
    (s.peerHasBlock headerHash peerId weight height newPeak).peakToPeer.get? q =
      if headerHash=q then some (insert peerId ((s.peakToPeer.get? q).getD ∅)) else s.peakToPeer.get? q := by
  unfold peerHasBlock
  cases hget : s.peakToPeer.get? headerHash with
  | none =>
    by_cases hq : headerHash=q
    · subst hq
      simp [hget]
    · simp [Dict.get?_set,hq]
  | some peers =>
    by_cases hq : headerHash=q
    · subst hq
      simp [hget]
    · simp [Dict.get?_set,hq]

theorem peerDisconnected_eq (s : SyncStore) (nodeId : Bytes32) : s.peerDisconnected nodeId =
    .ok { s with
      peerToPeak := s.peerToPeak.erase nodeId
      peakToPeer := s.peakToPeer.mapVals fun _ peers => peers.erase nodeId
      peersChanged := true } := by
  have hgone : ∀ peers∈(s.peakToPeer.mapVals fun _ peers => peers.erase nodeId).values,nodeId∉peers := by
    intro peers hpeers
    obtain ⟨e,he,rfl⟩ := List.mem_map.mp hpeers
    obtain ⟨e',-,rfl⟩ := List.mem_map.mp he
    simp
  have hall : ((s.peakToPeer.mapVals fun _ peers => peers.erase nodeId).values.all fun peers => decide (nodeId∉peers)) =
      true := by simpa [List.all_eq_true] using hgone
  simp only [peerDisconnected,assertThat,if_pos hall]
  rfl

theorem Follows.perform (h : Follows heard s) (call : Call) (hs : s.perform call = .ok s') :
    Follows (heard.next call) s' := by
  cases call with
  | setPeakTarget peakHash targetHeight =>
    obtain rfl := Except.ok.inj hs
    exact ⟨h.peaks,h.members⟩
  | peerHasBlock headerHash peerId weight height newPeak =>
    obtain rfl := Except.ok.inj hs
    constructor
    · intro peer
      cases newPeak with
      | false => exact h.peaks peer
      | true =>
        by_cases hp : peerId=peer
        · simp [peerHasBlock,Heard.next,hp]
        · simp [peerHasBlock,Heard.next,Dict.get?_set,hp,Function.update_of_ne (Ne.symm hp),h.peaks]
    · intro q peers hpeers peer hpeer
      rw [get?_peerHasBlock] at hpeers
      have hkept (hq : q∈heard.blocks peer) :
          q∈(heard.next (.peerHasBlock headerHash peerId weight height newPeak)).blocks peer := by
        by_cases hp : peer=peerId
        · simp [Heard.next,← hp,hq]
        · simp [Heard.next,Function.update_of_ne hp,hq]
      by_cases hq : headerHash=q
      · subst hq
        simp only [if_true,Option.mem_def,Option.some.injEq] at hpeers
        subst hpeers
        obtain rfl | hold := Finset.mem_insert.mp hpeer
        · simp [Heard.next]
        · cases hget : s.peakToPeer.get? headerHash with
          | none => simp [hget] at hold
          | some peers =>
            simp only [hget,Option.getD_some] at hold
            exact hkept (h.members _ peers hget peer hold)
      · rw [if_neg hq] at hpeers
        exact hkept (h.members q peers hpeers peer hpeer)
  | clearSyncInfo =>
    obtain rfl := Except.ok.inj hs
    exact ⟨h.peaks,fun _ _ hpeers => by cases hpeers⟩
  | peerDisconnected nodeId =>
    obtain rfl := Except.ok.inj ((s.peerDisconnected_eq nodeId).symm.trans hs)
    constructor
    · intro peer
      by_cases hp : nodeId=peer
      · simp [Dict.get?_erase,Heard.next,hp]
      · simp [Dict.get?_erase,Heard.next,hp,Function.update_of_ne (Ne.symm hp),h.peaks]
    · intro q peers hpeers peer hpeer
      simp only [Dict.get?_mapVals,Option.mem_def,Option.map_eq_some_iff] at hpeers
      obtain ⟨old,hold,rfl⟩ := hpeers
      obtain ⟨hne,hmem⟩ := Finset.mem_erase.mp hpeer
      simp [Heard.next,Function.update_of_ne hne,h.members q old hold peer hmem]

theorem Consistent.perform (h : Consistent s) (call : Call) (hs : s.perform call = .ok s')
    (hclear : call = .clearSyncInfo → ∀ peer,s.peerToPeak.get? peer=none) : Consistent s' := by
  intro peer peak hpeak
  cases call with
  | setPeakTarget peakHash targetHeight =>
    obtain rfl := Except.ok.inj hs
    exact h peer peak hpeak
  | peerHasBlock headerHash peerId weight height newPeak =>
    obtain rfl := Except.ok.inj hs
    rw [get?_peerHasBlock]
    have hold (hget : s.peerToPeak.get? peer=some peak) : ∃ peers,(if headerHash=peak.headerHash then
        some (insert peerId ((s.peakToPeer.get? peak.headerHash).getD ∅)) else s.peakToPeer.get? peak.headerHash) =
          some peers ∧ peer∈peers := by
      obtain ⟨peers,hpeers,hmem⟩ := h peer peak hget
      rw [Option.mem_def.mp hpeers]
      by_cases hq : headerHash=peak.headerHash
      · exact ⟨insert peerId peers,by simp [hq],by simp [hmem]⟩
      · exact ⟨peers,by simp [hq],hmem⟩
    cases newPeak with
    | false => exact hold hpeak
    | true =>
      by_cases hp : peerId=peer
      · simp only [peerHasBlock,if_true,Dict.get?_set,hp,Option.some.injEq] at hpeak
        subst hpeak
        simp [hp]
      · simp only [peerHasBlock,if_true,Dict.get?_set,hp,if_false] at hpeak
        exact hold hpeak
  | clearSyncInfo =>
    obtain rfl := Except.ok.inj hs
    simp [clearSyncInfo,hclear rfl peer] at hpeak
  | peerDisconnected nodeId =>
    obtain rfl := Except.ok.inj ((s.peerDisconnected_eq nodeId).symm.trans hs)
    simp only [Dict.get?_erase] at hpeak
    split_ifs at hpeak with hp
    obtain ⟨peers,hpeers,hmem⟩ := h peer peak hpeak
    simp [Option.mem_def.mp hpeers,Ne.symm hp,hmem]

theorem foldl_heavierPeak (l : List PeerPeak) (first : Option PeerPeak)
    (hknown : ∀ peak∈l,s.peakToPeer.contains peak.headerHash=true) (hne : l≠[] ∨ first≠none) :
    ∃ peak,l.foldl s.heavierPeak first=some peak ∧ (peak∈l ∨ first=some peak) ∧
      (∀ other∈l,other.weight≤peak.weight) ∧ ∀ other,first=some other → other.weight≤peak.weight := by
  induction l generalizing first with
  | nil =>
    obtain ⟨peak,rfl⟩ := Option.ne_none_iff_exists'.mp (hne.resolve_left (by simp))
    exact ⟨peak,by simp⟩
  | cons a l ih =>
    obtain ⟨ha,hknown⟩ := List.forall_mem_cons.mp hknown
    have hstep : ∃ best,s.heavierPeak first a=some best ∧ (best=a ∨ first=some best) ∧ a.weight≤best.weight ∧
        ∀ other,first=some other → other.weight≤best.weight := by
      cases first with
      | none => exact ⟨a,by simp [heavierPeak,ha]⟩
      | some b =>
        by_cases hlt : b.weight<a.weight
        · exact ⟨a,by simp [heavierPeak,ha,hlt,hlt.le]⟩
        · exact ⟨b,by simp [heavierPeak,ha,hlt,not_lt.mp hlt]⟩
    obtain ⟨best,hbest,hwhich,hle,hfirst⟩ := hstep
    obtain ⟨peak,hpeak,hmem,hall,habove⟩ := ih (some best) hknown (by simp)
    have hbelow := habove best rfl
    refine ⟨peak,by rw [List.foldl_cons,hbest,hpeak],?_,?_,?_⟩
    · obtain hmem | heq := hmem
      · simp [hmem]
      · obtain rfl := Option.some.inj heq
        exact hwhich.imp (by simp_all) id
    · exact List.forall_mem_cons.mpr ⟨hle.trans hbelow,hall⟩
    · exact fun other hother => (hfirst other hother).trans hbelow

theorem Follows.tracks (h : Follows heard s) (hc : Consistent s) : Tracks heard s := by
  have hvalues (peak : PeerPeak) : peak∈s.peerToPeak.values ↔ ∃ peer,heard.peak peer=some peak := by
    constructor
    · intro hpeak
      obtain ⟨e,he,rfl⟩ := List.mem_map.mp hpeak
      exact ⟨e.1,(h.peaks e.1).symm.trans ((s.peerToPeak.mem_entries e.1 e.2).mp he)⟩
    · intro ⟨peer,hpeer⟩
      exact List.mem_map.mpr ⟨(peer,peak),(s.peerToPeak.mem_entries _ _).mpr ((h.peaks peer).trans hpeer),rfl⟩
  have hsize : s.peerToPeak.size=s.peerToPeak.values.length := by simp [Dict.size,Dict.values]
  constructor
  · exact h.peaks
  · intro hnone
    have hempty : s.peerToPeak.values=[] := by
      apply List.eq_nil_iff_forall_not_mem.mpr
      intro peak hpeak
      obtain ⟨peer,hpeer⟩ := (hvalues peak).mp hpeak
      simp [hnone peer] at hpeer
    rw [getHeaviestPeak,if_pos (by simp [hsize,hempty])]
    rfl
  · rintro ⟨peer,hsome⟩
    obtain ⟨held,hheld⟩ := Option.ne_none_iff_exists'.mp hsome
    have hmem := (hvalues held).mpr ⟨peer,hheld⟩
    have hknown : ∀ peak∈s.peerToPeak.values,s.peakToPeer.contains peak.headerHash=true := by
      intro peak hpeak
      obtain ⟨p,hp⟩ := (hvalues peak).mp hpeak
      obtain ⟨peers,hpeers,-⟩ := hc p peak ((h.peaks p).trans hp)
      simp [Dict.contains,Option.mem_def.mp hpeers]
    obtain ⟨peak,hpeak,hwhere,hall,-⟩ := foldl_heavierPeak s.peerToPeak.values none hknown
      (Or.inl (List.ne_nil_of_mem hmem))
    refine ⟨peak,?_,(hvalues peak).mp (hwhere.resolve_right (by simp)),?_⟩
    · have hpos : s.peerToPeak.size≠0 := by
        rw [hsize]
        exact (List.length_pos_of_mem hmem).ne'
      rw [getHeaviestPeak,if_neg hpos,hpeak]
      rfl
    · exact fun p other hother => hall other ((hvalues other).mpr ⟨p,hother⟩)
  · exact hc
  · exact h.members

theorem performAll_follows (calls : List Call) : ∃ s,performAll calls = .ok s ∧ Follows (heardIn calls) s := by
  induction calls using List.reverseRecOn with
  | nil => exact ⟨create,rfl,fun _ => rfl,fun _ _ hpeers => by cases hpeers⟩
  | append_singleton calls call ih =>
    obtain ⟨s,hs,hfollows⟩ := ih
    have hnext : ∃ s',s.perform call = .ok s' := by
      cases call with
      | peerDisconnected nodeId => exact ⟨_,s.peerDisconnected_eq nodeId⟩
      | _ => exact ⟨_,rfl⟩
    obtain ⟨s',hs'⟩ := hnext
    refine ⟨s',?_,?_⟩
    · rw [performAll] at hs ⊢
      rw [List.foldlM_append,bind_of_ok hs,List.foldlM_cons,bind_of_ok hs']
      rfl
    · rw [heardIn,List.foldl_append]
      exact hfollows.perform call hs'

theorem performAll_concat {calls : List Call} {call : Call} (h : performAll (calls++[call]) = .ok s') :
    ∃ s,performAll calls = .ok s ∧ s.perform call = .ok s' := by
  rw [performAll,List.foldlM_append] at h
  obtain ⟨s,hs,h⟩ := bind_ok.mp h
  rw [List.foldlM_cons] at h
  obtain ⟨s₁,hs₁,h⟩ := bind_ok.mp h
  rw [← Except.ok.inj h]
  exact ⟨s,hs,hs₁⟩

theorem performAll_consistent (calls : List Call) (s : SyncStore) (hs : performAll calls = .ok s)
    (hclear : ∀ before,before++[.clearSyncInfo] <+: calls → ∀ peer,(heardIn before).peak peer=none) :
    Consistent s := by
  induction calls using List.reverseRecOn generalizing s with
  | nil =>
    obtain rfl := Except.ok.inj hs
    exact fun _ _ hpeak => by cases hpeak
  | append_singleton calls call ih =>
    obtain ⟨s₀,hs₀,hstep⟩ := performAll_concat hs
    have hbefore := ih s₀ hs₀ fun before hprefix => hclear before (List.IsPrefix.trans hprefix (List.prefix_append _ _))
    apply hbefore.perform call hstep
    rintro rfl peer
    obtain ⟨s₁,hs₁,hfollows⟩ := performAll_follows calls
    obtain rfl := Except.ok.inj (hs₀.symm.trans hs₁)
    rw [hfollows.peaks]
    exact hclear calls List.prefix_rfl peer

/-- The peaks are tracked in all states of a run exactly when it is cleared only while no peer has a
peak. -/
theorem syncStore_tracks_iff (calls : List Call) :
    (∀ before,before <+: calls → ∃ s,performAll before = .ok s ∧ Tracks (heardIn before) s) ↔
      ∀ before,before++[.clearSyncInfo] <+: calls → ∀ peer,(heardIn before).peak peer=none := by
  constructor
  · intro h before hprefix peer
    obtain ⟨s,hs,htracks⟩ := h _ hprefix
    obtain ⟨s₀,-,hstep⟩ := performAll_concat hs
    obtain rfl := Except.ok.inj hstep
    have hsame : heardIn (before++[.clearSyncInfo])=heardIn before := by
      rw [heardIn,List.foldl_append]
      rfl
    cases hpeak : (heardIn before).peak peer with
    | none => rfl
    | some peak =>
      rw [hsame] at htracks
      obtain ⟨peers,hpeers,-⟩ := htracks.consistent peer peak ((htracks.peaks peer).trans hpeak)
      cases hpeers
  · intro hclear before hprefix
    obtain ⟨s,hs,hfollows⟩ := performAll_follows before
    exact ⟨s,hs,hfollows.tracks (performAll_consistent before s hs fun b hb => hclear b (hb.trans hprefix))⟩

/-- One peer announces a peak, and a sync ends. -/
theorem getHeaviestPeak_raises :
    ∃ s,performAll [.peerHasBlock 5 1 70 10 true,.clearSyncInfo] = .ok s ∧ s.getHeaviestPeak = .error (.raised .assertion) ∧
      ¬ Tracks (heardIn [.peerHasBlock 5 1 70 10 true,.clearSyncInfo]) s := by
  refine ⟨_,rfl,rfl,?_⟩
  intro h
  obtain ⟨peers,hpeers,-⟩ := h.consistent 1 ⟨5,10,70⟩ rfl
  cases hpeers

end SyncStore
end RoseChain
