import RoseChain.Consensus.Runs

namespace RoseChain
open Lib Blockchain
variable {E : Env} {fx : FullBlock → Effects} {w : World} {P Q : List FullBlock}
  {prevHeaderHash : Bytes32}

def UnspentIn (t : Dict Bytes32 CoinRecord) (name : Bytes32) : Prop :=
  ∃ r,t.get? name=some r ∧ r.spent=false

variable {t : Dict Bytes32 CoinRecord} {book : CoinBook}

theorem Shows.unspent_iff (hs : Shows E t book) (name : Bytes32) : UnspentIn t name ↔ book.Alive name := by
  unfold UnspentIn Book.Alive
  rw [hs.get name]
  cases book name with
  | none => simp
  | some e => cases hd : e.dead <;> simp [coinRecordOf,hd]

theorem Shows.congr {t' : Dict Bytes32 CoinRecord} (hs : Shows E t book)
    (h : ∀ n,t'.get? n=t.get? n) : Shows E t' book :=
  ⟨fun n => (h n).trans (hs.get n),hs.named⟩

/-- The removal checks go by the block's own ancestors, whichever chain the coin store follows. -/
theorem validateRemovals_accepts_iff (hw : Coherent E w) (hi : Indexed E w) (hm : MainChain E w P)
    (hQ : Q=[] ∨ (w.forest E).Path prevHeaderHash Q) {replayed own : World}
    (hP : replayCoins E fx P (World.empty 0 0)=(.ok (),replayed))
    (hcoins : ∀ n,w.db.coinRecord.get? n=replayed.db.coinRecord.get? n)
    (hown : replayCoins E fx Q (World.empty 0 0)=(.ok (),own)) (hfx : FixedEffects E fx w)
    {peak : Option BlockRecord} (hpeak : getPeak w.chain = .ok peak)
    {forkPointWithPeak : Option ℕ} (hf : CommonHeight P Q forkPointWithPeak) (timestamp : ℕ)
    (allAdditions : List Coin) (removals : List Bytes32) :
    (∃ records,(validateRemovals E w.chain.view peak prevHeaderHash Q.length timestamp allAdditions
      removals forkPointWithPeak blockGenerator w).1 = .ok records) ↔ removals.Nodup ∧ ∀ rem∈removals,
      rem∈allAdditions.map E.coinName ∨ UnspentIn own.db.coinRecord rem := by
  obtain ⟨bookP,hrepP,hshowP⟩ := replays_of_replayCoins hP
  obtain ⟨bookQ,hrepQ,hshowQ⟩ := replays_of_replayCoins hown
  have hstored : ∀ b∈Q,w.block? (b.headerHash E)=some b := by
    rcases hQ with rfl | hpath
    · simp
    · exact fun b hb => hpath.find_mem hi.keyed hb
  have hobs := validateRemovals_observes (E := E) (V := w.chain.view) blockGenerator_observes peak
    prevHeaderHash Q.length timestamp allAdditions removals forkPointWithPeak
  obtain ⟨w',hrun,-,-⟩ := hobs.run hw
  have hanswer := observe_validateRemovals hw.calm hi hm hQ (hshowP.congr hcoins) hrepP hrepQ
    blockGenerator_observes (fun b hb => (hfx _ b (hstored b hb)).2)
    (fun b hb ht => hfx.plain hi (hstored b hb) ht) hpeak hf timestamp allAdditions removals
  have hspend : ∀ rem,Spendable E allAdditions bookQ rem ↔
      rem∈allAdditions.map E.coinName ∨ UnspentIn own.db.coinRecord rem := fun rem => by
    rw [Spendable,hshowQ.unspent_iff]
  simp only [← hspend]
  rw [hrun]
  rcases hanswer with ⟨hyes,records,rs,hok,-,-⟩ | ⟨hno,code,herr⟩
  · exact ⟨fun _ => hyes,fun _ => ⟨records,hok⟩⟩
  · refine ⟨fun ⟨records,hok⟩ => ?_,fun h => absurd h hno⟩
    rw [herr] at hok
    cases hok

theorem oldPath (hbelow : w.block? 10=some tinyGenesis) (hold : w.block? 11=some (claimingBlock 11 10 1 8)) :
    (w.forest tinyEnv).Path 11 [tinyGenesis,claimingBlock 11 10 1 8] :=
  .step (l := [tinyGenesis]) hold rfl (.root hbelow rfl)

theorem oldBlocks : (claimingState 4).block? 10=some tinyGenesis ∧
    (claimingState 4).block? 11=some (claimingBlock 11 10 1 8) := by decide +kernel

def claimedName : Bytes32 := tinyEnv.coinName (createPoolCoin tinyEnv.constants 0 0 (calculatePoolReward 0))

theorem run_eq {f : NodeM Unit} {w : World} (h : (f w).1 = .ok ()) : f w=(.ok (),(f w).2) := by
  rw [← h]

theorem exists_ok {α : Type} {f : Check α} (h : f.isOk=true) : ∃ a,f = .ok a := by
  cases f with
  | error e => cases h
  | ok a => exact ⟨a,rfl⟩

/-- After the reorganization a block on the old tip may spend the coin of its own branch, and before it a block
on the side branch may not, though the coin store has it. -/
theorem validateRemovals_accepts_iff_claiming :
    (∃ peak records,(validateRemovals tinyEnv (claimingState 4).chain.view peak 11 2 3 [] [claimedName] none blockGenerator
      (claimingState 4)).1 = .ok records) ∧ (claimingState 3).db.coinRecord.contains claimedName=true ∧ ∃ peak,
      ¬ ∃ records,(validateRemovals tinyEnv (claimingState 3).chain.view peak 21 2 3 [] [claimedName] none blockGenerator
        (claimingState 3)).1 = .ok records := by
  have hf {P Q : List FullBlock} : CommonHeight P Q none := fun f hf => by cases hf
  refine ⟨?_,by decide +kernel,?_⟩
  · have hs := claimingState_reached.settled tinyEnv_halvesDiffer
    obtain ⟨P,book,hm,hrep,hshow⟩ := hs.chain
    obtain ⟨s,hrun,hshow'⟩ := replayCoins_run 0 0 hrep
    obtain ⟨hbelow,hold⟩ := oldBlocks
    have hown := run_eq (f := replayCoins tinyEnv noEffects [tinyGenesis,claimingBlock 11 10 1 8]) (w := World.empty 0 0)
      (by decide +kernel)
    obtain ⟨peak,hpeak⟩ := exists_ok (f := getPeak (claimingState 4).chain) (by decide +kernel)
    have hunspent : ((replayCoins tinyEnv noEffects [tinyGenesis,claimingBlock 11 10 1 8]
      (World.empty 0 0)).2.db.coinRecord.get? claimedName).map (·.spent)=some false := by decide +kernel
    obtain ⟨r,hr,hspent⟩ := Option.map_eq_some_iff.mp hunspent
    refine ⟨peak,(validateRemovals_accepts_iff (Q := [tinyGenesis,claimingBlock 11 10 1 8]) hs.coherent hs.indexed hm
      (Or.inr (oldPath hbelow hold)) hrun (fun n => by rw [hshow.get,hshow'.get]) hown
      (fixedEffects_none (by decide +kernel)) hpeak hf 3 [] [claimedName]).mpr ⟨List.nodup_singleton _,?_⟩⟩
    intro rem hrem
    obtain rfl := List.mem_singleton.mp hrem
    exact Or.inr ⟨r,hr,hspent⟩
  · have hs := claimingState_before.settled tinyEnv_halvesDiffer
    obtain ⟨P,book,hm,hrep,hshow⟩ := hs.chain
    obtain ⟨s,hrun,hshow'⟩ := replayCoins_run 0 0 hrep
    obtain ⟨-,hbelow,hside⟩ := claimingState_blocks
    have hown := run_eq (f := replayCoins tinyEnv noEffects [tinyGenesis,tinyBlock 21 10 1 8]) (w := World.empty 0 0)
      (by decide +kernel)
    obtain ⟨peak,hpeak⟩ := exists_ok (f := getPeak (claimingState 3).chain) (by decide +kernel)
    have hgone : (replayCoins tinyEnv noEffects [tinyGenesis,tinyBlock 21 10 1 8]
      (World.empty 0 0)).2.db.coinRecord.get? claimedName=none := by decide +kernel
    refine ⟨peak,fun haccepted => ?_⟩
    obtain ⟨-,hall⟩ := (validateRemovals_accepts_iff (Q := [tinyGenesis,tinyBlock 21 10 1 8]) hs.coherent hs.indexed hm
      (Or.inr (sidePath hbelow hside)) hrun (fun n => by rw [hshow.get,hshow'.get]) hown
      (fixedEffects_none (by decide +kernel)) hpeak hf 3 [] [claimedName]).mp haccepted
    obtain hmem | ⟨r,hr,-⟩ := hall claimedName (List.mem_singleton_self _)
    · cases hmem
    · cases hgone.symm.trans hr

end RoseChain
