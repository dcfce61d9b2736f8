import RoseChain.FullNode.NoRaise
import RoseChain.Util.RoundTrip
import RoseChain.Wallet.PoolPuzzles

namespace RoseChain
open Lib

namespace PoolPuzzles
variable {E : Env} {Z : PoolPuzzles} {walletId : ℕ} {state : PoolState} {spend : CoinSpend}

variable (Z) in
/-- The bytes of the pool state are those that it is read from. -/
def Streams (state : PoolState) : Prop :=
  Z.poolStateToBytes state≠[] ∧ Z.poolStateFromBytes (Z.poolStateToBytes state) = .ok state

section Codec
open Streamable

def poolStateFields : List FieldType :=
  [.int .uint8,.int .uint8,.sizedBytes 32,.sizeHint .g1Element,.optional .str,.int .uint32]

variable (X : External)

def ofFields : FieldType.Values X poolStateFields → PoolState
  | (version,poolState,targetPuzzleHash,ownerPubkey,poolUrl,relativeLockHeight,_) =>
    ⟨version.val.toNat,poolState.val.toNat,toBytes32 targetPuzzleHash.val,X.toBytes .g1Element ownerPubkey,
      poolUrl.bind fun url => (encodeUtf8 url).toOption,relativeLockHeight.val.toNat⟩

/-- Pool states are written and read field by field, as a streamable class is. -/
structure Codes (Z : PoolPuzzles) : Prop where
  write : ∀ xs b,toBytes X poolStateFields xs = .ok b → Z.poolStateToBytes (ofFields X xs)=b
  read : ∀ b xs,fromBytes X poolStateFields b = .ok xs → Z.poolStateFromBytes b = .ok (ofFields X xs)

variable {X} {IsProgram : Bytes → Prop}

theorem streams_of_codes (hX : Lawful X IsProgram) (hcodes : Codes X Z) (xs : FieldType.Values X poolStateFields)
    (hfits : FitsItems X poolStateFields xs) : Z.Streams (ofFields X xs) := by
  obtain ⟨b,hb⟩ := (streamItems_writes poolStateFields xs).mpr hfits
  have htyped : WellTypedItems X IsProgram poolStateFields xs :=
    ⟨trivial,trivial,trivial,trivial,fun _ _ => trivial,trivial,trivial⟩
  have hread : fromBytes X poolStateFields b = .ok xs :=
    fromBytes_eq_ok.mpr ((parseItems_exact hX poolStateFields).whole.mpr ⟨htyped,hb⟩)
  rw [Streams,hcodes.write xs b hb]
  refine ⟨?_,hcodes.read b xs hread⟩
  rintro rfl
  cases hread

end Codec

variable (E Z) in
/-- The singleton's spend out of an absorb, of a coin that is no launcher. -/
def IsAbsorb (spend : CoinSpend) : Prop :=
  spend.coin.puzzleHash≠Z.singletonLauncherHash E ∧
    ∃ lastCoinSpend currentState launcherCoin height genesisChallenge delayTime delayPh more,
      Z.createAbsorbSpend E lastCoinSpend currentState launcherCoin height genesisChallenge delayTime delayPh =
        .ok (spend::more)

variable (E Z) in
/-- The spend out of a travel to the target, of a coin that is no launcher. -/
def IsTravel (target : PoolState) (spend : CoinSpend) : Prop :=
  spend.coin.puzzleHash≠Z.singletonLauncherHash E ∧
    ∃ lastCoinSpend launcherCoin current genesisChallenge delayTime delayPh innerPuzzle,
      Z.createTravelSpend E lastCoinSpend launcherCoin current target genesisChallenge delayTime delayPh =
        .ok (spend,innerPuzzle)

variable {p : SExp} {b : SerializedProgram}

theorem fromProgram_eq_ok : fromProgram p = .ok b ↔ p.asBin=some b := by
  unfold fromProgram
  cases p.asBin with
  | none => simp
  | some c => simp

theorem programFromBytes_fromProgram (h : fromProgram p = .ok b) : programFromBytes b = .ok p := by
  unfold programFromBytes
  rw [(readsAs_asBin (fromProgram_eq_ok.mp h)).stream]

/-- What a solution of the singleton says, by its inner solution. -/
def innerState (P : PoolPrograms) (inner : SExp) : Check (Option PoolState) := do
  assertThat (inner.pythonLength=2 ∨ inner.pythonLength=3)
  if inner.pythonLength=2 then
    if (← (← (← inner.rest).first).asInt)≠0 then return none
    else poolStateFromExtraData P (← inner.first)
  else if (← (← inner.first).asInt)=0 then return none
  else poolStateFromExtraData P (← (← inner.rest).first)

theorem solutionToExtraData_inner {parentInfo amount inner : SExp}
    (hsolution : fromProgram (.ofList [parentInfo,amount,inner]) = .ok spend.solution)
    (hcoin : spend.coin.puzzleHash≠Z.singletonLauncherHash E) :
    solutionToExtraData (Z.programs E) spend=innerState (Z.programs E) inner := by
  have hbytes : (Z.programs E).fromBytes spend.solution = .ok (.ofList [parentInfo,amount,inner]) :=
    programFromBytes_fromProgram hsolution
  have hlauncher : ¬ spend.coin.puzzleHash=(Z.programs E).singletonLauncherHash := hcoin
  unfold solutionToExtraData
  rw [bind_of_ok hbytes]
  change (if spend.coin.puzzleHash=(Z.programs E).singletonLauncherHash then _ else innerState (Z.programs E) inner)=_
  rw [if_neg hlauncher]

theorem poolStateFromExtraData_keyValueList (h : Z.Streams state) :
    poolStateFromExtraData (Z.programs E) (Z.keyValueList state) = .ok (some state) := by
  obtain ⟨hne,hround⟩ := h
  have hround' : (Z.programs E).poolStateFromBytes (Z.poolStateToBytes state) = .ok state := hround
  obtain ⟨x,b,hb⟩ := List.exists_cons_of_ne_nil hne
  rw [hb] at hround'
  simp only [poolStateFromExtraData,keyValueList,SExp.ofList,SExp.pythonElements,stateUnderKey,keyValue,hb]
  rw [bind_of_ok rfl]
  dsimp only
  rw [if_pos rfl,hround']
  rfl

theorem innerState_memberTravel (h : Z.Streams state) :
    innerState (Z.programs E) (.ofList [Z.keyValueList state,.ofInt 0]) = .ok (some state) :=
  poolStateFromExtraData_keyValueList h

theorem innerState_waitingRoomTravel (h : Z.Streams state) (destination : Bytes32) :
    innerState (Z.programs E) (.ofList [.ofInt 1,Z.keyValueList state,.ofBytes32 destination]) = .ok (some state) :=
  poolStateFromExtraData_keyValueList h

theorem innerState_memberAbsorb (rewardAmount height : ℕ) :
    innerState (Z.programs E) (.ofList [.ofInt rewardAmount,.ofInt height]) = .ok none := by
  have hheight : (SExp.ofInt height).asInt = .ok (height : ℤ) := congrArg Except.ok (intFromBytes_intToBytes height)
  change ((SExp.ofInt height).asInt >>= fun z =>
    if z≠0 then pure none else poolStateFromExtraData (Z.programs E) (.ofInt rewardAmount))=_
  rw [bind_of_ok hheight]
  split_ifs with hzero
  · rfl
  · rfl

theorem innerState_waitingRoomAbsorb (rewardAmount height : ℕ) :
    innerState (Z.programs E) (.ofList [.ofInt 0,.ofInt rewardAmount,.ofInt height]) = .ok none := rfl

theorem solutionToExtraData_travel (hstreams : Z.Streams state) (h : IsTravel E Z state spend) :
    solutionToExtraData (Z.programs E) spend = .ok (some state) := by
  obtain ⟨hcoin,last,launcher,current,challenge,time,ph,innerPuzzle,hbuilt⟩ := h
  simp only [createTravelSpend,bind_ok] at hbuilt
  obtain ⟨innerSol,hinner,o,-,currentSingleton,-,parentInfo,-,fullPuzzle,-,fullSolution,hsolution,hspend⟩ := hbuilt
  obtain ⟨rfl,-⟩ := Prod.mk.inj (Except.ok.inj hspend)
  rw [solutionToExtraData_inner hsolution hcoin]
  unfold travelInnerSol at hinner
  split_ifs at hinner
  · rw [← Except.ok.inj hinner]
    exact innerState_memberTravel hstreams
  · rw [← Except.ok.inj hinner]
    exact innerState_waitingRoomTravel hstreams _

theorem solutionToExtraData_absorb (h : IsAbsorb E Z spend) : solutionToExtraData (Z.programs E) spend = .ok none := by
  obtain ⟨hcoin,last,current,launcher,height,challenge,time,ph,more,hbuilt⟩ := h
  simp only [createAbsorbSpend,bind_ok] at hbuilt
  obtain ⟨innerSol,hinner,o,-,coin,-,parentInfo,-,fullSolution,hsolution,fullPuzzle,-,hrest⟩ := hbuilt
  obtain ⟨_,-,_,-,_,-,_,-,_,-,_,-,_,-,_,-,_,-,_,-,_,-,_,-,hspends⟩ := hrest
  obtain ⟨rfl,-⟩ := List.cons.inj (Except.ok.inj hspends)
  rw [solutionToExtraData_inner hsolution hcoin]
  unfold absorbInnerSol at hinner
  split_ifs at hinner
  · rw [← Except.ok.inj hinner]
    exact innerState_memberAbsorb _ _
  · rw [← Except.ok.inj hinner]
    exact innerState_waitingRoomAbsorb _ _

variable {P : PoolPrograms}

theorem lastAnnounced_append {l : List Transition} (h : ∀ e∈l,solutionToExtraData P e.2 = .ok none)
    (earlier : List Transition) : PoolWallet.lastAnnounced P (l++earlier)=PoolWallet.lastAnnounced P earlier := by
  induction l with
  | nil => rfl
  | cons e l ih =>
    rw [List.cons_append,PoolWallet.lastAnnounced,bind_of_ok (h e List.mem_cons_self)]
    exact ih fun e he => h e (List.mem_cons_of_mem _ he)

variable {height : ℕ}

theorem lastAnnounced_travel {target : PoolState} {travel : CoinSpend} {earlier absorbs : List Transition}
    (hstreams : Z.Streams target) (htravel : IsTravel E Z target travel) (habsorbs : ∀ e∈absorbs,IsAbsorb E Z e.2) :
    PoolWallet.lastAnnounced (Z.programs E) (earlier++(height,travel)::absorbs).reverse = .ok (target,height) := by
  rw [List.reverse_append,List.reverse_cons,List.append_assoc,lastAnnounced_append]
  · rw [List.cons_append,PoolWallet.lastAnnounced,bind_of_ok (solutionToExtraData_travel hstreams htravel)]
    rfl
  · intro e he
    exact solutionToExtraData_absorb (habsorbs e (List.mem_reverse.mp he))

/-- The launcher's delay and the coin of the tip can be read. -/
def TipReadable (E : Env) (P : PoolPrograms) (walletId : ℕ) (w : PoolWallet) : Prop :=
  (∃ launcher delay,(w.history walletId).head?=some launcher ∧
      getDelayedPuzInfoFromLauncherSpend P launcher.2 = .ok delay) ∧
    ∃ tip coin,w.getTip walletId = .ok tip ∧ getMostRecentSingletonCoinFromCoinSpend E P tip.2 = .ok (some coin)

theorem getCurrentState_announced {w : PoolWallet}
    (hlast : PoolWallet.lastAnnounced P (w.history walletId).reverse = .ok (state,height)) :
    ((∃ info,w.getCurrentState E P walletId = .ok info) ↔ TipReadable E P walletId w) ∧
      ∀ info,w.getCurrentState E P walletId = .ok info → info.current=state ∧ info.singletonBlockHeight=height := by
  constructor
  · constructor
    · intro hsome
      obtain ⟨info,hinfo⟩ := hsome
      simp only [PoolWallet.getCurrentState,bind_ok,assertSome_eq_ok] at hinfo
      obtain ⟨launcher,hlauncher,delay,hdelay,tip,htip,_,hcoin,coin,rfl,-⟩ := hinfo
      exact ⟨⟨launcher,delay,hlauncher,hdelay⟩,tip,coin,htip,hcoin⟩
    · intro hreadable
      obtain ⟨⟨launcher,delay,hlauncher,hdelay⟩,tip,coin,htip,hcoin⟩ := hreadable
      simp only [PoolWallet.getCurrentState,bind_ok,assertSome_eq_ok]
      exact ⟨_,launcher,hlauncher,delay,hdelay,tip,htip,_,hcoin,coin,rfl,_,hlast,rfl⟩
  · intro info hinfo
    simp only [PoolWallet.getCurrentState,bind_ok] at hinfo
    obtain ⟨launcher,-,delay,-,tip,-,coin,-,coin',-,announced,hannounced,hinfo⟩ := hinfo
    rw [hlast] at hannounced
    obtain rfl := Except.ok.inj hannounced
    obtain rfl := Except.ok.inj hinfo
    exact ⟨rfl,rfl⟩

/-- The state that a travel announces is the current one, however many absorbs follow. -/
theorem poolState_readable {E : Env} {Z : PoolPuzzles} {target : PoolState} {travel : CoinSpend}
    (hstreams : Z.Streams target) (htravel : IsTravel E Z target travel) :
    solutionToExtraData (Z.programs E) travel = .ok (some target) ∧
      (∀ absorb,IsAbsorb E Z absorb → solutionToExtraData (Z.programs E) absorb = .ok none) ∧
      ∀ (walletId : ℕ) (w : PoolWallet) (height : ℕ) (earlier absorbs : List Transition),
        w.history walletId=earlier++(height,travel)::absorbs → (∀ e∈absorbs,IsAbsorb E Z e.2) →
        ((∃ info,w.getCurrentState E (Z.programs E) walletId = .ok info) ↔ TipReadable E (Z.programs E) walletId w) ∧
          ∀ info,w.getCurrentState E (Z.programs E) walletId = .ok info →
            info.current=target ∧ info.singletonBlockHeight=height := by
  refine ⟨solutionToExtraData_travel hstreams htravel,fun absorb habsorb => solutionToExtraData_absorb habsorb,?_⟩
  intro walletId w height earlier absorbs hhistory habsorbs
  apply getCurrentState_announced
  rw [hhistory]
  exact lastAnnounced_travel hstreams htravel habsorbs

/-- Puzzles that say what they are, and a singleton whose spends make one coin. -/
def plainPuzzles : PoolPuzzles where
  run _ _ := some (.ofList [.ofList [.atom [51],.ofBytes32 5,.atom [1]]])
  curry modCode args := .pair modCode (.ofList args)
  uncurry
    | .pair modCode args => (modCode,args)
    | .atom b => (.atom b,.atom [])
  singletonMod := .atom [2]
  singletonLauncher := .atom [3]
  poolWaitingRoomMod := .atom [4]
  poolMemberMod := .atom [5]
  p2SingletonMod := .atom [6]
  poolStateToBytes s := bigEndian 1 s.version++(bigEndian 1 s.state++(bytes32 s.targetPuzzleHash ++
    (s.ownerPubkey++((match s.poolUrl with
      | none => [0]
      | some url => 1::(bigEndian 4 url.length++url))++bigEndian 4 s.relativeLockHeight))))
  poolStateFromBytes b := ofFields Streamable.tinyExternal <$> Streamable.fromBytes Streamable.tinyExternal poolStateFields b

theorem pack_uint (F : IntFormat) (x : F.Value) (hlo : F.lo=0) (hhi : F.hi<256^F.width) :
    F.pack x.val=bigEndian F.width x.val.toNat := by
  have hn := x.property
  rw [IntFormat.pack,Int.emod_eq_of_lt (by omega) (by omega)]

theorem bytes32_toBytes32 {b : Bytes} (h : b.length=32) : bytes32 (toBytes32 b)=b := by
  have hlt := natOfBytes_lt b
  rw [h] at hlt
  have hvalue : (toBytes32 b).toNat=natOfBytes b := by
    rw [toBytes32,BitVec.toNat_ofNat]
    exact Nat.mod_eq_of_lt hlt
  have hbytes : bytes32 (toBytes32 b)=bigEndian b.length (natOfBytes b) := by
    rw [h,← hvalue]
    rfl
  rw [hbytes,bigEndian_natOfBytes]

theorem streamStr_bytes {text : List CodePoint} {b : Bytes} (h : Streamable.streamStr text = .ok b) :
    ∃ url,Streamable.encodeUtf8 text = .ok url ∧ b=bigEndian 4 url.length++url := by
  obtain ⟨url,hurl,h⟩ := bind_ok.mp h
  obtain ⟨size,hsize,h⟩ := bind_ok.mp h
  obtain ⟨n,hn,hsize⟩ := bind_ok.mp hsize
  have hlength : (url.length : ℤ)=n := (uint_eq_ok.mp hn).1
  refine ⟨url,hurl,?_⟩
  rw [← Except.ok.inj h,← Except.ok.inj hsize,← Nat.cast_inj.mp hlength]

theorem plainPuzzles_codes : Codes Streamable.tinyExternal plainPuzzles where
  write := by
    intro xs b hb
    obtain ⟨version,poolState,targetPuzzleHash,ownerPubkey,poolUrl,relativeLockHeight,_⟩ := xs
    simp only [Streamable.toBytes,poolStateFields,Streamable.streamItems,Streamable.streamOneItem,bind_ok] at hb
    obtain ⟨_,⟨⟩,_,⟨_,⟨⟩,_,⟨_,⟨⟩,_,⟨_,⟨⟩,_,⟨url,hurl,_,⟨_,⟨⟩,_,⟨⟩,⟨⟩⟩,⟨⟩⟩,⟨⟩⟩,⟨⟩⟩,⟨⟩⟩,⟨⟩⟩ := hb
    rw [pack_uint _ version rfl (by decide),pack_uint _ poolState rfl (by decide),
      pack_uint _ relativeLockHeight rfl (by decide),List.append_nil]
    simp only [plainPuzzles,ofFields,bytes32_toBytes32 targetPuzzleHash.property]
    cases poolUrl with
    | none =>
      cases hurl
      rfl
    | some text =>
      obtain ⟨c,hc,⟨⟩⟩ := bind_ok.mp hurl
      obtain ⟨url,hencoded,rfl⟩ := streamStr_bytes hc
      rw [Option.bind_some,hencoded]
      rfl
  read := by
    intro b xs hread
    change (_ <$> Streamable.fromBytes Streamable.tinyExternal poolStateFields b)=_
    rw [hread]
    rfl

/-- A member of the pool at `u:8`. -/
def memberFields : FieldType.Values Streamable.tinyExternal poolStateFields :=
  (⟨1,by decide⟩,⟨3,by decide⟩,⟨List.replicate 32 5,rfl⟩,(),
    some ("u:8".toList.map Streamable.codePointOfChar),⟨20,by decide⟩,())

def member : PoolState := ofFields Streamable.tinyExternal memberFields

theorem member_streams : plainPuzzles.Streams member := by
  apply streams_of_codes Streamable.tinyExternal_lawful plainPuzzles_codes
  refine ⟨trivial,trivial,trivial,trivial,?_,trivial,trivial⟩
  rintro text ⟨⟩
  have hurl : Streamable.encodeUtf8 ("u:8".toList.map Streamable.codePointOfChar) = .ok [117,58,56] := by decide +kernel
  refine ⟨(Streamable.encodeUtf8_ok _).mp ⟨_,hurl⟩,fun b hb => ?_⟩
  cases hurl.symm.trans hb
  decide

/-- A travel from the pool's waiting room into the pool, and what its spend says. -/
theorem poolState_readable_member : ∃ travel,IsTravel tinyEnv plainPuzzles member travel ∧
    solutionToExtraData (plainPuzzles.programs tinyEnv) travel = .ok (some member) := by
  have hbuilt : (match plainPuzzles.createTravelSpend tinyEnv ⟨⟨9,0,1⟩,[1],[1]⟩ ⟨9,0,1⟩ ⟨1,2,0,[],none,0⟩
      member 0 60 8 with
    | .ok p => decide (p.1.coin.puzzleHash≠plainPuzzles.singletonLauncherHash tinyEnv)
    | .error _ => false)=true := by decide +kernel
  split at hbuilt
  · next p hp =>
    have htravel : IsTravel tinyEnv plainPuzzles member p.1 :=
      ⟨of_decide_eq_true hbuilt,_,_,_,_,_,_,p.2,hp⟩
    exact ⟨p.1,htravel,(poolState_readable member_streams htravel).1⟩
  · cases hbuilt

end PoolPuzzles

end RoseChain
