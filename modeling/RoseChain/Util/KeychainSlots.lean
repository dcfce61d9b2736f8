import RoseChain.Lib.Index
import RoseChain.Util.Keychain

namespace RoseChain
open Lib

namespace Keychain

def MAX_KEYS : ℕ := 100

/-- Bytes of a `G1Element`. -/
def G1_SIZE : ℕ := 48

/-- The libraries for keys and passwords. -/
structure KeyLibrary (PrivateKey G1Element : Type) where
  /-- `unicodedata.normalize("NFKD", s).encode("utf-8")`. -/
  normalize : Text → Bytes
  pbkdf2Hmac : Bytes → Bytes → Bytes
  keyGen : Bytes → PrivateKey
  getG1 : PrivateKey → G1Element
  getFingerprint : G1Element → ℕ
  toBytes : G1Element → Bytes
  fromBytes : Bytes → Check G1Element
  /-- Deleting a password that is not there raises. -/
  deleteRaises : Bool

/-- What is kept under the name of each index: the bytes of the text in hex. -/
abbrev Keyring := Dict ℕ Bytes

/-- The libraries as they are documented. -/
structure KeyLibrary.Lawful {PrivateKey G1Element : Type} (L : KeyLibrary PrivateKey G1Element) : Prop where
  seed (password salt : Bytes) : (L.pbkdf2Hmac password salt).length=64
  size (pk : G1Element) : (L.toBytes pk).length=G1_SIZE
  readable (pk : G1Element) : L.fromBytes (L.toBytes pk) = .ok pk

variable {PrivateKey G1Element : Type} (E : Env) (wordList : List Text) (L : KeyLibrary PrivateKey G1Element)

def mnemonicToSeed (mnemonic passphrase : Text) : Check Bytes := do
  let seed := L.pbkdf2Hmac (L.normalize mnemonic) (L.normalize ("mnemonic".toList++passphrase))
  assertThat (seed.length=64)
  return seed

def getPkAndEntropy (ring : Keyring) (index : ℕ) : Check (Option (G1Element × Bytes)) := do
  match ring.get? index with
  | none => return none
  | some strBytes =>
    if strBytes.length=0 then return none
    else return some (← L.fromBytes (strBytes.take G1_SIZE),strBytes.drop G1_SIZE)

/-- The search for a free index; it ends, as a keyring is finite. -/
def freeIndexFrom (ring : Keyring) : ℕ → ℕ → Check ℕ
  | 0,_ => .error (.raised .diverged)
  | n+1,index => do
    match ← getPkAndEntropy L ring index with
    | none => return index
    | some _ => freeIndexFrom ring n (index+1)

def getFreePrivateKeyIndex (ring : Keyring) : Check ℕ := freeIndexFrom L ring (ring.size+1) 0

/-- `while index <= MAX_KEYS`: a round may return, and the next slot is read at its end. -/
def slotLoop {σ : Type} (ringOf : σ → Keyring) (body : ℕ → G1Element → Bytes → σ → Check (ForInStep σ)) :
    ℕ → ℕ → Option (G1Element × Bytes) → σ → Check σ
  | 0,_,_,s => return s
  | n+1,index,none,s => do
    slotLoop ringOf body n (index+1) (← getPkAndEntropy L (ringOf s) (index+1)) s
  | n+1,index,some (pk,ent),s => do
    match ← body index pk ent s with
    | .done s => return s
    | .yield s => slotLoop ringOf body n (index+1) (← getPkAndEntropy L (ringOf s) (index+1)) s

def overSlots {σ : Type} (ringOf : σ → Keyring) (body : ℕ → G1Element → Bytes → σ → Check (ForInStep σ)) (s : σ) : Check σ := do
  slotLoop L ringOf body (MAX_KEYS+1) 0 (← getPkAndEntropy L (ringOf s) 0) s

def keyOf (ent : Bytes) (passphrase : Text) : Check PrivateKey := do
  let mnemonic ← bytesToMnemonic E wordList ent
  let seed ← mnemonicToSeed L mnemonic passphrase
  return L.keyGen seed

/-- The passphrases tried on one slot, by `get_private_key_by_fingerprint`. -/
def tryPassphrases (fingerprint : ℕ) (pk : G1Element) (ent : Bytes) : List Text → Check (Option (PrivateKey × Bytes))
  | [] => return none
  | pp::passphrases => do
    let key ← keyOf E wordList L ent pp
    if L.getFingerprint pk=fingerprint then return some (key,ent) else tryPassphrases fingerprint pk ent passphrases

def getPrivateKeyByFingerprint (ring : Keyring) (fingerprint : ℕ) (passphrases : List Text) :
    Check (Option (PrivateKey × Bytes)) :=
  overSlots L (fun _ => ring) (fun _ pk ent _ => do
    match ← tryPassphrases E wordList L fingerprint pk ent passphrases with
    | some found => return .done (some found)
    | none => return .yield none) none

def openSlot [DecidableEq G1Element] (pk : G1Element) (ent : Bytes) : List Text → Check (List (PrivateKey × Bytes))
  | [] => return []
  | pp::passphrases => do
    let key ← keyOf E wordList L ent pp
    let keys ← openSlot pk ent passphrases
    if L.getG1 key=pk then return (key,ent)::keys else return keys

def getAllPrivateKeys [DecidableEq G1Element] (ring : Keyring) (passphrases : List Text) : Check (List (PrivateKey × Bytes)) :=
  overSlots L (fun _ => ring) (fun _ pk ent allKeys => do
    return .yield (allKeys++(← openSlot E wordList L pk ent passphrases))) []

def getAllPublicKeys (ring : Keyring) : Check (List G1Element) :=
  overSlots L (fun _ => ring) (fun _ pk _ allKeys => return .yield (allKeys++[pk])) []

def addPrivateKey (ring : Keyring) (mnemonic passphrase : Text) : Check (PrivateKey × Keyring) := do
  let seed ← mnemonicToSeed L mnemonic passphrase
  let entropy ← bytesFromMnemonic E wordList mnemonic
  let index ← getFreePrivateKeyIndex L ring
  let key := L.keyGen seed
  let fingerprint := L.getFingerprint (L.getG1 key)
  if fingerprint∈(← getAllPublicKeys L ring).map L.getFingerprint then return (key,ring)
  else return (key,ring.set index (L.toBytes (L.getG1 key)++entropy))

def deleteKeyByFingerprint (ring : Keyring) (fingerprint : ℕ) : Check Keyring :=
  overSlots L id (fun index pk _ ring =>
    if L.getFingerprint pk=fingerprint then return .yield (ring.erase index) else return .yield ring) ring

/-- `while True` of `delete_all_keys`; `emptySlot` is `pkent is None`, of the last slot that could be read. -/
def deleteLoop : ℕ → ℕ → Bool → Bool → Keyring → Check Keyring
  | 0,_,_,_,_ => .error (.raised .diverged)
  | n+1,index,deleteException,emptySlot,ring =>
    let read := getPkAndEntropy L ring index
    let emptySlot : Bool := match read with
      | .ok pkent => pkent.isNone
      | .error _ => emptySlot
    let deleted := read.toBool && (ring.contains index || !L.deleteRaises)
    let ring := if deleted then ring.erase index else ring
    let deleteException := deleteException || !deleted
    if (emptySlot ∨ deleteException) ∧ index > MAX_KEYS then return ring
    else deleteLoop n (index+1) deleteException emptySlot ring

def deleteAllKeys (ring : Keyring) : Check Keyring := do
  let ring ← deleteLoop L (ring.size+MAX_KEYS+3) 0 false true ring
  deleteLoop L (ring.size+MAX_KEYS+3) 0 true true ring

inductive KeyOp
  | addPrivateKey (mnemonic passphrase : Text)
  | deleteKeyByFingerprint (fingerprint : ℕ)
  | deleteAllKeys

def KeyOp.apply (ring : Keyring) : KeyOp → Check Keyring
  | .addPrivateKey mnemonic passphrase => do return (← Keychain.addPrivateKey E wordList L ring mnemonic passphrase).2
  | .deleteKeyByFingerprint fingerprint => Keychain.deleteKeyByFingerprint L ring fingerprint
  | .deleteAllKeys => Keychain.deleteAllKeys L ring

/-- The keyring after a call: a mnemonic that is refused changes nothing. -/
def KeyOp.after (ring : Keyring) (op : KeyOp) : Keyring :=
  match op.apply E wordList L ring with
  | .ok ring' => ring'
  | .error _ => ring

def ringAfter (ops : List KeyOp) : Keyring := ops.foldl (fun ring op => op.after E wordList L ring) Dict.empty

/-- The lengths that have a mnemonic. -/
abbrev EntropyLength (ent : Bytes) : Prop := ent.length∈[16,20,24,28,32]

def Holds (ring : Keyring) (i : ℕ) (pk : G1Element) (ent : Bytes) : Prop := ring.get? i=some (L.toBytes pk++ent)

/-- Whatever is kept is a public key and the entropy of a mnemonic. -/
def Sound (ring : Keyring) : Prop :=
  ∀ i strBytes,ring.get? i=some strBytes →
    ∃ pk ent,strBytes=L.toBytes pk++ent ∧ EntropyLength ent

/-- One of the slots that are looked at has a public key of the fingerprint. -/
def Visible (ring : Keyring) (fingerprint : ℕ) : Prop :=
  ∃ i≤MAX_KEYS,∃ pk ent,Holds L ring i pk ent ∧ L.getFingerprint pk=fingerprint

/-- None of the slots below the index has a public key of the fingerprint. -/
def Unseen (ring : Keyring) (fingerprint index : ℕ) : Prop :=
  ∀ i < index,∀ pk ent,Holds L ring i pk ent → L.getFingerprint pk≠fingerprint

/-- The first slot that has the fingerprint. -/
structure FirstWith (ring : Keyring) (fingerprint i : ℕ) (pk : G1Element) (ent : Bytes) : Prop where
  visible : i≤MAX_KEYS
  holds : Holds L ring i pk ent
  found : L.getFingerprint pk=fingerprint
  first : Unseen L ring fingerprint i

def Within (ring' ring : Keyring) : Prop := ∀ i,ring'.get? i=none ∨ ring'.get? i=ring.get? i

variable {E wordList L} {ring ring' : Keyring} {i : ℕ} {pk pk' : G1Element} {ent ent' : Bytes}

section Slots

theorem read_free (h : ring.get? i=none) : getPkAndEntropy L ring i = .ok none := by
  unfold getPkAndEntropy
  rw [h]
  rfl

theorem KeyLibrary.Lawful.read_holds (hL : L.Lawful) (h : Holds L ring i pk ent) :
    getPkAndEntropy L ring i = .ok (some (pk,ent)) := by
  have hsize := hL.size pk
  have hlength : ¬ (L.toBytes pk++ent).length=0 := by
    rw [List.length_append,hsize,G1_SIZE]
    omega
  have htake : (L.toBytes pk++ent).take G1_SIZE=L.toBytes pk := by
    rw [← hsize,List.take_left]
  have hdrop : (L.toBytes pk++ent).drop G1_SIZE=ent := by
    rw [← hsize,List.drop_left]
  unfold getPkAndEntropy
  rw [h]
  dsimp only
  rw [if_neg hlength,htake,hdrop,bind_of_ok (hL.readable pk)]
  rfl

theorem KeyLibrary.Lawful.holds_unique (hL : L.Lawful) (h : Holds L ring i pk ent) (h' : Holds L ring i pk' ent') :
    pk=pk' ∧ ent=ent' := by
  have hsame := (hL.read_holds h).symm.trans (hL.read_holds h')
  simpa using hsame

theorem Sound.free_or_holds (h : Sound L ring) (i : ℕ) :
    ring.get? i=none ∨ ∃ pk ent,Holds L ring i pk ent ∧ EntropyLength ent := by
  cases hi : ring.get? i with
  | none => exact Or.inl rfl
  | some strBytes =>
    obtain ⟨pk,ent,rfl,hent⟩ := h i strBytes hi
    exact Or.inr ⟨pk,ent,hi,hent⟩

theorem not_holds_of_free (h : ring.get? i=none) : ¬ Holds L ring i pk ent := by
  intro hholds
  rw [hholds] at h
  cases h

variable {fingerprint : ℕ}

theorem Unseen.free (h : Unseen L ring fingerprint i) (hfree : ring.get? i=none) :
    Unseen L ring fingerprint (i+1) := by
  intro j hj pk ent hholds
  obtain hlt | rfl := Nat.lt_succ_iff_lt_or_eq.mp hj
  · exact h j hlt pk ent hholds
  · exact absurd hholds (not_holds_of_free hfree)

theorem Unseen.other (h : Unseen L ring fingerprint i) (hL : L.Lawful) (hholds : Holds L ring i pk ent)
    (hother : L.getFingerprint pk≠fingerprint) : Unseen L ring fingerprint (i+1) := by
  intro j hj pk' ent' hholds'
  obtain hlt | rfl := Nat.lt_succ_iff_lt_or_eq.mp hj
  · exact h j hlt pk' ent' hholds'
  · rwa [← (hL.holds_unique hholds hholds').1]

theorem Within.refl (ring : Keyring) : Within ring ring := fun _ => Or.inr rfl

theorem Within.trans {ring'' : Keyring} (h : Within ring'' ring') (h' : Within ring' ring) : Within ring'' ring := by
  intro i
  obtain hi | hi := h i
  · exact Or.inl hi
  · rw [hi]
    exact h' i

theorem Within.own (h : Within ring' ring) (strBytes : Bytes) (hi : ring.get? i=some strBytes) :
    ring'.get? i=none ∨ ring'.get? i=some strBytes := hi ▸ h i

theorem within_erase (ring : Keyring) (i : ℕ) : Within (ring.erase i) ring := by
  intro j
  rw [Dict.get?_erase]
  split_ifs
  · exact Or.inl rfl
  · exact Or.inr rfl

theorem Within.holds (h : Within ring' ring) (hholds : Holds L ring' i pk ent) : Holds L ring i pk ent := by
  obtain hi | hi := h i
  · exact absurd hholds (not_holds_of_free hi)
  · exact hi.symm.trans hholds

theorem Within.sound (h : Within ring' ring) (hsound : Sound L ring) : Sound L ring' := by
  intro i strBytes hi
  obtain hfree | hsame := h i
  · rw [hfree] at hi
    cases hi
  · exact hsound i strBytes (hsame.symm.trans hi)

theorem overSlots_ok (hL : L.Lawful) {σ : Type} (ringOf : σ → Keyring)
    (body : ℕ → G1Element → Bytes → σ → Check (ForInStep σ)) {P : ℕ → σ → Prop} {Q : σ → Prop}
    (hsound : ∀ index s,P index s → Sound L (ringOf s))
    (hfree : ∀ index s,P index s → (ringOf s).get? index=none → P (index+1) s)
    (hslot : ∀ index s pk ent,P index s → index≤MAX_KEYS → Holds L (ringOf s) index pk ent → EntropyLength ent →
      (∃ s',body index pk ent s = .ok (.done s') ∧ Q s') ∨ ∃ s',body index pk ent s = .ok (.yield s') ∧ P (index+1) s')
    {s : σ} (hstart : P 0 s) : ∃ s',overSlots L ringOf body s = .ok s' ∧ (Q s' ∨ P (MAX_KEYS+1) s') := by
  have hloop (n : ℕ) : ∀ index s,index+n=MAX_KEYS+1 → P index s →
      ∃ s',(do slotLoop L ringOf body n index (← getPkAndEntropy L (ringOf s) index) s) = .ok s' ∧ (Q s' ∨ P (MAX_KEYS+1) s') := by
    induction n with
    | zero =>
      intro index s hindex hP
      obtain rfl : index=MAX_KEYS+1 := hindex
      refine ⟨s,?_,Or.inr hP⟩
      obtain hnone | ⟨pk,ent,hholds,-⟩ := (hsound _ s hP).free_or_holds (MAX_KEYS+1)
      · rw [bind_of_ok (read_free hnone)]
        rfl
      · rw [bind_of_ok (hL.read_holds hholds)]
        rfl
    | succ n ih =>
      intro index s hindex hP
      obtain hnone | ⟨pk,ent,hholds,hent⟩ := (hsound index s hP).free_or_holds index
      · rw [bind_of_ok (read_free hnone)]
        exact ih (index+1) s (by omega) (hfree index s hP hnone)
      · rw [bind_of_ok (hL.read_holds hholds),slotLoop]
        obtain ⟨s₁,hbody,hQ⟩ | ⟨s₁,hbody,hP'⟩ := hslot index s pk ent hP (by omega) hholds hent
        · rw [bind_of_ok hbody]
          exact ⟨s₁,rfl,Or.inl hQ⟩
        · rw [bind_of_ok hbody]
          exact ih (index+1) s₁ (by omega) hP'
  exact hloop (MAX_KEYS+1) 0 s (by omega) hstart

theorem overSlots_collect (hL : L.Lawful) (h : Sound L ring) {α : Type}
    (body : ℕ → G1Element → Bytes → List α → Check (ForInStep (List α))) {X : α → G1Element → Bytes → Prop}
    (hbody : ∀ index pk ent s,EntropyLength ent →
      ∃ out,body index pk ent s = .ok (.yield (s++out)) ∧ ∀ x,x∈out ↔ X x pk ent) :
    ∃ s,overSlots L (fun _ => ring) body [] = .ok s ∧
      ∀ x,x∈s ↔ ∃ i≤MAX_KEYS,∃ pk ent,Holds L ring i pk ent ∧ X x pk ent := by
  have hrule := overSlots_ok hL (fun _ => ring) body (Q := fun _ => False)
    (P := fun index s => ∀ x,x∈s ↔ ∃ i < index,∃ pk ent,Holds L ring i pk ent ∧ X x pk ent)
    (fun _ _ _ => h) ?_ ?_ (s := []) (by simp)
  · obtain ⟨s,hrun,hQ | hP⟩ := hrule
    · exact absurd hQ not_false
    · exact ⟨s,hrun,fun x => by simp only [hP x,Nat.lt_succ_iff]⟩
  · intro index s hP hnone x
    rw [hP x,Nat.exists_lt_succ_right]
    constructor
    · exact Or.inl
    · rintro (hx | ⟨pk,ent,hholds,-⟩)
      · exact hx
      · exact absurd hholds (not_holds_of_free hnone)
  · intro index s pk ent hP _ hholds hent
    obtain ⟨out,hout,hmem⟩ := hbody index pk ent s hent
    refine Or.inr ⟨s++out,hout,fun x => ?_⟩
    rw [List.mem_append,hP x,hmem,Nat.exists_lt_succ_right]
    apply or_congr_right
    constructor
    · exact fun hx => ⟨pk,ent,hholds,hx⟩
    · intro ⟨pk',ent',hholds',hx⟩
      obtain ⟨rfl,rfl⟩ := hL.holds_unique hholds hholds'
      exact hx

end Slots

section Lookups
variable (hl : WordList wordList) (hL : L.Lawful)
include hL

theorem mnemonicToSeed_ok (mnemonic passphrase : Text) : mnemonicToSeed L mnemonic passphrase =
    .ok (L.pbkdf2Hmac (L.normalize mnemonic) (L.normalize ("mnemonic".toList++passphrase))) := by
  unfold mnemonicToSeed
  dsimp only
  rw [bind_of_ok ((assertThat_eq_ok (u := ())).mpr (hL.seed _ _))]
  rfl

theorem getAllPublicKeys_ok (h : Sound L ring) : ∃ pks,getAllPublicKeys L ring = .ok pks ∧
    ∀ fingerprint,fingerprint∈pks.map L.getFingerprint ↔ Visible L ring fingerprint := by
  obtain ⟨pks,hrun,hmem⟩ := overSlots_collect hL h (fun _ pk _ allKeys => return .yield (allKeys++[pk]))
    (X := fun pk' pk _ => pk'=pk) fun _ pk _ _ _ => ⟨[pk],rfl,fun _ => List.mem_singleton⟩
  refine ⟨pks,hrun,fun fingerprint => ?_⟩
  simp only [List.mem_map,hmem]
  constructor
  · rintro ⟨pk,⟨i,hi,pk',ent,hholds,rfl⟩,hfound⟩
    exact ⟨i,hi,pk,ent,hholds,hfound⟩
  · intro ⟨i,hi,pk,ent,hholds,hfound⟩
    exact ⟨pk,⟨i,hi,pk,ent,hholds,rfl⟩,hfound⟩

variable {fingerprint : ℕ}

theorem FirstWith.unique {j : ℕ} (h : FirstWith L ring fingerprint i pk ent)
    (h' : FirstWith L ring fingerprint j pk' ent') : pk=pk' ∧ ent=ent' := by
  obtain hlt | rfl | hlt := Nat.lt_trichotomy i j
  · exact absurd h.found (h'.first i hlt pk ent h.holds)
  · exact hL.holds_unique h.holds h'.holds
  · exact absurd h'.found (h.first j hlt pk' ent' h'.holds)

include hl

theorem keyOf_ok (hent : EntropyLength ent) (passphrase : Text) :
    ∃ key,keyOf E wordList L ent passphrase = .ok key := by
  obtain ⟨k,groups,words,hspells⟩ := hl.exists_spells (E := E) hent
  have hmnemonic := bytesToMnemonic_eq_ok.mpr ⟨k,groups,words,hspells,rfl⟩
  unfold keyOf
  rw [bind_of_ok hmnemonic,bind_of_ok (mnemonicToSeed_ok hL _ passphrase)]
  exact ⟨_,rfl⟩

theorem keyOf_of_mnemonic {mnemonic : Text} (hent : bytesFromMnemonic E wordList mnemonic = .ok ent) (passphrase : Text) :
    keyOf E wordList L ent passphrase =
      .ok (L.keyGen (L.pbkdf2Hmac (L.normalize mnemonic) (L.normalize ("mnemonic".toList++passphrase)))) := by
  unfold keyOf
  rw [bind_of_ok (hl.reads_iff_writes.mp hent),bind_of_ok (mnemonicToSeed_ok hL _ _)]
  rfl

theorem tryPassphrases_skip (hent : EntropyLength ent)
    (hother : L.getFingerprint pk≠fingerprint) (passphrases : List Text) :
    tryPassphrases E wordList L fingerprint pk ent passphrases = .ok none := by
  induction passphrases with
  | nil => rfl
  | cons pp passphrases ih =>
    obtain ⟨key,hkey⟩ := keyOf_ok (E := E) hl hL hent pp
    rw [tryPassphrases,bind_of_ok hkey,if_neg hother,ih]

/-- The first slot with the fingerprint opens with the first passphrase, whatever comes of it. -/
theorem getPrivateKeyByFingerprint_ok (h : Sound L ring) (fingerprint : ℕ) (passphrases : List Text) :
    ∃ found,getPrivateKeyByFingerprint E wordList L ring fingerprint passphrases = .ok found ∧
      ((∃ i pk ent pp key,FirstWith L ring fingerprint i pk ent ∧ passphrases.head?=some pp ∧
          keyOf E wordList L ent pp = .ok key ∧ found=some (key,ent)) ∨
        found=none ∧ (passphrases≠[] → Unseen L ring fingerprint (MAX_KEYS+1))) := by
  have hrule := overSlots_ok hL (fun _ => ring)
    (fun _ pk ent _ => do
      match ← tryPassphrases E wordList L fingerprint pk ent passphrases with
      | some found => return .done (some found)
      | none => return .yield none)
    (P := fun index found => found=none ∧ (passphrases≠[] → Unseen L ring fingerprint index))
    (Q := fun found => ∃ i pk ent pp key,FirstWith L ring fingerprint i pk ent ∧ passphrases.head?=some pp ∧
      keyOf E wordList L ent pp = .ok key ∧ found=some (key,ent))
    (fun _ _ _ => h) ?_ ?_ (s := none) ⟨rfl,by simp [Unseen]⟩
  · exact hrule
  · intro index found ⟨hnone,hbefore⟩ hfree
    exact ⟨hnone,fun hne => (hbefore hne).free hfree⟩
  · intro index found pk ent ⟨hnone,hbefore⟩ hindex hholds hent
    cases passphrases with
    | nil => exact Or.inr ⟨none,rfl,rfl,by simp⟩
    | cons pp passphrases =>
      by_cases hhas : L.getFingerprint pk=fingerprint
      · obtain ⟨key,hkey⟩ := keyOf_ok (E := E) hl hL hent pp
        have htry : tryPassphrases E wordList L fingerprint pk ent (pp::passphrases) = .ok (some (key,ent)) := by
          rw [tryPassphrases,bind_of_ok hkey,if_pos hhas]
          rfl
        refine Or.inl ⟨some (key,ent),?_,index,pk,ent,pp,key,?_,rfl,hkey,rfl⟩
        · rw [bind_of_ok htry]
          rfl
        · exact ⟨hindex,hholds,hhas,hbefore (by simp)⟩
      · refine Or.inr ⟨none,?_,rfl,fun hne => (hbefore hne).other hL hholds hhas⟩
        rw [bind_of_ok (tryPassphrases_skip hl hL hent hhas _)]
        rfl

variable [DecidableEq G1Element]

theorem openSlot_ok (hent : EntropyLength ent) (pk : G1Element) (passphrases : List Text) :
    ∃ keys,openSlot E wordList L pk ent passphrases = .ok keys ∧ ∀ found,found∈keys ↔
      found.2=ent ∧ ∃ pp∈passphrases,keyOf E wordList L ent pp = .ok found.1 ∧ L.getG1 found.1=pk := by
  induction passphrases with
  | nil => exact ⟨[],rfl,by simp⟩
  | cons pp passphrases ih =>
    obtain ⟨key,hkey⟩ := keyOf_ok (E := E) hl hL hent pp
    obtain ⟨keys,hkeys,hmem⟩ := ih
    rw [openSlot,bind_of_ok hkey,bind_of_ok hkeys]
    by_cases hopens : L.getG1 key=pk
    · refine ⟨(key,ent)::keys,by rw [if_pos hopens]; rfl,fun found => ?_⟩
      obtain ⟨k,e⟩ := found
      rw [List.mem_cons,hmem,List.exists_mem_cons_iff,hkey]
      simp only [Prod.mk.injEq,Except.ok.injEq]
      grind
    · refine ⟨keys,by rw [if_neg hopens]; rfl,fun found => ?_⟩
      rw [hmem,List.exists_mem_cons_iff,hkey]
      simp only [Except.ok.injEq]
      grind

theorem getAllPrivateKeys_ok (h : Sound L ring) (passphrases : List Text) :
    ∃ keys,getAllPrivateKeys E wordList L ring passphrases = .ok keys ∧ ∀ key ent,(key,ent)∈keys ↔
      ∃ i≤MAX_KEYS,Holds L ring i (L.getG1 key) ent ∧ ∃ pp∈passphrases,keyOf E wordList L ent pp = .ok key := by
  have hrule := overSlots_collect hL h
    (fun _ pk ent allKeys => do return .yield (allKeys++(← openSlot E wordList L pk ent passphrases)))
    (X := fun found pk ent => found.2=ent ∧ ∃ pp∈passphrases,keyOf E wordList L ent pp = .ok found.1 ∧ L.getG1 found.1=pk) ?_
  · obtain ⟨keys,hrun,hmem⟩ := hrule
    refine ⟨keys,hrun,fun key ent => (hmem (key,ent)).trans ?_⟩
    constructor
    · rintro ⟨i,hi,pk,ent,hholds,rfl,pp,hpp,hkey,rfl⟩
      exact ⟨i,hi,hholds,pp,hpp,hkey⟩
    · rintro ⟨i,hi,hholds,pp,hpp,hkey⟩
      exact ⟨i,hi,_,ent,hholds,rfl,pp,hpp,hkey,rfl⟩
  · intro index pk ent s hent
    obtain ⟨out,hout,hmem⟩ := openSlot_ok (E := E) hl hL hent pk passphrases
    refine ⟨out,?_,hmem⟩
    rw [bind_of_ok hout]
    rfl

end Lookups

section Changes

theorem taken_le_size {index : ℕ} (h : ∀ j < index,ring.get? j≠none) : index ≤ ring.size := by
  have hsub : List.range index ⊆ ring.keys := by
    intro j hj
    obtain ⟨v,hv⟩ := Option.ne_none_iff_exists'.mp (h j (List.mem_range.mp hj))
    exact (ring.mem_keys j).mpr ⟨v,hv⟩
  have hle := (List.nodup_range.subperm hsub).length_le
  rwa [List.length_range,← Dict.size_eq_keys] at hle

theorem getFreePrivateKeyIndex_ok (hL : L.Lawful) (h : Sound L ring) : ∃ index,getFreePrivateKeyIndex L ring = .ok index ∧
    ring.get? index=none ∧ ∀ j < index,ring.get? j≠none := by
  have hsearch (n : ℕ) : ∀ start,ring.size<start+n → (∀ j<start,ring.get? j≠none) →
      ∃ index,freeIndexFrom L ring n start = .ok index ∧ ring.get? index=none ∧ ∀ j < index,ring.get? j≠none := by
    induction n with
    | zero =>
      intro start hn htaken
      have hle := taken_le_size htaken
      omega
    | succ n ih =>
      intro start hn htaken
      obtain hfree | ⟨pk,ent,hholds,-⟩ := h.free_or_holds start
      · refine ⟨start,?_,hfree,htaken⟩
        rw [freeIndexFrom,bind_of_ok (read_free hfree)]
        rfl
      · have htaken' : ∀ j<start+1,ring.get? j≠none := by
          intro j hj
          obtain hlt | rfl := Nat.lt_succ_iff_lt_or_eq.mp hj
          · exact htaken j hlt
          · simp [show ring.get? j=_ from hholds]
        rw [freeIndexFrom,bind_of_ok (hL.read_holds hholds)]
        exact ih (start+1) (by omega) htaken'
  exact hsearch (ring.size+1) 0 (by omega) (by simp)

theorem get?_set_of_free {strBytes added : Bytes} (hfree : ring.get? i=none) {j : ℕ} (hj : ring.get? j=some strBytes) :
    (ring.set i added).get? j=some strBytes := by
  rw [Dict.get?_set_of_ne,hj]
  rintro rfl
  rw [hfree] at hj
  cases hj

/-- What is added is put into the first free slot, unless the fingerprint is there. -/
theorem addPrivateKey_ok (hl : WordList wordList) (hL : L.Lawful) (h : Sound L ring) {mnemonic passphrase : Text}
    {key : PrivateKey} (hadd : addPrivateKey E wordList L ring mnemonic passphrase = .ok (key,ring')) :
    ∃ ent,bytesFromMnemonic E wordList mnemonic = .ok ent ∧ EntropyLength ent ∧
      keyOf E wordList L ent passphrase = .ok key ∧
      ((Visible L ring (L.getFingerprint (L.getG1 key)) ∧ ring'=ring) ∨
        ¬ Visible L ring (L.getFingerprint (L.getG1 key)) ∧ ∃ index,ring.get? index=none ∧
          (∀ j < index,ring.get? j≠none) ∧ ring'=ring.set index (L.toBytes (L.getG1 key)++ent)) := by
  obtain ⟨index,hindex,hfree,hfirst⟩ := getFreePrivateKeyIndex_ok hL h
  obtain ⟨pks,hpks,hvisible⟩ := getAllPublicKeys_ok hL h
  unfold addPrivateKey at hadd
  rw [bind_of_ok (mnemonicToSeed_ok hL mnemonic passphrase)] at hadd
  obtain ⟨ent,hent,hadd⟩ := bind_ok.mp hadd
  rw [bind_of_ok hindex] at hadd
  dsimp only at hadd
  rw [bind_of_ok hpks] at hadd
  have hlength : EntropyLength ent := by
    obtain ⟨k,groups,hspells⟩ := hl.bytesFromMnemonic_eq_ok.mp hent
    have hk := hspells.size
    have hlength := hspells.length
    simp only [List.mem_cons,List.not_mem_nil,or_false] at hk ⊢
    omega
  have hkey := keyOf_of_mnemonic hl hL hent passphrase
  refine ⟨ent,hent,hlength,?_⟩
  split_ifs at hadd with hthere
  · obtain ⟨rfl,rfl⟩ := Prod.mk.inj (Except.ok.inj hadd)
    exact ⟨hkey,Or.inl ⟨(hvisible _).mp hthere,rfl⟩⟩
  · obtain ⟨rfl,rfl⟩ := Prod.mk.inj (Except.ok.inj hadd)
    exact ⟨hkey,Or.inr ⟨fun hin => hthere ((hvisible _).mpr hin),index,hfree,hfirst,rfl⟩⟩

theorem deleteKeyByFingerprint_ok (hL : L.Lawful) (h : Sound L ring) (fingerprint : ℕ) :
    ∃ ring',deleteKeyByFingerprint L ring fingerprint = .ok ring' ∧ Within ring' ring ∧
      (∀ i pk ent,Holds L ring i pk ent → L.getFingerprint pk≠fingerprint → Holds L ring' i pk ent) ∧
      ¬ Visible L ring' fingerprint := by
  have hrule := overSlots_ok hL id
    (fun index pk _ ring =>
      if L.getFingerprint pk=fingerprint then return .yield (ring.erase index) else return .yield ring)
    (P := fun index ring' => Within ring' ring ∧
      (∀ i pk ent,Holds L ring i pk ent → L.getFingerprint pk≠fingerprint → Holds L ring' i pk ent) ∧
      Unseen L ring' fingerprint index)
    (Q := fun _ => False) (fun _ _ hP => hP.1.sound h) ?_ ?_ (s := ring)
    ⟨.refl ring,fun _ _ _ hholds _ => hholds,by simp [Unseen]⟩
  · obtain ⟨ring',hrun,hQ | ⟨hwithin,hkept,hgone⟩⟩ := hrule
    · exact absurd hQ not_false
    · refine ⟨ring',hrun,hwithin,hkept,?_⟩
      intro ⟨i,hi,pk,ent,hholds,hhas⟩
      exact hgone i (by omega) pk ent hholds hhas
  · intro index ring' ⟨hwithin,hkept,hgone⟩ hfree
    exact ⟨hwithin,hkept,hgone.free hfree⟩
  · intro index ring' pk ent ⟨hwithin,hkept,hgone⟩ _ hholds _
    by_cases hhas : L.getFingerprint pk=fingerprint
    · refine Or.inr ⟨ring'.erase index,by rw [if_pos hhas]; rfl,(within_erase ring' index).trans hwithin,?_,?_⟩
      · intro i pk' ent' hholds' hother
        have hne : index≠i := by
          rintro rfl
          obtain ⟨rfl,-⟩ := hL.holds_unique (hwithin.holds hholds) hholds'
          exact hother hhas
        unfold Holds
        rw [Dict.get?_erase,if_neg hne]
        exact hkept i pk' ent' hholds' hother
      · apply Unseen.free _ (by simp [Dict.get?_erase])
        exact fun i hi pk' ent' hholds' => hgone i hi pk' ent' ((within_erase ring' index).holds hholds')
    · exact Or.inr ⟨ring',by rw [if_neg hhas]; rfl,hwithin,hkept,hgone.other hL hholds hhas⟩

theorem deleteLoop_ok (hL : L.Lawful) (n index : ℕ) (deleteException emptySlot : Bool) (h : Sound L ring)
    (hn : ring.size+(MAX_KEYS+1-index)<n) :
    ∃ ring',deleteLoop L n index deleteException emptySlot ring = .ok ring' ∧ Within ring' ring ∧
      ∀ i,index ≤ i → i≤MAX_KEYS → ring'.get? i=none := by
  induction n generalizing ring index deleteException emptySlot with
  | zero => omega
  | succ n ih =>
    -- a round either leaves the loop, past the last slot, or comes closer to the end or makes the keyring smaller
    have hround (ring₁ : Keyring) (exception empty : Bool) (hwithin : Within ring₁ ring) (hempty : ring₁.get? index=none)
        (hsize : ring₁.size ≤ ring.size) (hless : MAX_KEYS < index → ring₁.size < ring.size ∨ empty=true ∨ exception=true) :
        ∃ ring',(if (empty ∨ exception) ∧ index > MAX_KEYS then return ring₁
            else deleteLoop L n (index+1) exception empty ring₁) = .ok ring' ∧ Within ring' ring ∧
          ∀ i,index ≤ i → i≤MAX_KEYS → ring'.get? i=none := by
      by_cases hstop : (empty ∨ exception) ∧ index > MAX_KEYS
      · rw [if_pos hstop]
        refine ⟨ring₁,rfl,hwithin,fun i hi hle => ?_⟩
        omega
      · rw [if_neg hstop]
        have hless' : ring₁.size+(MAX_KEYS+1-(index+1))<n := by
          by_cases hindex : MAX_KEYS < index
          · have hsmaller : ring₁.size < ring.size := by
              obtain hsmaller | hempty | hexception := hless hindex
              · exact hsmaller
              · exact absurd ⟨Or.inl hempty,hindex⟩ hstop
              · exact absurd ⟨Or.inr hexception,hindex⟩ hstop
            omega
          · omega
        obtain ⟨ring',hrun,hwithin',hgone⟩ := ih (index+1) exception empty (hwithin.sound h) hless'
        refine ⟨ring',hrun,hwithin'.trans hwithin,fun i hi hle => ?_⟩
        obtain rfl | hlt := Nat.eq_or_lt_of_le hi
        · obtain hi | hi := hwithin' index
          · exact hi
          · exact hi.trans hempty
        · exact hgone i hlt hle
    rw [deleteLoop]
    obtain hfree | ⟨pk,ent,hholds,-⟩ := h.free_or_holds index
    · have hcontains : ring.contains index=false := by simp [Dict.contains,hfree]
      rw [read_free hfree,hcontains]
      apply hround _ _ _ _ _ _ (fun _ => Or.inr (Or.inl rfl))
      · split_ifs
        · exact within_erase ring index
        · exact .refl ring
      · split_ifs
        · simp [Dict.get?_erase]
        · exact hfree
      · split_ifs
        · exact Dict.size_filter_le _ _
        · exact le_rfl
    · have hcontains : ring.contains index=true := by simp [Dict.contains,show ring.get? index=_ from hholds]
      have hsize := ring.size_erase hholds
      rw [hL.read_holds hholds,hcontains]
      apply hround (ring.erase index) _ _ (within_erase ring index) (by simp [Dict.get?_erase]) (by omega)
      intro _
      exact Or.inl (by omega)

theorem deleteAllKeys_ok (hL : L.Lawful) (h : Sound L ring) : ∃ ring',deleteAllKeys L ring = .ok ring' ∧ Within ring' ring ∧
    ∀ i≤MAX_KEYS,ring'.get? i=none := by
  obtain ⟨ring₁,hfirst,hwithin₁,hgone⟩ := deleteLoop_ok hL (ring.size+MAX_KEYS+3) 0 false true h (by omega)
  obtain ⟨ring',hsecond,hwithin,-⟩ :=
    deleteLoop_ok hL (ring₁.size+MAX_KEYS+3) 0 true true (hwithin₁.sound h) (by omega)
  refine ⟨ring',?_,hwithin.trans hwithin₁,fun i hi => ?_⟩
  · unfold deleteAllKeys
    rw [bind_of_ok hfirst,hsecond]
  · obtain hi' | hi' := hwithin i
    · exact hi'
    · exact hi'.trans (hgone i (Nat.zero_le i) hi)

end Changes

def KeyOp.Deletes (fingerprint : ℕ) : KeyOp → Prop
  | .addPrivateKey _ _ => False
  | .deleteKeyByFingerprint deleted => deleted=fingerprint
  | .deleteAllKeys => True

/-- What is in a slot stays there until it is deleted. -/
structure SlotStep (L : KeyLibrary PrivateKey G1Element) (op : KeyOp) (ring ring' : Keyring) : Prop where
  sound : Sound L ring'
  own : ∀ i strBytes,ring.get? i=some strBytes → ring'.get? i=none ∨ ring'.get? i=some strBytes
  kept : ∀ i pk ent,Holds L ring i pk ent → ¬ op.Deletes (L.getFingerprint pk) → Holds L ring' i pk ent

section Runs

theorem KeyOp.after_ok (op : KeyOp) (h : op.apply E wordList L ring = .ok ring') : op.after E wordList L ring=ring' := by
  unfold KeyOp.after
  rw [h]

theorem KeyOp.after_add {mnemonic passphrase : Text} {key : PrivateKey}
    (hadd : Keychain.addPrivateKey E wordList L ring mnemonic passphrase = .ok (key,ring')) :
    (KeyOp.addPrivateKey mnemonic passphrase).after E wordList L ring=ring' :=
  KeyOp.after_ok (.addPrivateKey mnemonic passphrase) (bind_of_ok hadd)

variable (hl : WordList wordList) (hL : L.Lawful)
include hl hL

theorem KeyOp.after_step (h : Sound L ring) (op : KeyOp) : SlotStep L op ring (op.after E wordList L ring) := by
  unfold KeyOp.after
  cases hop : op.apply E wordList L ring with
  | error e => exact ⟨h,fun _ _ hi => Or.inr hi,fun _ _ _ hholds _ => hholds⟩
  | ok ring' =>
    dsimp only
    cases op with
    | addPrivateKey mnemonic passphrase =>
      obtain ⟨⟨key,ring₁⟩,hadd,hring⟩ := bind_ok.mp hop
      obtain rfl : ring₁=ring' := Except.ok.inj hring
      obtain ⟨ent,-,hent,-,⟨-,rfl⟩ | ⟨-,index,hfree,-,rfl⟩⟩ := addPrivateKey_ok hl hL h hadd
      · exact ⟨h,fun _ _ hi => Or.inr hi,fun _ _ _ hholds _ => hholds⟩
      · refine ⟨fun i strBytes hi => ?_,fun _ _ hi => Or.inr (get?_set_of_free hfree hi),
          fun _ _ _ hholds _ => get?_set_of_free hfree hholds⟩
        rw [Dict.get?_set] at hi
        split_ifs at hi
        · exact ⟨_,ent,(Option.some.inj hi).symm,hent⟩
        · exact h i strBytes hi
    | deleteKeyByFingerprint fingerprint =>
      obtain ⟨ring₁,hrun,hwithin,hkept,-⟩ := deleteKeyByFingerprint_ok hL h fingerprint
      obtain rfl : ring₁=ring' := Except.ok.inj (hrun.symm.trans hop)
      exact ⟨hwithin.sound h,fun _ => hwithin.own,fun i pk ent hholds hother => hkept i pk ent hholds (Ne.symm hother)⟩
    | deleteAllKeys =>
      obtain ⟨ring₁,hrun,hwithin,-⟩ := deleteAllKeys_ok hL h
      obtain rfl : ring₁=ring' := Except.ok.inj (hrun.symm.trans hop)
      exact ⟨hwithin.sound h,fun _ => hwithin.own,fun _ _ _ _ hother => absurd trivial hother⟩

theorem after_sound (h : Sound L ring) (ops : List KeyOp) :
    Sound L (ops.foldl (fun ring op => op.after E wordList L ring) ring) := by
  induction ops generalizing ring with
  | nil => exact h
  | cons op ops ih => exact ih (KeyOp.after_step hl hL h op).sound

theorem ringAfter_sound (ops : List KeyOp) : Sound L (ringAfter E wordList L ops) :=
  after_sound hl hL (fun _ _ hi => by cases hi) ops

theorem after_kept (ops : List KeyOp) (h : Sound L ring) (hholds : Holds L ring i pk ent)
    (hkeep : ∀ op∈ops,¬ op.Deletes (L.getFingerprint pk)) :
    Holds L (ops.foldl (fun ring op => op.after E wordList L ring) ring) i pk ent := by
  induction ops generalizing ring with
  | nil => exact hholds
  | cons op ops ih =>
    have hstep := KeyOp.after_step (E := E) hl hL h op
    exact ih hstep.sound (hstep.kept i pk ent hholds (hkeep op List.mem_cons_self)) fun op' hop =>
      hkeep op' (List.mem_cons_of_mem op hop)

end Runs

variable (E wordList L)

/-- What a lookup gave, if anything, is a key of the fingerprint. -/
def Faithful (fingerprint : ℕ) (found : Option (PrivateKey × Bytes)) : Prop :=
  ∀ key ent,found=some (key,ent) → L.getFingerprint (L.getG1 key)=fingerprint

/-- The first passphrase opens the first slot that has the fingerprint. -/
def OpensFirst (ring : Keyring) (fingerprint : ℕ) (passphrases : List Text) : Prop :=
  ∀ i pk ent pp key,FirstWith L ring fingerprint i pk ent → passphrases.head?=some pp →
    keyOf E wordList L ent pp = .ok key → L.getFingerprint (L.getG1 key)=fingerprint

/-- The key is among those that any passphrases with its own open. -/
def Listed [DecidableEq G1Element] (ring : Keyring) (key : PrivateKey) (ent : Bytes) (passphrase : Text) : Prop :=
  ∀ passphrases,passphrase∈passphrases →
    ∃ keys,getAllPrivateKeys E wordList L ring passphrases = .ok keys ∧ (key,ent)∈keys

omit E wordList in
/-- The key is there, or its fingerprint is not and one of the slots that are looked at is free. -/
def HasRoom (ring : Keyring) (key : PrivateKey) (ent : Bytes) : Prop :=
  (∃ i≤MAX_KEYS,Holds L ring i (L.getG1 key) ent) ∨
    ¬ Visible L ring (L.getFingerprint (L.getG1 key)) ∧ ∃ i≤MAX_KEYS,ring.get? i=none

/-- The calls up to an addition that is accepted. -/
structure Accepted (before : List KeyOp) (mnemonic passphrase : Text) (key : PrivateKey) (ent : Bytes) : Prop where
  entropy : bytesFromMnemonic E wordList mnemonic = .ok ent
  added : ∃ ring',addPrivateKey E wordList L (ringAfter E wordList L before) mnemonic passphrase = .ok (key,ring')

/-- What a keychain is for: the lookup gives no key of another fingerprint, a key is listed from its addition
until its fingerprint is deleted, and no slot gets a second key. -/
structure Kept [DecidableEq G1Element] (ops : List KeyOp) (fingerprint : ℕ) (passphrases : List Text) : Prop where
  lookup : ∃ found,getPrivateKeyByFingerprint E wordList L (ringAfter E wordList L ops) fingerprint passphrases = .ok found ∧
    Faithful L fingerprint found
  listed : ∀ before mnemonic passphrase later key ent,before ++ .addPrivateKey mnemonic passphrase::later <+: ops →
    Accepted E wordList L before mnemonic passphrase key ent →
    (∀ op∈later,¬ op.Deletes (L.getFingerprint (L.getG1 key))) →
    Listed E wordList L (ringAfter E wordList L (before ++ .addPrivateKey mnemonic passphrase::later)) key ent passphrase
  own : ∀ before op,before++[op] <+: ops → ∀ i strBytes,(ringAfter E wordList L before).get? i=some strBytes →
    (ringAfter E wordList L (before++[op])).get? i=none ∨
      (ringAfter E wordList L (before++[op])).get? i=some strBytes

def Roomy (ops : List KeyOp) : Prop :=
  ∀ before mnemonic passphrase key ent,before++[.addPrivateKey mnemonic passphrase] <+: ops →
    Accepted E wordList L before mnemonic passphrase key ent → HasRoom L (ringAfter E wordList L before) key ent

variable {E wordList L}

theorem ringAfter_append (ops : List KeyOp) (op : KeyOp) :
    ringAfter E wordList L (ops++[op])=op.after E wordList L (ringAfter E wordList L ops) := by
  simp [ringAfter]

theorem addPrivateKey_accepted (hL : L.Lawful) (h : Sound L ring) {mnemonic : Text}
    (hent : bytesFromMnemonic E wordList mnemonic = .ok ent) (passphrase : Text) :
    ∃ key ring',addPrivateKey E wordList L ring mnemonic passphrase = .ok (key,ring') := by
  obtain ⟨index,hindex,-,-⟩ := getFreePrivateKeyIndex_ok hL h
  obtain ⟨pks,hpks,-⟩ := getAllPublicKeys_ok hL h
  unfold addPrivateKey
  rw [bind_of_ok (mnemonicToSeed_ok hL mnemonic passphrase),bind_of_ok hent,bind_of_ok hindex]
  dsimp only
  rw [bind_of_ok hpks]
  split_ifs
  · exact ⟨_,_,rfl⟩
  · exact ⟨_,_,rfl⟩

theorem faithful_iff (hl : WordList wordList) (hL : L.Lawful) (h : Sound L ring) {fingerprint : ℕ} {passphrases : List Text}
    {found : Option (PrivateKey × Bytes)}
    (hrun : getPrivateKeyByFingerprint E wordList L ring fingerprint passphrases = .ok found) :
    Faithful L fingerprint found ↔ OpensFirst E wordList L ring fingerprint passphrases := by
  obtain ⟨found',hrun',hfound⟩ := getPrivateKeyByFingerprint_ok (E := E) hl hL h fingerprint passphrases
  obtain rfl : found=found' := Except.ok.inj (hrun.symm.trans hrun')
  constructor
  · intro hright i pk ent pp key hfirst hpp hkey
    obtain ⟨j,pk',ent',pp',key',hfirst',hpp',hkey',rfl⟩ | ⟨-,hnone⟩ := hfound
    · obtain ⟨-,rfl⟩ := hfirst.unique hL hfirst'
      obtain rfl : pp=pp' := Option.some.inj (hpp.symm.trans hpp')
      obtain rfl : key=key' := Except.ok.inj (hkey.symm.trans hkey')
      exact hright key ent rfl
    · have hne : passphrases≠[] := by
        rintro rfl
        cases hpp
      exact absurd hfirst.found (hnone hne i (Nat.lt_succ_of_le hfirst.visible) pk ent hfirst.holds)
  · intro hopens key ent hsome
    obtain ⟨i,pk,ent',pp,key',hfirst,hpp,hkey,rfl⟩ | ⟨rfl,-⟩ := hfound
    · obtain ⟨rfl,rfl⟩ := Prod.mk.inj (Option.some.inj hsome)
      exact hopens i pk ent' pp key' hfirst hpp hkey
    · cases hsome

variable {key : PrivateKey} {passphrase : Text}

theorem listed_iff [DecidableEq G1Element] (hl : WordList wordList) (hL : L.Lawful) (h : Sound L ring)
    (hkey : keyOf E wordList L ent passphrase = .ok key) :
    Listed E wordList L ring key ent passphrase ↔ ∃ i≤MAX_KEYS,Holds L ring i (L.getG1 key) ent := by
  constructor
  · intro hlisted
    obtain ⟨keys,hrun,hmem⟩ := hlisted [passphrase] List.mem_cons_self
    obtain ⟨keys',hrun',hiff⟩ := getAllPrivateKeys_ok (E := E) hl hL h [passphrase]
    obtain rfl : keys=keys' := Except.ok.inj (hrun.symm.trans hrun')
    obtain ⟨i,hi,hholds,-⟩ := (hiff key ent).mp hmem
    exact ⟨i,hi,hholds⟩
  · intro ⟨i,hi,hholds⟩ passphrases hin
    obtain ⟨keys,hrun,hiff⟩ := getAllPrivateKeys_ok (E := E) hl hL h passphrases
    exact ⟨keys,hrun,(hiff key ent).mpr ⟨i,hi,hholds,passphrase,hin,hkey⟩⟩

theorem holds_iff_hasRoom (hl : WordList wordList) (hL : L.Lawful) (h : Sound L ring) {mnemonic : Text}
    (hadd : addPrivateKey E wordList L ring mnemonic passphrase = .ok (key,ring'))
    (hent : bytesFromMnemonic E wordList mnemonic = .ok ent) :
    (∃ i≤MAX_KEYS,Holds L ring' i (L.getG1 key) ent) ↔ HasRoom L ring key ent := by
  obtain ⟨ent',hent',-,-,hcase⟩ := addPrivateKey_ok hl hL h hadd
  obtain rfl : ent=ent' := Except.ok.inj (hent.symm.trans hent')
  obtain ⟨hvisible,rfl⟩ | ⟨hnew,index,hfree,hfirst,rfl⟩ := hcase
  · constructor
    · exact Or.inl
    · rintro (hthere | ⟨hnew,-⟩)
      · exact hthere
      · exact absurd hvisible hnew
  · have hnot : ¬ ∃ i≤MAX_KEYS,Holds L ring i (L.getG1 key) ent :=
      fun ⟨i,hi,hholds⟩ => hnew ⟨i,hi,_,ent,hholds,rfl⟩
    constructor
    · intro ⟨i,hi,hholds⟩
      by_cases hindex : index=i
      · exact Or.inr ⟨hnew,i,hi,hindex ▸ hfree⟩
      · unfold Holds at hholds
        rw [Dict.get?_set_of_ne _ _ hindex] at hholds
        exact absurd ⟨i,hi,hholds⟩ hnot
    · rintro (hthere | ⟨-,i,hi,hempty⟩)
      · exact absurd hthere hnot
      · have hle : index ≤ i := by
          by_contra hlt
          exact hfirst i (by omega) hempty
        exact ⟨index,hle.trans hi,Dict.get?_set_self _ _ _⟩

theorem Accepted.listed [DecidableEq G1Element] (hl : WordList wordList) (hL : L.Lawful) {before : List KeyOp}
    {mnemonic : Text} (h : Accepted E wordList L before mnemonic passphrase key ent)
    (hroom : HasRoom L (ringAfter E wordList L before) key ent) (later : List KeyOp)
    (hkeep : ∀ op∈later,¬ op.Deletes (L.getFingerprint (L.getG1 key))) :
    Listed E wordList L (ringAfter E wordList L (before ++ .addPrivateKey mnemonic passphrase::later)) key ent passphrase := by
  have hsound := ringAfter_sound (E := E) hl hL before
  obtain ⟨ring',hadd⟩ := h.added
  have happly := KeyOp.after_add hadd
  have hsound' : Sound L ring' := happly ▸ (KeyOp.after_step hl hL hsound _).sound
  obtain ⟨i,hi,hholds⟩ := (holds_iff_hasRoom hl hL hsound hadd h.entropy).mpr hroom
  have hrest : ringAfter E wordList L (before ++ .addPrivateKey mnemonic passphrase::later) =
      later.foldl (fun ring op => op.after E wordList L ring) ring' := by
    rw [← happly]
    simp [ringAfter]
  obtain ⟨ent',hent',-,hkey,-⟩ := addPrivateKey_ok hl hL hsound hadd
  obtain rfl : ent=ent' := Except.ok.inj (h.entropy.symm.trans hent')
  apply (listed_iff hl hL (ringAfter_sound hl hL _) hkey).mpr
  refine ⟨i,hi,?_⟩
  rw [hrest]
  exact after_kept hl hL later hsound' hholds hkeep

/-- In every keyring that calls can make a lookup by fingerprint returns, and it is right exactly when the first
passphrase opens the slot. -/
theorem lookup_faithful_iff (hl : WordList wordList) (hL : L.Lawful) (ops : List KeyOp) (fingerprint : ℕ)
    (passphrases : List Text) :
    ∃ found,getPrivateKeyByFingerprint E wordList L (ringAfter E wordList L ops) fingerprint passphrases = .ok found ∧
      (Faithful L fingerprint found ↔ OpensFirst E wordList L (ringAfter E wordList L ops) fingerprint passphrases) := by
  have hsound := ringAfter_sound (E := E) hl hL ops
  obtain ⟨found,hrun,-⟩ := getPrivateKeyByFingerprint_ok (E := E) hl hL hsound fingerprint passphrases
  exact ⟨found,hrun,faithful_iff hl hL hsound hrun⟩

section Letters

def letterKeys : KeyLibrary Bytes32 Bytes32 where
  normalize text := text.map fun c => UInt8.ofNat c.toNat
  pbkdf2Hmac _ salt := (List.range 64).map fun i => salt.getD i 0
  keyGen seed := BitVec.ofNat 256 (seed.getD 8 0).toNat
  getG1 key := key
  getFingerprint pk := pk.toNat
  toBytes pk := bytes32 pk++List.replicate 16 0
  fromBytes b := .ok (toBytes32 (b.take 32))
  deleteRaises := true

theorem letterKeys_lawful : letterKeys.Lawful := by
  constructor
  · simp [letterKeys]
  · simp [letterKeys,G1_SIZE,bytes32_length]
  · intro pk
    have htake (rest : Bytes) : (bytes32 pk++rest).take 32=bytes32 pk := by
      rw [← bytes32_length pk,List.take_left]
    simp [letterKeys,htake]

def tallyEntropy : Bytes := List.replicate 16 7

theorem exists_tallyMnemonic : ∃ mnemonic,bytesFromMnemonic tinyEnv tallyWords mnemonic = .ok tallyEntropy := by
  obtain ⟨k,groups,words,h⟩ := tallyWords_wordList.exists_spells (E := tinyEnv) (e := tallyEntropy) (by decide)
  exact ⟨_,tallyWords_wordList.reads_iff_writes.mpr (bytesToMnemonic_eq_ok.mpr ⟨k,groups,words,h,rfl⟩)⟩

/-- The keyring that has the key of `x`. -/
def letterRing : Keyring := Dict.empty.set 0 (letterKeys.toBytes 120++tallyEntropy)

/-- The keyring that has the key of `y` besides. -/
def lettersRing : Keyring := letterRing.set 1 (letterKeys.toBytes 121++tallyEntropy)

theorem letterRing_holds {i : ℕ} {pk : Bytes32} {ent : Bytes} (h : Holds letterKeys letterRing i pk ent) :
    i=0 ∧ pk=120 ∧ ent=tallyEntropy := by
  have hget := h
  unfold Holds letterRing at hget
  rw [Dict.get?_set] at hget
  split_ifs at hget with hi
  · have hfirst : Holds letterKeys letterRing i 120 tallyEntropy := by
      rw [← hi]
      exact Dict.get?_set_self _ _ _
    obtain ⟨hpk,hent⟩ := letterKeys_lawful.holds_unique h hfirst
    exact ⟨hi.symm,hpk,hent⟩
  · cases hget

theorem lettersRing_holds {i : ℕ} {pk : Bytes32} {ent : Bytes} (h : Holds letterKeys lettersRing i pk ent) :
    (i=0 ∧ pk=120 ∨ i=1 ∧ pk=121) ∧ ent=tallyEntropy := by
  have hget := h
  unfold Holds lettersRing at hget
  rw [Dict.get?_set] at hget
  split_ifs at hget with hi
  · have hsecond : Holds letterKeys lettersRing i 121 tallyEntropy := by
      rw [← hi]
      exact Dict.get?_set_self _ _ _
    obtain ⟨hpk,hent⟩ := letterKeys_lawful.holds_unique h hsecond
    exact ⟨Or.inr ⟨hi.symm,hpk⟩,hent⟩
  · obtain ⟨hi,hpk,hent⟩ := letterRing_holds hget
    exact ⟨Or.inl ⟨hi,hpk⟩,hent⟩

variable {mnemonic : Text} (hent : bytesFromMnemonic tinyEnv tallyWords mnemonic = .ok tallyEntropy)
include hent

theorem letter_key (c : Char) : keyOf tinyEnv tallyWords letterKeys tallyEntropy [c] =
    .ok (BitVec.ofNat 256 (UInt8.ofNat c.toNat).toNat) := by
  rw [keyOf_of_mnemonic tallyWords_wordList letterKeys_lawful hent]
  rfl

theorem letter_added {ring : Keyring} (h : Sound letterKeys ring) (c : Char) {key : Bytes32} {n : ℕ}
    (hc : BitVec.ofNat 256 (UInt8.ofNat c.toNat).toNat=key) (hnew : ¬ Visible letterKeys ring key.toNat)
    (hfree : ring.get? n=none) (htaken : ∀ j<n,ring.get? j≠none) :
    addPrivateKey tinyEnv tallyWords letterKeys ring mnemonic [c] =
      .ok (key,ring.set n (letterKeys.toBytes key++tallyEntropy)) := by
  obtain ⟨key',ring',hadd⟩ := addPrivateKey_accepted letterKeys_lawful h hent [c]
  obtain ⟨ent,hent',-,hkey,hcase⟩ := addPrivateKey_ok tallyWords_wordList letterKeys_lawful h hadd
  obtain rfl : tallyEntropy=ent := Except.ok.inj (hent.symm.trans hent')
  obtain rfl : key=key' := hc.symm.trans (Except.ok.inj ((letter_key hent c).symm.trans hkey))
  obtain ⟨hvisible,-⟩ | ⟨-,index,hfree',htaken',rfl⟩ := hcase
  · exact absurd hvisible hnew
  · obtain hlt | rfl | hlt := Nat.lt_trichotomy n index
    · exact absurd hfree (htaken' n hlt)
    · exact hadd
    · exact absurd hfree' (htaken index hlt)

theorem letter_added_first : addPrivateKey tinyEnv tallyWords letterKeys (ringAfter tinyEnv tallyWords letterKeys []) mnemonic
    ['x'] = .ok (120,letterRing) := by
  apply letter_added hent (ringAfter_sound tallyWords_wordList letterKeys_lawful []) 'x' (by decide)
  · intro ⟨i,_,pk,ent,hholds,_⟩
    cases hholds
  · rfl
  · intro j hj
    exact absurd hj (Nat.not_lt_zero j)

theorem ringAfter_letter : ringAfter tinyEnv tallyWords letterKeys [.addPrivateKey mnemonic ['x']]=letterRing :=
  KeyOp.after_add (letter_added_first hent)

theorem letter_added_second : addPrivateKey tinyEnv tallyWords letterKeys
    (ringAfter tinyEnv tallyWords letterKeys [.addPrivateKey mnemonic ['x']]) mnemonic ['y'] = .ok (121,lettersRing) := by
  have hsound := ringAfter_sound (E := tinyEnv) tallyWords_wordList letterKeys_lawful [.addPrivateKey mnemonic ['x']]
  rw [ringAfter_letter hent] at hsound ⊢
  apply letter_added hent hsound 'y' (by decide)
  · intro ⟨i,_,pk,ent,hholds,hfound⟩
    rw [(letterRing_holds hholds).2.1] at hfound
    exact absurd hfound (by decide)
  · rfl
  · intro j hj
    obtain rfl := Nat.lt_one_iff.mp hj
    simp [letterRing,Dict.get?_set_self]

theorem ringAfter_letters :
    ringAfter tinyEnv tallyWords letterKeys [.addPrivateKey mnemonic ['x'],.addPrivateKey mnemonic ['y']]=lettersRing :=
  KeyOp.after_add (letter_added_second hent)

theorem letters_unopened : ¬ OpensFirst tinyEnv tallyWords letterKeys (ringAfter tinyEnv tallyWords letterKeys
    [.addPrivateKey mnemonic ['x'],.addPrivateKey mnemonic ['y']]) 121 [['x'],['y']] := by
  rw [ringAfter_letters hent]
  intro hopens
  have hfirst : FirstWith letterKeys lettersRing 121 1 121 tallyEntropy := by
    refine ⟨by decide,Dict.get?_set_self _ _ _,by decide,?_⟩
    intro i hi pk ent hholds
    obtain ⟨⟨-,rfl⟩ | ⟨rfl,-⟩,-⟩ := lettersRing_holds hholds
    · decide
    · exact absurd hi (lt_irrefl 1)
  exact absurd (hopens 1 121 tallyEntropy ['x'] _ hfirst rfl (letter_key hent 'x')) (by decide)

end Letters

/-- A key under another passphrase than the first is found, and comes back as the key of the first. -/
theorem lookup_unfaithful : ∃ mnemonic key ent,getPrivateKeyByFingerprint tinyEnv tallyWords letterKeys
    (ringAfter tinyEnv tallyWords letterKeys [.addPrivateKey mnemonic ['x'],.addPrivateKey mnemonic ['y']]) 121
      [['x'],['y']] = .ok (some (key,ent)) ∧ letterKeys.getFingerprint (letterKeys.getG1 key)≠121 := by
  obtain ⟨mnemonic,hent⟩ := exists_tallyMnemonic
  obtain ⟨found,hrun,hiff⟩ := lookup_faithful_iff (E := tinyEnv) tallyWords_wordList letterKeys_lawful
    [.addPrivateKey mnemonic ['x'],.addPrivateKey mnemonic ['y']] 121 [['x'],['y']]
  have hwrong : ¬ Faithful letterKeys 121 found := by
    rw [hiff]
    exact letters_unopened hent
  unfold Faithful at hwrong
  push Not at hwrong
  obtain ⟨key,ent,rfl,hother⟩ := hwrong
  exact ⟨mnemonic,key,ent,hrun,hother⟩

/-- A key that is added is listed exactly when there is room for it, and then until it is deleted. -/
theorem added_listed_iff [DecidableEq G1Element] (hl : WordList wordList) (hL : L.Lawful) (ops : List KeyOp)
    {mnemonic passphrase : Text} {key : PrivateKey} {ring' : Keyring}
    (hadd : addPrivateKey E wordList L (ringAfter E wordList L ops) mnemonic passphrase = .ok (key,ring')) :
    ∃ ent,bytesFromMnemonic E wordList mnemonic = .ok ent ∧
      (Listed E wordList L ring' key ent passphrase ↔ HasRoom L (ringAfter E wordList L ops) key ent) ∧
      ∀ later,HasRoom L (ringAfter E wordList L ops) key ent →
        (∀ op∈later,¬ op.Deletes (L.getFingerprint (L.getG1 key))) →
        Listed E wordList L (ringAfter E wordList L (ops ++ .addPrivateKey mnemonic passphrase::later)) key ent passphrase := by
  have hsound := ringAfter_sound (E := E) hl hL ops
  have hsound' : Sound L ring' := KeyOp.after_add hadd ▸ (KeyOp.after_step hl hL hsound _).sound
  obtain ⟨ent,hent,-,hkey,-⟩ := addPrivateKey_ok hl hL hsound hadd
  have hroom := holds_iff_hasRoom hl hL hsound hadd hent
  refine ⟨ent,hent,(listed_iff hl hL hsound' hkey).trans hroom,?_⟩
  intro later hasRoom hkeep
  exact Accepted.listed hl hL ⟨hent,ring',hadd⟩ hasRoom later hkeep

/-- The key of `y` joins that of `x`, which is deleted then. -/
theorem added_listed_letter : ∃ mnemonic,
    Listed tinyEnv tallyWords letterKeys lettersRing 121 tallyEntropy ['y'] ∧
      Listed tinyEnv tallyWords letterKeys (ringAfter tinyEnv tallyWords letterKeys
        [.addPrivateKey mnemonic ['x'],.addPrivateKey mnemonic ['y'],.deleteKeyByFingerprint 120]) 121 tallyEntropy ['y'] := by
  obtain ⟨mnemonic,hent⟩ := exists_tallyMnemonic
  obtain ⟨ent,hent',hiff,hkept⟩ := added_listed_iff tallyWords_wordList letterKeys_lawful [.addPrivateKey mnemonic ['x']]
    (letter_added_second hent)
  obtain rfl : tallyEntropy=ent := Except.ok.inj (hent.symm.trans hent')
  have hroom : HasRoom letterKeys (ringAfter tinyEnv tallyWords letterKeys [.addPrivateKey mnemonic ['x']]) 121 tallyEntropy := by
    rw [ringAfter_letter hent]
    refine Or.inr ⟨?_,1,by decide,rfl⟩
    intro ⟨i,_,pk,ent,hholds,hfound⟩
    rw [(letterRing_holds hholds).2.1] at hfound
    exact absurd hfound (by decide)
  refine ⟨mnemonic,hiff.mpr hroom,hkept [.deleteKeyByFingerprint 120] hroom ?_⟩
  intro op hop
  rw [List.mem_singleton.mp hop]
  intro hdeletes
  have hother : 120≠letterKeys.getFingerprint (letterKeys.getG1 121) := by decide
  exact hother hdeletes

/-- In every run, no call writes over a slot that is taken, and after a call to delete nothing to find is left. -/
theorem slots_own (hl : WordList wordList) (hL : L.Lawful) (ops : List KeyOp) :
    (∀ op i strBytes,(ringAfter E wordList L ops).get? i=some strBytes →
      (ringAfter E wordList L (ops++[op])).get? i=none ∨ (ringAfter E wordList L (ops++[op])).get? i=some strBytes) ∧
    (∀ fingerprint,¬ Visible L (ringAfter E wordList L (ops++[.deleteKeyByFingerprint fingerprint])) fingerprint) ∧
    ∀ i≤MAX_KEYS,(ringAfter E wordList L (ops++[.deleteAllKeys])).get? i=none := by
  have hsound := ringAfter_sound (E := E) hl hL ops
  refine ⟨fun op i strBytes hi => ?_,fun fingerprint => ?_,?_⟩
  · rw [ringAfter_append]
    exact (KeyOp.after_step hl hL hsound op).own i strBytes hi
  · obtain ⟨ring',hrun,-,-,hgone⟩ := deleteKeyByFingerprint_ok hL hsound fingerprint
    rw [ringAfter_append,KeyOp.after_ok (.deleteKeyByFingerprint fingerprint) hrun]
    exact hgone
  · obtain ⟨ring',hrun,-,hgone⟩ := deleteAllKeys_ok hL hsound
    rw [ringAfter_append,KeyOp.after_ok .deleteAllKeys hrun]
    exact hgone

/-- The slots of the keys of `x` and `y`: the second addition leaves the first, and the deletions free them. -/
theorem slots_own_letters : ∃ mnemonic,letterRing.get? 0≠none ∧ lettersRing.get? 0=letterRing.get? 0 ∧
    Visible letterKeys lettersRing 120 ∧ ¬ Visible letterKeys (ringAfter tinyEnv tallyWords letterKeys
      [.addPrivateKey mnemonic ['x'],.addPrivateKey mnemonic ['y'],.deleteKeyByFingerprint 120]) 120 ∧
    (ringAfter tinyEnv tallyWords letterKeys
      [.addPrivateKey mnemonic ['x'],.addPrivateKey mnemonic ['y'],.deleteAllKeys]).get? 1=none := by
  obtain ⟨mnemonic,hent⟩ := exists_tallyMnemonic
  have hfirst : letterRing.get? 0=some (letterKeys.toBytes 120++tallyEntropy) := Dict.get?_set_self _ _ _
  have hown := (slots_own (E := tinyEnv) tallyWords_wordList letterKeys_lawful [.addPrivateKey mnemonic ['x']]).1
    (.addPrivateKey mnemonic ['y']) 0 (letterKeys.toBytes 120++tallyEntropy)
  obtain ⟨-,hdeleted,hall⟩ := slots_own (E := tinyEnv) tallyWords_wordList letterKeys_lawful
    [.addPrivateKey mnemonic ['x'],.addPrivateKey mnemonic ['y']]
  rw [ringAfter_letter hent,List.singleton_append,ringAfter_letters hent] at hown
  have hkept : lettersRing.get? 0=letterRing.get? 0 := by
    obtain hnone | hsame := hown hfirst
    · exact absurd hnone (by decide)
    · exact hsame.trans hfirst.symm
  refine ⟨mnemonic,?_,hkept,?_,hdeleted 120,hall 1 (by decide)⟩
  · rw [hfirst]
    exact Option.some_ne_none _
  · exact ⟨0,Nat.zero_le _,120,tallyEntropy,hkept.trans hfirst,by decide⟩

/-- Over every run the keychain is what it is for exactly when there was room for every key that was accepted, and
the first passphrase opens the slot that the lookup finds. -/
theorem kept_iff [DecidableEq G1Element] (hl : WordList wordList) (hL : L.Lawful) (ops : List KeyOp) (fingerprint : ℕ)
    (passphrases : List Text) : Kept E wordList L ops fingerprint passphrases ↔
      OpensFirst E wordList L (ringAfter E wordList L ops) fingerprint passphrases ∧ Roomy E wordList L ops := by
  have hsound := ringAfter_sound (E := E) hl hL ops
  constructor
  · intro h
    obtain ⟨found,hrun,hright⟩ := h.lookup
    refine ⟨(faithful_iff hl hL hsound hrun).mp hright,?_⟩
    intro before mnemonic passphrase key ent hprefix haccepted
    have hbefore := ringAfter_sound (E := E) hl hL before
    obtain ⟨ring',hadd⟩ := haccepted.added
    obtain ⟨ent',hent',-,hkey,-⟩ := addPrivateKey_ok hl hL hbefore hadd
    obtain rfl : ent=ent' := Except.ok.inj (haccepted.entropy.symm.trans hent')
    have hlisted := h.listed before mnemonic passphrase [] key ent hprefix haccepted (by simp)
    rw [ringAfter_append,KeyOp.after_add hadd] at hlisted
    have hsound' : Sound L ring' := KeyOp.after_add hadd ▸ (KeyOp.after_step hl hL hbefore _).sound
    exact (holds_iff_hasRoom hl hL hbefore hadd haccepted.entropy).mp ((listed_iff hl hL hsound' hkey).mp hlisted)
  · intro ⟨hopens,hroomy⟩
    obtain ⟨found,hrun,-⟩ := getPrivateKeyByFingerprint_ok (E := E) hl hL hsound fingerprint passphrases
    refine ⟨⟨found,hrun,(faithful_iff hl hL hsound hrun).mpr hopens⟩,?_,?_⟩
    · intro before mnemonic passphrase later key ent hprefix haccepted hkeep
      have hsplit : before++[.addPrivateKey mnemonic passphrase] <+: before ++ .addPrivateKey mnemonic passphrase::later :=
        ⟨later,by simp⟩
      have hroom := hroomy before mnemonic passphrase key ent (hsplit.trans hprefix) haccepted
      exact haccepted.listed hl hL hroom later hkeep
    · intro before op _ i strBytes hi
      rw [ringAfter_append]
      exact (KeyOp.after_step hl hL (ringAfter_sound hl hL before) op).own i strBytes hi

theorem prefix_two {α : Type} {before : List α} {op a b : α} (h : before++[op] <+: [a,b]) :
    before=[] ∧ op=a ∨ before=[a] ∧ op=b := by
  obtain ⟨rest,hrest⟩ := h
  obtain _ | ⟨c,_ | ⟨d,before⟩⟩ := before <;> simp_all

/-- Two keys under one mnemonic, and a lookup with the passphrase of the second. -/
theorem kept_iff_letters : ∃ mnemonic,Kept tinyEnv tallyWords letterKeys
    [.addPrivateKey mnemonic ['x'],.addPrivateKey mnemonic ['y']] 121 [['y']] := by
  obtain ⟨mnemonic,hent⟩ := exists_tallyMnemonic
  refine ⟨mnemonic,(kept_iff (E := tinyEnv) tallyWords_wordList letterKeys_lawful _ _ _).mpr ⟨?_,?_⟩⟩
  · rw [ringAfter_letters hent]
    intro i pk ent pp key hfirst hpp hkey
    obtain ⟨-,rfl⟩ := lettersRing_holds hfirst.holds
    obtain rfl : ['y']=pp := Option.some.inj hpp
    rw [← Except.ok.inj ((letter_key hent 'y').symm.trans hkey)]
    decide
  · intro before mnemonic' passphrase key ent hprefix ⟨hent',ring',hadd⟩
    obtain ⟨rfl,hop⟩ | ⟨rfl,hop⟩ := prefix_two hprefix
    · obtain ⟨rfl,rfl⟩ := KeyOp.addPrivateKey.inj hop
      obtain ⟨rfl,-⟩ := Prod.mk.inj (Except.ok.inj ((letter_added_first hent).symm.trans hadd))
      refine Or.inr ⟨?_,0,Nat.zero_le _,rfl⟩
      intro ⟨i,_,pk,ent,hholds,_⟩
      cases hholds
    · obtain ⟨rfl,rfl⟩ := KeyOp.addPrivateKey.inj hop
      obtain ⟨rfl,-⟩ := Prod.mk.inj (Except.ok.inj ((letter_added_second hent).symm.trans hadd))
      rw [ringAfter_letter hent]
      refine Or.inr ⟨?_,1,by decide,rfl⟩
      intro ⟨i,_,pk,ent,hholds,hfound⟩
      rw [(letterRing_holds hholds).2.1] at hfound
      exact absurd hfound (by decide)

/-- With the passphrases in the other order the lookup of the second key gives that of the first. -/
theorem not_kept_letters : ∃ mnemonic,¬ Kept tinyEnv tallyWords letterKeys
    [.addPrivateKey mnemonic ['x'],.addPrivateKey mnemonic ['y']] 121 [['x'],['y']] := by
  obtain ⟨mnemonic,hent⟩ := exists_tallyMnemonic
  refine ⟨mnemonic,fun h => ?_⟩
  obtain ⟨found,hrun,hright⟩ := h.lookup
  have hsound := ringAfter_sound (E := tinyEnv) tallyWords_wordList letterKeys_lawful
    [.addPrivateKey mnemonic ['x'],.addPrivateKey mnemonic ['y']]
  exact letters_unopened hent ((faithful_iff tallyWords_wordList letterKeys_lawful hsound hrun).mp hright)

end Keychain
end RoseChain
