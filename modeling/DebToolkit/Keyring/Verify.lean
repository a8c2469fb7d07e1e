import DebToolkit.Control.Paragraph

/-!
# Keyrings

`Keyring`: certificates, and the verification of `InRelease` and `Release.gpg` with them. What the crate
`pgp` does is a parameter, `Pgp`.

* `Verdict`: a message is accepted for all keys that signed it and pass the policy, or an error says why
  there is none;
* `verification_spec`: both verifications give the verdict;
* `exists_verifyClearsigned`, `exists_verifyDetached`: under the standard policy a message is accepted if a
  key that is neither out of date nor revoked signed it.
-/

namespace DebToolkit

open Text

/-! ### Certificates -/

inductive Fingerprint
  | v2 (b : List UInt8)
  | v3 (b : List UInt8)
  | v4 (b : List UInt8)
  | v5 (b : List UInt8)
  | v6 (b : List UInt8)
  | unknown (b : List UInt8)
  deriving DecidableEq

def hexDigit (n : ℕ) : Char := "0123456789abcdef".toList.getD n '0'

/-- `hex::encode`. -/
def hexEncode (b : List UInt8) : Str := b.flatMap fun x => [hexDigit (x.toNat / 16), hexDigit (x.toNat % 16)]

def fpHex : Fingerprint → Str
  | .v2 b => hexEncode b
  | .v3 b => hexEncode b
  | .v4 b => hexEncode b
  | .v5 b => hexEncode b
  | .v6 b => hexEncode b
  | .unknown b => hexEncode b

/-- Certificates `κ`, clearsigned messages `μ` and detached signatures `σ`. -/
structure Pgp (κ μ σ : Type) where
  fingerprint : κ → Fingerprint
  /-- The instant, if there is one, in nanoseconds since the epoch. -/
  expiresAt : κ → Option ℤ
  /-- `details.revocation_signatures`. -/
  revocationSignatures : κ → List σ
  /-- The user ids, of bytes. -/
  users : κ → List (List UInt8)
  /-- `SignedPublicKey::from_armor_many`. -/
  fromArmorMany : List UInt8 → Except String (List (Except String κ))
  /-- `SignedPublicKey::from_bytes_many`. -/
  fromBytesMany : List UInt8 → List (Except String κ)
  toBytes : κ → Except String (List UInt8)
  toArmoredBytes : κ → Except String (List UInt8)
  /-- `CleartextSignedMessage::from_armor`. -/
  fromArmor : List UInt8 → Except String μ
  /-- `CleartextSignedMessage::verify` succeeds. -/
  verify : μ → κ → Bool
  signedText : μ → List UInt8
  /-- `StandaloneSignature::from_armor_single`. -/
  fromArmorSingle : List UInt8 → Except String σ
  /-- `StandaloneSignature::verify` succeeds. -/
  verifyData : σ → κ → List UInt8 → Bool

inductive KeyringError
  | load (text : String)
  | verification (text : String)
  | noSignature
  | keyExpired (text : String)
  | keyRevoked (text : String)
  | io (text : String)
  deriving DecidableEq

structure VerifyResult where
  signedBy : List Str
  message : List UInt8
  deriving DecidableEq

structure VerificationPolicy where
  referenceTime : Option ℤ
  allowExpired : Bool
  allowRevoked : Bool

/-- `VerificationPolicy::default`. -/
def VerificationPolicy.standard : VerificationPolicy := ⟨none, false, false⟩

structure Keyring (κ : Type) where
  keys : List κ

structure KeyInfo where
  fingerprint : Str
  userIds : List Str
  expiresAt : Option ℤ

namespace Keyring

variable {κ μ σ : Type} (pgp : Pgp κ μ σ)

/-! ### The certificates of a keyring -/

def empty : Keyring κ := ⟨[]⟩

def keyCount (ring : Keyring κ) : ℕ := ring.keys.length

def merge (ring other : Keyring κ) : Keyring κ := ⟨ring.keys ++ other.keys⟩

/-- `fromUtf8Lossy` is `String::from_utf8_lossy`. -/
def list (fromUtf8Lossy : List UInt8 → Str) (ring : Keyring κ) : List KeyInfo :=
  ring.keys.map fun key => ⟨fpHex (pgp.fingerprint key), (pgp.users key).map fromUtf8Lossy, pgp.expiresAt key⟩

/-- `-----`. -/
def dashes : List UInt8 := List.replicate 5 0x2d

/-- Armored or binary key material. -/
def readKeys (data : List UInt8) : Except KeyringError (List (Except String κ)) :=
  if dashes <+: data then (pgp.fromArmorMany data).mapError .load else .ok (pgp.fromBytesMany data)

/-- What is not a certificate is skipped. -/
def loadBytes (data : List UInt8) : Except KeyringError (Keyring κ) :=
  if data = [] then .error (.load "empty key material")
  else do
    let results ← readKeys pgp data
    let keys := results.filterMap Except.toOption
    if keys.isEmpty then throw (.load "no valid certificates found in key material") else return ⟨keys⟩

def importKeys (ring : Keyring κ) (data : List UInt8) : Except KeyringError (Keyring κ) := do
  let other ← loadBytes pgp data
  return ⟨ring.keys ++ other.keys⟩

/-- The fingerprint is the one that was asked for. -/
def named (fingerprint : Str) (key : κ) : Bool :=
  toLowercase (fpHex (pgp.fingerprint key)) = toLowercase fingerprint

def remove (ring : Keyring κ) (fingerprint : Str) : Keyring κ × ℕ :=
  let keys := ring.keys.filter fun key => !named pgp fingerprint key
  (⟨keys⟩, ring.keys.length - keys.length)

def removeById (ring : Keyring κ) (id : Str) : Keyring κ × ℕ := remove pgp ring id

/-! ### Verification -/

/-- The comparison at `when`. -/
def keyExpiredAt (key : κ) (time : ℤ) : Bool :=
  match pgp.expiresAt key with
  | some expiry => decide (expiry < time)
  | none => false

def keyIsRevoked (key : κ) : Bool := !(pgp.revocationSignatures key).isEmpty

/-- What the loop over the keys keeps. -/
structure Tally where
  signedBy : List Str
  expiredHit : Bool
  revokedHit : Bool

section Verify

variable (policy : VerificationPolicy) (time : ℤ) (verifies : κ → Bool)

def checkKey (tally : Tally) (key : κ) : Tally :=
  if !verifies key then tally
  else if !policy.allowExpired && keyExpiredAt pgp key time then { tally with expiredHit := true }
  else if !policy.allowRevoked && keyIsRevoked pgp key then { tally with revokedHit := true }
  else { tally with signedBy := tally.signedBy ++ [fpHex (pgp.fingerprint key)] }

end Verify

/-- The loop of both verifications. `now` is `Utc::now`. -/
def verifyWith (now : ℤ) (policy : VerificationPolicy) (verifies : κ → Bool) (message : List UInt8)
    (ring : Keyring κ) : Except KeyringError VerifyResult :=
  let tally := ring.keys.foldl (checkKey pgp policy (policy.referenceTime.getD now) verifies) ⟨[], false, false⟩
  if tally.signedBy = [] then
    if tally.expiredHit then .error (.keyExpired "a matching signature was produced by an expired key")
    else if tally.revokedHit then .error (.keyRevoked "a matching signature was produced by a revoked key")
    else .error .noSignature
  else .ok ⟨tally.signedBy, message⟩

def verifyClearsignedWith (now : ℤ) (ring : Keyring κ) (data : List UInt8) (policy : VerificationPolicy) :
    Except KeyringError VerifyResult := do
  let msg ← (pgp.fromArmor data).mapError .verification
  verifyWith pgp now policy (pgp.verify msg) (pgp.signedText msg) ring

def verifyClearsigned (now : ℤ) (ring : Keyring κ) (data : List UInt8) : Except KeyringError VerifyResult :=
  verifyClearsignedWith pgp now ring data .standard

def verifyDetachedWith (now : ℤ) (ring : Keyring κ) (data signature : List UInt8)
    (policy : VerificationPolicy) : Except KeyringError VerifyResult := do
  let sig ← (pgp.fromArmorSingle signature).mapError .verification
  verifyWith pgp now policy (fun key => pgp.verifyData sig key data) data ring

def verifyDetached (now : ℤ) (ring : Keyring κ) (data signature : List UInt8) :
    Except KeyringError VerifyResult :=
  verifyDetachedWith pgp now ring data signature .standard

/-! ### What is accepted -/

/-- The policy does not object to the key. -/
def passes (policy : VerificationPolicy) (time : ℤ) (key : κ) : Bool :=
  (policy.allowExpired || !keyExpiredAt pgp key time) && (policy.allowRevoked || !keyIsRevoked pgp key)

/-- The keys that signed and pass. -/
def signers (policy : VerificationPolicy) (time : ℤ) (verifies : κ → Bool) (keys : List κ) : List κ :=
  keys.filter fun key => verifies key && passes pgp policy time key

section Spec

variable (policy : VerificationPolicy) (time : ℤ) (verifies : κ → Bool)

/-- The key signed, but is out of date. -/
def expiredHit (key : κ) : Bool := verifies key && !policy.allowExpired && keyExpiredAt pgp key time

/-- The key signed and is not out of date, but revoked. -/
def revokedHit (key : κ) : Bool :=
  verifies key && !expiredHit pgp policy time verifies key && !policy.allowRevoked && keyIsRevoked pgp key

variable {pgp policy time verifies} {now : ℤ} {keys : List κ} {ring : Keyring κ} {message : List UInt8}

/-- One pass of the loop. -/
theorem checkKey_eq (tally : Tally) (key : κ) : checkKey pgp policy time verifies tally key =
    ⟨tally.signedBy ++ (signers pgp policy time verifies [key]).map fun key => fpHex (pgp.fingerprint key),
      tally.expiredHit || expiredHit pgp policy time verifies key,
      tally.revokedHit || revokedHit pgp policy time verifies key⟩ := by
  have hsigners : signers pgp policy time verifies [key] =
      bif verifies key && passes pgp policy time key then [key] else [] := List.filter_singleton ..
  rw [hsigners]
  unfold checkKey revokedHit expiredHit passes
  cases verifies key <;> cases policy.allowExpired <;> cases keyExpiredAt pgp key time <;>
    cases policy.allowRevoked <;> cases keyIsRevoked pgp key <;> simp

/-- The loop. -/
theorem foldl_checkKey (tally : Tally) : keys.foldl (checkKey pgp policy time verifies) tally =
    ⟨tally.signedBy ++ (signers pgp policy time verifies keys).map fun key => fpHex (pgp.fingerprint key),
      tally.expiredHit || keys.any (expiredHit pgp policy time verifies),
      tally.revokedHit || keys.any (revokedHit pgp policy time verifies)⟩ := by
  induction keys generalizing tally with
  | nil => simp [signers]
  | cons key keys ih =>
    have hsigners : signers pgp policy time verifies (key :: keys) =
        signers pgp policy time verifies [key] ++ signers pgp policy time verifies keys :=
      List.filter_append [key] keys
    rw [List.foldl_cons, ih, checkKey_eq, hsigners, List.map_append, List.append_assoc, List.any_cons,
      List.any_cons, Bool.or_assoc, Bool.or_assoc]

/-- A key that signed is used unless it is out of date or revoked. -/
theorem hit_of_verifies {key : κ} (h : verifies key = true) : passes pgp policy time key = true ∨
    expiredHit pgp policy time verifies key = true ∨ revokedHit pgp policy time verifies key = true := by
  unfold passes revokedHit expiredHit
  rw [h]
  cases policy.allowExpired <;> cases keyExpiredAt pgp key time <;>
    cases policy.allowRevoked <;> cases keyIsRevoked pgp key <;> simp

/-- The verdict on a message: the keys that signed it and pass the policy, and if there are none the reason:
a key that signed is out of date, or else one is revoked, or else no key signed. -/
inductive Verdict (pgp : Pgp κ μ σ) (policy : VerificationPolicy) (time : ℤ) (verifies : κ → Bool)
    (message : List UInt8) (keys : List κ) : Except KeyringError VerifyResult → Prop
  | accepted (hsome : ∃ key ∈ keys, verifies key = true ∧ passes pgp policy time key = true) :
    Verdict pgp policy time verifies message keys
      (.ok ⟨(signers pgp policy time verifies keys).map fun key => fpHex (pgp.fingerprint key), message⟩)
  | expired (hnone : ∀ key ∈ keys, verifies key = true → passes pgp policy time key = false)
    (hsome : ∃ key ∈ keys, expiredHit pgp policy time verifies key = true) :
    Verdict pgp policy time verifies message keys
      (.error (.keyExpired "a matching signature was produced by an expired key"))
  | revoked (hnone : ∀ key ∈ keys, verifies key = true → passes pgp policy time key = false)
    (hvalid : ∀ key ∈ keys, expiredHit pgp policy time verifies key = false)
    (hsome : ∃ key ∈ keys, revokedHit pgp policy time verifies key = true) :
    Verdict pgp policy time verifies message keys
      (.error (.keyRevoked "a matching signature was produced by a revoked key"))
  | unsigned (hnone : ∀ key ∈ keys, verifies key = false) :
    Verdict pgp policy time verifies message keys (.error .noSignature)

theorem signers_eq_nil : signers pgp policy time verifies keys = [] ↔
    ∀ key ∈ keys, verifies key = true → passes pgp policy time key = false := by
  rw [signers, List.filter_eq_nil_iff]
  refine forall₂_congr fun key _ => ?_
  cases verifies key <;> cases passes pgp policy time key <;> simp

theorem verifyWith_eq (htime : policy.referenceTime.getD now = time) :
    verifyWith pgp now policy verifies message ring =
      if (signers pgp policy time verifies ring.keys).map (fun key => fpHex (pgp.fingerprint key)) = [] then
        if ring.keys.any (expiredHit pgp policy time verifies) then
          .error (.keyExpired "a matching signature was produced by an expired key")
        else if ring.keys.any (revokedHit pgp policy time verifies) then
          .error (.keyRevoked "a matching signature was produced by a revoked key")
        else .error .noSignature
      else .ok ⟨(signers pgp policy time verifies ring.keys).map fun key => fpHex (pgp.fingerprint key),
        message⟩ := by
  rw [verifyWith, htime, foldl_checkKey]
  rfl

theorem any_hit {hit : κ → Bool} (h : ∀ key ∈ keys, hit key = false) : ¬ keys.any hit = true := by
  rw [List.any_eq_true]
  rintro ⟨key, hkey, hhit⟩
  rw [h key hkey] at hhit
  cases hhit

/-- **The loop gives the verdict.** -/
theorem verifyWith_spec {r : Except KeyringError VerifyResult} :
    verifyWith pgp now policy verifies message ring = r ↔
      Verdict pgp policy (policy.referenceTime.getD now) verifies message ring.keys r := by
  generalize htime : policy.referenceTime.getD now = time
  rw [verifyWith_eq htime]
  constructor
  · rintro rfl
    split_ifs with hsigners hexpired hrevoked
    · exact .expired (signers_eq_nil.1 (List.map_eq_nil_iff.1 hsigners)) (List.any_eq_true.1 hexpired)
    · refine .revoked (signers_eq_nil.1 (List.map_eq_nil_iff.1 hsigners)) (fun key hkey => ?_)
        (List.any_eq_true.1 hrevoked)
      exact Bool.eq_false_iff.2 fun h => hexpired (List.any_eq_true.2 ⟨key, hkey, h⟩)
    · refine .unsigned fun key hkey => Bool.eq_false_iff.2 fun hverifies => ?_
      obtain hpasses | hhit | hhit := @hit_of_verifies κ μ σ pgp policy time verifies key hverifies
      · rw [signers_eq_nil.1 (List.map_eq_nil_iff.1 hsigners) key hkey hverifies] at hpasses
        cases hpasses
      · exact hexpired (List.any_eq_true.2 ⟨key, hkey, hhit⟩)
      · exact hrevoked (List.any_eq_true.2 ⟨key, hkey, hhit⟩)
    · refine .accepted ?_
      by_contra hnone
      refine hsigners (List.map_eq_nil_iff.2 (signers_eq_nil.2 fun key hkey hverifies => ?_))
      refine Bool.eq_false_iff.2 fun hpasses => ?_
      exact hnone ⟨key, hkey, hverifies, hpasses⟩
  · intro h
    cases h with
    | accepted hsome =>
      refine if_neg fun hnil => ?_
      obtain ⟨key, hkey, hverifies, hpasses⟩ := hsome
      rw [signers_eq_nil.1 (List.map_eq_nil_iff.1 hnil) key hkey hverifies] at hpasses
      cases hpasses
    | expired hnone hsome =>
      rw [if_pos (List.map_eq_nil_iff.2 (signers_eq_nil.2 hnone)), if_pos (List.any_eq_true.2 hsome)]
    | revoked hnone hvalid hsome =>
      rw [if_pos (List.map_eq_nil_iff.2 (signers_eq_nil.2 hnone)), if_neg (any_hit hvalid),
        if_pos (List.any_eq_true.2 hsome)]
    | unsigned hnone =>
      have hsigners : signers pgp policy time verifies ring.keys = [] := by
        refine signers_eq_nil.2 fun key hkey hverifies => ?_
        rw [hnone key hkey] at hverifies
        cases hverifies
      have hexpired : ∀ key ∈ ring.keys, expiredHit pgp policy time verifies key = false := by
        intro key hkey
        rw [expiredHit, hnone key hkey]
        rfl
      have hrevoked : ∀ key ∈ ring.keys, revokedHit pgp policy time verifies key = false := by
        intro key hkey
        rw [revokedHit, hnone key hkey]
        rfl
      rw [if_pos (List.map_eq_nil_iff.2 hsigners), if_neg (any_hit hexpired), if_neg (any_hit hrevoked)]

/-- A message is accepted if a key of the ring signed it and passes. -/
theorem exists_verifyWith : (∃ r, verifyWith pgp now policy verifies message ring = .ok r) ↔
    ∃ key ∈ ring.keys,
      verifies key = true ∧ passes pgp policy (policy.referenceTime.getD now) key = true := by
  constructor
  · rintro ⟨r, h⟩
    cases verifyWith_spec.1 h with
    | accepted hsome => exact hsome
  · exact fun hsome => ⟨_, verifyWith_spec.2 (.accepted hsome)⟩

/-- The standard policy is for keys that are neither out of date nor revoked. -/
theorem passes_standard {key : κ} : passes pgp .standard time key = true ↔
    keyExpiredAt pgp key time = false ∧ keyIsRevoked pgp key = false := by
  rw [passes, Bool.and_eq_true, Bool.or_eq_true, Bool.or_eq_true, Bool.not_eq_true', Bool.not_eq_true']
  exact and_congr (or_iff_right Bool.false_ne_true) (or_iff_right Bool.false_ne_true)

section Judge

variable {α : Type} {x : Except String α} {judge : α → Except KeyringError VerifyResult}

/-- A message that cannot be read is an error, and one that can is judged. -/
theorem judged_iff {r : Except KeyringError VerifyResult} :
    (x.mapError KeyringError.verification >>= judge) = r ↔
      (∃ e, x = .error e ∧ r = .error (.verification e)) ∨ ∃ a, x = .ok a ∧ judge a = r := by
  obtain e | a := x
  · constructor
    · rintro rfl
      exact .inl ⟨e, rfl, rfl⟩
    · rintro (⟨e', he, rfl⟩ | ⟨a, ha, -⟩)
      · cases he
        rfl
      · cases ha
  · constructor
    · intro h
      exact .inr ⟨a, rfl, h⟩
    · rintro (⟨e, he, -⟩ | ⟨a', ha, h⟩)
      · cases he
      · cases ha
        exact h

theorem judged_eq_ok {r : VerifyResult} :
    (x.mapError KeyringError.verification >>= judge) = .ok r ↔ ∃ a, x = .ok a ∧ judge a = .ok r := by
  refine judged_iff.trans (or_iff_right ?_)
  rintro ⟨e, -, hr⟩
  cases hr

theorem exists_judged : (∃ r, (x.mapError KeyringError.verification >>= judge) = .ok r) ↔
    ∃ a, x = .ok a ∧ ∃ r, judge a = .ok r := by
  simp only [judged_eq_ok]
  rw [exists_comm]
  exact exists_congr fun a => exists_and_left

end Judge

theorem exists_verifyClearsignedWith {data : List UInt8} :
    (∃ r, verifyClearsignedWith pgp now ring data policy = .ok r) ↔
      ∃ msg, pgp.fromArmor data = .ok msg ∧ ∃ key ∈ ring.keys,
        pgp.verify msg key = true ∧ passes pgp policy (policy.referenceTime.getD now) key = true :=
  exists_judged.trans (exists_congr fun _ => and_congr_right fun _ => exists_verifyWith)

theorem exists_verifyDetachedWith {data signature : List UInt8} :
    (∃ r, verifyDetachedWith pgp now ring data signature policy = .ok r) ↔
      ∃ sig, pgp.fromArmorSingle signature = .ok sig ∧ ∃ key ∈ ring.keys,
        pgp.verifyData sig key data = true ∧
          passes pgp policy (policy.referenceTime.getD now) key = true :=
  exists_judged.trans (exists_congr fun _ => and_congr_right fun _ => exists_verifyWith)

/-- **A clearsigned message is accepted** if a key that is neither out of date nor revoked signed it. -/
theorem exists_verifyClearsigned {data : List UInt8} :
    (∃ r, verifyClearsigned pgp now ring data = .ok r) ↔
      ∃ msg, pgp.fromArmor data = .ok msg ∧ ∃ key ∈ ring.keys, pgp.verify msg key = true ∧
        keyExpiredAt pgp key now = false ∧ keyIsRevoked pgp key = false := by
  refine exists_verifyClearsignedWith.trans ?_
  simp only [passes_standard]
  rfl

/-- **So is data with a detached signature.** -/
theorem exists_verifyDetached {data signature : List UInt8} :
    (∃ r, verifyDetached pgp now ring data signature = .ok r) ↔
      ∃ sig, pgp.fromArmorSingle signature = .ok sig ∧ ∃ key ∈ ring.keys,
        pgp.verifyData sig key data = true ∧
          keyExpiredAt pgp key now = false ∧ keyIsRevoked pgp key = false := by
  refine exists_verifyDetachedWith.trans ?_
  simp only [passes_standard]
  rfl

end Spec

/-- **Both verifications give the verdict** on the keys of the ring, if there is a message to be judged. -/
theorem verification_spec (now : ℤ) (policy : VerificationPolicy) (ring : Keyring κ)
    (data signature : List UInt8) (r : Except KeyringError VerifyResult) :
    (verifyClearsignedWith pgp now ring data policy = r ↔
      (∃ e, pgp.fromArmor data = .error e ∧ r = .error (.verification e)) ∨
      ∃ msg, pgp.fromArmor data = .ok msg ∧
        Verdict pgp policy (policy.referenceTime.getD now) (pgp.verify msg) (pgp.signedText msg) ring.keys r) ∧
    (verifyDetachedWith pgp now ring data signature policy = r ↔
      (∃ e, pgp.fromArmorSingle signature = .error e ∧ r = .error (.verification e)) ∨
      ∃ sig, pgp.fromArmorSingle signature = .ok sig ∧
        Verdict pgp policy (policy.referenceTime.getD now) (fun key => pgp.verifyData sig key data) data
          ring.keys r) := by
  constructor
  · rw [verifyClearsignedWith, judged_iff]
    exact or_congr_right (exists_congr fun msg => and_congr_right fun _ => verifyWith_spec)
  · rw [verifyDetachedWith, judged_iff]
    exact or_congr_right (exists_congr fun sig => and_congr_right fun _ => verifyWith_spec)

end Keyring
end DebToolkit
