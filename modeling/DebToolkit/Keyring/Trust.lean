import DebToolkit.Keyring.Verify
import DebToolkit.Replay

/-!
# The keys that are trusted

Any run of operations on a keyring: `import`, `merge`, `remove` and `remove_by_id`.

* `run_keys`: the keyring is a list that is extended and thinned out;
* `mem_list_run`, `remove_eq_zero`: what is listed after a run, and when a removal finds nothing in the list;
* `trusted_run`: afterwards a message is accepted exactly if a key that signed it and passes the policy was
  added, and its fingerprint has not been removed since.
-/

namespace DebToolkit.Keyring

open Text

variable {κ μ σ : Type} (pgp : Pgp κ μ σ)

/-! ### Runs -/

inductive Op (κ : Type)
  | importKeys (data : List UInt8)
  | merge (other : Keyring κ)
  | remove (fingerprint : Str)
  | removeById (id : Str)

/-- An import that fails leaves the keyring as it is. -/
def step (ring : Keyring κ) : Op κ → Keyring κ
  | .importKeys data => (importKeys pgp ring data).toOption.getD ring
  | .merge other => merge ring other
  | .remove fingerprint => (remove pgp ring fingerprint).1
  | .removeById id => (removeById pgp ring id).1

def run (ring : Keyring κ) (ops : List (Op κ)) : Keyring κ := ops.foldl (step pgp) ring

/-- The certificates that can be read in the key material. -/
def certificates (data : List UInt8) : List κ := (loadBytes pgp data).toOption.elim [] Keyring.keys

/-- What an operation adds. -/
def Op.adds : Op κ → List κ
  | .importKeys data => certificates pgp data
  | .merge other => other.keys
  | .remove _ => []
  | .removeById _ => []

/-- The operation is the removal of the fingerprint of the key, in whatever case. -/
def Op.Removes (op : Op κ) (key : κ) : Prop := ∃ fingerprint,
  (op = .remove fingerprint ∨ op = .removeById fingerprint) ∧
    toLowercase fingerprint = fpHex (pgp.fingerprint key)

/-- The key was there or has been added, and has not been removed since. -/
def Trusted (ring : Keyring κ) (ops : List (Op κ)) (key : κ) : Prop :=
  (key ∈ ring.keys ∧ ∀ op ∈ ops, ¬ op.Removes pgp key) ∨
    ∃ before op after, ops = before ++ op :: after ∧ key ∈ op.adds pgp ∧
      ∀ op' ∈ after, ¬ op'.Removes pgp key

/-! ### The keyring as a list -/

def Op.event : Op κ → Replay.Event κ
  | .importKeys data => .add (certificates pgp data)
  | .merge other => .add other.keys
  | .remove fingerprint => .drop (named pgp fingerprint)
  | .removeById id => .drop (named pgp id)

variable {pgp} {ring : Keyring κ} {op : Op κ} {ops : List (Op κ)} {key : κ}

theorem step_keys : (step pgp ring op).keys = (op.event pgp).apply ring.keys := by
  cases op with
  | importKeys data =>
    show ((importKeys pgp ring data).toOption.getD ring).keys = ring.keys ++ certificates pgp data
    rw [importKeys, certificates]
    cases loadBytes pgp data with
    | ok other => rfl
    | error e => exact (List.append_nil _).symm
  | merge other => rfl
  | remove fingerprint => rfl
  | removeById id => rfl

theorem run_keys : (run pgp ring ops).keys = Replay.replay ring.keys (ops.map (Op.event pgp)) := by
  induction ops generalizing ring with
  | nil => rfl
  | cons op ops ih =>
    have hstep : run pgp ring (op :: ops) = run pgp (step pgp ring op) ops := rfl
    rw [hstep, ih, step_keys]
    rfl

theorem added_event (op : Op κ) : (op.event pgp).added = op.adds pgp := by
  cases op <;> rfl

theorem hexDigit_lowercase (n : ℕ) : toLowercase [hexDigit n] = [hexDigit n] := by
  obtain h | h := lt_or_ge n 16
  · have hdigits : ∀ n < 16, toLowercase [hexDigit n] = [hexDigit n] := by decide
    exact hdigits n h
  · have hnone : "0123456789abcdef".toList[n]? = none := List.getElem?_eq_none h
    have hdigit : hexDigit n = '0' := by rw [hexDigit, List.getD_eq_getElem?_getD, hnone]; rfl
    rw [hdigit]
    decide

theorem toLowercase_append (s s' : Str) : toLowercase (s ++ s') = toLowercase s ++ toLowercase s' :=
  List.map_append

theorem hexEncode_lowercase (b : List UInt8) : toLowercase (hexEncode b) = hexEncode b := by
  induction b with
  | nil => rfl
  | cons x b ih =>
    have hcons : hexEncode (x :: b) =
        [hexDigit (x.toNat / 16)] ++ ([hexDigit (x.toNat % 16)] ++ hexEncode b) := rfl
    rw [hcons, toLowercase_append, toLowercase_append, hexDigit_lowercase, hexDigit_lowercase, ih]

theorem fpHex_lowercase (f : Fingerprint) : toLowercase (fpHex f) = fpHex f := by
  cases f <;> exact hexEncode_lowercase _

theorem named_iff {fingerprint : Str} :
    named pgp fingerprint key = true ↔ toLowercase fingerprint = fpHex (pgp.fingerprint key) := by
  rw [named, decide_eq_true_iff, fpHex_lowercase, eq_comm]

theorem survives_iff :
    Replay.Survives (ops.map (Op.event pgp)) key ↔ ∀ op ∈ ops, ¬ op.Removes pgp key := by
  constructor
  · rintro h op hop ⟨fingerprint, hremove, hname⟩
    have hdrop : .drop (named pgp fingerprint) ∈ ops.map (Op.event pgp) := by
      refine List.mem_map.2 ⟨op, hop, ?_⟩
      obtain rfl | rfl := hremove <;> rfl
    have hfalse := h _ hdrop
    rw [named_iff.2 hname] at hfalse
    cases hfalse
  · intro h gone hgone
    obtain ⟨op, hop, hevent⟩ := List.mem_map.1 hgone
    refine Bool.eq_false_iff.2 fun htrue => ?_
    cases op with
    | importKeys data => cases hevent
    | merge other => cases hevent
    | remove fingerprint =>
      cases hevent
      exact h _ hop ⟨fingerprint, .inl rfl, named_iff.1 htrue⟩
    | removeById id =>
      cases hevent
      exact h _ hop ⟨id, .inr rfl, named_iff.1 htrue⟩

theorem mem_run : key ∈ (run pgp ring ops).keys ↔ Trusted pgp ring ops key := by
  rw [run_keys, Replay.mem_replay, survives_iff]
  refine or_congr_right ?_
  constructor
  · rintro ⟨before, e, after, heq, hadded, hsurvives⟩
    obtain ⟨before', rest, rfl, -, hrest⟩ := List.map_eq_append_iff.1 heq
    obtain ⟨op, after', rfl, rfl, rfl⟩ := List.map_eq_cons_iff.1 hrest
    rw [added_event] at hadded
    exact ⟨before', op, after', rfl, hadded, survives_iff.1 hsurvives⟩
  · rintro ⟨before, op, after, rfl, hadds, hkept⟩
    refine ⟨before.map (Op.event pgp), op.event pgp, after.map (Op.event pgp), ?_, ?_, survives_iff.2 hkept⟩
    · rw [List.map_append, List.map_cons]
    · rwa [added_event]

/-! ### What is listed after a run -/

section List

variable {fromUtf8Lossy : List UInt8 → Str} {info : KeyInfo}

/-- **The list after a run** is that of the trusted keys. -/
theorem mem_list_run : info ∈ list pgp fromUtf8Lossy (run pgp ring ops) ↔
    ∃ key, Trusted pgp ring ops key ∧ info =
      ⟨fpHex (pgp.fingerprint key), (pgp.users key).map fromUtf8Lossy, pgp.expiresAt key⟩ := by
  rw [list, List.mem_map]
  exact exists_congr fun key => and_congr mem_run eq_comm

/-- What is left after a removal, and what the removal reports. -/
theorem keyCount_remove (fingerprint : Str) :
    keyCount (remove pgp ring fingerprint).1 + (remove pgp ring fingerprint).2 = keyCount ring :=
  Nat.add_sub_of_le (List.length_filter_le _ _)

/-- A removal reports nothing exactly if the fingerprint is not in the list. -/
theorem remove_eq_zero (fingerprint : Str) : (remove pgp ring fingerprint).2 = 0 ↔
    ∀ info ∈ list pgp fromUtf8Lossy ring, info.fingerprint ≠ toLowercase fingerprint := by
  have hkept : (remove pgp ring fingerprint).2 = 0 ↔
      (remove pgp ring fingerprint).1.keys.length = ring.keys.length := by
    have hcount := @keyCount_remove κ μ σ pgp ring fingerprint
    rw [keyCount, keyCount] at hcount
    omega
  rw [hkept, list, List.forall_mem_map]
  show (ring.keys.filter fun key => !named pgp fingerprint key).length = _ ↔ _
  rw [List.length_filter_eq_length_iff]
  refine forall₂_congr fun key _ => ?_
  rw [Bool.not_eq_true', ← Bool.not_eq_true, named_iff]
  exact not_congr eq_comm

end List

/-! ### What is accepted after a run -/

/-- A trusted key signed and passes. -/
def Vouched (pgp : Pgp κ μ σ) (ring : Keyring κ) (ops : List (Op κ)) (policy : VerificationPolicy) (time : ℤ)
    (verifies : κ → Bool) (key : κ) : Prop :=
  Trusted pgp ring ops key ∧ verifies key = true ∧ passes pgp policy time key = true

/-- The result names the trusted keys that signed and pass. -/
def Names (pgp : Pgp κ μ σ) (ring : Keyring κ) (ops : List (Op κ)) (policy : VerificationPolicy) (time : ℤ)
    (verifies : κ → Bool) (message : List UInt8) (r : VerifyResult) : Prop :=
  r.message = message ∧ ∀ fingerprint, fingerprint ∈ r.signedBy ↔
    ∃ key, Vouched pgp ring ops policy time verifies key ∧ fpHex (pgp.fingerprint key) = fingerprint

section Accept

variable {policy : VerificationPolicy} {now : ℤ} {verifies : κ → Bool} {message : List UInt8}

theorem verifyWith_run {r : VerifyResult}
    (h : verifyWith pgp now policy verifies message (run pgp ring ops) = .ok r) :
    Names pgp ring ops policy (policy.referenceTime.getD now) verifies message r := by
  cases verifyWith_spec.1 h with
  | accepted hsome =>
    refine ⟨rfl, fun fingerprint => ?_⟩
    rw [List.mem_map]
    refine exists_congr fun key => and_congr_left fun _ => ?_
    rw [signers, List.mem_filter, mem_run, Bool.and_eq_true]
    rfl

end Accept

/-- **What is accepted after a run of operations**: a clearsigned message, and data with a detached
signature, exactly if a key that signed it and passes the policy is trusted. The result names all of these. -/
theorem trusted_run (ring : Keyring κ) (ops : List (Op κ)) (policy : VerificationPolicy) (now : ℤ)
    (data signature : List UInt8) :
    ((∃ r, verifyClearsignedWith pgp now (run pgp ring ops) data policy = .ok r) ↔
      ∃ msg, pgp.fromArmor data = .ok msg ∧
        ∃ key, Vouched pgp ring ops policy (policy.referenceTime.getD now) (pgp.verify msg) key) ∧
    (∀ r, verifyClearsignedWith pgp now (run pgp ring ops) data policy = .ok r →
      ∃ msg, pgp.fromArmor data = .ok msg ∧
        Names pgp ring ops policy (policy.referenceTime.getD now) (pgp.verify msg) (pgp.signedText msg) r) ∧
    ((∃ r, verifyDetachedWith pgp now (run pgp ring ops) data signature policy = .ok r) ↔
      ∃ sig, pgp.fromArmorSingle signature = .ok sig ∧
        ∃ key, Vouched pgp ring ops policy (policy.referenceTime.getD now)
          (fun key => pgp.verifyData sig key data) key) ∧
    (∀ r, verifyDetachedWith pgp now (run pgp ring ops) data signature policy = .ok r →
      ∃ sig, pgp.fromArmorSingle signature = .ok sig ∧
        Names pgp ring ops policy (policy.referenceTime.getD now) (fun key => pgp.verifyData sig key data)
          data r) := by
  refine ⟨?_, fun r h => ?_, ?_, fun r h => ?_⟩
  · refine exists_verifyClearsignedWith.trans (exists_congr fun msg => and_congr_right fun _ => ?_)
    exact exists_congr fun key => and_congr_left fun _ => mem_run
  · obtain ⟨msg, hmsg, hverify⟩ := judged_eq_ok.1 h
    exact ⟨msg, hmsg, verifyWith_run hverify⟩
  · refine exists_verifyDetachedWith.trans (exists_congr fun sig => and_congr_right fun _ => ?_)
    exact exists_congr fun key => and_congr_left fun _ => mem_run
  · obtain ⟨sig, hsig, hverify⟩ := judged_eq_ok.1 h
    exact ⟨sig, hsig, verifyWith_run hverify⟩

end DebToolkit.Keyring
