import DebToolkit.Text
import DebToolkit.Version

/-!
# Reading and printing versions

`Version::parse` and the `Display` of a version. `Display` leaves out an epoch 0 and an empty revision;
`parse` takes the first `:` for the end of the epoch and the last `-` for the start of the revision.

* `parse_toString`: a version read from `s` is printed such that it is read back unchanged when `s` is
  `Reprintable`: no further `:` behind an epoch 0, no empty revision unless the `-` before it is the only
  one and something stands before it;
* `parse_toString_iff`: in every other case what is printed is rejected or read as a version that
  compares differently.

For the second one counts the characters that are not digits: `debStrCmp_count` says that strings that
compare equal have as many of them, and printing loses or moves a separator.
-/

namespace DebToolkit

open Text

/-! ### `Version::parse` and `Display` -/

inductive VersionError
  | emptyString
  | invalidEpoch
  | invalidCharacter (ch : Char)
  | invalidConstraint (text : String)
  deriving DecidableEq, Repr

def stripPlus : List Char → List Char
  | '+' :: digits => digits
  | digits => digits

/-- `str::parse::<u32>`. -/
def parseU32 (s : List Char) : Option ℕ :=
  if stripPlus s = [] ∨ (stripPlus s).all Char.isDigit = false then none
  else if Nat.ofDigitChars 10 (stripPlus s) 0 < 2 ^ 32 then some (Nat.ofDigitChars 10 (stripPlus s) 0)
  else none

def isValidVersionChar (ch : Char) : Bool :=
  ch.isAlphanum || ch = '.' || ch = '+' || ch = '-' || ch = '~' || ch = ':'

/-- The epoch and what follows it. -/
def splitEpoch (s : List Char) : Option (ℕ × List Char) :=
  match splitOnce ':' s with
  | some (epochStr, rest) => (parseU32 epochStr).map fun epoch => (epoch, rest)
  | none => some (0, s)

def splitRevision (rest : List Char) : List Char × List Char :=
  (rsplitOnce '-' rest).getD (rest, [])

namespace Version

def parse (s : String) : Except VersionError Version :=
  if s.toList = [] then .error .emptyString
  else
    match splitEpoch s.toList with
    | none => .error .invalidEpoch
    | some (epoch, rest) =>
      if rest = [] then .error .emptyString
      else
        match rest.find? fun ch => !isValidVersionChar ch with
        | some ch => .error (.invalidCharacter ch)
        | none =>
          let (upstream, revision) := splitRevision rest
          .ok ⟨epoch, .ofList upstream, .ofList revision⟩

/-- `Display`. -/
def toString (v : Version) : String :=
  (if v.epoch = 0 then "" else v.epoch.repr ++ ":") ++ v.upstream ++
    if v.revision = "" then "" else "-" ++ v.revision

end Version

/-! ### Strings that compare equal -/

/-- The number of characters that are not digits. -/
def separators (s : List Char) : ℕ := s.countP fun c => !c.isDigit

@[simp] theorem separators_nil : separators [] = 0 := rfl

theorem separators_cons (c : Char) (s : List Char) :
    separators (c :: s) = separators s + if c.isDigit then 0 else 1 := by
  cases h : c.isDigit <;> simp [separators, h]

@[simp] theorem separators_append (s t : List Char) :
    separators (s ++ t) = separators s + separators t := List.countP_append

theorem separators_collectDigits (s : List Char) (n : ℕ) :
    separators (collectDigits s n).2 = separators s := by
  induction s generalizing n with
  | nil => rfl
  | cons c s ih =>
    rw [collectDigits]
    split_ifs with hc
    · rw [ih, separators_cons, if_pos hc, add_zero]
    · rfl

theorem separators_runKey (s : List Char) :
    separators s + 1 = (runKey s).length + separators (afterRun s) := by
  induction s with
  | nil => rfl
  | cons c s ih =>
    rw [runKey, afterRun]
    split_ifs with hc
    · rw [List.length_singleton, add_comm]
    · rw [separators_cons, if_neg (show ¬ c.isDigit = true from hc), List.length_cons]
      omega

/-- The 0 that closes a run marks its end in any key. -/
theorem runKey_append_inj {a b : List Char} {t u : List ℤ} (h : runKey a ++ t = runKey b ++ u) :
    runKey a = runKey b ∧ t = u := by
  induction a generalizing b with
  | nil =>
    rw [runKey_eq b] at h ⊢
    simp only [runKey, List.cons_append, List.nil_append, List.cons.injEq] at h ⊢
    obtain ⟨hb, h⟩ := h
    rw [if_pos (weight_eq_zero.1 hb.symm)] at h ⊢
    exact ⟨⟨hb, rfl⟩, h⟩
  | cons c a ih =>
    rw [runKey_eq (c :: a), runKey_eq b] at h ⊢
    simp only [List.cons_append, List.cons.injEq] at h ⊢
    obtain ⟨hw, h⟩ := h
    rw [← isEnd_eq_of_weight_eq hw] at h ⊢
    by_cases hc : isEnd (c :: a).head? = true
    · simp only [if_pos hc, List.nil_append] at h ⊢
      exact ⟨⟨hw, trivial⟩, h⟩
    · simp only [if_neg hc, List.tail_cons] at h ⊢
      obtain ⟨hkey, h⟩ := ih h
      exact ⟨⟨hw, hkey⟩, h⟩

theorem key_ne_zero {s : List Char} (h : afterPass s ≠ []) : key (afterPass s) ≠ [0] := by
  rw [key, runKey_eq]
  intro heq
  rw [List.cons_append, List.cons.injEq] at heq
  exact afterPass_head s h heq.1

theorem separators_eq_of_key {a b : List Char} (h : key a = key b) :
    separators a = separators b := by
  induction hn : a.length using Nat.strong_induction_on generalizing a b with
  | _ n ih =>
    rw [key.eq_def a, key.eq_def b] at h
    obtain ⟨hrun, h⟩ := runKey_append_inj h
    obtain ⟨-, h⟩ := List.cons.inj h
    have ha := separators_runKey a
    have hb := separators_runKey b
    rw [← separators_collectDigits (afterRun a) 0] at ha
    rw [← separators_collectDigits (afterRun b) 0] at hb
    have hrest : separators (afterPass a) = separators (afterPass b) := by
      by_cases hae : afterPass a = [] <;> by_cases hbe : afterPass b = []
      · rw [hae, hbe]
      · rw [dif_pos hae, dif_neg hbe] at h
        exact absurd h.symm (key_ne_zero hbe)
      · rw [dif_neg hae, dif_pos hbe] at h
        exact absurd h (key_ne_zero hae)
      · rw [dif_neg hae, dif_neg hbe] at h
        exact ih _ (hn ▸ afterPass_length_lt a hae) h rfl
    unfold afterPass at hrest
    rw [hrun] at ha
    omega

theorem debStrCmp_count {a b : String} (h : debStrCmp a b = .eq) :
    separators a.toList = separators b.toList := by
  rw [debStrCmp_eq] at h
  exact separators_eq_of_key (Std.LawfulEqCmp.eq_of_compare h)

/-! ### What `parse` accepts -/

theorem stripPlus_cases (s : List Char) : s = '+' :: stripPlus s ∨ stripPlus s = s := by
  unfold stripPlus
  split
  · exact Or.inl rfl
  · exact Or.inr rfl

theorem parseU32_toDigits {n : ℕ} (h : n < 2 ^ 32) : parseU32 (Nat.toDigits 10 n) = some n := by
  have hdigit : ∀ c ∈ Nat.toDigits 10 n, c.isDigit = true := fun c hc =>
    Nat.isDigit_of_mem_toDigits (by decide) le_rfl hc
  have hplus : stripPlus (Nat.toDigits 10 n) = Nat.toDigits 10 n := by
    rcases stripPlus_cases (Nat.toDigits 10 n) with heq | heq
    · exact absurd (hdigit '+' (by rw [heq]; simp)) (by decide)
    · exact heq
  have hall : (Nat.toDigits 10 n).all Char.isDigit = true := List.all_eq_true.2 hdigit
  rw [parseU32, hplus, if_neg (by simp [hall, Nat.toDigits_ne_nil]),
    Nat.ofDigitChars_ten_toDigits, if_pos h]

theorem parseU32_eq_some {s : List Char} {n : ℕ} (h : parseU32 s = some n) :
    n < 2 ^ 32 ∧ '-' ∉ s := by
  unfold parseU32 at h
  split_ifs at h with hdigits hlt
  obtain rfl := Option.some.inj h
  refine ⟨hlt, fun hmem => hdigits (Or.inr ?_)⟩
  rw [List.all_eq_false]
  refine ⟨'-', ?_, by decide⟩
  rcases stripPlus_cases s with heq | heq
  · rw [heq] at hmem
    simpa using hmem
  · rwa [heq]

/-- What stands behind the first `:`, all of `s` if there is none. -/
def behindEpoch (s : List Char) : List Char := ((splitOnce ':' s).map Prod.snd).getD s

theorem splitEpoch_cases {s rest : List Char} {epoch : ℕ} (h : splitEpoch s = some (epoch, rest)) :
    behindEpoch s = rest ∧
      (s = rest ∧ epoch = 0 ∧ ':' ∉ rest ∨
        ∃ digits, s = digits ++ ':' :: rest ∧ ':' ∉ digits ∧ parseU32 digits = some epoch) := by
  unfold splitEpoch at h
  unfold behindEpoch
  split at h
  · next digits rest' hcut =>
    obtain ⟨epoch', hepoch, heq⟩ := Option.map_eq_some_iff.1 h
    cases heq
    obtain ⟨hs, hdigits⟩ := splitOnce_eq_some.1 hcut
    exact ⟨by rw [hcut]; rfl, Or.inr ⟨digits, hs, hdigits, hepoch⟩⟩
  · next hcut =>
    cases h
    exact ⟨by rw [hcut]; rfl, Or.inl ⟨rfl, rfl, splitOnce_eq_none.1 hcut⟩⟩

theorem splitEpoch_colon {digits : List Char} (h : ':' ∉ digits) (rest : List Char) :
    splitEpoch (digits ++ ':' :: rest) = (parseU32 digits).map fun epoch => (epoch, rest) := by
  rw [splitEpoch, splitOnce_append h]

theorem splitEpoch_none {s : List Char} (h : ':' ∉ s) : splitEpoch s = some (0, s) := by
  rw [splitEpoch, splitOnce_eq_none.2 h]

theorem splitRevision_dash (upstream : List Char) {revision : List Char} (h : '-' ∉ revision) :
    splitRevision (upstream ++ '-' :: revision) = (upstream, revision) := by
  rw [splitRevision, rsplitOnce_append upstream h]; rfl

theorem splitRevision_none {rest : List Char} (h : '-' ∉ rest) :
    splitRevision rest = (rest, []) := by
  rw [splitRevision, rsplitOnce_eq_none.2 h]; rfl

/-- Where the last `-` stands. -/
theorem splitRevision_cases {rest upstream revision : List Char}
    (h : splitRevision rest = (upstream, revision)) :
    '-' ∉ rest ∧ upstream = rest ∧ revision = [] ∨
      rest = upstream ++ '-' :: revision ∧ '-' ∉ revision := by
  by_cases hdash : '-' ∈ rest
  · obtain ⟨p, q, hq⟩ : ∃ p q, rsplitOnce '-' rest = some (p, q) := by
      cases hcut : rsplitOnce '-' rest with
      | none => exact absurd hdash (rsplitOnce_eq_none.1 hcut)
      | some cut => exact ⟨cut.1, cut.2, rfl⟩
    rw [splitRevision, hq] at h
    obtain ⟨rfl, rfl⟩ := Prod.mk.inj h
    exact Or.inr (rsplitOnce_eq_some.1 hq)
  · rw [splitRevision_none hdash] at h
    obtain ⟨rfl, rfl⟩ := Prod.mk.inj h
    exact Or.inl ⟨hdash, rfl, rfl⟩

/-- A revision costs its `-`. -/
theorem separators_splitRevision {rest upstream revision : List Char}
    (h : splitRevision rest = (upstream, revision)) :
    separators rest = separators upstream + separators revision + if '-' ∈ rest then 1 else 0 := by
  rcases splitRevision_cases h with ⟨hdash, rfl, rfl⟩ | ⟨rfl, -⟩
  · rw [if_neg hdash, separators_nil, add_zero, add_zero]
  · rw [if_pos (by simp), separators_append, separators_cons, if_neg (by decide)]
    omega

namespace Version

theorem parse_eq_ok {s : String} {v : Version} :
    parse s = .ok v ↔ ∃ rest, splitEpoch s.toList = some (v.epoch, rest) ∧ rest ≠ [] ∧
      (∀ c ∈ rest, isValidVersionChar c = true) ∧
      splitRevision rest = (v.upstream.toList, v.revision.toList) := by
  have hnil : splitEpoch [] = some (0, []) := rfl
  unfold parse
  constructor
  · intro h
    split_ifs at h with hs
    rcases hcut : splitEpoch s.toList with _ | ⟨epoch, rest⟩ <;> rw [hcut] at h
    · cases h
    · dsimp only at h
      split_ifs at h with hrest
      cases hvalid : rest.find? fun ch => !isValidVersionChar ch with
      | some ch => rw [hvalid] at h; cases h
      | none =>
        rw [hvalid] at h
        cases h
        refine ⟨rest, rfl, hrest, ?_, ?_⟩
        · simpa using hvalid
        · simp
  · rintro ⟨rest, hcut, hrest, hvalid, hrev⟩
    have hs : s.toList ≠ [] := by
      intro hs
      rw [hs, hnil] at hcut
      exact hrest (Prod.mk.inj (Option.some.inj hcut)).2.symm
    have hfind : (rest.find? fun ch => !isValidVersionChar ch) = none := by
      simpa using hvalid
    simp [hs, hcut, hrest, hfind, hrev]

/-- What `Display` prints behind the epoch. -/
def body (v : Version) : List Char :=
  v.upstream.toList ++ if v.revision.toList = [] then [] else '-' :: v.revision.toList

theorem toList_toString (v : Version) :
    v.toString.toList =
      if v.epoch = 0 then v.body else Nat.toDigits 10 v.epoch ++ ':' :: v.body := by
  have hrev : v.revision = "" ↔ v.revision.toList = [] := by simp
  unfold toString body
  by_cases he : v.epoch = 0 <;> by_cases hr : v.revision.toList = [] <;>
    simp [he, hrev, hr, Nat.toList_repr]

theorem separators_body (v : Version) :
    separators v.body = separators v.upstream.toList + separators v.revision.toList +
      if v.revision.toList = [] then 0 else 1 := by
  unfold body
  split_ifs with hrev
  · simp [hrev]
  · rw [separators_append, separators_cons, if_neg (by decide)]
    omega

/-- What is printed is what was read, but for a `-` that no revision follows. -/
theorem body_cases {v : Version} {rest : List Char}
    (h : splitRevision rest = (v.upstream.toList, v.revision.toList)) :
    v.body = rest ∨ rest = v.body ++ ['-'] ∧ v.upstream.toList = v.body ∧ v.revision.toList = [] := by
  unfold body
  rcases splitRevision_cases h with ⟨-, hup, hrev⟩ | ⟨hrest, -⟩
  · left
    rw [if_pos hrev, List.append_nil, hup]
  · by_cases hrev : v.revision.toList = []
    · right
      rw [if_pos hrev, List.append_nil]
      rw [hrev] at hrest
      exact ⟨hrest, rfl, hrev⟩
    · left
      rw [if_neg hrev, hrest]

theorem splitEpoch_toString {v : Version} (hlt : v.epoch < 2 ^ 32)
    (hcolon : v.epoch = 0 → ':' ∉ v.body) :
    splitEpoch v.toString.toList = some (v.epoch, v.body) := by
  rw [toList_toString]
  split_ifs with he
  · rw [he, splitEpoch_none (hcolon he)]
  · have hdigits : ':' ∉ Nat.toDigits 10 v.epoch := fun hmem =>
      absurd (Nat.isDigit_of_mem_toDigits (by decide) le_rfl hmem) (by decide)
    rw [splitEpoch_colon hdigits, parseU32_toDigits hlt]; rfl

theorem epoch_lt {s rest : List Char} {epoch : ℕ} (h : splitEpoch s = some (epoch, rest)) :
    epoch < 2 ^ 32 := by
  rcases (splitEpoch_cases h).2 with ⟨-, rfl, -⟩ | ⟨digits, -, -, hparse⟩
  · decide
  · exact (parseU32_eq_some hparse).1

/-! ### The round trip -/

/-- No further `:` stands behind an epoch 0; and if what stands behind the epoch ends in `-`, there is
something before that `-`, and no other `-` there. -/
def Reprintable (s : List Char) : Prop :=
  (∀ epoch rest, splitOnce ':' s = some (epoch, rest) → parseU32 epoch = some 0 → ':' ∉ rest) ∧
    ∀ upstream, behindEpoch s = upstream ++ ['-'] → upstream ≠ [] ∧ '-' ∉ upstream

/-- A version read from a reprintable string is printed such that it is read back. -/
theorem parse_toString {s : String} {v : Version} (h : parse s = .ok v)
    (hs : Reprintable s.toList) : parse v.toString = .ok v := by
  obtain ⟨rest, hcut, hrest, hvalid, hrev⟩ := parse_eq_ok.1 h
  obtain ⟨hbehind, hepoch⟩ := splitEpoch_cases hcut
  have hcolon : v.epoch = 0 → ':' ∉ rest := by
    intro he
    rcases hepoch with ⟨-, -, hnone⟩ | ⟨digits, hs', hdigits, hparse⟩
    · exact hnone
    · exact hs.1 digits rest (splitOnce_eq_some.2 ⟨hs', hdigits⟩) (he ▸ hparse)
  have hsub : ∀ c ∈ v.body, c ∈ rest := by
    intro c hc
    rcases body_cases hrev with hbody | ⟨hbody, -⟩
    · rwa [← hbody]
    · rw [hbody]
      exact List.mem_append_left _ hc
  have hback : splitRevision v.body = (v.upstream.toList, v.revision.toList) := by
    rcases body_cases hrev with hbody | ⟨hbody, hup, hempty⟩
    · rw [hbody, hrev]
    · have hdash := (hs.2 v.body (hbehind.trans hbody)).2
      rw [splitRevision_none hdash, hup, hempty]
  refine parse_eq_ok.2 ⟨v.body, splitEpoch_toString (epoch_lt hcut) ?_, ?_, ?_, hback⟩
  · exact fun he hmem => hcolon he (hsub _ hmem)
  · rcases body_cases hrev with hbody | ⟨hbody, -⟩
    · rwa [hbody]
    · exact (hs.2 v.body (hbehind.trans hbody)).1
  · exact fun c hc => hvalid c (hsub c hc)

/-- Versions that compare equal have the same epoch and as many separators. -/
theorem cmp_eq_eq {v w : Version} (h : v.cmp w = .eq) :
    v.epoch = w.epoch ∧ separators v.upstream.toList = separators w.upstream.toList ∧
      separators v.revision.toList = separators w.revision.toList := by
  rw [cmp_eq, Ordering.then_eq_eq, Ordering.then_eq_eq] at h
  exact ⟨Nat.compare_eq_eq.1 h.1, debStrCmp_count h.2.1, debStrCmp_count h.2.2⟩

/-- A `:` behind an epoch 0 is lost: what stands before it is read as the epoch. -/
theorem no_colon_of_reparsed {v w : Version} {rest : List Char} (hw : parse v.toString = .ok w)
    (hcmp : v.cmp w = .eq) (hrev : splitRevision rest = (v.upstream.toList, v.revision.toList))
    (he : v.epoch = 0) : ':' ∉ rest := by
  intro hmem
  obtain ⟨-, hup, hrv⟩ := cmp_eq_eq hcmp
  obtain ⟨rest', hcut, -, -, hrev'⟩ := parse_eq_ok.1 hw
  rw [toList_toString, if_pos he] at hcut
  have hbody : ':' ∈ v.body := by
    rcases body_cases hrev with hbody | ⟨hbody, -⟩
    · rwa [hbody]
    · simpa [hbody] using hmem
  rcases (splitEpoch_cases hcut).2 with ⟨hsame, -, hnone⟩ | ⟨digits, hsame, -, hparse⟩
  · exact hnone (hsame ▸ hbody)
  · -- one separator of the body is gone, and only a revision could make up for it
    have hcount := separators_splitRevision hrev'
    have hprinted := separators_body v
    rw [hsame, separators_append, separators_cons, if_neg (by decide)] at hprinted
    by_cases hempty : v.revision.toList = []
    · rw [if_pos hempty] at hprinted
      omega
    · have hdash : '-' ∈ digits ++ ':' :: rest' := by
        rw [← hsame, body, if_neg hempty]
        simp
      have : '-' ∈ rest' := by
        rcases List.mem_append.1 hdash with hd | hd
        · exact absurd hd (parseU32_eq_some hparse).2
        · exact (List.mem_cons.1 hd).resolve_left (by decide)
      rw [if_neg hempty] at hprinted
      rw [if_pos this] at hcount
      omega

/-- **`parse` reads back what `Display` prints of `parse s` exactly for the reprintable `s`.** -/
theorem parse_toString_iff {s : String} {v : Version} (h : parse s = .ok v) :
    (∃ w, parse v.toString = .ok w ∧ v.cmp w = .eq) ↔ Reprintable s.toList := by
  constructor
  · rintro ⟨w, hw, hcmp⟩
    obtain ⟨rest, hcut, -, -, hrev⟩ := parse_eq_ok.1 h
    have hcolon := no_colon_of_reparsed hw hcmp hrev
    refine ⟨?_, ?_⟩
    · intro epoch rest' hsplit hparse
      rw [splitEpoch, hsplit] at hcut
      simp only [hparse, Option.map_some, Option.some.injEq, Prod.mk.injEq] at hcut
      rw [hcut.2]
      exact hcolon hcut.1.symm
    · intro upstream hbehind
      rw [(splitEpoch_cases hcut).1] at hbehind
      rw [hbehind, splitRevision_dash upstream List.not_mem_nil] at hrev
      obtain ⟨hup, hempty⟩ := Prod.mk.inj hrev
      have hbody : v.body = upstream := by
        rw [body, if_pos hempty.symm, List.append_nil, hup]
      have hnone : v.epoch = 0 → ':' ∉ v.body := by
        intro he hmem
        exact hcolon he (by rw [hbehind, ← hbody]; exact List.mem_append_left _ hmem)
      obtain ⟨rest', hcut', hne, -, hrev'⟩ := parse_eq_ok.1 hw
      rw [splitEpoch_toString (epoch_lt hcut) hnone, hbody] at hcut'
      obtain ⟨-, rfl⟩ := Prod.mk.inj (Option.some.inj hcut')
      refine ⟨hne, fun hdash => ?_⟩
      obtain ⟨-, hcup, hcrev⟩ := cmp_eq_eq hcmp
      have hcount := separators_splitRevision hrev'
      rw [if_pos hdash] at hcount
      rw [← hup] at hcup
      rw [← hempty] at hcrev
      simp only [separators_nil] at hcrev
      omega
  · intro hs
    exact ⟨v, parse_toString h hs, Std.ReflCmp.compare_self⟩

theorem parse_toString_iff_revision :
    (∃ w, parse (toString ⟨2, "1:0-rc", "3"⟩) = .ok w ∧ cmp ⟨2, "1:0-rc", "3"⟩ w = .eq) ↔
      Reprintable "2:1:0-rc-3".toList :=
  parse_toString_iff (by decide)

/-- The epoch 0 is not printed, and `1` becomes the epoch. -/
theorem epoch_lost :
    parse "0:1:2" = .ok ⟨0, "1:2", ""⟩ ∧
      ¬ ∃ w, parse (toString ⟨0, "1:2", ""⟩) = .ok w ∧ cmp ⟨0, "1:2", ""⟩ w = .eq := by
  refine ⟨by decide, ?_⟩
  rintro ⟨w, hw, hcmp⟩
  rw [show parse (toString ⟨0, "1:2", ""⟩) = .ok ⟨1, "2", ""⟩ by decide] at hw
  cases hw
  exact absurd hcmp (by decide)

end Version

end DebToolkit
