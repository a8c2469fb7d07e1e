import DebToolkit.Sources.Comments
import DebToolkit.Sources.Folding

/-!
# Comments in stanzas

The deb822 format of `parse_deb822` knows no comments: a line that begins with `#` is a field when it has a
colon, and malformed when it has none.

* `lines_run`: the lines that are read of a stanza;
* `malformed_around`: the malformed lines of a stanza, by which it is rejected with a comment in it and
  without;
* `sameEnd_comment`: the field of a comment does nothing unless it takes a continuation line away;
* `comment_inert_iff`: when a comment is inert, in both formats.
-/

namespace DebToolkit
namespace Sources

open Text

/-! ### The lines of a stanza -/

def BlankLine (line : Str) : Bool := trim line = []

/-- From the first line that is not blank, without the white space in front of it. -/
def opened (ls : List Str) : List Str := (ls.dropWhile BlankLine).modifyHead trimStart

/-- To the last line that is not blank, without the white space behind it. -/
def closed : List Str → List Str
  | [] => []
  | line :: ls =>
    if ls.all BlankLine then (if BlankLine line then [] else [trimEnd line])
    else stripCr line :: closed ls

section Lines

variable {line : Str} {ls ls' : List Str}

theorem blankLine_iff : BlankLine line = true ↔ Blank line := by
  rw [BlankLine, decide_eq_true_eq, trim_eq_nil]

theorem blank_terminated (h : ls.all BlankLine = true) : Blank (ls.flatMap (· ++ ['\n'])) := by
  intro c hc
  obtain ⟨line, hline, hc⟩ := List.mem_flatMap.1 hc
  rcases List.mem_append.1 hc with hc | hc
  · exact blankLine_iff.1 (List.all_eq_true.1 h line hline) c hc
  · rw [List.mem_singleton.1 hc]
    decide

theorem not_blank_terminated (h : ¬ ls.all BlankLine = true) : ¬ Blank (ls.flatMap (· ++ ['\n'])) := by
  intro hblank
  refine h (List.all_eq_true.2 fun line hline => blankLine_iff.2 fun c hc => hblank c ?_)
  exact List.mem_flatMap.2 ⟨line, hline, List.mem_append_left _ hc⟩

theorem trimStart_append {a : Str} (h : ¬ Blank a) (s : Str) : trimStart (a ++ s) = trimStart a ++ s := by
  rw [trimStart, trimStart, List.dropWhile_append, if_neg]
  rw [List.isEmpty_iff, List.dropWhile_eq_nil_iff]
  exact h

theorem trimStart_blank_append {a : Str} (h : Blank a) (s : Str) : trimStart (a ++ s) = trimStart s :=
  List.dropWhile_append_of_pos h

theorem blank_of_trimEnd {s : Str} (h : trimEnd s = []) : Blank s := by
  rw [trimEnd, List.rdropWhile_eq_nil_iff] at h
  exact h

theorem trimStart_terminated (ls : List Str) :
    trimStart (ls.flatMap (· ++ ['\n'])) = (opened ls).flatMap (· ++ ['\n']) := by
  induction ls with
  | nil => rfl
  | cons line ls ih =>
    by_cases hline : BlankLine line = true
    · have hblank : Blank (line ++ ['\n']) := blank_append.2 ⟨blankLine_iff.1 hline, by decide⟩
      rw [opened, List.dropWhile_cons_of_pos hline, List.flatMap_cons, trimStart_blank_append hblank, ih]
      rfl
    · have hblank : ¬ Blank line := mt blankLine_iff.2 hline
      rw [opened, List.dropWhile_cons_of_neg hline, List.modifyHead_cons, List.flatMap_cons,
        List.flatMap_cons, List.append_assoc, trimStart_append hblank, List.append_assoc]

theorem lines_trimEnd_terminated (h : ∀ line ∈ ls, '\n' ∉ line) :
    lines (trimEnd (ls.flatMap (· ++ ['\n']))) = closed ls := by
  induction ls with
  | nil => rfl
  | cons line ls ih =>
    obtain ⟨hline, hls⟩ := List.forall_mem_cons.1 h
    rw [List.flatMap_cons, closed]
    split_ifs with hall hblank
    · have hend : Blank (line ++ ['\n'] ++ ls.flatMap (· ++ ['\n'])) :=
        blank_append.2 ⟨blank_append.2 ⟨blankLine_iff.1 hblank, by decide⟩, blank_terminated hall⟩
      rw [blank_trimEnd hend]
      rfl
    · have hend : Blank (['\n'] ++ ls.flatMap (· ++ ['\n'])) :=
        blank_append.2 ⟨by decide, blank_terminated hall⟩
      have hne : trimEnd line ≠ [] := fun hnil => hblank (blankLine_iff.2 (blank_of_trimEnd hnil))
      rw [List.append_assoc, trimEnd_append_blank hend, lines_singleton _ hne]
      exact fun hc => hline ((List.rdropWhile_prefix isWhitespace line).subset hc)
    · have hrest : trimEnd (['\n'] ++ ls.flatMap (· ++ ['\n'])) = '\n' :: trimEnd (ls.flatMap (· ++ ['\n'])) :=
        trimEnd_append (not_blank_terminated hall) ['\n']
      have hblank : ¬ Blank (['\n'] ++ ls.flatMap (· ++ ['\n'])) :=
        fun h => not_blank_terminated hall (blank_append.1 h).2
      rw [List.append_assoc, trimEnd_append hblank, hrest, lines_cons hline, ih hls]

theorem joinLines_terminated (h : ls ≠ []) : ls.flatMap (· ++ ['\n']) = joinLines ls ++ ['\n'] := by
  induction ls with
  | nil => exact absurd rfl h
  | cons line ls ih =>
    by_cases hnil : ls = []
    · rw [hnil, joinLines_singleton, List.flatMap_singleton]
    · rw [List.flatMap_cons, ih hnil, joinLines_cons _ hnil, List.append_assoc, List.append_assoc]
      rfl

theorem notMem_opened (h : ∀ line ∈ ls, '\n' ∉ line) : ∀ line ∈ opened ls, '\n' ∉ line := by
  intro line hline
  have hdrop : ∀ line ∈ ls.dropWhile BlankLine, '\n' ∉ line := fun line hline =>
    h line ((List.dropWhile_sublist _).subset hline)
  rw [opened] at hline
  cases hls : ls.dropWhile BlankLine with
  | nil =>
    rw [hls] at hline
    cases hline
  | cons first rest =>
    rw [hls, List.modifyHead_cons] at hline
    rw [hls] at hdrop
    rcases List.mem_cons.1 hline with rfl | hrest
    · exact fun hc => hdrop first (List.mem_cons_self ..) ((List.dropWhile_sublist _).subset hc)
    · exact hdrop line (List.mem_cons_of_mem _ hrest)

/-- **The lines that are read of a stanza.** -/
theorem lines_run (h : ∀ line ∈ ls, '\n' ∉ line) : lines (trim (joinLines ls)) = closed (opened ls) := by
  have hjoin : trim (joinLines ls) = trim (ls.flatMap (· ++ ['\n'])) := by
    by_cases hnil : ls = []
    · rw [hnil]
      rfl
    · rw [joinLines_terminated hnil, trim_append_right _ (List.forall_mem_singleton.2 (by decide))]
  have htrim : trim (ls.flatMap (· ++ ['\n'])) = trimEnd ((opened ls).flatMap (· ++ ['\n'])) := by
    rw [← trimStart_terminated]
    rfl
  rw [hjoin, htrim, lines_trimEnd_terminated (notMem_opened h)]

/-! ### A line between others -/

theorem closed_blank (h : ls.all BlankLine = true) : closed ls = [] := by
  cases ls with
  | nil => rfl
  | cons line ls =>
    rw [List.all_cons, Bool.and_eq_true] at h
    rw [closed, if_pos h.2, if_pos h.1]

theorem closed_append (h : ¬ ls'.all BlankLine = true) :
    closed (ls ++ ls') = ls.map stripCr ++ closed ls' := by
  induction ls with
  | nil => rfl
  | cons line ls ih =>
    rw [List.cons_append, closed, if_neg, ih]
    · rfl
    · rw [List.all_append, Bool.and_eq_true]
      exact fun hall => h hall.2

theorem closed_append_blank (h : ls'.all BlankLine = true) : closed (ls ++ ls') = closed ls := by
  induction ls with
  | nil => exact closed_blank h
  | cons line ls ih =>
    rw [List.cons_append, closed, closed, ih, List.all_append, h, Bool.and_true]

theorem opened_append (h : ¬ ls.all BlankLine = true) : opened (ls ++ ls') = opened ls ++ ls' := by
  have hne : ls.dropWhile BlankLine ≠ [] := by
    rw [Ne, List.dropWhile_eq_nil_iff, ← List.all_eq_true]
    exact h
  obtain ⟨first, rest, hls⟩ := List.exists_cons_of_ne_nil hne
  rw [opened, opened, List.dropWhile_append, if_neg (by simpa using hne), hls]
  rfl

theorem opened_blank_append (h : ls.all BlankLine = true) : opened (ls ++ ls') = opened ls' := by
  rw [opened, opened, List.dropWhile_append_of_pos (List.all_eq_true.1 h)]

theorem opened_blank (h : ls.all BlankLine = true) : opened ls = [] := by
  rw [← List.append_nil ls, opened_blank_append h]
  rfl

/-- The last line that is not blank ends a stanza. -/
theorem exists_last (h : ¬ ls.all BlankLine = true) : ∃ init last tail, ls = init ++ last :: tail ∧
    BlankLine last = false ∧ tail.all BlankLine = true ∧
      ls.reverse.find? (!BlankLine ·) = some last ∧ closed ls = init.map stripCr ++ [trimEnd last] := by
  induction ls using List.reverseRecOn with
  | nil => exact absurd rfl h
  | append_singleton ls line ih =>
    rw [List.reverse_concat]
    by_cases hline : BlankLine line = true
    · have htail : [line].all BlankLine = true := by simpa using hline
      rw [List.all_append, htail, Bool.and_true] at h
      obtain ⟨init, last, tail, hls, hlast, hblank, hfind, hclosed⟩ := ih h
      refine ⟨init, last, tail ++ [line], by rw [hls]; simp, hlast, ?_, ?_, ?_⟩
      · rw [List.all_append, hblank, htail, Bool.and_true]
      · rw [List.find?_cons_of_neg (by simpa using hline), hfind]
      · rw [closed_append_blank htail, hclosed]
    · refine ⟨ls, line, [], rfl, by simpa using hline, rfl, List.find?_cons_of_pos (by simpa using hline), ?_⟩
      rw [closed_append (by simpa using hline), closed, List.all_nil, if_pos rfl, if_neg hline]

end Lines

/-! ### Fields that agree -/

/-- A continuation line. -/
def Folded (line : Str) : Prop := line.head? = some ' ' ∨ line.head? = some '\t'

instance (line : Str) : Decidable (Folded line) := inferInstanceAs (Decidable (_ ∨ _))

/-- The same fields but for those of comments. -/
def Agree (fields fields' : SortedMap Str Str) : Prop :=
  ∀ k : Str, k.head? ≠ some '#' → fields.find? k = fields'.find? k

/-- Both have failed, or both end in fields that agree. -/
inductive SameEnd : Except SourcesError StanzaState → Except SourcesError StanzaState → Prop
  | error (e e' : SourcesError) : SameEnd (.error e) (.error e')
  | ok {st st' : StanzaState} (h : Agree st.finish st'.finish) : SameEnd (.ok st) (.ok st')

/-- The same field is being read, behind fields that agree. -/
structure SameField (st st' : StanzaState) : Prop where
  fields : Agree st.fields st'.fields
  currentKey : st.currentKey = st'.currentKey
  currentVal : st.currentVal = st'.currentVal

section Agree

variable {u : Unicode} {fields fields' : SortedMap Str Str} {st st' : StanzaState} {line : Str}
  {ls ls' : List Str}

theorem Agree.refl (fields : SortedMap Str Str) : Agree fields fields := fun _ _ => rfl

theorem Agree.trans {fields'' : SortedMap Str Str} (h : Agree fields fields')
    (h' : Agree fields' fields'') : Agree fields fields'' := fun k hk => (h k hk).trans (h' k hk)

theorem Agree.insert (h : Agree fields fields') (k v : Str) : Agree (fields.insert k v) (fields'.insert k v) := by
  intro k' hk'
  rw [SortedMap.find?_insert, SortedMap.find?_insert, h k' hk']

/-- The field of a comment. -/
theorem Agree.insert_comment (h : Agree fields fields') {k : Str} (hk : k.head? = some '#') (v : Str) :
    Agree fields (fields'.insert k v) := by
  intro k' hk'
  rw [SortedMap.find?_insert, if_neg (by rintro rfl; exact hk' hk), h k' hk']

/-- Entries are read of fields that are no comments. -/
theorem Agree.stanzaEntries (h : Agree fields fields') : stanzaEntries u fields = stanzaEntries u fields' := by
  have hread : ∀ name ∈ ["enabled".toList, "types".toList, "uris".toList, "suites".toList,
      "components".toList, signedBy, architectures], fields.find? name = fields'.find? name := by
    have hnames : ∀ name ∈ ["enabled".toList, "types".toList, "uris".toList, "suites".toList,
        "components".toList, signedBy, architectures], name.head? ≠ some '#' := by decide
    exact fun name hname => h name (hnames name hname)
  simp only [List.forall_mem_cons] at hread
  obtain ⟨henabled, htypes, huris, hsuites, hcomponents, hsigned, harchs, -⟩ := hread
  unfold Sources.stanzaEntries stanzaOptions fieldOrEmpty
  rw [henabled, htypes, huris, hsuites, hcomponents, hsigned, harchs]

theorem SameField.finish (h : SameField st st') : Agree st.finish st'.finish := by
  unfold StanzaState.finish
  rw [← h.currentKey, ← h.currentVal]
  cases st.currentKey with
  | none => exact h.fields
  | some k => exact h.fields.insert k _

/-- What a continuation line does. -/
theorem stanzaLine_folded (h : Folded line) (st : StanzaState) : stanzaLine u st line =
    .ok (if st.currentKey.isSome then { st with currentVal := st.currentVal ++ '\n' :: continuation line }
      else st) := by
  unfold Folded at h
  rw [stanzaLine, if_pos h]
  cases st.currentKey <;> rfl

/-- A line that is not folded is read without the white space around it. -/
theorem stanzaLine_trim (h : ¬ Folded line) (st : StanzaState) : stanzaLine u st line =
    match splitOnce ':' (trim line) with
    | some (name, value) => .ok ⟨st.finish, some (u.toLowercase (trim name)), trim value⟩
    | none =>
      if trim line = [] then .ok st
      else .error (.parse s!"malformed deb822 line: {String.ofList (u.debug line)}") := by
  obtain ⟨w, w', hline, hw, hw'⟩ := trim_spec line
  have hcolon : ∀ t : Str, (∀ c ∈ t, isWhitespace c = true) → ':' ∉ t := fun t ht hc =>
    absurd (ht _ hc) (by decide)
  unfold Folded at h
  rw [stanzaLine, if_neg h]
  cases hcut : splitOnce ':' (trim line) with
  | none =>
    have hnone : splitOnce ':' line = none := by
      rw [splitOnce_eq_none] at hcut ⊢
      rw [hline]
      simp only [List.mem_append, not_or]
      exact ⟨⟨hcolon w hw, hcut⟩, hcolon w' hw'⟩
    rw [hnone]
  | some cut =>
    obtain ⟨htrim, hname⟩ := splitOnce_eq_some.1 hcut
    have hsome : splitOnce ':' line = some (w ++ cut.1, cut.2 ++ w') := by
      refine splitOnce_eq_some.2 ⟨?_, ?_⟩
      · conv_lhs => rw [hline, htrim]
        simp
      · rw [List.mem_append, not_or]
        exact ⟨hcolon w hw, hname⟩
    rw [hsome]
    dsimp only
    rw [trim_append_left hw, trim_append_right _ hw']

/-- One line behind fields that agree. -/
theorem SameField.step (h : SameField st st') (line : Str) :
    (∃ st₁ st₁', stanzaLine u st line = .ok st₁ ∧ stanzaLine u st' line = .ok st₁' ∧ SameField st₁ st₁') ∨
      ∃ e, stanzaLine u st line = .error e ∧ stanzaLine u st' line = .error e := by
  by_cases hfolded : Folded line
  · left
    refine ⟨_, _, stanzaLine_folded hfolded st, stanzaLine_folded hfolded st', ?_⟩
    rw [← h.currentKey]
    split_ifs
    · exact ⟨h.fields, rfl, by rw [h.currentVal]⟩
    · exact h
  · rw [stanzaLine_trim hfolded, stanzaLine_trim hfolded]
    cases splitOnce ':' (trim line) with
    | some cut => exact Or.inl ⟨_, _, rfl, rfl, h.finish, rfl, rfl⟩
    | none =>
      dsimp only
      split_ifs
      · exact Or.inl ⟨_, _, rfl, rfl, h⟩
      · exact Or.inr ⟨_, rfl, rfl⟩

theorem SameField.foldlM (h : SameField st st') (ls : List Str) :
    SameEnd (ls.foldlM (stanzaLine u) st) (ls.foldlM (stanzaLine u) st') := by
  induction ls generalizing st st' with
  | nil => exact .ok h.finish
  | cons line ls ih =>
    rw [List.foldlM_cons, List.foldlM_cons]
    rcases h.step line with ⟨st₁, st₁', hst, hst', hsame⟩ | ⟨e, hst, hst'⟩
    · rw [hst, hst']
      exact ih hsame
    · rw [hst, hst']
      exact .error e e

/-- A line that is not folded, read with other white space around it. -/
theorem sameField_of_trim (hagree : Agree st.finish st'.finish) {line' : Str} (h : ¬ Folded line)
    (h' : ¬ Folded line') (htrim : trim line = trim line') (hne : trim line ≠ []) :
    (∃ st₁ st₁', stanzaLine u st line = .ok st₁ ∧ stanzaLine u st' line' = .ok st₁' ∧ SameField st₁ st₁') ∨
      ∃ e e', stanzaLine u st line = .error e ∧ stanzaLine u st' line' = .error e' := by
  rw [stanzaLine_trim h, stanzaLine_trim h', ← htrim]
  cases splitOnce ':' (trim line) with
  | some cut => exact Or.inl ⟨_, _, rfl, rfl, hagree, rfl, rfl⟩
  | none =>
    dsimp only
    rw [if_neg hne, if_neg hne]
    exact Or.inr ⟨_, _, rfl, rfl⟩

/-- Lines that begin with one that is not folded. -/
theorem sameEnd_cons (hagree : Agree st.finish st'.finish) {line' : Str} (h : ¬ Folded line)
    (h' : ¬ Folded line') (htrim : trim line = trim line') (hne : trim line ≠ []) (ls : List Str) :
    SameEnd ((line :: ls).foldlM (stanzaLine u) st) ((line' :: ls).foldlM (stanzaLine u) st') := by
  rw [List.foldlM_cons, List.foldlM_cons]
  rcases sameField_of_trim (u := u) hagree h h' htrim hne with ⟨st₁, st₁', hst, hst', hsame⟩ | ⟨e, e', hst, hst'⟩
  · rw [hst, hst']
    exact hsame.foldlM ls
  · rw [hst, hst']
    exact .error e e'

/-- A blank line changes no field. -/
theorem stanzaLine_blank (h : BlankLine line = true) (st : StanzaState) :
    ∃ st₁, stanzaLine u st line = .ok st₁ ∧ st₁.finish = st.finish := by
  have hblank := blankLine_iff.1 h
  by_cases hfolded : Folded line
  · refine ⟨_, stanzaLine_folded hfolded st, ?_⟩
    cases hkey : st.currentKey with
    | none => rfl
    | some k =>
      have hend : Blank ('\n' :: continuation line) := by
        have hstart : trimStart line = [] := List.dropWhile_eq_nil_iff.2 hblank
        rw [continuation, hstart, if_neg (by decide)]
        decide
      rw [Option.isSome_some, if_pos rfl]
      unfold StanzaState.finish
      simp only [hkey]
      rw [trim_append_right _ hend]
  · refine ⟨st, ?_, rfl⟩
    have htrim : trim line = [] := trim_eq_nil.2 hblank
    rw [stanzaLine_trim hfolded, htrim]
    rfl

theorem foldlM_blank (h : ls.all BlankLine = true) (st : StanzaState) :
    ∃ st₁, ls.foldlM (stanzaLine u) st = .ok st₁ ∧ st₁.finish = st.finish := by
  induction ls generalizing st with
  | nil => exact ⟨st, rfl, rfl⟩
  | cons line ls ih =>
    rw [List.all_cons, Bool.and_eq_true] at h
    obtain ⟨st₁, hst₁, hfinish₁⟩ := stanzaLine_blank (u := u) h.1 st
    obtain ⟨st₂, hst₂, hfinish₂⟩ := ih h.2 st₁
    refine ⟨st₂, ?_, hfinish₂.trans hfinish₁⟩
    rw [List.foldlM_cons, hst₁]
    exact hst₂

/-- What is read behind equal beginnings. -/
theorem sameEnd_append (h : ∀ st, SameEnd (ls.foldlM (stanzaLine u) st) (ls'.foldlM (stanzaLine u) st))
    (init : List Str) (st : StanzaState) :
    SameEnd ((init ++ ls).foldlM (stanzaLine u) st) ((init ++ ls').foldlM (stanzaLine u) st) := by
  rw [List.foldlM_append, List.foldlM_append]
  cases init.foldlM (stanzaLine u) st with
  | error e => exact .error e e
  | ok st₁ => exact h st₁

end Agree

/-! ### How a line is read -/

section Reading

variable {u : Unicode} {line line' : Str} {ls before behind : List Str}

/-- How the line at the head of `line :: ls` is read. -/
def readLine (line : Str) (ls : List Str) : Str := if ls.all BlankLine then trimEnd line else stripCr line

theorem closed_cons (h : BlankLine line = false) (ls : List Str) :
    closed (line :: ls) = readLine line ls :: closed ls := by
  rw [closed, readLine, h]
  by_cases hblank : ls.all BlankLine = true
  · rw [if_pos hblank, if_pos hblank, closed_blank hblank]
    rfl
  · rw [if_neg hblank, if_neg hblank]

theorem trim_readLine (line : Str) (ls : List Str) : trim (readLine line ls) = trim line := by
  unfold readLine
  split_ifs
  · exact trim_trimEnd line
  · exact trim_stripCr line

theorem folded_readLine (h : BlankLine line = false) : Folded (readLine line ls) ↔ Folded line := by
  have hne : readLine line ls ≠ [] := by
    intro hnil
    have htrim := trim_readLine line ls
    rw [hnil] at htrim
    rw [BlankLine, ← htrim] at h
    cases h
  have hbegins : readLine line ls <+: line := by
    unfold readLine
    split_ifs
    · exact List.rdropWhile_prefix _ _
    · exact stripCr_isPrefix line
  rw [Folded, Folded, head?_of_isPrefix hne hbegins]

theorem trim_trimStart (s : Str) : trim (trimStart s) = trim s := by
  have hs : s = s.takeWhile isWhitespace ++ trimStart s := List.takeWhile_append_dropWhile.symm
  conv_rhs => rw [hs]
  exact (trim_append_left (fun c hc => List.mem_takeWhile_imp hc) _).symm

theorem not_folded_trimStart (s : Str) : ¬ Folded (trimStart s) := by
  have hhead := head?_trimStart s
  rintro (h | h)
  · exact absurd (hhead _ h) (by decide)
  · exact absurd (hhead _ h) (by decide)

/-- The first line that is not blank. -/
theorem exists_first_line (h : ¬ ls.all BlankLine = true) : ∃ init first tail, ls = init ++ first :: tail ∧
    init.all BlankLine = true ∧ BlankLine first = false ∧ ls.find? (!BlankLine ·) = some first ∧
      closed ls = init.map stripCr ++ readLine first tail :: closed tail ∧
        opened ls = trimStart first :: tail := by
  have hany : ∃ line ∈ ls, (!BlankLine line) = true := by
    simpa using h
  obtain ⟨init, first, tail, rfl, hinit, hfirst⟩ := exists_first hany
  have hblank : init.all BlankLine = true := by simpa using hinit
  have hfirst' : BlankLine first = false := by simpa using hfirst
  refine ⟨init, first, tail, rfl, hblank, hfirst', ?_, ?_, ?_⟩
  · rw [List.find?_append, List.find?_eq_none.2 (by simpa using hinit), Option.none_or]
    exact List.find?_cons_of_pos hfirst
  · rw [closed_append (by simp [hfirst']), closed_cons hfirst']
  · rw [opened_blank_append hblank, opened, List.dropWhile_cons_of_neg (by simp [hfirst']),
      List.modifyHead_cons]

theorem all_blank_stripCr (h : ls.all BlankLine = true) : (ls.map stripCr).all BlankLine = true := by
  rw [List.all_map, List.all_eq_true]
  intro line hline
  exact blankLine_iff.2 (blank_stripCr (blankLine_iff.1 (List.all_eq_true.1 h line hline)))

theorem trim_ne_nil_of_blankLine (h : BlankLine line = false) : trim line ≠ [] :=
  of_decide_eq_false h

/-- A line that is rejected: it has no colon, is not blank and is no continuation line. -/
structure Malformed (line : Str) : Prop where
  unfolded : ¬ Folded line
  noColon : ':' ∉ line
  notBlank : BlankLine line = false

theorem colon_mem_trim : ':' ∈ trim line ↔ ':' ∈ line := by
  obtain ⟨w, w', hline, hw, hw'⟩ := trim_spec line
  refine ⟨fun h => ?_, fun h => ?_⟩
  · rw [hline]
    exact List.mem_append_left _ (List.mem_append_right _ h)
  · rw [hline, List.mem_append, List.mem_append] at h
    refine (h.resolve_right fun hc => ?_).resolve_left fun hc => ?_
    · exact absurd (hw' _ hc) (by decide)
    · exact absurd (hw _ hc) (by decide)

/-- The white space around a malformed line does not matter, unless it makes a continuation line of it. -/
theorem Malformed.of_trim (h : Malformed line) (hfolded : ¬ Folded line') (htrim : trim line' = trim line) :
    Malformed line' := by
  refine ⟨hfolded, ?_, ?_⟩
  · rw [← colon_mem_trim, htrim, colon_mem_trim]
    exact h.noColon
  · rw [BlankLine, htrim]
    exact h.notBlank

theorem Malformed.readLine (h : Malformed line) : Malformed (readLine line ls) :=
  h.of_trim (mt (folded_readLine h.notBlank).1 h.unfolded) (trim_readLine line ls)

theorem Malformed.not_all_blank (h : Malformed line) (hmem : line ∈ ls) : ¬ ls.all BlankLine = true := by
  intro hall
  have hblank := List.all_eq_true.1 hall line hmem
  rw [h.notBlank] at hblank
  cases hblank

theorem Malformed.rejected (h : Malformed line) (st : StanzaState) : ∃ e, stanzaLine u st line = .error e := by
  rw [stanzaLine_trim h.unfolded, splitOnce_eq_none.2 (mt colon_mem_trim.1 h.noColon),
    if_neg (trim_ne_nil_of_blankLine h.notBlank)]
  exact ⟨_, rfl⟩

/-- A malformed line fails the stanza. -/
theorem foldlM_malformed (h : ∃ line ∈ ls, Malformed line) (st st' : StanzaState) :
    ls.foldlM (stanzaLine u) st ≠ .ok st' := by
  obtain ⟨line, hmem, hline⟩ := h
  obtain ⟨init, tail, rfl⟩ := List.append_of_mem hmem
  rw [List.foldlM_append]
  intro hok
  obtain ⟨st₁, -, hrest⟩ := Loop.bind_eq_ok.1 hok
  rw [List.foldlM_cons] at hrest
  obtain ⟨_, hstep, -⟩ := Loop.bind_eq_ok.1 hrest
  obtain ⟨e, he⟩ := hline.rejected (u := u) st₁
  rw [he] at hstep
  cases hstep

theorem malformed_closed (h : ∃ line ∈ ls, Malformed line) : ∃ line ∈ closed ls, Malformed line := by
  induction ls with
  | nil =>
    obtain ⟨_, hmem, -⟩ := h
    cases hmem
  | cons first ls ih =>
    by_cases hls : ∃ line ∈ ls, Malformed line
    · obtain ⟨line, hmem, hline⟩ := ih hls
      obtain ⟨line₀, hmem₀, hline₀⟩ := hls
      rw [closed, if_neg (hline₀.not_all_blank hmem₀)]
      exact ⟨line, List.mem_cons_of_mem _ hmem, hline⟩
    · obtain ⟨line, hmem, hline⟩ := h
      obtain rfl := (List.mem_cons.1 hmem).resolve_right fun hmem => hls ⟨line, hmem, hline⟩
      rw [closed_cons hline.notBlank]
      exact ⟨_, List.mem_cons_self, hline.readLine⟩

theorem malformed_opened (h : ∃ line ∈ ls, Malformed line) : ∃ line ∈ opened ls, Malformed line := by
  obtain ⟨line, hmem, hline⟩ := h
  obtain ⟨init, first, tail, rfl, hinit, -, -, -, hopened⟩ :=
    exists_first_line (hline.not_all_blank hmem)
  rw [hopened]
  rcases List.mem_cons.1 ((List.mem_append.1 hmem).resolve_left fun hmem => hline.not_all_blank hmem hinit)
    with rfl | hmem
  · exact ⟨_, List.mem_cons_self, hline.of_trim (not_folded_trimStart line) (trim_trimStart line)⟩
  · exact ⟨line, List.mem_cons_of_mem _ hmem, hline⟩

/-- The stanza without a comment is rejected for each malformed line around it. -/
theorem malformed_around (h : ∃ line ∈ opened before ++ behind, Malformed line) :
    ∃ line ∈ closed (opened (before ++ behind)), Malformed line := by
  by_cases hbefore : before.all BlankLine = true
  · rw [opened_blank hbefore, List.nil_append] at h
    rw [opened_blank_append hbefore]
    exact malformed_closed (malformed_opened h)
  · rw [opened_append hbefore]
    exact malformed_closed h

end Reading

/-! ### The line of a comment -/

section Comment

variable {u : Unicode} {c line : Str} {st : StanzaState} {ls before behind : List Str}

/-- The line of a comment, perhaps without white space at its end. -/
def IsComment (c line : Str) : Prop := ¬ Folded line ∧ trim line = '#' :: trimEnd c

theorem isComment_of_prefix (hbegins : line <+: '#' :: c) (htrim : trim line = trim ('#' :: c)) :
    IsComment c line := by
  rw [trim_comment] at htrim
  refine ⟨?_, htrim⟩
  have hne : line ≠ [] := by
    rintro rfl
    cases htrim
  have hhead : line.head? = some '#' := (head?_of_isPrefix hne hbegins).symm
  rw [Folded, hhead]
  decide

theorem isComment_stripCr (c : Str) : IsComment c (stripCr ('#' :: c)) :=
  isComment_of_prefix (stripCr_isPrefix _) (trim_stripCr _)

theorem isComment_trimEnd (c : Str) : IsComment c (trimEnd ('#' :: c)) :=
  isComment_of_prefix (List.rdropWhile_prefix _ _) (trim_trimEnd _)

theorem head?_toLowercase_hash (u : Unicode) (t : Str) : (u.toLowercase ('#' :: t)).head? = some '#' := by
  obtain ⟨ts, hts, hlowers⟩ := u.lowers ('#' :: t)
  cases hlowers with
  | cons hhash _ =>
    rw [Lowers, if_pos (Or.inl (by decide))] at hhash
    rw [hts, hhash]
    rfl

/-- With a colon, a comment is a field of its own. -/
theorem stanzaLine_comment (h : IsComment c line) (hcolon : ':' ∈ c) (st : StanzaState) :
    ∃ st₁, stanzaLine u st line = .ok st₁ ∧ Agree st.finish st₁.finish := by
  have hmem : ':' ∈ '#' :: trimEnd c := by
    have hsplit : c = trimEnd c ++ c.rtakeWhile isWhitespace := List.rdropWhile_append_rtakeWhile.symm
    rw [hsplit] at hcolon
    rcases List.mem_append.1 hcolon with hc | hc
    · exact List.mem_cons_of_mem _ hc
    · exact absurd (List.mem_rtakeWhile_imp hc) (by decide)
  obtain ⟨cut, hcut⟩ := Option.ne_none_iff_exists'.1 fun hnone => splitOnce_eq_none.1 hnone hmem
  obtain ⟨htext, -⟩ := splitOnce_eq_some.1 hcut
  -- the name begins with the `#`, in lower case too
  obtain ⟨name, hname⟩ : ∃ name, trim cut.1 = '#' :: name := by
    cases hcut1 : cut.1 with
    | nil =>
      rw [hcut1] at htext
      cases htext
    | cons d name =>
      rw [hcut1, List.cons_append, List.cons.injEq] at htext
      exact ⟨trimEnd name, by rw [← htext.1, trim_comment]⟩
  refine ⟨⟨st.finish, some (u.toLowercase (trim cut.1)), trim cut.2⟩, ?_, ?_⟩
  · rw [stanzaLine_trim h.1, h.2, hcut]
  · refine (Agree.refl _).insert_comment ?_ _
    rw [hname, head?_toLowercase_hash]

theorem blankLine_comment (c : Str) : BlankLine ('#' :: c) = false := by
  rw [BlankLine, decide_eq_false_iff_not, trim_comment]
  exact List.cons_ne_nil _ _

/-- Without a colon, it is malformed. -/
theorem malformed_comment (hcolon : ':' ∉ c) : Malformed ('#' :: c) := by
  refine ⟨?_, ?_, blankLine_comment c⟩
  · rw [Folded, List.head?_cons]
    decide
  · rw [List.mem_cons, not_or]
    exact ⟨by decide, hcolon⟩

theorem opened_comment (before behind : List Str) (c : Str) :
    opened (before ++ ('#' :: c) :: behind) = opened before ++ ('#' :: c) :: behind := by
  by_cases hblank : before.all BlankLine = true
  · rw [opened_blank_append hblank, opened_blank hblank, opened,
      List.dropWhile_cons_of_neg (by simp [blankLine_comment])]
    rfl
  · exact opened_append hblank

/-- The lines of a stanza with a comment in it. -/
theorem closed_comment (before behind : List Str) (c : Str) : ∃ line, IsComment c line ∧
    closed (opened (before ++ ('#' :: c) :: behind)) =
      (opened before).map stripCr ++ line :: closed behind := by
  have hhash := blankLine_comment c
  rw [opened_comment, closed_append (by simp [hhash]), closed]
  by_cases hblank : behind.all BlankLine = true
  · rw [if_pos hblank, hhash, closed_blank hblank]
    exact ⟨_, isComment_trimEnd c, rfl⟩
  · rw [if_neg hblank]
    exact ⟨_, isComment_stripCr c, rfl⟩

end Comment

/-! ### Comments that take nothing away -/

/-- Behind a comment, no continuation line comes before the next field; if nothing comes behind it, the last
line in front of it is not a continuation line that stands for an empty one only without the white space at
its end. -/
structure Clear (before behind : List Str) : Prop where
  unfolded : ∀ line ∈ behind.find? (!BlankLine ·), ¬ Folded line
  noDot : behind.all BlankLine = true → ∀ line ∈ (opened before).reverse.find? (!BlankLine ·),
    Folded line → trim line = ['.'] → stripCr line = trimEnd line

section Clear

variable {u : Unicode} {c line : Str} {st st' : StanzaState} {before behind ls : List Str}

/-- Behind fields that agree, the lines behind the comment are read as the same fields. -/
theorem sameEnd_behind (hagree : Agree st.finish st'.finish)
    (h : ∀ line ∈ behind.find? (!BlankLine ·), ¬ Folded line) :
    SameEnd ((closed behind).foldlM (stanzaLine u) st) ((closed behind).foldlM (stanzaLine u) st') := by
  by_cases hall : behind.all BlankLine = true
  · rw [closed_blank hall]
    exact .ok hagree
  obtain ⟨init, first, tail, -, hinit, hfirst, hfind, hclosed, -⟩ := exists_first_line hall
  obtain ⟨st₁, hst₁, hfinish₁⟩ := foldlM_blank (u := u) (all_blank_stripCr hinit) st
  obtain ⟨st₁', hst₁', hfinish₁'⟩ := foldlM_blank (u := u) (all_blank_stripCr hinit) st'
  have hfolded : ¬ Folded (readLine first tail) := mt (folded_readLine hfirst).1 (h first hfind)
  rw [hclosed, List.foldlM_append, List.foldlM_append, hst₁, hst₁']
  refine sameEnd_cons ?_ hfolded hfolded rfl ?_ (closed tail)
  · rw [hfinish₁, hfinish₁']
    exact hagree
  · rw [trim_readLine]
    exact trim_ne_nil_of_blankLine hfirst

/-- A comment at the beginning of a stanza. -/
theorem sameEnd_first (hline : IsComment c line) (hcolon : ':' ∈ c)
    (h : ∀ line ∈ behind.find? (!BlankLine ·), ¬ Folded line) (st : StanzaState) :
    SameEnd ((closed (opened behind)).foldlM (stanzaLine u) st)
      ((line :: closed behind).foldlM (stanzaLine u) st) := by
  obtain ⟨st₁, hst₁, hagree⟩ := stanzaLine_comment (u := u) hline hcolon st
  rw [List.foldlM_cons, hst₁]
  change SameEnd _ ((closed behind).foldlM (stanzaLine u) st₁)
  by_cases hall : behind.all BlankLine = true
  · rw [closed_blank hall, opened_blank hall]
    exact .ok hagree
  obtain ⟨init, first, tail, -, hinit, hfirst, hfind, hclosed, hopened⟩ := exists_first_line hall
  obtain ⟨st₂, hst₂, hfinish₂⟩ := foldlM_blank (u := u) (all_blank_stripCr hinit) st₁
  have hstart : BlankLine (trimStart first) = false := by
    rw [BlankLine, trim_trimStart]
    exact hfirst
  have hfolded : ¬ Folded (readLine first tail) := mt (folded_readLine hfirst).1 (h first hfind)
  have hfolded' : ¬ Folded (readLine (trimStart first) tail) :=
    mt (folded_readLine hstart).1 (not_folded_trimStart first)
  have htrim : trim (readLine (trimStart first) tail) = trim (readLine first tail) := by
    rw [trim_readLine, trim_readLine, trim_trimStart]
  rw [hopened, closed_cons hstart, hclosed, List.foldlM_append, hst₂]
  refine sameEnd_cons ?_ hfolded' hfolded htrim ?_ (closed tail)
  · rw [hfinish₂]
    exact hagree
  · rw [htrim, trim_readLine]
    exact trim_ne_nil_of_blankLine hfirst

/-- The white space at the end of the last line is not in the value of the field. -/
theorem trim_continuation (h : trim line = ['.'] → stripCr line = trimEnd line)
    (hline : BlankLine line = false) (value : Str) :
    trim (value ++ '\n' :: continuation (trimEnd line)) =
      trim (value ++ '\n' :: continuation (stripCr line)) := by
  obtain ⟨w, hw, hstrip⟩ : ∃ w, Blank w ∧ stripCr line = trimEnd line ++ w := by
    have hsplit : line = trimEnd line ++ line.rtakeWhile isWhitespace :=
      List.rdropWhile_append_rtakeWhile.symm
    have hlast : ∀ c ∈ (trimEnd line).getLast?, isWhitespace c = false := by
      intro c hc
      have hne : trimEnd line ≠ [] := by
        rintro hnil
        rw [hnil] at hc
        cases hc
      rw [List.getLast?_eq_getLast_of_ne_nil hne] at hc
      cases hc
      exact Bool.eq_false_iff.2 (List.rdropWhile_last_not isWhitespace line hne)
    refine ⟨stripCr (line.rtakeWhile isWhitespace), blank_stripCr fun c hc => List.mem_rtakeWhile_imp hc, ?_⟩
    conv_lhs => rw [hsplit]
    exact stripCr_append hlast _
  by_cases hnil : w = []
  · rw [hstrip, hnil, List.append_nil]
  · have hblank : ¬ Blank (trimEnd line) := by
      intro hblank
      have htrim := trim_eq_nil.2 hblank
      rw [trim_trimEnd] at htrim
      exact trim_ne_nil_of_blankLine hline htrim
    have hstart : trimStart (stripCr line) = trimStart (trimEnd line) ++ w := by
      rw [hstrip, trimStart_append hblank]
    -- neither is a line that stands for an empty one
    have hdot : trimStart (trimEnd line) ≠ ['.'] := by
      intro hdot
      have htrim : trim line = ['.'] := by
        rw [← trim_trimEnd, ← trim_trimStart, hdot]
        decide
      have hsame := h htrim
      rw [hstrip] at hsame
      exact hnil (by simpa using hsame)
    have hdot' : trimStart (stripCr line) ≠ ['.'] := by
      rw [hstart]
      intro hdot'
      have hlength := congrArg List.length hdot'
      have hpos : 0 < (trimStart (trimEnd line)).length :=
        List.length_pos_iff.2 fun hstart => hblank (List.dropWhile_eq_nil_iff.1 hstart)
      have hpos' := List.length_pos_iff.2 hnil
      simp only [List.length_append, List.length_singleton] at hlength
      omega
    rw [continuation, continuation, if_neg hdot, if_neg hdot', hstart]
    have hassoc : value ++ '\n' :: (trimStart (trimEnd line) ++ w) =
        (value ++ '\n' :: trimStart (trimEnd line)) ++ w := by simp
    rw [hassoc, trim_append_right _ hw]

/-- The last line of a stanza, with the white space at its end and without it. -/
theorem sameEnd_last (h : Folded line → trim line = ['.'] → stripCr line = trimEnd line)
    (hline : BlankLine line = false) (st : StanzaState) :
    (∃ st₁ st₁', stanzaLine u st (trimEnd line) = .ok st₁ ∧ stanzaLine u st (stripCr line) = .ok st₁' ∧
        Agree st₁.finish st₁'.finish) ∨
      ∃ e e', stanzaLine u st (trimEnd line) = .error e ∧ stanzaLine u st (stripCr line) = .error e' := by
  have hend : Folded (readLine line []) ↔ Folded line := folded_readLine hline
  change Folded (trimEnd line) ↔ Folded line at hend
  have hstrip : Folded (stripCr line) ↔ Folded line := by
    have hread : readLine line [['.']] = stripCr line := if_neg (by decide)
    rw [← hread]
    exact folded_readLine hline
  by_cases hfolded : Folded line
  · left
    refine ⟨_, _, stanzaLine_folded (hend.2 hfolded) st, stanzaLine_folded (hstrip.2 hfolded) st, ?_⟩
    have hvalue := trim_continuation (h hfolded) hline st.currentVal
    cases hkey : st.currentKey with
    | none => exact Agree.refl _
    | some k =>
      rw [Option.isSome_some, if_pos rfl, if_pos rfl]
      unfold StanzaState.finish
      dsimp only
      rw [hvalue]
      exact Agree.refl _
  · have htrim : trim (trimEnd line) = trim (stripCr line) := by rw [trim_trimEnd, trim_stripCr]
    have hne : trim (trimEnd line) ≠ [] := by
      rw [trim_trimEnd]
      exact trim_ne_nil_of_blankLine hline
    rcases sameField_of_trim (u := u) (Agree.refl st.finish) (mt hend.1 hfolded) (mt hstrip.1 hfolded) htrim hne
      with ⟨st₁, st₁', hst₁, hst₁', hsame⟩ | ⟨e, e', he, he'⟩
    · exact Or.inl ⟨st₁, st₁', hst₁, hst₁', hsame.finish⟩
    · exact Or.inr ⟨e, e', he, he'⟩

/-- A comment at the end of a stanza. -/
theorem sameEnd_at_end (hline : IsComment c line) (hcolon : ':' ∈ c) (hbefore : ¬ before.all BlankLine = true)
    (h : ∀ line ∈ before.reverse.find? (!BlankLine ·), Folded line → trim line = ['.'] →
      stripCr line = trimEnd line) (st : StanzaState) :
    SameEnd ((closed before).foldlM (stanzaLine u) st)
      ((before.map stripCr ++ [line]).foldlM (stanzaLine u) st) := by
  obtain ⟨init, last, tail, hls, hlast, htail, hfind, hclosed⟩ := exists_last hbefore
  rw [hclosed, hls, List.map_append, List.append_assoc]
  refine sameEnd_append (fun st => ?_) _ st
  rw [List.map_cons, List.cons_append, List.foldlM_cons, List.foldlM_cons]
  rcases sameEnd_last (u := u) (h last hfind) hlast st with ⟨st₁, st₁', hst₁, hst₁', hagree⟩ | ⟨e, e', he, he'⟩
  · rw [hst₁, hst₁']
    obtain ⟨st₂, hst₂, hfinish₂⟩ := foldlM_blank (u := u) (all_blank_stripCr htail) st₁'
    obtain ⟨st₃, hst₃, hagree₃⟩ := stanzaLine_comment (u := u) hline hcolon st₂
    change SameEnd (.ok st₁) ((tail.map stripCr ++ [line]).foldlM (stanzaLine u) st₁')
    rw [List.foldlM_append, hst₂]
    change SameEnd (.ok st₁) ([line].foldlM (stanzaLine u) st₂)
    rw [List.foldlM_cons, hst₃]
    refine .ok (hagree.trans ?_)
    rw [← hfinish₂]
    exact hagree₃
  · rw [he, he']
    exact .error e e'

/-- **A comment with a colon that takes nothing away changes no other field.** -/
theorem sameEnd_comment (hcolon : ':' ∈ c) (h : Clear before behind) (st : StanzaState) :
    SameEnd ((closed (opened (before ++ behind))).foldlM (stanzaLine u) st)
      ((closed (opened (before ++ ('#' :: c) :: behind))).foldlM (stanzaLine u) st) := by
  obtain ⟨line, hline, hlines⟩ := closed_comment before behind c
  rw [hlines]
  by_cases hbefore : before.all BlankLine = true
  · rw [opened_blank_append hbefore, opened_blank hbefore]
    exact sameEnd_first hline hcolon h.unfolded st
  rw [opened_append hbefore]
  by_cases hbehind : behind.all BlankLine = true
  · rw [closed_append_blank hbehind, closed_blank hbehind]
    refine sameEnd_at_end hline hcolon ?_ (h.noDot hbehind) st
    obtain ⟨_, first, tail, -, -, hfirst, -, -, hopened⟩ := exists_first_line hbefore
    rw [hopened, List.all_cons, Bool.and_eq_true, BlankLine, trim_trimStart]
    rintro ⟨hblank, -⟩
    rw [BlankLine, hblank] at hfirst
    cases hfirst
  · rw [closed_append hbehind]
    refine sameEnd_append (fun st => ?_) _ st
    obtain ⟨st₁, hst₁, hagree⟩ := stanzaLine_comment (u := u) hline hcolon st
    rw [List.foldlM_cons, hst₁]
    exact sameEnd_behind hagree h.unfolded

end Clear

/-! ### Texts -/

/-- The lines of the stanza in front of a place in the text. -/
def linesBefore (text : Str) (i : ℕ) : List Str := ((text.splitOn '\n').take i).rtakeWhile (· ≠ [])

/-- The lines of the stanza behind it. -/
def linesBehind (text : Str) (i : ℕ) : List Str := ((text.splitOn '\n').drop i).takeWhile (· ≠ [])

/-- The stanzas in front of that one. -/
def stanzasBefore (text : Str) (i : ℕ) : List Str :=
  splitDeb822Stanzas (joinLines (((text.splitOn '\n').take i).rdropWhile (· ≠ [])))

/-- The stanzas behind it. -/
def stanzasBehind (text : Str) (i : ℕ) : List Str :=
  splitDeb822Stanzas (joinLines (((text.splitOn '\n').drop i).dropWhile (· ≠ [])))

/-- Another stanza than that at the place is rejected, or one of its lines is malformed, where white space
in front of the first line does not count if that line stands in front of the place. -/
def RejectedAround (u : Unicode) (text : Str) (i : ℕ) : Prop :=
  (∃ stanza ∈ stanzasBefore text i ++ stanzasBehind text i, ∀ fields,
      parseDeb822Stanza u stanza ≠ .ok fields) ∨
    ∃ line ∈ opened (linesBefore text i) ++ linesBehind text i, Malformed line

section Texts

variable {u : Unicode} {text c : Str} {i : ℕ} {ls ls' : List Str} {es : List SourceEntry}

/-- An empty line ends a stanza. -/
theorem splitStanzas_empty_line (ls ls' : List Str) :
    splitStanzas (joinLines (ls ++ [] :: ls')) = splitStanzas (joinLines ls) ++ splitStanzas (joinLines ls') := by
  by_cases hls : ls = [] <;> by_cases hls' : ls' = []
  · subst hls
    subst hls'
    decide
  · subst hls
    rw [List.nil_append, joinLines_cons _ hls', List.nil_append, splitStanzas_newline_cons]
    rfl
  · subst hls'
    have hjoin : joinLines (ls ++ [[]]) = joinLines ls ++ ['\n'] := by
      rw [joinLines, intercalate_append hls (List.cons_ne_nil _ _)]
      simp [joinLines]
    rw [hjoin, splitStanzas_newline]
    exact (List.append_nil _).symm
  · have hjoin : joinLines (ls ++ [] :: ls') = joinLines ls ++ '\n' :: '\n' :: joinLines ls' := by
      rw [joinLines, intercalate_append hls (List.cons_ne_nil _ _)]
      change joinLines ls ++ (['\n'] ++ joinLines ([] :: ls')) = _
      rw [joinLines_cons _ hls']
      rfl
    rw [hjoin, splitStanzas_append]

/-- Behind an empty line, stanzas begin anew. -/
theorem splitStanzas_append_lines (h : ls = [] ∨ ls.getLast? = some []) (ls' : List Str) :
    splitStanzas (joinLines (ls ++ ls')) = splitStanzas (joinLines ls) ++ splitStanzas (joinLines ls') := by
  rcases h with rfl | h
  · rfl
  · obtain ⟨init, rfl⟩ := List.getLast?_eq_some_iff.1 h
    have hinit : splitStanzas (joinLines (init ++ [[]])) = splitStanzas (joinLines init) :=
      (splitStanzas_empty_line init []).trans (List.append_nil _)
    rw [List.append_assoc, List.singleton_append, splitStanzas_empty_line, hinit]

theorem splitStanzas_lines_append (h : ls' = [] ∨ ls'.head? = some []) (ls : List Str) :
    splitStanzas (joinLines (ls ++ ls')) = splitStanzas (joinLines ls) ++ splitStanzas (joinLines ls') := by
  rcases h with rfl | h
  · rw [List.append_nil]
    exact (List.append_nil _).symm
  · obtain ⟨tail, rfl⟩ := List.head?_eq_some_iff.1 h
    have htail : splitStanzas (joinLines ([] :: tail)) = splitStanzas (joinLines tail) :=
      splitStanzas_empty_line [] tail
    rw [splitStanzas_empty_line, htail]

/-- The stanzas of a text around a place. -/
theorem splitStanzas_around (text : Str) (i : ℕ) (mid : List Str) :
    splitStanzas (joinLines ((text.splitOn '\n').take i ++ mid ++ (text.splitOn '\n').drop i)) =
      stanzasBefore text i ++ splitStanzas (joinLines (linesBefore text i ++ mid ++ linesBehind text i)) ++
        stanzasBehind text i := by
  have hbefore : ((text.splitOn '\n').take i).rdropWhile (· ≠ []) ++ linesBefore text i =
      (text.splitOn '\n').take i := List.rdropWhile_append_rtakeWhile
  have hbehind : linesBehind text i ++ ((text.splitOn '\n').drop i).dropWhile (· ≠ []) =
      (text.splitOn '\n').drop i := List.takeWhile_append_dropWhile
  have hlast : ((text.splitOn '\n').take i).rdropWhile (· ≠ []) = [] ∨
      (((text.splitOn '\n').take i).rdropWhile (· ≠ [])).getLast? = some [] := by
    refine or_iff_not_imp_left.2 fun hne => ?_
    have hlast := List.rdropWhile_last_not _ _ hne
    simp only [decide_eq_true_eq, not_not] at hlast
    rw [List.getLast?_eq_getLast_of_ne_nil hne, hlast]
  have hfirst : ((text.splitOn '\n').drop i).dropWhile (· ≠ []) = [] ∨
      (((text.splitOn '\n').drop i).dropWhile (· ≠ [])).head? = some [] := by
    have hhead := List.head?_dropWhile_not (· ≠ []) ((text.splitOn '\n').drop i)
    cases hdrop : ((text.splitOn '\n').drop i).dropWhile (· ≠ []) with
    | nil => exact Or.inl rfl
    | cons first tail =>
      rw [hdrop] at hhead
      simp only [List.head?_cons, decide_eq_false_iff_not, not_not] at hhead
      rw [List.head?_cons, hhead]
      exact Or.inr rfl
  rw [← hbefore, ← hbehind, ← List.append_assoc, splitStanzas_lines_append hfirst, List.append_assoc,
    List.append_assoc, splitStanzas_append_lines hlast, ← List.append_assoc (linesBefore text i)]
  rfl

/-- What is read of some stanzas. -/
def Reads (u : Unicode) (stanzas : List Str) (es : List SourceEntry) : Prop :=
  ∃ fss, List.Forall₂ (fun stanza fields => parseDeb822Stanza u stanza = .ok fields) stanzas fss ∧
    es = fss.flatMap (stanzaEntries u)

theorem reads_append {stanzas stanzas' : List Str} : Reads u (stanzas ++ stanzas') es ↔
    ∃ es₁ es₂, Reads u stanzas es₁ ∧ Reads u stanzas' es₂ ∧ es = es₁ ++ es₂ := by
  constructor
  · rintro ⟨fss, hfss, rfl⟩
    obtain ⟨fss₁, fss₂, rfl, h₁, h₂⟩ : ∃ fss₁ fss₂, fss = fss₁ ++ fss₂ ∧
        List.Forall₂ (fun stanza fields => parseDeb822Stanza u stanza = .ok fields) stanzas fss₁ ∧
          List.Forall₂ (fun stanza fields => parseDeb822Stanza u stanza = .ok fields) stanzas' fss₂ := by
      refine ⟨fss.take stanzas.length, fss.drop stanzas.length, (List.take_append_drop _ _).symm, ?_, ?_⟩
      · exact (List.forall₂_take_append _ _ _ hfss.flip).flip
      · exact (List.forall₂_drop_append _ _ _ hfss.flip).flip
    exact ⟨_, _, ⟨fss₁, h₁, rfl⟩, ⟨fss₂, h₂, rfl⟩, List.flatMap_append⟩
  · rintro ⟨es₁, es₂, ⟨fss₁, h₁, rfl⟩, ⟨fss₂, h₂, rfl⟩, rfl⟩
    exact ⟨fss₁ ++ fss₂, List.rel_append h₁ h₂, List.flatMap_append.symm⟩

theorem reads_run (hne : ∀ line ∈ ls, line ≠ []) (hnl : ∀ line ∈ ls, '\n' ∉ line) :
    Reads u (splitStanzas (joinLines ls)) es ↔
      ∃ st, (closed (opened ls)).foldlM (stanzaLine u) ⟨.empty, none, []⟩ = .ok st ∧
        es = stanzaEntries u st.finish := by
  have hstanza : parseDeb822Stanza u (trim (joinLines ls)) =
      ((closed (opened ls)).foldlM (stanzaLine u) ⟨.empty, none, []⟩).map StanzaState.finish := by
    rw [parseDeb822Stanza, lines_run hnl]
  have hsplit : splitStanzas (joinLines ls) = [trim (joinLines ls)].filter (· ≠ []) := by
    by_cases hnil : ls = []
    · rw [hnil]
      rfl
    · exact splitStanzas_joinLines hne hnl hnil
  rw [hsplit]
  by_cases hblank : trim (joinLines ls) = []
  · -- a blank stanza is left out; read, it would have no fields
    have hclosed : closed (opened ls) = [] := by
      rw [← lines_run hnl, hblank]
      rfl
    rw [hblank, hclosed]
    constructor
    · rintro ⟨fss, hfss, rfl⟩
      cases hfss
      exact ⟨_, rfl, rfl⟩
    · rintro ⟨st, hst, rfl⟩
      cases hst
      exact ⟨[], .nil, rfl⟩
  · rw [List.filter_cons_of_pos (by simpa using hblank), List.filter_nil]
    constructor
    · rintro ⟨fss, hfss, rfl⟩
      cases hfss with
      | cons hfields hnil =>
        cases hnil
        rw [hstanza] at hfields
        obtain ⟨st, hst, rfl⟩ := Loop.map_eq_ok.1 hfields
        exact ⟨st, hst, List.flatMap_singleton _ _⟩
    · rintro ⟨st, hst, rfl⟩
      refine ⟨[st.finish], .cons ?_ .nil, (List.flatMap_singleton _ _).symm⟩
      rw [hstanza, hst]
      rfl

theorem reads_congr {x y : Except SourcesError StanzaState} (h : SameEnd x y) (es : List SourceEntry) :
    (∃ st, x = .ok st ∧ es = stanzaEntries u st.finish) ↔
      ∃ st, y = .ok st ∧ es = stanzaEntries u st.finish := by
  cases h with
  | error e e' =>
    constructor
    · rintro ⟨_, hst, -⟩
      cases hst
    · rintro ⟨_, hst, -⟩
      cases hst
  | ok hagree =>
    constructor
    · rintro ⟨_, hst, rfl⟩
      cases hst
      exact ⟨_, rfl, hagree.stanzaEntries⟩
    · rintro ⟨_, hst, rfl⟩
      cases hst
      exact ⟨_, rfl, hagree.stanzaEntries.symm⟩

theorem parseDeb822_reads {l : SourcesList} :
    parseDeb822 u text = .ok l ↔ Reads u (splitStanzas text) l.entries := parseDeb822_eq_ok

theorem mem_linesBefore {line : Str} (h : line ∈ linesBefore text i) : line ≠ [] ∧ '\n' ∉ line := by
  refine ⟨by simpa using List.mem_rtakeWhile_imp h, ?_⟩
  exact newline_notMem_piece (List.take_subset _ _ ((List.rtakeWhile_suffix _ _).subset h))

theorem mem_linesBehind {line : Str} (h : line ∈ linesBehind text i) : line ≠ [] ∧ '\n' ∉ line := by
  refine ⟨by simpa using List.mem_takeWhile_imp h, ?_⟩
  exact newline_notMem_piece (List.drop_subset _ _ ((List.takeWhile_prefix _).subset h))

/-- What is read of a text, with lines put into the stanza around a place. -/
theorem parseDeb822_around (u : Unicode) (text : Str) (i : ℕ) {mid : List Str}
    (hmid : ∀ line ∈ mid, line ≠ [] ∧ '\n' ∉ line) (l : SourcesList) :
    parseDeb822 u (joinLines ((text.splitOn '\n').take i ++ mid ++ (text.splitOn '\n').drop i)) = .ok l ↔
      ∃ es₁ es₂ es₃, Reads u (stanzasBefore text i) es₁ ∧ (∃ st, (closed (opened (linesBefore text i ++ mid ++
        linesBehind text i))).foldlM (stanzaLine u) ⟨.empty, none, []⟩ = .ok st ∧
          es₂ = stanzaEntries u st.finish) ∧ Reads u (stanzasBehind text i) es₃ ∧
            l.entries = es₁ ++ es₂ ++ es₃ := by
  have hlines : ∀ line ∈ linesBefore text i ++ mid ++ linesBehind text i, line ≠ [] ∧ '\n' ∉ line := by
    simp only [List.mem_append]
    rintro line ((h | h) | h)
    · exact mem_linesBefore h
    · exact hmid line h
    · exact mem_linesBehind h
  rw [parseDeb822_reads, splitStanzas_around, reads_append]
  simp only [reads_append, reads_run (fun line h => (hlines line h).1) fun line h => (hlines line h).2]
  constructor
  · rintro ⟨_, es₃, ⟨es₁, es₂, h₁, h₂, rfl⟩, h₃, heq⟩
    exact ⟨es₁, es₂, es₃, h₁, h₂, h₃, heq⟩
  · rintro ⟨es₁, es₂, es₃, h₁, h₂, h₃, heq⟩
    exact ⟨_, es₃, ⟨es₁, es₂, h₁, h₂, rfl⟩, h₃, heq⟩

/-- What is read of a text. -/
theorem parseDeb822_without (u : Unicode) (text : Str) (i : ℕ) (l : SourcesList) :
    parseDeb822 u text = .ok l ↔
      ∃ es₁ es₂ es₃, Reads u (stanzasBefore text i) es₁ ∧ (∃ st, (closed (opened (linesBefore text i ++
        linesBehind text i))).foldlM (stanzaLine u) ⟨.empty, none, []⟩ = .ok st ∧
          es₂ = stanzaEntries u st.finish) ∧ Reads u (stanzasBehind text i) es₃ ∧
            l.entries = es₁ ++ es₂ ++ es₃ := by
  have hwithout := parseDeb822_around u text i (List.forall_mem_nil _) l
  have htext : joinLines (text.splitOn '\n') = text := List.intercalate_splitOn '\n'
  rwa [List.append_nil, List.take_append_drop, htext, List.append_nil] at hwithout

/-- What is read of a text with a comment. -/
theorem parseDeb822_with (u : Unicode) (text : Str) (i : ℕ) (hc : '\n' ∉ c) (l : SourcesList) :
    parseDeb822 u (insertLine text i ('#' :: c)) = .ok l ↔
      ∃ es₁ es₂ es₃, Reads u (stanzasBefore text i) es₁ ∧ (∃ st, (closed (opened (linesBefore text i ++
        ('#' :: c) :: linesBehind text i))).foldlM (stanzaLine u) ⟨.empty, none, []⟩ = .ok st ∧
          es₂ = stanzaEntries u st.finish) ∧ Reads u (stanzasBehind text i) es₃ ∧
            l.entries = es₁ ++ es₂ ++ es₃ := by
  have hmid : ∀ line ∈ ['#' :: c], line ≠ [] ∧ '\n' ∉ line :=
    List.forall_mem_singleton.2 ⟨List.cons_ne_nil _ _, by simpa using hc⟩
  have hwith := parseDeb822_around u text i hmid l
  rwa [List.append_assoc, List.singleton_append, List.append_assoc, List.singleton_append] at hwith

/-- **In a stanza, a comment without a colon makes the text fail.** -/
theorem parseDeb822_malformed (hc : '\n' ∉ c) (hcolon : ':' ∉ c) (l : SourcesList) :
    parseDeb822 u (insertLine text i ('#' :: c)) ≠ .ok l := by
  intro hl
  obtain ⟨_, _, _, -, ⟨st, hst, -⟩, -, -⟩ := (parseDeb822_with u text i hc l).1 hl
  refine foldlM_malformed (malformed_closed (malformed_opened ⟨'#' :: c, ?_, malformed_comment hcolon⟩)) _ _ hst
  exact List.mem_append_right _ List.mem_cons_self

/-- **With a colon it is inert where it takes nothing away.** -/
theorem parseDeb822_clear (hc : '\n' ∉ c) (hcolon : ':' ∈ c)
    (hclear : Clear (linesBefore text i) (linesBehind text i)) :
    SameOutcome (parseDeb822 u (insertLine text i ('#' :: c))) (parseDeb822 u text) := by
  intro l
  rw [parseDeb822_with u text i hc, parseDeb822_without u text i]
  have hsame := sameEnd_comment (u := u) hcolon hclear ⟨.empty, none, []⟩
  have hcongr : ∀ es, _ ↔ _ := fun es => (reads_congr (u := u) hsame es).symm
  simp only [hcongr]

theorem Reads.accepted {stanzas : List Str} (h : Reads u stanzas es) {stanza : Str} (hmem : stanza ∈ stanzas) :
    ∃ fields, parseDeb822Stanza u stanza = .ok fields := by
  obtain ⟨fss, hfss, -⟩ := h
  obtain ⟨fields, -, hfields⟩ := Loop.exists_of_mem_right hfss.flip hmem
  exact ⟨fields, hfields⟩

/-- **It does nothing to a text that is rejected for other lines.** -/
theorem parseDeb822_rejected (hc : '\n' ∉ c) (h : RejectedAround u text i) :
    SameOutcome (parseDeb822 u (insertLine text i ('#' :: c))) (parseDeb822 u text) := by
  intro l
  rw [parseDeb822_with u text i hc, parseDeb822_without u text i]
  rcases h with ⟨stanza, hmem, hrejected⟩ | hmalformed
  · -- of the other stanzas nothing is read in either text
    have hreads : ∀ es₁ es₃, Reads u (stanzasBefore text i) es₁ → Reads u (stanzasBehind text i) es₃ → False := by
      intro es₁ es₃ h₁ h₃
      obtain ⟨fields, hfields⟩ := (List.mem_append.1 hmem).elim h₁.accepted h₃.accepted
      exact hrejected fields hfields
    constructor
    · rintro ⟨es₁, _, es₃, h₁, -, h₃, -⟩
      exact (hreads es₁ es₃ h₁ h₃).elim
    · rintro ⟨es₁, _, es₃, h₁, -, h₃, -⟩
      exact (hreads es₁ es₃ h₁ h₃).elim
  · have hwith : ∃ line ∈ closed (opened (linesBefore text i ++ ('#' :: c) :: linesBehind text i)),
        Malformed line := by
      obtain ⟨line, hmem, hline⟩ := hmalformed
      rw [opened_comment]
      refine malformed_closed ⟨line, ?_, hline⟩
      exact (List.sublist_cons_self _ _).append_left _ |>.subset hmem
    constructor
    · rintro ⟨_, _, _, -, ⟨st, hst, -⟩, -, -⟩
      exact (foldlM_malformed hwith _ _ hst).elim
    · rintro ⟨_, _, _, -, ⟨st, hst, -⟩, -, -⟩
      exact (foldlM_malformed (malformed_around hmalformed) _ _ hst).elim

/-- A text is read when its stanzas are. -/
theorem parseDeb822_isOk : (∃ l, parseDeb822 u text = .ok l) ↔
    ∀ stanza ∈ splitDeb822Stanzas text, ∃ fields, parseDeb822Stanza u stanza = .ok fields := by
  constructor
  · rintro ⟨l, hl⟩ stanza hstanza
    exact (parseDeb822_reads.1 hl).accepted hstanza
  · intro h
    obtain ⟨fss, hfss⟩ := Loop.exists_forall₂ h
    exact ⟨⟨fss.flatMap (stanzaEntries u)⟩, parseDeb822_eq_ok.2 ⟨fss, hfss, rfl⟩⟩

/-- **When a comment is inert.** In the one-line format, exactly when its first word is not a type, unless a
line fails by itself; in the other one, never without a colon, unless a stanza fails by itself, and with a
colon where it takes nothing away or the text fails for other lines. -/
theorem comment_inert_iff (u : Unicode) (text c : Str) (i : ℕ) (hc : '\n' ∉ c) :
    (¬ IsEntry u c →
      (SameOutcome (parseOneLine u (insertLine text i ('#' :: c))) (parseOneLine u text) ↔
        ¬ HasType c ∨ ∃ raw ∈ text.splitOn '\n', ∀ r, parseOneLineLine u raw ≠ .ok r)) ∧
    (':' ∉ c →
      (SameOutcome (parseDeb822 u (insertLine text i ('#' :: c))) (parseDeb822 u text) ↔
        ∃ stanza ∈ splitDeb822Stanzas text, ∀ fields, parseDeb822Stanza u stanza ≠ .ok fields)) ∧
    (':' ∈ c → Clear (linesBefore text i) (linesBehind text i) ∨ RejectedAround u text i →
      SameOutcome (parseDeb822 u (insertLine text i ('#' :: c))) (parseDeb822 u text)) := by
  refine ⟨fun hentry => parseOneLine_insertLine_iff hc hentry, fun hcolon => ?_,
    fun hcolon h => h.elim (parseDeb822_clear hc hcolon) (parseDeb822_rejected hc)⟩
  rw [sameOutcome_iff_of_fails fun l => parseDeb822_malformed hc hcolon l, parseDeb822_isOk]
  simp only [not_forall, not_exists, exists_prop]

end Texts

/-! ### Three comments that are not inert -/

def mirrorText : Str := "Types: deb\nURIs: http://x\n http://y\nSuites: s\n".toList

/-- Its first stanza is rejected. -/
def brokenText : Str := "bad\n\nTypes: deb\nURIs: http://x\n http://y\nSuites: s\n".toList

/-- A note in front of the whole stanza is a field of its own. In a text that is rejected anyway, a comment
may take a line away. -/
theorem comment_inert_iff_mirror :
    (SameOutcome (parseDeb822 .ascii (insertLine mirrorText 0 "# note: two mirrors".toList))
      (parseDeb822 .ascii mirrorText)) ∧
    (SameOutcome (parseOneLine .ascii (insertLine mirrorText 0 "# note: two mirrors".toList))
      (parseOneLine .ascii mirrorText)) ∧
    (SameOutcome (parseDeb822 .ascii (insertLine brokenText 4 "# second: y".toList))
      (parseDeb822 .ascii brokenText)) := by
  have hentry : ¬ IsEntry .ascii " note: two mirrors".toList := by
    rintro ⟨e, block, hwords, -⟩
    have htype := congrArg List.head? hwords
    rw [List.head?_cons] at htype
    revert htype
    cases e.sourceType <;> decide
  have hclear : Clear (linesBefore mirrorText 0) (linesBehind mirrorText 0) :=
    ⟨by decide, fun _ => by decide⟩
  obtain ⟨honeLine, -, hdeb822⟩ :=
    comment_inert_iff .ascii mirrorText " note: two mirrors".toList 0 (by decide)
  have hrejected : RejectedAround .ascii brokenText 4 := by
    refine Or.inl ⟨"bad".toList, by decide, fun fields hfields => ?_⟩
    have hnot : (parseDeb822Stanza .ascii "bad".toList).isOk = false := by decide
    rw [hfields] at hnot
    cases hnot
  obtain ⟨-, -, hbroken⟩ := comment_inert_iff .ascii brokenText " second: y".toList 4 (by decide)
  refine ⟨hdeb822 (by decide) (Or.inl hclear), (honeLine hentry).2 (Or.inl ?_),
    hbroken (by decide) (Or.inr hrejected)⟩
  rintro ⟨t, ht⟩
  revert ht
  cases t <;> decide

theorem comment_not_inert :
    (∃ e, parseOneLine .ascii (insertLine "deb http://x s\n".toList 0 "# deb-src lines".toList) = .error e) ∧
      (parseOneLine .ascii "deb http://x s\n".toList).isOk = true ∧
      (∃ e, parseDeb822 .ascii (insertLine mirrorText 0 "# two mirrors".toList) = .error e) ∧
      (parseDeb822 .ascii mirrorText).map (fun l => l.entries.map (·.uri)) =
        .ok ["http://x".toList, "http://y".toList] ∧
      (parseDeb822 .ascii (insertLine mirrorText 2 "# second: y".toList)).map
        (fun l => l.entries.map (·.uri)) = .ok ["http://x".toList] := by
  refine ⟨⟨.parse "missing suite in: \"deb-src lines\"", by decide +kernel⟩, by decide +kernel,
    ⟨.parse "malformed deb822 line: \"# two mirrors\"", by decide +kernel⟩, by decide +kernel,
    by decide +kernel⟩

end Sources
end DebToolkit
