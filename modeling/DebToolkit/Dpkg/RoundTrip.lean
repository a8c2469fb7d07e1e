import Mathlib.Algebra.Order.BigOperators.Group.List
import Mathlib.Algebra.Order.Ring.Nat
import DebToolkit.Control.Lines
import DebToolkit.Dpkg.Record

/-!
# Rewriting the status database

`write_atomic` prints the texts of a record as they are, also those with continuation lines, which
`parse_str` then reads as lines of their own.

* `parseStr_serialize`: a database of records without continuation lines is read back;
* `parseStr_serialize_iff`: no other is. What is read of a record is shorter than what was printed, by
  at least one character for every line feed in its texts (`size_le`): a continuation line loses its
  marker or its line feed.
-/

namespace DebToolkit

open Text

/-! ### Records that are read back -/

/-- What `parseStr` reads of a list of paragraphs, the first of which is the `n`-th of the file. -/
def readAll (hash : ℕ → FieldOrder) (n : ℕ) (paras : List ControlParagraph) :
    List InstalledPackage :=
  (paras.zipIdx n).filterMap fun p => readRecord (hash p.2) p.1

variable {hash : ℕ → FieldOrder} {n : ℕ}

theorem parseStr_eq (hash : ℕ → FieldOrder) (content : Str) :
    parseStr hash content = .ok ⟨readAll hash 0 (parseControl content)⟩ := rfl

theorem readAll_append (paras paras' : List ControlParagraph) :
    readAll hash n (paras ++ paras') =
      readAll hash n paras ++ readAll hash (n + paras.length) paras' := by
  rw [readAll, List.zipIdx_append, List.filterMap_append]
  rfl

theorem readAll_paragraph {pkg : InstalledPackage} (h : pkg.WellRead) (n : ℕ) :
    readAll hash n [pkg.paragraph] = [pkg] := by
  simp [readAll, h.readRecord]

/-- Records without continuation lines are read back, in order, whatever the others are. -/
theorem sublist_readAll (keep : InstalledPackage → Prop) [DecidablePred keep]
    {packages : List InstalledPackage}
    (h : ∀ pkg ∈ packages, keep pkg → pkg.WellRead ∧ pkg.SingleLine) (n : ℕ) :
    (packages.filter keep).Sublist
      (readAll hash n (packages.flatMap fun pkg => parseControl (render pkg.fields))) := by
  induction packages generalizing n with
  | nil => exact List.Sublist.refl _
  | cons pkg packages ih =>
    have ih := ih fun p hp => h p (List.mem_cons_of_mem _ hp)
    rw [List.flatMap_cons, readAll_append]
    by_cases hpkg : keep pkg
    · obtain ⟨hread, hline⟩ := h pkg (List.mem_cons_self ..) hpkg
      rw [List.filter_cons_of_pos (by simpa using hpkg), hread.parseControl hline,
        readAll_paragraph hread]
      exact (ih _).cons_cons pkg
    · rw [List.filter_cons_of_neg (by simpa using hpkg)]
      exact (ih _).trans (List.sublist_append_right _ _)

theorem readAll_paragraphs {packages : List InstalledPackage} (h : ∀ pkg ∈ packages, pkg.WellRead)
    (hline : ∀ pkg ∈ packages, pkg.SingleLine) (n : ℕ) :
    readAll hash n (packages.flatMap fun pkg => parseControl (render pkg.fields)) = packages := by
  induction packages generalizing n with
  | nil => rfl
  | cons pkg packages ih =>
    have hread := h pkg (List.mem_cons_self ..)
    rw [List.flatMap_cons, readAll_append, hread.parseControl (hline pkg (List.mem_cons_self ..)),
      readAll_paragraph hread, ih (fun p hp => h p (List.mem_cons_of_mem _ hp))
        fun p hp => hline p (List.mem_cons_of_mem _ hp)]
    rfl

/-- A database of records without continuation lines is read back. -/
theorem parseStr_serialize {db : StatusDb} (h : ∀ pkg ∈ db.packages, pkg.WellRead)
    (hline : ∀ pkg ∈ db.packages, pkg.SingleLine) (hash : ℕ → FieldOrder) :
    parseStr hash db.serialize = .ok db := by
  rw [parseStr_eq, parseControl_serialize, readAll_paragraphs h hline]

/-! ### The size of what is read -/

/-- The names of the fields whose values are kept with their continuation lines. -/
def textNames : List Str :=
  ["Package".toList, "Version".toList, "Architecture".toList, "Depends".toList, "Pre-Depends".toList]

/-- The length of a value that may be read as a text of a record. -/
def valueSize (f : Str × Str) : ℕ :=
  if toLowercase f.1 ∈ textNames.map toLowercase then f.2.length else 0

def size (para : ControlParagraph) : ℕ := (para.entries.map valueSize).sum

/-- What a line can add to a paragraph. -/
def lineSize (line : Str) : ℕ :=
  if line.head? = some ' ' ∨ line.head? = some '\t' then line.length
  else (splitOnce ':' line).elim 0 fun f => valueSize (trim f.1, trim f.2)

theorem parseLine_size {strict : Bool} {st st' : LineState Str} {line : Str}
    (h : parseLine strict st line = .ok st') : size st'.para ≤ size st.para + lineSize line := by
  rcases parseLine_cases h with rfl | ⟨c, rest, key, rfl, hc, -, rfl⟩ | ⟨name, value, hf, -, rfl⟩
  · exact Nat.le_add_right _ _
  · have hsize : lineSize (c :: rest) = rest.length + 1 := by
      rw [lineSize, if_pos (by simpa using hc), List.length_cons]
    rw [hsize]
    refine OrdMap.sum_modify_le valueSize (fun v => ?_) st.para
    unfold valueSize
    split_ifs
    · simp
    · exact Nat.zero_le _
  · obtain ⟨hspace, htab, hcut⟩ := hf
    have hsize : lineSize line = valueSize (trim name, trim value) := by
      rw [lineSize, if_neg (by simp [hspace, htab]), hcut]; rfl
    rw [hsize]
    exact OrdMap.sum_set_le valueSize st.para _ _

theorem parseParagraph_size {strict : Bool} {stanza : Str} {para : ControlParagraph}
    (h : parseParagraph stanza strict = .ok para) :
    size para ≤ ((lines stanza).map lineSize).sum := by
  obtain ⟨st, hfold, rfl⟩ := parseParagraph_ok h
  have hbound := Loop.foldlM_ok (I := fun todo st => size st.para + (todo.map lineSize).sum ≤
    ((lines stanza).map lineSize).sum) hfold ?_ ?_
  · simpa using hbound
  · rw [show size (LineState.start : LineState Str).para = 0 from rfl, Nat.zero_add]
  · intro line todo st next hst hline
    have hnext := parseLine_size hline
    rw [List.map_cons, List.sum_cons] at hst
    omega

theorem parseControl_size (content : Str) :
    ((parseControl content).map size).sum ≤
      (((splitStanzas content).flatMap lines).map lineSize).sum := by
  rw [parseControl]
  induction splitStanzas content with
  | nil => exact le_rfl
  | cons stanza stanzas ih =>
    obtain ⟨para, hpara⟩ := parseParagraph_lenient stanza
    rw [List.map_cons, List.map_cons, List.sum_cons, List.flatMap_cons, List.map_append,
      List.sum_append, hpara, orEmpty]
    exact Nat.add_le_add (parseParagraph_size hpara) ih

/-! ### The size of a record -/

theorem sum_ite_mem {α : Type*} [DecidableEq α] {l : List α} (h : l.Nodup) (a : α) (m : ℕ) :
    (l.map fun b => if a = b then m else 0).sum = if a ∈ l then m else 0 := by
  induction l with
  | nil => rfl
  | cons b l ih =>
    obtain ⟨hb, hl⟩ := List.nodup_cons.1 h
    rw [List.map_cons, List.sum_cons, ih hl]
    by_cases hab : a = b
    · simp [hab, hb]
    · simp [hab]

/-- The lengths of the values of one name. -/
def nameSize (para : ControlParagraph) (k : Str) : ℕ :=
  (para.entries.map fun f => if toLowercase f.1 = k then f.2.length else 0).sum

theorem sum_nameSize (para : ControlParagraph) :
    ((textNames.map toLowercase).map (nameSize para)).sum = size para := by
  have hnodup : (textNames.map toLowercase).Nodup := by decide +kernel
  unfold nameSize size
  induction para.entries with
  | nil => rfl
  | cons f fs ih =>
    simp only [List.map_cons, List.sum_cons]
    rw [List.sum_map_add, ih, sum_ite_mem hnodup, valueSize]
    congr

/-- The values that are looked up under a name are among those of the name. -/
theorem get_length_le (hash : FieldOrder) (para : ControlParagraph) (field : Str) :
    (para.get hash field).elim 0 List.length ≤ nameSize para (toLowercase field) := by
  cases h : para.get hash field with
  | none => exact Nat.zero_le _
  | some v =>
    obtain ⟨k, hmem, hk⟩ := get_mem h
    refine List.le_sum_of_mem (List.mem_map.2 ⟨(k, v), hmem, ?_⟩)
    exact if_pos hk

namespace InstalledPackage

def size (pkg : InstalledPackage) : ℕ := (pkg.texts.map List.length).sum

/-- The number of continuation lines. -/
def newlines (pkg : InstalledPackage) : ℕ := (pkg.texts.map (List.count '\n')).sum

theorem size_eq (pkg : InstalledPackage) :
    pkg.size = pkg.name.length + pkg.version.length + pkg.architecture.length +
      pkg.depends.elim 0 List.length + pkg.preDepends.elim 0 List.length := by
  cases hd : pkg.depends <;> cases hp : pkg.preDepends <;> simp [size, texts, hd, hp] <;> omega

theorem newlines_eq (pkg : InstalledPackage) :
    pkg.newlines = pkg.name.count '\n' + pkg.version.count '\n' + pkg.architecture.count '\n' +
      pkg.depends.elim 0 (List.count '\n') + pkg.preDepends.elim 0 (List.count '\n') := by
  cases hd : pkg.depends <;> cases hp : pkg.preDepends <;> simp [newlines, texts, hd, hp] <;> omega

theorem newlines_eq_zero {pkg : InstalledPackage} : pkg.newlines = 0 ↔ pkg.SingleLine := by
  simp only [newlines, SingleLine, List.sum_eq_zero_iff, List.mem_map, forall_exists_index, and_imp,
    forall_apply_eq_imp_iff₂, List.count_eq_zero]

end InstalledPackage

theorem readRecord_size {hash : FieldOrder} {para : ControlParagraph} {pkg : InstalledPackage}
    (h : readRecord hash para = some pkg) : pkg.size ≤ size para := by
  obtain ⟨value, hname, -, -, hversion, harch, hdepends, hpre, -⟩ := readRecord_cases h
  have hgetD : ∀ o : Option Str, (o.getD []).length = o.elim 0 List.length := by
    intro o
    cases o <;> rfl
  have h1 := get_length_le hash para "Package".toList
  have h2 := get_length_le hash para "Version".toList
  have h3 := get_length_le hash para "Architecture".toList
  have h4 := get_length_le hash para "Depends".toList
  have h5 := get_length_le hash para "Pre-Depends".toList
  rw [hname, Option.elim_some] at h1
  rw [← hgetD, ← hversion] at h2
  rw [← hgetD, ← harch] at h3
  rw [← hdepends] at h4
  rw [← hpre] at h5
  rw [pkg.size_eq, ← sum_nameSize]
  simp only [textNames, List.map_cons, List.map_nil, List.sum_cons, List.sum_nil]
  omega

theorem readAll_size (hash : ℕ → FieldOrder) (n : ℕ) (paras : List ControlParagraph) :
    ((readAll hash n paras).map InstalledPackage.size).sum ≤ (paras.map size).sum := by
  induction paras generalizing n with
  | nil => exact le_rfl
  | cons para paras ih =>
    have ih := ih (n + 1)
    rw [readAll] at ih ⊢
    rw [List.zipIdx_cons, List.filterMap_cons, List.map_cons, List.sum_cons]
    cases hread : readRecord (hash n) para with
    | none =>
      simp only
      omega
    | some pkg =>
      have := readRecord_size hread
      simp only [List.map_cons, List.sum_cons]
      omega

/-! ### The lines of a printed record -/

/-- The most that the lines of a printed field can add: the value on the line of the name, if it is that
of a text, and its continuation lines whole. -/
def fieldCosts (f : Str × Str) : List ℕ :=
  (if toLowercase f.1 ∈ textNames.map toLowercase then ((f.2.splitOn '\n').headD []).length else 0) ::
    (f.2.splitOn '\n').tail.map List.length

/-- What the line of a stanza adds when it comes from `l`. -/
def Costs (l : Str) (m : ℕ) : Prop := ∀ x, FromLine x l → lineSize x ≤ m

theorem length_trim_le (s : Str) : (trim s).length ≤ s.length := by
  obtain ⟨a, b, hs, -, -⟩ := trim_spec s
  have := congrArg List.length hs
  simp only [List.length_append] at this
  omega

theorem lineSize_le (x : Str) : lineSize x ≤ x.length := by
  unfold lineSize
  split_ifs with h
  · exact le_rfl
  · cases hcut : splitOnce ':' x with
    | none => exact Nat.zero_le _
    | some f =>
      have hx := congrArg List.length (splitOnce_eq_some.1 hcut).1
      have := length_trim_le f.2
      simp only [Option.elim_some, valueSize]
      simp only [List.length_append, List.length_cons] at hx
      split_ifs
      · omega
      · exact Nat.zero_le _

theorem costs_length (l : Str) : Costs l l.length := by
  rintro x ⟨a, b, rfl, -⟩
  have := lineSize_le x
  simp only [List.length_append]
  omega

/-- The line of a name loses the blank behind the colon, or the colon with all that follows. -/
theorem costs_fieldLine {k w : Str} (hk : PlainName k) :
    Costs (k ++ ':' :: ' ' :: w) (if toLowercase k ∈ textNames.map toLowercase then w.length else 0) := by
  rintro x ⟨a, b, hx, ha⟩
  obtain ⟨c, t, hct, hc⟩ := hk.head
  have hnil : a = [] := by
    cases a with
    | nil => rfl
    | cons d a =>
      rw [hct] at hx
      have hd := ha d (List.mem_cons_self ..)
      rw [← (List.cons.inj hx).1, hc] at hd
      cases hd
  rw [hnil, List.nil_append] at hx
  cases x with
  | nil => exact Nat.zero_le _
  | cons d x =>
    have hd : d = c := by
      rw [hct] at hx
      exact (List.cons.inj hx).1.symm
    have hblank : ¬ ((d :: x).head? = some ' ' ∨ (d :: x).head? = some '\t') := by
      rw [List.head?_cons, hd, Option.some_inj, Option.some_inj]
      rintro (rfl | rfl) <;> exact absurd hc (by decide)
    rw [lineSize, if_neg hblank]
    cases hcut : splitOnce ':' (d :: x) with
    | none => exact Nat.zero_le _
    | some f =>
      -- the first colon is that of the printed line
      obtain ⟨hx', hp⟩ := splitOnce_eq_some.1 hcut
      have hsame : some (k, ' ' :: w) = some (f.1, f.2 ++ b) := by
        rw [← splitOnce_append hk.2.2.1, hx, hx', List.append_assoc, List.cons_append,
          splitOnce_append hp]
      obtain ⟨hk', hw⟩ := Prod.mk.inj (Option.some.inj hsame)
      have hlen : (trim f.2).length ≤ w.length := by
        cases hq : f.2 with
        | nil => exact Nat.zero_le _
        | cons e q =>
          rw [hq, List.cons_append] at hw
          obtain ⟨rfl, rfl⟩ := List.cons.inj hw
          rw [trim_space_cons, List.length_append]
          exact (length_trim_le q).trans (Nat.le_add_right _ _)
      simp only [Option.elim_some, valueSize]
      rw [← hk', trim_of_trimmed hk.2.1]
      split_ifs
      · exact hlen
      · exact le_rfl

theorem splitOn_fieldLine {f : Str × Str} (hk : PlainName f.1) :
    (fieldLine f).splitOn '\n' =
      (f.1 ++ ':' :: ' ' :: (f.2.splitOn '\n').headD []) :: (f.2.splitOn '\n').tail := by
  obtain ⟨first, others, hv⟩ := List.exists_cons_of_ne_nil (List.splitOn_ne_nil '\n' f.2)
  have hprefix : ∀ (k : Str), '\n' ∉ k → (k ++ f.2).splitOn '\n' = (k ++ first) :: others := by
    intro k hnl
    induction k with
    | nil => exact hv
    | cons c k ih =>
      rw [List.mem_cons, not_or] at hnl
      rw [List.cons_append, splitOn_cons, if_neg (Ne.symm hnl.1), ih hnl.2]
      rfl
  have := hprefix (f.1 ++ [':', ' ']) (by simpa using hk.2.2.2)
  rw [hv]
  simpa [fieldLine] using this

theorem fieldLine_costs {f : Str × Str} (hk : PlainName f.1) :
    List.Forall₂ Costs ((fieldLine f).splitOn '\n') (fieldCosts f) := by
  rw [splitOn_fieldLine hk]
  refine .cons (costs_fieldLine hk) ?_
  rw [List.forall₂_map_right_iff, List.forall₂_same]
  exact fun l _ => costs_length l

theorem render_costs {fs : List (Str × Str)} (h : ∀ f ∈ fs, PlainName f.1) (hfs : fs ≠ []) :
    List.Forall₂ Costs ((render fs).splitOn '\n') (fs.flatMap fieldCosts) := by
  induction fs with
  | nil => exact absurd rfl hfs
  | cons f fs ih =>
    have hf := fieldLine_costs (h f (List.mem_cons_self ..))
    rw [List.flatMap_cons, render, List.map_cons]
    by_cases hnil : fs = []
    · rw [hnil]
      simpa using hf
    · rw [joinLines_cons _ (by simpa using hnil), List.splitOn_append_cons_self]
      exact List.rel_append hf (ih (fun g hg => h g (List.mem_cons_of_mem _ hg)) hnil)

theorem lines_costs {fs : List (Str × Str)} (h : ∀ f ∈ fs, PlainName f.1) (hfs : fs ≠ []) :
    (((splitStanzas (render fs)).flatMap lines).map lineSize).sum ≤ (fs.flatMap fieldCosts).sum := by
  have hembed := sublistForall₂_trans (T := fun x m => lineSize x ≤ m) (fun x l m hx hl => hl x hx)
    (lines_embed (render fs)) (sublistForall₂_of_forall₂ (render_costs h hfs))
  refine List.SublistForall₂.sum_le_sum ?_ fun _ _ => Nat.zero_le _
  rwa [List.sublistForall₂_map_left_iff]

/-! ### The bound -/

theorem sum_splitOn (v : Str) :
    ((v.splitOn '\n').map List.length).sum + v.count '\n' = v.length := by
  induction v with
  | nil => rfl
  | cons c v ih =>
    obtain ⟨first, others, hv⟩ := List.exists_cons_of_ne_nil (List.splitOn_ne_nil '\n' v)
    rw [hv, List.map_cons, List.sum_cons] at ih
    rw [splitOn_cons, hv, List.length_cons]
    split_ifs with hc
    · subst hc
      rw [List.count_cons_self, List.map_cons, List.map_cons, List.sum_cons, List.sum_cons]
      simp only [List.length_nil]
      omega
    · rw [List.count_cons_of_ne hc, List.modifyHead_cons, List.map_cons, List.sum_cons,
        List.length_cons]
      omega

theorem fieldCosts_text {f : Str × Str} (h : toLowercase f.1 ∈ textNames.map toLowercase) :
    (fieldCosts f).sum + f.2.count '\n' = f.2.length := by
  have := sum_splitOn f.2
  obtain ⟨first, others, hv⟩ := List.exists_cons_of_ne_nil (List.splitOn_ne_nil '\n' f.2)
  rw [fieldCosts, if_pos h]
  rw [hv, List.map_cons, List.sum_cons] at this
  rw [hv, List.headD_cons, List.tail_cons, List.sum_cons]
  exact this

theorem fieldCosts_other {f : Str × Str} (h : toLowercase f.1 ∉ textNames.map toLowercase)
    (hline : '\n' ∉ f.2) : (fieldCosts f).sum = 0 := by
  rw [fieldCosts, if_neg h, List.splitOn_eq_singleton hline]
  rfl

namespace InstalledPackage

theorem WellRead.costs {pkg : InstalledPackage} (h : pkg.WellRead) :
    (pkg.fields.flatMap fieldCosts).sum + pkg.newlines = pkg.size := by
  have htext : ∀ k ∈ textNames, ∀ v : Str, (fieldCosts (k, v)).sum + v.count '\n' = v.length :=
    fun k hk v => fieldCosts_text (List.mem_map_of_mem hk)
  have hstatus : toLowercase "Status".toList ∉ textNames.map toLowercase := by decide +kernel
  have hdescription : toLowercase "Description".toList ∉ textNames.map toLowercase := by
    decide +kernel
  have h0 : (fieldCosts ("Status".toList, pkg.status.display)).sum = 0 :=
    fieldCosts_other hstatus h.status.oneLine.2
  have h1 := htext "Package".toList (by simp [textNames]) pkg.name
  have h2 := htext "Version".toList (by simp [textNames]) pkg.version
  have h3 := htext "Architecture".toList (by simp [textNames]) pkg.architecture
  have h4 : (pkg.depends.toList.map fun v => (fieldCosts ("Depends".toList, v)).sum).sum +
      pkg.depends.elim 0 (List.count '\n') = pkg.depends.elim 0 List.length := by
    cases pkg.depends with
    | none => rfl
    | some v => simpa using htext "Depends".toList (by simp [textNames]) v
  have h5 : (pkg.preDepends.toList.map fun v => (fieldCosts ("Pre-Depends".toList, v)).sum).sum +
      pkg.preDepends.elim 0 (List.count '\n') = pkg.preDepends.elim 0 List.length := by
    cases pkg.preDepends with
    | none => rfl
    | some v => simpa using htext "Pre-Depends".toList (by simp [textNames]) v
  have h6 : (pkg.description.toList.map fun v => (fieldCosts ("Description".toList, v)).sum).sum = 0 := by
    cases hv : pkg.description with
    | none => rfl
    | some v => simpa using fieldCosts_other hdescription (h.description v hv).2
  have hsum : (pkg.fields.flatMap fieldCosts).sum = (pkg.fields.map fun f => (fieldCosts f).sum).sum := by
    rw [List.flatMap, List.sum_flatten, List.map_map]; rfl
  rw [hsum, pkg.size_eq, pkg.newlines_eq]
  simp only [fields, List.map_append, List.map_cons, List.map_nil, List.map_map, List.sum_append,
    List.sum_cons, List.sum_nil, Function.comp_def]
  omega

/-- What is read of a printed record. -/
theorem WellRead.size_le {pkg : InstalledPackage} (h : pkg.WellRead) (hash : ℕ → FieldOrder) (n : ℕ) :
    ((readAll hash n (DebToolkit.parseControl (render pkg.fields))).map size).sum + pkg.newlines ≤
      pkg.size := by
  have hread := readAll_size hash n (DebToolkit.parseControl (render pkg.fields))
  have hlines := parseControl_size (render pkg.fields)
  have hcosts := lines_costs (fun f hf => fieldNames_plain _ (name_mem hf)) pkg.fields_ne_nil
  have := h.costs
  omega

end InstalledPackage

/-! ### The round trip -/

theorem readAll_serialize_size {packages : List InstalledPackage} (h : ∀ pkg ∈ packages, pkg.WellRead)
    (hash : ℕ → FieldOrder) (n : ℕ) :
    ((readAll hash n (packages.flatMap fun pkg => parseControl (render pkg.fields))).map
        InstalledPackage.size).sum + (packages.map InstalledPackage.newlines).sum ≤
      (packages.map InstalledPackage.size).sum := by
  induction packages generalizing n with
  | nil => exact le_rfl
  | cons pkg packages ih =>
    have hpkg := (h pkg (List.mem_cons_self ..)).size_le hash n
    have hrest := ih (fun p hp => h p (List.mem_cons_of_mem _ hp))
      (n + (parseControl (render pkg.fields)).length)
    rw [List.flatMap_cons, readAll_append, List.map_append, List.sum_append, List.map_cons,
      List.sum_cons, List.map_cons, List.sum_cons]
    omega

/-- **A database that was parsed is read back from the text that `write_atomic` prints exactly when no
text of a record has continuation lines.** -/
theorem parseStr_serialize_iff {hash : ℕ → FieldOrder} {content : Str} {db : StatusDb}
    (h : parseStr hash content = .ok db) (hash' : ℕ → FieldOrder) :
    parseStr hash' db.serialize = .ok db ↔ ∀ pkg ∈ db.packages, pkg.SingleLine := by
  have hread := parseStr_wellRead h
  constructor
  · intro hback pkg hpkg
    rw [parseStr_eq, parseControl_serialize, Except.ok.injEq] at hback
    have hsize := readAll_serialize_size hread hash' 0
    have hpackages : readAll hash' 0 (db.packages.flatMap fun pkg => parseControl (render pkg.fields)) =
        db.packages := congrArg StatusDb.packages hback
    rw [hpackages] at hsize
    have hzero : (db.packages.map InstalledPackage.newlines).sum = 0 := by omega
    rw [List.sum_eq_zero_iff] at hzero
    exact InstalledPackage.newlines_eq_zero.1 (hzero _ (List.mem_map_of_mem hpkg))
  · intro hline
    exact parseStr_serialize hread hline hash'

/-- A status database of two records: the second has a synopsis, and a folded description. -/
def sampleStatus : Str :=
  "Package: bash\nStatus: install ok installed\nVersion: 5.1\n\n".toList ++
    "Package: dpkg\nStatus: hold ok unpacked\nDescription: package manager\n low-level tools\n".toList

def installedOk : PackageStatus := ⟨.install, .ok, .installed⟩

theorem parseStr_serialize_iff_sample :
    parseStr (fun _ => .inserted) (StatusDb.serialize
      ⟨[⟨"bash".toList, "5.1".toList, [], installedOk, none, none, none⟩,
        ⟨"dpkg".toList, [], [], ⟨.hold, .ok, .unpacked⟩, none, none, some "package manager".toList⟩]⟩) =
      .ok ⟨[⟨"bash".toList, "5.1".toList, [], installedOk, none, none, none⟩,
        ⟨"dpkg".toList, [], [], ⟨.hold, .ok, .unpacked⟩, none, none, some "package manager".toList⟩]⟩ :=
  (@parseStr_serialize_iff (fun _ => .inserted) sampleStatus _ (by decide +kernel)
    fun _ => .inserted).2 (by decide +kernel)

/-- The second line of a folded `Depends` is lost. -/
theorem folded_depends_lost :
    parseStr (fun _ => .inserted)
        "Package: bash\nStatus: install ok installed\nDepends: libc6,\n libtinfo6\n".toList =
      .ok ⟨[⟨"bash".toList, [], [], installedOk, some "libc6,\nlibtinfo6".toList, none, none⟩]⟩ ∧
    parseStr (fun _ => .inserted) (StatusDb.serialize
        ⟨[⟨"bash".toList, [], [], installedOk, some "libc6,\nlibtinfo6".toList, none, none⟩]⟩) =
      .ok ⟨[⟨"bash".toList, [], [], installedOk, some "libc6,".toList, none, none⟩]⟩ := by
  constructor <;> decide

end DebToolkit
