import Mathlib.Data.List.Forall2
import DebToolkit.Control.Stanzas

/-!
# The lines of the stanzas of a text

`lines_embed`: the lines of the stanzas are among the lines of the text, in order; a line of a stanza
lacks at most white space at its beginning and anything at its end.
-/

namespace DebToolkit

open Text List

/-! ### Lists embedded in lists -/

section Embed

variable {α β γ : Type*} {R : α → β → Prop} {S : β → γ → Prop} {T : α → γ → Prop}

theorem sublistForall₂_trans (h : ∀ a b c, R a b → S b c → T a c) {as : List α} {bs : List β}
    {cs : List γ} (hab : SublistForall₂ R as bs) (hbc : SublistForall₂ S bs cs) :
    SublistForall₂ T as cs := by
  induction hbc generalizing as with
  | nil =>
    cases hab
    exact .nil
  | cons hS _ ih =>
    cases hab with
    | nil => exact .nil
    | cons hR hab => exact .cons (h _ _ _ hR hS) (ih hab)
    | cons_right hab => exact .cons_right (ih hab)
  | cons_right _ ih => exact .cons_right (ih hab)

theorem sublistForall₂_append {as as' : List α} {bs bs' : List β} (h : SublistForall₂ R as bs)
    (h' : SublistForall₂ R as' bs') : SublistForall₂ R (as ++ as') (bs ++ bs') := by
  induction h with
  | @nil l =>
    induction l with
    | nil => exact h'
    | cons b l ih => exact .cons_right ih
  | cons hR _ ih => exact .cons hR ih
  | cons_right _ ih => exact .cons_right ih

theorem sublistForall₂_of_forall₂ {as : List α} {bs : List β} (h : Forall₂ R as bs) :
    SublistForall₂ R as bs := by
  induction h with
  | nil => exact .nil
  | cons hR _ ih => exact .cons hR ih

theorem exists_of_mem_sublist {as : List α} {bs : List β}
    (h : SublistForall₂ R as bs) {a : α} (ha : a ∈ as) : ∃ b ∈ bs, R a b := by
  induction h with
  | nil => cases ha
  | @cons _ b _ _ hR _ ih =>
    rcases mem_cons.1 ha with rfl | ha
    · exact ⟨b, mem_cons_self .., hR⟩
    · obtain ⟨b', hb', hR⟩ := ih ha
      exact ⟨b', mem_cons_of_mem _ hb', hR⟩
  | cons_right _ ih =>
    obtain ⟨b', hb', hR⟩ := ih ha
    exact ⟨b', mem_cons_of_mem _ hb', hR⟩

end Embed

/-! ### Pieces -/

theorem splitOn_cons (c : Char) (s : Str) : (c :: s).splitOn '\n' =
    if c = '\n' then [] :: s.splitOn '\n' else (s.splitOn '\n').modifyHead (c :: ·) := by
  rw [List.splitOn_cons_eq_if_modifyHead]
  simp only [beq_iff_eq]

/-- Cutting at blank lines first loses only empty lines. -/
theorem splitBlank_lines (s : Str) : ∃ first others others',
    (splitBlank s).flatMap (List.splitOn '\n') = first :: others ∧
      s.splitOn '\n' = first :: others' ∧ others <+ others' := by
  induction s using blank_induction with
  | nil => exact ⟨[], [], [], rfl, rfl, Sublist.refl _⟩
  | blank s ih =>
    obtain ⟨first, others, others', hpieces, hs, hsub⟩ := ih
    refine ⟨[], first :: others, [] :: first :: others', ?_, ?_, ?_⟩
    · rw [splitBlank, List.flatMap_cons, hpieces]
      rfl
    · rw [splitOn_cons, splitOn_cons, if_pos rfl, if_pos rfl, hs]
    · exact (hsub.cons_cons first).cons []
  | cons c s hhead ih =>
    obtain ⟨first, others, others', hpieces, hs, hsub⟩ := ih
    obtain ⟨piece, pieces, hp⟩ := List.exists_cons_of_ne_nil (splitBlank_ne_nil s)
    obtain ⟨line, rest, hline⟩ := List.exists_cons_of_ne_nil (List.splitOn_ne_nil '\n' piece)
    rw [hp, List.flatMap_cons, hline, List.cons_append, List.cons.injEq] at hpieces
    obtain ⟨rfl, rfl⟩ := hpieces
    rw [splitBlank_cons hhead, hp, List.modifyHead_cons, List.flatMap_cons, splitOn_cons, splitOn_cons,
      hline, hs]
    -- the first line of the text is the first line of the first piece, also with `c` before it
    split_ifs
    · exact ⟨[], _, _, rfl, rfl, hsub.cons_cons line⟩
    · exact ⟨c :: line, _, _, rfl, rfl, hsub⟩

/-- A line of a stanza and the line of the text that it comes from. -/
def FromLine (x l : Str) : Prop := ∃ a b, l = a ++ x ++ b ∧ ∀ c ∈ a, isWhitespace c = true

theorem lines_isPrefix (s : Str) : SublistForall₂ (· <+: ·) (lines s) (s.splitOn '\n') := by
  obtain ⟨init, last, hs⟩ := List.eq_nil_or_concat' (s.splitOn '\n') |>.resolve_left
    (List.splitOn_ne_nil _ _)
  rw [lines, hs, List.dropLast_concat, List.getLast?_concat]
  refine sublistForall₂_append ?_ ?_
  · rw [sublistForall₂_map_left_iff]
    exact sublistForall₂_of_forall₂ (List.forall₂_same.2 fun l _ => stripCr_isPrefix l)
  · by_cases hlast : last = []
    · simpa [hlast] using SublistForall₂.nil
    · simpa [hlast] using SublistForall₂.cons List.prefix_rfl .nil

theorem splitOn_append_right (q b : Str) : ∃ first others first' others',
    q.splitOn '\n' = first :: others ∧ (q ++ b).splitOn '\n' = first' :: others' ∧
      first <+: first' ∧ SublistForall₂ (· <+: ·) others others' := by
  induction q with
  | nil =>
    obtain ⟨line, rest, hb⟩ := List.exists_cons_of_ne_nil (List.splitOn_ne_nil '\n' b)
    exact ⟨[], [], line, rest, rfl, hb, List.nil_prefix, .nil⟩
  | cons c q ih =>
    obtain ⟨first, others, first', others', hq, hqb, hprefix, hothers⟩ := ih
    rw [List.cons_append, splitOn_cons, splitOn_cons, hq, hqb]
    split_ifs
    · exact ⟨[], _, [], _, rfl, rfl, List.prefix_rfl, .cons hprefix hothers⟩
    · exact ⟨c :: first, _, c :: first', _, rfl, rfl, List.prefix_cons_inj c |>.2 hprefix, hothers⟩

/-- `l` is `x` with white space before it. -/
def Indented (x l : Str) : Prop := ∃ w, l = w ++ x ∧ ∀ c ∈ w, isWhitespace c = true

theorem Indented.cons {x l : Str} {c : Char} (h : Indented x l) (hc : isWhitespace c = true) :
    Indented x (c :: l) := by
  obtain ⟨w, rfl, hw⟩ := h
  refine ⟨c :: w, rfl, ?_⟩
  intro d hd
  rcases List.mem_cons.1 hd with rfl | hd
  · exact hc
  · exact hw d hd

theorem splitOn_append_left {a : Str} (h : ∀ c ∈ a, isWhitespace c = true) (q : Str) :
    SublistForall₂ Indented (q.splitOn '\n') ((a ++ q).splitOn '\n') := by
  induction a with
  | nil =>
    refine sublistForall₂_of_forall₂ (List.forall₂_same.2 fun l _ => ⟨[], rfl, ?_⟩)
    exact fun c hc => by cases hc
  | cons c a ih =>
    have ih := ih fun d hd => h d (List.mem_cons_of_mem _ hd)
    rw [List.cons_append, splitOn_cons]
    split_ifs
    · exact .cons_right ih
    · obtain ⟨line, rest, hl⟩ := List.exists_cons_of_ne_nil (List.splitOn_ne_nil '\n' (a ++ q))
      rw [hl] at ih ⊢
      rw [List.modifyHead_cons]
      generalize q.splitOn '\n' = pieces at ih ⊢
      cases ih with
      | nil => exact .nil
      | cons hR ih => exact .cons (hR.cons (h c (List.mem_cons_self ..))) ih
      | cons_right ih => exact .cons_right ih

theorem lines_trim (p : Str) : SublistForall₂ FromLine (lines (trim p)) (p.splitOn '\n') := by
  obtain ⟨a, b, hp, ha, -⟩ := trim_spec p
  obtain ⟨first, others, first', others', hq, hqb, hprefix, hothers⟩ :=
    splitOn_append_right (trim p) b
  have hright : SublistForall₂ (· <+: ·) ((trim p).splitOn '\n') ((trim p ++ b).splitOn '\n') := by
    rw [hq, hqb]
    exact .cons hprefix hothers
  have hboth : SublistForall₂ (· <+: ·) (lines (trim p)) ((trim p ++ b).splitOn '\n') :=
    sublistForall₂_trans (fun _ _ _ h h' => h.trans h') (lines_isPrefix _) hright
  conv_rhs => rw [hp, List.append_assoc]
  refine sublistForall₂_trans ?_ hboth (splitOn_append_left ha _)
  rintro x y l ⟨t, rfl⟩ ⟨w, rfl, hw⟩
  exact ⟨w, t, (List.append_assoc ..).symm, hw⟩

/-- The lines of the stanzas are among the lines of the text. -/
theorem lines_embed (s : Str) :
    SublistForall₂ FromLine ((splitStanzas s).flatMap lines) (s.splitOn '\n') := by
  have hpieces : ∀ pieces : List Str, SublistForall₂ FromLine
      (((pieces.map trim).filter (· ≠ [])).flatMap lines) (pieces.flatMap (List.splitOn '\n')) := by
    intro pieces
    induction pieces with
    | nil => exact .nil
    | cons p pieces ih =>
      rw [List.map_cons, List.flatMap_cons]
      by_cases hempty : trim p = []
      · rw [List.filter_cons_of_neg (by simpa using hempty)]
        exact sublistForall₂_append (List.SublistForall₂.nil : SublistForall₂ _ [] _) ih
      · rw [List.filter_cons_of_pos (by simpa using hempty), List.flatMap_cons]
        exact sublistForall₂_append (lines_trim p) ih
  obtain ⟨first, others, others', hblank, hs, hsub⟩ := splitBlank_lines s
  have hlines : (splitBlank s).flatMap (List.splitOn '\n') <+ s.splitOn '\n' := by
    rw [hblank, hs]
    exact hsub.cons_cons first
  refine sublistForall₂_trans (S := Eq) ?_ (hpieces _) hlines.sublistForall₂
  rintro a b c h rfl
  exact h

end DebToolkit
