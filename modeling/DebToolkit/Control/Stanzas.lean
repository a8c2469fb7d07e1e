import DebToolkit.Control.Paragraph

/-!
# Stanzas of a composed text

* `splitStanzas_append`: the stanzas of two texts with a blank line between them are those of the first
  and those of the second, however many line feeds stand around the cut;
* `splitStanzas_joinLines`: lines none of which is empty make up one stanza;
* `parseControl_render`: fields printed line by line, with names and values that fit on a line, are
  read back.
-/

namespace DebToolkit

open Text

/-! ### Texts with a blank line in the middle -/

theorem splitBlank_blank (s : Str) : splitBlank ('\n' :: '\n' :: s) = [] :: splitBlank s := rfl

theorem splitBlank_cons {c : Char} {s : Str} (h : c = '\n' → s.head? ≠ some '\n') :
    splitBlank (c :: s) = (splitBlank s).modifyHead (c :: ·) := by
  rw [splitBlank]
  rintro s' rfl rfl
  exact h rfl rfl

theorem splitBlank_ne_nil (s : Str) : splitBlank s ≠ [] := by
  fun_induction splitBlank s with
  | case1 => exact List.cons_ne_nil _ _
  | case2 s => exact List.cons_ne_nil _ _
  | case3 c s _ ih => simpa using ih

/-- Induction along the pieces of a text. -/
theorem blank_induction {motive : Str → Prop} (nil : motive [])
    (blank : ∀ s, motive s → motive ('\n' :: '\n' :: s))
    (cons : ∀ c s, (c = '\n' → s.head? ≠ some '\n') → motive s → motive (c :: s)) (s : Str) : motive s := by
  induction s using splitBlank.induct with
  | case1 => exact nil
  | case2 s ih => exact blank s ih
  | case3 c s hblank ih =>
    refine cons c s (fun hc hs => ?_) ih
    obtain ⟨t, rfl⟩ := List.head?_eq_some_iff.1 hs
    exact hblank t hc rfl

/-- A character that begins no blank line begins none in a longer text, unless the text ends behind it. -/
theorem head_append_ne {c : Char} {s : Str} (h : c = '\n' → s.head? ≠ some '\n')
    (hlast : ¬ (c = '\n' ∧ s = [])) (t : Str) : c = '\n' → (s ++ t).head? ≠ some '\n' := by
  intro hc
  cases s with
  | nil => exact absurd ⟨hc, rfl⟩ hlast
  | cons d s => exact h hc

/-- The stanzas of a text whose first piece has begun with `p`. -/
def stanzasFrom (p s : Str) : List Str :=
  (((splitBlank s).modifyHead (p ++ ·)).map trim).filter (· ≠ [])

theorem splitStanzas_eq (s : Str) : splitStanzas s = stanzasFrom [] s := by
  obtain ⟨h, t, hs⟩ := List.exists_cons_of_ne_nil (splitBlank_ne_nil s)
  simp [splitStanzas, stanzasFrom, hs]

theorem stanzasFrom_nil (p : Str) : stanzasFrom p [] = [trim p].filter (· ≠ []) := by
  simp [stanzasFrom, splitBlank]

theorem stanzasFrom_blank (p s : Str) :
    stanzasFrom p ('\n' :: '\n' :: s) = [trim p].filter (· ≠ []) ++ splitStanzas s := by
  rw [stanzasFrom, splitBlank_blank, splitStanzas, ← List.filter_append]
  simp

theorem stanzasFrom_cons {c : Char} {s : Str} (p : Str) (h : c = '\n' → s.head? ≠ some '\n') :
    stanzasFrom p (c :: s) = stanzasFrom (p ++ [c]) s := by
  obtain ⟨x, t, hs⟩ := List.exists_cons_of_ne_nil (splitBlank_ne_nil s)
  rw [stanzasFrom, stanzasFrom, splitBlank_cons h, hs]
  simp

/-- White space at the beginning of a piece is trimmed. -/
theorem stanzasFrom_white {a : Str} (h : ∀ c ∈ a, isWhitespace c = true) (p s : Str) :
    stanzasFrom (a ++ p) s = stanzasFrom p s := by
  obtain ⟨x, t, hs⟩ := List.exists_cons_of_ne_nil (splitBlank_ne_nil s)
  rw [stanzasFrom, stanzasFrom, hs, List.modifyHead_cons, List.modifyHead_cons, List.map_cons,
    List.map_cons, List.append_assoc, trim_append_left h]

theorem white_newline : ∀ c ∈ ['\n'], isWhitespace c = true :=
  List.forall_mem_singleton.2 (by decide)

theorem splitStanzas_newline_cons (s : Str) : splitStanzas ('\n' :: s) = splitStanzas s := by
  induction hn : s.length using Nat.strong_induction_on generalizing s with
  | _ n ih =>
    by_cases hs : s.head? = some '\n'
    · -- two line feeds end an empty piece
      obtain ⟨t, rfl⟩ := List.head?_eq_some_iff.1 hs
      have hlt : t.length < n := by
        rw [← hn]
        exact Nat.lt_succ_self _
      rw [splitStanzas_eq, stanzasFrom_blank, ih t.length hlt t rfl]
      rfl
    · rw [splitStanzas_eq, stanzasFrom_cons _ fun _ => hs, splitStanzas_eq]
      exact stanzasFrom_white white_newline [] s

theorem stanzasFrom_append (p a b : Str) :
    stanzasFrom p (a ++ '\n' :: '\n' :: b) = stanzasFrom p a ++ splitStanzas b := by
  induction a using blank_induction generalizing p with
  | nil => rw [List.nil_append, stanzasFrom_blank, stanzasFrom_nil]
  | blank s ih =>
    rw [List.cons_append, List.cons_append, stanzasFrom_blank, stanzasFrom_blank,
      splitStanzas_eq (s ++ _), ih, ← splitStanzas_eq s, List.append_assoc]
  | cons c s hhead ih =>
    rw [stanzasFrom_cons p hhead]
    by_cases hlast : c = '\n' ∧ s = []
    · -- of three line feeds the first two end the piece
      obtain ⟨rfl, rfl⟩ := hlast
      rw [List.cons_append, List.nil_append, stanzasFrom_blank, splitStanzas_newline_cons,
        stanzasFrom_nil, trim_append_right _ white_newline]
    · rw [List.cons_append, stanzasFrom_cons p (head_append_ne hhead hlast _), ih]

/-- **A blank line separates the stanzas before it from those behind it.** -/
theorem splitStanzas_append (a b : Str) :
    splitStanzas (a ++ '\n' :: '\n' :: b) = splitStanzas a ++ splitStanzas b := by
  rw [splitStanzas_eq, stanzasFrom_append, ← splitStanzas_eq]

theorem stanzasFrom_newline (p a : Str) : stanzasFrom p (a ++ ['\n']) = stanzasFrom p a := by
  induction a using blank_induction generalizing p with
  | nil =>
    rw [List.nil_append, stanzasFrom_cons _ (by simp), stanzasFrom_nil, stanzasFrom_nil,
      trim_append_right _ white_newline]
  | blank s ih =>
    rw [List.cons_append, List.cons_append, stanzasFrom_blank, stanzasFrom_blank,
      splitStanzas_eq (s ++ _), ih, ← splitStanzas_eq s]
  | cons c s hhead ih =>
    rw [stanzasFrom_cons p hhead]
    by_cases hlast : c = '\n' ∧ s = []
    · obtain ⟨rfl, rfl⟩ := hlast
      rw [List.cons_append, List.nil_append, stanzasFrom_blank, stanzasFrom_nil,
        trim_append_right _ white_newline]
      simp [splitStanzas, splitBlank, trim]
    · rw [List.cons_append, stanzasFrom_cons p (head_append_ne hhead hlast _), ih]

theorem splitStanzas_newline (a : Str) : splitStanzas (a ++ ['\n']) = splitStanzas a := by
  rw [splitStanzas_eq, stanzasFrom_newline, ← splitStanzas_eq]

/-! ### One stanza -/

def joinLines (ls : List Str) : Str := ['\n'].intercalate ls

@[simp] theorem joinLines_singleton (l : Str) : joinLines [l] = l := List.intercalate_singleton

theorem joinLines_cons (l : Str) {ls : List Str} (h : ls ≠ []) :
    joinLines (l :: ls) = l ++ '\n' :: joinLines ls := by
  simp [joinLines, List.intercalate_cons_of_ne_nil h]

theorem newline_joinLines {ls : List Str} (h : ls ≠ []) :
    '\n' :: joinLines ls = ls.flatMap ('\n' :: ·) :=
  append_intercalate ['\n'] h

theorem joinLines_head {l : Str} (hl : l ≠ []) (ls : List Str) :
    (joinLines (l :: ls)).head? = l.head? :=
  head?_intercalate hl _ ls

theorem joinLines_concat (ls : List Str) (l t : Str) :
    joinLines (ls ++ [l ++ t]) = joinLines (ls ++ [l]) ++ t :=
  intercalate_concat _ ls l t

theorem joinLines_getLast {l : Str} (hl : l ≠ []) (ls : List Str) :
    (joinLines (ls ++ [l])).getLast? = l.getLast? :=
  getLast?_intercalate hl _ ls

theorem stanzasFrom_line {l : Str} (h : '\n' ∉ l) (p s : Str) :
    stanzasFrom p (l ++ s) = stanzasFrom (p ++ l) s := by
  induction l generalizing p with
  | nil => simp
  | cons c l ih =>
    rw [List.mem_cons, not_or] at h
    rw [List.cons_append, stanzasFrom_cons p fun hc => absurd hc.symm h.1, ih h.2, List.append_assoc]
    rfl

theorem stanzasFrom_joinLines {ls : List Str} (hne : ∀ l ∈ ls, l ≠ []) (hnl : ∀ l ∈ ls, '\n' ∉ l)
    (hls : ls ≠ []) (p : Str) :
    stanzasFrom p (joinLines ls) = [trim (p ++ joinLines ls)].filter (· ≠ []) := by
  induction ls generalizing p with
  | nil => exact absurd rfl hls
  | cons l ls ih =>
    have hl := hnl l (List.mem_cons_self ..)
    by_cases h : ls = []
    · rw [h, joinLines_singleton]
      have := stanzasFrom_line hl p []
      rw [List.append_nil] at this
      rw [this, stanzasFrom_nil]
    · -- the next line is not empty, so the line feed does not end the piece
      have hnext : (joinLines ls).head? ≠ some '\n' := by
        obtain ⟨l', ls, rfl⟩ := List.exists_cons_of_ne_nil h
        rw [joinLines_head (hne l' (by simp))]
        intro hhead
        exact hnl l' (by simp) (List.mem_of_mem_head? hhead)
      rw [joinLines_cons l h, stanzasFrom_line hl, stanzasFrom_cons _ fun _ => hnext,
        ih (fun l' hl' => hne l' (List.mem_cons_of_mem _ hl'))
          (fun l' hl' => hnl l' (List.mem_cons_of_mem _ hl')) h]
      simp

/-- Lines none of which is empty make up at most one stanza. -/
theorem splitStanzas_joinLines {ls : List Str} (hne : ∀ l ∈ ls, l ≠ []) (hnl : ∀ l ∈ ls, '\n' ∉ l)
    (hls : ls ≠ []) : splitStanzas (joinLines ls) = [trim (joinLines ls)].filter (· ≠ []) := by
  rw [splitStanzas_eq, stanzasFrom_joinLines hne hnl hls, List.nil_append]

theorem lines_joinLines {ls : List Str} (hnl : ∀ l ∈ ls, '\n' ∉ l) (hls : ls ≠ [])
    (hcr : ∀ l ∈ ls, l.getLast? ≠ some '\r') (hlast : ∀ l ∈ ls.getLast?, l ≠ []) :
    lines (joinLines ls) = ls := by
  have hsplit : (joinLines ls).splitOn '\n' = ls := List.splitOn_intercalate '\n' hnl hls
  obtain ⟨l, hl⟩ := Option.ne_none_iff_exists'.1 (mt List.getLast?_eq_none_iff.1 hls)
  rw [lines, hsplit, hl]
  have hmap : ls.dropLast.map stripCr = ls.dropLast := by
    calc ls.dropLast.map stripCr = ls.dropLast.map id :=
          List.map_congr_left fun x hx => if_neg (hcr x (List.dropLast_subset _ hx))
      _ = ls.dropLast := List.map_id _
  have hfilter : (some l).toList.filter (· ≠ []) = [l] := by
    simpa using hlast l hl
  rw [hmap, hfilter]
  obtain ⟨ys, rfl⟩ := List.getLast?_eq_some_iff.1 hl
  rw [List.dropLast_concat]

/-! ### Fields printed and read -/

/-- A name of a field: not empty, on one line, trimmed and without a colon. -/
def PlainName (k : Str) : Prop := k ≠ [] ∧ Trimmed k ∧ ':' ∉ k ∧ '\n' ∉ k

instance (k : Str) : Decidable (PlainName k) := inferInstanceAs (Decidable (_ ∧ _))

/-- A value that fits on the line of its field. -/
def OneLine (v : Str) : Prop := Trimmed v ∧ '\n' ∉ v

instance (v : Str) : Decidable (OneLine v) := inferInstanceAs (Decidable (_ ∧ _))

/-- `"{name}: {value}"`. -/
def fieldLine (f : Str × Str) : Str := f.1 ++ ':' :: ' ' :: f.2

def render (fs : List (Str × Str)) : Str := joinLines (fs.map fieldLine)

/-- A line that is read as a field. -/
def Prints (f : Str × Str) (line : Str) : Prop := ∃ w, line = f.1 ++ ':' :: w ∧ trim w = f.2

theorem PlainName.head {k : Str} (h : PlainName k) :
    ∃ c t, k = c :: t ∧ isWhitespace c = false := by
  obtain ⟨c, t, rfl⟩ := List.exists_cons_of_ne_nil h.1
  exact ⟨c, t, rfl, h.2.1.1 c rfl⟩

theorem trim_space_cons (v : Str) : trim (' ' :: v) = trim v :=
  trim_append_left (List.forall_mem_singleton.2 (by decide : isWhitespace ' ' = true)) v

theorem prints_fieldLine {f : Str × Str} (h : OneLine f.2) : Prints f (fieldLine f) :=
  ⟨' ' :: f.2, rfl, by rw [trim_space_cons, trim_of_trimmed h.1]⟩

theorem parseLine_prints {f : Str × Str} {line : Str} (hname : PlainName f.1) (h : Prints f line)
    (st : LineState Str) (hnew : f.1 ∉ st.para.keys) (strict : Bool) :
    parseLine strict st line = .ok ⟨st.para.set f.1 f.2, some f.1⟩ := by
  obtain ⟨w, rfl, hw⟩ := h
  obtain ⟨c, t, hk, hc⟩ := hname.head
  have hcut := splitOnce_append hname.2.2.1 w
  rw [hk, List.cons_append] at hcut ⊢
  rw [parseLine, if_neg, hcut]
  · rw [← hk]
    dsimp only
    rw [trim_of_trimmed hname.2.1, hw, if_neg fun h => hnew h.2]
  · rintro (rfl | rfl)
    · exact absurd hc (by decide)
    · exact absurd hc (by decide)

theorem foldlM_prints {fs : List (Str × Str)} {ls : List Str} (h : List.Forall₂ Prints fs ls)
    (hnames : ∀ f ∈ fs, PlainName f.1) (strict : Bool) (st : LineState Str)
    (hnodup : (st.para.keys ++ fs.map Prod.fst).Nodup) :
    ∃ st', ls.foldlM (parseLine strict) st = .ok st' ∧
      st'.para.entries = st.para.entries ++ fs := by
  induction h generalizing st with
  | nil => exact ⟨st, rfl, (List.append_nil _).symm⟩
  | @cons f line fs ls hprint _ ih =>
    have hnew : f.1 ∉ st.para.keys := by
      intro hmem
      exact List.disjoint_of_nodup_append hnodup hmem (by simp)
    obtain ⟨st', hfold, hentries⟩ := ih (fun g hg => hnames g (List.mem_cons_of_mem _ hg))
      ⟨st.para.set f.1 f.2, some f.1⟩ (by
        rw [OrdMap.keys_set, if_neg hnew]
        simpa using hnodup)
    refine ⟨st', ?_, ?_⟩
    · rw [List.foldlM_cons, parseLine_prints (hnames f (List.mem_cons_self ..)) hprint st hnew]
      exact hfold
    · rw [hentries, OrdMap.entries_set_of_notMem hnew, List.append_assoc]
      rfl

/-- The last line of a stanza, whose trailing blank is trimmed. -/
def closingLine (f : Str × Str) : Str := f.1 ++ ':' :: if f.2 = [] then [] else ' ' :: f.2

theorem prints_closingLine {f : Str × Str} (h : OneLine f.2) : Prints f (closingLine f) := by
  refine ⟨_, rfl, ?_⟩
  split_ifs with hv
  · rw [hv]; rfl
  · rw [trim_space_cons, trim_of_trimmed h.1]

theorem closingLine_getLast {f : Str × Str} (h : OneLine f.2) :
    ∀ c ∈ (closingLine f).getLast?, isWhitespace c = false := by
  unfold closingLine
  intro c hc
  split_ifs at hc with hv
  · rw [List.getLast?_append, List.getLast?_singleton] at hc
    cases hc
    decide
  · obtain ⟨t, d, hd⟩ := List.eq_nil_or_concat' f.2 |>.resolve_left hv
    have hlast : c ∈ f.2.getLast? := by
      rw [hd, ← List.cons_append, ← List.cons_append, ← List.append_assoc, List.getLast?_concat] at hc
      rw [hd, List.getLast?_concat]
      exact hc
    exact h.1.2 c hlast

theorem trim_render {fs : List (Str × Str)} {f : Str × Str}
    (hnames : ∀ g ∈ fs ++ [f], PlainName g.1) (hv : OneLine f.2) :
    trim (render (fs ++ [f])) = joinLines (fs.map fieldLine ++ [closingLine f]) := by
  have hne : closingLine f ≠ [] := by simp [closingLine]
  have htrimmed : Trimmed (joinLines (fs.map fieldLine ++ [closingLine f])) := by
    constructor
    · intro c hc
      -- the first line begins with a name
      have hfirst : ∃ g ∈ fs ++ [f], c ∈ g.1.head? := by
        cases fs with
        | nil =>
          obtain ⟨d, t, hk, -⟩ := (hnames f (by simp)).head
          refine ⟨f, by simp, ?_⟩
          simpa [closingLine, hk] using hc
        | cons g fs =>
          obtain ⟨d, t, hk, -⟩ := (hnames g (by simp)).head
          refine ⟨g, by simp, ?_⟩
          rw [List.map_cons, List.cons_append, joinLines_head (by simp [fieldLine])] at hc
          simpa [fieldLine, hk] using hc
      obtain ⟨g, hg, hcg⟩ := hfirst
      exact (hnames g hg).2.1.1 c hcg
    · rw [joinLines_getLast hne]
      exact closingLine_getLast hv
  have hrender : render (fs ++ [f]) =
      joinLines (fs.map fieldLine ++ [closingLine f]) ++ if f.2 = [] then [' '] else [] := by
    rw [render, List.map_append, List.map_singleton, ← joinLines_concat]
    congr 3
    unfold fieldLine closingLine
    split_ifs with h
    · rw [h]; simp
    · simp
  rw [hrender, trim_append_right, trim_of_trimmed htrimmed]
  split_ifs
  · exact List.forall_mem_singleton.2 (by decide)
  · exact fun c hc => by cases hc

theorem getLast_ne_cr {f : Str × Str} (h : OneLine f.2) : (fieldLine f).getLast? ≠ some '\r' := by
  intro hcr
  by_cases hv : f.2 = []
  · simp [fieldLine, hv] at hcr
  · have hclosing := closingLine_getLast h
    rw [closingLine, if_neg hv] at hclosing
    exact absurd (hclosing _ hcr) (by decide)

theorem newline_notMem_fieldLine {f : Str × Str} (hname : PlainName f.1) (hv : OneLine f.2) :
    '\n' ∉ fieldLine f := by
  simpa [fieldLine] using ⟨hname.2.2.2, hv.2⟩

theorem newline_notMem_closingLine {f : Str × Str} (hname : PlainName f.1) (hv : OneLine f.2) :
    '\n' ∉ closingLine f := by
  have hline := newline_notMem_fieldLine hname hv
  unfold closingLine
  split_ifs with h
  · simpa [fieldLine, h] using hline
  · exact hline

section Render

variable {init : List (Str × Str)} {last : Str × Str}

theorem splitStanzas_render (hnames : ∀ f ∈ init ++ [last], PlainName f.1)
    (hvalues : ∀ f ∈ init ++ [last], OneLine f.2) :
    splitStanzas (render (init ++ [last])) = [joinLines (init.map fieldLine ++ [closingLine last])] := by
  have hjoin : joinLines (init.map fieldLine ++ [closingLine last]) ≠ [] := by
    intro h
    have hne : closingLine last ≠ [] := by simp [closingLine]
    have hlast := joinLines_getLast hne (init.map fieldLine)
    rw [h, List.getLast?_nil] at hlast
    exact hne (List.getLast?_eq_none_iff.1 hlast.symm)
  rw [render, splitStanzas_joinLines, ← render, trim_render hnames (hvalues last (by simp))]
  · simpa using hjoin
  · intro l hl
    obtain ⟨f, -, rfl⟩ := List.mem_map.1 hl
    simp [fieldLine]
  · intro l hl
    obtain ⟨f, hf, rfl⟩ := List.mem_map.1 hl
    exact newline_notMem_fieldLine (hnames f hf) (hvalues f hf)
  · simp

/-- The lines of a stanza whose last line is trimmed. -/
theorem lines_closed (hnames : ∀ f ∈ init ++ [last], PlainName f.1)
    (hvalues : ∀ f ∈ init ++ [last], OneLine f.2) :
    lines (joinLines (init.map fieldLine ++ [closingLine last])) =
      init.map fieldLine ++ [closingLine last] := by
  have hinit : ∀ f ∈ init, PlainName f.1 ∧ OneLine f.2 := fun f hf =>
    ⟨hnames f (List.mem_append_left _ hf), hvalues f (List.mem_append_left _ hf)⟩
  have hlast : PlainName last.1 ∧ OneLine last.2 := ⟨hnames last (by simp), hvalues last (by simp)⟩
  refine lines_joinLines ?_ (by simp) ?_ ?_
  · intro l hl
    rcases List.mem_append.1 hl with hl | hl
    · obtain ⟨f, hf, rfl⟩ := List.mem_map.1 hl
      exact newline_notMem_fieldLine (hinit f hf).1 (hinit f hf).2
    · rw [List.mem_singleton.1 hl]
      exact newline_notMem_closingLine hlast.1 hlast.2
  · intro l hl
    rcases List.mem_append.1 hl with hl | hl
    · obtain ⟨f, hf, rfl⟩ := List.mem_map.1 hl
      exact getLast_ne_cr (hinit f hf).2
    · rw [List.mem_singleton.1 hl]
      exact fun h => absurd (closingLine_getLast hlast.2 _ h) (by decide)
  · intro l hl
    rw [List.getLast?_concat] at hl
    cases hl
    simp [closingLine]

end Render

/-- Fields that fit on their lines make up one stanza, with a line for each of them. -/
theorem stanza_render {fs : List (Str × Str)} (hfs : fs ≠ []) (hnames : ∀ f ∈ fs, PlainName f.1)
    (hvalues : ∀ f ∈ fs, OneLine f.2) :
    ∃ stanza, splitStanzas (render fs) = [stanza] ∧ List.Forall₂ Prints fs (lines stanza) := by
  obtain ⟨init, last, rfl⟩ := List.eq_nil_or_concat' fs |>.resolve_left hfs
  refine ⟨_, splitStanzas_render hnames hvalues, ?_⟩
  rw [lines_closed hnames hvalues]
  refine List.rel_append ?_ (.cons (prints_closingLine (hvalues last (by simp))) .nil)
  rw [List.forall₂_map_right_iff, List.forall₂_same]
  exact fun f hf => prints_fieldLine (hvalues f (List.mem_append_left _ hf))

/-- **Fields that fit on their lines are read back.** -/
theorem parseControl_render {fs : List (Str × Str)} (hfs : fs ≠ [])
    (hnames : ∀ f ∈ fs, PlainName f.1) (hvalues : ∀ f ∈ fs, OneLine f.2)
    (hnodup : (fs.map Prod.fst).Nodup) : parseControl (render fs) = [⟨fs, hnodup⟩] := by
  obtain ⟨stanza, hstanzas, hprints⟩ := stanza_render hfs hnames hvalues
  obtain ⟨st, hfold, hentries⟩ := foldlM_prints hprints hnames false .start hnodup
  rw [parseControl, hstanzas, List.map_singleton, parseParagraph, hfold]
  exact congrArg (fun p => [p]) (OrdMap.ext hentries)

end DebToolkit
