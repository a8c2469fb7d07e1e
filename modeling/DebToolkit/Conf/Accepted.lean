import DebToolkit.Conf.Statements

/-!
# The texts that are accepted

What the parser has read where it has not failed: `Consumes s p q` says that between `p` and `q` the
text `s` was read, for the single functions; `readBlock_sound` that a block has read a sequence of
statements, up to the end of the text or a closing brace.

* `consumes_all_iff`: at the top level nothing checks what stands behind the statements. So all of a
  text is read unless a closing brace that has no opening one follows on complete statements; what
  stands behind such a brace is ignored.
-/

namespace DebToolkit
namespace Conf

open Text Conf.Parser

variable {u : CharTable}

/-! ### Tokens -/

/-- Between `p` and `q` the text `s` was read, and no directive. -/
def Consumes (s : Str) (p q : Parser) : Prop := p.rest = s ++ q.rest ∧ q.includes = p.includes

section Tokens

variable {s t : Str} {p q r : Parser}

theorem Consumes.refl (p : Parser) : Consumes [] p p := ⟨rfl, rfl⟩

theorem Consumes.trans (h : Consumes s p q) (h' : Consumes t q r) : Consumes (s ++ t) p r :=
  ⟨by rw [h.1, h'.1, List.append_assoc], h'.2.trans h.2⟩

theorem advance_includes (p : Parser) : p.advance.includes = p.includes := by
  unfold advance
  split <;> rfl

theorem skip_includes (n : ℕ) (p : Parser) : (p.skip n).includes = p.includes := by
  induction n generalizing p with
  | zero => rfl
  | succ n ih => exact (ih p.advance).trans (advance_includes p)

theorem consumes_skip (n : ℕ) (p : Parser) : Consumes (p.rest.take n) p (p.skip n) :=
  ⟨by rw [skip_rest, List.take_append_drop], skip_includes n p⟩

/-- Skipping a beginning of the text. -/
theorem consumes_beginning (h : s <+: p.rest) : Consumes s p (p.skip s.length) := by
  have hskip := consumes_skip s.length p
  rwa [← List.prefix_iff_eq_take.1 h] at hskip

theorem skip_takeWhile_rest (f : Char → Bool) (p : Parser) :
    (p.skip (p.rest.takeWhile f).length).rest = p.rest.dropWhile f := by
  have hrest := (consumes_beginning (List.takeWhile_prefix (p := f) (l := p.rest))).1
  conv_lhs at hrest => rw [← List.takeWhile_append_dropWhile (p := f) (l := p.rest)]
  exact (List.append_cancel_left hrest).symm

theorem stops_skip_takeWhile (f : Char → Bool) (p : Parser) :
    Stops f (p.skip (p.rest.takeWhile f).length).rest := by
  have hstops := stops_nil.dropWhile_append (f := f) p.rest
  rwa [List.append_nil, ← skip_takeWhile_rest] at hstops

theorem consumes_advance {c : Char} (h : p.current = c) (hc : c ≠ '\x00') : Consumes [c] p p.advance := by
  refine ⟨?_, advance_includes p⟩
  obtain ⟨d, rest, hrest⟩ := List.exists_cons_of_ne_nil (ne_nil_of_current h hc)
  rw [current, hrest, List.headD_cons] at h
  rw [advance_rest, hrest, h]
  rfl

theorem consumes_skipWhitespace (p : Parser) :
    ∃ b : Space, Consumes b.1 p p.skipWhitespace ∧ Stops isAsciiWhitespace p.skipWhitespace.rest :=
  ⟨⟨p.rest.takeWhile isAsciiWhitespace, fun _ hc => List.mem_takeWhile_imp hc⟩,
    consumes_beginning (List.takeWhile_prefix _), stops_skip_takeWhile _ p⟩

/-- The characters up to the end of the line. -/
def lineText (s : Str) : Str := s.takeWhile (· ≠ '\n')

theorem notMem_lineText (s : Str) : '\n' ∉ lineText s := fun h => by simpa using List.mem_takeWhile_imp h

theorem lineText_cons {c : Char} (hc : c ≠ '\n') (s : Str) : lineText (c :: s) = c :: lineText s :=
  List.takeWhile_cons_of_pos (by simpa using hc)

theorem consumes_skipLineComment (p : Parser) :
    Consumes (lineText p.rest) p p.skipLineComment ∧ ∀ c ∈ p.skipLineComment.rest.head?, c = '\n' := by
  refine ⟨consumes_beginning (List.takeWhile_prefix _), fun c hc => ?_⟩
  simpa using stops_skip_takeWhile (· ≠ '\n') p c hc

theorem expectChar_consumes {c : Char} (h : p.expectChar u c = .ok q) (hc : c ≠ '\x00') :
    Consumes [c] p q := by
  unfold expectChar at h
  split_ifs at h with hcurrent
  cases h
  exact consumes_advance hcurrent hc

theorem skipSemicolon_consumes (p : Parser) :
    ∃ (semicolon : Option Space) (b : Space), Consumes (semicolonText semicolon ++ b.1) p p.skipSemicolon := by
  obtain ⟨b, hb, -⟩ := consumes_skipWhitespace p
  unfold skipSemicolon
  dsimp only
  split_ifs with hcurrent
  · refine ⟨some b, noSpace, ?_⟩
    rw [noSpace, List.append_nil]
    exact hb.trans (consumes_advance hcurrent (by decide))
  · exact ⟨none, b, hb⟩

theorem readKeySegment_consumes (p : Parser) :
    Consumes (p.readKeySegment u).1 p (p.readKeySegment u).2 ∧
      (∀ c ∈ (p.readKeySegment u).1, isKeyChar u c = true) ∧
      Stops (isKeyChar u) (p.readKeySegment u).2.rest :=
  ⟨consumes_beginning (List.takeWhile_prefix _), fun _ hc => List.mem_takeWhile_imp hc,
    stops_skip_takeWhile _ p⟩

/-! #### Strings -/

theorem stringBody_take {s value : Str} {n : ℕ} (h : stringBody s = some (value, n)) :
    ∃ body t, s = body ++ t ∧ body.length = n ∧ stringBody body = some (value, n) := by
  induction s using stringBody.induct generalizing value n with
  | case1 => cases h
  | case2 s =>
    cases h
    exact ⟨['"'], s, rfl, rfl, rfl⟩
  | case3 c s ih =>
    obtain ⟨⟨value', n'⟩, hr, hvalue⟩ := Option.map_eq_some_iff.1 h
    cases hvalue
    obtain ⟨body, t, rfl, rfl, hbody⟩ := ih hr
    exact ⟨'\\' :: c :: body, t, rfl, rfl, Option.map_eq_some_iff.2 ⟨_, hbody, rfl⟩⟩
  | case4 => cases h
  | case5 c s hquote hescape hlast ih =>
    rw [stringBody.eq_5 c s hquote hescape hlast] at h
    obtain ⟨⟨value', n'⟩, hr, hvalue⟩ := Option.map_eq_some_iff.1 h
    cases hvalue
    obtain ⟨body, t, rfl, rfl, hbody⟩ := ih hr
    have hc : c ≠ '\\' := by
      rintro rfl
      cases hs : body ++ t with
      | nil => exact hlast rfl hs
      | cons d s => exact hescape d s rfl hs
    refine ⟨c :: body, t, rfl, rfl, ?_⟩
    rw [stringBody.eq_5 c body hquote (fun _ _ hc' => absurd hc' hc) fun hc' => absurd hc' hc, hbody,
      Option.map_some]

theorem readString_consumes {value : Str} (h : p.readString = .ok (value, q)) :
    ∃ l : Literal, l.value = value ∧ Consumes l.text p q := by
  unfold readString at h
  split_ifs at h with hquote
  split at h
  · next s n hbody =>
    cases h
    obtain ⟨body, t, hrest, rfl, hclosed⟩ := stringBody_take hbody
    refine ⟨⟨body, value, hclosed⟩, rfl, ?_⟩
    exact (consumes_advance (not_not.1 hquote) (by decide)).trans
      (consumes_beginning (hrest ▸ List.prefix_append body t))
  · cases h

end Tokens

/-! ### White space and comments -/

/-- Nothing, or a comment that goes up to the end of the text. -/
inductive LastComment (u : CharTable) : Str → Prop
  | none : LastComment u []
  | line (text : Str) (h : '\n' ∉ text) : LastComment u ('/' :: '/' :: text)
  | hash (text : Str) (h : '\n' ∉ text) (hinclude : ¬ isInclude (text.takeWhile (isKeyChar u)))
      (hdir : ¬ isIncludeDir (text.takeWhile (isKeyChar u))) : LastComment u ('#' :: text)

section Comments

variable {s t : Str} {p q : Parser}

theorem consumes_two {c d : Char} (h : p.current = c ∧ p.peekAhead 1 = d) (hc : c ≠ '\x00')
    (hd : d ≠ '\x00') : Consumes [c, d] p p.advance.advance := by
  have hone := consumes_advance h.1 hc
  have hnext : p.advance.current = d := by
    rw [← h.2, current, peekAhead, hone.1, List.singleton_append, List.getElem?_cons_succ]
    cases p.advance.rest <;> rfl
  exact hone.trans (consumes_advance hnext hd)

theorem blockComment_eq_some {n : ℕ} (h : blockComment s = some n) :
    ∃ text, ¬ ['*', '/'] <:+: text ∧ (text ++ ['*', '/']) <+: s ∧ n = (text ++ ['*', '/']).length := by
  induction s using blockComment.induct generalizing n with
  | case1 => cases h
  | case2 t =>
    cases h
    exact ⟨[], by simp, List.prefix_append ['*', '/'] t, rfl⟩
  | case3 c t hend ih =>
    rw [blockComment.eq_3 c t hend] at h
    obtain ⟨n', hn', rfl⟩ := Option.map_eq_some_iff.1 h
    obtain ⟨text, hinfix, htext, rfl⟩ := ih hn'
    refine ⟨c :: text, ?_, List.cons_prefix_cons.2 ⟨rfl, htext⟩, rfl⟩
    rw [List.infix_cons_iff, not_or]
    refine ⟨fun hstart => ?_, hinfix⟩
    -- the comment would have ended at `c`
    obtain ⟨rfl, hslash⟩ := List.cons_prefix_cons.1 hstart
    obtain ⟨rest, hrest⟩ := hslash.trans ((List.prefix_append text ['*', '/']).trans htext)
    exact hend rest rfl hrest.symm

theorem skipBlockComment_consumes (h : p.skipBlockComment = .ok q) :
    ∃ text, ¬ ['*', '/'] <:+: text ∧ Consumes (text ++ ['*', '/']) p q := by
  unfold skipBlockComment at h
  split at h
  · next n hcomment =>
    cases h
    obtain ⟨text, hinfix, htext, rfl⟩ := blockComment_eq_some hcomment
    exact ⟨text, hinfix, consumes_beginning htext⟩
  · cases h

theorem commentStep_exit_consumes (h : commentStep p = some (.exit (.ok q))) :
    ∃ b : Space, Consumes b.1 p q := by
  obtain ⟨b, hb, -⟩ := consumes_skipWhitespace p
  unfold commentStep at h
  dsimp only at h
  split_ifs at h
  · cases h
    exact ⟨b, hb⟩
  · cases h
  · split at h <;> cases h
  · cases h
    exact ⟨b, hb⟩

/-- A pass reads a comment, or one without its line feed. -/
theorem commentStep_next_consumes (h : commentStep p = some (.next q)) :
    (∃ gap : Gap u, Consumes gap.text p q) ∨
      ∃ (gap : Gap u) (text : Str), '\n' ∉ text ∧ Consumes (gap.text ++ '/' :: '/' :: text) p q ∧
        ∀ c ∈ q.rest.head?, c = '\n' := by
  obtain ⟨b, hb, -⟩ := consumes_skipWhitespace p
  unfold commentStep at h
  dsimp only at h
  split_ifs at h with hnil hline hblock
  · cases h
  · cases h
    have hslashes := (consumes_two hline (by decide) (by decide)).1
    obtain ⟨hcomment, hend⟩ := consumes_skipLineComment p.skipWhitespace
    rw [hslashes, List.cons_append, List.singleton_append, lineText_cons (by decide),
      lineText_cons (by decide)] at hcomment
    refine Or.inr ⟨[.space b], _, notMem_lineText p.skipWhitespace.advance.advance.rest, ?_, hend⟩
    rw [Gap.text_cons, Gap.text_nil, List.append_nil]
    exact hb.trans hcomment
  · split at h
    · next hskip =>
      cases h
      obtain ⟨text, hinfix, hcomment⟩ := skipBlockComment_consumes hskip
      refine Or.inl ⟨[.space b, .block text hinfix], ?_⟩
      rw [Gap.text_cons, Gap.text_cons, Gap.text_nil, List.append_nil]
      exact hb.trans ((consumes_two hblock (by decide) (by decide)).trans hcomment)
    · cases h
  · cases h

/-- White space and comments, of which the last may go up to the end of the text. -/
theorem skipWhitespaceAndComments_consumes (h : p.skipWhitespaceAndComments = some (.ok q)) :
    ∃ (gap : Gap u) (c : Str), LastComment u c ∧ (c = [] ∨ q.rest = []) ∧ Consumes (gap.text ++ c) p q := by
  induction hn : p.left using Nat.strong_induction_on generalizing p with
  | _ n ih =>
    subst hn
    obtain ⟨p' | r, hstep⟩ := commentStep_total p
    · have hlt : p'.left < p.left := commentStep_lt hstep
      rw [skipWhitespaceAndComments_next hstep] at h
      rcases commentStep_next_consumes (u := u) hstep with ⟨gap, hgap⟩ | ⟨gap, text, htext, hcomment, hend⟩
      · obtain ⟨gap', c, hc, hlast, hrest⟩ := ih _ hlt h rfl
        refine ⟨gap ++ gap', c, hc, hlast, ?_⟩
        rw [Gap.text_append, List.append_assoc]
        exact hgap.trans hrest
      obtain ⟨rest, line, incs⟩ := p'
      cases rest with
      | nil =>
        rw [skipWhitespaceAndComments_solid (by rintro c ⟨⟩)] at h
        cases h
        exact ⟨gap, _, .line text htext, Or.inr rfl, hcomment⟩
      | cons d rest =>
        obtain rfl : d = '\n' := hend d rfl
        have hfeed := skipWhitespaceAndComments_space (s := ['\n']) (by simp [isAsciiWhitespace]) rest line incs
        rw [List.singleton_append] at hfeed
        rw [hfeed] at h
        obtain ⟨gap', c, hc, hlast, hrest⟩ := ih _ ((Nat.lt_succ_self _).trans hlt) h rfl
        refine ⟨gap ++ .line text htext :: gap', c, hc, hlast, ?_⟩
        have hline : Consumes ['\n'] ⟨'\n' :: rest, line, incs⟩
            ⟨rest, line + List.count '\n' ['\n'], incs⟩ := ⟨rfl, rfl⟩
        have hall := (hcomment.trans hline).trans hrest
        simpa [Gap.text_append, Piece.text] using hall
    · rw [skipWhitespaceAndComments, Loop.iterate_exit hstep] at h
      obtain rfl := Option.some.inj h
      obtain ⟨b, hb⟩ := commentStep_exit_consumes hstep
      exact ⟨[.space b], [], .none, Or.inl rfl, by simpa [Piece.text] using hb⟩

end Comments

/-! ### Statements -/

theorem Run.bind_eq_pure {α β : Type} {x : Run α} {f : α → Run β} {b : β} :
    x >>= f = pure b ↔ ∃ a, x = pure a ∧ f a = pure b := by
  constructor
  · intro h
    rcases hx : x.run with _ | e | a
    · rw [show x = ExceptT.mk none from hx] at h
      cases h
    · rw [show x = throw e from hx] at h
      cases h
    · rw [show x = pure a from hx] at h
      exact ⟨a, hx, h⟩
  · rintro ⟨a, rfl, h⟩
    exact h

theorem Run.lift_eq_pure {α : Type} {x : Except ConfigError α} {a : α} : Run.lift x = pure a ↔ x = .ok a :=
  ⟨fun h => Option.some.inj h, fun h => congrArg some h⟩

/-- Between `p` and `r` statements were read and their assignments made. -/
def Reads (u : CharTable) (scope : Str) (p : Parser) (cfg : AptConfig) (r : Parser × AptConfig) : Prop :=
  ∃ s items, Statements u s items ∧ p.rest = s ++ r.1.rest ∧
    r.1.includes = p.includes ++ directivesOf items ∧ r.2 = applyItems scope cfg items

section Statements

variable {s t scope key : Str} {p q : Parser} {cfg : AptConfig} {r : Parser × AptConfig}

def Space.append (a b : Space) : Space :=
  ⟨a.1 ++ b.1, fun c hc => (List.mem_append.1 hc).elim (a.2 c) (b.2 c)⟩

/-! #### Keys -/

theorem chainStep_next_consumes {parts parts' : List Str}
    (h : chainStep u (p, parts) = some (.next (q, parts'))) :
    ∃ (a b : Space) (k : Segment u), parts' = parts ++ [k.text] ∧
      Consumes (a.1 ++ ':' :: ':' :: (b.1 ++ k.text)) p q := by
  obtain ⟨a, ha, -⟩ := consumes_skipWhitespace p
  unfold chainStep at h
  dsimp only at h
  split_ifs at h with hsep hseg
  · cases h
  · obtain ⟨b, hb, -⟩ := consumes_skipWhitespace p.skipWhitespace.advance.advance
    obtain ⟨hk, hchars, -⟩ := readKeySegment_consumes (u := u) p.skipWhitespace.advance.advance.skipWhitespace
    cases h
    have hcolons := consumes_two hsep (by decide) (by decide)
    exact ⟨a, b, ⟨_, hseg, hchars⟩, rfl, ha.trans (hcolons.trans (hb.trans hk))⟩
  · cases h

theorem chainStep_exit_consumes {parts parts' : List Str} {sep : Bool}
    (h : chainStep u (p, parts) = some (.exit (q, parts', sep))) :
    parts' = parts ∧ ∃ a : Space, (sep = false ∧ Consumes a.1 p q) ∨
      (sep = true ∧ ∃ b : Space, Consumes (a.1 ++ ':' :: ':' :: b.1) p q) := by
  obtain ⟨a, ha, -⟩ := consumes_skipWhitespace p
  unfold chainStep at h
  dsimp only at h
  split_ifs at h with hsep hseg
  · obtain ⟨b, hb, -⟩ := consumes_skipWhitespace p.skipWhitespace.advance.advance
    obtain ⟨hk, -⟩ := readKeySegment_consumes (u := u) p.skipWhitespace.advance.advance.skipWhitespace
    rw [hseg] at hk
    cases h
    have hcolons := consumes_two hsep (by decide) (by decide)
    have hall := ha.trans (hcolons.trans (hb.trans hk))
    rw [List.append_nil] at hall
    exact ⟨rfl, a, Or.inr ⟨rfl, b, hall⟩⟩
  · cases h
  · cases h
    exact ⟨rfl, a, Or.inl ⟨rfl, ha⟩⟩

theorem readChain_consumes {parts parts' : List Str} {sep : Bool}
    (h : readChain u (p, parts) = pure (q, parts', sep)) :
    ∃ (spacing : Spacing) (ks : List (Segment u)) (a : Space), parts' = parts ++ ks.map Segment.text ∧
      ((sep = false ∧ Consumes (tailText spacing ks ++ a.1) p q) ∨
        (sep = true ∧ ∃ b : Space, Consumes (tailText spacing ks ++ (a.1 ++ ':' :: ':' :: b.1)) p q)) := by
  induction hn : p.left using Nat.strong_induction_on generalizing p parts with
  | _ n ih =>
    subst hn
    rcases chainStep_cases (u := u) (p, parts) with ⟨⟨p', parts₁⟩, hstep, hlt⟩ | ⟨⟨q', parts₁, sep'⟩, hstep, -⟩
    · rw [readChain_next hstep] at h
      obtain ⟨a, b, k, rfl, hk⟩ := chainStep_next_consumes hstep
      obtain ⟨spacing, ks, a', rfl, hrest⟩ := ih _ hlt h rfl
      refine ⟨fun i => i.casesOn (a, b) spacing, k :: ks, a', by simp, ?_⟩
      have htext : tailText (fun i => i.casesOn (a, b) spacing) (k :: ks) =
          a.1 ++ ':' :: ':' :: (b.1 ++ k.text) ++ tailText spacing ks := by
        simp [tailText]
      rw [htext]
      rcases hrest with ⟨rfl, hrest⟩ | ⟨rfl, b', hrest⟩
      · have hall := hk.trans hrest
        rw [← List.append_assoc _ (tailText spacing ks)] at hall
        exact Or.inl ⟨rfl, hall⟩
      · have hall := hk.trans hrest
        rw [← List.append_assoc _ (tailText spacing ks)] at hall
        exact Or.inr ⟨rfl, b', hall⟩
    · rw [readChain_exit hstep] at h
      cases h
      obtain ⟨rfl, a, ha⟩ := chainStep_exit_consumes hstep
      exact ⟨fun _ => (noSpace, noSpace), [], a, by simp, ha⟩

/-! #### Directives and comments -/

theorem stops_lineText (h : Stops (isKeyChar u) t) : Stops (isKeyChar u) (lineText t) := by
  cases t with
  | nil => exact h
  | cons c t =>
    by_cases hc : c = '\n'
    · rw [hc, lineText, List.takeWhile_cons_of_neg (by simp)]
      rintro d ⟨⟩
    · rw [lineText_cons hc]
      exact stops_cons (h c rfl) _

/-- A comment without its line feed, or a directive. -/
theorem readDirective_consumes (hp : p.current = '#') (h : p.readDirective u = .ok q) :
    (∃ text, '\n' ∉ text ∧ ¬ isInclude (text.takeWhile (isKeyChar u)) ∧
        ¬ isIncludeDir (text.takeWhile (isKeyChar u)) ∧ Consumes ('#' :: text) p q ∧
        ∀ c ∈ q.rest.head?, c = '\n') ∨
      Reads u scope p cfg (q, cfg) := by
  have hhash := consumes_advance hp (by decide)
  obtain ⟨hword, hchars, hstops⟩ := readKeySegment_consumes (u := u) p.advance
  unfold readDirective at h
  dsimp only at h
  generalize p.advance.readKeySegment u = w at h hword hchars hstops
  obtain ⟨word, p₁⟩ := w
  dsimp only at h hword hchars hstops
  split_ifs at h with hknown
  · cases h
    obtain ⟨hline, hend⟩ := consumes_skipLineComment p₁
    have hfeed : '\n' ∉ word := fun hmem => by
      have hkey := hchars _ hmem
      rw [isKeyChar_mark (by decide)] at hkey
      cases hkey
    refine Or.inl ⟨word ++ lineText p₁.rest, ?_, ?_, ?_, hhash.trans (hword.trans hline), hend⟩
    · exact fun hmem => (List.mem_append.1 hmem).elim hfeed (notMem_lineText _)
    · rw [takeWhile_append_stops hchars (stops_lineText hstops)]
      exact hknown.1
    · rw [takeWhile_append_stops hchars (stops_lineText hstops)]
      exact hknown.2
  · rw [← not_or, not_not] at hknown
    obtain ⟨⟨path, p₂⟩, hread, h⟩ := Loop.bind_eq_ok.1 h
    cases h
    obtain ⟨b, hb, -⟩ := consumes_skipWhitespace p₁
    obtain ⟨l, rfl, hl⟩ := readString_consumes hread
    obtain ⟨semicolon, b', hsemicolon⟩ := skipSemicolon_consumes p₂
    have hne : word ≠ [] := by
      rintro rfl
      exact absurd hknown (by decide)
    have hall := hhash.trans (hword.trans (hb.trans (hl.trans hsemicolon)))
    refine Or.inr ⟨_, _, .directive ⟨word, hne, hchars⟩ hknown b l semicolon (.piece (.space b') .nil), ?_, ?_,
      rfl⟩
    · rw [hall.1]
      simp [Piece.text]
    · change p₂.skipSemicolon.includes ++ _ = _
      rw [hall.2]
      rfl

/-! #### Values -/

theorem readValue_consumes {value : Str} {p₁ : Parser} (hread : p.readString = .ok (value, p₁))
    (hsemicolon : p₁.skipWhitespace.expectChar u ';' = .ok q) :
    ∃ (l : Literal) (b : Space), l.value = value ∧ Consumes (l.text ++ (b.1 ++ [';'])) p q := by
  obtain ⟨l, hvalue, hl⟩ := readString_consumes hread
  obtain ⟨b, hb, -⟩ := consumes_skipWhitespace p₁
  exact ⟨l, b, hvalue, hl.trans (hb.trans (expectChar_consumes hsemicolon (by decide)))⟩

theorem parseSet_consumes (h : p.parseSet u key cfg = .ok r) :
    ∃ (l : Literal) (b : Space), r.2 = cfg.set key l.value ∧ Consumes (l.text ++ (b.1 ++ [';'])) p r.1 := by
  obtain ⟨⟨value, p₁⟩, hread, h⟩ := Loop.bind_eq_ok.1 h
  obtain ⟨p₂, hsemicolon, h⟩ := Loop.bind_eq_ok.1 h
  cases h
  obtain ⟨l, b, rfl, hl⟩ := readValue_consumes hread hsemicolon
  exact ⟨l, b, rfl, hl⟩

theorem parseAppend_consumes (h : p.parseAppend u key cfg = .ok r) :
    ∃ (l : Literal) (b : Space), r.2 = cfg.pushList key l.value ∧ Consumes (l.text ++ (b.1 ++ [';'])) p r.1 := by
  unfold parseAppend at h
  split_ifs at h
  obtain ⟨⟨value, p₁⟩, hread, h⟩ := Loop.bind_eq_ok.1 h
  obtain ⟨p₂, hsemicolon, h⟩ := Loop.bind_eq_ok.1 h
  cases h
  obtain ⟨l, b, rfl, hl⟩ := readValue_consumes hread hsemicolon
  exact ⟨l, b, rfl, hl⟩

/-! #### Blocks -/

/-- Between `p` and `r` a block was read: statements, and a comment if the text ends with it. -/
def ReadsBlock (u : CharTable) (scope : Str) (p : Parser) (cfg : AptConfig) (r : Parser × AptConfig) : Prop :=
  ∃ s items c, Statements u s items ∧ LastComment u c ∧ (c = [] ∨ r.1.rest = []) ∧ Ended r.1.rest ∧
    p.rest = s ++ (c ++ r.1.rest) ∧ r.1.includes = p.includes ++ directivesOf items ∧
    r.2 = applyItems scope cfg items

variable {block : Str → Parser → AptConfig → Run (Parser × AptConfig)}

theorem rest_ne_nil_of_skip (u : CharTable) (h : p.skipWhitespaceAndComments = some (.ok q)) (hq : q.rest ≠ []) : p.rest ≠ [] := by
  obtain ⟨gap, c, -, -, hrest, -⟩ := skipWhitespaceAndComments_consumes (u := u) h
  rw [hrest]
  exact List.append_ne_nil_of_right_ne_nil _ hq

/-- A block within the text is closed. -/
theorem parseScope_consumes (hblock : ∀ r', block key p.advance cfg = pure r' → ReadsBlock u key p.advance cfg r')
    (hbrace : p.current = '{') (h : p.parseScope u block key cfg = pure r) :
    ∃ s items semicolon, ∃ b : Space, Statements u s items ∧
      p.rest = '{' :: (s ++ '}' :: (semicolonText semicolon ++ (b.1 ++ r.1.rest))) ∧
      r.1.includes = p.includes ++ directivesOf items ∧ r.2 = applyItems key cfg items := by
  obtain ⟨⟨p₁, cfg₁⟩, hread, h⟩ := Run.bind_eq_pure.1 h
  obtain ⟨p₂, hskip, h⟩ := Run.bind_eq_pure.1 h
  obtain ⟨p₃, hclose, h⟩ := Run.bind_eq_pure.1 h
  have hskip : p₁.skipWhitespaceAndComments = some (.ok p₂) := hskip
  have hclose := expectChar_consumes (Run.lift_eq_pure.1 hclose) (by decide)
  cases h
  obtain ⟨s, items, c, hs, -, hlast, hended, hrest, hincs, hcfg⟩ := hblock _ hread
  dsimp only at hlast hended hrest hincs hcfg
  have hne : p₁.rest ≠ [] := rest_ne_nil_of_skip u hskip (by rw [hclose.1]; exact List.cons_ne_nil _ _)
  obtain rfl := hlast.resolve_right hne
  have hsolid : Solid p₁.rest := by
    intro d hd
    rw [hended d hd]
    decide
  obtain rfl : p₂ = p₁ := by
    obtain ⟨rest, line, incs⟩ := p₁
    rw [skipWhitespaceAndComments_solid hsolid] at hskip
    exact (Except.ok.inj (Option.some.inj hskip)).symm
  have hopen := consumes_advance hbrace (by decide)
  obtain ⟨semicolon, b, hsemicolon⟩ := skipSemicolon_consumes p₃
  refine ⟨s, items, semicolon, b, hs, ?_, ?_, hcfg⟩
  · rw [hopen.1, hrest, hclose.1, hsemicolon.1]
    simp
  · rw [hsemicolon.2, hclose.2, hincs, hopen.2]

/-- Behind `key ::`. -/
theorem parseBody_append_reads {k : Path u} (spacing : Spacing) {a b : Space}
    (hkey : Consumes (k.text spacing ++ (a.1 ++ ':' :: ':' :: b.1)) p q)
    (h : q.parseBody u block (fullKey scope k.name) true cfg = pure r) : Reads u scope p cfg r := by
  rw [parseBody, if_pos rfl] at h
  obtain ⟨l, c, hcfg, hl⟩ := parseAppend_consumes (Run.lift_eq_pure.1 h)
  have hall := hkey.trans hl
  refine ⟨_, _, .append k spacing a b l c .nil, ?_, ?_, hcfg⟩
  · rw [hall.1]
    simp
  · rw [hall.2]
    simp [directivesOf, Item.directive?]

/-- Behind a key, where a value or a block follows. -/
theorem parseBody_reads {k : Path u} (spacing : Spacing) {a : Space}
    (hblock : ∀ scope q cfg r, q.left < p.left → block scope q cfg = pure r → ReadsBlock u scope q cfg r)
    (hkey : Consumes (k.text spacing ++ a.1) p q) (hlt : q.left < p.left)
    (h : q.parseBody u block (fullKey scope k.name) false cfg = pure r) : Reads u scope p cfg r := by
  rw [parseBody, if_neg (by decide)] at h
  split_ifs at h with hbrace hquote
  · obtain ⟨s, items, semicolon, c, hs, hrest, hincs, hcfg⟩ := parseScope_consumes
      (fun r' hr' => hblock _ _ _ r' ((left_advance_le _).trans_lt hlt) hr') hbrace h
    refine ⟨_, _, .scope k spacing a hs semicolon (.piece (.space c) .nil), ?_, ?_, ?_⟩
    · rw [hkey.1, hrest]
      simp [Piece.text]
    · rw [hincs, hkey.2, directivesOf_append, directivesOf_under]
      simp [directivesOf]
    · rw [hcfg, applyItems_append, applyItems_under]
      rfl
  · obtain ⟨l, c, hcfg, hl⟩ := parseSet_consumes (Run.lift_eq_pure.1 h)
    have hall := hkey.trans hl
    refine ⟨_, _, .set k spacing a l c .nil, ?_, ?_, hcfg⟩
    · rw [hall.1]
      simp
    · rw [hall.2]
      simp [directivesOf, Item.directive?]
  · cases h

/-- A statement, if the blocks within it are read to their ends. -/
theorem parseStatement_consumes (hblock : ∀ scope q cfg r, q.left < p.left → block scope q cfg = pure r →
      ReadsBlock u scope q cfg r) (h : p.parseStatement u block scope cfg = pure r) :
    (∃ text, '\n' ∉ text ∧ ¬ isInclude (text.takeWhile (isKeyChar u)) ∧
        ¬ isIncludeDir (text.takeWhile (isKeyChar u)) ∧ Consumes ('#' :: text) p r.1 ∧ r.2 = cfg ∧
        ∀ c ∈ r.1.rest.head?, c = '\n') ∨
      Reads u scope p cfg r := by
  unfold parseStatement at h
  dsimp only at h
  split_ifs at h with hhash hseg
  · obtain ⟨q, hread, h⟩ := Run.bind_eq_pure.1 h
    cases h
    refine (readDirective_consumes hhash (Run.lift_eq_pure.1 hread)).imp_left ?_
    rintro ⟨text, hfeed, hinclude, hdir, hconsumes, hend⟩
    exact ⟨text, hfeed, hinclude, hdir, hconsumes, rfl, hend⟩
  · cases h
  right
  obtain ⟨hhead, hchars, -⟩ := readKeySegment_consumes (u := u) p
  obtain ⟨⟨p₁, parts, sep⟩, hchain, h⟩ := Run.bind_eq_pure.1 h
  obtain ⟨spacing, ks, a, rfl, hkey⟩ := readChain_consumes hchain
  obtain ⟨b, hb, -⟩ := consumes_skipWhitespace p₁
  have hlt : p₁.skipWhitespace.left < p.left := by
    obtain ⟨r', hr', hle⟩ := readChain_ends (u := u) ((p.readKeySegment u).2, [(p.readKeySegment u).1])
    rw [hchain] at hr'
    exact (left_skipWhitespace_le _).trans_lt ((hle _ (Option.some.inj hr').symm).trans_lt (readKeySegment_lt hseg))
  -- the head of the key, and its other segments
  let k : Path u := ⟨⟨_, hseg, hchars⟩, ks⟩
  have htext : k.text spacing = (p.readKeySegment u).1 ++ tailText spacing ks := rfl
  rcases hkey with ⟨rfl, hkey⟩ | ⟨rfl, b', hkey⟩
  · refine parseBody_reads (k := k) spacing (a := a.append b) hblock ?_ hlt h
    have hall := hhead.trans (hkey.trans hb)
    rwa [List.append_assoc, ← List.append_assoc, ← htext] at hall
  · refine parseBody_append_reads (k := k) spacing (a := a) (b := b'.append b) ?_ h
    have hall := hhead.trans (hkey.trans hb)
    rw [List.append_assoc, ← List.append_assoc, ← htext] at hall
    simpa [Space.append] using hall

end Statements

/-! ### Blocks -/

section Blocks

variable {s text scope : Str} {p q : Parser} {cfg cfg' : AptConfig} {r r' : Parser × AptConfig}

theorem Reads.block (h : Reads u scope p cfg r) (h' : ReadsBlock u scope r.1 r.2 r') :
    ReadsBlock u scope p cfg r' := by
  obtain ⟨s, items, hs, hrest, hincs, hcfg⟩ := h
  obtain ⟨s', items', c, hs', hc, hlast, hended, hrest', hincs', hcfg'⟩ := h'
  refine ⟨s ++ s', items ++ items', c, hs.concat hs', hc, hlast, hended, ?_, ?_, ?_⟩
  · rw [hrest, hrest', List.append_assoc]
  · rw [hincs', hincs, directivesOf_append, List.append_assoc]
  · rw [hcfg', hcfg, applyItems_append]

theorem readBlock_left_lt (hp : p.rest ≠ []) (h : p.parseStatement u (readBlock u) scope cfg = pure r) :
    r.1.left < p.left := by
  have hblocks : ∀ scope q cfg, q.left < p.left → Hoare.Ends (readBlock u scope q cfg) fun r => r.1.left ≤ q.left :=
    fun _ q _ _ => parseBlock_ends _ (Nat.lt_succ_self q.left)
  obtain ⟨x, hx, hlt⟩ : Hoare.Ends (p.parseStatement u (readBlock u) scope cfg) fun r => r.1.left < p.left :=
    parseStatement_ends hblocks hp
  rw [show p.parseStatement u (readBlock u) scope cfg = x from hx] at h
  exact hlt r (Option.some.inj h)

/-- A block that is at its end. -/
theorem readsBlock_of_end {c : Str} (hs : Statements u s []) (hc : LastComment u c)
    (hlast : c = [] ∨ q.rest = []) (hconsumes : Consumes (s ++ c) p q) (hend : q.rest = [] ∨ q.current = '\x7d') :
    ReadsBlock u scope p cfg (q, cfg) := by
  refine ⟨s, [], c, hs, hc, hlast, ?_, ?_, ?_, rfl⟩
  · rintro d hd
    rcases hend with hnil | hbrace
    · rw [hnil] at hd
      cases hd
    · obtain ⟨rest, hrest⟩ := List.head?_eq_some_iff.1 hd
      rw [← hbrace, current, hrest, List.headD_cons]
  · rw [hconsumes.1, List.append_assoc]
  · rw [hconsumes.2, directivesOf, List.filterMap_nil, List.append_nil]

/-- Behind a directive that is not known: the rest of its line is a comment. -/
theorem readsBlock_hash (hfeed : '\n' ∉ text) (hinclude : ¬ isInclude (text.takeWhile (isKeyChar u)))
    (hdir : ¬ isIncludeDir (text.takeWhile (isKeyChar u))) (hcomment : Consumes ('#' :: text) p q)
    (hline : ∀ c ∈ q.rest.head?, c = '\n')
    (hblock : ∀ q', q'.left < q.left → readBlock u scope q' cfg = pure r → ReadsBlock u scope q' cfg r)
    (h : readBlock u scope q cfg = pure r) : ReadsBlock u scope p cfg r := by
  obtain ⟨rest, line, incs⟩ := q
  cases rest with
  | nil =>
    rw [readBlock_ended ended_nil] at h
    cases h
    exact ⟨[], [], _, .nil, .hash text hfeed hinclude hdir, Or.inr rfl, ended_nil, hcomment.1,
      by simpa [directivesOf] using hcomment.2, rfl⟩
  | cons d rest =>
    obtain rfl : d = '\n' := hline d rfl
    -- the line feed belongs to the comment
    have hnext : Reads u scope p cfg (⟨rest, line + ['\n'].count '\n', incs⟩, cfg) :=
      ⟨_, [], .piece (.hash text hfeed hinclude hdir) .nil, by simpa [Piece.text] using hcomment.1,
        by simpa [directivesOf] using hcomment.2, rfl⟩
    have hskip := skipWhitespaceAndComments_space (s := ['\n']) (by simp [isAsciiWhitespace]) rest line incs
    rw [List.singleton_append] at hskip
    rw [readBlock_congr hskip] at h
    exact hnext.block (hblock _ (Nat.lt_succ_self _) h)

/-- **What a block has read.** -/
theorem readBlock_sound (h : readBlock u scope p cfg = pure r) : ReadsBlock u scope p cfg r := by
  induction hn : p.left using Nat.strong_induction_on generalizing scope p cfg r with
  | _ n ih =>
    subst hn
    rw [readBlock_eq] at h
    obtain ⟨q, hskip, h⟩ := Run.bind_eq_pure.1 h
    obtain ⟨gap, c, hc, hlast, hgap⟩ := skipWhitespaceAndComments_consumes (u := u) hskip
    have hgapStatements : Statements u gap.text [] := by
      have hall := statements_gap gap (u := u) .nil
      rwa [List.append_nil] at hall
    split_ifs at h with hend
    · cases h
      exact readsBlock_of_end hgapStatements hc hlast hgap hend
    rw [not_or] at hend
    obtain rfl := hlast.resolve_right hend.1
    rw [List.append_nil] at hgap
    have hreads : Reads u scope p cfg (q, cfg) :=
      ⟨gap.text, [], hgapStatements, hgap.1, by simpa [directivesOf] using hgap.2, rfl⟩
    obtain ⟨⟨p₁, cfg₁⟩, hstatement, hrest⟩ := Run.bind_eq_pure.1 h
    have hle : q.left ≤ p.left := by
      rw [left, left, hgap.1, List.length_append]
      exact Nat.le_add_left _ _
    have hlt : p₁.left < p.left := (readBlock_left_lt hend.1 hstatement).trans_le hle
    refine hreads.block ?_
    rcases parseStatement_consumes (fun scope q' cfg r hq' hr => ih _ (hq'.trans_le hle) hr rfl) hstatement with
      ⟨text, hfeed, hinclude, hdir, hcomment, hcfg, hline⟩ | hreads
    · dsimp only at hcfg hrest
      subst hcfg
      exact readsBlock_hash hfeed hinclude hdir hcomment hline
        (fun q' hq' hr => ih _ (hq'.trans hlt) hr rfl) hrest
    · exact hreads.block (ih _ hlt hrest rfl)

/-! ### Whole texts -/

/-- A configuration: complete statements, and nothing else. -/
def Configuration (u : CharTable) (text : Str) (items : List (Item u)) : Prop :=
  ∃ s c, text = s ++ c ∧ Statements u s items ∧ LastComment u c

/-- **When all of a text is read.** -/
theorem consumes_all_iff (u : CharTable) (text scope : Str) (cfg : AptConfig) :
    (∀ p cfg', parseBlock u (text.length + 1) scope (.new text) cfg = pure (p, cfg') →
        p.rest = [] ∧ ∃ items, Configuration u text items ∧ p.includes = directivesOf items ∧
          cfg' = applyItems scope cfg items) ↔
      ¬ ∃ s items t, Statements u s items ∧ text = s ++ '}' :: t := by
  constructor
  · rintro hall ⟨s, items, t, hs, rfl⟩
    have hended : Ended ('}' :: t) := by
      rintro c ⟨⟩
      rfl
    obtain ⟨m, hm⟩ := readBlock_statements hs hended scope cfg 1 []
    exact List.cons_ne_nil _ _ (hall _ _ hm).1
  · intro hbrace p cfg' hread
    obtain ⟨s, items, c, hs, hc, hlast, hended, hrest, hincs, hcfg⟩ := readBlock_sound (p := .new text) hread
    dsimp only [Parser.new] at hlast hended hrest hincs hcfg
    have hnil : p.rest = [] := by
      cases hp : p.rest with
      | nil => rfl
      | cons d t =>
        rw [hp] at hlast hended hrest
        obtain rfl : d = '}' := hended d rfl
        obtain rfl := hlast.resolve_right (List.cons_ne_nil _ _)
        exact absurd ⟨s, items, t, hs, hrest⟩ hbrace
    rw [hnil, List.append_nil] at hrest
    exact ⟨hnil, items, ⟨s, c, hrest, hs, hc⟩, hincs, hcfg⟩

def strayBrace : Str := "A \"1\"; \x7d B \"2\";".toList

/-- A brace too many, and a statement behind it. -/
theorem ignored_behind_brace :
    parseInto .asciiOnly strayBrace [] .new = pure (AptConfig.new.set "A".toList "1".toList) ∧
      ∃ p, parseBlock .asciiOnly (strayBrace.length + 1) [] (.new strayBrace) .new =
        pure (p, AptConfig.new.set "A".toList "1".toList) ∧ p.rest = "\x7d B \"2\";".toList :=
  ⟨rfl, _, rfl, rfl⟩

/-! #### Reading a whole text -/

theorem lineText_of_notMem (h : '\n' ∉ s) : lineText s = s := by
  refine List.takeWhile_eq_self_iff.2 fun c hc => ?_
  rw [decide_eq_true_eq]
  rintro rfl
  exact h hc

theorem skipLineComment_all (h : '\n' ∉ s) (n : ℕ) (incs : List IncludeDirective) :
    skipLineComment ⟨s, n, incs⟩ = ⟨[], n, incs⟩ := by
  have hskip := skip_append s [] n incs
  rw [List.append_nil, List.count_eq_zero_of_not_mem h, add_zero] at hskip
  rw [← hskip]
  exact congrArg (fun t => skip t.length ⟨s, n, incs⟩) (lineText_of_notMem h)

theorem readBlock_lastComment {c : Str} (hc : LastComment u c) (scope : Str) (cfg : AptConfig) (n : ℕ)
    (incs : List IncludeDirective) : readBlock u scope ⟨c, n, incs⟩ cfg = pure (⟨[], n, incs⟩, cfg) := by
  cases hc with
  | none => exact readBlock_ended ended_nil
  | line text h =>
    have hstep : commentStep ⟨'/' :: '/' :: text, n, incs⟩ = some (.next ⟨[], n, incs⟩) := by
      rw [commentStep, skipWhitespace_of_stops (stops_cons (by decide) _)]
      have hskip : skipLineComment ⟨'/' :: '/' :: text, n, incs⟩ = ⟨[], n, incs⟩ :=
        skipLineComment_all (by simpa using h) n incs
      simp [current, peekAhead, hskip]
    rw [readBlock_congr (skipWhitespaceAndComments_next hstep)]
    exact readBlock_ended ended_nil
  | hash text h hinclude hdir =>
    have hseg := readKeySegment_append (u := u) (s := text.takeWhile (isKeyChar u))
      (fun c hc => List.mem_takeWhile_imp hc) (stops_nil.dropWhile_append text) n incs
    rw [List.append_nil, List.takeWhile_append_dropWhile] at hseg
    have hstatement : parseStatement u (readBlock u) scope ⟨'#' :: text, n, incs⟩ cfg =
        pure (⟨[], n, incs⟩, cfg) := by
      rw [parseStatement, if_pos (current_cons ..), readDirective, advance_cons (by decide), hseg]
      dsimp only
      rw [if_pos ⟨hinclude, hdir⟩, skipLineComment_all]
      · rfl
      · exact fun hmem => h ((List.dropWhile_sublist _).subset hmem)
    rw [readBlock_statement (by decide) (by decide) hstatement]
    exact readBlock_ended ended_nil

theorem noSemicolon_lastComment {c : Str} (hc : LastComment u c) : NoSemicolon c := by
  cases hc with
  | none => simp [NoSemicolon]
  | line | hash => exact noSemicolon_cons (by decide) (by decide) _

/-- A configuration is accepted. -/
theorem readBlock_configuration {items : List (Item u)} (h : Configuration u text items) (scope : Str)
    (cfg : AptConfig) :
    ∃ m, readBlock u scope (.new text) cfg = pure (⟨[], m, directivesOf items⟩, applyItems scope cfg items) := by
  obtain ⟨s, c, rfl, hs, hc⟩ := h
  obtain ⟨m, hm⟩ := readBlock_append hs (noSemicolon_lastComment hc) scope cfg 1 []
  exact ⟨m, hm.trans (readBlock_lastComment hc ..)⟩

end Blocks

end Conf
end DebToolkit
