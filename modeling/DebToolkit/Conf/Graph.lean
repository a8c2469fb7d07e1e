import DebToolkit.Blind
import DebToolkit.Conf.Includes

/-!
# Files that include each other

`load_with_includes` on any file system, whatever its files include, themselves too. No file looks at the
configuration read so far: it makes its assignments, and names the files it includes.

* `readBlock_blind`: the statements of a text are its assignments;
* `load_with_includes_any`: loading succeeds exactly if all files that can be reached are sound and none is
  nested ten times; then the values are those of the latest assignments, each file being followed by
  those it includes. Otherwise the error is that of a file that can be reached, or of one nested too deep.
-/

namespace DebToolkit
namespace Conf

open Text Conf.Parser Blind

/-! ### What a text does -/

instance : Nonempty AptConfig := ⟨.new⟩

section Parse

variable {u : CharTable} {scope key : Str} {p : Parser}
  {block : Str → Parser → AptConfig → Run (Parser × AptConfig)}

theorem lift_blind {x : AptConfig → Except ConfigError (Parser × AptConfig)}
    (h : (∃ e, ∀ cfg, x cfg = .error e) ∨
      ∃ q a, ∀ cfg, x cfg = .ok (q, Assignment.apply cfg a)) :
    IsBlind Assignment.apply fun cfg => Run.lift (x cfg) := by
  obtain ⟨e, he⟩ | ⟨q, a, hq⟩ := h
  · exact ⟨.error e, fun cfg => congrArg Run.lift (he cfg)⟩
  · exact ⟨.ok (q, [a]), fun cfg => congrArg Run.lift (hq cfg)⟩

/-- Behind the value, in both kinds of assignments. -/
theorem value_blind (p : Parser) (a : Str → Assignment) :
    (∃ e, ∀ cfg, (do
        let (value, p) ← p.readString
        let p ← p.skipWhitespace.expectChar u ';'
        return (p, Assignment.apply cfg (a value)) : Except ConfigError (Parser × AptConfig)) = .error e) ∨
      ∃ q w, ∀ cfg, (do
        let (value, p) ← p.readString
        let p ← p.skipWhitespace.expectChar u ';'
        return (p, Assignment.apply cfg (a value)) : Except ConfigError (Parser × AptConfig)) =
          .ok (q, Assignment.apply cfg w) := by
  rcases hread : p.readString with e | ⟨value, p₁⟩
  · exact .inl ⟨e, fun cfg => rfl⟩
  · rcases hexpect : p₁.skipWhitespace.expectChar u ';' with e | q
    · refine .inl ⟨e, fun cfg => ?_⟩
      show (p₁.skipWhitespace.expectChar u ';' >>= fun p => _) = _
      rw [hexpect]
      rfl
    · refine .inr ⟨q, a value, fun cfg => ?_⟩
      show (p₁.skipWhitespace.expectChar u ';' >>= fun p => _) = _
      rw [hexpect]
      rfl

theorem parseAppend_blind (key : Str) (p : Parser) :
    IsBlind Assignment.apply fun cfg => Run.lift (p.parseAppend u key cfg) := by
  refine lift_blind ?_
  unfold parseAppend
  split_ifs with hquote
  · exact .inl ⟨_, fun cfg => rfl⟩
  · exact value_blind p (.push key)

theorem parseSet_blind (key : Str) (p : Parser) :
    IsBlind Assignment.apply fun cfg => Run.lift (p.parseSet u key cfg) :=
  lift_blind (value_blind p (.set key))

section Nested

variable (hblock : ∀ scope q, q.left < p.left → IsBlind Assignment.apply (block scope q))

include hblock

theorem parseScope_blind {q : Parser} (hq : q.left ≤ p.left) (hbrace : q.current = '{') :
    IsBlind Assignment.apply fun cfg => q.parseScope u block key cfg := by
  have hlt := left_advance_lt (ne_nil_of_current hbrace (by decide))
  refine (hblock key q.advance (hlt.trans_le hq)).bind
    (g := fun p₁ cfg => ExceptT.mk p₁.skipWhitespaceAndComments >>= fun p₂ =>
      Run.lift (p₂.expectChar u '}') >>= fun p₃ => pure (p₃.skipSemicolon, cfg)) fun p₁ _ _ _ => ?_
  refine isBlind_ends_bind (skipWhitespaceAndComments_ends p₁) fun p₂ _ => ?_
  refine isBlind_ends_bind (lift_ends fun p₃ _ => trivial) fun p₃ _ => ?_
  exact isBlind_pure p₃.skipSemicolon

theorem parseBody_blind {q : Parser} (hq : q.left ≤ p.left) (trailingSep : Bool) :
    IsBlind Assignment.apply fun cfg => q.parseBody u block key trailingSep cfg := by
  unfold parseBody
  split_ifs with hsep hbrace hquote
  · exact parseAppend_blind key q
  · exact parseScope_blind hblock hq hbrace
  · exact parseSet_blind key q
  · exact isBlind_throw _

theorem parseStatement_blind :
    IsBlind Assignment.apply fun cfg => p.parseStatement u block scope cfg := by
  unfold parseStatement
  dsimp only
  split_ifs with hhash hseg
  · exact isBlind_ends_bind (lift_ends fun q _ => trivial) fun q _ => isBlind_pure q
  · exact isBlind_throw _
  · have hlt := readKeySegment_lt (u := u) (p := p) hseg
    refine isBlind_ends_bind (readChain_ends _) fun ⟨p₁, keyParts, trailingSep⟩ h₁ => ?_
    exact parseBody_blind hblock (((left_skipWhitespace_le _).trans h₁).trans hlt.le) trailingSep

end Nested

/-- **A block is its assignments**, whatever they are made to. -/
theorem readBlock_blind (scope : Str) (p : Parser) : IsBlind Assignment.apply (readBlock u scope p) := by
  induction hn : p.left using Nat.strong_induction_on generalizing scope p with
  | _ n ih =>
    subst hn
    have heq : readBlock u scope p = fun cfg => ExceptT.mk p.skipWhitespaceAndComments >>= fun q =>
        if q.rest = [] ∨ q.current = '}' then pure (q, cfg)
        else q.parseStatement u (readBlock u) scope cfg >>= fun r => readBlock u scope r.1 r.2 :=
      funext fun cfg => readBlock_eq u scope p cfg
    rw [heq]
    refine isBlind_ends_bind (skipWhitespaceAndComments_ends p) fun q hq => ?_
    by_cases hend : q.rest = [] ∨ q.current = '}'
    · simp only [if_pos hend]
      exact isBlind_pure q
    · simp only [if_neg hend]
      rw [not_or] at hend
      have hblock : ∀ scope q', q'.left < q.left → IsBlind Assignment.apply (readBlock u scope q') :=
        fun scope q' hq' => ih _ (hq'.trans_le hq) scope q' rfl
      refine (parseStatement_blind hblock).bind fun p₁ cfg cfg₁ h₁ => ?_
      obtain ⟨r, hr, hless⟩ : Hoare.Ends (q.parseStatement u (readBlock u) scope cfg) fun r => r.1.left < q.left :=
        parseStatement_ends (fun scope r cfg hr => parseBlock_ends _ (Nat.lt_succ_self _)) hend.1
      rw [h₁] at hr
      have hlt : p₁.left < q.left := hless _ (Option.some.inj hr).symm
      exact ih _ (hlt.trans_le hq) scope p₁ rfl

end Parse

/-! ### Files -/

/-- The files that a directive names. -/
def targets (fs : FileSystem) (base : Str) (inc : IncludeDirective) : Except ConfigError (List Str) :=
  let target := target base inc.path
  if inc.isDir then
    if fs.isDir target then fs.listing target else .ok []
  else if fs.pathExists target then .ok [target] else .ok []

section Files

variable (u : CharTable) (fs : FileSystem)

/-- The file is read, and its directives and assignments are these, or the error is. -/
def Content (path : Str) (x : Effect ConfigError Assignment (List IncludeDirective)) : Prop :=
  ∀ cfg, (fs.read path >>= fun content => readBlock u [] (.new content) cfg >>= fun r =>
    (pure (r.1.includes, r.2) : Run (List IncludeDirective × AptConfig))) = x.run Assignment.apply cfg

/-- The file includes another one. -/
def Edge (path path' : Str) : Prop := ∃ incs ws, Content u fs path (.ok (incs, ws)) ∧
  ∃ inc ∈ incs, ∃ ts, targets fs (baseDir path) inc = .ok ts ∧ path' ∈ ts

/-- The file can be read, and the directories that it names. -/
def Sound (path : Str) : Prop := ∃ incs ws, Content u fs path (.ok (incs, ws)) ∧
  ∀ inc ∈ incs, ∃ ts, targets fs (baseDir path) inc = .ok ts

/-- What is wrong with the file. -/
def Unsound (path : Str) (e : ConfigError) : Prop := Content u fs path (.error e) ∨
  ∃ incs ws, Content u fs path (.ok (incs, ws)) ∧ ∃ inc ∈ incs, targets fs (baseDir path) inc = .error e

/-- From the first file the last is reached by so many inclusions. -/
inductive Nested : ℕ → Str → Str → Prop
  | here (path : Str) : Nested 0 path path
  | incl {n : ℕ} {path path' path'' : Str} (h : Edge u fs path path') (hrest : Nested n path' path'') :
    Nested (n + 1) path path''

/-- The assignments of a file, followed by those of the files it includes. -/
inductive Gathered : Str → List Assignment → Prop
  | file {path : Str} {incs : List IncludeDirective} {own : List Assignment} {tss : List (List Str)}
    {wss : List (List Assignment)} (h : Content u fs path (.ok (incs, own)))
    (htargets : List.Forall₂ (fun inc ts => targets fs (baseDir path) inc = .ok ts) incs tss)
    (hfiles : List.Forall₂ Gathered tss.flatten wss) : Gathered path (own ++ wss.flatten)

variable {u fs} {path path' : Str}

theorem exists_content (path : Str) : ∃ x, Content u fs path x := by
  have hread : Hoare.Ends (fs.read path) fun _ => True := lift_ends fun _ _ => trivial
  exact isBlind_ends_bind (g := fun content cfg => readBlock u [] (.new content) cfg >>= fun r =>
    (pure (r.1.includes, r.2) : Run (List IncludeDirective × AptConfig))) hread fun content _ =>
      (readBlock_blind [] (.new content)).bind fun p _ _ _ => isBlind_pure p.includes

/-- A file has one content. -/
theorem Content.unique {x y : Effect ConfigError Assignment (List IncludeDirective)} (h : Content u fs path x)
    (h' : Content u fs path y) : x.map Prod.fst = y.map Prod.fst := by
  have heq := (h .new).symm.trans (h' .new)
  rcases x with e | r
  · rcases y with e' | r'
    · cases heq
      rfl
    · cases heq
  · rcases y with e' | r'
    · cases heq
    · exact congrArg Except.ok (Prod.mk.inj (Except.ok.inj (Option.some.inj heq))).1

theorem Content.includes {incs incs' : List IncludeDirective} {own own' : List Assignment}
    (h : Content u fs path (.ok (incs, own))) (h' : Content u fs path (.ok (incs', own'))) : incs' = incs :=
  Except.ok.inj (h'.unique h)

theorem Content.sound_iff {incs : List IncludeDirective} {own : List Assignment}
    (h : Content u fs path (.ok (incs, own))) :
    Sound u fs path ↔ ∀ inc ∈ incs, ∃ ts, targets fs (baseDir path) inc = .ok ts := by
  constructor
  · rintro ⟨incs', own', h', hsound⟩
    rwa [h.includes h'] at hsound
  · exact fun hsound => ⟨incs, own, h, hsound⟩

theorem Content.edge_iff {incs : List IncludeDirective} {own : List Assignment}
    (h : Content u fs path (.ok (incs, own))) : Edge u fs path path' ↔
      ∃ inc ∈ incs, ∃ ts, targets fs (baseDir path) inc = .ok ts ∧ path' ∈ ts := by
  constructor
  · rintro ⟨incs', own', h', hedge⟩
    rwa [h.includes h'] at hedge
  · exact fun hedge => ⟨incs, own, h, hedge⟩

theorem Content.not_sound {e : ConfigError} (h : Content u fs path (.error e)) : ¬ Sound u fs path := by
  rintro ⟨incs, own, h', -⟩
  cases h.unique h'

theorem resolveInclude_eq (load : Str → AptConfig → Run AptConfig) (base : Str) (cfg : AptConfig)
    (inc : IncludeDirective) : resolveInclude fs load base cfg inc =
      Run.lift (targets fs base inc) >>= fun ts => ts.foldlM (fun cfg path => load path cfg) cfg := by
  unfold resolveInclude targets
  dsimp only
  split_ifs with hdir hisDir hexists
  · rfl
  · rfl
  · rw [Run.lift_ok, pure_bind, List.foldlM_cons]
    exact (bind_pure _).symm
  · rfl

theorem loadWithIncludesInner_succ (left : ℕ) (path : Str) (cfg : AptConfig) :
    loadWithIncludesInner u fs (left + 1) path cfg =
      (fs.read path >>= fun content => readBlock u [] (.new content) cfg >>= fun r =>
        (pure (r.1.includes, r.2) : Run (List IncludeDirective × AptConfig))) >>= fun r =>
          r.1.foldlM (fun cfg inc => resolveInclude fs (loadWithIncludesInner u fs left) (baseDir path) cfg inc)
            r.2 := by
  simp only [bind_assoc, pure_bind]
  rfl

/-- What a file makes of the configuration, given what the files it includes make of it. -/
def fileUpdates (fs : FileSystem) (files : Str → Updates ConfigError Assignment) (path : Str)
    (x : Effect ConfigError Assignment (List IncludeDirective)) : Updates ConfigError Assignment :=
  x.before (all fun inc => (targets fs (baseDir path) inc).bind (all files))

theorem exec_fileUpdates {left : ℕ} {files : Str → Updates ConfigError Assignment}
    {x : Effect ConfigError Assignment (List IncludeDirective)} (hx : Content u fs path x)
    (hfiles : ∀ path cfg, loadWithIncludesInner u fs left path cfg = exec Assignment.apply (files path) cfg)
    (cfg : AptConfig) : loadWithIncludesInner u fs (left + 1) path cfg =
      exec Assignment.apply (fileUpdates fs files path x) cfg := by
  have hinclude : ∀ inc cfg, resolveInclude fs (loadWithIncludesInner u fs left) (baseDir path) cfg inc =
      exec Assignment.apply ((targets fs (baseDir path) inc).bind (all files)) cfg := by
    intro inc cfg
    rw [resolveInclude_eq]
    cases targets fs (baseDir path) inc with
    | error e => rfl
    | ok ts =>
      rw [Run.lift_ok, pure_bind]
      exact exec_foldlM ts (fun t _ => hfiles t) cfg
  rw [loadWithIncludesInner_succ, hx cfg, fileUpdates, ← Effect.run_before]
  refine congrArg (x.run Assignment.apply cfg >>= ·) (funext fun r => ?_)
  exact exec_foldlM r.1 (fun inc _ => hinclude inc) r.2

/-- A file can be loaded if it is sound and the files it includes can be loaded. -/
theorem exists_fileUpdates_ok {files : Str → Updates ConfigError Assignment}
    {x : Effect ConfigError Assignment (List IncludeDirective)} (hx : Content u fs path x) :
    (∃ ws, fileUpdates fs files path x = .ok ws) ↔
      Sound u fs path ∧ ∀ path', Edge u fs path path' → ∃ ws, files path' = .ok ws := by
  rcases x with e | ⟨incs, own⟩
  · refine iff_of_false ?_ fun h => hx.not_sound h.1
    rintro ⟨ws, h⟩
    cases h
  · have hupdates : ∀ ws, fileUpdates fs files path (.ok (incs, own)) = .ok ws ↔
        ∃ ws', all (fun inc => (targets fs (baseDir path) inc).bind (all files)) incs = .ok ws' ∧
          own ++ ws' = ws := fun ws => Loop.map_eq_ok
    have hinclude : ∀ inc, (∃ ws, (targets fs (baseDir path) inc).bind (all files) = .ok ws) ↔
        ∃ ts, targets fs (baseDir path) inc = .ok ts ∧ ∀ t ∈ ts, ∃ ws, files t = .ok ws := by
      intro inc
      cases targets fs (baseDir path) inc with
      | error e => exact iff_of_false (by rintro ⟨ws, h⟩; cases h) (by rintro ⟨ts, h, -⟩; cases h)
      | ok ts =>
        refine exists_all_ok.trans ⟨fun h => ⟨ts, rfl, h⟩, ?_⟩
        rintro ⟨_, ⟨⟩, h⟩
        exact h
    have hloads : (∃ ws, fileUpdates fs files path (.ok (incs, own)) = .ok ws) ↔
        ∀ inc ∈ incs, ∃ ts, targets fs (baseDir path) inc = .ok ts ∧ ∀ t ∈ ts, ∃ ws, files t = .ok ws := by
      rw [← forall₂_congr fun inc _ => hinclude inc, ← exists_all_ok]
      simp only [hupdates]
      constructor
      · rintro ⟨_, ws', h, -⟩
        exact ⟨ws', h⟩
      · rintro ⟨ws', h⟩
        exact ⟨_, ws', h, rfl⟩
    rw [hloads, hx.sound_iff]
    constructor
    · refine fun h => ⟨fun inc hinc => ?_, fun path' hedge => ?_⟩
      · obtain ⟨ts, hts, -⟩ := h inc hinc
        exact ⟨ts, hts⟩
      · obtain ⟨inc, hinc, ts, hts, hpath'⟩ := hx.edge_iff.1 hedge
        obtain ⟨ts', hts', hfiles⟩ := h inc hinc
        cases hts.symm.trans hts'
        exact hfiles path' hpath'
    · rintro ⟨hsound, hfiles⟩ inc hinc
      obtain ⟨ts, hts⟩ := hsound inc hinc
      exact ⟨ts, hts, fun t ht => hfiles t (hx.edge_iff.2 ⟨inc, hinc, ts, hts, ht⟩)⟩

/-- Directives whose files have been loaded, one after the other. -/
theorem exists_files {files : Str → Updates ConfigError Assignment} {base : Str} {incs : List IncludeDirective}
    {wss : List (List Assignment)}
    (h : List.Forall₂ (fun inc ws => (targets fs base inc).bind (all files) = .ok ws) incs wss) :
    ∃ tss wss', List.Forall₂ (fun inc ts => targets fs base inc = .ok ts) incs tss ∧
      List.Forall₂ (fun t ws => files t = .ok ws) tss.flatten wss' ∧ wss.flatten = wss'.flatten := by
  induction h with
  | nil => exact ⟨[], [], .nil, .nil, rfl⟩
  | @cons inc ws incs wss hinc hrest ih =>
    obtain ⟨tss, wss', htss, hwss', hflatten⟩ := ih
    cases hts : targets fs base inc with
    | error e =>
      rw [hts] at hinc
      cases hinc
    | ok ts =>
      rw [hts] at hinc
      obtain ⟨wss₁, hwss₁, rfl⟩ := all_eq_ok.1 hinc
      refine ⟨ts :: tss, wss₁ ++ wss', .cons hts htss, List.rel_append hwss₁ hwss', ?_⟩
      rw [List.flatten_cons, List.flatten_append, hflatten]

theorem gathered_of_fileUpdates {files : Str → Updates ConfigError Assignment}
    {x : Effect ConfigError Assignment (List IncludeDirective)} {ws : List Assignment} (hx : Content u fs path x)
    (hfiles : ∀ t ws, files t = .ok ws → Gathered u fs t ws) (h : fileUpdates fs files path x = .ok ws) :
    Gathered u fs path ws := by
  rcases x with e | ⟨incs, own⟩
  · cases h
  · obtain ⟨ws', hall, rfl⟩ := Loop.map_eq_ok.1 h
    obtain ⟨wss, hwss, rfl⟩ := all_eq_ok.1 hall
    obtain ⟨tss, wss', htss, hwss', hflatten⟩ := exists_files hwss
    rw [hflatten]
    exact .file hx htss (hwss'.imp hfiles)

/-- What fails is wrong with the file, or with one that it includes. -/
theorem error_of_fileUpdates {files : Str → Updates ConfigError Assignment}
    {x : Effect ConfigError Assignment (List IncludeDirective)} {e : ConfigError} (hx : Content u fs path x)
    (h : fileUpdates fs files path x = .error e) :
    Unsound u fs path e ∨ ∃ path', Edge u fs path path' ∧ files path' = .error e := by
  rcases x with e' | ⟨incs, own⟩
  · cases h
    exact .inl (.inl hx)
  · have hall : all (fun inc => (targets fs (baseDir path) inc).bind (all files)) incs = .error e := by
      cases hall : all (fun inc => (targets fs (baseDir path) inc).bind (all files)) incs with
      | error e' =>
        rw [fileUpdates, Effect.before, hall] at h
        cases h
        rfl
      | ok ws =>
        rw [fileUpdates, Effect.before, hall] at h
        cases h
    obtain ⟨inc, hinc, herror⟩ := all_eq_error hall
    cases hts : targets fs (baseDir path) inc with
    | error e' =>
      rw [hts] at herror
      cases herror
      exact .inl (.inr ⟨incs, own, hx, inc, hinc, hts⟩)
    | ok ts =>
      rw [hts] at herror
      obtain ⟨t, ht, hfile⟩ := all_eq_error herror
      exact .inr ⟨t, hx.edge_iff.2 ⟨inc, hinc, ts, hts, ht⟩, hfile⟩

/-- The error is that of a file that can be reached, or that of one nested too deep. -/
def Blamed (u : CharTable) (fs : FileSystem) (left : ℕ) (path : Str) (e : ConfigError) : Prop :=
  (∃ p, Nested u fs left path p ∧ e = .includeDepth (String.ofList p)) ∨
    ∃ n < left, ∃ p, Nested u fs n path p ∧ Unsound u fs p e

/-- All files that can be reached are sound, and none is nested so many times. -/
def Loadable (u : CharTable) (fs : FileSystem) (left : ℕ) (path : Str) : Prop :=
  ∀ n p, Nested u fs n path p → n < left ∧ Sound u fs p

theorem loadable_succ {left : ℕ} : Loadable u fs (left + 1) path ↔
    Sound u fs path ∧ ∀ path', Edge u fs path path' → Loadable u fs left path' := by
  constructor
  · refine fun h => ⟨(h 0 path (.here path)).2, fun path' hedge n p hnested => ?_⟩
    obtain ⟨hn, hsound⟩ := h (n + 1) p (.incl hedge hnested)
    exact ⟨Nat.lt_of_succ_lt_succ hn, hsound⟩
  · rintro ⟨hsound, hfiles⟩ n p hnested
    cases hnested with
    | here => exact ⟨Nat.succ_pos left, hsound⟩
    | incl hedge hrest =>
      obtain ⟨hn, hsound⟩ := hfiles _ hedge _ _ hrest
      exact ⟨Nat.succ_lt_succ hn, hsound⟩

theorem loadWithIncludesInner_spec (left : ℕ) (path : Str) : ∃ x : Updates ConfigError Assignment,
    (∀ cfg, loadWithIncludesInner u fs left path cfg = exec Assignment.apply x cfg) ∧
      ((∃ ws, x = .ok ws) ↔ Loadable u fs left path) ∧ (∀ ws, x = .ok ws → Gathered u fs path ws) ∧
        ∀ e, x = .error e → Blamed u fs left path e := by
  induction left generalizing path with
  | zero =>
    refine ⟨.error (.includeDepth (String.ofList path)), fun cfg => rfl, ?_, nofun, ?_⟩
    · refine iff_of_false (by rintro ⟨ws, h⟩; cases h) fun h => ?_
      exact Nat.not_lt_zero _ (h 0 path (.here path)).1
    · rintro e ⟨⟩
      exact .inl ⟨path, .here path, rfl⟩
  | succ left ih =>
    choose files hrun hok hgathered hblamed using ih
    obtain ⟨x, hx⟩ := @exists_content u fs path
    refine ⟨fileUpdates fs files path x, exec_fileUpdates hx hrun, ?_,
      fun ws h => gathered_of_fileUpdates hx hgathered h, fun e h => ?_⟩
    · rw [exists_fileUpdates_ok hx, loadable_succ]
      exact and_congr_right fun _ => forall₂_congr fun path' _ => hok path'
    · obtain hunsound | ⟨path', hedge, herror⟩ := error_of_fileUpdates hx h
      · exact .inr ⟨0, Nat.succ_pos left, path, .here path, hunsound⟩
      · obtain ⟨p, hnested, rfl⟩ | ⟨n, hn, p, hnested, hunsound⟩ := hblamed path' e herror
        · exact .inl ⟨p, .incl hedge hnested, rfl⟩
        · exact .inr ⟨n + 1, Nat.succ_lt_succ hn, p, .incl hedge hnested, hunsound⟩

/-! ### Cycles -/

theorem Nested.trans {n m : ℕ} {path path' path'' : Str} (h : Nested u fs n path path')
    (h' : Nested u fs m path' path'') : Nested u fs (n + m) path path'' := by
  induction h with
  | here path => rwa [Nat.zero_add]
  | incl hedge _ ih =>
    rw [Nat.add_right_comm]
    exact .incl hedge (ih h')

theorem Nested.repeat {n : ℕ} {p : Str} (h : Nested u fs n p p) (k : ℕ) : Nested u fs (k * n) p p := by
  induction k with
  | zero =>
    rw [Nat.zero_mul]
    exact .here p
  | succ k ih =>
    rw [Nat.succ_mul]
    exact ih.trans h

/-- A file that includes itself, or does so by way of others, cannot be loaded. -/
theorem not_loadable_of_cycle {left n m : ℕ} {p : Str} (h : Nested u fs n path p)
    (hcycle : Nested u fs (m + 1) p p) : ¬ Loadable u fs left path := by
  intro hloadable
  have hlt := (hloadable _ p (h.trans (hcycle.repeat left))).1
  have hle : left ≤ left * (m + 1) := Nat.le_mul_of_pos_right left (Nat.succ_pos m)
  omega

end Files

/-! ### Loading -/

/-- **Loading a configuration from any file system.** It ends. It succeeds exactly if all files that can be
reached are sound and none of them is nested ten times, which is so of no file with a cycle behind it. -/
theorem load_with_includes_any (u : CharTable) (fs : FileSystem) (path : Str) :
    ∃ r : Except ConfigError AptConfig, loadWithIncludes u fs path = Run.lift r ∧
      ((∃ cfg, r = .ok cfg) ↔ Loadable u fs 10 path) ∧
      (∀ cfg, r = .ok cfg → ∃ ws, Gathered u fs path ws ∧
        ∀ key, cfg.values.find? key = valueOf (latestOf key ws)) ∧
      (∀ e, r = .error e → Blamed u fs 10 path e) ∧
      ∀ n m p, Nested u fs n path p → Nested u fs (m + 1) p p → ¬ ∃ cfg, r = .ok cfg := by
  obtain ⟨x, hrun, hok, hgathered, hblamed⟩ := @loadWithIncludesInner_spec u fs 10 path
  have hcfg : ∀ cfg, x.map (fun ws => ws.foldl Assignment.apply .new) = .ok cfg ↔
      ∃ ws, x = .ok ws ∧ ws.foldl Assignment.apply .new = cfg := fun cfg => Loop.map_eq_ok
  have hloads : (∃ cfg, x.map (fun ws => ws.foldl Assignment.apply .new) = .ok cfg) ↔ Loadable u fs 10 path := by
    rw [← hok]
    constructor
    · rintro ⟨cfg, h⟩
      obtain ⟨ws, hws, -⟩ := (hcfg cfg).1 h
      exact ⟨ws, hws⟩
    · rintro ⟨ws, hws⟩
      exact ⟨_, (hcfg _).2 ⟨ws, hws, rfl⟩⟩
  refine ⟨x.map fun ws : List Assignment => ws.foldl Assignment.apply .new, hrun .new, hloads, fun cfg h => ?_, fun e h => ?_,
    fun n m p hnested hcycle h => not_loadable_of_cycle hnested hcycle (hloads.1 h)⟩
  · obtain ⟨ws, hws, rfl⟩ := (hcfg cfg).1 h
    exact ⟨ws, hgathered ws hws, fun key => find?_assignments key ws⟩
  · cases x with
    | error e' =>
      cases h
      exact hblamed _ rfl
    | ok ws => cases h

/-! ### Directories -/

def load (u : CharTable) (fs : FileSystem) (path : Str) (cfg : AptConfig) : Run AptConfig := do
  let content ← fs.read path
  parseInto u content [] cfg

/-- `#include` is not followed. -/
def loadDir (u : CharTable) (fs : FileSystem) (dir : Str) : Run AptConfig := do
  let paths ← fs.files dir
  paths.foldlM (fun cfg path => load u fs path cfg) .new

section Directories

variable {u : CharTable} {fs : FileSystem} {dir : Str} {paths paths' : List Str}

theorem exec_load {path : Str} {x : Effect ConfigError Assignment (List IncludeDirective)} (hx : Content u fs path x)
    (cfg : AptConfig) : load u fs path cfg = exec Assignment.apply (x.map Prod.snd) cfg := by
  have hload : load u fs path cfg = (fs.read path >>= fun content => readBlock u [] (.new content) cfg >>=
      fun r => (pure (r.1.includes, r.2) : Run (List IncludeDirective × AptConfig))) >>=
        fun r => pure r.2 := by
    simp only [bind_assoc, pure_bind]
    rfl
  rw [hload, hx cfg]
  cases x <;> rfl

theorem sortedFiles_perm (h : paths.Perm paths') : sortedFiles fs paths = sortedFiles fs paths' := by
  have hsorted : ∀ paths, (sortedFiles fs paths).Pairwise (· ≤ ·) := by
    intro paths
    have hpairwise := @List.pairwise_mergeSort Str (fun a b => decide (a ≤ b))
      (fun a b c hab hbc => decide_eq_true ((of_decide_eq_true hab).trans (of_decide_eq_true hbc)))
      (fun a b => by simpa using le_total a b) (paths.filter fs.isFile)
    exact hpairwise.imp fun h => of_decide_eq_true h
  have hperm : (sortedFiles fs paths).Perm (sortedFiles fs paths') :=
    ((List.mergeSort_perm _ _).trans (h.filter _)).trans (List.mergeSort_perm _ _).symm
  exact hperm.eq_of_pairwise (fun a b _ _ => le_antisymm) (hsorted paths) (hsorted paths')

/-- **The configuration of a directory** does not depend on the order in which the entries are listed. It
can be loaded exactly if all files can be read; then the assignments are theirs, in the order of the paths. -/
theorem load_dir_spec (u : CharTable) (fs : FileSystem) (dir : Str) {paths : List Str}
    (hread : fs.readDir dir = .ok paths) :
    (∀ paths', paths.Perm paths' →
      loadDir u { fs with readDir := fun _ => .ok paths' } dir = loadDir u fs dir) ∧
    ((∃ cfg, loadDir u fs dir = pure cfg) ↔
      ∀ path ∈ paths, fs.isFile path = true → ∃ incs own, Content u fs path (.ok (incs, own))) ∧
    ∀ cfg, loadDir u fs dir = pure cfg →
      ∃ wss, List.Forall₂ (fun path own => ∃ incs, Content u fs path (.ok (incs, own))) (sortedFiles fs paths) wss ∧
        ∀ key, cfg.values.find? key = valueOf (latestOf key wss.flatten) := by
  have hdir : loadDir u fs dir = (sortedFiles fs paths).foldlM (fun cfg path => load u fs path cfg) .new := by
    rw [loadDir, FileSystem.files, FileSystem.listing, hread]
    rfl
  choose contents hcontents using fun path => @exists_content u fs path
  have hexec : loadDir u fs dir =
      exec Assignment.apply (all (fun path => (contents path).map Prod.snd) (sortedFiles fs paths)) .new := by
    rw [hdir]
    exact exec_foldlM (sortedFiles fs paths) (fun path _ cfg => exec_load (hcontents path) cfg) .new
  have hok : ∀ cfg, loadDir u fs dir = pure cfg ↔
      ∃ ws, all (fun path => (contents path).map Prod.snd) (sortedFiles fs paths) = .ok ws ∧
        ws.foldl Assignment.apply .new = cfg := by
    intro cfg
    rw [hexec, ← Loop.map_eq_ok]
    exact Run.lift_eq_pure
  have hmem : ∀ path, path ∈ sortedFiles fs paths ↔ path ∈ paths ∧ fs.isFile path = true := by
    intro path
    rw [sortedFiles, List.mem_mergeSort, List.mem_filter]
  have hfile : ∀ {path ws}, (contents path).map Prod.snd = .ok ws → ∃ incs, Content u fs path (.ok (incs, ws)) := by
    intro path ws h
    obtain ⟨⟨incs, own⟩, hpath, rfl⟩ := Loop.map_eq_ok.1 h
    exact ⟨incs, hpath ▸ hcontents path⟩
  refine ⟨fun paths' hperm => ?_, ?_, fun cfg h => ?_⟩
  · have hdir' : loadDir u { fs with readDir := fun _ => .ok paths' } dir =
        (sortedFiles fs paths').foldlM (fun cfg path => load u fs path cfg) .new := rfl
    rw [hdir', hdir, sortedFiles_perm hperm]
  · have hloads : (∃ cfg, loadDir u fs dir = pure cfg) ↔
        ∃ ws, all (fun path => (contents path).map Prod.snd) (sortedFiles fs paths) = .ok ws := by
      simp only [hok]
      constructor
      · rintro ⟨_, ws, h, -⟩
        exact ⟨ws, h⟩
      · rintro ⟨ws, h⟩
        exact ⟨_, ws, h, rfl⟩
    rw [hloads, exists_all_ok]
    constructor
    · intro h path hpath hisFile
      obtain ⟨ws, hws⟩ := h path ((hmem path).2 ⟨hpath, hisFile⟩)
      obtain ⟨incs, hincs⟩ := hfile hws
      exact ⟨incs, ws, hincs⟩
    · intro h path hpath
      obtain ⟨hpath, hisFile⟩ := (hmem path).1 hpath
      obtain ⟨incs, own, hincs⟩ := h path hpath hisFile
      cases hcontent : contents path with
      | error e => cases (hcontent ▸ hcontents path).unique hincs
      | ok r => exact ⟨r.2, rfl⟩
  · obtain ⟨ws, hws, rfl⟩ := (hok cfg).1 h
    obtain ⟨wss, hwss, rfl⟩ := all_eq_ok.1 hws
    exact ⟨wss, hwss.imp fun _ _ => hfile, fun key => find?_assignments key _⟩

end Directories

def twoFiles : FileSystem where
  readToString _ := .ok "A \"1\";".toList
  pathExists _ := true
  isDir path := path = "/etc/apt/apt.conf.d".toList
  isFile _ := true
  readDir _ := .ok ["/etc/apt/apt.conf.d/b".toList, "/etc/apt/apt.conf.d/a".toList]

theorem load_dir_spec_two : (∃ cfg, loadDir .asciiOnly twoFiles "/etc/apt/apt.conf.d".toList = pure cfg) ↔
    ∀ path ∈ ["/etc/apt/apt.conf.d/b".toList, "/etc/apt/apt.conf.d/a".toList], twoFiles.isFile path = true →
      ∃ incs own, Content .asciiOnly twoFiles path (.ok (incs, own)) :=
  (load_dir_spec .asciiOnly twoFiles "/etc/apt/apt.conf.d".toList rfl).2.1

end Conf
end DebToolkit
