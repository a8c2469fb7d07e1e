import Mathlib.Logic.Function.Basic
import DebToolkit.Text

/-!
# Resolving paths through symbolic links

A place is named by the path from it up to the root; a file system says what stands at each place. A
path argument is resolved as the kernel does it: link by link, at most `maxSymlinks` of them, a link at
the end being followed or not.

* `confined`: no name that is missing on the way of a path, and no file at its end, lies outside;
* `admits_of_confined`: what a confined path leads to lies inside, and `confined_of_resolve`: a path that
  leads inside, through directories made inside, was confined;
* `confined_grows`: making directories keeps a path confined.
-/

namespace Filesystem

open Text

/-! ### Paths -/

/-- A place: the names from it up to the root. -/
abbrev Path := List Str

inductive Comp
  | curDir
  | parentDir
  | normal (name : Str)
  deriving DecidableEq, Repr

def Comp.ofSegment (s : Str) : Option Comp :=
  if s = [] ∨ s = ['.'] then none else if s = ['.', '.'] then some .parentDir else some (.normal s)

/-- A path argument. `dot`: its text ends with `/` or with `.`, hence names a directory. -/
structure PathBuf where
  absolute : Bool
  comps : List Comp
  dot : Bool
  deriving DecidableEq, Repr

namespace PathBuf

def ofStr (s : Str) : PathBuf where
  absolute := s.head? = some '/'
  comps := (s.splitOn '/').filterMap Comp.ofSegment
  dot := (s.splitOn '/').getLast?.bind Comp.ofSegment = none

/-- An absolute argument replaces the base. -/
def join (base p : PathBuf) : PathBuf :=
  if p.absolute then p else ⟨base.absolute, base.comps ++ p.comps, p.dot⟩

def parent (p : PathBuf) : Option PathBuf :=
  if p.comps = [] then none else some ⟨p.absolute, p.comps.dropLast, false⟩

def start (p : PathBuf) (cwd : Path) : Path := if p.absolute then [] else cwd

/-- The components that the kernel goes through. -/
def walk (p : PathBuf) : List Comp := p.comps ++ if p.dot then [.curDir] else []

end PathBuf

/-! ### Resolution -/

inductive Node
  | dir
  | file (mode : ℕ) (content : List UInt8)
  | symlink (target : Str)
  deriving DecidableEq, Repr

abbrev Fs := Path → Option Node

inductive Errno
  | notFound
  | alreadyExists
  | notADirectory
  | isADirectory
  | filesystemLoop
  deriving DecidableEq, Repr

def maxSymlinks : ℕ := 40

/-- One stretch of a resolution; `next` goes on behind a symbolic link. -/
def resolveWith (fs : Fs) (follow : Bool) (next : Path → List Comp → Except Errno Path) :
    Path → List Comp → Except Errno Path
  | cur, [] => if fs cur = some .dir then .ok cur else .error .notFound
  | cur, .curDir :: cs => resolveWith fs follow next cur cs
  | cur, .parentDir :: cs => resolveWith fs follow next cur.tail cs
  | cur, .normal a :: cs =>
    match fs (a :: cur) with
    | none => if cs = [] then .ok (a :: cur) else .error .notFound
    | some .dir => resolveWith fs follow next (a :: cur) cs
    | some (.file _ _) => if cs = [] then .ok (a :: cur) else .error .notADirectory
    | some (.symlink target) =>
      if cs = [] ∧ ¬ follow then .ok (a :: cur)
      else next ((PathBuf.ofStr target).start cur) ((PathBuf.ofStr target).walk ++ cs)

/-- The place that the components lead to from `cur`; the last name may be missing. -/
def resolve (fs : Fs) (follow : Bool) : ℕ → Path → List Comp → Except Errno Path
  | 0 => resolveWith fs follow fun _ _ => .error .filesystemLoop
  | n + 1 => resolveWith fs follow (resolve fs follow n)

def lookup (fs : Fs) (follow : Bool) (cwd : Path) (p : PathBuf) : Except Errno Path :=
  resolve fs follow maxSymlinks (p.start cwd) p.walk

/-- Induction along a resolution: over the components, and over the links still to be followed. -/
theorem walk_induction {motive : ℕ → Path → List Comp → Prop} (nil : ∀ n cur, motive n cur [])
    (curDir : ∀ n cur cs, motive n cur cs → motive n cur (.curDir :: cs))
    (parentDir : ∀ n cur cs, motive n cur.tail cs → motive n cur (.parentDir :: cs))
    (normal : ∀ n cur a cs, motive n (a :: cur) cs → (∀ m, n = m + 1 → ∀ cur' cs', motive m cur' cs') →
      motive n cur (.normal a :: cs)) (n : ℕ) (cur : Path) (cs : List Comp) : motive n cur cs := by
  induction n generalizing cur cs with
  | zero =>
    induction cs generalizing cur with
    | nil => exact nil 0 cur
    | cons c cs ih =>
      cases c with
      | curDir => exact curDir 0 cur cs (ih cur)
      | parentDir => exact parentDir 0 cur cs (ih cur.tail)
      | normal a => exact normal 0 cur a cs (ih (a :: cur)) fun m hm => by cases hm
  | succ n ihn =>
    induction cs generalizing cur with
    | nil => exact nil (n + 1) cur
    | cons c cs ih =>
      cases c with
      | curDir => exact curDir (n + 1) cur cs (ih cur)
      | parentDir => exact parentDir (n + 1) cur cs (ih cur.tail)
      | normal a => exact normal (n + 1) cur a cs (ih (a :: cur)) fun m hm => by cases hm; exact ihn

section Resolve

variable {fs fs' : Fs} {follow : Bool} {n : ℕ} {cur q : Path} {cs : List Comp} {a : Str}

theorem resolve_nil : resolve fs follow n cur [] =
    if fs cur = some .dir then .ok cur else .error .notFound := by
  cases n <;> rfl

theorem resolve_curDir : resolve fs follow n cur (.curDir :: cs) = resolve fs follow n cur cs := by
  cases n <;> rfl

theorem resolve_parentDir :
    resolve fs follow n cur (.parentDir :: cs) = resolve fs follow n cur.tail cs := by
  cases n <;> rfl

theorem resolve_missing (h : fs (a :: cur) = none) : resolve fs follow n cur (.normal a :: cs) =
    if cs = [] then .ok (a :: cur) else .error .notFound := by
  cases n <;> simp [resolve, resolveWith, h]

theorem resolve_dir (h : fs (a :: cur) = some .dir) :
    resolve fs follow n cur (.normal a :: cs) = resolve fs follow n (a :: cur) cs := by
  cases n <;> simp [resolve, resolveWith, h]

theorem resolve_file {mode : ℕ} {content : List UInt8} (h : fs (a :: cur) = some (.file mode content)) :
    resolve fs follow n cur (.normal a :: cs) =
      if cs = [] then .ok (a :: cur) else .error .notADirectory := by
  cases n <;> simp [resolve, resolveWith, h]

/-- A link at the end that is not followed. -/
theorem resolve_last {target : Str} (h : fs (a :: cur) = some (.symlink target)) :
    resolve fs false n cur [.normal a] = .ok (a :: cur) := by
  cases n <;> simp [resolve, resolveWith, h]

theorem resolve_loop {target : Str} (h : fs (a :: cur) = some (.symlink target))
    (hcs : ¬ (cs = [] ∧ ¬ follow)) : resolve fs follow 0 cur (.normal a :: cs) = .error .filesystemLoop := by
  simp only [resolve, resolveWith, h]
  rw [if_neg hcs]

theorem resolve_symlink {target : Str} (h : fs (a :: cur) = some (.symlink target))
    (hcs : ¬ (cs = [] ∧ ¬ follow)) : resolve fs follow (n + 1) cur (.normal a :: cs) =
      resolve fs follow n ((PathBuf.ofStr target).start cur) ((PathBuf.ofStr target).walk ++ cs) := by
  rw [resolve, resolveWith]
  simp only [h]
  rw [if_neg hcs]

/-- A name at which two file systems agree leads to the same place, if what follows it does. -/
theorem resolve_same (hsame : fs' (a :: cur) = fs (a :: cur))
    (ih : resolve fs follow n (a :: cur) cs = .ok q → resolve fs' follow n (a :: cur) cs = .ok q)
    (ihn : ∀ m, n = m + 1 → ∀ cur' cs', resolve fs follow m cur' cs' = .ok q →
      resolve fs' follow m cur' cs' = .ok q)
    (hq : resolve fs follow n cur (.normal a :: cs) = .ok q) :
    resolve fs' follow n cur (.normal a :: cs) = .ok q := by
  rcases hfs : fs (a :: cur) with _ | _ | ⟨mode, content⟩ | ⟨target⟩ <;> rw [hfs] at hsame
  · rwa [resolve_missing hfs, ← resolve_missing hsame] at hq
  · rw [resolve_dir hfs] at hq
    rw [resolve_dir hsame]
    exact ih hq
  · rwa [resolve_file hfs, ← resolve_file hsame] at hq
  · by_cases hcs : cs = [] ∧ ¬ follow
    · obtain ⟨rfl, hfollow⟩ := hcs
      obtain rfl : follow = false := by simpa using hfollow
      rwa [resolve_last hfs, ← resolve_last hsame] at hq
    · cases n with
      | zero => rw [resolve_loop hfs hcs] at hq; cases hq
      | succ n =>
        rw [resolve_symlink hfs hcs] at hq
        rw [resolve_symlink hsame hcs]
        exact ihn n rfl _ _ hq

end Resolve

/-! ### Confined paths -/

section Confined

variable (fs : Fs) (inside atEnd : Path → Prop) [DecidablePred inside] [DecidablePred atEnd]
  (follow : Bool)

/-- One stretch of `confined`. -/
def confinedWith (next : Path → List Comp → Bool) : Path → List Comp → Bool
  | _, [] => true
  | cur, .curDir :: cs => confinedWith next cur cs
  | cur, .parentDir :: cs => confinedWith next cur.tail cs
  | cur, .normal a :: cs =>
    match fs (a :: cur) with
    | none => inside (a :: cur) && confinedWith next (a :: cur) cs
    | some .dir => confinedWith next (a :: cur) cs
    | some (.file _ _) => cs ≠ [] || atEnd (a :: cur)
    | some (.symlink target) =>
      if cs = [] ∧ ¬ follow then atEnd (a :: cur)
      else next ((PathBuf.ofStr target).start cur) ((PathBuf.ofStr target).walk ++ cs)

/-- The names that are missing on the way, which are taken for directories, lie `inside`, and the file
or the link at the end lies in `atEnd`. -/
def confined : ℕ → Path → List Comp → Bool
  | 0 => confinedWith fs inside atEnd follow fun _ _ => true
  | n + 1 => confinedWith fs inside atEnd follow (confined n)

end Confined

section

variable {fs fs' : Fs} {inside atEnd : Path → Prop} [DecidablePred inside] [DecidablePred atEnd]
  {follow : Bool} {n : ℕ} {cur q : Path} {cs : List Comp} {a : Str}

theorem confined_nil : confined fs inside atEnd follow n cur [] = true := by
  cases n <;> rfl

theorem confined_curDir : confined fs inside atEnd follow n cur (.curDir :: cs) =
    confined fs inside atEnd follow n cur cs := by
  cases n <;> rfl

theorem confined_parentDir : confined fs inside atEnd follow n cur (.parentDir :: cs) =
    confined fs inside atEnd follow n cur.tail cs := by
  cases n <;> rfl

theorem confined_missing (h : fs (a :: cur) = none) :
    confined fs inside atEnd follow n cur (.normal a :: cs) =
      (inside (a :: cur) && confined fs inside atEnd follow n (a :: cur) cs) := by
  cases n <;> simp [confined, confinedWith, h]

theorem confined_dir (h : fs (a :: cur) = some .dir) :
    confined fs inside atEnd follow n cur (.normal a :: cs) =
      confined fs inside atEnd follow n (a :: cur) cs := by
  cases n <;> simp [confined, confinedWith, h]

theorem confined_file {mode : ℕ} {content : List UInt8} (h : fs (a :: cur) = some (.file mode content)) :
    confined fs inside atEnd follow n cur (.normal a :: cs) = (cs ≠ [] || atEnd (a :: cur)) := by
  cases n <;> simp [confined, confinedWith, h]

theorem confined_last {target : Str} (h : fs (a :: cur) = some (.symlink target)) :
    confined fs inside atEnd false n cur [.normal a] = decide (atEnd (a :: cur)) := by
  cases n <;> simp [confined, confinedWith, h]

theorem confined_loop {target : Str} (h : fs (a :: cur) = some (.symlink target))
    (hcs : ¬ (cs = [] ∧ ¬ follow)) : confined fs inside atEnd follow 0 cur (.normal a :: cs) = true := by
  simp only [confined, confinedWith, h]
  rw [if_neg hcs]

theorem confined_symlink {target : Str} (h : fs (a :: cur) = some (.symlink target))
    (hcs : ¬ (cs = [] ∧ ¬ follow)) : confined fs inside atEnd follow (n + 1) cur (.normal a :: cs) =
      confined fs inside atEnd follow n ((PathBuf.ofStr target).start cur)
        ((PathBuf.ofStr target).walk ++ cs) := by
  rw [confined, confinedWith]
  simp only [h]
  rw [if_neg hcs]

/-- What may stand at the place that a path leads to. -/
def Admits (fs : Fs) (inside atEnd : Path → Prop) (follow : Bool) (q : Path) : Prop :=
  (fs q = none → inside q) ∧ (∀ mode content, fs q = some (.file mode content) → atEnd q) ∧
    ∀ target, fs q = some (.symlink target) → follow = false → atEnd q

/-- What a confined path leads to lies inside. -/
theorem admits_of_confined (h : confined fs inside atEnd follow n cur cs = true)
    (hq : resolve fs follow n cur cs = .ok q) : Admits fs inside atEnd follow q := by
  induction n, cur, cs using walk_induction with
  | nil n cur =>
    rw [resolve_nil] at hq
    split_ifs at hq with hdir
    cases hq
    simp [Admits, hdir]
  | curDir n cur cs ih => exact ih (by rwa [confined_curDir] at h) (by rwa [resolve_curDir] at hq)
  | parentDir n cur cs ih =>
    exact ih (by rwa [confined_parentDir] at h) (by rwa [resolve_parentDir] at hq)
  | normal n cur a cs ih ihn =>
    rcases hfs : fs (a :: cur) with _ | _ | ⟨mode, content⟩ | ⟨target⟩
    · rw [confined_missing hfs, Bool.and_eq_true, decide_eq_true_eq] at h
      rw [resolve_missing hfs] at hq
      split_ifs at hq with hcs
      cases hq
      simp [Admits, hfs, h.1]
    · rw [confined_dir hfs] at h
      rw [resolve_dir hfs] at hq
      exact ih h hq
    · rw [confined_file hfs] at h
      rw [resolve_file hfs] at hq
      split_ifs at hq with hcs
      cases hq
      simpa [Admits, hfs, hcs] using h
    · by_cases hcs : cs = [] ∧ ¬ follow
      · -- the link itself
        obtain ⟨rfl, hfollow⟩ := hcs
        obtain rfl : follow = false := by simpa using hfollow
        rw [confined_last hfs, decide_eq_true_eq] at h
        rw [resolve_last hfs] at hq
        cases hq
        simp [Admits, hfs, h]
      · cases n with
        | zero => rw [resolve_loop hfs hcs] at hq; cases hq
        | succ n =>
          rw [confined_symlink hfs hcs] at h
          rw [resolve_symlink hfs hcs] at hq
          exact ihn n rfl _ _ h hq

/-- `fs'` has more directories than `fs`, and files in `atEnd`. -/
def Grows (atEnd : Path → Prop) (fs fs' : Fs) : Prop :=
  ∀ q, fs' q = fs q ∨ (fs q = none ∧ fs' q = some .dir) ∨
    atEnd q ∧ ∃ mode content, fs' q = some (.file mode content)

/-- A path stays confined while directories are made and files are written. -/
theorem confined_grows (hgrows : Grows atEnd fs fs')
    (h : confined fs inside atEnd follow n cur cs = true) :
    confined fs' inside atEnd follow n cur cs = true := by
  induction n, cur, cs using walk_induction with
  | nil n cur => exact confined_nil
  | curDir n cur cs ih =>
    rw [confined_curDir] at h ⊢
    exact ih h
  | parentDir n cur cs ih =>
    rw [confined_parentDir] at h ⊢
    exact ih h
  | normal n cur a cs ih ihn =>
    -- only what was missing has changed, and what was at an end
    rcases hgrows (a :: cur) with hsame | ⟨hnone, hdir⟩ | ⟨hatEnd, mode, content, hfile⟩
    · rcases hfs : fs (a :: cur) with _ | _ | ⟨mode, content⟩ | ⟨target⟩ <;> rw [hfs] at hsame
      · rw [confined_missing hfs, Bool.and_eq_true] at h
        rw [confined_missing hsame, Bool.and_eq_true]
        exact ⟨h.1, ih h.2⟩
      · rw [confined_dir hfs] at h
        rw [confined_dir hsame]
        exact ih h
      · rw [confined_file hfs] at h
        rwa [confined_file hsame]
      · by_cases hcs : cs = [] ∧ ¬ follow
        · obtain ⟨rfl, hfollow⟩ := hcs
          obtain rfl : follow = false := by simpa using hfollow
          rw [confined_last hfs] at h
          rwa [confined_last hsame]
        · cases n with
          | zero => exact confined_loop hsame hcs
          | succ n =>
            rw [confined_symlink hfs hcs] at h
            rw [confined_symlink hsame hcs]
            exact ihn n rfl _ _ h
    · rw [confined_missing hnone, Bool.and_eq_true] at h
      rw [confined_dir hdir]
      exact ih h.2
    · rw [confined_file hfile]
      simp [hatEnd]

/-- The way to a confined path is confined, whatever stands at its end. -/
theorem confined_initial {cs' : List Comp}
    (h : confined fs inside atEnd follow n cur (cs ++ cs') = true) :
    confined fs inside (fun _ => True) false n cur cs = true := by
  induction n, cur, cs using walk_induction with
  | nil n cur => exact confined_nil
  | curDir n cur cs ih =>
    rw [List.cons_append, confined_curDir] at h
    rw [confined_curDir]
    exact ih h
  | parentDir n cur cs ih =>
    rw [List.cons_append, confined_parentDir] at h
    rw [confined_parentDir]
    exact ih h
  | normal n cur a cs ih ihn =>
    rw [List.cons_append] at h
    rcases hfs : fs (a :: cur) with _ | _ | ⟨mode, content⟩ | ⟨target⟩
    · rw [confined_missing hfs, Bool.and_eq_true] at h ⊢
      exact ⟨h.1, ih h.2⟩
    · rw [confined_dir hfs] at h ⊢
      exact ih h
    · rw [confined_file hfs]
      simp
    · -- the last link of the beginning is not followed
      by_cases hcs : cs = []
      · subst hcs
        rw [confined_last hfs]
        simp
      · have hcs' : ¬ (cs = [] ∧ ¬ (false : Bool)) := fun h => hcs h.1
        have hall : ¬ (cs ++ cs' = [] ∧ ¬ follow) := fun h => hcs (List.append_eq_nil_iff.1 h.1).1
        cases n with
        | zero => exact confined_loop hfs hcs'
        | succ n =>
          rw [confined_symlink hfs hall, ← List.append_assoc] at h
          rw [confined_symlink hfs hcs']
          exact ihn n rfl _ _ h

/-- A path that leads somewhere was confined before directories `inside` were made for it. -/
theorem confined_of_resolve
    (hgrows : ∀ q, fs' q = fs q ∨ fs q = none ∧ fs' q = some .dir ∧ inside q)
    (hq : resolve fs' follow n cur cs = .ok q) (hadmits : Admits fs' inside atEnd follow q) :
    confined fs inside atEnd follow n cur cs = true := by
  induction n, cur, cs using walk_induction with
  | nil n cur => exact confined_nil
  | curDir n cur cs ih =>
    rw [confined_curDir]
    exact ih (by rwa [resolve_curDir] at hq)
  | parentDir n cur cs ih =>
    rw [confined_parentDir]
    exact ih (by rwa [resolve_parentDir] at hq)
  | normal n cur a cs ih ihn =>
    -- a directory that was made lies inside, so that the missing name was allowed to be made
    rcases hgrows (a :: cur) with hsame | ⟨hnone, hdir, hinside⟩
    · rcases hfs : fs (a :: cur) with _ | _ | ⟨mode, content⟩ | ⟨target⟩ <;> rw [hfs] at hsame
      · rw [resolve_missing hsame] at hq
        split_ifs at hq with hcs
        cases hq
        rw [confined_missing hfs, hcs, confined_nil]
        simpa using hadmits.1 hsame
      · rw [resolve_dir hsame] at hq
        rw [confined_dir hfs]
        exact ih hq
      · rw [resolve_file hsame] at hq
        split_ifs at hq with hcs
        cases hq
        rw [confined_file hfs]
        simp [hadmits.2.1 _ _ hsame]
      · by_cases hcs : cs = [] ∧ ¬ follow
        · obtain ⟨rfl, hfollow⟩ := hcs
          obtain rfl : follow = false := by simpa using hfollow
          rw [resolve_last hsame] at hq
          cases hq
          rw [confined_last hfs]
          simpa using hadmits.2.2 _ hsame rfl
        · cases n with
          | zero => exact confined_loop hfs hcs
          | succ n =>
            rw [resolve_symlink hsame hcs] at hq
            rw [confined_symlink hfs hcs]
            exact ihn n rfl _ _ hq
    · rw [resolve_dir hdir] at hq
      rw [confined_missing hnone, Bool.and_eq_true]
      exact ⟨by simpa using hinside, ih hq⟩

/-- Taking something away leads a path nowhere else. -/
theorem resolve_of_removed (hsub : ∀ q, fs' q = fs q ∨ fs' q = none)
    (hq : resolve fs' false n cur cs = .ok q) : resolve fs false n cur cs = .ok q := by
  induction n, cur, cs using walk_induction with
  | nil n cur =>
    rw [resolve_nil] at hq ⊢
    rcases hsub cur with hsame | hnone
    · rwa [hsame] at hq
    · rw [hnone] at hq; cases hq
  | curDir n cur cs ih =>
    rw [resolve_curDir] at hq ⊢
    exact ih hq
  | parentDir n cur cs ih =>
    rw [resolve_parentDir] at hq ⊢
    exact ih hq
  | normal n cur a cs ih ihn =>
    rcases hsub (a :: cur) with hsame | hnone
    · exact resolve_same hsame.symm ih ihn hq
    · -- what was taken away is the end of the path
      rw [resolve_missing hnone] at hq
      split_ifs at hq with hcs
      cases hq
      subst hcs
      rcases hfs : fs (a :: cur) with _ | _ | ⟨mode, content⟩ | ⟨target⟩
      · rw [resolve_missing hfs, if_pos rfl]
      · rw [resolve_dir hfs, resolve_nil, if_pos hfs]
      · rw [resolve_file hfs, if_pos rfl]
      · rw [resolve_last hfs]

/-- A path leads to the file that has been written at its end. -/
theorem resolve_written (hq : resolve fs follow n cur cs = .ok q)
    (hend : fs q = none ∨ ∃ mode content, fs q = some (.file mode content)) {mode : ℕ}
    {content : List UInt8} :
    resolve (Function.update fs q (some (.file mode content))) follow n cur cs = .ok q := by
  have hself : Function.update fs q (some (Node.file mode content)) q = some (.file mode content) :=
    Function.update_self ..
  induction n, cur, cs using walk_induction with
  | nil n cur =>
    rw [resolve_nil] at hq
    split_ifs at hq with hdir
    cases hq
    rw [hdir] at hend
    simp at hend
  | curDir n cur cs ih =>
    rw [resolve_curDir] at hq ⊢
    exact ih hq
  | parentDir n cur cs ih =>
    rw [resolve_parentDir] at hq ⊢
    exact ih hq
  | normal n cur a cs ih ihn =>
    by_cases ha : a :: cur = q
    · subst ha
      have hcs : cs = [] := by
        rcases hend with hnone | ⟨mode', content', hfile⟩
        · rw [resolve_missing hnone] at hq
          split_ifs at hq with hcs
          exact hcs
        · rw [resolve_file hfile] at hq
          split_ifs at hq with hcs
          exact hcs
      rw [resolve_file hself, if_pos hcs]
    · have hsame : Function.update fs q (some (Node.file mode content)) (a :: cur) = fs (a :: cur) :=
        Function.update_of_ne ha ..
      exact resolve_same hsame ih ihn hq

end

end Filesystem
