import Mathlib.Data.List.Sort
import DebToolkit.Resolver.Encode
import DebToolkit.Solver.Portfolio

/-!
# The resolver

`resolve_with_installed`, phase by phase: pinning of the newest versions, the portfolio, keeping of
installed packages, recommendations, minimisation, and the plan.

* `Env` is what a run may depend on besides its arguments: the order of a hash map, the number of
  threads and the choice of `find_any`;
* each phase makes its solver calls through `run`, a fresh solver for the clauses of the working
  universe, searched with assumptions;
* the result is `none` if a solver call panics or a bound on a loop is used up; neither happens
  (`resolveWithInstalled_total`).
-/

namespace DebToolkit

open Solver (FindAny)

/-! ### Results -/

structure InstallPlan where
  install : List (String × Version)
  remove : List (String × Version)
  recommended : List (String × Version)
  suggested : List (String × Version)
  deriving DecidableEq, Repr

inductive SolverError
  | noSolution (message : String)
  | parseError (message : String)
  | unknownPackage (name : String)
  deriving DecidableEq, Repr

structure Env where
  order : HashOrder
  findAny : FindAny
  threads : ℕ

namespace Resolver

variable {F : Type} [F64 F]

/-- A fresh solver for `clauses`, searched with assumptions. -/
def attempt (n : ℕ) (clauses : List Clause) (assumptions : List Literal) :
    Option (Bool × Solver F) :=
  (Solver.new n clauses).solveWithAssumptions assumptions

omit [F64 F] in
/-- `(0..n).filter(|&i| solver.assignment[i] == Some(true))`. -/
def trueVars (n : ℕ) (s : Solver F) : List ℕ :=
  (List.range n).filter fun i => s.assignment i = some true

section Phases

omit [F64 F]

variable (run : List Literal → Option (Bool × Solver F)) (work : Universe) (n : ℕ)

/-! ### Pinning -/

/-- The candidates for a requested name, highest version first. -/
def candidates (name : String) : List ℕ :=
  (work.byName.get name).insertionSort fun a b =>
    (work.package b).version.cmp (work.package a).version ≠ .gt

/-- The loop over the candidates of one name, left at the first that can be satisfied. -/
def pinCandidates (pinned : List ℕ) : List ℕ → Option (Option (ℕ × Solver F))
  | [] => some none
  | c :: cands =>
    match run (pinned.map .pos ++ [.pos c]) with
    | none => none
    | some (true, s) => some (some (c, s))
    | some (false, _) => pinCandidates pinned cands

/-- The pass of the pinning loop for one requested name. -/
def pinRequest (st : List ℕ × Solver F) (name : String) : Option (List ℕ × Solver F) :=
  match pinCandidates run st.1 (candidates work name) with
  | none => none
  | some none => some st
  | some (some (c, s)) => some (st.1 ++ [c], s)

/-! ### Keeping installed packages -/

/-- The pass of the keep loop for the installed candidate `k`. -/
def keepCandidate (st : List ℕ × Solver F) (k : ℕ) : Option (List ℕ × Solver F) :=
  if k ∈ st.1 then some st
  else
    match run (st.1.map .pos ++ [.pos k]) with
    | none => none
    | some (true, s) => some (trueVars n s, s)
    | some (false, _) => some st

/-! ### Recommendations -/

abbrev Recommended (F : Type) := Solver F × List (String × Version)

/-- The two inner loops over the recommendations of the selected packages, left when one has been
pulled in. -/
def recommendGroups (solver : Solver F) (current : List ℕ) :
    List DependencyGroup → List (String × Version) →
      Option (Loop.Flow (Recommended F) (Recommended F))
  | [], recommended => some (.exit (solver, recommended))
  | group :: groups, recommended =>
    match work.bestSatisfying group with
    | none => recommendGroups solver current groups recommended
    | some j =>
      if solver.assignment j = some true then
        recommendGroups solver current groups (recommended ++ [work.pair j])
      else
        match run (current.map .pos ++ [.pos j]) with
        | none => none
        | some (true, s) => some (.next (s, recommended ++ [work.pair j]))
        | some (false, _) => recommendGroups solver current groups recommended

/-- One pass of the `loop`. -/
def recommendPass (st : Recommended F) : Option (Loop.Flow (Recommended F) (Recommended F)) :=
  let current := trueVars n st.1
  recommendGroups run work st.1 current (current.flatMap fun i => (work.package i).recommends) st.2

/-- Every pass but the last selects one more package. -/
def pullRecommended (solver : Solver F) : Option (Recommended F) :=
  Loop.iterate (recommendPass run work n) (n + 1) (solver, [])

/-! ### Minimisation -/

def isEssential (requests : List String) (installedVars : List ℕ)
    (recommended : List (String × Version)) (i : ℕ) : Bool :=
  decide ((work.package i).name ∈ requests) || decide (i ∈ installedVars) ||
    decide (work.pair i ∈ recommended)

/-- The pass of the minimisation loop for the selected package `v`. -/
def dropCandidate (essential : ℕ → Bool) (st : List ℕ × Solver F) (v : ℕ) :
    Option (List ℕ × Solver F) :=
  if essential v then some st
  else
    match run ((st.1.filter (· ≠ v)).map .pos ++ [.neg v]) with
    | none => none
    | some (true, s) => some (trueVars n s, s)
    | some (false, _) => some st

end Phases

/-! ### The whole -/

def knownPackage (u : Universe) (name : String) : Bool :=
  decide (0 < (u.packagesNamed name).length) || decide (0 < (u.providersOf name).length)

/-- The plan for a selection. -/
def planOf (work : Universe) (installed : List (String × Version)) (model : List ℕ)
    (assignment : ℕ → Option Bool) : InstallPlan :=
  let selected := model.map work.pair
  let (recommended, suggested) := work.computeAdvisories assignment
  { install := selected.filter (· ∉ installed)
    remove := installed.filter (· ∉ selected)
    recommended := recommended
    suggested := suggested }

section Stages

variable (F) (env : Env) (work : Universe) (requests : List String)

/-- The solver calls of the phases. -/
def attempts (assumptions : List Literal) : Option (Bool × Solver F) :=
  attempt work.packages.length (work.encodeClauses env.order requests) assumptions

/-- The pinning phase. -/
def pin : Option (List ℕ × Solver F) :=
  requests.foldlM (pinRequest (attempts F env work requests) work)
    ([], Solver.new work.packages.length (work.encodeClauses env.order requests))

variable {F}

/-- The keep phase. -/
def keep (installedVars : List ℕ) (solver : Solver F) : Option (List ℕ × Solver F) :=
  installedVars.foldlM (keepCandidate (attempts F env work requests) work.packages.length)
    (trueVars work.packages.length solver, solver)

/-- The minimisation phase. -/
def minimise (installedVars : List ℕ) (st : Recommended F) : Option (List ℕ × Solver F) :=
  (trueVars work.packages.length st.1).foldlM
    (dropCandidate (attempts F env work requests) work.packages.length
      (isEssential work requests installedVars st.2))
    (trueVars work.packages.length st.1, st.1)

/-- The phases after the portfolio: the final model and the solver that holds it. -/
def improve (installedVars : List ℕ) (solver : Solver F) : Option (List ℕ × Solver F) :=
  match keep env work requests installedVars solver with
  | none => none
  | some (_, solver) =>
    match pullRecommended (attempts F env work requests) work work.packages.length solver with
    | none => none
    | some st => minimise env work requests installedVars st

end Stages

variable (F)

def resolveWithInstalled (env : Env) (u : Universe) (requests : List String)
    (installed : List (String × Version)) : Option (Except SolverError InstallPlan) :=
  match requests.find? fun name => !knownPackage u name with
  | some name => some (.error (.unknownPackage name))
  | none =>
    let (work, installedVars) := u.withInstalled installed
    if work.packages.length = 0 then some (.ok ⟨[], [], [], []⟩)
    else
      match pin F env work requests with
      | none => none
      | some (_, solver) =>
        match solver.solveParallel env.findAny env.threads with
        | none => none
        | some (false, _) =>
          some (.error (.noSolution
            "no consistent package selection satisfies all constraints"))
        | some (true, solver) =>
          match improve env work requests installedVars solver with
          | none => none
          | some (model, solver) => some (.ok (planOf work installed model solver.assignment))

def resolve (env : Env) (u : Universe) (requests : List String) :
    Option (Except SolverError InstallPlan) :=
  resolveWithInstalled F env u requests []

end Resolver

end DebToolkit
