import Mathlib.Logic.Function.Basic
import Mathlib.Data.BitVec
import Mathlib.Data.Rat.Defs
import DebToolkit.Loop

/-!
# The CDCL solver

The state of `Solver` and its functions, from `add_clause` to `search`, in the order of the source.

* A vector indexed by variables is a function on `ℕ`; every variable that a solver over `num_vars`
  variables touches is below `num_vars` (`Inv.clause_lt`, `TrailOK.trail_lt`).
* `trail` and `trail_lim` are stacks, newest entry first; `index -= 1` in `analyze` is a step down
  the stack, and `trail.len()` at the time of a decision is the length of what lies below it.
* The scores are `f64`; the class `F64` names the operations on them that the code uses, and no law
  of floating-point arithmetic is assumed.
* A function that can run past the end of a vector or below zero returns an `Option`, with `none`
  for the panic; so do the loops, whose numbers of passes are bounded (`Loop.iterate`).
  `search_total` shows that neither happens.

`search` takes the rule that chooses the next decision variable as a parameter; `pickVar` is the
one of the source.
-/

namespace DebToolkit

/-! ### Literals and clauses -/

structure Literal where
  var : ℕ
  negated : Bool
  deriving DecidableEq, Repr

namespace Literal

def pos (var : ℕ) : Literal := ⟨var, false⟩

def neg (var : ℕ) : Literal := ⟨var, true⟩

def negate (l : Literal) : Literal := ⟨l.var, !l.negated⟩

@[simp] theorem pos_var (v : ℕ) : (pos v).var = v := rfl
@[simp] theorem neg_var (v : ℕ) : (neg v).var = v := rfl
@[simp] theorem pos_negated (v : ℕ) : (pos v).negated = false := rfl
@[simp] theorem neg_negated (v : ℕ) : (neg v).negated = true := rfl
@[simp] theorem negate_var (l : Literal) : l.negate.var = l.var := rfl
@[simp] theorem negate_negated (l : Literal) : l.negate.negated = !l.negated := rfl
@[simp] theorem negate_negate (l : Literal) : l.negate.negate = l := by simp [negate]

end Literal

structure Clause where
  literals : List Literal
  deriving DecidableEq, Repr

/-! ### Scores -/

/-- The operations on `f64` that the activity scores use. -/
class F64 (F : Type) where
  zero : F
  one : F
  /-- `0.95` -/
  decay : F
  /-- `1e100` -/
  big : F
  /-- `1e-100` -/
  small : F
  add : F → F → F
  mul : F → F → F
  div : F → F → F
  gt : F → F → Bool
  eq : F → F → Bool

/-- Scores without rounding, for evaluating short runs. -/
instance : F64 ℚ where
  zero := 0
  one := 1
  decay := 95 / 100
  big := 10 ^ 100
  small := 1 / 10 ^ 100
  add := (· + ·)
  mul := (· * ·)
  div := (· / ·)
  gt a b := decide (b < a)
  eq a b := decide (a = b)

/-! ### The state -/

structure Solver (F : Type) where
  numVars : ℕ
  clauses : List Clause
  assignment : ℕ → Option Bool
  /-- Clause that forced a variable's assignment, `none` for decisions and assumptions. -/
  reason : ℕ → Option ℕ
  level : ℕ → ℕ
  /-- Literals currently true, newest first. -/
  trail : List Literal
  /-- Length of the trail at the start of each decision level, newest first. -/
  trailLim : List ℕ
  /-- `watch v` lists the clauses that mention `v`. -/
  watch : ℕ → List ℕ
  propQueue : List Literal
  activity : ℕ → F
  varInc : F
  varDecay : F
  seed : BitVec 64

namespace Solver

variable {F : Type}

/-- `self.clauses[ci].literals`. -/
def clauseLits (s : Solver F) (ci : ℕ) : List Literal := (s.clauses.getD ci ⟨[]⟩).literals

/-- One more entry `ci` in the watch list of each literal's variable. -/
def addWatches (ci : ℕ) (watch : ℕ → List ℕ) (lits : List Literal) : ℕ → List ℕ :=
  lits.foldl (fun w l => Function.update w l.var (w l.var ++ [ci])) watch

def addClause (s : Solver F) (lits : List Literal) : Solver F :=
  { s with
    clauses := s.clauses ++ [⟨lits⟩]
    watch := addWatches s.clauses.length s.watch lits }

/-- `Solver::new` before its clauses are added. -/
def empty [F64 F] (numVars : ℕ) : Solver F where
  numVars := numVars
  clauses := []
  assignment := fun _ => none
  reason := fun _ => none
  level := fun _ => 0
  trail := []
  trailLim := []
  watch := fun _ => []
  propQueue := []
  activity := fun _ => F64.zero
  varInc := F64.one
  varDecay := F64.decay
  seed := 0

def new [F64 F] (numVars : ℕ) (clauses : List Clause) : Solver F :=
  clauses.foldl (fun s c => s.addClause c.literals) (empty numVars)

def litValue (s : Solver F) (lit : Literal) : Option Bool :=
  (s.assignment lit.var).map (· != lit.negated)

/-- `some true` = satisfied, `some false` = falsified, `none` = pending. -/
def clauseStatus (s : Solver F) (ci : ℕ) : Option Bool :=
  if (s.clauseLits ci).any (fun l => s.litValue l = some true) then some true
  else if (s.clauseLits ci).all (fun l => s.litValue l = some false) then some false
  else none

def assign (s : Solver F) (lit : Literal) (reason : Option ℕ) : Solver F :=
  { s with
    assignment := Function.update s.assignment lit.var (some !lit.negated)
    reason := Function.update s.reason lit.var reason
    level := Function.update s.level lit.var s.trailLim.length
    trail := lit :: s.trail }

/-- `self.assign(lit, reason); self.prop_queue.push_back(lit)`. -/
def enqueue (s : Solver F) (lit : Literal) (reason : Option ℕ) : Solver F :=
  { s.assign lit reason with propQueue := s.propQueue ++ [lit] }

def newDecisionLevel (s : Solver F) : Solver F :=
  { s with trailLim := s.trail.length :: s.trailLim }

/-- The inner loop of `cancel_until`: pop the trail down to length `start`. -/
def popTrail (start : ℕ) : List Literal → Solver F → Solver F
  | [], s => s
  | lit :: rest, s =>
    if start < (lit :: rest).length then
      popTrail start rest
        { s with
          assignment := Function.update s.assignment lit.var none
          reason := Function.update s.reason lit.var none
          level := Function.update s.level lit.var 0
          trail := rest }
    else s

/-- The outer loop of `cancel_until`. -/
def popLevels (level : ℕ) : List ℕ → Solver F → Solver F
  | [], s => s
  | start :: lims, s =>
    if level < (start :: lims).length then
      popLevels level lims (popTrail start s.trail { s with trailLim := lims })
    else s

def cancelUntil (s : Solver F) (level : ℕ) : Solver F := popLevels level s.trailLim s

def allAssigned (s : Solver F) : Bool := (List.range s.numVars).all fun v => (s.assignment v).isSome

/-! ### Unit propagation -/

/-- What `propagate` does with one clause of the watch list of the literal whose negation is
`neg`: nothing, report it as the conflict, or assign its last literal. -/
def visitClause (neg : Literal) (ci : ℕ) (s : Solver F) : Option ℕ × Solver F :=
  if neg ∉ s.clauseLits ci then (none, s)
  else
    match s.clauseStatus ci with
    | some true => (none, s)
    | some false => (some ci, s)
    | none =>
      match (s.clauseLits ci).filter fun l => s.litValue l = none with
      | [u] => (none, s.enqueue u (some ci))
      | _ => (none, s)

/-- The `for` loop of `propagate` over a watch list, left at the first conflict. -/
def visitClauses (neg : Literal) : List ℕ → Solver F → Option ℕ × Solver F
  | [], s => (none, s)
  | ci :: ids, s =>
    match visitClause neg ci s with
    | (some confl, s') => (some confl, s')
    | (none, s') => visitClauses neg ids s'

/-- One pass of the `while` loop of `propagate`. -/
def propagateBody (s : Solver F) : Option (Loop.Flow (Solver F) (Option ℕ × Solver F)) :=
  match s.propQueue with
  | [] => some (.exit (none, s))
  | lit :: queue =>
    match visitClauses lit.negate (s.watch lit.var) { s with propQueue := queue } with
    | (some confl, s') => some (.exit (some confl, s'))
    | (none, s') => some (.next s')

/-- Every pass takes a literal off the queue, and a literal is put on it with an assignment. -/
def propagateFuel (s : Solver F) : ℕ := s.propQueue.length + s.numVars + 1

def propagate (s : Solver F) : Option (Option ℕ × Solver F) :=
  Loop.iterate propagateBody s.propagateFuel s

/-! ### Decisions and activities -/

section Scores

variable [F64 F]

/-- The tie-break of `pick_var`. -/
def pickKey (s : Solver F) (v : ℕ) : BitVec 64 := BitVec.ofNat 64 v * 0x9E3779B97F4A7C15 + s.seed

/-- One pass of the loop of `pick_var`; the state is the best variable so far. -/
def pickBetter (s : Solver F) (best : Option ℕ) (v : ℕ) : Option ℕ :=
  if (s.assignment v).isSome then best
  else
    match best with
    | none => some v
    | some b =>
      if F64.gt (s.activity v) (s.activity b) ||
          (F64.eq (s.activity v) (s.activity b) && decide (s.pickKey b < s.pickKey v)) then some v
      else some b

def pickVar (s : Solver F) : Option ℕ := (List.range s.numVars).foldl s.pickBetter none

def varBumpActivity (s : Solver F) (v : ℕ) : Solver F :=
  let activity := Function.update s.activity v (F64.add (s.activity v) s.varInc)
  if F64.gt (activity v) F64.big then
    { s with
      activity := fun w => F64.mul (activity w) F64.small
      varInc := F64.mul s.varInc F64.small }
  else { s with activity := activity }

def varDecayActivity (s : Solver F) : Solver F :=
  { s with varInc := F64.div s.varInc s.varDecay }

end Scores

/-! ### Conflict analysis -/

/-- The accumulators of `analyze`. -/
structure Analysis where
  seen : ℕ → Bool
  /-- `out_learnt[1..]`. -/
  outLearnt : List Literal
  pathC : ℕ

/-- The body of the `for` loop of `analyze` over the literals of a clause. -/
def markLit (s : Solver F) (dl : ℕ) (a : Analysis) (lit : Literal) : Analysis :=
  if !a.seen lit.var && decide (0 < s.level lit.var) then
    if dl ≤ s.level lit.var then
      { a with seen := Function.update a.seen lit.var true, pathC := a.pathC + 1 }
    else
      { a with
        seen := Function.update a.seen lit.var true
        outLearnt := a.outLearnt ++ [lit.negate] }
  else a

def markClause (s : Solver F) (dl : ℕ) (a : Analysis) (ci : ℕ) : Analysis :=
  (s.clauseLits ci).foldl (s.markLit dl) a

/-- The `'resolve` loop of `analyze`, from the point where `index` moves down to the next literal of
the trail. `none` is an underflow of `index` or `path_c`. -/
def resolve (s : Solver F) (dl : ℕ) : List Literal → Analysis → Option (Literal × List Literal)
  | [], _ => none
  | tl :: rest, a =>
    if a.seen tl.var && decide (dl ≤ s.level tl.var) then
      let a := { a with seen := Function.update a.seen tl.var false }
      match s.reason tl.var with
      | some r =>
        match a.pathC with
        | 0 => none
        | 1 => some (tl, a.outLearnt)
        | pathC + 1 => s.resolve dl rest (s.markClause dl { a with pathC := pathC } r)
      | none => some (tl, a.outLearnt)
    else s.resolve dl rest a

/-- 1UIP conflict analysis: the learnt clause and the level to jump back to. -/
def analyze (s : Solver F) (confl : ℕ) : Option (List Literal × ℕ) :=
  let dl := s.trailLim.length
  let a := s.markClause dl ⟨fun _ => false, [], 0⟩ confl
  match s.resolve dl s.trail a with
  | none => none
  | some (p, outLearnt) =>
    some (p.negate :: outLearnt,
      outLearnt.foldl (fun bt l => if bt < s.level l.var then s.level l.var else bt) 0)

/-! ### Search -/

/-- The unit clauses whose literal is unassigned. -/
def rootUnits (s : Solver F) : List (Literal × ℕ) :=
  s.clauses.zipIdx.filterMap fun (c, ci) =>
    match c.literals with
    | [l] => if s.litValue l = none then some (l, ci) else none
    | _ => none

def seedUnits (s : Solver F) : Solver F :=
  s.rootUnits.foldl (fun s (l, ci) => s.enqueue l (some ci)) s

/-- The loop of `search` over the assumptions; `false` when one contradicts what is assigned. -/
def assume : List Literal → Solver F → Bool × Solver F
  | [], s => (true, s)
  | a :: assumptions, s =>
    match s.litValue a with
    | some true => assume assumptions s
    | some false => (false, s)
    | none => assume assumptions (s.enqueue a none)

section Search

variable [F64 F]

/-- The conflict branch of `search`, after `analyze`. -/
def learn (s : Solver F) (learnt : List Literal) (btlevel : ℕ) : Solver F :=
  let s := learnt.foldl (fun s l => s.varBumpActivity l.var) s
  let s := s.cancelUntil btlevel
  match learnt with
  | [] => s
  | asserting :: _ => (s.addClause learnt).enqueue asserting (some s.clauses.length)

/-- The decision branch of `search`. -/
def decideVar (s : Solver F) (v : ℕ) : Solver F := s.newDecisionLevel.enqueue (Literal.pos v) none

/-- One pass of the `loop` of `search`. -/
def searchBody (pick : Solver F → Option ℕ) (s : Solver F) :
    Option (Loop.Flow (Solver F) (Bool × Solver F)) :=
  match s.propagate with
  | none => none
  | some (some confl, s) =>
    if s.trailLim = [] then some (.exit (false, s))
    else
      match s.analyze confl with
      | none => none
      | some (learnt, btlevel) => some (.next (s.learn learnt btlevel))
  | some (none, s) =>
    if s.allAssigned then some (.exit (true, s))
    else
      let s := s.varDecayActivity
      match pick s with
      | none => some (.exit (s.allAssigned, s))
      | some v => some (.next (s.decideVar v))

/-- A bound on the number of passes (`rank_lt_fuel`, `search_total`). -/
def searchFuel (s : Solver F) : ℕ := (s.numVars + 1) ^ (s.numVars + 1)

def search (pick : Solver F → Option ℕ) (s : Solver F) (assumptions : List Literal) :
    Option (Bool × Solver F) :=
  match s.seedUnits.assume assumptions with
  | (false, s) => some (false, s)
  | (true, s) => Loop.iterate (searchBody pick) s.searchFuel s

def solve (s : Solver F) : Option (Bool × Solver F) := s.search pickVar []

def solveWithAssumptions (s : Solver F) (assumptions : List Literal) : Option (Bool × Solver F) :=
  s.search pickVar assumptions

end Search

end Solver

end DebToolkit
