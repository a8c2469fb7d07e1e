import DebToolkit.Bfs
import DebToolkit.Text
import DebToolkit.Transport.Rdiff

/-!
# The index of the deltas

`PdiffIndex::parse` and `resolve_chain`. The deltas are the edges of a graph over the hashes of the
revisions, and a chain is a shortest way through it, found breadth first.

* `resolveChain?_total`: the search and the way back end, and no predecessor is missing;
* `resolveChain_linked`: a chain starts at the current revision, ends at the target, and each of its
  deltas starts where the one before it ends;
* `resolveChain_shortest`: there is no chain only when the target cannot be reached, and no chain has
  fewer deltas.
-/

namespace DebToolkit
namespace Pdiff

open Text

structure PdiffEntry where
  oldSha256 : Str
  newSha256 : Str
  /-- Of the compressed patch file. -/
  size : ℕ
  patchFile : Str
  deriving DecidableEq, Repr

structure PdiffIndex where
  entries : List PdiffEntry
  deriving DecidableEq, Repr

/-- A line that is not blank; `debug` is the `Debug` of `str`. -/
def PdiffEntry.parse (debug : Str → Str) (line : Str) : Except PdiffError PdiffEntry :=
  match splitWhitespace line with
  | [oldSha256, newSha256, size, patchFile] =>
    match parseUnsigned 64 size with
    | .error e => .error (.corrupt s!"bad size field: {e.display}")
    | .ok size => .ok ⟨toAsciiLowercase oldSha256, toAsciiLowercase newSha256, size, patchFile⟩
  | parts =>
    .error (.corrupt s!"expected 4 fields, got {parts.length}: {String.ofList (debug line)}")

def PdiffIndex.parse (debug : Str → Str) (text : Str) : Except PdiffError PdiffIndex :=
  (((lines text).map trim).filter (· ≠ [])).mapM (PdiffEntry.parse debug) |>.map .mk

/-! ### Chains -/

/-- The map from a hash to the deltas that start there, in the order of the index. -/
def PdiffIndex.graph (index : PdiffIndex) : Bfs.Graph Str PdiffEntry where
  out node := index.entries.filter fun e => e.oldSha256 = node
  dst e := e.newSha256

/-- `resolve_chain`, with bounds on the passes of its two loops. -/
def resolveChain? (index : PdiffIndex) (current target : Str) : Option (Option (List PdiffEntry)) :=
  let current := toAsciiLowercase current
  let target := toAsciiLowercase target
  let bound := index.entries.length + 2
  if current = target then some (some [])
  else
    (Bfs.search index.graph current target bound).bind fun st =>
      if target ∈ st.seen then (Bfs.pathBack st.prev current target bound).map some
      else some none

/-- Each delta starts where the one before it ends. -/
def Linked (index : PdiffIndex) (current : Str) (chain : List PdiffEntry) (target : Str) : Prop :=
  Bfs.Walk index.graph current chain target

variable {index : PdiffIndex} {current target : Str} {chain : List PdiffEntry}

theorem resolveChain?_spec (index : PdiffIndex) (current target : Str) :
    ∃ r, resolveChain? index current target = some r ∧ ∀ chain ∈ r,
      Linked index (toAsciiLowercase current) chain (toAsciiLowercase target) := by
  have hdst : ∀ u, ∀ e ∈ index.graph.out u,
      e.newSha256 ∈ toAsciiLowercase current :: index.entries.map PdiffEntry.newSha256 := by
    intro u e he
    exact List.mem_cons_of_mem _ (List.mem_map_of_mem (List.mem_filter.1 he).1)
  obtain ⟨st, hst, depth, hinv⟩ := Bfs.search_total (n := index.entries.length + 2)
    List.mem_cons_self hdst (toAsciiLowercase target) (by simp)
  unfold resolveChain?
  dsimp only
  split_ifs with heq
  · refine ⟨some [], rfl, ?_⟩
    rintro _ ⟨⟩
    rw [heq]
    exact .nil _
  · rw [hst, Option.bind_some]
    split_ifs with hseen
    · have hlen := hinv.length_le (hinv.mem_nodes List.mem_cons_self hdst)
      rw [List.length_cons, List.length_map] at hlen
      obtain ⟨chain, hchain, hwalk⟩ := hinv.pathBack hseen (hlen.trans (Nat.le_succ _))
      refine ⟨some chain, by rw [hchain]; rfl, ?_⟩
      rintro _ ⟨⟩
      exact hwalk
    · exact ⟨none, rfl, by simp⟩

/-- **`resolve_chain` returns**: no loop runs on, and no predecessor is missing. -/
theorem resolveChain?_total (index : PdiffIndex) (current target : Str) :
    (resolveChain? index current target).isSome := by
  obtain ⟨r, hr, -⟩ := resolveChain?_spec index current target
  rw [hr]; rfl

/-- `resolve_chain`. -/
def resolveChain (index : PdiffIndex) (current target : Str) : Option (List PdiffEntry) :=
  (resolveChain? index current target).get (resolveChain?_total index current target)

/-- **A chain leads from the current revision to the target.** -/
theorem resolveChain_linked (h : resolveChain index current target = some chain) :
    Linked index (toAsciiLowercase current) chain (toAsciiLowercase target) := by
  obtain ⟨r, hr, hlinked⟩ := resolveChain?_spec index current target
  refine hlinked chain ?_
  rw [resolveChain, Option.get_of_eq_some _ hr] at h
  exact h

/-- There is no shorter way than the chain, and none at all when there is no chain. -/
theorem resolveChain?_shortest {r : Option (List PdiffEntry)}
    (h : resolveChain? index current target = some r) {other : List PdiffEntry}
    (hother : Linked index (toAsciiLowercase current) other (toAsciiLowercase target)) :
    ∃ chain, r = some chain ∧ chain.length ≤ other.length := by
  unfold resolveChain? at h
  dsimp only at h
  split_ifs at h with heq
  · obtain rfl := Option.some.inj h
    exact ⟨[], rfl, Nat.zero_le _⟩
  · obtain ⟨st, hst, h⟩ := Option.bind_eq_some_iff.1 h
    split_ifs at h with hseen
    · obtain ⟨chain, hchain, rfl⟩ := Option.map_eq_some_iff.1 h
      exact ⟨chain, rfl, Bfs.pathBack_shortest hst hchain hseen hother⟩
    · exact absurd hother (Bfs.not_walk_of_notMem hst hseen)

/-! ### Hashes in either case -/

def SameHash (a b : Str) : Prop := toAsciiLowercase a = toAsciiLowercase b

/-- Deltas of the index that lead from one revision to another. -/
def Connects (index : PdiffIndex) : Str → List PdiffEntry → Str → Prop
  | current, [], target => SameHash current target
  | current, e :: chain, target =>
    e ∈ index.entries ∧ SameHash current e.oldSha256 ∧ Connects index e.newSha256 chain target

theorem PdiffEntry.lower_of_parse {debug : Str → Str} {line : Str} {e : PdiffEntry}
    (h : PdiffEntry.parse debug line = .ok e) :
    toAsciiLowercase e.oldSha256 = e.oldSha256 ∧ toAsciiLowercase e.newSha256 = e.newSha256 := by
  unfold PdiffEntry.parse at h
  split at h
  · split at h
    · cases h
    · cases h
      exact ⟨toAsciiLowercase_idem _, toAsciiLowercase_idem _⟩
  · cases h

/-- The hashes of an index that was read are in lower case. -/
theorem lower_of_parse {debug : Str → Str} {text : Str} (h : PdiffIndex.parse debug text = .ok index) :
    ∀ e ∈ index.entries, toAsciiLowercase e.oldSha256 = e.oldSha256 ∧
      toAsciiLowercase e.newSha256 = e.newSha256 := by
  obtain ⟨entries, hentries, rfl⟩ := Loop.map_eq_ok.1 h
  intro e he
  obtain ⟨line, -, hline⟩ := Loop.exists_of_mem_mapM hentries he
  exact PdiffEntry.lower_of_parse hline

theorem connects_iff_linked (hlower : ∀ e ∈ index.entries, toAsciiLowercase e.oldSha256 = e.oldSha256 ∧
      toAsciiLowercase e.newSha256 = e.newSha256) (current : Str) (chain : List PdiffEntry) :
    Connects index current chain target ↔
      Linked index (toAsciiLowercase current) chain (toAsciiLowercase target) := by
  induction chain generalizing current with
  | nil => exact Bfs.walk_nil_iff.symm
  | cons e chain ih =>
    have hout : e ∈ index.graph.out (toAsciiLowercase current) ↔
        e ∈ index.entries ∧ e.oldSha256 = toAsciiLowercase current := by
      simp [PdiffIndex.graph]
    constructor
    · rintro ⟨he, hsame, hrest⟩
      have hold : e.oldSha256 = toAsciiLowercase current := (hlower e he).1.symm.trans hsame.symm
      have hwalk := (ih e.newSha256).1 hrest
      rw [(hlower e he).2] at hwalk
      exact .cons (hout.2 ⟨he, hold⟩) hwalk
    · intro h
      cases h with
      | cons he hwalk =>
        obtain ⟨hmem, hold⟩ := hout.1 he
        refine ⟨hmem, ?_, (ih e.newSha256).2 ?_⟩
        · rw [SameHash, hold, toAsciiLowercase_idem]
        · rw [(hlower e hmem).2]
          exact hwalk

/-- **`resolve_chain` finds a shortest chain.** It always returns; it finds no chain only when the target
cannot be reached, and otherwise deltas of the index that lead from the current revision to the
target, none exactly when these are the same, and no way has fewer deltas. -/
theorem resolveChain_shortest {debug : Str → Str} {text : Str}
    (h : PdiffIndex.parse debug text = .ok index) (current target : Str) :
    ∃ r, resolveChain? index current target = some r ∧
      (r = none ↔ ¬ ∃ chain, Connects index current chain target) ∧
      ∀ chain, r = some chain →
        Linked index (toAsciiLowercase current) chain (toAsciiLowercase target) ∧
        (chain = [] ↔ SameHash current target) ∧
        ∀ other, Connects index current other target → chain.length ≤ other.length := by
  have hlinked : ∀ current chain, Connects index current chain target ↔
      Linked index (toAsciiLowercase current) chain (toAsciiLowercase target) :=
    connects_iff_linked (lower_of_parse h)
  obtain ⟨r, hr, hchain⟩ := resolveChain?_spec index current target
  have hshortest : ∀ other, Connects index current other target →
      ∃ chain, r = some chain ∧ chain.length ≤ other.length :=
    fun other hother => resolveChain?_shortest hr ((hlinked current other).1 hother)
  refine ⟨r, hr, ?_, fun chain hsome => ?_⟩
  · constructor
    · rintro rfl ⟨other, hother⟩
      obtain ⟨chain, hnone, -⟩ := hshortest other hother
      cases hnone
    · intro hnone
      rcases r with _ | chain
      · rfl
      · exact absurd ⟨chain, (hlinked current chain).2 (hchain chain rfl)⟩ hnone
  · have hconnects := (hlinked current chain).2 (hchain chain hsome)
    have hle : ∀ other, Connects index current other target → chain.length ≤ other.length := by
      intro other hother
      obtain ⟨chain', hsome', hle⟩ := hshortest other hother
      rw [hsome, Option.some_inj] at hsome'
      rwa [hsome']
    refine ⟨hchain chain hsome, ⟨?_, fun hsame => ?_⟩, hle⟩
    · rintro rfl
      exact hconnects
    · -- the empty chain is a way
      exact List.length_eq_zero_iff.1 (Nat.le_zero.1 (hle [] hsame))

/-- A cycle, a loop, two deltas between the same revisions, and two ways to the target. -/
def cyclicIndex : PdiffIndex :=
  let entry (old new patchFile : String) : PdiffEntry := ⟨old.toList, new.toList, 1, patchFile.toList⟩
  ⟨[entry "b" "a" "1", entry "a" "a" "2", entry "a" "b" "3", entry "a" "b" "4", entry "b" "c" "5",
    entry "c" "d" "6", entry "b" "d" "7"]⟩

def cyclicIndexText : Str :=
  "B a 1 1\na a 1 2\na b 1 3\na b 1 4\n\nb c 1 5\nc D 1 6\nb d 1 7\n".toList

theorem resolveChain_shortest_cyclic :
    resolveChain? cyclicIndex "A".toList "d".toList =
        some (some [⟨['a'], ['b'], 1, ['3']⟩, ⟨['b'], ['d'], 1, ['7']⟩]) ∧
      ∀ other, Connects cyclicIndex "A".toList other "d".toList → 2 ≤ other.length := by
  have hparse : PdiffIndex.parse id cyclicIndexText = .ok cyclicIndex := by decide
  have hchain : resolveChain? cyclicIndex "A".toList "d".toList =
      some (some [⟨['a'], ['b'], 1, ['3']⟩, ⟨['b'], ['d'], 1, ['7']⟩]) := by decide
  obtain ⟨r, hr, -, hshortest⟩ := resolveChain_shortest hparse "A".toList "d".toList
  rw [hchain, Option.some_inj] at hr
  exact ⟨hchain, (hshortest _ hr.symm).2.2⟩

end Pdiff
end DebToolkit
