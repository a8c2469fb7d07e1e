import Mathlib.Data.List.Perm.Subperm
import DebToolkit.Loop
import DebToolkit.OrdMap

/-!
# Breadth-first search with predecessors

A search from a source for a target over a graph given by its out-edges. It records, for every node it
meets first, the node it came from and the edge it took; the path to the target is read off these
records backwards.

* `Inv depth st`: what every pass keeps, with the depth of the nodes met as a ghost;
* `search_total`: the search ends, after at most one pass for every node;
* `Inv.pathBack`: from a node that has been met the way back is a walk from the source, and it has an
  end;
* `Layered`: the nodes met lie in layers, and the queue holds the edge of the explored part;
* `pathBack_shortest`, `not_walk_of_notMem`: the way back to the target is a shortest walk, and a target
  that has not been met cannot be reached.
-/

namespace Bfs

/-- The edges that leave a node, and where an edge leads. -/
structure Graph (ν ε : Type*) where
  out : ν → List ε
  dst : ε → ν

/-- The nodes met, latest first, where they were met from, and those whose edges are still to be
looked at. -/
structure State (ν ε : Type*) where
  seen : List ν
  prev : OrdMap ν (ν × ε)
  queue : List ν

variable {ν ε : Type*} [DecidableEq ν]

def State.init (source : ν) : State ν ε := ⟨[source], .empty, [source]⟩

/-- Look at an edge that leaves `node`. -/
def visit (G : Graph ν ε) (node : ν) (st : State ν ε) (e : ε) : State ν ε :=
  if G.dst e ∈ st.seen then st
  else ⟨G.dst e :: st.seen, st.prev.set (G.dst e) (node, e), st.queue ++ [G.dst e]⟩

/-- One pass of the search. -/
def body (G : Graph ν ε) (target : ν) (st : State ν ε) : Option (Loop.Flow (State ν ε) (State ν ε)) :=
  match st.queue with
  | [] => some (.exit st)
  | node :: queue =>
    if node = target then some (.exit { st with queue })
    else some (.next ((G.out node).foldl (visit G node) { st with queue }))

/-- At most `n` passes. -/
def search (G : Graph ν ε) (source target : ν) (n : ℕ) : Option (State ν ε) :=
  Loop.iterate (body G target) n (.init source)

/-- One step back, to the node that the current one was met from. -/
def backBody (prev : OrdMap ν (ν × ε)) (source : ν) :
    ν × List ε → Option (Loop.Flow (ν × List ε) (List ε))
  | (node, path) =>
    if node = source then some (.exit path)
    else (prev.find? node).map fun step => .next (step.1, step.2 :: path)

/-- The way from the source to `node`, in at most `n` passes; `none` also when a record is missing. -/
def pathBack (prev : OrdMap ν (ν × ε)) (source node : ν) (n : ℕ) : Option (List ε) :=
  Loop.iterate (backBody prev source) n (node, [])

/-- The edges of a walk from one node to another. -/
inductive Walk (G : Graph ν ε) : ν → List ε → ν → Prop
  | nil (u : ν) : Walk G u [] u
  | cons {u w : ν} {e : ε} {es : List ε} (he : e ∈ G.out u) (h : Walk G (G.dst e) es w) :
    Walk G u (e :: es) w

variable {G : Graph ν ε} {source target node u v w : ν} {depth : ν → ℕ} {st : State ν ε} {e : ε}
  {es fs : List ε} {n : ℕ}

omit [DecidableEq ν] in
theorem Walk.append (h : Walk G u es v) (h' : Walk G v fs w) : Walk G u (es ++ fs) w := by
  induction h with
  | nil u => exact h'
  | cons he _ ih => exact .cons he (ih h')

omit [DecidableEq ν] in
@[simp] theorem walk_nil_iff : Walk G u [] v ↔ u = v := by
  constructor
  · intro h
    cases h
    rfl
  · rintro rfl
    exact .nil u

omit [DecidableEq ν] in
theorem Walk.snoc (h : Walk G u es v) (he : e ∈ G.out v) : Walk G u (es ++ [e]) (G.dst e) :=
  h.append (.cons he (.nil _))

/-! ### The invariant -/

/-- Every node met other than the source was met from a node one step nearer to it. -/
structure Inv (G : Graph ν ε) (source : ν) (depth : ν → ℕ) (st : State ν ε) : Prop where
  nodup : st.seen.Nodup
  source_mem : source ∈ st.seen
  depth_lt : ∀ u ∈ st.seen, depth u < st.seen.length
  queue_mem : ∀ u ∈ st.queue, u ∈ st.seen
  pred : ∀ u ∈ st.seen, u ≠ source → ∃ p e, st.prev.find? u = some (p, e) ∧ p ∈ st.seen ∧
    e ∈ G.out p ∧ G.dst e = u ∧ depth u = depth p + 1

theorem Inv.init (G : Graph ν ε) (source : ν) : Inv G source (fun _ => 0) (.init source) where
  nodup := List.nodup_singleton source
  source_mem := List.mem_singleton_self source
  depth_lt := fun _ _ => Nat.zero_lt_one
  queue_mem := fun _ => id
  pred := fun _ hu hne => absurd (List.mem_singleton.1 hu) hne

theorem Inv.dequeue (h : Inv G source depth st) {queue : List ν} (hqueue : st.queue = node :: queue) :
    Inv G source depth { st with queue } :=
  { h with queue_mem := fun u hu => h.queue_mem u (hqueue ▸ List.mem_cons_of_mem node hu) }

theorem visit_of_mem (h : G.dst e ∈ st.seen) : visit G node st e = st := if_pos h

theorem visit_of_notMem (h : G.dst e ∉ st.seen) : visit G node st e =
    ⟨G.dst e :: st.seen, st.prev.set (G.dst e) (node, e), st.queue ++ [G.dst e]⟩ := if_neg h

/-- The depths when `e`, which leaves `node`, has led to a new node. -/
def deeper (G : Graph ν ε) (depth : ν → ℕ) (node : ν) (e : ε) : ν → ℕ :=
  Function.update depth (G.dst e) (depth node + 1)

theorem deeper_self : deeper G depth node e (G.dst e) = depth node + 1 := Function.update_self ..

theorem deeper_of_seen (h : G.dst e ∉ st.seen) (hu : u ∈ st.seen) : deeper G depth node e u = depth u := by
  have hne : u ≠ G.dst e := fun heq => h (heq ▸ hu)
  exact Function.update_of_ne hne ..

/-- A node that is met for the first time lies one step behind the node it is met from. -/
theorem Inv.visit_new (h : Inv G source depth st) (hnode : node ∈ st.seen) (he : e ∈ G.out node)
    (hseen : G.dst e ∉ st.seen) : Inv G source (deeper G depth node e) (visit G node st e) := by
  rw [visit_of_notMem hseen]
  refine ⟨?_, ?_, ?_, ?_, ?_⟩
  · exact List.nodup_cons.2 ⟨hseen, h.nodup⟩
  · exact List.mem_cons_of_mem _ h.source_mem
  · intro u hu
    rcases List.mem_cons.1 hu with rfl | hu
    · have := h.depth_lt node hnode
      rw [deeper_self, List.length_cons]
      omega
    · have := h.depth_lt u hu
      rw [deeper_of_seen hseen hu, List.length_cons]
      omega
  · intro u hu
    rcases List.mem_append.1 hu with hu | hu
    · exact List.mem_cons_of_mem _ (h.queue_mem u hu)
    · rw [List.mem_singleton.1 hu]
      exact List.mem_cons_self
  · intro u hu hsource
    rcases List.mem_cons.1 hu with rfl | hu
    · refine ⟨node, e, ?_, List.mem_cons_of_mem _ hnode, he, rfl, ?_⟩
      · rw [OrdMap.find?_set, if_pos rfl]
      · rw [deeper_self, deeper_of_seen hseen hnode]
    · obtain ⟨p, f, hfind, hp, hf, hdst, hdepth⟩ := h.pred u hu hsource
      refine ⟨p, f, ?_, List.mem_cons_of_mem _ hp, hf, hdst, ?_⟩
      · have hne : u ≠ G.dst e := fun heq => hseen (heq ▸ hu)
        rw [OrdMap.find?_set, if_neg hne, hfind]
      · rw [deeper_of_seen hseen hu, deeper_of_seen hseen hp, hdepth]

theorem Inv.visit (h : Inv G source depth st) (hnode : node ∈ st.seen) (he : e ∈ G.out node) :
    ∃ depth', Inv G source depth' (visit G node st e) := by
  by_cases hseen : G.dst e ∈ st.seen
  · rw [visit_of_mem hseen]
    exact ⟨depth, h⟩
  · exact ⟨_, h.visit_new hnode he hseen⟩

theorem visit_seen (G : Graph ν ε) (node : ν) (st : State ν ε) (e : ε) :
    ∀ u ∈ st.seen, u ∈ (visit G node st e).seen := by
  intro u hu
  unfold visit
  split_ifs
  · exact hu
  · exact List.mem_cons_of_mem _ hu

/-- A node is put in the queue when it is met. -/
theorem length_visit (G : Graph ν ε) (node : ν) (st : State ν ε) (e : ε) :
    (visit G node st e).queue.length + st.seen.length =
      (visit G node st e).seen.length + st.queue.length := by
  unfold visit
  split_ifs
  · exact Nat.add_comm _ _
  · simp only [List.length_append, List.length_cons, List.length_nil]
    omega

/-- The `for` loop of a pass. -/
theorem Inv.visitAll {es : List ε} (h : Inv G source depth st) (hnode : node ∈ st.seen)
    (hes : ∀ e ∈ es, e ∈ G.out node) :
    (∃ depth', Inv G source depth' (es.foldl (Bfs.visit G node) st)) ∧
      (es.foldl (Bfs.visit G node) st).queue.length + st.seen.length =
        (es.foldl (Bfs.visit G node) st).seen.length + st.queue.length := by
  induction es generalizing depth st with
  | nil => exact ⟨⟨depth, h⟩, Nat.add_comm _ _⟩
  | cons e es ih =>
    obtain ⟨he, hes⟩ := List.forall_mem_cons.1 hes
    obtain ⟨depth', h'⟩ := h.visit hnode he
    have hlen := length_visit G node st e
    obtain ⟨hinv, hlen'⟩ := ih h' (visit_seen G node st e node hnode) hes
    rw [List.foldl_cons]
    refine ⟨hinv, ?_⟩
    omega

/-- A pass leaves the loop, or keeps the invariant and takes a node off the queue. -/
theorem Inv.body (h : Inv G source depth st) (target : ν) :
    (∃ st', body G target st = some (.next st') ∧ (∃ depth', Inv G source depth' st') ∧
        st'.queue.length + st.seen.length < st'.seen.length + st.queue.length) ∨
      ∃ st', body G target st = some (.exit st') ∧ Inv G source depth st' := by
  unfold Bfs.body
  rcases hqueue : st.queue with _ | ⟨node, queue⟩
  · exact Or.inr ⟨st, rfl, h⟩
  · have hnode : node ∈ st.seen := h.queue_mem node (hqueue ▸ List.mem_cons_self)
    by_cases htarget : node = target
    · simp only [if_pos htarget]
      exact Or.inr ⟨_, rfl, h.dequeue hqueue⟩
    · simp only [if_neg htarget]
      obtain ⟨hinv, hlen⟩ := (h.dequeue hqueue).visitAll hnode fun _ => id
      refine Or.inl ⟨_, rfl, hinv, ?_⟩
      simp only [List.length_cons] at hlen ⊢
      omega

/-! ### The search ends -/

/-- The nodes met are distinct, so there are at most as many as the graph has. -/
theorem Inv.length_le (h : Inv G source depth st) {nodes : List ν} (hsub : ∀ u ∈ st.seen, u ∈ nodes) :
    st.seen.length ≤ nodes.length :=
  (h.nodup.subperm hsub).length_le

/-- A node met is the source, or an edge leads to it. -/
theorem Inv.mem_nodes (h : Inv G source depth st) {nodes : List ν} (hsource : source ∈ nodes)
    (hdst : ∀ u, ∀ e ∈ G.out u, G.dst e ∈ nodes) : ∀ u ∈ st.seen, u ∈ nodes := by
  intro u hu
  by_cases hne : u = source
  · exact hne ▸ hsource
  · obtain ⟨p, e, -, -, he, rfl, -⟩ := h.pred u hu hne
    exact hdst p e he

/-- **The search ends**, after at most one pass for every node and one more. -/
theorem search_total {nodes : List ν} (hsource : source ∈ nodes)
    (hdst : ∀ u, ∀ e ∈ G.out u, G.dst e ∈ nodes) (target : ν) (hn : nodes.length < n) :
    ∃ st, search G source target n = some st ∧ ∃ depth, Inv G source depth st := by
  have hstart : ∃ depth, Inv G source depth (.init source) := ⟨_, .init G source⟩
  obtain ⟨st, hst⟩ : ∃ st, search G source target n = some st := by
    refine Loop.iterate_total (I := fun st => ∃ depth, Inv G source depth st)
      (fun st => st.queue.length + (nodes.length - st.seen.length)) hstart ?_ ?_
    · rintro st ⟨depth, h⟩
      rcases h.body target with ⟨st', hnext, ⟨depth', h'⟩, hlt⟩ | ⟨st', hexit, -⟩
      · refine Or.inl ⟨st', hnext, ⟨depth', h'⟩, ?_⟩
        have := h.length_le (h.mem_nodes hsource hdst)
        have := h'.length_le (h'.mem_nodes hsource hdst)
        omega
      · exact Or.inr ⟨st', hexit⟩
    · have : 0 < nodes.length := List.length_pos_of_mem hsource
      simp only [State.init, List.length_singleton]
      omega
  refine ⟨st, hst, ?_⟩
  refine Loop.iterate_spec (I := fun st => ∃ depth, Inv G source depth st)
    (Q := fun st => ∃ depth, Inv G source depth st) hst hstart ?_ ?_
  · rintro a b ⟨depth, h⟩ hnext
    rcases h.body target with ⟨st', hst', hinv, -⟩ | ⟨st', hst', -⟩ <;> rw [hnext] at hst'
    · cases hst'
      exact hinv
    · cases hst'
  · rintro a b ⟨depth, h⟩ hexit
    rcases h.body target with ⟨st', hst', -⟩ | ⟨st', hst', hinv⟩ <;> rw [hexit] at hst'
    · cases hst'
    · cases hst'
      exact ⟨depth, hinv⟩

/-! ### The way back -/

theorem Inv.iterate_backBody (h : Inv G source depth st) (hnode : node ∈ st.seen)
    (hn : depth node < n) (path : List ε) :
    ∃ es, Loop.iterate (backBody st.prev source) n (node, path) = some (es ++ path) ∧
      Walk G source es node := by
  induction n generalizing node path with
  | zero => omega
  | succ n ih =>
    by_cases hsource : node = source
    · refine ⟨[], ?_, hsource ▸ .nil node⟩
      exact Loop.iterate_exit (by rw [backBody, if_pos hsource]; rfl)
    · obtain ⟨p, e, hfind, hp, he, hdst, hdepth⟩ := h.pred node hnode hsource
      obtain ⟨es, hes, hwalk⟩ := ih hp (by omega) (e :: path)
      refine ⟨es ++ [e], ?_, hdst ▸ hwalk.snoc he⟩
      have hstep : backBody st.prev source (node, path) = some (.next (p, e :: path)) := by
        rw [backBody, if_neg hsource, hfind]; rfl
      rw [Loop.iterate_next hstep, hes, List.append_assoc]; rfl

/-- **From every node met there is a way back**, and no record is missing on it. -/
theorem Inv.pathBack (h : Inv G source depth st) (hnode : node ∈ st.seen)
    (hn : st.seen.length ≤ n) :
    ∃ es, pathBack st.prev source node n = some es ∧ Walk G source es node := by
  obtain ⟨es, hes, hwalk⟩ :=
    h.iterate_backBody hnode (Nat.lt_of_lt_of_le (h.depth_lt node hnode) hn) []
  exact ⟨es, by rw [Bfs.pathBack, hes, List.append_nil], hwalk⟩

/-! ### Shortest walks -/

/-- The layers of the search. `done` are the nodes all of whose edges have been looked at; the queue holds
the other nodes met, by depth, and at most two depths at a time. -/
structure Layered (G : Graph ν ε) (source : ν) (done : List ν) (depth : ν → ℕ) (st : State ν ε) : Prop
    extends Inv G source depth st where
  depth_source : depth source = 0
  done_seen : ∀ u ∈ done, u ∈ st.seen
  cover : ∀ u ∈ st.seen, u ∈ done ∨ u ∈ st.queue
  sorted : st.queue.Pairwise fun u v => depth u ≤ depth v
  span : ∀ u ∈ st.seen, ∀ v ∈ st.queue, depth u ≤ depth v + 1
  done_le : ∀ u ∈ done, ∀ v ∈ st.queue, depth u ≤ depth v
  edges : ∀ u ∈ done, ∀ e ∈ G.out u, G.dst e ∈ st.seen ∧ depth (G.dst e) ≤ depth u + 1

variable {done queue : List ν}

theorem Layered.init (G : Graph ν ε) (source : ν) : Layered G source [] (fun _ => 0) (.init source) where
  toInv := .init G source
  depth_source := rfl
  done_seen := by simp
  cover := fun _ => Or.inr
  sorted := List.pairwise_singleton _ _
  span := fun _ _ _ _ => Nat.zero_le _
  done_le := by simp
  edges := by simp

theorem Layered.visit_new (h : Layered G source done depth st) (hqueue : st.queue = node :: queue)
    (he : e ∈ G.out node) (hseen : G.dst e ∉ st.seen) :
    Layered G source done (deeper G depth node e) (visit G node st e) := by
  have hhead : node ∈ st.queue := hqueue ▸ List.mem_cons_self
  have hnode : node ∈ st.seen := h.queue_mem node hhead
  have hold : ∀ u ∈ st.seen, deeper G depth node e u = depth u := fun u => deeper_of_seen hseen
  have hle : ∀ u ∈ st.queue, depth node ≤ depth u := by
    intro u hu
    have hsorted := h.sorted
    rw [hqueue] at hu hsorted
    rcases List.mem_cons.1 hu with rfl | hu
    · exact Nat.le_refl _
    · exact (List.pairwise_cons.1 hsorted).1 u hu
  have hinv := h.toInv.visit_new hnode he hseen
  rw [visit_of_notMem hseen] at hinv ⊢
  refine ⟨hinv, ?_, ?_, ?_, ?_, ?_, ?_, ?_⟩
  · rw [hold source h.source_mem, h.depth_source]
  · exact fun u hu => List.mem_cons_of_mem _ (h.done_seen u hu)
  · intro u hu
    rcases List.mem_cons.1 hu with rfl | hu
    · exact Or.inr (by simp)
    · exact (h.cover u hu).imp_right (List.mem_append_left _)
  · refine List.pairwise_append.2 ⟨?_, List.pairwise_singleton _ _, ?_⟩
    · refine h.sorted.imp_of_mem fun {u v} hu hv huv => ?_
      rw [hold u (h.queue_mem u hu), hold v (h.queue_mem v hv)]
      exact huv
    · intro u hu v hv
      rw [List.mem_singleton.1 hv, deeper_self, hold u (h.queue_mem u hu)]
      exact h.span u (h.queue_mem u hu) node hhead
  · intro u hu v hv
    -- the new node is one deeper than the one at the head, where the depths are least
    have hu' : deeper G depth node e u ≤ depth node + 1 := by
      rcases List.mem_cons.1 hu with rfl | hu
      · exact Nat.le_of_eq deeper_self
      · rw [hold u hu]
        exact h.span u hu node hhead
    have hv' : depth node ≤ deeper G depth node e v := by
      rcases List.mem_append.1 hv with hv | hv
      · rw [hold v (h.queue_mem v hv)]
        exact hle v hv
      · rw [List.mem_singleton.1 hv, deeper_self]
        exact Nat.le_succ _
    omega
  · intro u hu v hv
    rw [hold u (h.done_seen u hu)]
    rcases List.mem_append.1 hv with hv | hv
    · rw [hold v (h.queue_mem v hv)]
      exact h.done_le u hu v hv
    · rw [List.mem_singleton.1 hv, deeper_self]
      exact Nat.le_succ_of_le (h.done_le u hu node hhead)
  · intro u hu f hf
    obtain ⟨hdst, hdepth⟩ := h.edges u hu f hf
    rw [hold _ hdst, hold u (h.done_seen u hu)]
    exact ⟨List.mem_cons_of_mem _ hdst, hdepth⟩

theorem Layered.visit (h : Layered G source done depth st) (hqueue : st.queue = node :: queue)
    (he : e ∈ G.out node) : ∃ depth' queue', Layered G source done depth' (Bfs.visit G node st e) ∧
      (Bfs.visit G node st e).queue = node :: queue' ∧ G.dst e ∈ (Bfs.visit G node st e).seen := by
  by_cases hseen : G.dst e ∈ st.seen
  · rw [visit_of_mem hseen]
    exact ⟨depth, queue, h, hqueue, hseen⟩
  · refine ⟨_, queue ++ [G.dst e], h.visit_new hqueue he hseen, ?_, ?_⟩
    · rw [visit_of_notMem hseen, hqueue]
      rfl
    · rw [visit_of_notMem hseen]
      exact List.mem_cons_self

/-- The node at the head, whose edges are being looked at, may stay in the queue meanwhile. -/
theorem visit_push (G : Graph ν ε) (node x : ν) (st : State ν ε) (e : ε) :
    visit G node { st with queue := x :: st.queue } e =
      { visit G node st e with queue := x :: (visit G node st e).queue } := by
  unfold visit
  dsimp only
  split_ifs <;> rfl

theorem foldl_visit_push (G : Graph ν ε) (node x : ν) (es : List ε) (st : State ν ε) :
    es.foldl (visit G node) { st with queue := x :: st.queue } =
      { es.foldl (visit G node) st with queue := x :: (es.foldl (visit G node) st).queue } := by
  induction es generalizing st with
  | nil => rfl
  | cons e es ih => rw [List.foldl_cons, List.foldl_cons, visit_push, ih]

/-- The `for` loop of a pass. -/
theorem Layered.visitAll (h : Layered G source done depth st) (hqueue : st.queue = node :: queue)
    (hes : ∀ e ∈ es, e ∈ G.out node) :
    ∃ depth' queue', Layered G source done depth' (es.foldl (Bfs.visit G node) st) ∧
      (es.foldl (Bfs.visit G node) st).queue = node :: queue' ∧
      (∀ u ∈ st.seen, u ∈ (es.foldl (Bfs.visit G node) st).seen) ∧
      ∀ e ∈ es, G.dst e ∈ (es.foldl (Bfs.visit G node) st).seen := by
  induction es generalizing depth queue st with
  | nil => exact ⟨depth, queue, h, hqueue, fun _ => id, by simp⟩
  | cons e es ih =>
    obtain ⟨he, hes⟩ := List.forall_mem_cons.1 hes
    obtain ⟨depth', queue', h', hqueue', hdst⟩ := h.visit hqueue he
    obtain ⟨depth'', queue'', hall, hqueue'', hseen, hdsts⟩ := ih h' hqueue' hes
    rw [List.foldl_cons]
    exact ⟨depth'', queue'', hall, hqueue'', fun u hu => hseen u (visit_seen G node st e u hu),
      List.forall_mem_cons.2 ⟨hseen _ hdst, hdsts⟩⟩

/-- The node at the head is done when all its edges have been looked at. -/
theorem Layered.finish (h : Layered G source done depth st) (hqueue : st.queue = node :: queue)
    (hdst : ∀ e ∈ G.out node, G.dst e ∈ st.seen) :
    Layered G source (node :: done) depth { st with queue } := by
  have hhead : node ∈ st.queue := hqueue ▸ List.mem_cons_self
  have htail : ∀ u ∈ queue, u ∈ st.queue := fun u hu => hqueue ▸ List.mem_cons_of_mem _ hu
  have hsorted := h.sorted
  rw [hqueue, List.pairwise_cons] at hsorted
  refine ⟨h.toInv.dequeue hqueue, h.depth_source, ?_, ?_, hsorted.2, ?_, ?_, ?_⟩
  · exact List.forall_mem_cons.2 ⟨h.queue_mem node hhead, h.done_seen⟩
  · intro u hu
    rcases h.cover u hu with hu | hu
    · exact Or.inl (List.mem_cons_of_mem _ hu)
    · rw [hqueue] at hu
      rcases List.mem_cons.1 hu with rfl | hu
      · exact Or.inl List.mem_cons_self
      · exact Or.inr hu
  · exact fun u hu v hv => h.span u hu v (htail v hv)
  · exact List.forall_mem_cons.2 ⟨hsorted.1, fun u hu v hv => h.done_le u hu v (htail v hv)⟩
  · refine List.forall_mem_cons.2 ⟨fun e he => ⟨hdst e he, ?_⟩, h.edges⟩
    exact h.span _ (hdst e he) node hhead

/-- A walk from a node met stays among the nodes met at its depth at most, or runs through the queue. -/
theorem Layered.walk (h : Layered G source done depth st) (hw : Walk G u es w) (hu : u ∈ st.seen) :
    (w ∈ st.seen ∧ depth w ≤ depth u + es.length) ∨
      ∃ v ∈ st.queue, depth v ≤ depth u + es.length := by
  induction hw with
  | nil u => exact Or.inl ⟨hu, Nat.le_add_right _ _⟩
  | @cons u w e es he _ ih =>
    rcases h.cover u hu with hdone | hqueue
    · obtain ⟨hdst, hdepth⟩ := h.edges u hdone e he
      rw [List.length_cons]
      rcases ih hdst with ⟨hw, hle⟩ | ⟨v, hv, hle⟩
      · exact Or.inl ⟨hw, by omega⟩
      · exact Or.inr ⟨v, hv, by omega⟩
    · exact Or.inr ⟨u, hqueue, Nat.le_add_right _ _⟩

/-- What the search ends with: every walk to the target is at least as long as the target is deep. -/
def Settled (G : Graph ν ε) (source target : ν) (st : State ν ε) : Prop :=
  ∃ depth, Inv G source depth st ∧ depth source = 0 ∧
    ∀ es, Walk G source es target → target ∈ st.seen ∧ depth target ≤ es.length

theorem Layered.body (h : Layered G source done depth st) (target : ν) :
    (∃ st' done' depth', Bfs.body G target st = some (.next st') ∧ Layered G source done' depth' st') ∨
      ∃ st', Bfs.body G target st = some (.exit st') ∧ Settled G source target st' := by
  unfold Bfs.body
  rcases hqueue : st.queue with _ | ⟨node, queue⟩
  · refine Or.inr ⟨st, rfl, depth, h.toInv, h.depth_source, fun es hes => ?_⟩
    rcases h.walk hes h.source_mem with ⟨hseen, hle⟩ | ⟨v, hv, -⟩
    · exact ⟨hseen, by rwa [h.depth_source, Nat.zero_add] at hle⟩
    · rw [hqueue] at hv
      cases hv
  · have hhead : node ∈ st.queue := hqueue ▸ List.mem_cons_self
    by_cases htarget : node = target
    · -- no node of the queue is nearer than the target
      simp only [if_pos htarget]
      subst htarget
      refine Or.inr ⟨_, rfl, depth, h.toInv.dequeue hqueue, h.depth_source, fun es hes => ?_⟩
      refine ⟨h.queue_mem node hhead, ?_⟩
      rcases h.walk hes h.source_mem with ⟨-, hle⟩ | ⟨v, hv, hle⟩
      · rwa [h.depth_source, Nat.zero_add] at hle
      · have hsorted := h.sorted
        rw [hqueue, List.pairwise_cons] at hsorted
        rw [hqueue] at hv
        rw [h.depth_source, Nat.zero_add] at hle
        rcases List.mem_cons.1 hv with rfl | hv
        · exact hle
        · exact Nat.le_trans (hsorted.1 v hv) hle
    · simp only [if_neg htarget]
      have hpush : st = { ({ st with queue } : State ν ε) with queue := node :: queue } := by
        rw [← hqueue]
      have hloop := foldl_visit_push G node node (G.out node) { st with queue }
      obtain ⟨depth', queue', h', -, -, hdst⟩ := h.visitAll hqueue fun _ => id
      rw [hpush, hloop] at h' hdst
      exact Or.inl ⟨_, node :: done, depth', rfl, h'.finish rfl hdst⟩

/-- **The search settles the target.** -/
theorem search_settled {target : ν} (h : search G source target n = some st) : Settled G source target st := by
  refine Loop.iterate_spec (I := fun st => ∃ done depth, Layered G source done depth st)
    (Q := Settled G source target) h ⟨_, _, .init G source⟩ ?_ ?_
  · rintro a b ⟨done, depth, ha⟩ hnext
    rcases ha.body target with ⟨st', done', depth', hst', h'⟩ | ⟨st', hst', -⟩ <;> rw [hnext] at hst'
    · cases hst'
      exact ⟨done', depth', h'⟩
    · cases hst'
  · rintro a b ⟨done, depth, ha⟩ hexit
    rcases ha.body target with ⟨st', done', depth', hst', -⟩ | ⟨st', hst', h'⟩ <;> rw [hexit] at hst'
    · cases hst'
    · cases hst'
      exact h'

/-- The way back has as many edges as the node is deep. -/
theorem Inv.length_pathBack (h : Inv G source depth st) (hsource : depth source = 0)
    (hnode : node ∈ st.seen) (hpath : Bfs.pathBack st.prev source node n = some es) :
    es.length = depth node := by
  refine Loop.iterate_spec (I := fun p => p.1 ∈ st.seen ∧ p.2.length + depth p.1 = depth node)
    (Q := fun es => es.length = depth node) hpath ⟨hnode, Nat.zero_add _⟩ ?_ ?_
  · rintro ⟨u, path⟩ b ⟨hu, hlen⟩ hnext
    unfold backBody at hnext
    dsimp only at hu hlen hnext
    by_cases heq : u = source
    · rw [if_pos heq] at hnext
      cases hnext
    · obtain ⟨p, e, hfind, hp, -, -, hdepth⟩ := h.pred u hu heq
      rw [if_neg heq, hfind, Option.map_some] at hnext
      cases hnext
      refine ⟨hp, ?_⟩
      change (e :: path).length + depth p = depth node
      rw [List.length_cons]
      omega
  · rintro ⟨u, path⟩ b ⟨hu, hlen⟩ hexit
    unfold backBody at hexit
    dsimp only at hu hlen hexit
    by_cases heq : u = source
    · rw [if_pos heq] at hexit
      cases hexit
      rwa [heq, hsource, Nat.add_zero] at hlen
    · rw [if_neg heq] at hexit
      cases hfind : st.prev.find? u with
      | none =>
        rw [hfind] at hexit
        cases hexit
      | some step =>
        rw [hfind] at hexit
        cases hexit

/-- **The way back to the target is a shortest walk.** -/
theorem pathBack_shortest {target : ν} (h : search G source target n = some st)
    (hpath : pathBack st.prev source target n = some es) (hseen : target ∈ st.seen)
    (hw : Walk G source fs target) : es.length ≤ fs.length := by
  obtain ⟨depth, hinv, hsource, hall⟩ := search_settled h
  rw [hinv.length_pathBack hsource hseen hpath]
  exact (hall fs hw).2

/-- **A target that has not been met cannot be reached.** -/
theorem not_walk_of_notMem {target : ν} (h : search G source target n = some st)
    (hseen : target ∉ st.seen) : ¬ Walk G source es target := by
  obtain ⟨depth, -, -, hall⟩ := search_settled h
  exact fun hw => hseen (hall es hw).1

end Bfs
