import Mathlib.Logic.Relation
import Mathlib.Data.List.Basic
import Mathlib.Data.List.Sort

/-!
# Depth-first search with marks

`visit` marks what it reaches from a root and lists the leaves among them, in
the order it meets them, under the tag of the root. A sequence of roots shares
its marks, so a leaf keeps the tag of the first root that reaches it. The
results say which leaves are listed and, when the tags of the roots grow, that
every leaf has the least tag it could have.
-/

namespace Aholyc.Lib.Closure

/-- A graph: the successors of an inner node, or `none` for a leaf. -/
abbrev Graph (σ : Type) := σ → Option (List σ)

structure Marks (μ σ : Type) where
  valid : μ → Prop
  has : μ → σ → Bool
  mark : σ → μ → μ
  valid_mark : ∀ m s, valid m → valid (mark s m)
  has_mark : ∀ m s x, valid m → (has (mark s m) x = true ↔ x = s ∨ has m x = true)

variable {μ σ τ : Type} (graph : Graph σ) (store : Marks μ σ)

def Graph.Edge (x y : σ) : Prop := ∃ successors, graph x = some successors ∧ y ∈ successors

def Graph.Reach : σ → σ → Prop := Relation.ReflTransGen (Graph.Edge graph)

abbrev Found (μ σ τ : Type) := μ × List (σ × τ)

def visitAll (visit : σ → Found μ σ τ → Option (Found μ σ τ)) :
    List σ → Found μ σ τ → Option (Found μ σ τ)
  | [], found => some found
  | s :: rest, found => (visit s found).bind (visitAll visit rest)

def visit : Nat → τ → σ → Found μ σ τ → Option (Found μ σ τ)
  | 0, _, _, _ => none
  | fuel + 1, tag, s, found =>
      if store.has found.1 s then some found
      else
        match graph s with
        | none => some (store.mark s found.1, found.2 ++ [(s, tag)])
        | some successors =>
            visitAll (visit fuel tag) successors (store.mark s found.1, found.2)

structure Visited (roots : List σ) (tag : τ) (before after : Found μ σ τ) : Prop where
  valid : store.valid after.1
  grows : ∀ x, store.has before.1 x = true → store.has after.1 x = true
  rooted : ∀ s ∈ roots, store.has after.1 s = true
  reached : ∀ x, store.has after.1 x = true → store.has before.1 x = true ∨
    ∃ s ∈ roots, graph.Reach s x
  closed : ∀ x y, store.has after.1 x = true → store.has before.1 x = false → graph.Edge x y →
    store.has after.1 y = true
  listed : ∃ more : List σ, after.2 = before.2 ++ more.map (·, tag) ∧
    ∀ x, x ∈ more ↔ graph x = none ∧ store.has after.1 x = true ∧ store.has before.1 x = false

variable {graph store}

variable {tag : τ} {found : Found μ σ τ} {m : μ} {s : σ} {nodes : List σ} {fuel : Nat}
  {roots : List (σ × τ)}

theorem Visited.refl (valid : store.valid found.1) :
    Visited graph store [] tag found found where
  valid := valid
  grows _ marked := marked
  rooted _ inNil := absurd inNil List.not_mem_nil
  reached _ marked := Or.inl marked
  closed x y after before _ := by rw [before] at after; cases after
  listed := by
    refine ⟨[], by simp, fun x => ?_⟩
    constructor
    · intro inNil
      cases inNil
    · rintro ⟨_, after, before⟩
      rw [before] at after
      cases after

variable {before after : Found μ σ τ}

theorem Visited.append {first second : List σ} {mid : Found μ σ τ}
    (one : Visited graph store first tag before mid)
    (two : Visited graph store second tag mid after) :
    Visited graph store (first ++ second) tag before after where
  valid := two.valid
  grows x marked := two.grows x (one.grows x marked)
  rooted := by
    intro s inRoots
    cases List.mem_append.mp inRoots with
    | inl inFirst => exact two.grows s (one.rooted s inFirst)
    | inr inSecond => exact two.rooted s inSecond
  reached := by
    intro x marked
    rcases two.reached x marked with markedMid | ⟨s, inSecond, reach⟩
    · rcases one.reached x markedMid with markedBefore | ⟨s, inFirst, reach⟩
      · exact Or.inl markedBefore
      · exact Or.inr ⟨s, List.mem_append_left second inFirst, reach⟩
    · exact Or.inr ⟨s, List.mem_append_right first inSecond, reach⟩
  closed := by
    intro x y marked unmarked edge
    cases markedMid : store.has mid.1 x with
    | true => exact two.grows y (one.closed x y markedMid unmarked edge)
    | false => exact two.closed x y marked markedMid edge
  listed := by
    obtain ⟨more, eqMore, memMore⟩ := one.listed
    obtain ⟨rest, eqRest, memRest⟩ := two.listed
    refine ⟨more ++ rest, by rw [eqRest, eqMore, List.map_append, List.append_assoc], fun x => ?_⟩
    rw [List.mem_append, memMore, memRest]
    constructor
    · rintro (⟨leaf, markedMid, unmarked⟩ | ⟨leaf, marked, unmarkedMid⟩)
      · exact ⟨leaf, two.grows x markedMid, unmarked⟩
      · refine ⟨leaf, marked, ?_⟩
        cases markedBefore : store.has before.1 x with
        | false => rfl
        | true => rw [one.grows x markedBefore] at unmarkedMid; cases unmarkedMid
    · rintro ⟨leaf, marked, unmarked⟩
      cases markedMid : store.has mid.1 x with
      | true => exact Or.inl ⟨leaf, rfl, unmarked⟩
      | false => exact Or.inr ⟨leaf, marked, rfl⟩

theorem visitAll_visited {step : σ → Found μ σ τ → Option (Found μ σ τ)}
    (steps : ∀ s before after, store.valid before.1 → step s before = some after →
      Visited graph store [s] tag before after) (roots : List σ) (valid : store.valid before.1)
    (ended : visitAll step roots before = some after) :
    Visited graph store roots tag before after := by
  induction roots generalizing before with
  | nil =>
    cases ended
    exact Visited.refl valid
  | cons s rest ih =>
    obtain ⟨mid, first, others⟩ := Option.bind_eq_some_iff.mp ended
    have one := steps s before mid valid first
    exact one.append (ih one.valid others)

theorem has_mark_false {x : σ} (valid : store.valid m)
    (unmarked : store.has (store.mark s m) x = false) : x ≠ s ∧ store.has m x = false := by
  have marked := store.has_mark m s x valid
  rw [unmarked] at marked
  constructor
  · intro same
    exact absurd (marked.mpr (Or.inl same)) (by simp)
  · cases value : store.has m x with
    | false => rfl
    | true => exact absurd (marked.mpr (Or.inr value)) (by simp)

theorem Visited.leaf (valid : store.valid before.1) (unmarked : store.has before.1 s = false)
    (isLeaf : graph s = none) :
    Visited graph store [s] tag before (store.mark s before.1, before.2 ++ [(s, tag)]) where
  valid := store.valid_mark _ s valid
  grows x marked := (store.has_mark _ s x valid).mpr (Or.inr marked)
  rooted x inRoots := (store.has_mark _ s x valid).mpr (Or.inl (List.mem_singleton.mp inRoots))
  reached := by
    intro x marked
    rcases (store.has_mark _ s x valid).mp marked with rfl | old
    · exact Or.inr ⟨x, by simp, Relation.ReflTransGen.refl⟩
    · exact Or.inl old
  closed := by
    intro x y marked unmarkedX edge
    obtain ⟨successors, inner, _⟩ := edge
    rcases (store.has_mark _ s x valid).mp marked with rfl | old
    · rw [isLeaf] at inner
      cases inner
    · rw [unmarkedX] at old
      cases old
  listed := by
    refine ⟨[s], rfl, fun x => ?_⟩
    rw [List.mem_singleton, store.has_mark _ s x valid]
    constructor
    · rintro rfl
      exact ⟨isLeaf, Or.inl rfl, unmarked⟩
    · rintro ⟨_, same | old, unmarkedX⟩
      · exact same
      · rw [unmarkedX] at old
        cases old

theorem Visited.inner {successors : List σ} (valid : store.valid before.1)
    (isInner : graph s = some successors)
    (rest : Visited graph store successors tag (store.mark s before.1, before.2) after) :
    Visited graph store [s] tag before after where
  valid := rest.valid
  grows x marked := rest.grows x ((store.has_mark _ s x valid).mpr (Or.inr marked))
  rooted := by
    intro x inRoots
    exact rest.grows x ((store.has_mark _ s x valid).mpr (Or.inl (List.mem_singleton.mp inRoots)))
  reached := by
    intro x marked
    rcases rest.reached x marked with old | ⟨y, inNext, reach⟩
    · rcases (store.has_mark _ s x valid).mp old with rfl | older
      · exact Or.inr ⟨x, by simp, Relation.ReflTransGen.refl⟩
      · exact Or.inl older
    · exact Or.inr ⟨s, by simp, Relation.ReflTransGen.head ⟨successors, isInner, inNext⟩ reach⟩
  closed := by
    intro x y marked unmarked edge
    cases markedMid : store.has (store.mark s before.1) x with
    | false => exact rest.closed x y marked markedMid edge
    | true =>
      rcases (store.has_mark _ s x valid).mp markedMid with rfl | old
      · obtain ⟨others, isOthers, inOthers⟩ := edge
        rw [isInner] at isOthers
        cases isOthers
        exact rest.rooted y inOthers
      · rw [unmarked] at old
        cases old
  listed := by
    obtain ⟨more, eqMore, memMore⟩ := rest.listed
    refine ⟨more, eqMore, fun x => ?_⟩
    rw [memMore]
    constructor
    · rintro ⟨leaf, marked, unmarked⟩
      exact ⟨leaf, marked, (has_mark_false valid unmarked).2⟩
    rintro ⟨leaf, marked, unmarked⟩
    refine ⟨leaf, marked, ?_⟩
    cases markedMid : store.has (store.mark s before.1) x with
    | false => rfl
    | true =>
      rcases (store.has_mark _ s x valid).mp markedMid with rfl | old
      · rw [isInner] at leaf
        cases leaf
      · rw [unmarked] at old
        cases old

theorem Visited.already (valid : store.valid before.1) (marked : store.has before.1 s = true) :
    Visited graph store [s] tag before before := by
  have same : Visited graph store [] tag before before := Visited.refl valid
  exact {
    valid := valid
    grows := same.grows
    rooted := fun x inRoots => by rwa [List.mem_singleton.mp inRoots]
    reached := fun x marked => Or.inl marked
    closed := same.closed
    listed := same.listed }

theorem visit_visited (fuel : Nat) (tag : τ) (s : σ) (before after : Found μ σ τ)
    (valid : store.valid before.1) (ended : visit graph store fuel tag s before = some after) :
    Visited graph store [s] tag before after := by
  induction fuel generalizing s before after with
  | zero => cases ended
  | succ fuel ih =>
    simp only [visit] at ended
    split at ended
    next already =>
      cases ended
      exact Visited.already valid already
    next fresh =>
      split at ended
      next isLeaf =>
        cases ended
        exact Visited.leaf valid (by simpa using fresh) isLeaf
      next successors isInner =>
        apply Visited.inner valid isInner
        exact visitAll_visited (fun s before after valid => ih s before after valid) successors
          (store.valid_mark _ s valid) ended

/-! ## Termination -/

/-- The unmarked nodes of a list that holds all nodes of interest. -/
def unmarked (store : Marks μ σ) (nodes : List σ) (m : μ) : List σ :=
  nodes.filter fun x => !store.has m x

theorem unmarked_le {m' : μ} (grows : ∀ x, store.has m x = true → store.has m' x = true) :
    (unmarked store nodes m').length ≤ (unmarked store nodes m).length := by
  apply List.Sublist.length_le
  apply List.monotone_filter_right
  intro x fresh
  cases old : store.has m x with
  | false => rfl
  | true => rw [grows x old] at fresh; cases fresh

theorem unmarked_mark (valid : store.valid m) (inNodes : s ∈ nodes) (fresh : store.has m s = false) :
    (unmarked store nodes (store.mark s m)).length < (unmarked store nodes m).length := by
  have smaller : unmarked store nodes (store.mark s m) =
      (unmarked store nodes m).filter fun x => !store.has (store.mark s m) x := by
    rw [unmarked, unmarked, List.filter_filter]
    apply List.filter_congr
    intro x _
    cases marked : store.has (store.mark s m) x with
    | true => simp
    | false => simp [(has_mark_false valid marked).2]
  rw [smaller]
  apply List.length_filter_lt_length_iff_exists.mpr
  refine ⟨s, ?_, ?_⟩
  · rw [unmarked, List.mem_filter]
    exact ⟨inNodes, by simp [fresh]⟩
  · simp [(store.has_mark m s s valid).mpr (Or.inl rfl)]

theorem visitAll_some
    (steps : ∀ s before, s ∈ nodes → store.valid before.1 →
      (unmarked store nodes before.1).length < fuel →
      ∃ after, visit graph store fuel tag s before = some after) (roots : List σ)
    (inNodes : ∀ s ∈ roots, s ∈ nodes) (valid : store.valid before.1)
    (enough : (unmarked store nodes before.1).length < fuel) :
    ∃ after, visitAll (visit graph store fuel tag) roots before = some after := by
  induction roots generalizing before with
  | nil => exact ⟨before, rfl⟩
  | cons s rest ih =>
    obtain ⟨mid, first⟩ := steps s before (inNodes s (by simp)) valid enough
    have one := visit_visited fuel tag s before mid valid first
    have fewer : (unmarked store nodes mid.1).length ≤ (unmarked store nodes before.1).length :=
      unmarked_le one.grows
    obtain ⟨after, others⟩ := ih (fun x inRest => inNodes x (by simp [inRest])) one.valid
      (by omega)
    exact ⟨after, Option.bind_eq_some_iff.mpr ⟨mid, first, others⟩⟩

/-- The fuel is enough when it exceeds the number of nodes not marked yet. -/
theorem visit_some
    (closed : ∀ s ∈ nodes, ∀ successors, graph s = some successors → ∀ x ∈ successors, x ∈ nodes)
    (fuel : Nat) (s : σ) (before : Found μ σ τ) (inNodes : s ∈ nodes) (valid : store.valid before.1)
    (enough : (unmarked store nodes before.1).length < fuel) :
    ∃ after, visit graph store fuel tag s before = some after := by
  induction fuel generalizing s before with
  | zero => omega
  | succ fuel ih =>
    simp only [visit]
    split
    next => exact ⟨before, rfl⟩
    next fresh =>
      split
      next => exact ⟨_, rfl⟩
      next successors isInner =>
        have fewer := unmarked_mark valid inNodes (by simpa using fresh)
        exact visitAll_some (fun s before inNodes valid enough => ih s before inNodes valid enough)
          successors (closed s inNodes successors isInner) (store.valid_mark _ s valid)
          (show (unmarked store nodes (store.mark s before.1)).length < fuel by omega)

/-! ## Roots with growing tags -/

variable (graph store) in
def visitRoots (fuel : Nat) : List (σ × τ) → Found μ σ τ → Option (Found μ σ τ)
  | [], found => some found
  | (s, tag) :: rest, found =>
      (visit graph store fuel tag s found).bind (visitRoots fuel rest)

theorem visitRoots_append (one two : List (σ × τ)) (found : Found μ σ τ) :
    visitRoots graph store fuel (one ++ two) found =
      (visitRoots graph store fuel one found).bind (visitRoots graph store fuel two) := by
  induction one generalizing found with
  | nil => rfl
  | cons root rest ih =>
    obtain ⟨s, tag⟩ := root
    simp only [List.cons_append, visitRoots, Option.bind_assoc]
    congr
    funext mid
    exact ih mid

/-- The leaves `out` lists for `roots`: each with the tag of a root that
reaches it, and for every root that reaches it with a tag at most as great. -/
structure Listed [Preorder τ] (graph : Graph σ) (roots : List (σ × τ)) (out : List (σ × τ)) :
    Prop where
  sound : ∀ x tag, (x, tag) ∈ out → graph x = none ∧ ∃ s, (s, tag) ∈ roots ∧ graph.Reach s x
  least : ∀ s x tag, (s, tag) ∈ roots → graph.Reach s x → graph x = none →
    ∃ tag' ≤ tag, (x, tag') ∈ out
  sorted : out.Pairwise fun a b => a.2 ≤ b.2

/-- The marks are those of a finished search from `roots`. -/
structure Finished (graph : Graph σ) (store : Marks μ σ) (roots : List (σ × τ))
    (found : Found μ σ τ) : Prop where
  valid : store.valid found.1
  rooted : ∀ s tag, (s, tag) ∈ roots → store.has found.1 s = true
  closed : ∀ x y, store.has found.1 x = true → graph.Edge x y → store.has found.1 y = true
  leaves : ∀ x, store.has found.1 x = true → graph x = none → ∃ tag, (x, tag) ∈ found.2

theorem Finished.reach (finished : Finished graph store roots found) {x : σ}
    (marked : store.has found.1 s = true) (reach : graph.Reach s x) :
    store.has found.1 x = true := by
  induction reach with
  | refl => exact marked
  | tail _ edge ih => exact finished.closed _ _ ih edge

theorem Finished.snoc (finished : Finished graph store roots before)
    (visited : Visited graph store [s] tag before after) :
    Finished graph store (roots ++ [(s, tag)]) after where
  valid := visited.valid
  rooted := by
    intro x other inRoots
    cases List.mem_append.mp inRoots with
    | inl old => exact visited.grows x (finished.rooted x other old)
    | inr new =>
      have same := List.mem_singleton.mp new
      cases same
      exact visited.rooted s (by simp)
  closed := by
    intro x y marked edge
    cases old : store.has before.1 x with
    | true => exact visited.grows y (finished.closed x y old edge)
    | false => exact visited.closed x y marked old edge
  leaves := by
    intro x marked isLeaf
    obtain ⟨more, eq, mem⟩ := visited.listed
    rw [eq]
    cases old : store.has before.1 x with
    | true =>
      obtain ⟨other, listed⟩ := finished.leaves x old isLeaf
      exact ⟨other, List.mem_append_left _ listed⟩
    | false =>
      refine ⟨tag, List.mem_append_right _ (List.mem_map.mpr ⟨x, ?_, rfl⟩)⟩
      exact (mem x).mpr ⟨isLeaf, marked, old⟩

theorem Listed.snoc [Preorder τ] (listed : Listed graph roots before.2)
    (finished : Finished graph store roots before)
    (visited : Visited graph store [s] tag before after) (greatest : ∀ r ∈ roots, r.2 ≤ tag) :
    Listed graph (roots ++ [(s, tag)]) after.2 := by
  have finishedAfter := finished.snoc visited
  obtain ⟨more, eq, mem⟩ := visited.listed
  have below : ∀ x other, (x, other) ∈ after.2 → other ≤ tag := by
    intro x other inAfter
    rw [eq] at inAfter
    cases List.mem_append.mp inAfter with
    | inl old =>
      obtain ⟨_, r, inRoots, _⟩ := listed.sound x other old
      exact greatest _ inRoots
    | inr new =>
      obtain ⟨_, _, same⟩ := List.mem_map.mp new
      cases same
      exact le_refl _
  constructor
  · intro x other inAfter
    rw [eq] at inAfter
    cases List.mem_append.mp inAfter with
    | inl old =>
      obtain ⟨isLeaf, r, inRoots, reach⟩ := listed.sound x other old
      exact ⟨isLeaf, r, List.mem_append_left _ inRoots, reach⟩
    | inr new =>
      obtain ⟨y, inMore, same⟩ := List.mem_map.mp new
      cases same
      obtain ⟨isLeaf, marked, fresh⟩ := (mem x).mp inMore
      rcases visited.reached x marked with old | ⟨r, inRoots, reach⟩
      · rw [fresh] at old
        cases old
      · rw [List.mem_singleton.mp inRoots] at reach
        exact ⟨isLeaf, s, by simp, reach⟩
  · intro r x other inRoots reach isLeaf
    cases List.mem_append.mp inRoots with
    | inl old =>
      obtain ⟨least, le, inBefore⟩ := listed.least r x other old reach isLeaf
      exact ⟨least, le, by rw [eq]; exact List.mem_append_left _ inBefore⟩
    | inr new =>
      cases List.mem_singleton.mp new
      have marked := finishedAfter.reach (finishedAfter.rooted s tag (by simp)) reach
      obtain ⟨found, inAfter⟩ := finishedAfter.leaves x marked isLeaf
      exact ⟨found, below x found inAfter, inAfter⟩
  · rw [eq, List.pairwise_append]
    refine ⟨listed.sorted, ?_, ?_⟩
    · rw [List.pairwise_map]
      exact List.pairwise_of_forall fun _ _ => le_refl _
    · intro a inBefore b inMore
      obtain ⟨_, _, rfl⟩ := List.mem_map.mp inMore
      exact below a.1 a.2 (by rw [eq]; exact List.mem_append_left _ inBefore)

theorem visitRoots_from [Preorder τ] (roots done : List (σ × τ))
    (ended : visitRoots graph store fuel roots before = some after)
    (finished : Finished graph store done before) (listed : Listed graph done before.2)
    (sorted : (done ++ roots).Pairwise fun a b => a.2 ≤ b.2) :
    Finished graph store (done ++ roots) after ∧ Listed graph (done ++ roots) after.2 := by
  induction roots generalizing done before with
  | nil =>
    cases ended
    rw [List.append_nil]
    exact ⟨finished, listed⟩
  | cons root rest ih =>
    obtain ⟨s, tag⟩ := root
    obtain ⟨mid, first, others⟩ := Option.bind_eq_some_iff.mp ended
    have visited := visit_visited fuel tag s before mid finished.valid first
    have greatest : ∀ r ∈ done, r.2 ≤ tag := by
      intro r inDone
      exact (List.pairwise_append.mp sorted).2.2 r inDone (s, tag) (by simp)
    have assoc : done ++ (s, tag) :: rest = done ++ [(s, tag)] ++ rest := by simp
    rw [assoc] at sorted ⊢
    exact ih (done ++ [(s, tag)]) others (finished.snoc visited)
      (listed.snoc finished visited greatest) sorted

/-- A search from roots with growing tags, with nothing marked at first. -/
theorem visitRoots_listed [Preorder τ] (roots : List (σ × τ))
    (ended : visitRoots graph store fuel roots (m, []) = some after) (valid : store.valid m)
    (fresh : ∀ x, store.has m x = false) (sorted : roots.Pairwise fun a b => a.2 ≤ b.2) :
    store.valid after.1 ∧ Listed graph roots after.2 := by
  have finished : Finished graph store ([] : List (σ × τ)) (m, []) := by
    refine ⟨valid, ?_, ?_, ?_⟩
    · intro s tag inNil
      cases inNil
    · intro x y marked
      rw [fresh x] at marked
      cases marked
    · intro x marked
      rw [fresh x] at marked
      cases marked
  have listed : Listed graph ([] : List (σ × τ)) ([] : List (σ × τ)) := by
    refine ⟨?_, ?_, List.Pairwise.nil⟩
    · intro x tag inNil
      cases inNil
    · intro s x tag inNil
      cases inNil
  have result := visitRoots_from roots [] ended finished listed sorted
  exact ⟨result.1.valid, result.2⟩

theorem visitRoots_valid (roots : List (σ × τ))
    (ended : visitRoots graph store fuel roots before = some after) (valid : store.valid before.1) :
    store.valid after.1 := by
  induction roots generalizing before with
  | nil =>
    cases ended
    exact valid
  | cons root rest ih =>
    obtain ⟨s, tag⟩ := root
    obtain ⟨mid, first, others⟩ := Option.bind_eq_some_iff.mp ended
    exact ih others (visit_visited fuel tag s before mid valid first).valid

theorem visitRoots_some (nodes : List σ)
    (closed : ∀ s ∈ nodes, ∀ successors, graph s = some successors → ∀ x ∈ successors, x ∈ nodes)
    (roots : List (σ × τ)) (inNodes : ∀ r ∈ roots, r.1 ∈ nodes) (before : Found μ σ τ)
    (valid : store.valid before.1) (enough : nodes.length < fuel) :
    ∃ after, visitRoots graph store fuel roots before = some after := by
  induction roots generalizing before with
  | nil => exact ⟨before, rfl⟩
  | cons root rest ih =>
    obtain ⟨s, tag⟩ := root
    have few : (unmarked store nodes before.1).length ≤ nodes.length := List.length_filter_le _ _
    obtain ⟨mid, first⟩ : ∃ mid, visit graph store fuel tag s before = some mid :=
      visit_some closed fuel s before (inNodes (s, tag) (by simp)) valid (by omega)
    have visited := visit_visited fuel tag s before mid valid first
    obtain ⟨after, others⟩ := ih (fun r inRest => inNodes r (by simp [inRest])) mid visited.valid
    exact ⟨after, Option.bind_eq_some_iff.mpr ⟨mid, first, others⟩⟩

/-! ## Other marks -/

theorem rel_bind {α β γ δ : Type} {r : α → β → Prop} {q : γ → δ → Prop} {a : Option α}
    {b : Option β} {f : α → Option γ} {g : β → Option δ} (rel : Option.Rel r a b)
    (step : ∀ x y, r x y → Option.Rel q (f x) (g y)) : Option.Rel q (a.bind f) (b.bind g) := by
  cases rel with
  | none => exact Option.Rel.none
  | some rel => exact step _ _ rel

section

variable {μ' : Type}

/-- The searches have marked the same nodes and listed the same leaves. -/
structure Agree (store : Marks μ σ) (store' : Marks μ' σ) (found : Found μ σ τ)
    (found' : Found μ' σ τ) : Prop where
  valid : store.valid found.1
  valid' : store'.valid found'.1
  same : ∀ x, store.has found.1 x = store'.has found'.1 x
  listed : found.2 = found'.2

variable {store' : Marks μ' σ}

variable {found' : Found μ' σ τ}

theorem Agree.mark (agree : Agree store store' found found') (s : σ) (more : List (σ × τ)) :
    Agree store store' (store.mark s found.1, found.2 ++ more)
      (store'.mark s found'.1, found'.2 ++ more) where
  valid := store.valid_mark found.1 s agree.valid
  valid' := store'.valid_mark found'.1 s agree.valid'
  same := by
    intro x
    rw [Bool.eq_iff_iff, store.has_mark found.1 s x agree.valid,
      store'.has_mark found'.1 s x agree.valid', agree.same x]
  listed := by rw [agree.listed]

abbrev AgreeOption (store : Marks μ σ) (store' : Marks μ' σ) :
    Option (Found μ σ τ) → Option (Found μ' σ τ) → Prop :=
  Option.Rel (Agree store store')

theorem visitAll_agree {step : σ → Found μ σ τ → Option (Found μ σ τ)}
    {step' : σ → Found μ' σ τ → Option (Found μ' σ τ)}
    (steps : ∀ s f f', Agree store store' f f' → AgreeOption store store' (step s f) (step' s f'))
    (roots : List σ) (agree : Agree store store' found found') :
    AgreeOption store store' (visitAll step roots found) (visitAll step' roots found') := by
  induction roots generalizing found found' with
  | nil => exact Option.Rel.some agree
  | cons s rest ih =>
    apply rel_bind (steps s found found' agree)
    intro f f' agree'
    exact ih agree'

/-- What a search lists depends on which nodes are marked, not on the marks. -/
theorem visit_agree (fuel : Nat) (tag : τ) (s : σ) (agree : Agree store store' found found') :
    AgreeOption store store' (visit graph store fuel tag s found)
      (visit graph store' fuel tag s found') := by
  induction fuel generalizing s found found' with
  | zero => exact Option.Rel.none
  | succ fuel ih =>
    simp only [visit, agree.same s]
    split
    next => exact Option.Rel.some agree
    next =>
      split
      next => exact Option.Rel.some (agree.mark s [(s, tag)])
      next successors _ =>
        apply visitAll_agree
        · intro x f f' agree'
          exact ih x agree'
        · have marked := agree.mark s []
          rwa [List.append_nil, List.append_nil] at marked

theorem visitRoots_agree (fuel : Nat) (roots : List (σ × τ))
    (agree : Agree store store' found found') :
    AgreeOption store store' (visitRoots graph store fuel roots found)
      (visitRoots graph store' fuel roots found') := by
  induction roots generalizing found found' with
  | nil => exact Option.Rel.some agree
  | cons root rest ih =>
    apply rel_bind (visit_agree fuel root.2 root.1 agree)
    intro f f' agree'
    exact ih agree'

end

end Aholyc.Lib.Closure
