import Mathlib.Data.List.TakeWhile
import StackFlow.Proofs.Frontier
import StackFlow.Proofs.Loop

/-!
# The loops that find the dominator tree

Every loop of the computation is given a bound.  Here the loops run without one (`Ends`), and each
comes to an end at what the bounded one returns.

All rests on one invariant: between any two steps, a node of the tree other than the root has a
smaller number than its parent.  So the fingers and the walks towards the root rise with every turn.
A step moves a parent to a greater number or not at all, so only finitely many passes change the
tree.
-/

namespace StackFlow

variable {n : Nat} {ν ε : Type}

namespace Parents

variable {parents : Parents n} {root : Fin n} {order : List (Fin n)} {number : Fin n → Nat}

/-! ## Two fingers -/

def Rises (parents : Parents n) (root : Fin n) (number : Fin n → Nat) (bound : Nat) :
    Fin n → Fin n → Prop :=
  Ends (fun node => number node < bound) fun node next => next = parents.up root node

def Meets (parents : Parents n) (root : Fin n) (number : Fin n → Nat) :
    Fin n × Fin n → Fin n × Fin n → Prop :=
  Ends (fun fingers => fingers.1 ≠ fingers.2) fun fingers next =>
    parents.Rises root number (number fingers.2) fingers.1 next.1 ∧
      parents.Rises root number (number next.1) fingers.2 next.2

theorem Rises.iff_eq {bound : Nat} {node last other : Fin n}
    (rises : parents.Rises root number bound node last) :
    parents.Rises root number bound node other ↔ other = last :=
  Ends.iff_eq (fun _ _ _ next other => next.trans other.symm) rises

theorem Meets.iff_eq {fingers last other : Fin n × Fin n}
    (meets : parents.Meets root number fingers last) :
    parents.Meets root number fingers other ↔ other = last := by
  refine Ends.iff_eq ?_ meets
  rintro fingers ⟨first, second⟩ ⟨other, another⟩ ⟨left, right⟩ ⟨left', right'⟩
  obtain rfl := left'.iff_eq.1 left
  obtain rfl := right'.iff_eq.1 right
  rfl

section Fingers

variable (numbering : Numbering root order number) (tree : IsTree root order number parents)

include numbering tree

theorem exists_rises {node other : Fin n} (holds : parents.Holds node)
    (hother : parents.Holds other) :
    ∃ last, parents.Rises root number (number other) node last ∧ parents.Holds last ∧
      number node ≤ number last ∧ number other ≤ number last ∧
      ∀ ancestor, number other ≤ number ancestor →
        (parents.Climbs last ancestor ↔ parents.Climbs node ancestor) := by
  induction gap : number other - number node using Nat.strong_induction_on generalizing node with
  | _ gap ih =>
      by_cases lt : number node < number other
      · have ne : node ≠ root :=
          IsTree.ne_root_of_number_lt numbering (tree.holds_mem other hother) lt
        have get := IsTree.get_up root holds
        have up := tree.rises _ _ ne get
        obtain ⟨last, rises, hlast, above, enough, same⟩ :=
          ih (number other - number (parents.up root node)) (by omega)
            (tree.holds_parent _ _ get) rfl
        refine ⟨last, .turn lt rfl rises, hlast, by omega, enough, fun ancestor high => ?_⟩
        exact (same ancestor high).trans
          (IsTree.climbs_up_iff root holds (Nat.lt_of_lt_of_le lt high))
      · exact ⟨node, .stop lt, holds, Nat.le_refl _, Nat.not_lt.1 lt, fun _ _ => Iff.rfl⟩

theorem exists_meets {first second : Fin n} (hfirst : parents.Holds first)
    (hsecond : parents.Holds second) :
    ∃ common, parents.Meets root number (first, second) (common, common) ∧
      parents.Holds common ∧ ∀ ancestor, parents.Climbs common ancestor ↔
        parents.Climbs first ancestor ∧ parents.Climbs second ancestor := by
  induction gap : 2 * n - (number first + number second) using Nat.strong_induction_on
    generalizing first second with
  | _ gap ih =>
      by_cases same : first = second
      · subst same
        exact ⟨first, .stop (not_not.2 rfl), hfirst, fun ancestor => (and_self_iff).symm⟩
      · have apart : number first ≠ number second := fun heq =>
          same (numbering.inj _ (tree.holds_mem _ hfirst) _ (tree.holds_mem _ hsecond) heq)
        obtain ⟨left, rises, hleft, above, past, agree⟩ :=
          exists_rises numbering tree hfirst hsecond
        obtain ⟨right, rises', hright, above', past', agree'⟩ :=
          exists_rises numbering tree hsecond hleft
        have bound := numbering.lt left (tree.holds_mem left hleft)
        have bound' := numbering.lt right (tree.holds_mem right hright)
        obtain ⟨common, meets, holds, climbs⟩ :=
          ih (2 * n - (number left + number right)) (by omega) hleft hright rfl
        refine ⟨common, .turn same ⟨rises, rises'⟩ meets, holds, fun ancestor => ?_⟩
        -- a common ancestor stands above both fingers wherever they are
        rw [climbs]
        constructor
        · rintro ⟨hl, hr⟩
          have high := tree.number_le_of_climbs hl
          exact ⟨(agree ancestor (by omega)).1 hl, (agree' ancestor high).1 hr⟩
        · rintro ⟨hf, hs⟩
          have hl := (agree ancestor (tree.number_le_of_climbs hs)).2 hf
          exact ⟨hl, (agree' ancestor (tree.number_le_of_climbs hl)).2 hs⟩

theorem meets_ancestor {first second : Fin n} (hfirst : parents.Holds first)
    (hsecond : parents.Holds second) :
    parents.Meets root number (first, second)
      (parents.ancestor root number first second, parents.ancestor root number first second) := by
  obtain ⟨common, meets, -, climbs⟩ := exists_meets numbering tree hfirst hsecond
  obtain ⟨-, climbs'⟩ := ancestor_spec numbering tree hfirst hsecond
  have same : parents.ancestor root number first second = common := tree.climbs_antisymm
    ((climbs _).2 ((climbs' _).1 (.refl _))) ((climbs' _).2 ((climbs _).1 (.refl _)))
  rw [same]
  exact meets

end Fingers

/-! ## Walks towards the root -/

/-- A walk lists the nodes that it comes to while the test holds of them, and it ends behind a node
that is its own parent. -/
def Walks (parents : Parents n) (test : Fin n → Bool) :
    List (Fin n) × Option (Fin n) → List (Fin n) × Option (Fin n) → Prop :=
  Ends (fun walk => ∃ node, walk.2 = some node ∧ test node = true) fun walk next =>
    ∃ node, walk.2 = some node ∧
      next = (walk.1 ++ [node], (parents.get node).filter fun parent => parent ≠ node)

namespace Walks

variable {test : Fin n → Bool} {node parent : Fin n} {listed : List (Fin n)}
  {walk last other : List (Fin n) × Option (Fin n)}

theorem iff_eq (walks : parents.Walks test walk last) :
    parents.Walks test walk other ↔ other = last := by
  refine Ends.iff_eq ?_ walks
  rintro walk next other ⟨node, found, rfl⟩ ⟨node', found', rfl⟩
  obtain rfl := Option.some.inj (found.symm.trans found')
  rfl

theorem halt (fails : test node = false) :
    parents.Walks test (listed, some node) (listed, some node) :=
  .stop (by simpa using fails)

theorem top (goesOn : test node = true) (get : parents.get node = some node) :
    parents.Walks test (listed, some node) (listed ++ [node], none) :=
  .turn ⟨node, rfl, goesOn⟩ ⟨node, rfl, by simp [get, Option.filter]⟩ (.stop (by simp))

theorem up (goesOn : test node = true) (get : parents.get node = some parent)
    (moves : parent ≠ node) (rest : parents.Walks test (listed ++ [node], some parent) last) :
    parents.Walks test (listed, some node) last :=
  .turn ⟨node, rfl, goesOn⟩ ⟨node, rfl, by simp [get, Option.filter, moves]⟩ rest

end Walks

theorem exists_walks (numbering : Numbering root order number)
    (tree : IsTree root order number parents) (test : Fin n → Bool) (steps : Nat) (node : Fin n)
    (listed : List (Fin n)) (enough : n ≤ steps + number node) (holds : parents.Holds node) :
    ∃ rest, parents.Walks test (listed, some node)
      (listed ++ (parents.climb steps node).takeWhile test, rest) := by
  induction steps generalizing node listed with
  | zero =>
      have lt := numbering.lt node (tree.holds_mem node holds)
      omega
  | succ steps ih =>
      obtain ⟨parent, get⟩ := holds.exists_get
      cases goesOn : test node with
      | false =>
          refine ⟨some node, ?_⟩
          simpa [climb, get, goesOn] using Walks.halt goesOn
      | true =>
          rcases tree.climb_cases get steps with ⟨rfl, walk⟩ | ⟨-, rises, walk⟩
          · refine ⟨none, ?_⟩
            simpa [walk, goesOn] using Walks.top goesOn tree.root_get
          · have moves : parent ≠ node := by
              rintro rfl
              omega
            obtain ⟨rest, walks⟩ :=
              ih parent (listed ++ [node]) (by omega) (tree.holds_parent _ _ get)
            refine ⟨rest, .up goesOn get moves ?_⟩
            simpa [walk, goesOn] using walks

theorem exists_walks_chain (numbering : Numbering root order number)
    (tree : IsTree root order number parents) (node : Fin n) :
    ∃ rest, parents.Walks (fun node => (parents.get node).isSome) ([], some node)
      (parents.chain node, rest) := by
  by_cases holds : parents.Holds node
  · obtain ⟨rest, walks⟩ := exists_walks numbering tree (fun node => (parents.get node).isSome) n
      node [] (by omega) holds
    have all : (parents.climb n node).takeWhile (fun node => (parents.get node).isSome) =
        parents.chain node := by
      refine List.takeWhile_eq_self_iff.2 fun ancestor member => ?_
      exact tree.holds_of_climbs ((mem_chain_iff numbering tree).1 member).2 holds
    rw [List.nil_append, all] at walks
    exact ⟨rest, walks⟩
  · have absent : (parents.get node).isSome = false := by simpa [Holds] using holds
    have none : parents.chain node = [] := by
      refine List.eq_nil_iff_forall_not_mem.2 fun ancestor member => holds ?_
      exact ((mem_chain_iff numbering tree).1 member).1
    rw [none]
    exact ⟨some node, .halt absent⟩

/-! ## Steps and passes -/

inductive Advances (pred : Fin n → List (Fin n)) (root : Fin n) (number : Fin n → Nat)
    (all : List (Fin n)) : List (Fin n) × Parents n → List (Fin n) × Parents n → Prop where
  | take (node : Fin n) (rest : List (Fin n)) (parents : Parents n) :
      Advances pred root number all (node :: rest, parents)
        (rest, improve pred root number parents node)
  | again (parents : Parents n) : Advances pred root number all ([], parents) (all, parents)

def OnlyRise (number : Fin n → Nat) (before after : Parents n) : Prop :=
  ∀ node old, before.get node = some old →
    ∃ new, after.get node = some new ∧ number old ≤ number new

theorem OnlyRise.refl (number : Fin n → Nat) (parents : Parents n) :
    OnlyRise number parents parents :=
  fun _ old get => ⟨old, get, Nat.le_refl _⟩

theorem OnlyRise.trans {first second third : Parents n} (start : OnlyRise number first second)
    (rest : OnlyRise number second third) : OnlyRise number first third := by
  intro node old get
  obtain ⟨new, hnew, le⟩ := start node old get
  obtain ⟨last, hlast, le'⟩ := rest node new hnew
  exact ⟨last, hlast, Nat.le_trans le le'⟩

def markedImprove (pred : Fin n → List (Fin n)) (root : Fin n) (number : Fin n → Nat)
    (marked : Parents n × Bool) (node : Fin n) : Parents n × Bool :=
  let next := improve pred root number marked.1 node
  (next, marked.2 || decide (next ≠ marked.1))

/-- Passes are made while the mark is set, and each begins with the mark cleared. -/
def Settles (pred : Fin n → List (Fin n)) (root : Fin n) (number : Fin n → Nat)
    (all : List (Fin n)) : Parents n × Bool → Parents n × Bool → Prop :=
  Ends (fun marked => marked.2 = true) fun marked next =>
    next = all.foldl (markedImprove pred root number) (marked.1, false)

section Iteration

variable {succ pred : Fin n → List (Fin n)} {guide : Fin n → Fin n}
  {pending rest all : List (Fin n)} (guided : Guided succ pred root order number guide)

include guided

theorem onlyRise_improve {node : Fin n} (hpending : Pending root order number (node :: rest))
    (sound : Sound succ pred root order number guide (node :: rest) parents) :
    OnlyRise number parents (improve pred root number parents node) := by
  have ne := hpending.ne_root node List.mem_cons_self
  obtain ⟨parent, common, improved⟩ := improve_eq_relink guided sound.toIsTree
    (hpending.mem node List.mem_cons_self) ne (holds_guide guided hpending sound)
  intro other old get
  rw [improved, get_relink]
  split
  · next heq =>
      subst heq
      refine ⟨parent, rfl, ?_⟩
      by_cases same : old = parent
      · rw [same]
      · exact Nat.le_of_lt (number_lt_common ne sound common get same)
  · exact ⟨old, get, Nat.le_refl _⟩

theorem foldl_markedImprove (hpending : Pending root order number pending)
    (sound : Sound succ pred root order number guide pending parents) (mark : Bool) :
    pending.foldl (markedImprove pred root number) (parents, mark) =
      (pass pred root number pending parents,
        mark || decide (pass pred root number pending parents ≠ parents)) := by
  induction pending generalizing parents mark with
  | nil => simp [pass]
  | cons node rest ih =>
      obtain ⟨next, change⟩ := improve_spec guided hpending sound
      have later := (pass_spec guided hpending.tail next).2
      have split : pass pred root number (node :: rest) parents =
          pass pred root number rest (improve pred root number parents node) := rfl
      rw [List.foldl_cons, markedImprove, ih hpending.tail next, split]
      rcases change with same | grown
      · simp [same]
      · -- a tree that has grown does not come back
        have moved : improve pred root number parents node ≠ parents := by
          intro same
          exact Nat.lt_irrefl _ (same ▸ grown)
        have last : pass pred root number rest (improve pred root number parents node) ≠
            parents := by
          rcases later with ⟨-, unchanged⟩ | more
          · rwa [unchanged]
          · intro same
            rw [same] at more
            exact Nat.lt_asymm grown more
        simp [moved, last]

theorem settles_settle (hpending : Pending root order number all) (passes : Nat)
    (sound : Sound succ pred root order number guide all parents)
    (enough : n * n < passes + potential number parents) :
    Settles pred root number all (parents, true)
      (settle (pass pred root number all) passes parents, false) := by
  induction passes generalizing parents with
  | zero =>
      have le := potential_le guided.toNumbering sound.toIsTree
      omega
  | succ passes ih =>
      obtain ⟨next, change⟩ := pass_spec guided hpending sound
      have taken := foldl_markedImprove guided hpending sound false
      by_cases same : pass pred root number all parents = parents
      · simp only [same, ne_eq, not_true_eq_false, decide_false, Bool.or_self] at taken
        simp only [settle, same, if_true]
        exact .turn rfl taken.symm (.stop (by simp))
      · have grown := change.resolve_left fun unchanged => same unchanged.2
        simp only [ne_eq, same, not_false_eq_true, decide_true, Bool.false_or] at taken
        simp only [settle, same, if_false]
        exact .turn rfl taken.symm (ih next.of_nil (by omega))

theorem Advances.sound {before after : List (Fin n) × Parents n}
    (hall : Pending root order number all) (advances : Advances pred root number all before after)
    (hpending : Pending root order number before.1)
    (sound : Sound succ pred root order number guide before.1 before.2) :
    Pending root order number after.1 ∧
      Sound succ pred root order number guide after.1 after.2 ∧
      OnlyRise number before.2 after.2 := by
  cases advances with
  | take node rest parents =>
      exact ⟨hpending.tail, (improve_spec guided hpending sound).1,
        onlyRise_improve guided hpending sound⟩
  | again parents => exact ⟨hall, sound.of_nil, .refl number parents⟩

theorem sound_of_advances {before after : List (Fin n) × Parents n}
    (hall : Pending root order number all)
    (run : Relation.ReflTransGen (Advances pred root number all) before after)
    (hpending : Pending root order number before.1)
    (sound : Sound succ pred root order number guide before.1 before.2) :
    Pending root order number after.1 ∧
      Sound succ pred root order number guide after.1 after.2 ∧
      OnlyRise number before.2 after.2 := by
  induction run with
  | refl => exact ⟨hpending, sound, .refl number _⟩
  | tail _ advances ih =>
      obtain ⟨hmiddle, middle, rise⟩ := ih
      obtain ⟨hlast, last, rise'⟩ := advances.sound guided hall hmiddle middle
      exact ⟨hlast, last, rise.trans rise'⟩

end Iteration

/-- The loops over a tree come to an end: those of the two fingers, the walk along a chain, and the
walks from the predecessors of a node up to its parent. -/
structure LoopsEnd (pred : Fin n → List (Fin n)) (root : Fin n) (number : Fin n → Nat)
    (parents : Parents n) : Prop where
  finger : ∀ first second, parents.Holds first → parents.Holds second →
    ∃ last, ∀ other, parents.Rises root number (number second) first other ↔ other = last
  fingers : ∀ first second, parents.Holds first → parents.Holds second →
    parents.Holds (parents.ancestor root number first second) ∧
      ∀ last, parents.Meets root number (first, second) last ↔
        last = (parents.ancestor root number first second,
          parents.ancestor root number first second)
  chain : ∀ node, ∃ rest, ∀ last,
    parents.Walks (fun node => (parents.get node).isSome) ([], some node) last ↔
      last = (parents.chain node, rest)
  runner : ∀ node parent previous, parents.get node = some parent → previous ∈ pred node →
    parents.Holds previous → ∃ rest, ∀ last,
      parents.Walks (fun runner => runner ≠ parent) ([], some previous) last ↔
        last = ((parents.chain previous).takeWhile (fun runner => runner ≠ parent), rest)

theorem IsTree.loopsEnd (numbering : Numbering root order number)
    (tree : IsTree root order number parents) (pred : Fin n → List (Fin n)) :
    LoopsEnd pred root number parents where
  finger := by
    intro first second hfirst hsecond
    obtain ⟨last, rises, -⟩ := exists_rises numbering tree hfirst hsecond
    exact ⟨last, fun other => rises.iff_eq⟩
  fingers := fun first second hfirst hsecond =>
    ⟨(ancestor_spec numbering tree hfirst hsecond).1,
      fun last => (meets_ancestor numbering tree hfirst hsecond).iff_eq⟩
  chain := by
    intro node
    obtain ⟨rest, walks⟩ := exists_walks_chain numbering tree node
    exact ⟨rest, fun last => walks.iff_eq⟩
  runner := by
    intro node parent previous _ _ holds
    obtain ⟨rest, walks⟩ := exists_walks numbering tree (fun runner => runner ≠ parent) n previous
      [] (by omega) holds
    exact ⟨rest, fun last => walks.iff_eq⟩

end Parents

def Digraph.Proceeds (graph : Digraph n ν ε) (root : Fin n) :
    List (Fin n) × Parents n → List (Fin n) × Parents n → Prop :=
  Relation.ReflTransGen
    (Parents.Advances graph.pred root (postorder graph.succ root).idxOf (graph.passOrder root))

/-- At every stage of the iteration numbers grow from a node to its parent, the loops over the tree
end, and no later step takes a parent back.  And the iteration itself ends, with the tree that is
computed. -/
theorem Digraph.dominator_iteration_ends (graph : Digraph n ν ε) (root : Fin n) :
    (∀ pending parents,
      graph.Proceeds root (graph.passOrder root, .start root) (pending, parents) →
      (∀ node parent, node ≠ root → parents.get node = some parent →
        (postorder graph.succ root).idxOf node < (postorder graph.succ root).idxOf parent) ∧
      Parents.LoopsEnd graph.pred root (postorder graph.succ root).idxOf parents ∧
      ∀ later after, graph.Proceeds root (pending, parents) (later, after) →
        Parents.OnlyRise (postorder graph.succ root).idxOf parents after) ∧
    ∀ last,
      Parents.Settles graph.pred root (postorder graph.succ root).idxOf (graph.passOrder root)
        (.start root, true) last ↔ last = (graph.dominatorParents root, false) := by
  obtain ⟨guide, guided, start⟩ := graph.exists_guided_start root
  have all := graph.pending_passOrder root
  constructor
  · intro pending parents run
    obtain ⟨hpending, sound, -⟩ := Parents.sound_of_advances guided all run all start
    refine ⟨sound.rises, sound.loopsEnd guided.toNumbering graph.pred, fun later after more => ?_⟩
    exact (Parents.sound_of_advances guided all more hpending sound).2.2
  · intro last
    rw [dominatorParents_eq]
    exact Ends.iff_eq (fun _ _ _ next other => next.trans other.symm)
      (Parents.settles_settle guided all (n * n + 1) start (by omega))

end StackFlow
