import Mathlib.Data.Nat.Basic
import Mathlib.Logic.Relation
import Mathlib.Tactic.SplitIfs
import StackFlow.Dominance.Frontier

/-!
# Climbing in a tree of parents

The parents form a tree when numbers grow on the way up, as the numbers of a post-order do.  Then
the two fingers of `Parents.meet` and the walk of `Parents.climb` end within the steps they are
given: the fingers at a node above which stand the common ancestors and no others, the walk at the
root.
-/

namespace StackFlow

variable {n : Nat}

/-- Different numbers below `n` for the listed nodes, the greatest for the root. -/
structure Numbering (root : Fin n) (order : List (Fin n)) (number : Fin n → Nat) : Prop where
  lt : ∀ node ∈ order, number node < n
  inj : ∀ first ∈ order, ∀ second ∈ order, number first = number second → first = second
  root_mem : root ∈ order
  lt_root : ∀ node ∈ order, node ≠ root → number node < number root

namespace Parents

variable {parents : Parents n} {root : Fin n} {order : List (Fin n)} {number : Fin n → Nat}

def Holds (parents : Parents n) (node : Fin n) : Prop :=
  (parents.get node).isSome = true

def Climbs (parents : Parents n) : Fin n → Fin n → Prop :=
  Relation.ReflTransGen fun node parent => parents.get node = some parent

theorem Holds.of_get {node parent : Fin n} (get : parents.get node = some parent) :
    parents.Holds node := by
  rw [Holds, get]
  rfl

theorem Holds.exists_get {node : Fin n} (holds : parents.Holds node) :
    ∃ parent, parents.get node = some parent :=
  Option.isSome_iff_exists.1 holds

structure IsTree (root : Fin n) (order : List (Fin n)) (number : Fin n → Nat)
    (parents : Parents n) : Prop where
  root_get : parents.get root = some root
  holds_mem : ∀ node, parents.Holds node → node ∈ order
  holds_parent : ∀ node parent, parents.get node = some parent → parents.Holds parent
  rises : ∀ node parent, node ≠ root → parents.get node = some parent →
    number node < number parent

namespace Climbs

variable {node ancestor : Fin n}

theorem refl (node : Fin n) : parents.Climbs node node :=
  Relation.ReflTransGen.refl

theorem trans {middle : Fin n} (first : parents.Climbs node middle)
    (second : parents.Climbs middle ancestor) : parents.Climbs node ancestor :=
  Relation.ReflTransGen.trans first second

theorem head {parent : Fin n} (get : parents.get node = some parent)
    (rest : parents.Climbs parent ancestor) : parents.Climbs node ancestor :=
  Relation.ReflTransGen.head get rest

theorem cases_get {parent : Fin n} (climbs : parents.Climbs node ancestor)
    (get : parents.get node = some parent) :
    ancestor = node ∨ parents.Climbs parent ancestor := by
  rcases Relation.ReflTransGen.cases_head climbs with rfl | ⟨middle, step, rest⟩
  · exact .inl rfl
  · rw [get, Option.some.injEq] at step
    exact .inr (step ▸ rest)

theorem iff_of_get {parent : Fin n} (get : parents.get node = some parent) :
    parents.Climbs node ancestor ↔ ancestor = node ∨ parents.Climbs parent ancestor := by
  refine ⟨fun climbs => climbs.cases_get get, ?_⟩
  rintro (rfl | climbs)
  · exact .refl ancestor
  · exact .head get climbs

theorem total {other : Fin n} (first : parents.Climbs node ancestor)
    (second : parents.Climbs node other) :
    parents.Climbs ancestor other ∨ parents.Climbs other ancestor := by
  refine Relation.ReflTransGen.total_of_right_unique ?_ first second
  intro start up up' get get'
  exact Option.some.inj (get.symm.trans get')

theorem eq_of_not_holds (climbs : parents.Climbs node ancestor) (absent : ¬ parents.Holds node) :
    ancestor = node := by
  rcases Relation.ReflTransGen.cases_head climbs with rfl | ⟨middle, step, rest⟩
  · rfl
  · exact absurd (Holds.of_get step) absent

end Climbs

namespace IsTree

variable {node ancestor : Fin n}

theorem root_holds (tree : IsTree root order number parents) : parents.Holds root :=
  .of_get tree.root_get

theorem holds_of_climbs (tree : IsTree root order number parents)
    (climbs : parents.Climbs node ancestor) (holds : parents.Holds node) :
    parents.Holds ancestor := by
  induction climbs using Relation.ReflTransGen.head_induction_on with
  | refl => exact holds
  | head step rest ih => exact ih (tree.holds_parent _ _ step)

theorem eq_root_of_climbs (tree : IsTree root order number parents)
    (climbs : parents.Climbs root ancestor) : ancestor = root := by
  induction climbs with
  | refl => rfl
  | tail rest step ih =>
      rw [ih, tree.root_get, Option.some.injEq] at step
      exact step.symm

theorem number_lt_of_climbs (tree : IsTree root order number parents)
    (climbs : parents.Climbs node ancestor) (ne : ancestor ≠ node) :
    number node < number ancestor := by
  induction climbs using Relation.ReflTransGen.head_induction_on with
  | refl => exact absurd rfl ne
  | @head node parent step rest ih =>
      by_cases hroot : node = root
      · subst hroot
        exact absurd (tree.eq_root_of_climbs (.head step rest)) ne
      · have up := tree.rises node parent hroot step
        by_cases hparent : ancestor = parent
        · exact hparent ▸ up
        · exact Nat.lt_trans up (ih hparent)

theorem number_le_of_climbs (tree : IsTree root order number parents)
    (climbs : parents.Climbs node ancestor) : number node ≤ number ancestor := by
  by_cases ne : ancestor = node
  · rw [ne]
  · exact Nat.le_of_lt (tree.number_lt_of_climbs climbs ne)

theorem get_up (root : Fin n) (holds : parents.Holds node) :
    parents.get node = some (parents.up root node) := by
  obtain ⟨parent, get⟩ := holds.exists_get
  rw [up, get, Option.getD_some]

theorem climbs_up_iff (root : Fin n) (holds : parents.Holds node)
    (lt : number node < number ancestor) :
    parents.Climbs (parents.up root node) ancestor ↔ parents.Climbs node ancestor := by
  have get : parents.get node = some (parents.up root node) := get_up root holds
  constructor
  · exact .head get
  · intro climbs
    rcases climbs.cases_get get with rfl | rest
    · exact absurd lt (Nat.lt_irrefl _)
    · exact rest

theorem ne_root_of_number_lt (numbering : Numbering root order number) {other : Fin n}
    (member : other ∈ order) (lt : number node < number other) : node ≠ root := by
  rintro rfl
  by_cases hroot : other = node
  · exact absurd (hroot ▸ lt) (Nat.lt_irrefl _)
  · exact absurd lt (Nat.lt_asymm (numbering.lt_root other member hroot))

end IsTree

/-! ## Common ancestors -/

theorem meet_spec (numbering : Numbering root order number)
    (tree : IsTree root order number parents) (steps : Nat) (first second : Fin n)
    (hfirst : parents.Holds first) (hsecond : parents.Holds second)
    (enough : 2 * n ≤ steps + number first + number second) :
    parents.Holds (parents.meet root number steps first second) ∧
      ∀ ancestor, parents.Climbs (parents.meet root number steps first second) ancestor ↔
        parents.Climbs first ancestor ∧ parents.Climbs second ancestor := by
  induction steps generalizing first second with
  | zero =>
      have := numbering.lt first (tree.holds_mem first hfirst)
      have := numbering.lt second (tree.holds_mem second hsecond)
      omega
  | succ steps ih =>
      rw [meet]
      split_ifs with heq hlt
      · subst heq
        exact ⟨hfirst, fun ancestor => (and_self_iff).symm⟩
      · have ne : first ≠ root :=
          IsTree.ne_root_of_number_lt numbering (tree.holds_mem second hsecond) hlt
        have get := IsTree.get_up root hfirst
        have up := tree.rises _ _ ne get
        obtain ⟨holds, above⟩ :=
          ih (parents.up root first) second (tree.holds_parent _ _ get) hsecond (by omega)
        refine ⟨holds, fun ancestor => (above ancestor).trans (and_congr_left fun climbs => ?_)⟩
        exact IsTree.climbs_up_iff root hfirst
          (Nat.lt_of_lt_of_le hlt (tree.number_le_of_climbs climbs))
      · have hgt : number second < number first := by
          refine lt_of_le_of_ne (not_lt.1 hlt) fun h => heq ?_
          exact numbering.inj _ (tree.holds_mem first hfirst) _ (tree.holds_mem second hsecond)
            h.symm
        have ne : second ≠ root :=
          IsTree.ne_root_of_number_lt numbering (tree.holds_mem first hfirst) hgt
        have get := IsTree.get_up root hsecond
        have up := tree.rises _ _ ne get
        obtain ⟨holds, above⟩ :=
          ih first (parents.up root second) hfirst (tree.holds_parent _ _ get) (by omega)
        refine ⟨holds, fun ancestor => (above ancestor).trans (and_congr_right fun climbs => ?_)⟩
        exact IsTree.climbs_up_iff root hsecond
          (Nat.lt_of_lt_of_le hgt (tree.number_le_of_climbs climbs))

theorem ancestor_spec (numbering : Numbering root order number)
    (tree : IsTree root order number parents) {first second : Fin n}
    (hfirst : parents.Holds first) (hsecond : parents.Holds second) :
    parents.Holds (parents.ancestor root number first second) ∧
      ∀ ancestor, parents.Climbs (parents.ancestor root number first second) ancestor ↔
        parents.Climbs first ancestor ∧ parents.Climbs second ancestor :=
  meet_spec numbering tree (2 * n) first second hfirst hsecond (by omega)

theorem foldl_ancestor_spec (numbering : Numbering root order number)
    (tree : IsTree root order number parents) (nodes : List (Fin n)) (current : Fin n)
    (hnodes : ∀ node ∈ nodes, parents.Holds node) (hcurrent : parents.Holds current) :
    ∃ common,
      nodes.foldl
        (fun best node =>
          match best with
          | none => some node
          | some current => some (parents.ancestor root number node current))
        (some current) = some common ∧
      parents.Holds common ∧
      ∀ ancestor, parents.Climbs common ancestor ↔
        parents.Climbs current ancestor ∧ ∀ node ∈ nodes, parents.Climbs node ancestor := by
  induction nodes generalizing current with
  | nil => exact ⟨current, rfl, hcurrent, by simp⟩
  | cons node nodes ih =>
      obtain ⟨holds, above⟩ :=
        ancestor_spec numbering tree (hnodes node List.mem_cons_self) hcurrent
      obtain ⟨common, hcommon, hholds, habove⟩ :=
        ih (parents.ancestor root number node current)
          (fun other member => hnodes other (List.mem_cons_of_mem _ member)) holds
      refine ⟨common, hcommon, hholds, fun ancestor => ?_⟩
      rw [habove, above, List.forall_mem_cons, and_comm (a := parents.Climbs node ancestor),
        and_assoc]

theorem commonAncestor_spec (numbering : Numbering root order number)
    (tree : IsTree root order number parents) (nodes : List (Fin n)) {present : Fin n}
    (member : present ∈ nodes) (holds : parents.Holds present) :
    ∃ common, parents.commonAncestor root number nodes = some common ∧
      parents.Holds common ∧
      ∀ ancestor, parents.Climbs common ancestor ↔
        ∀ node ∈ nodes, parents.Holds node → parents.Climbs node ancestor := by
  have mem_kept : ∀ node, node ∈ nodes.filter (fun node => (parents.get node).isSome) ↔
      node ∈ nodes ∧ parents.Holds node := fun node => List.mem_filter
  unfold commonAncestor
  cases hkept : nodes.filter (fun node => (parents.get node).isSome) with
  | nil =>
      rw [hkept] at mem_kept
      exact absurd ((mem_kept present).2 ⟨member, holds⟩) List.not_mem_nil
  | cons first rest =>
      rw [hkept] at mem_kept
      obtain ⟨common, hcommon, hholds, above⟩ :=
        foldl_ancestor_spec numbering tree rest first
          (fun node hnode => ((mem_kept node).1 (List.mem_cons_of_mem _ hnode)).2)
          ((mem_kept first).1 List.mem_cons_self).2
      refine ⟨common, hcommon, hholds, fun ancestor => ?_⟩
      have all : (∀ node ∈ first :: rest, parents.Climbs node ancestor) ↔
          ∀ node ∈ nodes, parents.Holds node → parents.Climbs node ancestor :=
        forall_congr' fun node => by rw [mem_kept, and_imp]
      rw [above, ← all, List.forall_mem_cons]

/-! ## Chains -/

theorem IsTree.climb_cases (tree : IsTree root order number parents) {node parent : Fin n}
    (get : parents.get node = some parent) (steps : Nat) :
    node = root ∧ parents.climb (steps + 1) node = [root] ∨
      node ≠ root ∧ number node < number parent ∧
        parents.climb (steps + 1) node = node :: parents.climb steps parent := by
  by_cases inner : node = root
  · subst inner
    rw [tree.root_get, Option.some.injEq] at get
    subst get
    simp [climb, tree.root_get]
  · have rises := tree.rises node parent inner get
    have moves : parent ≠ node := by
      rintro rfl
      omega
    simp [climb, get, inner, rises, moves]

theorem mem_climb_iff (numbering : Numbering root order number)
    (tree : IsTree root order number parents) (steps : Nat) (node ancestor : Fin n)
    (enough : n ≤ steps + number node) :
    ancestor ∈ parents.climb steps node ↔ parents.Holds node ∧ parents.Climbs node ancestor := by
  induction steps generalizing node with
  | zero =>
      simp only [climb, List.not_mem_nil, false_iff, not_and]
      intro holds
      have := numbering.lt node (tree.holds_mem node holds)
      omega
  | succ steps ih =>
      cases get : parents.get node with
      | none => simp [climb, Holds, get]
      | some parent =>
          rw [and_iff_right (Holds.of_get get)]
          rcases tree.climb_cases get steps with ⟨rfl, walk⟩ | ⟨-, rises, walk⟩
          · rw [walk, List.mem_singleton]
            exact ⟨fun same => same ▸ .refl _, tree.eq_root_of_climbs⟩
          · rw [walk, List.mem_cons, ih parent (by omega), Climbs.iff_of_get get,
              and_iff_right (tree.holds_parent _ _ get)]

theorem mem_chain_iff (numbering : Numbering root order number)
    (tree : IsTree root order number parents) {node ancestor : Fin n} :
    ancestor ∈ parents.chain node ↔ parents.Holds node ∧ parents.Climbs node ancestor :=
  mem_climb_iff numbering tree n node ancestor (by omega)

end Parents

end StackFlow
