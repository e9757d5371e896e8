import Mathlib.Algebra.BigOperators.Fin
import Mathlib.Algebra.Order.BigOperators.Group.Finset
import StackFlow.Proofs.DominatorTree
import StackFlow.Proofs.Postorder

/-!
# The iteration that finds the dominator tree

`Parents.Sound` is what holds between any two steps of a pass.  Every node in the tree has all its
dominators as ancestors, and it stands below its parent on a path that stays below the parent's
number.  A step gives one node a new parent, and all that it takes away are ancestors of that node.

The nodes still to come in a pass matter for one clause only: an ancestor that is still to come is
an ancestor of a fixed predecessor as well, the one from which the search entered the node.  This
is why parents move towards the root only, and so why the passes come to an end.
-/

namespace StackFlow.Parents

variable {n : Nat} {parents : Parents n} {root : Fin n} {order : List (Fin n)}
  {number : Fin n → Nat}

/-! ## One node gets a new parent -/

def relink (parents : Parents n) (node parent : Fin n) : Parents n :=
  parents.set node (some parent) node.isLt

theorem get_relink (parents : Parents n) (node parent other : Fin n) :
    (parents.relink node parent).get other =
      if other = node then some parent else parents.get other :=
  get_set_node parents node other (some parent)

theorem get_relink_self (parents : Parents n) (node parent : Fin n) :
    (parents.relink node parent).get node = some parent := by
  rw [get_relink, if_pos rfl]

theorem get_relink_ne (parents : Parents n) {node other : Fin n} (parent : Fin n)
    (ne : other ≠ node) : (parents.relink node parent).get other = parents.get other := by
  rw [get_relink, if_neg ne]

theorem relink_eq_self {node parent : Fin n} (get : parents.get node = some parent) :
    parents.relink node parent = parents := by
  refine table_ext fun other => ?_
  rw [get_relink]
  split
  · next heq => rw [heq, get]
  · rfl

section Relink

variable {node parent : Fin n}

theorem holds_relink_iff {other : Fin n} :
    (parents.relink node parent).Holds other ↔ other = node ∨ parents.Holds other := by
  rw [Holds, get_relink]
  split
  · simp [*]
  · simp [*, Holds]

variable (tree : IsTree root order number parents) (ne : node ≠ root) (member : node ∈ order)
  (holds : parents.Holds parent) (rises : number node < number parent)

include tree ne member holds rises in
theorem IsTree.relink : IsTree root order number (parents.relink node parent) where
  root_get := by rw [get_relink_ne parents parent ne.symm, tree.root_get]
  holds_mem := by
    intro other hother
    rcases holds_relink_iff.1 hother with rfl | hother
    · exact member
    · exact tree.holds_mem other hother
  holds_parent := by
    intro other up get
    rw [get_relink] at get
    rw [holds_relink_iff]
    split at get
    · exact .inr (Option.some.inj get ▸ holds)
    · exact .inr (tree.holds_parent other up get)
  rises := by
    intro other up hother get
    rw [get_relink] at get
    split at get
    · rw [‹other = node›, ← Option.some.inj get]
      exact rises
    · exact tree.rises other up hother get

theorem Climbs.congr_above {first second : Parents n} (tree : IsTree root order number first)
    {bound : Nat} (agree : ∀ other, bound < number other → first.get other = second.get other)
    {start ancestor : Fin n} (climbs : first.Climbs start ancestor)
    (lt : bound < number start) : second.Climbs start ancestor := by
  induction climbs using Relation.ReflTransGen.head_induction_on with
  | refl => exact .refl _
  | @head start up step rest ih =>
      have above : bound < number up := by
        by_cases hroot : start = root
        · rw [hroot, tree.root_get, Option.some.injEq] at step
          exact step ▸ hroot ▸ lt
        · exact Nat.lt_trans lt (tree.rises _ _ hroot step)
      exact .head (agree start lt ▸ step) (ih above)

include tree ne member holds rises in
theorem climbs_relink_iff_of_lt {start ancestor : Fin n} (lt : number node < number start) :
    (parents.relink node parent).Climbs start ancestor ↔ parents.Climbs start ancestor := by
  have agree : ∀ other, number node < number other →
      (parents.relink node parent).get other = parents.get other := by
    intro other hother
    refine get_relink_ne parents parent ?_
    rintro rfl
    exact Nat.lt_irrefl _ hother
  constructor
  · intro climbs
    exact climbs.congr_above (tree.relink ne member holds rises) agree lt
  · intro climbs
    exact climbs.congr_above tree (fun other hother => (agree other hother).symm) lt

include tree ne member holds rises in
theorem climbs_relink_self_iff {ancestor : Fin n} :
    (parents.relink node parent).Climbs node ancestor ↔
      ancestor = node ∨ parents.Climbs parent ancestor := by
  have get := get_relink_self parents node parent
  have above : (parents.relink node parent).Climbs parent ancestor ↔
      parents.Climbs parent ancestor :=
    climbs_relink_iff_of_lt tree ne member holds rises rises
  constructor
  · intro climbs
    exact (climbs.cases_get get).imp_right above.1
  · rintro (rfl | climbs)
    · exact .refl _
    · exact .head get (above.2 climbs)

theorem climbs_relink_of_climbs {start : Fin n} (climbs : parents.Climbs start node) :
    (parents.relink node parent).Climbs start node := by
  induction climbs using Relation.ReflTransGen.head_induction_on with
  | refl => exact .refl _
  | @head start up step rest ih =>
      by_cases heq : start = node
      · exact heq ▸ .refl _
      · exact .head ((get_relink_ne parents parent heq).trans step) ih

theorem climbs_relink_or {start ancestor : Fin n} (climbs : parents.Climbs start ancestor) :
    (parents.relink node parent).Climbs start ancestor ∨
      parents.Climbs start node ∧ parents.Climbs node ancestor := by
  induction climbs using Relation.ReflTransGen.head_induction_on with
  | refl => exact .inl (.refl _)
  | @head start up step rest ih =>
      by_cases heq : start = node
      · subst heq
        exact .inr ⟨.refl _, .head step rest⟩
      · rcases ih with climbs | ⟨below, above⟩
        · exact .inl (.head ((get_relink_ne parents parent heq).trans step) climbs)
        · exact .inr ⟨.head step below, above⟩

include tree ne member holds rises in
theorem climbs_of_climbs_relink {start ancestor : Fin n}
    (climbs : (parents.relink node parent).Climbs start ancestor) :
    parents.Climbs start ancestor ∨
      parents.Climbs start node ∧ parents.Climbs parent ancestor := by
  induction climbs using Relation.ReflTransGen.head_induction_on with
  | refl => exact .inl (.refl _)
  | @head start up step rest ih =>
      by_cases heq : start = node
      · subst heq
        rw [get_relink_self, Option.some.injEq] at step
        subst step
        exact .inr ⟨.refl _, (climbs_relink_iff_of_lt tree ne member holds rises rises).1 rest⟩
      · have get := (get_relink_ne parents parent heq).symm.trans step
        rcases ih with climbs | ⟨below, above⟩
        · exact .inl (.head get climbs)
        · exact .inr ⟨.head get below, above⟩

include tree ne member holds rises in
theorem climbs_of_relink_above {start ancestor : Fin n}
    (above : parents.Holds node → parents.Climbs node parent)
    (old : start = node → parents.Holds node)
    (climbs : (parents.relink node parent).Climbs start ancestor) :
    parents.Climbs start ancestor := by
  rcases climbs_of_climbs_relink tree ne member holds rises climbs with climbs | ⟨below, rest⟩
  · exact climbs
  · have held : parents.Holds node := by
      by_cases hstart : parents.Holds start
      · exact tree.holds_of_climbs below hstart
      · exact old (below.eq_of_not_holds hstart).symm
    exact (below.trans (above held)).trans rest

end Relink

/-! ## What holds between two steps -/

/-- The listed nodes are those that can be reached, and for every node but the root `guide` is a
predecessor with a greater number. -/
structure Guided (succ pred : Fin n → List (Fin n)) (root : Fin n) (order : List (Fin n))
    (number : Fin n → Nat) (guide : Fin n → Fin n) : Prop
    extends Numbering root order number where
  converse : ∀ node previous, previous ∈ pred node ↔ node ∈ succ previous
  mem_iff : ∀ node, node ∈ order ↔ Reaches succ root node
  guide_mem : ∀ node ∈ order, node ≠ root → guide node ∈ order
  guide_pred : ∀ node ∈ order, node ≠ root → guide node ∈ pred node
  guide_lt : ∀ node ∈ order, node ≠ root → number node < number (guide node)

structure Pending (root : Fin n) (order : List (Fin n)) (number : Fin n → Nat)
    (pending : List (Fin n)) : Prop where
  mem : ∀ node ∈ pending, node ∈ order
  ne_root : ∀ node ∈ pending, node ≠ root
  falling : pending.Pairwise fun first second => number second < number first
  above : ∀ node ∈ order, node ∉ pending → ∀ other ∈ pending, number other < number node

theorem Pending.tail {node : Fin n} {rest : List (Fin n)}
    (pending : Pending root order number (node :: rest)) : Pending root order number rest where
  mem := fun other member => pending.mem other (List.mem_cons_of_mem _ member)
  ne_root := fun other member => pending.ne_root other (List.mem_cons_of_mem _ member)
  falling := (List.pairwise_cons.1 pending.falling).2
  above := by
    intro other hother later below hbelow
    by_cases heq : other = node
    · rw [heq]
      exact (List.pairwise_cons.1 pending.falling).1 below hbelow
    · exact pending.above other hother (by simp [heq, later]) below (List.mem_cons_of_mem _ hbelow)

structure Sound (succ pred : Fin n → List (Fin n)) (root : Fin n) (order : List (Fin n))
    (number : Fin n → Nat) (guide : Fin n → Fin n) (pending : List (Fin n))
    (parents : Parents n) : Prop extends IsTree root order number parents where
  filled : ∀ node ∈ order, node ∉ pending → parents.Holds node
  guide_holds : ∀ node, parents.Holds node → node ≠ root → parents.Holds (guide node)
  descends : ∀ node parent, parents.get node = some parent →
    ∃ nodes, Path succ parent node nodes ∧ ∀ other ∈ nodes, number other ≤ number parent
  follows : ∀ node ancestor, parents.Holds node → node ≠ root → parents.Climbs node ancestor →
    ancestor ≠ node → node ∉ pending ∨ ancestor ∈ pending → parents.Climbs (guide node) ancestor
  shrinks : ∀ node ancestor, parents.Holds node → node ≠ root →
    (∀ previous ∈ pred node, parents.Holds previous → parents.Climbs previous ancestor) →
    parents.Climbs node ancestor
  keeps : ∀ node dominator, parents.Holds node → Dominates succ root dominator node →
    parents.Climbs node dominator

variable {succ pred : Fin n → List (Fin n)} {guide : Fin n → Fin n} {pending rest : List (Fin n)}

namespace Sound

theorem descends_climbs (sound : Sound succ pred root order number guide pending parents)
    {node ancestor : Fin n} (climbs : parents.Climbs node ancestor) :
    ∃ nodes, Path succ ancestor node nodes ∧ ∀ other ∈ nodes, number other ≤ number ancestor := by
  induction climbs using Relation.ReflTransGen.head_induction_on with
  | refl => exact ⟨[ancestor], .single ancestor, by simp⟩
  | @head node parent step rest ih =>
      obtain ⟨nodes, path, below⟩ := ih
      obtain ⟨more, last, low⟩ := sound.descends node parent step
      refine ⟨nodes ++ more.tail, path.append last, fun other member => ?_⟩
      rcases List.mem_append.1 member with member | member
      · exact below other member
      · exact Nat.le_trans (low other (List.mem_of_mem_tail member))
          (sound.number_le_of_climbs rest)

theorem dominates_of_climbs (sound : Sound succ pred root order number guide pending parents)
    (guided : Guided succ pred root order number guide) {node ancestor dominator : Fin n}
    (holds : parents.Holds node) (climbs : parents.Climbs node ancestor)
    (lt : number ancestor < number dominator) (dominates : Dominates succ root dominator node) :
    Dominates succ root dominator ancestor := by
  obtain ⟨more, path, below⟩ := sound.descends_climbs climbs
  refine ⟨(guided.mem_iff ancestor).1 (sound.holds_mem _ (sound.holds_of_climbs climbs holds)), ?_⟩
  intro nodes start
  rcases List.mem_append.1 (dominates.2 _ (start.append path)) with member | member
  · exact member
  · exact absurd (below dominator (List.mem_of_mem_tail member)) (Nat.not_le.2 lt)

theorem of_nil (sound : Sound succ pred root order number guide [] parents) :
    Sound succ pred root order number guide pending parents where
  toIsTree := sound.toIsTree
  filled := fun node member _ => sound.filled node member List.not_mem_nil
  guide_holds := sound.guide_holds
  descends := sound.descends
  follows := fun node ancestor holds ne climbs other _ =>
    sound.follows node ancestor holds ne climbs other (.inl List.not_mem_nil)
  shrinks := sound.shrinks
  keeps := sound.keeps

end Sound

/-! ## One step -/

/-- The parent that a step gives to a node: above it stand the common ancestors of the predecessors
that are in the tree. -/
structure IsCommon (pred : Fin n → List (Fin n)) (number : Fin n → Nat) (parents : Parents n)
    (node parent : Fin n) : Prop where
  holds : parents.Holds parent
  rises : number node < number parent
  climbs_iff : ∀ ancestor, parents.Climbs parent ancestor ↔
    ∀ previous ∈ pred node, parents.Holds previous → parents.Climbs previous ancestor

theorem improve_eq_relink (guided : Guided succ pred root order number guide)
    (tree : IsTree root order number parents) {node : Fin n} (member : node ∈ order)
    (ne : node ≠ root) (hguide : parents.Holds (guide node)) :
    ∃ parent, IsCommon pred number parents node parent ∧
      improve pred root number parents node = parents.relink node parent := by
  have edge := guided.guide_pred node member ne
  obtain ⟨parent, hcommon, holds, above⟩ :=
    commonAncestor_spec guided.toNumbering tree (pred node) edge hguide
  have below : parents.Climbs (guide node) parent := (above parent).1 (.refl _) _ edge hguide
  refine ⟨parent, ⟨holds, Nat.lt_of_lt_of_le (guided.guide_lt node member ne)
    (tree.number_le_of_climbs below), above⟩, ?_⟩
  rw [improve, hcommon]
  rfl

section Step

variable {node parent : Fin n} (guided : Guided succ pred root order number guide)
  (hpending : Pending root order number (node :: rest))
  (sound : Sound succ pred root order number guide (node :: rest) parents)

include guided hpending sound in
theorem holds_guide : parents.Holds (guide node) := by
  have member := hpending.mem node List.mem_cons_self
  have ne := hpending.ne_root node List.mem_cons_self
  have lt := guided.guide_lt node member ne
  refine sound.filled _ (guided.guide_mem node member ne) fun later => ?_
  rcases List.mem_cons.1 later with heq | later
  · exact absurd (heq ▸ lt) (Nat.lt_irrefl _)
  · exact absurd ((List.pairwise_cons.1 hpending.falling).1 _ later) (Nat.lt_asymm lt)

variable (common : IsCommon pred number parents node parent)

include sound common in
theorem climbs_common (ne : node ≠ root) (holds : parents.Holds node) :
    parents.Climbs node parent :=
  sound.shrinks node parent holds ne ((common.climbs_iff parent).1 (.refl _))

include hpending sound common in
theorem climbs_of_relink_common {start ancestor : Fin n} (old : start = node → parents.Holds node)
    (climbs : (parents.relink node parent).Climbs start ancestor) :
    parents.Climbs start ancestor := by
  have ne := hpending.ne_root node List.mem_cons_self
  exact climbs_of_relink_above sound.toIsTree ne (hpending.mem node List.mem_cons_self)
    common.holds common.rises (climbs_common sound common ne) old climbs

include hpending sound common in
theorem climbs_relink_node_iff {ancestor : Fin n} :
    (parents.relink node parent).Climbs node ancestor ↔
      ancestor = node ∨ parents.Climbs parent ancestor :=
  climbs_relink_self_iff sound.toIsTree (hpending.ne_root node List.mem_cons_self)
    (hpending.mem node List.mem_cons_self) common.holds common.rises

include hpending sound common in
theorem climbs_relink_above_iff {start ancestor : Fin n} (lt : number node < number start) :
    (parents.relink node parent).Climbs start ancestor ↔ parents.Climbs start ancestor :=
  climbs_relink_iff_of_lt sound.toIsTree (hpending.ne_root node List.mem_cons_self)
    (hpending.mem node List.mem_cons_self) common.holds common.rises lt

include guided hpending sound common

theorem descends_relink (other up : Fin n)
    (get : (parents.relink node parent).get other = some up) :
    ∃ nodes, Path succ up other nodes ∧ ∀ between ∈ nodes, number between ≤ number up := by
  rw [get_relink] at get
  split at get
  · next heq =>
      subst heq
      obtain rfl := Option.some.inj get
      have edge := guided.guide_pred other (hpending.mem other List.mem_cons_self)
        (hpending.ne_root other List.mem_cons_self)
      have below : parents.Climbs (guide other) parent :=
        (common.climbs_iff parent).1 (.refl _) _ edge (holds_guide guided hpending sound)
      obtain ⟨nodes, path, low⟩ := sound.descends_climbs below
      refine ⟨nodes ++ [other], path.snoc ((guided.converse _ _).1 edge), fun between hmem => ?_⟩
      rcases List.mem_append.1 hmem with hmem | hmem
      · exact low between hmem
      · rw [List.mem_singleton.1 hmem]
        exact Nat.le_of_lt common.rises
  · exact sound.descends other up get

theorem follows_relink (other ancestor : Fin n)
    (holds : (parents.relink node parent).Holds other) (ne : other ≠ root)
    (climbs : (parents.relink node parent).Climbs other ancestor) (hne : ancestor ≠ other)
    (late : other ∉ rest ∨ ancestor ∈ rest) :
    (parents.relink node parent).Climbs (guide other) ancestor := by
  by_cases heq : other = node
  · -- what is above the node now is above all its predecessors
    subst heq
    have member := hpending.mem other List.mem_cons_self
    rw [climbs_relink_above_iff hpending sound common (guided.guide_lt other member ne)]
    have above := ((climbs_relink_node_iff hpending sound common).1 climbs).resolve_left hne
    exact (common.climbs_iff ancestor).1 above _ (guided.guide_pred other member ne)
      (holds_guide guided hpending sound)
  · have held : parents.Holds other := (holds_relink_iff.1 holds).resolve_left heq
    have member := sound.holds_mem other held
    have old := climbs_of_relink_common hpending sound common (absurd · heq) climbs
    have before : other ∉ node :: rest ∨ ancestor ∈ node :: rest :=
      late.imp (fun late => by simp [heq, late]) (List.mem_cons_of_mem _)
    have follows := sound.follows other ancestor held ne old hne before
    rcases late with done | later
    · -- a node taken before stands above the relinked one, and so does its guide
      have lt := hpending.above other member (by simp [heq, done]) node List.mem_cons_self
      rwa [climbs_relink_above_iff hpending sound common
        (Nat.lt_trans lt (guided.guide_lt other member ne))]
    · -- an ancestor still to come stands below the relinked node
      rcases climbs_relink_or follows with climbs | ⟨-, above⟩
      · exact climbs
      · have lt := (List.pairwise_cons.1 hpending.falling).1 ancestor later
        exact absurd (sound.number_le_of_climbs above) (Nat.not_le.2 lt)

theorem shrinks_relink (other ancestor : Fin n)
    (holds : (parents.relink node parent).Holds other) (ne : other ≠ root)
    (all : ∀ previous ∈ pred other, (parents.relink node parent).Holds previous →
      (parents.relink node parent).Climbs previous ancestor) :
    (parents.relink node parent).Climbs other ancestor := by
  have old : ∀ previous ∈ pred other, parents.Holds previous →
      parents.Climbs previous ancestor := by
    intro previous edge held
    refine climbs_of_relink_common hpending sound common (fun heq => heq ▸ held) ?_
    exact all previous edge (holds_relink_iff.2 (.inr held))
  by_cases heq : other = node
  · subst heq
    exact (climbs_relink_node_iff hpending sound common).2
      (.inr ((common.climbs_iff ancestor).2 old))
  · have held : parents.Holds other := (holds_relink_iff.1 holds).resolve_left heq
    have member := sound.holds_mem other held
    rcases climbs_relink_or (sound.shrinks other ancestor held ne old) with climbs | ⟨below, above⟩
    · exact climbs
    · -- the relinked node is above `other`, hence above its guide, and so is the ancestor
      have hguide : (parents.relink node parent).Climbs (guide other) ancestor :=
        all _ (guided.guide_pred other member ne)
          (holds_relink_iff.2 (.inr (sound.guide_holds other held ne)))
      have hnode : (parents.relink node parent).Climbs (guide other) node :=
        climbs_relink_of_climbs (sound.follows other node held ne below (Ne.symm heq)
          (.inr List.mem_cons_self))
      have hother : (parents.relink node parent).Climbs other node :=
        climbs_relink_of_climbs below
      rcases hnode.total hguide with climbs | climbs
      · exact hother.trans climbs
      · have tree := sound.toIsTree.relink (hpending.ne_root node List.mem_cons_self)
          (hpending.mem node List.mem_cons_self) common.holds common.rises
        have heq : ancestor = node := by
          by_contra hne
          exact absurd (sound.number_lt_of_climbs above hne)
            (Nat.not_lt.2 (tree.number_le_of_climbs climbs))
        exact heq ▸ hother

theorem keeps_relink_node {dominator : Fin n} (dominates : Dominates succ root dominator node) :
    (parents.relink node parent).Climbs node dominator := by
  rw [climbs_relink_node_iff hpending sound common]
  by_cases heq : dominator = node
  · exact .inl heq
  · refine .inr ((common.climbs_iff dominator).2 fun previous edge held => ?_)
    exact sound.keeps previous dominator held (dominates.of_edge heq
      ((guided.mem_iff previous).1 (sound.holds_mem previous held))
      ((guided.converse _ _).1 edge))

theorem keeps_relink (other dominator : Fin n)
    (holds : (parents.relink node parent).Holds other)
    (dominates : Dominates succ root dominator other) :
    (parents.relink node parent).Climbs other dominator := by
  by_cases heq : other = node
  · subst heq
    exact keeps_relink_node guided hpending sound common dominates
  · have held : parents.Holds other := (holds_relink_iff.1 holds).resolve_left heq
    rcases climbs_relink_or (sound.keeps other dominator held dominates) with
      climbs | ⟨below, above⟩
    · exact climbs
    · have hother : (parents.relink node parent).Climbs other node :=
        climbs_relink_of_climbs below
      by_cases hdom : dominator = node
      · exact hdom ▸ hother
      · have dominates := sound.dominates_of_climbs guided held below
          (sound.number_lt_of_climbs above hdom) dominates
        exact hother.trans (keeps_relink_node guided hpending sound common dominates)

theorem Sound.relink :
    Sound succ pred root order number guide rest (parents.relink node parent) where
  toIsTree := sound.toIsTree.relink (hpending.ne_root node List.mem_cons_self)
    (hpending.mem node List.mem_cons_self) common.holds common.rises
  filled := by
    intro other member later
    rw [holds_relink_iff]
    by_cases heq : other = node
    · exact .inl heq
    · exact .inr (sound.filled other member (by simp [heq, later]))
  guide_holds := by
    intro other holds ne
    rw [holds_relink_iff]
    right
    rcases holds_relink_iff.1 holds with rfl | held
    · exact holds_guide guided hpending sound
    · exact sound.guide_holds other held ne
  descends := descends_relink guided hpending sound common
  follows := follows_relink guided hpending sound common
  shrinks := shrinks_relink guided hpending sound common
  keeps := keeps_relink guided hpending sound common

end Step

/-! ## Passes -/

def height (number : Fin n → Nat) : Option (Fin n) → Nat
  | none => 0
  | some parent => number parent + 1

/-- Grows with every change of the tree. -/
def potential (number : Fin n → Nat) (parents : Parents n) : Nat :=
  ∑ node, height number (parents.get node)

theorem potential_le (numbering : Numbering root order number)
    (tree : IsTree root order number parents) : potential number parents ≤ n * n := by
  have each : ∀ node ∈ Finset.univ, height number (parents.get node) ≤ n := by
    intro node _
    cases get : parents.get node with
    | none => exact Nat.zero_le n
    | some parent => exact numbering.lt parent (tree.holds_mem _ (tree.holds_parent _ _ get))
  simpa [potential] using Finset.sum_le_card_nsmul Finset.univ _ n each

theorem potential_relink_lt {node parent : Fin n}
    (higher : height number (parents.get node) < number parent + 1) :
    potential number parents < potential number (parents.relink node parent) := by
  refine Finset.sum_lt_sum (fun other _ => ?_) ⟨node, Finset.mem_univ node, ?_⟩
  · rw [get_relink]
    split
    · next heq => exact heq ▸ Nat.le_of_lt higher
    · exact Nat.le_refl _
  · rw [get_relink_self]
    exact higher

theorem number_lt_common {node parent old : Fin n} (ne : node ≠ root)
    (sound : Sound succ pred root order number guide (node :: rest) parents)
    (common : IsCommon pred number parents node parent) (get : parents.get node = some old)
    (moves : old ≠ parent) : number old < number parent := by
  have climbs := climbs_common sound common ne (.of_get get)
  have other : parent ≠ node := fun h => Nat.lt_irrefl _ (h ▸ common.rises)
  exact sound.number_lt_of_climbs ((climbs.cases_get get).resolve_left other) moves.symm

theorem improve_spec {node : Fin n} (guided : Guided succ pred root order number guide)
    (hpending : Pending root order number (node :: rest))
    (sound : Sound succ pred root order number guide (node :: rest) parents) :
    Sound succ pred root order number guide rest (improve pred root number parents node) ∧
      (improve pred root number parents node = parents ∨
        potential number parents <
          potential number (improve pred root number parents node)) := by
  obtain ⟨parent, common, improved⟩ := improve_eq_relink guided sound.toIsTree
    (hpending.mem node List.mem_cons_self) (hpending.ne_root node List.mem_cons_self)
    (holds_guide guided hpending sound)
  rw [improved]
  refine ⟨sound.relink guided hpending common, ?_⟩
  cases get : parents.get node with
  | none => exact .inr (potential_relink_lt (by simp [get, height]))
  | some old =>
      by_cases heq : old = parent
      · exact .inl (relink_eq_self (heq ▸ get))
      · have lt := number_lt_common (hpending.ne_root node List.mem_cons_self) sound common get heq
        exact .inr (potential_relink_lt (by simpa [get, height] using lt))

theorem pass_spec (guided : Guided succ pred root order number guide)
    (hpending : Pending root order number pending)
    (sound : Sound succ pred root order number guide pending parents) :
    Sound succ pred root order number guide [] (pass pred root number pending parents) ∧
      ((∀ node ∈ pending, improve pred root number parents node = parents) ∧
          pass pred root number pending parents = parents ∨
        potential number parents < potential number (pass pred root number pending parents)) := by
  induction pending generalizing parents with
  | nil => exact ⟨sound, .inl ⟨by simp, rfl⟩⟩
  | cons node rest ih =>
      obtain ⟨next, change⟩ := improve_spec guided hpending sound
      obtain ⟨last, later⟩ := ih hpending.tail next
      have split : pass pred root number (node :: rest) parents =
          pass pred root number rest (improve pred root number parents node) := rfl
      rw [split]
      refine ⟨last, ?_⟩
      rcases change with same | grown
      · rw [same] at later ⊢
        exact later.imp_left fun ⟨all, unchanged⟩ =>
          ⟨List.forall_mem_cons.2 ⟨same, all⟩, unchanged⟩
      · right
        rcases later with ⟨-, unchanged⟩ | more
        · rwa [unchanged]
        · exact Nat.lt_trans grown more

theorem settle_spec (guided : Guided succ pred root order number guide)
    (hpending : Pending root order number pending) (passes : Nat)
    (sound : Sound succ pred root order number guide pending parents)
    (enough : n * n < passes + potential number parents) :
    Sound succ pred root order number guide []
        (settle (pass pred root number pending) passes parents) ∧
      ∀ node ∈ pending,
        improve pred root number (settle (pass pred root number pending) passes parents) node =
          settle (pass pred root number pending) passes parents := by
  induction passes generalizing parents with
  | zero =>
      have := potential_le guided.toNumbering sound.toIsTree
      omega
  | succ passes ih =>
      obtain ⟨next, change⟩ := pass_spec guided hpending sound
      simp only [settle]
      split
      · next same =>
          rcases change with ⟨all, -⟩ | grown
          · exact ⟨same ▸ next, all⟩
          · exact absurd (same ▸ grown) (Nat.lt_irrefl _)
      · next changed =>
          have grown := change.resolve_left fun unchanged => changed unchanged.2
          exact ih next.of_nil (by omega)

/-! ## The first tree -/

theorem get_start (root node : Fin n) :
    (start root).get node = if node = root then some root else none := by
  rw [start, get_set_node, get_replicate_node]

theorem holds_start_iff {node : Fin n} : (start root).Holds node ↔ node = root := by
  rw [Holds, get_start]
  split <;> simp [*]

theorem start_sound (guided : Guided succ pred root order number guide)
    (all : ∀ node ∈ order, node ≠ root → node ∈ pending) :
    Sound succ pred root order number guide pending (start root) where
  root_get := by rw [get_start, if_pos rfl]
  holds_mem := fun node holds => holds_start_iff.1 holds ▸ guided.root_mem
  holds_parent := by
    intro node parent get
    rw [get_start] at get
    split at get
    · exact holds_start_iff.2 (Option.some.inj get).symm
    · cases get
  rises := by
    intro node parent ne get
    rw [get_start, if_neg ne] at get
    cases get
  filled := by
    intro node member later
    by_contra absent
    exact later (all node member fun h => absent (holds_start_iff.2 h))
  guide_holds := fun node holds ne => absurd (holds_start_iff.1 holds) ne
  descends := by
    intro node parent get
    rw [get_start] at get
    split at get
    · next heq =>
        obtain rfl := Option.some.inj get
        subst heq
        exact ⟨[node], .single node, by simp⟩
    · cases get
  follows := fun node _ holds ne => absurd (holds_start_iff.1 holds) ne
  shrinks := fun node _ holds ne => absurd (holds_start_iff.1 holds) ne
  keeps := by
    intro node dominator holds dominates
    obtain rfl := holds_start_iff.1 holds
    have member := dominates.2 _ (.single node)
    rw [List.mem_singleton.1 member]
    exact .refl _

end StackFlow.Parents
