import Mathlib.Order.Lattice
import StackFlow.Proofs.ReachingDefinitions

/-!
# Solutions of a dataflow analysis

An analysis is a system of equations, two for every node but the boundary.  A run that ends leaves
states that satisfy them, whatever the join and the transfer are (`FlowGraph.analyze_isFixedPoint`).

Where the join is that of a semilattice and the transfer is monotone, the states at which a run ends
lie below every solution (`Analysis.analyze_least`).  The invariant is that no state on the far side
ever passes that of a given solution, and it holds whichever node of the worklist is taken next.  So
all runs end at the same states.
-/

namespace StackFlow

/-! ## The order of a lattice -/

namespace Lattice

variable {σ : Type} {lattice : Lattice σ} {first second third : σ}

structure Lawful (lattice : Lattice σ) : Prop where
  comm : ∀ first second, lattice.join first second = lattice.join second first
  assoc : ∀ first second third,
    lattice.join (lattice.join first second) third = lattice.join first (lattice.join second third)
  idem : ∀ state, lattice.join state state = state
  identity : ∀ state, lattice.join state lattice.init = state

def Below (lattice : Lattice σ) (first second : σ) : Prop :=
  lattice.join first second = second

namespace Lawful

abbrev order (lawful : lattice.Lawful) : SemilatticeSup σ :=
  @SemilatticeSup.mk' σ ⟨lattice.join⟩ lawful.comm lawful.assoc lawful.idem

variable (lawful : lattice.Lawful)

include lawful

theorem below_refl (state : σ) : lattice.Below state state :=
  lawful.idem state

theorem below_antisymm (le : lattice.Below first second) (ge : lattice.Below second first) :
    first = second := by
  let _ := lawful.order
  exact le_antisymm (a := first) le ge

theorem below_trans (le : lattice.Below first second) (next : lattice.Below second third) :
    lattice.Below first third := by
  let _ := lawful.order
  exact le_trans (a := first) le next

theorem init_below (state : σ) : lattice.Below lattice.init state :=
  (lawful.comm _ _).trans (lawful.identity state)

theorem join_below {first' second' : σ} (left : lattice.Below first first')
    (right : lattice.Below second second') :
    lattice.Below (lattice.join first second) (lattice.join first' second') := by
  let _ := lawful.order
  exact sup_le_sup (a := first) (c := second) left right

theorem joinAll_below {α : Type} {items : List α} {left right : α → σ}
    (below : ∀ item ∈ items, lattice.Below (left item) (right item)) :
    lattice.Below (lattice.joinAll (items.map left)) (lattice.joinAll (items.map right)) := by
  suffices general : ∀ start start', lattice.Below start start' →
      lattice.Below ((items.map left).foldl lattice.join start)
        ((items.map right).foldl lattice.join start') from
    general _ _ (lawful.below_refl _)
  induction items with
  | nil => exact fun _ _ start => start
  | cons item items ih =>
      intro first first' start
      have head := below item List.mem_cons_self
      exact ih (fun other member => below other (List.mem_cons_of_mem _ member)) _ _
        (lawful.join_below start head)

end Lawful

end Lattice

/-! ## Fixed points -/

namespace Analysis

variable {n : Nat} {ν ε σ : Type} (analysis : Analysis n ν ε σ) {direction : Direction}
  {states other final : States n σ}

def Solves (direction : Direction) (states : States n σ) : Prop :=
  ∀ node, node ≠ analysis.boundary direction →
    states.near direction node = analysis.joined direction states node ∧
      states.far direction node = analysis.transfer node (states.near direction node)

theorem joined_of_ne_source {node : Fin n} (ne : node ≠ analysis.source direction) :
    analysis.joined direction states node =
      analysis.lattice.joinAll
        ((analysis.incoming direction node).map (analysis.contribution direction states)) :=
  if_neg ne

theorem IsSolution.solves (solution : analysis.IsSolution direction states) :
    analysis.Solves direction states :=
  fun node ne => ⟨solution.near node, solution.far node ne⟩

theorem IsSolution.eq_of_far_eq (first : analysis.IsSolution direction states)
    (second : analysis.IsSolution direction other)
    (far : ∀ node, states.far direction node = other.far direction node) : states = other := by
  refine States.ext_near_far direction (fun node => ?_) far
  rw [first.near, second.near]
  exact analysis.joined_congr fun neighbour _ => far neighbour

variable [DecidableEq σ]

theorem isFixedPoint_iff_solves :
    analysis.isFixedPoint direction states = true ↔ analysis.Solves direction states := by
  simp only [isFixedPoint, Solves, List.all_eq_true, List.mem_finRange, true_implies,
    Bool.or_eq_true, Bool.and_eq_true, decide_eq_true_eq, or_iff_not_imp_left]
  refine forall_congr' fun node => imp_congr_right fun _ => ?_
  constructor
  · rintro ⟨near, far⟩
    exact ⟨near.symm, near ▸ far.symm⟩
  · rintro ⟨near, far⟩
    exact ⟨near.symm, near ▸ far.symm⟩

theorem analyze_some_isSolution {maxSteps : Nat}
    (solved : analysis.analyze (some direction) maxSteps = .ok states) :
    analysis.IsSolution direction states :=
  analysis.solve_isSolution solved

end Analysis

namespace FlowGraph

variable {scope : Scope} {options : Options} {flow : FlowGraph} {σ : Type}

/-- In a graph that was built, every run that ends leaves a fixed point, for any join and transfer.
At the boundary, which no run takes, the near side is the join over the neighbours and the far side
is the initial state. -/
theorem analyze_isFixedPoint [DecidableEq σ] (built : build scope options = .ok flow)
    (lattice : Lattice σ) (transfer : Fin flow.size → σ → σ) {direction : Direction}
    {maxSteps : Nat} {states : States flow.size σ}
    (solved : (flow.analysis lattice transfer).analyze (some direction) maxSteps = .ok states) :
    (flow.analysis lattice transfer).checkFixedPoint (some direction) states = .ok true ∧
    (flow.analysis lattice transfer).testFixedPoint direction states = .ok true ∧
    (direction = .forward →
      states.input.get flow.exit =
          lattice.joinAll ((flow.graph.pred flow.exit).map fun previous =>
            states.output.get previous) ∧
        states.output.get flow.exit = lattice.init) ∧
    (direction = .backward →
      states.output.get flow.entry =
          lattice.joinAll ((flow.graph.succ flow.entry).map fun next =>
            if next = flow.exit then lattice.init else states.input.get next) ∧
        states.input.get flow.entry = lattice.init) := by
  obtain ⟨_, _, stages⟩ := build_eq_ok built
  have solution := Analysis.analyze_some_isSolution _ solved
  have fixed := (Analysis.isFixedPoint_iff_solves _).2 solution.solves
  refine ⟨congrArg Except.ok fixed, ?_, ?_, ?_⟩
  · rw [Analysis.testFixedPoint_eq_ok _ _ _ fun _ _ => rfl, fixed]
  · rintro rfl
    -- the exit is not the entry, where nothing is joined
    have joined : (flow.analysis lattice transfer).joined .forward states flow.exit = _ :=
      Analysis.joined_of_ne_source _ stages.entry_ne_exit.symm
    exact ⟨(solution.near flow.exit).trans joined, solution.boundary_far⟩
  · rintro rfl
    have joined : (flow.analysis lattice transfer).joined .backward states flow.entry = _ :=
      Analysis.joined_of_ne_source _ stages.entry_ne_exit
    exact ⟨(solution.near flow.entry).trans joined, solution.boundary_far⟩

theorem loopSample_trail_isFixedPoint :
    ∃ flow states, build loopSample {} = .ok flow ∧
      flow.trail.analyze (some .forward) 100 = .ok states ∧
      flow.trail.testFixedPoint .forward states = .ok true ∧
      states.input.get flow.exit = flow.trail.lattice.joinAll
        ((flow.graph.pred flow.exit).map fun previous => states.output.get previous) ∧
      states.output.get flow.exit = [] := by
  have run : succeedsWith (fun flow =>
      succeedsWith (fun _ => true) (flow.trail.analyze (some .forward) 100))
      (build loopSample {}) = true := by decide +kernel
  obtain ⟨flow, built, solved⟩ := succeedsWith_iff.1 run
  obtain ⟨states, solved, -⟩ := succeedsWith_iff.1 solved
  obtain ⟨-, test, boundary, -⟩ := analyze_isFixedPoint built _ _ solved
  exact ⟨flow, states, built, solved, test, boundary rfl⟩

end FlowGraph

/-! ## Runs in any order -/

namespace Analysis

variable {n : Nat} {ν ε σ : Type} {analysis : Analysis n ν ε σ} {direction : Direction}
  {states other : States n σ}

def IsMonotone (analysis : Analysis n ν ε σ) : Prop :=
  ∀ node first second, analysis.lattice.Below first second →
    analysis.lattice.Below (analysis.transfer node first) (analysis.transfer node second)

theorem joined_below (lawful : analysis.lattice.Lawful)
    (below : ∀ node, analysis.lattice.Below (states.far direction node) (other.far direction node))
    (node : Fin n) :
    analysis.lattice.Below (analysis.joined direction states node)
      (analysis.joined direction other node) := by
  unfold joined
  split
  · exact lawful.below_refl _
  · refine lawful.joinAll_below fun neighbour _ => ?_
    cases direction with
    | forward => exact below neighbour
    | backward =>
        simp only [contribution]
        split
        · exact lawful.below_refl _
        · exact below neighbour

theorem Settled.congr {queue queue' : List (Fin n)}
    (settled : analysis.Settled direction ⟨states, queue⟩)
    (same : ∀ node, node ∈ queue' ↔ node ∈ queue) :
    analysis.Settled direction ⟨states, queue'⟩ where
  boundary_off := fun member => settled.boundary_off ((same _).1 member)
  boundary_far := settled.boundary_far
  near := fun node ne absent => settled.near node ne fun member => absent ((same node).2 member)
  far := fun node ne absent => settled.far node ne fun member => absent ((same node).2 member)

variable [DecidableEq σ]

/-- The work at which a run arrives that takes the nodes on the worklist in any order. -/
inductive Reachable (analysis : Analysis n ν ε σ) (direction : Direction) : Work n σ → Prop where
  | start : Reachable analysis direction (analysis.start direction)
  | take (states : States n σ) (before : List (Fin n)) (node : Fin n) (after : List (Fin n))
      (reached : Reachable analysis direction ⟨states, before ++ node :: after⟩) :
      Reachable analysis direction (analysis.process direction states node (before ++ after))

variable {work : Work n σ}

theorem Reachable.of_run {steps : Nat} (reached : analysis.Reachable direction work)
    (finished : analysis.run direction steps work = some states) :
    analysis.Reachable direction ⟨states, []⟩ :=
  analysis.run_induct (fun states node rest reached => .take states [] node rest reached)
    finished reached

theorem Reachable.settled (reached : analysis.Reachable direction work) :
    analysis.Settled direction work := by
  induction reached with
  | start => exact analysis.start_settled
  | take states before node after _ ih =>
      have first : analysis.Settled direction ⟨states, node :: (before ++ after)⟩ := by
        refine ih.congr fun other => ?_
        simp only [List.mem_cons, List.mem_append, or_left_comm]
      exact first.process

theorem Reachable.far_below (lawful : analysis.lattice.Lawful) (monotone : analysis.IsMonotone)
    (solves : analysis.Solves direction other) (reached : analysis.Reachable direction work)
    (node : Fin n) :
    analysis.lattice.Below (work.states.far direction node) (other.far direction node) := by
  induction reached generalizing node with
  | start =>
      rw [Analysis.start, States.far_init]
      exact lawful.init_below _
  | take states before taken after reached ih =>
      rw [far_process]
      split
      · next same =>
          -- the boundary is never on the worklist, so the node has its equations
          have inner : taken ≠ analysis.boundary direction := by
            rintro rfl
            exact reached.settled.boundary_off (by simp)
          obtain ⟨near, far⟩ := solves taken inner
          rw [same, far, near]
          exact monotone taken _ _ (joined_below lawful ih taken)
      · exact ih node

def EndsWith (analysis : Analysis n ν ε σ) (direction : Direction) (states : States n σ) : Prop :=
  ∃ final, analysis.Reachable direction ⟨final, []⟩ ∧
    states = final.setNear direction (analysis.boundary direction)
      (analysis.joined direction final (analysis.boundary direction))

namespace EndsWith

theorem of_analyze {maxSteps : Nat}
    (solved : analysis.analyze (some direction) maxSteps = .ok states) :
    analysis.EndsWith direction states := by
  obtain ⟨final, finished, complete⟩ := analysis.solve_eq_ok solved
  exact ⟨final, .of_run .start finished, complete⟩

theorem isSolution (ends : analysis.EndsWith direction states) :
    analysis.IsSolution direction states := by
  obtain ⟨final, reached, rfl⟩ := ends
  exact reached.settled.isSolution

variable (lawful : analysis.lattice.Lawful) (monotone : analysis.IsMonotone)
  (ends : analysis.EndsWith direction states)

include lawful monotone ends

theorem far_below (solves : analysis.Solves direction other) (node : Fin n) :
    analysis.lattice.Below (states.far direction node) (other.far direction node) := by
  obtain ⟨final, reached, rfl⟩ := ends
  rw [States.far_setNear]
  exact reached.far_below lawful monotone solves node

theorem near_below (solves : analysis.Solves direction other) {node : Fin n}
    (inner : node ≠ analysis.boundary direction) :
    analysis.lattice.Below (states.near direction node) (other.near direction node) := by
  rw [ends.isSolution.near, (solves node inner).1]
  exact joined_below lawful (far_below lawful monotone ends solves) node

theorem unique (others : analysis.EndsWith direction other) : states = other := by
  refine ends.isSolution.eq_of_far_eq _ others.isSolution fun node => ?_
  exact lawful.below_antisymm
    (far_below lawful monotone ends others.isSolution.solves node)
    (far_below lawful monotone others ends.isSolution.solves node)

end EndsWith

/-- With a lawful lattice and a monotone transfer, the states with which a run ends solve the
equations, lie below every other solution at all nodes but the boundary, and are those with which
every run ends, in whatever order it takes the worklist. -/
theorem analyze_least (lawful : analysis.lattice.Lawful) (monotone : analysis.IsMonotone)
    {maxSteps : Nat} (solved : analysis.analyze (some direction) maxSteps = .ok states) :
    analysis.Solves direction states ∧
    (∀ other, analysis.Solves direction other → ∀ node, node ≠ analysis.boundary direction →
      analysis.lattice.Below (states.input.get node) (other.input.get node) ∧
        analysis.lattice.Below (states.output.get node) (other.output.get node)) ∧
    ∀ other, analysis.EndsWith direction other → other = states := by
  have ends := EndsWith.of_analyze solved
  refine ⟨ends.isSolution.solves, fun other solves node inner => ?_, fun other others => ?_⟩
  · have far := ends.far_below lawful monotone solves node
    have near := ends.near_below lawful monotone solves inner
    cases direction with
    | forward => exact ⟨near, far⟩
    | backward => exact ⟨far, near⟩
  · exact others.unique lawful monotone ends

end Analysis

/-! ## Live names -/

theorem Lattice.names_lawful : Lattice.names.Lawful where
  comm := fun _ _ => SortedSet.ext fun _ => by simp [names, or_comm]
  assoc := fun _ _ _ => SortedSet.ext fun _ => by simp [names, or_assoc]
  idem := fun _ => SortedSet.ext fun _ => by simp [names]
  identity := fun _ => SortedSet.ext fun _ => by simp [names]

theorem Lattice.names_below_iff {first second : SortedSet String} :
    Lattice.names.Below first second ↔ ∀ name ∈ first, name ∈ second := by
  constructor
  · intro below name member
    rw [← below]
    exact SortedSet.mem_union.2 (.inl member)
  · intro subset
    exact SortedSet.ext fun name => SortedSet.mem_union.trans (or_iff_right_of_imp (subset name))

theorem Statement.mem_liveBefore_iff {statement : Statement} {live : SortedSet String}
    {name : String} :
    name ∈ statement.liveBefore live ↔
      name ∈ live ∧ name ∉ statement.stores ∨ name ∈ statement.uses := by
  simp [liveBefore]

theorem FlowGraph.live_monotone (flow : FlowGraph) : flow.live.IsMonotone := by
  intro node first second below
  refine Lattice.names_below_iff.2 ?_
  have subset := Lattice.names_below_iff.1 below
  change ∀ name ∈ (flow.statementsOf node).foldr Statement.liveBefore first,
    name ∈ (flow.statementsOf node).foldr Statement.liveBefore second
  induction flow.statementsOf node with
  | nil => exact subset
  | cons statement rest ih =>
      intro name
      simp only [List.foldr_cons, Statement.mem_liveBefore_iff]
      exact Or.imp_left (And.imp_left (ih name))

theorem FlowGraph.loopSample_live_at_header :
    ∃ flow states node, build loopSample {} = .ok flow ∧
      flow.live.analyze (some .backward) 100 = .ok states ∧ flow.nodeOf? 1 = some node ∧
      (states.input.get node).toList = ["x"] ∧
      (∀ other, flow.live.Solves .backward other → "x" ∈ other.input.get node) ∧
      ∀ other, flow.live.EndsWith .backward other → other = states := by
  have run : succeedsWith (fun flow =>
      succeedsWith (fun states => (flow.nodeOf? 1).any fun node =>
          node ≠ flow.entry && (states.input.get node).toList = ["x"])
        (flow.live.analyze (some .backward) 100))
      (build loopSample {}) = true := by decide +kernel
  obtain ⟨flow, built, solved⟩ := succeedsWith_iff.1 run
  obtain ⟨states, solved, found⟩ := succeedsWith_iff.1 solved
  obtain ⟨some, found⟩ := (Option.any_eq_true_iff_get _ _).1 found
  simp only [Bool.and_eq_true, decide_eq_true_eq] at found
  obtain ⟨-, least, unique⟩ := Analysis.analyze_least Lattice.names_lawful flow.live_monotone solved
  refine ⟨flow, states, _, built, solved, (Option.some_get some).symm, found.2, ?_, unique⟩
  intro other solves
  refine Lattice.names_below_iff.1 (least other solves _ found.1).1 "x" ?_
  simp [← SortedSet.mem_toList, found.2]

end StackFlow
