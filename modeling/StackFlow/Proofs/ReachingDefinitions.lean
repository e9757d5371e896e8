import Mathlib.Data.List.Induction
import StackFlow.DefUse.Reaching
import StackFlow.Proofs.FlowGraph
import StackFlow.Proofs.Path
import StackFlow.Proofs.Worklist

/-!
# Reaching definitions

A definition reaches a node along a clear path: the block at its start assigns the variable there
last, and no block in between assigns it at all.  The definitions that the analysis finds at the
input of a node are exactly those that reach it so.  In one direction this is an invariant of the
worklist run, in the other an induction over the path in the solution.
-/

namespace StackFlow

/-- The statement assigns the variable.  The constant `None` is no variable. -/
def Statement.Assigns (statement : Statement) (name : String) : Prop :=
  name ∈ statement.stores ∧ name ≠ "None"

def Keeps (statements : List Statement) (name : String) : Prop :=
  ∀ statement ∈ statements, ¬ statement.Assigns name

/-- The statement assigns the variable, and no later one does. -/
def LastAssignment (statements : List Statement) (name : String) (statement : Statement) : Prop :=
  ∃ before after, statements = before ++ statement :: after ∧ statement.Assigns name ∧
    Keeps after name

theorem keeps_cons {statement : Statement} {rest : List Statement} {name : String} :
    Keeps (statement :: rest) name ↔ ¬ statement.Assigns name ∧ Keeps rest name :=
  List.forall_mem_cons

theorem lastAssignment_cons {first statement : Statement} {rest : List Statement} {name : String} :
    LastAssignment (first :: rest) name statement ↔
      LastAssignment rest name statement ∨
        statement = first ∧ first.Assigns name ∧ Keeps rest name := by
  constructor
  · rintro ⟨_ | ⟨head, before⟩, after, split, assigns, keeps⟩
    · obtain ⟨rfl, rfl⟩ := List.cons_eq_cons.1 split
      exact .inr ⟨rfl, assigns, keeps⟩
    · obtain ⟨rfl, rfl⟩ := List.cons_eq_cons.1 split
      exact .inl ⟨before, after, rfl, assigns, keeps⟩
  · rintro (⟨before, after, rfl, assigns, keeps⟩ | ⟨rfl, assigns, keeps⟩)
    · exact ⟨first :: before, after, rfl, assigns, keeps⟩
    · exact ⟨[], rest, rfl, assigns, keeps⟩

theorem LastAssignment.mem {statements : List Statement} {statement : Statement} {name : String}
    (last : LastAssignment statements name statement) : statement ∈ statements := by
  obtain ⟨before, after, rfl, -⟩ := last
  simp

/-! ## States -/

namespace Reaching

variable {state : Reaching} {statement : Statement} {name : String} {address : Nat}

def Defines (state : Reaching) (name : String) (address : Nat) : Prop :=
  ∃ addresses, state.generated.get? name = some addresses ∧ address ∈ addresses

theorem not_defines_init : ¬ Defines lattice.init name address := by
  rintro ⟨addresses, found, -⟩
  cases found

theorem defines_join_iff {first second : Reaching} :
    (first.join second).Defines name address ↔
      first.Defines name address ∨ second.Defines name address := by
  unfold Defines join AddressMap.union
  rw [SortedMap.get?_unionWith]
  cases first.generated.get? name <;> cases second.generated.get? name <;>
    simp [SortedMap.merged]

theorem defines_joinAll_iff {states : List Reaching} :
    (lattice.joinAll states).Defines name address ↔
      ∃ state ∈ states, state.Defines name address := by
  have general : ∀ (states : List Reaching) (start : Reaching),
      (states.foldl join start).Defines name address ↔
        start.Defines name address ∨ ∃ state ∈ states, state.Defines name address := by
    intro states
    induction states with
    | nil => simp
    | cons head rest ih =>
        intro start
        rw [List.foldl_cons, ih, defines_join_iff, or_assoc, List.exists_mem_cons_iff]
  exact (general states _).trans (or_iff_right not_defines_init)

theorem generated_foldl_useAt (names : List String) (state : Reaching) :
    (names.foldl (useAt address) state).generated = state.generated := by
  induction names generalizing state with
  | nil => rfl
  | cons head rest ih => rw [List.foldl_cons, ih, useAt]

theorem defines_defineAt_iff {stored : String} {start : Nat} :
    (defineAt start state stored).Defines name address ↔
      if name = stored ∧ name ≠ "None" then address = start else state.Defines name address := by
  unfold defineAt Defines
  by_cases constant : stored = "None"
  · rw [if_pos constant, if_neg]
    rintro ⟨rfl, ne⟩
    exact ne constant
  · rw [if_neg constant]
    by_cases same : name = stored
    · subst same
      rw [if_pos ⟨rfl, constant⟩]
      simp [SortedMap.get?_insert_self]
    · rw [if_neg fun both => same both.1]
      simp only [SortedMap.get?_insert_ne _ same]

theorem defines_foldl_defineAt_iff {start : Nat} {stores : List String} :
    (stores.foldl (defineAt start) state).Defines name address ↔
      if name ∈ stores ∧ name ≠ "None" then address = start else state.Defines name address := by
  induction stores generalizing state with
  | nil => simp
  | cons head rest ih =>
      rw [List.foldl_cons, ih, defines_defineAt_iff]
      by_cases later : name ∈ rest ∧ name ≠ "None"
      · rw [if_pos later, if_pos ⟨List.mem_cons_of_mem _ later.1, later.2⟩]
      · rw [if_neg later]
        by_cases now : name = head ∧ name ≠ "None"
        · rw [if_pos now, if_pos ⟨now.1 ▸ List.mem_cons_self, now.2⟩]
        · rw [if_neg now, if_neg]
          rintro ⟨member, ne⟩
          rcases List.mem_cons.1 member with heq | member
          · exact now ⟨heq, ne⟩
          · exact later ⟨member, ne⟩

theorem defines_step_iff :
    (state.step statement).Defines name address ↔
      statement.Assigns name ∧ statement.start = address ∨
        ¬ statement.Assigns name ∧ state.Defines name address := by
  unfold step
  rw [defines_foldl_defineAt_iff]
  have same : ((statement.uses.foldl (useAt statement.start) state).Defines name address) ↔
      state.Defines name address := by
    unfold Defines
    rw [generated_foldl_useAt]
  unfold Statement.Assigns
  split
  · next assigns => simp [assigns, eq_comm]
  · next keeps => simp [keeps, same]

theorem defines_foldl_step_iff {statements : List Statement} :
    (statements.foldl step state).Defines name address ↔
      (∃ statement, LastAssignment statements name statement ∧ statement.start = address) ∨
        Keeps statements name ∧ state.Defines name address := by
  induction statements generalizing state with
  | nil => simp [LastAssignment, Keeps]
  | cons first rest ih =>
      rw [List.foldl_cons, ih, defines_step_iff, keeps_cons]
      simp only [lastAssignment_cons]
      constructor
      · rintro (⟨statement, last, start⟩ | ⟨keeps, ⟨assigns, start⟩ | ⟨skips, defines⟩⟩)
        · exact .inl ⟨statement, .inl last, start⟩
        · exact .inl ⟨first, .inr ⟨rfl, assigns, keeps⟩, start⟩
        · exact .inr ⟨⟨skips, keeps⟩, defines⟩
      · rintro (⟨statement, last | ⟨rfl, assigns, keeps⟩, start⟩ | ⟨⟨skips, keeps⟩, defines⟩)
        · exact .inl ⟨statement, last, start⟩
        · exact .inr ⟨keeps, .inl ⟨assigns, start⟩⟩
        · exact .inr ⟨keeps, .inr ⟨skips, defines⟩⟩

end Reaching

/-! ## Clear paths -/

namespace FlowGraph

variable {flow : FlowGraph} {name : String} {source node : Fin flow.size} {address : Nat}

/-- A path of one edge or more, between whose ends no block assigns the variable. -/
def ClearPath (flow : FlowGraph) (name : String) (source node : Fin flow.size) : Prop :=
  ∃ middle, Path flow.graph.succ source node (source :: (middle ++ [node])) ∧
    ∀ other ∈ middle, Keeps (flow.statementsOf other) name

theorem ClearPath.edge (edge : node ∈ flow.graph.succ source) : flow.ClearPath name source node :=
  ⟨[], .cons edge (.single node), by simp⟩

theorem ClearPath.snoc {next : Fin flow.size} (clear : flow.ClearPath name source node)
    (keeps : Keeps (flow.statementsOf node) name) (edge : next ∈ flow.graph.succ node) :
    flow.ClearPath name source next := by
  obtain ⟨middle, path, clean⟩ := clear
  refine ⟨middle ++ [node], by simpa using path.snoc edge, fun other member => ?_⟩
  rcases List.mem_append.1 member with member | member
  · exact clean other member
  · exact List.mem_singleton.1 member ▸ keeps

theorem ClearPath.induct {motive : Fin flow.size → Prop} (clear : flow.ClearPath name source node)
    (first : ∀ next ∈ flow.graph.succ source, motive next)
    (step : ∀ previous, flow.ClearPath name source previous →
      Keeps (flow.statementsOf previous) name → motive previous →
      ∀ next ∈ flow.graph.succ previous, motive next) : motive node := by
  obtain ⟨middle, path, clean⟩ := clear
  induction middle using List.reverseRecOn generalizing node with
  | nil =>
      cases path with
      | cons edge tail =>
          cases tail with
          | single => exact first _ edge
          | cons edge rest => cases rest
  | append_singleton middle previous ih =>
      -- the last edge leaves the last node in between
      rcases path.cases_snoc with ⟨-, short⟩ | ⟨last, start, initial, edge, split⟩
      · simp at short
      · have same : (source :: (middle ++ [previous])) ++ [node] = start ++ [node] := split
        obtain rfl := List.append_cancel_right same
        obtain rfl : last = previous := by
          rcases initial.cases_snoc with ⟨-, short⟩ | ⟨_, before, -, -, again⟩
          · simp at short
          · have ends : (source :: middle) ++ [previous] = before ++ [last] := again
            exact (List.singleton_inj.1 (List.append_inj' ends rfl).2).symm
        have rest : ∀ other ∈ middle, Keeps (flow.statementsOf other) name :=
          fun other member => clean other (List.mem_append_left _ member)
        exact step last ⟨middle, initial, rest⟩ (clean last (by simp)) (ih initial rest) node edge

def Arrives (flow : FlowGraph) (node : Fin flow.size) (name : String) (address : Nat) : Prop :=
  ∃ source statement, LastAssignment (flow.statementsOf source) name statement ∧
    statement.start = address ∧ flow.ClearPath name source node

def Departs (flow : FlowGraph) (node : Fin flow.size) (name : String) (address : Nat) : Prop :=
  (∃ statement, LastAssignment (flow.statementsOf node) name statement ∧
      statement.start = address) ∨
    Keeps (flow.statementsOf node) name ∧ flow.Arrives node name address

theorem Arrives.of_departs {previous : Fin flow.size} (departs : flow.Departs previous name address)
    (edge : node ∈ flow.graph.succ previous) : flow.Arrives node name address := by
  rcases departs with ⟨statement, last, start⟩ | ⟨keeps, source, statement, last, start, clear⟩
  · exact ⟨previous, statement, last, start, .edge edge⟩
  · exact ⟨source, statement, last, start, clear.snoc keeps edge⟩

/-! ## Definitions in the solution -/

variable {states : States flow.size Reaching} {maxSteps : Nat}

theorem defines_joined_iff (wellFormed : flow.WellFormed) :
    (flow.reaching.joined .forward states node).Defines name address ↔
      ∃ previous, node ∈ flow.graph.succ previous ∧
        (states.output.get previous).Defines name address := by
  unfold Analysis.joined
  split
  · next hentry =>
      obtain rfl : node = flow.entry := hentry
      constructor
      · exact fun defines => absurd defines Reaching.not_defines_init
      · rintro ⟨previous, edge, -⟩
        exact absurd edge (wellFormed.entry_source previous)
  · refine Reaching.defines_joinAll_iff.trans ?_
    simp only [List.mem_map, exists_exists_and_eq_and]
    refine exists_congr fun previous => and_congr_left fun _ => ?_
    exact Digraph.mem_pred_iff_mem_succ

theorem departs_of_defines_output (wellFormed : flow.WellFormed)
    (solved : flow.reaching.solve .forward maxSteps = .ok states)
    (defines : (states.output.get node).Defines name address) :
    flow.Departs node name address := by
  refine flow.reaching.solve_far_induct
    (motive := fun node state => state.Defines name address → flow.Departs node name address)
    (fun _ initial => absurd initial Reaching.not_defines_init) ?_ solved node defines
  intro current node departs transferred
  rcases Reaching.defines_foldl_step_iff.1 transferred with last | ⟨keeps, joined⟩
  · exact .inl last
  · obtain ⟨previous, edge, before⟩ := (defines_joined_iff wellFormed).1 joined
    exact .inr ⟨keeps, .of_departs (departs previous before) edge⟩

theorem defines_input_of_output (wellFormed : flow.WellFormed)
    (solved : flow.reaching.solve .forward maxSteps = .ok states) {previous : Fin flow.size}
    (edge : node ∈ flow.graph.succ previous)
    (defines : (states.output.get previous).Defines name address) :
    (states.input.get node).Defines name address := by
  have joined : states.input.get node = flow.reaching.joined .forward states node :=
    (flow.reaching.solve_isSolution solved).near node
  rw [joined, defines_joined_iff wellFormed]
  exact ⟨previous, edge, defines⟩

theorem defines_output_iff (wellFormed : flow.WellFormed)
    (solved : flow.reaching.solve .forward maxSteps = .ok states) {next : Fin flow.size}
    (edge : next ∈ flow.graph.succ node) :
    (states.output.get node).Defines name address ↔
      (∃ statement, LastAssignment (flow.statementsOf node) name statement ∧
          statement.start = address) ∨
        Keeps (flow.statementsOf node) name ∧ (states.input.get node).Defines name address := by
  have inner : node ≠ flow.exit := by
    rintro rfl
    exact wellFormed.exit_sink next edge
  have transferred : states.output.get node =
      (flow.statementsOf node).foldl Reaching.step (states.input.get node) :=
    (flow.reaching.solve_isSolution solved).far node inner
  rw [transferred, Reaching.defines_foldl_step_iff]

theorem defines_input_iff_arrives (wellFormed : flow.WellFormed)
    (solved : flow.reaching.solve .forward maxSteps = .ok states) :
    (states.input.get node).Defines name address ↔ flow.Arrives node name address := by
  constructor
  · intro defines
    have joined : states.input.get node = flow.reaching.joined .forward states node :=
      (flow.reaching.solve_isSolution solved).near node
    rw [joined, defines_joined_iff wellFormed] at defines
    obtain ⟨previous, edge, before⟩ := defines
    exact .of_departs (departs_of_defines_output wellFormed solved before) edge
  · rintro ⟨source, statement, last, start, clear⟩
    -- along the path the definition is handed on from output to input
    refine clear.induct (motive := fun node => (states.input.get node).Defines name address)
      (fun next edge => ?_) (fun previous _ keeps defines next edge => ?_)
    · have leaves := (defines_output_iff wellFormed solved edge).2 (.inl ⟨statement, last, start⟩)
      exact defines_input_of_output wellFormed solved edge leaves
    · have passes := (defines_output_iff wellFormed solved edge).2 (.inr ⟨keeps, defines⟩)
      exact defines_input_of_output wellFormed solved edge passes

/-- In a graph that was built, and for every ceiling under which the run ends, an address is among
the definitions of a variable at the input of a node exactly if a path of one edge or more leads to
the node from a block whose last assignment of the variable starts there, and no block in between
assigns the variable. -/
theorem defines_input_iff_exists_path {scope : Scope} {options : Options}
    (built : build scope options = .ok flow)
    (solved : flow.reaching.solve .forward maxSteps = .ok states)
    (node : Fin flow.size) (name : String) (address : Nat) :
    (states.input.get node).Defines name address ↔
      ∃ source middle statement,
        Path flow.graph.succ source node (source :: (middle ++ [node])) ∧
        LastAssignment (flow.statementsOf source) name statement ∧ statement.start = address ∧
        ∀ other ∈ middle, Keeps (flow.statementsOf other) name := by
  rw [defines_input_iff_arrives (build_wellFormed built) solved]
  constructor
  · rintro ⟨source, statement, last, start, middle, path, keeps⟩
    exact ⟨source, middle, statement, path, last, start, keeps⟩
  · rintro ⟨source, middle, statement, path, last, start, keeps⟩
    exact ⟨source, statement, last, start, middle, path, keeps⟩

def definitionsAt? (scope : Scope) (maxSteps block : Nat) (name : String) : Option (List Nat) :=
  match build scope {} with
  | .error _ => none
  | .ok flow =>
      match flow.reaching.solve .forward maxSteps with
      | .error _ => none
      | .ok states => do
          let node ← flow.nodeOf? block
          let addresses ← (states.input.get node).generated.get? name
          return addresses.toList

theorem definitionsAt?_eq_some {scope : Scope} {block : Nat} {addresses : List Nat}
    (found : definitionsAt? scope maxSteps block name = some addresses) :
    ∃ flow states node, build scope {} = .ok flow ∧
      flow.reaching.solve .forward maxSteps = .ok states ∧ flow.nodeOf? block = some node ∧
      ∀ address, (states.input.get node).Defines name address ↔ address ∈ addresses := by
  unfold definitionsAt? at found
  split at found
  · cases found
  · next flow built =>
      split at found
      · cases found
      · next states solved =>
          simp only [Option.bind_eq_bind, Option.bind_eq_some_iff, Option.pure_def,
            Option.some.injEq] at found
          obtain ⟨node, hnode, set, hset, rfl⟩ := found
          exact ⟨flow, states, node, built, solved, hnode, fun address => by
            simp [Reaching.Defines, hset, SortedSet.mem_toList]⟩

def loopSample : Scope :=
  { instructions := [
      ⟨0, .loadConst, .const (.int 0), 1, 0, false⟩,
      ⟨3, .storeName, .name "x", 1, 0, false⟩,
      ⟨6, .loadName, .name "x", 2, 0, false⟩,
      ⟨9, .popJumpIfFalse, .arg 21, 2, 0, false⟩,
      ⟨12, .loadConst, .const (.int 1), 3, 0, false⟩,
      ⟨15, .storeName, .name "x", 3, 0, false⟩,
      ⟨18, .jumpAbsolute, .arg 6, 3, 0, false⟩,
      ⟨21, .loadName, .name "x", 4, 0, false⟩,
      ⟨24, .returnValue, .none, 4, 0, false⟩]
    sorted := by decide }

theorem loopSample_definitions_at_header :
    ∃ flow states node, build loopSample {} = .ok flow ∧
      flow.reaching.solve .forward 100 = .ok states ∧ flow.nodeOf? 1 = some node ∧
      ∀ address, address = 0 ∨ address = 12 ↔
        ∃ source middle statement,
          Path flow.graph.succ source node (source :: (middle ++ [node])) ∧
          LastAssignment (flow.statementsOf source) "x" statement ∧ statement.start = address ∧
          ∀ other ∈ middle, Keeps (flow.statementsOf other) "x" := by
  have run : definitionsAt? loopSample 100 1 "x" = some [0, 12] := by decide +kernel
  obtain ⟨flow, states, node, built, solved, hnode, defines⟩ := definitionsAt?_eq_some run
  refine ⟨flow, states, node, built, solved, hnode, fun address => ?_⟩
  rw [← defines_input_iff_exists_path built solved node "x" address, defines]
  simp

end FlowGraph

end StackFlow
