import Mathlib.Algebra.BigOperators.Fin
import StackFlow.DefUse.Chains
import StackFlow.Proofs.ReachingLattice

/-!
# Convergence of a dataflow analysis

With a lawful lattice and a monotone transfer, the state on the far side of a node only rises.
Every step of a run takes a node off the worklist, and puts nodes on it only where the state of a
node has risen, at most one for every edge that leaves it.  So the length of the worklist and the
rises that are still possible, each counted once for every such edge, bound the steps that are left.

For any lattice and transfer, the ceiling decides only whether a run ends.  No run ends with fewer
steps than there are nodes beside the boundary.
-/

namespace StackFlow

open Finset

/-! ## Rising chains -/

namespace Lattice

variable {σ : Type} {lattice : Lattice σ} {carrier : σ → Prop} {count : Nat} {state : σ}

def Rises (lattice : Lattice σ) (low high : σ) : Prop :=
  lattice.Below low high ∧ low ≠ high

inductive Climb (lattice : Lattice σ) (carrier : σ → Prop) : Nat → σ → Prop where
  | init : Climb lattice carrier 0 lattice.init
  | rise {count : Nat} {low high : σ} (climb : Climb lattice carrier count low)
      (carried : carrier high) (rises : lattice.Rises low high) :
      Climb lattice carrier (count + 1) high

theorem Climb.carried (climb : lattice.Climb carrier count state) (init : carrier lattice.init) :
    carrier state := by
  cases climb with
  | init => exact init
  | rise _ carried _ => exact carried

theorem Climb.exists_chain (climb : lattice.Climb carrier count state) :
    ∃ chain, (lattice.init :: chain).IsChain lattice.Rises ∧ chain.length = count ∧
      (lattice.init :: chain).getLast? = some state := by
  induction climb with
  | init => exact ⟨[], by simp⟩
  | @rise count low high _ _ rises ih =>
      obtain ⟨chain, ascending, length, last⟩ := ih
      refine ⟨chain ++ [high], ?_, by rw [List.length_append, length]; rfl, ?_⟩
      · rw [← List.cons_append, List.isChain_append]
        refine ⟨ascending, List.isChain_singleton high, ?_⟩
        intro state hstate other hother
        rw [last, Option.mem_some_iff] at hstate
        rw [List.head?_singleton, Option.mem_some_iff] at hother
        rwa [← hstate, ← hother]
      · rw [← List.cons_append, List.getLast?_concat]

theorem Climb.le_measure {measure : σ → Nat}
    (grows : ∀ low high, carrier low → carrier high → lattice.Rises low high →
      measure low < measure high) (init : carrier lattice.init)
    (climb : lattice.Climb carrier count state) : count ≤ measure state := by
  induction climb with
  | init => exact Nat.zero_le _
  | rise climb carried rises ih =>
      have lt := grows _ _ (climb.carried init) carried rises
      omega

end Lattice

/-! ## The steps that are left -/

theorem sum_length_filter {n : Nat} {α : Type} (key : α → Fin n) (items : List α) :
    ∑ node, (items.filter fun item => key item == node).length = items.length := by
  induction items with
  | nil => simp
  | cons item items ih =>
      have split : ∀ node, ((item :: items).filter fun item => key item == node).length =
          (items.filter fun item => key item == node).length +
            if key item = node then 1 else 0 := by
        intro node
        by_cases same : key item = node <;> simp [same]
      simp only [split, sum_add_distrib, ih, sum_ite_eq, mem_univ, if_true, List.length_cons]

namespace Analysis

variable {n : Nat} {ν ε σ : Type} {analysis : Analysis n ν ε σ} {direction : Direction}
  {carrier : σ → Prop} {states : States n σ} {rises : Fin n → Nat} {height : Nat}

structure Closed (analysis : Analysis n ν ε σ) (carrier : σ → Prop) : Prop where
  init : carrier analysis.lattice.init
  join : ∀ first second, carrier first → carrier second →
    carrier (analysis.lattice.join first second)
  transfer : ∀ node state, carrier state → carrier (analysis.transfer node state)

theorem Closed.joined (closed : analysis.Closed carrier)
    (carried : ∀ node, carrier (states.far direction node)) (node : Fin n) :
    carrier (analysis.joined direction states node) := by
  unfold Analysis.joined
  split
  · exact closed.init
  · refine List.foldlRecOn _ _ (motive := carrier) closed.init fun state hstate other member => ?_
    obtain ⟨neighbour, -, rfl⟩ := List.mem_map.1 member
    refine closed.join _ _ hstate ?_
    cases direction with
    | forward => exact carried neighbour
    | backward =>
        simp only [contribution]
        split
        · exact closed.init
        · exact carried neighbour

/-- The far side of every node has risen a number of times, and taking the node again would not
lower it. -/
structure Climbing (analysis : Analysis n ν ε σ) (direction : Direction) (carrier : σ → Prop)
    (rises : Fin n → Nat) (states : States n σ) : Prop where
  climb : ∀ node, analysis.lattice.Climb carrier (rises node) (states.far direction node)
  grows : ∀ node, analysis.lattice.Below (states.far direction node)
    (analysis.transfer node (analysis.joined direction states node))

/-- The places on the worklist that the rises still possible can fill. -/
def credit (analysis : Analysis n ν ε σ) (direction : Direction) (height : Nat)
    (rises : Fin n → Nat) : Nat :=
  ∑ node, (height - rises node) * (analysis.outgoing direction node).length

theorem credit_zero (analysis : Analysis n ν ε σ) (direction : Direction) (height : Nat) :
    analysis.credit direction height (fun _ => 0) = height * analysis.graph.edges.length := by
  unfold credit
  simp only [Nat.sub_zero, ← Finset.mul_sum]
  congr 1
  cases direction with
  | forward =>
      simp only [outgoing, Digraph.succ, List.length_map]
      exact sum_length_filter Edge.source analysis.graph.edges
  | backward =>
      simp only [outgoing, Digraph.pred, List.length_map]
      exact sum_length_filter Edge.target analysis.graph.edges

theorem credit_update (analysis : Analysis n ν ε σ) (direction : Direction) {node : Fin n}
    (lt : rises node < height) :
    analysis.credit direction height (Function.update rises node (rises node + 1)) +
        (analysis.outgoing direction node).length =
      analysis.credit direction height rises := by
  have others : ∀ other ∈ univ.erase node,
      (height - Function.update rises node (rises node + 1) other) *
          (analysis.outgoing direction other).length =
        (height - rises other) * (analysis.outgoing direction other).length := by
    intro other member
    rw [Function.update_of_ne (ne_of_mem_erase member)]
  have here : height - rises node = height - (rises node + 1) + 1 := by omega
  unfold credit
  rw [← add_sum_erase univ _ (mem_univ node), sum_congr rfl others, Function.update_self,
    ← add_sum_erase univ (fun other => (height - rises other) * _) (mem_univ node), here,
    Nat.add_mul, Nat.one_mul]
  omega

/-! ## Runs -/

theorem length_queue_start (analysis : Analysis n ν ε σ) (direction : Direction) :
    (analysis.start direction).queue.length = n - 1 := by
  have erased : (analysis.start direction).queue =
      (List.finRange n).erase (analysis.boundary direction) := by
    rw [(List.nodup_finRange n).erase_eq_filter]
    exact List.filter_congr fun node _ => by rw [bne, beq_eq_decide, decide_not]
  rw [erased, List.length_erase_of_mem (List.mem_finRange _), List.length_finRange]

theorem climbing_start (lawful : analysis.lattice.Lawful) :
    analysis.Climbing direction carrier (fun _ => 0) (analysis.start direction).states where
  climb := by
    intro node
    rw [start, States.far_init]
    exact .init
  grows := by
    intro node
    rw [start, States.far_init]
    exact lawful.init_below _

variable [DecidableEq σ]

theorem length_enqueue_le (boundary : Fin n) (queue nodes : List (Fin n)) :
    (enqueue boundary queue nodes).length ≤ queue.length + nodes.length := by
  unfold enqueue
  induction nodes generalizing queue with
  | nil => exact Nat.le_refl _
  | cons node nodes ih =>
      rw [List.foldl_cons, List.length_cons]
      split
      · have le := ih queue
        omega
      · have le := ih (queue ++ [node])
        rw [List.length_append, List.length_singleton] at le
        omega

section Step

variable (lawful : analysis.lattice.Lawful) (monotone : analysis.IsMonotone)
  (closed : analysis.Closed carrier)

include lawful monotone closed

theorem Climbing.process (climbing : analysis.Climbing direction carrier rises states)
    (node : Fin n) (rest : List (Fin n)) :
    analysis.Climbing direction carrier
      (if analysis.transfer node (analysis.joined direction states node) =
          states.far direction node then rises
        else Function.update rises node (rises node + 1))
      (analysis.process direction states node rest).states := by
  have higher : ∀ other, analysis.lattice.Below (states.far direction other)
      ((analysis.process direction states node rest).states.far direction other) := by
    intro other
    rw [far_process]
    split
    · next same => exact same ▸ climbing.grows node
    · exact lawful.below_refl _
  refine ⟨fun other => ?_, fun other => ?_⟩
  · rw [far_process]
    by_cases same : analysis.transfer node (analysis.joined direction states node) =
        states.far direction node
    · rw [if_pos same]
      split
      · next heq => rw [same, heq]; exact climbing.climb node
      · exact climbing.climb other
    · rw [if_neg same]
      split
      · next heq =>
          have carried := closed.transfer node _
            (closed.joined (fun other => (climbing.climb other).carried closed.init) node)
          rw [heq, Function.update_self]
          exact .rise (climbing.climb node) carried ⟨climbing.grows node, Ne.symm same⟩
      · next ne =>
          rw [Function.update_of_ne ne]
          exact climbing.climb other
  · have grown := monotone other _ _ (joined_below lawful higher other)
    rw [far_process]
    split
    · next heq => exact heq ▸ grown
    · exact lawful.below_trans (climbing.grows other) grown

theorem Climbing.exists_next
    (bounded : ∀ count state, analysis.lattice.Climb carrier count state → count ≤ height)
    (climbing : analysis.Climbing direction carrier rises states) (node : Fin n)
    (rest : List (Fin n)) :
    ∃ next, analysis.Climbing direction carrier next
        (analysis.process direction states node rest).states ∧
      (analysis.process direction states node rest).queue.length +
          analysis.credit direction height next ≤
        rest.length + analysis.credit direction height rises := by
  refine ⟨_, climbing.process lawful monotone closed node rest, ?_⟩
  unfold Analysis.process
  simp only [States.far_setNear]
  split
  · exact Nat.le_refl _
  · next changed =>
      have risen := (climbing.process lawful monotone closed node rest).climb node
      rw [if_neg changed, Function.update_self] at risen
      have lt : rises node < height := bounded _ _ risen
      have spent := analysis.credit_update direction lt
      have le := length_enqueue_le (analysis.boundary direction) rest
        (analysis.outgoing direction node)
      simp only
      omega

theorem exists_run_eq_some
    (bounded : ∀ count state, analysis.lattice.Climb carrier count state → count ≤ height)
    {steps : Nat} {work : Work n σ}
    (climbing : analysis.Climbing direction carrier rises work.states)
    (enough : work.queue.length + analysis.credit direction height rises ≤ steps) :
    ∃ final, analysis.run direction steps work = some final := by
  induction steps generalizing work rises with
  | zero =>
      obtain ⟨states, _ | ⟨node, rest⟩⟩ := work
      · exact ⟨states, rfl⟩
      · simp at enough
  | succ steps ih =>
      obtain ⟨states, _ | ⟨node, rest⟩⟩ := work
      · exact ⟨states, rfl⟩
      · simp only [List.length_cons] at climbing enough
        obtain ⟨next, climbing, less⟩ :=
          climbing.exists_next lawful monotone closed bounded node rest
        exact ih climbing (by omega)

theorem exists_solve_eq_ok
    (bounded : ∀ count state, analysis.lattice.Climb carrier count state → count ≤ height)
    {maxSteps : Nat} (enough : n - 1 + height * analysis.graph.edges.length ≤ maxSteps) :
    ∃ states, analysis.solve direction maxSteps = .ok states := by
  rw [← analysis.length_queue_start direction, ← analysis.credit_zero direction] at enough
  obtain ⟨final, finished⟩ := exists_run_eq_some lawful monotone closed bounded
    (climbing_start lawful) enough
  exact ⟨_, by rw [solve, finished]⟩

end Step

end Analysis

theorem FlowGraph.reaching_closed (flow : FlowGraph) :
    flow.reaching.Closed (Reaching.Within flow.names flow.addresses) where
  init := fun _ _ _ holds => absurd holds Reaching.not_holds_init
  join := fun _ _ => .join
  transfer := fun _ _ => flow.within_transfer

theorem FlowGraph.reaching_bounded (flow : FlowGraph) (count : Nat) (state : Reaching)
    (climb : Reaching.lattice.Climb (Reaching.Within flow.names flow.addresses) count state) :
    count ≤ (Reaching.entries flow.names flow.addresses).card := by
  have grows : ∀ low high : Reaching, low.Within flow.names flow.addresses →
      high.Within flow.names flow.addresses → Reaching.lattice.Rises low high →
      low.weight flow.names flow.addresses < high.weight flow.names flow.addresses :=
    fun _ _ _ within rises => Reaching.weight_lt within rises.1 rises.2
  exact (climb.le_measure grows flow.reaching_closed.init).trans state.weight_le

/-- A run converges within a step for every node but the boundary, and one for every edge and every
rise that a state can make.  The states of the definition-use analysis can rise only as often as
the statements of the graph can make entries. -/
theorem analyze_converges :
    (∀ {n : Nat} {ν ε σ : Type} [DecidableEq σ] (analysis : Analysis n ν ε σ)
      (direction : Direction) (height maxSteps : Nat),
      analysis.lattice.Lawful → analysis.IsMonotone →
      (∀ chain, (analysis.lattice.init :: chain).IsChain analysis.lattice.Rises →
        chain.length ≤ height) →
      n - 1 + height * analysis.graph.edges.length ≤ maxSteps →
      ∃ states, analysis.analyze (some direction) maxSteps = .ok states) ∧
    ∀ flow : FlowGraph, ∃ ceiling, ∀ maxSteps, ceiling ≤ maxSteps →
      ∃ chains, Chains.compute flow maxSteps = .ok chains := by
  constructor
  · intro n ν ε σ _ analysis direction height maxSteps lawful monotone bounded enough
    have all : analysis.Closed fun _ => True :=
      ⟨trivial, fun _ _ _ _ => trivial, fun _ _ _ => trivial⟩
    refine Analysis.exists_solve_eq_ok lawful monotone all (fun count state climb => ?_) enough
    obtain ⟨chain, ascending, rfl, -⟩ := climb.exists_chain
    exact bounded chain ascending
  · intro flow
    refine ⟨flow.size - 1 + (Reaching.entries flow.names flow.addresses).card *
      flow.graph.edges.length, fun maxSteps enough => ?_⟩
    have converges : ∃ states, flow.reaching.solve .forward maxSteps = .ok states :=
      Analysis.exists_solve_eq_ok Reaching.lattice_lawful flow.reaching_monotone
        flow.reaching_closed flow.reaching_bounded enough
    obtain ⟨states, solved⟩ := converges
    exact ⟨.ofInputs flow states.input.toList, by rw [Chains.compute, solved]; rfl⟩

/-! ## Ceilings -/

namespace Analysis

variable {n : Nat} {ν ε σ : Type} [DecidableEq σ] {analysis : Analysis n ν ε σ}
  {direction : Direction} {low high : Nat} {work : Work n σ} {states : States n σ}

theorem run_mono (le : low ≤ high) (finished : analysis.run direction low work = some states) :
    analysis.run direction high work = some states := by
  induction low generalizing high work with
  | zero =>
      obtain ⟨current, _ | ⟨node, rest⟩⟩ := work
      · cases high <;> simpa [run] using finished
      · cases finished
  | succ low ih =>
      obtain ⟨current, _ | ⟨node, rest⟩⟩ := work
      · cases high <;> simpa [run] using finished
      · cases high with
        | zero => omega
        | succ high =>
            rw [run] at finished ⊢
            exact ih (by omega) finished

theorem length_le_enqueue (boundary : Fin n) (queue nodes : List (Fin n)) :
    queue.length ≤ (enqueue boundary queue nodes).length := by
  unfold enqueue
  induction nodes generalizing queue with
  | nil => simp
  | cons node nodes ih =>
      rw [List.foldl_cons]
      split
      · exact ih queue
      · have longer := ih (queue ++ [node])
        simp at longer
        omega

theorem length_le_process (analysis : Analysis n ν ε σ) (direction : Direction)
    (states : States n σ) (node : Fin n) (rest : List (Fin n)) :
    rest.length ≤ (analysis.process direction states node rest).queue.length := by
  unfold process
  simp only
  split
  · simp
  · exact length_le_enqueue _ _ _

theorem run_eq_none {steps : Nat} (short : steps < work.queue.length) :
    analysis.run direction steps work = none := by
  induction steps generalizing work with
  | zero =>
      obtain ⟨states, _ | ⟨node, rest⟩⟩ := work
      · simp at short
      · rfl
  | succ steps ih =>
      obtain ⟨states, _ | ⟨node, rest⟩⟩ := work
      · simp at short
      · have kept := analysis.length_le_process direction states node rest
        simp only [List.length_cons] at short
        exact ih (by omega)

theorem solve_eq_error_iff :
    analysis.solve direction high = .error (.nonTermination high) ↔
      analysis.run direction high (analysis.start direction) = none := by
  unfold solve
  cases analysis.run direction high (analysis.start direction) <;> simp

/-- The ceiling decides whether a run ends, and not with which states: a higher ceiling gives the
same states, a lower one fails where a higher one does, and one that is lower than the number of
nodes beside the boundary always fails. -/
theorem ceiling_decides_success (analysis : Analysis n ν ε σ) (direction : Direction)
    (le : low ≤ high) :
    (∀ states, analysis.analyze (some direction) low = .ok states →
      analysis.analyze (some direction) high = .ok states) ∧
    (analysis.analyze (some direction) high = .error (.nonTermination high) →
      analysis.analyze (some direction) low = .error (.nonTermination low)) ∧
    (low + 1 < n → analysis.analyze (some direction) low = .error (.nonTermination low)) := by
  refine ⟨fun states solved => ?_, fun failed => ?_, fun large => ?_⟩
  · obtain ⟨final, finished, rfl⟩ := analysis.solve_eq_ok solved
    change analysis.solve direction high = _
    rw [solve, run_mono le finished]
  · have endless := solve_eq_error_iff.1 failed
    refine solve_eq_error_iff.2 (Option.eq_none_iff_forall_ne_some.2 fun final finished => ?_)
    rw [run_mono le finished] at endless
    cases endless
  · have length := analysis.length_queue_start direction
    exact solve_eq_error_iff.2 (run_eq_none (by omega))

end Analysis

def FlowGraph.marks (flow : FlowGraph) : Analysis flow.size Node BranchKind Bool :=
  flow.analysis ⟨false, or⟩ fun node mark => mark || node == flow.entry

theorem FlowGraph.loopSample_marks_converge :
    ∃ flow, build loopSample {} = .ok flow ∧
      flow.size - 1 + 1 * flow.graph.edges.length = 11 ∧
      (∃ states, flow.marks.analyze (some .forward) 11 = .ok states) ∧
      ∃ ceiling, ∀ maxSteps, ceiling ≤ maxSteps →
        ∃ chains, Chains.compute flow maxSteps = .ok chains := by
  have run : succeedsWith (fun flow => flow.size - 1 + 1 * flow.graph.edges.length == 11)
      (build loopSample {}) = true := by decide +kernel
  obtain ⟨flow, built, found⟩ := succeedsWith_iff.1 run
  have lawful : flow.marks.lattice.Lawful :=
    ⟨Bool.or_comm, Bool.or_assoc, Bool.or_self, Bool.or_false⟩
  have monotone : flow.marks.IsMonotone := by
    intro node first second below
    change (first || second) = second at below
    change ((first || node == flow.entry) || (second || node == flow.entry)) =
      (second || node == flow.entry)
    cases first <;> cases second <;> simp_all
  have bounded : ∀ chain, (flow.marks.lattice.init :: chain).IsChain flow.marks.lattice.Rises →
      chain.length ≤ 1 := by
    have once : ∀ mark, ¬ flow.marks.lattice.Rises true mark := by
      rintro mark ⟨below, ne⟩
      exact ne ((Bool.true_or mark).symm.trans below)
    intro chain ascending
    match chain with
    | [] | [_] => simp
    | false :: _ :: _ => exact absurd rfl (List.isChain_cons_cons.1 ascending).1.2
    | true :: mark :: _ =>
        have second := (List.isChain_cons_cons.1 ascending).2
        exact absurd (List.isChain_cons_cons.1 second).1 (once mark)
  have steps := beq_iff_eq.1 found
  exact ⟨flow, built, steps, analyze_converges.1 flow.marks .forward 1 11 lawful monotone bounded
    steps.le, analyze_converges.2 flow⟩

theorem FlowGraph.loopSample_ceilings :
    ∃ flow states, build loopSample {} = .ok flow ∧ flow.size = 6 ∧
      flow.marks.analyze (some .forward) 11 = .ok states ∧
      flow.marks.analyze (some .forward) 500 = .ok states ∧
      flow.counter.analyze (some .forward) 60 = .error (.nonTermination 60) ∧
      flow.counter.analyze (some .forward) 20 = .error (.nonTermination 20) ∧
      flow.marks.analyze (some .backward) 4 = .error (.nonTermination 4) := by
  have run : succeedsWith (fun flow => flow.size = 6 &&
      succeedsWith (fun _ => true) (flow.marks.analyze (some .forward) 11) &&
      (flow.counter.run .forward 60 (flow.counter.start .forward)).isNone)
      (build loopSample {}) = true := by decide +kernel
  obtain ⟨flow, built, found⟩ := succeedsWith_iff.1 run
  simp only [Bool.and_eq_true, decide_eq_true_eq, succeedsWith_iff, and_true,
    Option.isNone_iff_eq_none] at found
  obtain ⟨⟨size, states, solved⟩, endless⟩ := found
  have failed : flow.counter.analyze (some .forward) 60 = .error (.nonTermination 60) :=
    Analysis.solve_eq_error_iff.2 endless
  obtain ⟨higher, -, -⟩ := flow.marks.ceiling_decides_success .forward (by decide : 11 ≤ 500)
  obtain ⟨-, lower, -⟩ := flow.counter.ceiling_decides_success .forward (by decide : 20 ≤ 60)
  obtain ⟨-, -, large⟩ := flow.marks.ceiling_decides_success .backward (Nat.le_refl 4)
  exact ⟨flow, states, built, size, solved, higher states solved, failed, lower failed,
    large (by omega)⟩

end StackFlow
