import Mathlib.Tactic.ByContra
import StackFlow.Dataflow.Solver
import StackFlow.Proofs.Loop

/-!
# Runs of the worklist solver

A step joins and transfers at one node and touches nothing else.  A node that is neither on the
worklist nor the boundary agrees with its neighbours, so a run that ends has found a solution
(`Analysis.solve_isSolution`).  A property of the states on the far side that the initial state has
and that every step keeps holds of the solution (`Analysis.solve_far_induct`).

A run may keep a mark for every node and ask the marks whether a node is on the worklist
(`MarkedWork`).  A node is on the worklist at most once, so the marks stay true when it is taken
off, and the run is the same.
-/

namespace StackFlow

variable {n : Nat} {ν ε σ : Type}

namespace States

variable (states : States n σ) (direction : Direction) (node other : Fin n) (state : σ)

@[simp] theorem far_init : (init n state).far direction node = state := by
  cases direction <;> simp [far, init]

@[simp] theorem near_setNear : (states.setNear direction node state).near direction other =
    if other = node then state else states.near direction other := by
  cases direction <;> simp [near, setNear]

@[simp] theorem far_setNear :
    (states.setNear direction node state).far direction other = states.far direction other := by
  cases direction <;> rfl

@[simp] theorem near_setFar :
    (states.setFar direction node state).near direction other = states.near direction other := by
  cases direction <;> rfl

@[simp] theorem far_setFar : (states.setFar direction node state).far direction other =
    if other = node then state else states.far direction other := by
  cases direction <;> simp [far, setFar]

theorem ext_near_far {first second : States n σ}
    (near : ∀ node, first.near direction node = second.near direction node)
    (far : ∀ node, first.far direction node = second.far direction node) : first = second := by
  obtain ⟨input, output⟩ := first
  obtain ⟨input', output'⟩ := second
  cases direction with
  | forward =>
      obtain rfl : input = input' := table_ext near
      obtain rfl : output = output' := table_ext far
      rfl
  | backward =>
      obtain rfl : input = input' := table_ext far
      obtain rfl : output = output' := table_ext near
      rfl

end States

namespace Analysis

variable (analysis : Analysis n ν ε σ) {direction : Direction}

theorem mem_incoming_iff {node neighbour : Fin n} :
    neighbour ∈ analysis.incoming direction node ↔
      node ∈ analysis.outgoing direction neighbour := by
  cases direction
  · exact Digraph.mem_pred_iff_mem_succ
  · exact Digraph.mem_pred_iff_mem_succ.symm

theorem joined_congr {first second : States n σ} {node : Fin n}
    (agree : ∀ neighbour ∈ analysis.incoming direction node,
      first.far direction neighbour = second.far direction neighbour) :
    analysis.joined direction first node = analysis.joined direction second node := by
  unfold joined
  split
  · rfl
  · refine congrArg _ (List.map_congr_left fun neighbour member => ?_)
    have same := agree neighbour member
    cases direction
    · exact same
    · simp only [contribution]
      split
      · rfl
      · exact same

/-- The near side joins the neighbours everywhere, and the far side is transferred everywhere but
at the boundary, where it is still the initial state. -/
structure IsSolution (direction : Direction) (states : States n σ) : Prop where
  near : ∀ node, states.near direction node = analysis.joined direction states node
  far : ∀ node, node ≠ analysis.boundary direction →
    states.far direction node = analysis.transfer node (states.near direction node)
  boundary_far : states.far direction (analysis.boundary direction) = analysis.lattice.init

/-- The nodes that are off the worklist are settled, and the boundary was never taken. -/
structure Settled (direction : Direction) (work : Work n σ) : Prop where
  boundary_off : analysis.boundary direction ∉ work.queue
  boundary_far : work.states.far direction (analysis.boundary direction) = analysis.lattice.init
  near : ∀ node, node ≠ analysis.boundary direction → node ∉ work.queue →
    work.states.near direction node = analysis.joined direction work.states node
  far : ∀ node, node ≠ analysis.boundary direction → node ∉ work.queue →
    work.states.far direction node = analysis.transfer node (work.states.near direction node)

theorem start_settled : analysis.Settled direction (analysis.start direction) where
  boundary_off := by simp [start]
  boundary_far := by simp [start]
  near := fun node ne absent => absurd (by simp [start, ne]) absent
  far := fun node ne absent => absurd (by simp [start, ne]) absent

theorem Settled.isSolution {final : States n σ} (settled : analysis.Settled direction ⟨final, []⟩) :
    analysis.IsSolution direction
      (final.setNear direction (analysis.boundary direction)
        (analysis.joined direction final (analysis.boundary direction))) := by
  refine ⟨fun node => ?_, fun node ne => ?_, ?_⟩
  · rw [States.near_setNear, analysis.joined_congr fun _ _ => States.far_setNear _ _ _ _ _]
    split
    · next heq => rw [heq]
    · next ne => exact settled.near node ne List.not_mem_nil
  · rw [States.far_setNear, States.near_setNear, if_neg ne]
    exact settled.far node ne List.not_mem_nil
  · rw [States.far_setNear]
    exact settled.boundary_far

variable [DecidableEq σ]

/-! ## One step -/

@[simp] theorem near_process (states : States n σ) (node other : Fin n) (rest : List (Fin n)) :
    (analysis.process direction states node rest).states.near direction other =
      if other = node then analysis.joined direction states node
      else states.near direction other := by
  unfold process
  by_cases same : analysis.transfer node (analysis.joined direction states node) =
      states.far direction node
  · simp [same]
  · simp [same]

@[simp] theorem far_process (states : States n σ) (node other : Fin n) (rest : List (Fin n)) :
    (analysis.process direction states node rest).states.far direction other =
      if other = node then analysis.transfer node (analysis.joined direction states node)
      else states.far direction other := by
  unfold process
  simp only [States.far_setNear]
  by_cases same : analysis.transfer node (analysis.joined direction states node) =
      states.far direction node
  · rw [if_pos same, States.far_setNear]
    split
    · next heq => rw [heq, same]
    · rfl
  · rw [if_neg same, States.far_setFar, States.far_setNear]

theorem mem_enqueue {boundary member : Fin n} {queue nodes : List (Fin n)} :
    member ∈ enqueue boundary queue nodes ↔
      member ∈ queue ∨ member ∈ nodes ∧ member ≠ boundary := by
  unfold enqueue
  induction nodes generalizing queue with
  | nil => simp
  | cons node nodes ih =>
      rw [List.foldl_cons, ih]
      split <;> grind

theorem mem_queue_process {states : States n σ} {node member : Fin n} {rest : List (Fin n)} :
    member ∈ (analysis.process direction states node rest).queue ↔
      member ∈ rest ∨
        analysis.transfer node (analysis.joined direction states node) ≠
            states.far direction node ∧
          member ∈ analysis.outgoing direction node ∧ member ≠ analysis.boundary direction := by
  unfold process
  simp only [States.far_setNear]
  split
  · simp [*]
  · simp [*, mem_enqueue]

/-! ## Whole runs -/

theorem run_induct {motive : Work n σ → Prop}
    (step : ∀ states node rest, motive ⟨states, node :: rest⟩ →
      motive (analysis.process direction states node rest))
    {steps : Nat} {work : Work n σ} {states : States n σ}
    (finished : analysis.run direction steps work = some states) (start : motive work) :
    motive ⟨states, []⟩ := by
  induction steps generalizing work with
  | zero =>
      obtain ⟨current, _ | ⟨node, rest⟩⟩ := work
      · rw [run, Option.some.injEq] at finished
        exact finished ▸ start
      · cases finished
  | succ steps ih =>
      obtain ⟨current, _ | ⟨node, rest⟩⟩ := work
      · rw [run, Option.some.injEq] at finished
        exact finished ▸ start
      · exact ih finished (step current node rest start)

theorem joined_process {states : States n σ} {node other : Fin n} {rest : List (Fin n)}
    (ne : other ≠ analysis.boundary direction)
    (absent : other ∉ (analysis.process direction states node rest).queue) :
    analysis.joined direction (analysis.process direction states node rest).states other =
      analysis.joined direction states other := by
  refine analysis.joined_congr fun neighbour member => ?_
  rw [far_process]
  split
  · next heq =>
      subst heq
      by_contra changed
      exact absent (analysis.mem_queue_process.2
        (.inr ⟨changed, analysis.mem_incoming_iff.1 member, ne⟩))
  · rfl

theorem Settled.process {states : States n σ} {node : Fin n} {rest : List (Fin n)}
    (settled : analysis.Settled direction ⟨states, node :: rest⟩) :
    analysis.Settled direction (analysis.process direction states node rest) where
  boundary_off := by
    rw [mem_queue_process]
    rintro (member | ⟨-, -, ne⟩)
    · exact settled.boundary_off (List.mem_cons_of_mem _ member)
    · exact ne rfl
  boundary_far := by
    rw [far_process, if_neg]
    · exact settled.boundary_far
    · rintro heq
      exact settled.boundary_off (heq ▸ List.mem_cons_self)
  near := by
    intro other ne absent
    rw [near_process, analysis.joined_process ne absent]
    split
    · next heq => rw [heq]
    · next hne =>
        refine settled.near other ne fun member => ?_
        rcases List.mem_cons.1 member with heq | member
        · exact hne heq
        · exact absent (analysis.mem_queue_process.2 (.inl member))
  far := by
    intro other ne absent
    rw [near_process, far_process]
    split
    · next heq => rw [heq]
    · next hne =>
        refine settled.far other ne fun member => ?_
        rcases List.mem_cons.1 member with heq | member
        · exact hne heq
        · exact absent (analysis.mem_queue_process.2 (.inl member))

/-! ## Solutions -/

theorem solve_eq_ok {maxSteps : Nat} {states : States n σ}
    (solved : analysis.solve direction maxSteps = .ok states) :
    ∃ final, analysis.run direction maxSteps (analysis.start direction) = some final ∧
      states = final.setNear direction (analysis.boundary direction)
        (analysis.joined direction final (analysis.boundary direction)) := by
  unfold solve at solved
  split at solved
  · cases solved
  · next final finished => exact ⟨final, finished, (Except.ok.inj solved).symm⟩

theorem solve_isSolution {maxSteps : Nat} {states : States n σ}
    (solved : analysis.solve direction maxSteps = .ok states) :
    analysis.IsSolution direction states := by
  obtain ⟨final, finished, rfl⟩ := analysis.solve_eq_ok solved
  have settled : analysis.Settled direction ⟨final, []⟩ :=
    analysis.run_induct (fun _ _ _ settled => settled.process) finished analysis.start_settled
  exact settled.isSolution

theorem solve_far_induct {motive : Fin n → σ → Prop}
    (init : ∀ node, motive node analysis.lattice.init)
    (step : ∀ states node, (∀ other, motive other (states.far direction other)) →
      motive node (analysis.transfer node (analysis.joined direction states node)))
    {maxSteps : Nat} {states : States n σ}
    (solved : analysis.solve direction maxSteps = .ok states) (node : Fin n) :
    motive node (states.far direction node) := by
  obtain ⟨final, finished, rfl⟩ := analysis.solve_eq_ok solved
  rw [States.far_setNear]
  refine analysis.run_induct
    (motive := fun work => ∀ node, motive node (work.states.far direction node))
    (fun current taken rest all other => ?_) finished (fun other => ?_) node
  · rw [far_process]
    split
    · next heq => exact heq ▸ step current taken all
    · exact all other
  · rw [start, States.far_init]
    exact init other

/-! ## Marks for the worklist -/

theorem nodup_enqueue {boundary : Fin n} {queue : List (Fin n)} (nodes : List (Fin n))
    (nodup : queue.Nodup) : (enqueue boundary queue nodes).Nodup := by
  unfold enqueue
  induction nodes generalizing queue with
  | nil => exact nodup
  | cons node nodes ih =>
      rw [List.foldl_cons]
      split
      · exact ih nodup
      · next new =>
          refine ih (List.nodup_append.2 ⟨nodup, by simp, ?_⟩)
          rintro member old other hother rfl
          exact new (.inr (List.mem_singleton.1 hother ▸ old))

theorem nodup_process {states : States n σ} {node : Fin n} {rest : List (Fin n)}
    (nodup : rest.Nodup) : (analysis.process direction states node rest).queue.Nodup := by
  unfold process
  dsimp only
  split
  · exact nodup
  · exact nodup_enqueue _ nodup

end Analysis

structure MarkedWork (n : Nat) (σ : Type) where
  states : States n σ
  queue : List (Fin n)
  queued : Vector Bool n

def MarkedWork.push (boundary : Fin n) (work : MarkedWork n σ) (next : Fin n) : MarkedWork n σ :=
  if next ≠ boundary ∧ work.queued.get next = false then
    { work with
      queue := work.queue ++ [next]
      queued := work.queued.set next true next.isLt }
  else
    work

def Work.marked (work : Work n σ) : MarkedWork n σ :=
  ⟨work.states, work.queue, marks work.queue⟩

theorem MarkedWork.push_marked (boundary : Fin n) (work : Work n σ) (next : Fin n) :
    work.marked.push boundary next =
      { work with queue := Analysis.enqueue boundary work.queue [next] }.marked := by
  by_cases off : next = boundary ∨ next ∈ work.queue
  · have stays : ¬ (next ≠ boundary ∧ work.marked.queued.get next = false) := by
      simpa [Work.marked, get_marks, Classical.or_iff_not_imp_left] using off
    rw [push, if_neg stays, Analysis.enqueue, List.foldl_cons, List.foldl_nil, if_pos off]
  · have joins : next ≠ boundary ∧ work.marked.queued.get next = false := by
      simpa [Work.marked, get_marks] using off
    have same : marks (next :: work.queue) = marks (work.queue ++ [next]) :=
      marks_congr fun node => by simp [or_comm]
    rw [push, if_pos joins, Analysis.enqueue, List.foldl_cons, List.foldl_nil, if_neg off]
    simp only [Work.marked, set_marks_true, same]

theorem MarkedWork.foldl_push_marked (boundary : Fin n) (work : Work n σ) (nodes : List (Fin n)) :
    nodes.foldl (push boundary) work.marked =
      { work with queue := Analysis.enqueue boundary work.queue nodes }.marked := by
  induction nodes generalizing work with
  | nil => rfl
  | cons node nodes ih =>
      rw [List.foldl_cons, push_marked, ih]
      rfl

namespace Analysis

def startMarked (analysis : Analysis n ν ε σ) (direction : Direction) : MarkedWork n σ :=
  let boundary := analysis.boundary direction
  { states := .init n analysis.lattice.init
    queue := (List.finRange n).filter fun node => node ≠ boundary
    queued := (Vector.replicate n true).set boundary false boundary.isLt }

def processMarked [DecidableEq σ] (analysis : Analysis n ν ε σ) (direction : Direction)
    (states : States n σ) (node : Fin n) (rest : List (Fin n)) (queued : Vector Bool n) :
    MarkedWork n σ :=
  let queued := queued.set node false node.isLt
  let near := analysis.joined direction states node
  let states := states.setNear direction node near
  let far := analysis.transfer node near
  if far = states.far direction node then
    ⟨states, rest, queued⟩
  else
    (analysis.outgoing direction node).foldl (MarkedWork.push (analysis.boundary direction))
      ⟨states.setFar direction node far, rest, queued⟩

def runMarked [DecidableEq σ] (analysis : Analysis n ν ε σ) (direction : Direction) :
    Nat → MarkedWork n σ → Option (States n σ)
  | _, ⟨states, [], _⟩ => some states
  | 0, ⟨_, _ :: _, _⟩ => none
  | steps + 1, ⟨states, node :: rest, queued⟩ =>
      analysis.runMarked direction steps
        (analysis.processMarked direction states node rest queued)

variable (analysis : Analysis n ν ε σ) {direction : Direction}

theorem startMarked_eq : analysis.startMarked direction = (analysis.start direction).marked := by
  have all : Vector.replicate n true = marks (List.finRange n) :=
    table_ext fun node => by simp [get_marks]
  simp only [startMarked, Work.marked, start, all, set_marks_false]

variable [DecidableEq σ]

theorem processMarked_eq {states : States n σ} {node : Fin n} {rest : List (Fin n)}
    (nodup : (node :: rest).Nodup) :
    analysis.processMarked direction states node rest (marks (node :: rest)) =
      (analysis.process direction states node rest).marked := by
  have taken : (marks (node :: rest)).set node false node.isLt = marks rest := by
    have single := (List.nodup_cons.1 nodup).1
    rw [set_marks_false]
    refine marks_congr fun other => ?_
    simp only [List.mem_filter, List.mem_cons, decide_eq_true_eq]
    constructor
    · rintro ⟨rfl | member, ne⟩
      · exact absurd rfl ne
      · exact member
    · exact fun member => ⟨.inr member, fun heq => single (heq ▸ member)⟩
  unfold processMarked process
  simp only [taken]
  split
  · rfl
  · exact MarkedWork.foldl_push_marked _ ⟨_, rest⟩ _

theorem runMarked_marked {steps : Nat} {work : Work n σ} (nodup : work.queue.Nodup) :
    analysis.runMarked direction steps work.marked = analysis.run direction steps work := by
  induction steps generalizing work with
  | zero =>
      obtain ⟨states, _ | ⟨node, rest⟩⟩ := work
      · rfl
      · rfl
  | succ steps ih =>
      obtain ⟨states, _ | ⟨node, rest⟩⟩ := work
      · rfl
      · calc analysis.runMarked direction (steps + 1) (Work.marked ⟨states, node :: rest⟩)
            = analysis.runMarked direction steps
                (analysis.processMarked direction states node rest (marks (node :: rest))) := rfl
          _ = analysis.runMarked direction steps
                (analysis.process direction states node rest).marked := by
              rw [analysis.processMarked_eq nodup]
          _ = analysis.run direction steps (analysis.process direction states node rest) :=
              ih (analysis.nodup_process (List.nodup_cons.1 nodup).2)
          _ = analysis.run direction (steps + 1) ⟨states, node :: rest⟩ := rfl

/-- The run that asks the marks ends where the run that looks through the worklist does, and gives
up where that does. -/
theorem runMarked_start (maxSteps : Nat) :
    analysis.runMarked direction maxSteps (analysis.startMarked direction) =
      analysis.run direction maxSteps (analysis.start direction) := by
  rw [startMarked_eq]
  exact analysis.runMarked_marked ((List.nodup_finRange n).filter _)

end Analysis

end StackFlow
