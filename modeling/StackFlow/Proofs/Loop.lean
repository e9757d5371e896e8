import StackFlow.Graph.Digraph

/-!
# Loops without a bound, and marks

A loop that runs while a test holds relates the state in which it begins to the one in which it
ends.  One that goes on for ever relates its first state to none.

A loop that asks again and again whether a node is in a list looks it up in a table of marks.
-/

namespace StackFlow

/-- A loop without a bound: begun in the first state, it ends in the second. -/
inductive Ends {σ : Type} (test : σ → Prop) (step : σ → σ → Prop) : σ → σ → Prop where
  | stop {state : σ} (done : ¬ test state) : Ends test step state state
  | turn {state next last : σ} (goesOn : test state) (taken : step state next)
      (rest : Ends test step next last) : Ends test step state last

namespace Ends

variable {σ : Type} {test : σ → Prop} {step : σ → σ → Prop} {state last other : σ}

theorem unique (fixed : ∀ state next other, step state next → step state other → next = other)
    (first : Ends test step state last) (second : Ends test step state other) : last = other := by
  induction first with
  | stop done =>
      cases second with
      | stop => rfl
      | turn goesOn => exact absurd goesOn done
  | turn goesOn taken rest ih =>
      cases second with
      | stop done => exact absurd goesOn done
      | turn _ taken' rest' => exact ih (fixed _ _ _ taken taken' ▸ rest')

theorem iff_eq (fixed : ∀ state next other, step state next → step state other → next = other)
    (ends : Ends test step state last) : Ends test step state other ↔ other = last := by
  refine ⟨fun more => unique fixed more ends, ?_⟩
  rintro rfl
  exact ends

end Ends

/-! ## Marks -/

variable {n : Nat} {members others : List (Fin n)} {node : Fin n}

def marks (members : List (Fin n)) : Vector Bool n :=
  Vector.ofFn fun node => members.contains node

theorem get_marks : (marks members).get node = members.contains node :=
  get_ofFn_node _ node

theorem marks_congr (same : ∀ node, node ∈ members ↔ node ∈ others) :
    marks members = marks others := by
  refine table_ext fun node => ?_
  rw [get_marks, get_marks, Bool.eq_iff_iff, List.contains_iff_mem, List.contains_iff_mem, same]

theorem marks_nil : marks [] = Vector.replicate n false := by
  refine table_ext fun node => ?_
  rw [get_marks, get_replicate_node, List.contains_nil]

theorem set_marks_true (members : List (Fin n)) (node : Fin n) :
    (marks members).set node true node.isLt = marks (node :: members) := by
  refine table_ext fun other => ?_
  by_cases same : other = node <;> simp [get_marks, same]

theorem set_marks_false (members : List (Fin n)) (node : Fin n) :
    (marks members).set node false node.isLt =
      marks (members.filter fun member => member ≠ node) := by
  refine table_ext fun other => ?_
  by_cases same : other = node <;> simp [get_marks, same]

end StackFlow
