import StackFlow.Statement

/-!
# Statements and the instructions they are made of

What the splitter does with one instruction, and the induction over all of a block that follows from
it.  Every statement that is split off a piece of code starts at the address of one of its
instructions.
-/

namespace StackFlow

theorem NameStack.step_eq_shuffle {stack : NameStack} {instr : Instruction}
    (unnamed : ∀ access name, instr.op.nameAccess = some access →
      instr.operand.name? = some name → False) :
    stack.step instr = (stack.shuffle instr.op instr.effect, {}) := by
  unfold step
  cases access : instr.op.nameAccess with
  | none => rfl
  | some found =>
      cases name : instr.operand.name? with
      | none => cases found <;> rfl
      | some text => exact (unnamed found text access name).elim

namespace Splitter

variable {splitter : Splitter} {code : List Instruction} {instr : Instruction}

/-- The state after an instruction was read, before a statement is closed. -/
def read (splitter : Splitter) (instr : Instruction) (outcome : NameStack × Names) : Splitter :=
  { splitter with
    current := some (extend splitter.current instr.address outcome.2)
    stack := outcome.1
    depth := splitter.depth + instr.effect.net }

theorem step_eq (splitter : Splitter) (instr : Instruction) :
    splitter.step instr =
      if instr.op ≠ .extendedArg ∧ splitter.depth + instr.effect.net ≤ 0 then
        (splitter.read instr (splitter.stack.step instr)).close true
      else
        splitter.read instr (splitter.stack.step instr) :=
  rfl

theorem step_cases (splitter : Splitter) (instr : Instruction) :
    splitter.step instr = splitter.read instr (splitter.stack.step instr) ∨
      splitter.step instr = (splitter.read instr (splitter.stack.step instr)).close true := by
  rw [step_eq]
  split
  · exact .inr rfl
  · exact .inl rfl

@[simp] theorem stack_close (splitter : Splitter) (balanced : Bool) :
    (splitter.close balanced).stack = [] := by
  unfold Splitter.close
  split <;> rfl

@[simp] theorem current_close (splitter : Splitter) (balanced : Bool) :
    (splitter.close balanced).current = none := by
  unfold Splitter.close
  split <;> rfl

@[simp] theorem depth_close (splitter : Splitter) (balanced : Bool) :
    (splitter.close balanced).depth = 0 := by
  unfold Splitter.close
  split <;> rfl

theorem mem_closed_close {balanced : Bool} {statement : Statement}
    (member : statement ∈ (splitter.close balanced).closed) :
    statement ∈ splitter.closed ∨ ∃ opened, splitter.current = some opened ∧
      statement = { opened with balanced, depth := splitter.depth } := by
  unfold Splitter.close at member
  split at member
  · exact .inl member
  · next opened hcurrent =>
      rcases List.mem_append.1 member with old | new
      · exact .inl old
      · exact .inr ⟨opened, hcurrent, List.mem_singleton.1 new⟩

theorem foldl_induct {motive : List Instruction → Splitter → Prop} (start : motive [] {})
    (next : ∀ done splitter instr, motive done splitter →
      motive (done ++ [instr]) (splitter.step instr)) (code : List Instruction) :
    motive code (code.foldl step {}) := by
  suffices general : ∀ rest done splitter, motive done splitter →
      motive (done ++ rest) (rest.foldl step splitter) from
    general code [] {} start
  intro rest
  induction rest with
  | nil => simp
  | cons instr rest ih =>
      intro done splitter holds
      simpa using ih (done ++ [instr]) (splitter.step instr) (next done splitter instr holds)

structure StartsIn (code : List Instruction) (splitter : Splitter) : Prop where
  closed : ∀ statement ∈ splitter.closed, ∃ instr ∈ code, instr.address = statement.start
  current : ∀ statement, splitter.current = some statement →
    ∃ instr ∈ code, instr.address = statement.start

theorem StartsIn.close (starts : StartsIn code splitter) (balanced : Bool) :
    StartsIn code (splitter.close balanced) := by
  refine ⟨fun statement member => ?_, by simp⟩
  rcases mem_closed_close member with old | ⟨opened, hcurrent, rfl⟩
  · exact starts.closed statement old
  · exact starts.current opened hcurrent

theorem StartsIn.step (starts : StartsIn code splitter) :
    StartsIn (code ++ [instr]) (splitter.step instr) := by
  have longer : ∀ {start : Nat}, (∃ other ∈ code, other.address = start) →
      ∃ other ∈ code ++ [instr], other.address = start := by
    rintro start ⟨other, member, rfl⟩
    exact ⟨other, List.mem_append_left _ member, rfl⟩
  have extended : ∀ names, ∃ other ∈ code ++ [instr],
      other.address = (extend splitter.current instr.address names).start := by
    intro names
    cases hcurrent : splitter.current with
    | none => exact ⟨instr, by simp, rfl⟩
    | some statement => exact longer (starts.current statement hcurrent)
  have next : StartsIn (code ++ [instr]) (splitter.read instr (splitter.stack.step instr)) := by
    refine ⟨fun statement member => longer (starts.closed statement member), ?_⟩
    intro statement heq
    obtain rfl := Option.some.inj heq
    exact extended _
  rcases step_cases splitter instr with heq | heq
  · exact heq ▸ next
  · exact heq ▸ next.close true

theorem startsIn_foldl (code : List Instruction) : StartsIn code (code.foldl step {}) :=
  foldl_induct ⟨by simp, by simp⟩ (fun _ _ _ starts => starts.step) code

end Splitter

theorem splitStatements_eq_close (code : List Instruction) :
    splitStatements code = ((code.foldl Splitter.step {}).close false).closed := by
  unfold splitStatements Splitter.finish
  cases hcurrent : (code.foldl Splitter.step {}).current with
  | none => simp [Splitter.close, hcurrent]
  | some opened => simp

theorem exists_instr_of_mem_splitStatements {code : List Instruction} {statement : Statement}
    (member : statement ∈ splitStatements code) :
    ∃ instr ∈ code, instr.address = statement.start := by
  rw [splitStatements_eq_close] at member
  exact ((Splitter.startsIn_foldl code).close false).closed statement member

end StackFlow
