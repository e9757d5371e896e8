import Mathlib.Data.List.Induction
import StackFlow.Proofs.Segments

/-!
# The depth of the stack and its entries

The splitter counts the depth by the table of stack effects, but moves the entries of its stack by a
rule of its own for every kind of access and for the operations that copy or rotate.  The depth and
the number of entries agree until an instruction takes more than the stack holds: then the depth
goes down by all that is taken, and the stack only by what is there.

A duplication takes a value by the table, but on the stack it only looks at the top.  So it may find
the stack empty, and the two still agree.
-/

namespace StackFlow

/-! ## One instruction -/

def NameAccess.effect : NameAccess → StackEffect
  | .load => ⟨0, 1⟩
  | .store => ⟨1, 0⟩
  | .delete => ⟨0, 0⟩
  | .loadAttr => ⟨1, 1⟩
  | .storeAttr => ⟨2, 0⟩
  | .deleteAttr => ⟨1, 0⟩

theorem Opcode.stackEffect_of_nameAccess {op : Opcode} {access : NameAccess}
    (accesses : op.nameAccess = some access) (arg : Nat) : op.stackEffect arg = access.effect := by
  cases op <;> cases accesses <;> rfl

theorem Instruction.net_of_dupTop {instr : Instruction} (dup : instr.op = .dupTop) :
    instr.effect.net = 1 := by
  simp [effect, dup, Opcode.stackEffect, StackEffect.net]

namespace NameStack

variable (stack : NameStack)

theorem length_replace (effect : StackEffect) :
    (stack.replace effect).length = effect.pushes + (stack.length - effect.pops) := by
  simp [replace]

theorem length_shuffle (op : Opcode) (arg : Nat) :
    (stack.shuffle op (op.stackEffect arg)).length =
      if op = .dupTop then stack.length + 1
      else (op.stackEffect arg).pushes + (stack.length - (op.stackEffect arg).pops) := by
  unfold shuffle
  split
  · rfl
  · simp [Opcode.stackEffect]
    omega
  · simp [Opcode.stackEffect]
    omega
  · next other _ _ =>
      rw [if_neg fun same => other same]
      exact length_replace _ _

theorem length_step (instr : Instruction) :
    (stack.step instr).1.length =
      if instr.op = .dupTop then stack.length + 1
      else instr.effect.pushes + (stack.length - instr.effect.pops) := by
  by_cases named : ∃ access name, instr.op.nameAccess = some access ∧
      instr.operand.name? = some name
  · obtain ⟨access, name, haccess, hname⟩ := named
    have effect : instr.effect = access.effect := Opcode.stackEffect_of_nameAccess haccess _
    have other : instr.op ≠ .dupTop := by
      intro dup
      rw [dup] at haccess
      cases haccess
    -- Each kind of access has its own rule on the stack, and the counts of the table.
    rw [if_neg other, effect, step, haccess, hname]
    cases access <;> simp [NameAccess.effect] <;> omega
  · rw [step_eq_shuffle fun access name haccess hname => named ⟨access, name, haccess, hname⟩]
    exact length_shuffle stack instr.op instr.arg

variable (instr : Instruction)

theorem add_net_le_length_step :
    (stack.length : Int) + instr.effect.net ≤ (stack.step instr).1.length := by
  rw [length_step]
  split
  · next dup => rw [Instruction.net_of_dupTop dup, Int.natCast_succ]
  · rw [StackEffect.net]
    omega

theorem length_step_eq_add_net_iff :
    ((stack.step instr).1.length : Int) = stack.length + instr.effect.net ↔
      (instr.op ≠ .dupTop → instr.effect.pops ≤ stack.length) := by
  rw [length_step]
  split
  · next dup => simp [Instruction.net_of_dupTop dup, dup]
  · next other =>
      rw [StackEffect.net, imp_iff_right other]
      omega

end NameStack

/-! ## Runs -/

namespace Splitter

variable {splitter : Splitter} {before rest : List Instruction} {instr : Instruction}

def after (code : List Instruction) : Splitter :=
  code.foldl step {}

theorem after_snoc (code : List Instruction) (instr : Instruction) :
    after (code ++ [instr]) = (after code).step instr := by
  simp [after]

theorem depth_nonneg (code : List Instruction) : 0 ≤ (after code).depth := by
  obtain ⟨pieces, rest, -, splits⟩ := exists_splits code
  rw [after, splits.depth_eq]
  exact splits.nonneg

theorem settled_of_current {code : List Instruction} (closed : (after code).current = none) :
    (after code).depth = 0 ∧ (after code).stack = [] := by
  obtain ⟨pieces, rest, -, splits⟩ := exists_splits code
  have unopened : Opened rest none := closed ▸ splits.current
  cases unopened
  exact ⟨splits.depth_eq, splits.stack_eq⟩

theorem depth_le_length_read (le : splitter.depth ≤ splitter.stack.length) :
    splitter.depth + instr.effect.net ≤ (splitter.stack.step instr).1.length :=
  calc splitter.depth + instr.effect.net
      ≤ splitter.stack.length + instr.effect.net := Int.add_le_add_right le _
    _ ≤ (splitter.stack.step instr).1.length := NameStack.add_net_le_length_step _ instr

theorem depth_le_length (code : List Instruction) :
    (after code).depth ≤ (after code).stack.length := by
  induction code using List.reverseRecOn with
  | nil => exact Int.le_refl 0
  | append_singleton code instr ih =>
      rw [after_snoc]
      rcases step_cases (after code) instr with heq | heq
      · rw [heq]
        exact depth_le_length_read ih
      · simp [heq]

theorem depth_read_eq_iff (le : splitter.depth ≤ splitter.stack.length) :
    splitter.depth + instr.effect.net = (splitter.stack.step instr).1.length ↔
      splitter.depth = splitter.stack.length ∧
        (instr.op ≠ .dupTop → instr.effect.pops ≤ splitter.stack.length) := by
  have grows := splitter.stack.add_net_le_length_step instr
  rw [← NameStack.length_step_eq_add_net_iff]
  omega

/-- The rest is the code that was read since a statement was closed last: none is open in front of
it, and one is open after each of its instructions. -/
structure SinceClose (before rest : List Instruction) : Prop where
  closed : (after before).current = none
  opened : ∀ front instr back, rest = front ++ instr :: back →
    (after (before ++ front ++ [instr])).current ≠ none

theorem sinceClose_nil (closed : (after before).current = none) : SinceClose before [] :=
  ⟨closed, by simp⟩

theorem sinceClose_snoc_iff :
    SinceClose before (rest ++ [instr]) ↔
      SinceClose before rest ∧ (after (before ++ rest ++ [instr])).current ≠ none := by
  constructor
  · rintro ⟨closed, opened⟩
    obtain ⟨earlier, last⟩ := forall_split_snoc.1 opened
    exact ⟨⟨closed, earlier⟩, last⟩
  · rintro ⟨⟨closed, earlier⟩, last⟩
    exact ⟨closed, forall_split_snoc.2 ⟨earlier, last⟩⟩

theorem exists_sinceClose (code : List Instruction) :
    ∃ before rest, code = before ++ rest ∧ SinceClose before rest := by
  induction code using List.reverseRecOn with
  | nil => exact ⟨[], [], rfl, sinceClose_nil rfl⟩
  | append_singleton code instr ih =>
      by_cases closed : (after (code ++ [instr])).current = none
      · exact ⟨code ++ [instr], [], by simp, sinceClose_nil closed⟩
      · obtain ⟨before, rest, rfl, since⟩ := ih
        exact ⟨before, rest ++ [instr], by simp, sinceClose_snoc_iff.2 ⟨since, closed⟩⟩

theorem SinceClose.depth_eq_iff (since : SinceClose before rest) :
    (after (before ++ rest)).depth = (after (before ++ rest)).stack.length ↔
      ∀ front instr back, rest = front ++ instr :: back → instr.op ≠ .dupTop →
        instr.effect.pops ≤ (after (before ++ front)).stack.length := by
  induction rest using List.reverseRecOn with
  | nil =>
      obtain ⟨depth, stack⟩ := settled_of_current since.closed
      simp [depth, stack]
  | append_singleton rest instr ih =>
      -- No statement is closed in the rest, so what is lost with one instruction stays lost.
      obtain ⟨earlier, opened⟩ := sinceClose_snoc_iff.1 since
      rw [forall_split_snoc, ← ih earlier, ← List.append_assoc]
      rw [after_snoc] at opened ⊢
      rcases step_cases (after (before ++ rest)) instr with heq | heq
      · rw [heq]
        exact depth_read_eq_iff (depth_le_length (before ++ rest))
      · simp [heq] at opened

/-- After every piece of code the depth is not negative, and the stack has at least that many
entries.  The code has a part that was read since a statement was closed last, and the two are equal
exactly if the stack held what every instruction of that part takes, duplications aside. -/
theorem depth_matches_stack (code : List Instruction) :
    0 ≤ (after code).depth ∧ (after code).depth ≤ (after code).stack.length ∧
    (∃ before rest, code = before ++ rest ∧ SinceClose before rest) ∧
    ∀ before rest, code = before ++ rest → SinceClose before rest →
      ((after code).depth = (after code).stack.length ↔
        ∀ front instr back, rest = front ++ instr :: back → instr.op ≠ .dupTop →
          instr.effect.pops ≤ (after (before ++ front)).stack.length) := by
  refine ⟨depth_nonneg code, depth_le_length code, exists_sinceClose code, ?_⟩
  rintro before rest rfl since
  exact since.depth_eq_iff

/-- A statement that stores a value of the code before, and one that rotates three values with two
of them on the stack. -/
def rotateSample : List Instruction :=
  [⟨0, .storeName, .name "a", 1, 0, false⟩, ⟨3, .loadName, .name "x", 2, 0, false⟩,
    ⟨6, .loadName, .name "y", 2, 0, false⟩, ⟨9, .rotThree, .none, 2, 0, false⟩]

theorem rotateSample_depth_differs :
    (after rotateSample).depth = 2 ∧ (after rotateSample).stack.length = 3 ∧
      ∃ before rest, rotateSample = before ++ rest ∧ SinceClose before rest ∧
        ∃ front instr back, rest = front ++ instr :: back ∧
          (after (before ++ front)).stack.length < instr.effect.pops := by
  obtain ⟨-, -, ⟨before, rest, split, since⟩, equal_iff⟩ := depth_matches_stack rotateSample
  refine ⟨by decide, by decide, before, rest, split, since, ?_⟩
  by_contra enough
  have equal := (equal_iff before rest split since).2 fun front instr back here _ =>
    Nat.le_of_not_lt fun short => enough ⟨front, instr, back, here, short⟩
  exact absurd equal (by decide)

end Splitter

end StackFlow
