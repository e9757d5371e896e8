import StackFlow.Proofs.Statements

/-!
# Recovered name paths

The splitter follows the names on a finite stack that is emptied with every statement, and that runs
out below when a block takes values from the code before it.  The machine here keeps all values: its
stack goes on for ever below, and no statement ends.  Wherever the splitter knows a name, the
machine has the same name at the same distance from the top, so a recorded path names the object
that the instruction works on.
-/

namespace StackFlow

/-! ## The reference machine -/

/-- The values on a stack without bottom by their distance from the top, where they are known. -/
abbrev Tower := Nat → Option String

namespace Tower

def unknown : Tower := fun _ => none

def push (tower : Tower) (value : Option String) : Tower
  | 0 => value
  | depth + 1 => tower depth

def pop (tower : Tower) (count : Nat) : Tower :=
  fun depth => tower (depth + count)

def swapTwo (tower : Tower) : Tower
  | 0 => tower 1
  | 1 => tower 0
  | depth + 2 => tower (depth + 2)

def rotateThree (tower : Tower) : Tower
  | 0 => tower 1
  | 1 => tower 2
  | 2 => tower 0
  | depth + 3 => tower (depth + 3)

def replace (tower : Tower) (effect : StackEffect) : Tower :=
  fun depth =>
    if depth < effect.pushes then none else tower (depth - effect.pushes + effect.pops)

def shuffle (tower : Tower) (op : Opcode) (effect : StackEffect) : Tower :=
  match op with
  | .dupTop => tower.push (tower 0)
  | .rotTwo => tower.swapTwo
  | .rotThree => tower.rotateThree
  | _ => tower.replace effect

def step (tower : Tower) (instr : Instruction) : Tower :=
  match instr.op.nameAccess, instr.operand.name? with
  | some .load, some name => tower.push (some name)
  | some .store, some _ => tower.pop 1
  | some .loadAttr, some attr =>
      (tower.pop 1).push ((tower 0).map fun base => base ++ "." ++ attr)
  | some .storeAttr, some _ => tower.pop 2
  | some .deleteAttr, some _ => tower.pop 1
  | _, _ => tower.shuffle instr.op instr.effect

def run (code : List Instruction) : Tower :=
  code.foldl step unknown

theorem run_snoc (code : List Instruction) (instr : Instruction) :
    run (code ++ [instr]) = (run code).step instr := by
  simp [run]

def Backs (tower : Tower) (stack : NameStack) : Prop :=
  ∀ depth path, stack[depth]? = some (some path) → tower depth = some path

/-- The instruction accesses the name, or the attribute of the value on top that the path names. -/
def Accesses (tower : Tower) (instr : Instruction) (plain dotted : NameAccess) (path : String) :
    Prop :=
  instr.op.nameAccess = some plain ∧ instr.operand.name? = some path ∨
    ∃ base attr, instr.op.nameAccess = some dotted ∧ instr.operand.name? = some attr ∧
      tower 0 = some base ∧ path = base ++ "." ++ attr

variable {tower : Tower} {stack : NameStack} {instr : Instruction}

/-! ## One instruction -/

theorem backs_of_unknown (unknown : ∀ entry ∈ stack, entry = none) : tower.Backs stack := by
  intro depth path found
  have none := unknown _ (List.mem_of_getElem? found)
  cases none

theorem Backs.top (backs : tower.Backs stack) {path : String}
    (found : stack.head?.join = some path) : tower 0 = some path := by
  apply backs
  simpa [List.head?_eq_getElem?, Option.join_eq_some_iff] using found

theorem Backs.attribute (backs : tower.Backs stack) {attr path : String}
    (found : stack.attribute? attr = some path) :
    ∃ base, tower 0 = some base ∧ path = base ++ "." ++ attr := by
  obtain ⟨base, hbase, rfl⟩ := Option.map_eq_some_iff.1 found
  exact ⟨base, backs.top hbase, rfl⟩

theorem Backs.push (backs : tower.Backs stack) {known value : Option String}
    (top : ∀ path, known = some path → value = some path) :
    (tower.push value).Backs (known :: stack) := by
  intro depth path found
  cases depth with
  | zero => exact top path (by simpa using found)
  | succ depth => exact backs depth path (by simpa using found)

theorem Backs.pop (backs : tower.Backs stack) (count : Nat) :
    (tower.pop count).Backs (stack.drop count) := by
  intro depth path found
  rw [List.getElem?_drop, Nat.add_comm] at found
  exact backs _ path found

theorem Backs.replace (backs : tower.Backs stack) (effect : StackEffect) :
    (tower.replace effect).Backs (stack.replace effect) := by
  intro depth path found
  unfold NameStack.replace at found
  unfold Tower.replace
  by_cases fresh : depth < effect.pushes
  · simp [List.getElem?_append_left, fresh] at found
  · rw [List.getElem?_append_right (by simpa using fresh), List.length_replicate,
      List.getElem?_drop] at found
    rw [if_neg fresh]
    apply backs
    rw [← found]
    congr 1
    omega

theorem unknown_of_underflow {effect : StackEffect} (short : stack.length ≤ effect.pops) :
    ∀ entry ∈ stack.replace effect, entry = none := by
  simp [NameStack.replace, List.drop_eq_nil_of_le short]

theorem Backs.swapTwo {first second : Option String} {rest : NameStack}
    (backs : tower.Backs (first :: second :: rest)) :
    tower.swapTwo.Backs (second :: first :: rest) := by
  intro depth path found
  match depth with
  | 0 => exact backs 1 path found
  | 1 => exact backs 0 path found
  | depth + 2 => exact backs (depth + 2) path found

theorem Backs.rotateThree {first second third : Option String} {rest : NameStack}
    (backs : tower.Backs (first :: second :: third :: rest)) :
    tower.rotateThree.Backs (second :: third :: first :: rest) := by
  intro depth path found
  match depth with
  | 0 => exact backs 1 path found
  | 1 => exact backs 2 path found
  | 2 => exact backs 0 path found
  | depth + 3 => exact backs (depth + 3) path found

theorem Backs.shuffle (backs : tower.Backs stack) (op : Opcode) (arg : Nat) :
    (tower.shuffle op (op.stackEffect arg)).Backs (stack.shuffle op (op.stackEffect arg)) := by
  unfold NameStack.shuffle
  split
  · exact backs.push fun path found => backs.top found
  · exact backs.swapTwo
  · exact backs.rotateThree
  · next dup two three =>
      unfold Tower.shuffle
      split
      · exact absurd rfl dup
      · apply backs_of_unknown
        apply unknown_of_underflow
        rcases stack with _ | ⟨first, _ | ⟨second, rest⟩⟩
        · simp
        · simp [Opcode.stackEffect]
        · exact (two first second rest rfl rfl).elim
      · apply backs_of_unknown
        apply unknown_of_underflow
        rcases stack with _ | ⟨first, _ | ⟨second, _ | ⟨third, rest⟩⟩⟩
        · simp
        · simp [Opcode.stackEffect]
        · simp [Opcode.stackEffect]
        · exact (three first second third rest rfl rfl).elim
      · exact backs.replace _

theorem shuffle_of_delete {op : Opcode} (deletes : op.nameAccess = some .delete) (arg : Nat) :
    stack.shuffle op (op.stackEffect arg) = stack := by
  cases op <;>
    simp_all [Opcode.nameAccess, NameStack.shuffle, NameStack.replace, Opcode.stackEffect]

theorem Backs.step (backs : tower.Backs stack) (instr : Instruction) :
    (tower.step instr).Backs (stack.step instr).1 := by
  have shuffled := backs.shuffle instr.op instr.arg
  unfold NameStack.step Tower.step
  cases haccess : instr.op.nameAccess with
  | none => exact shuffled
  | some access =>
      cases hname : instr.operand.name? with
      | none => cases access <;> exact shuffled
      | some name =>
          cases access with
          | load => exact backs.push fun _ found => found
          | store => exact backs.pop 1
          | delete => rwa [shuffle_of_delete haccess] at shuffled
          | loadAttr =>
              refine (backs.pop 1).push fun path found => ?_
              obtain ⟨base, known, rfl⟩ := backs.attribute found
              simp [known]
          | storeAttr => exact backs.pop 2
          | deleteAttr => exact backs.pop 1

theorem Backs.accesses (backs : tower.Backs stack) (instr : Instruction) :
    (∀ path ∈ (stack.step instr).2.loads, tower.Accesses instr .load .loadAttr path) ∧
    (∀ path ∈ (stack.step instr).2.stores, tower.Accesses instr .store .storeAttr path) ∧
    ∀ path ∈ (stack.step instr).2.deletes, tower.Accesses instr .delete .deleteAttr path := by
  unfold NameStack.step Accesses
  cases haccess : instr.op.nameAccess with
  | none => simp
  | some access =>
      cases hname : instr.operand.name? with
      | none => cases access <;> simp
      | some name => cases access <;> simp +contextual [backs.attribute]

end Tower

/-! ## Statements -/

def Recorded (before piece : List Instruction) (plain dotted : NameAccess) (paths : List String) :
    Prop :=
  ∀ path ∈ paths, ∃ front instr back, piece = front ++ instr :: back ∧
    (Tower.run (before ++ front)).Accesses instr plain dotted path

theorem Recorded.snoc {before piece : List Instruction} {plain dotted : NameAccess}
    {paths more : List String} {instr : Instruction}
    (recorded : Recorded before piece plain dotted paths)
    (last : ∀ path ∈ more, (Tower.run (before ++ piece)).Accesses instr plain dotted path) :
    Recorded before (piece ++ [instr]) plain dotted (paths ++ more) := by
  intro path member
  rcases List.mem_append.1 member with old | new
  · obtain ⟨front, earlier, back, rfl, accesses⟩ := recorded path old
    exact ⟨front, earlier, back ++ [instr], by simp, accesses⟩
  · exact ⟨piece, instr, [], rfl, last path new⟩

structure Traced (before piece : List Instruction) (names : Names) (start last : Nat) : Prop where
  first_eq : piece.head?.map Instruction.address = some start
  last_eq : piece.getLast?.map Instruction.address = some last
  loads : Recorded before piece .load .loadAttr names.loads
  stores : Recorded before piece .store .storeAttr names.stores
  deletes : Recorded before piece .delete .deleteAttr names.deletes

namespace Splitter

variable {done : List Instruction} {splitter : Splitter}

structure Follows (done : List Instruction) (splitter : Splitter) : Prop where
  stack : (Tower.run done).Backs splitter.stack
  closed : ∀ statement ∈ splitter.closed, ∃ before piece after, done = before ++ piece ++ after ∧
    Traced before piece statement.toNames statement.start statement.last
  current : ∀ statement, splitter.current = some statement → ∃ before piece,
    done = before ++ piece ∧ Traced before piece statement.toNames statement.start statement.last

theorem Follows.extend (follows : Follows done splitter) (instr : Instruction) :
    ∃ before piece, done ++ [instr] = before ++ piece ∧
      Traced before piece
        (extend splitter.current instr.address (splitter.stack.step instr).2).toNames
        (extend splitter.current instr.address (splitter.stack.step instr).2).start
        (extend splitter.current instr.address (splitter.stack.step instr).2).last := by
  obtain ⟨loads, stores, deletes⟩ := follows.stack.accesses instr
  have nothing : ∀ plain dotted, Recorded done [] plain dotted [] := by
    intro plain dotted path member
    cases member
  cases current : splitter.current with
  | none =>
      refine ⟨done, [instr], rfl, rfl, rfl, ?_, ?_, ?_⟩
      · exact (nothing .load .loadAttr).snoc (by simpa [Splitter.extend] using loads)
      · exact (nothing .store .storeAttr).snoc (by simpa [Splitter.extend] using stores)
      · exact (nothing .delete .deleteAttr).snoc (by simpa [Splitter.extend] using deletes)
  | some statement =>
      obtain ⟨before, piece, rfl, traced⟩ := follows.current statement current
      refine ⟨before, piece ++ [instr], by simp, ?_, by simp [Splitter.extend], ?_, ?_, ?_⟩
      · have first := traced.first_eq
        cases piece with
        | nil => cases first
        | cons head rest => exact first
      · exact traced.loads.snoc loads
      · exact traced.stores.snoc stores
      · exact traced.deletes.snoc deletes

theorem Follows.read (follows : Follows done splitter) (instr : Instruction) :
    Follows (done ++ [instr]) (splitter.read instr (splitter.stack.step instr)) where
  stack := by
    rw [Tower.run_snoc]
    exact follows.stack.step instr
  closed := by
    intro statement member
    obtain ⟨before, piece, after, rfl, traced⟩ := follows.closed statement member
    exact ⟨before, piece, after ++ [instr], by simp, traced⟩
  current := by
    intro statement heq
    obtain rfl := Option.some.inj heq
    exact follows.extend instr

theorem Follows.close (follows : Follows done splitter) (balanced : Bool) :
    Follows done (splitter.close balanced) where
  stack := by
    apply Tower.backs_of_unknown
    simp
  closed := by
    intro statement member
    rcases mem_closed_close member with old | ⟨opened, hcurrent, rfl⟩
    · exact follows.closed statement old
    · obtain ⟨before, piece, split, traced⟩ := follows.current opened hcurrent
      exact ⟨before, piece, [], by simpa using split, traced⟩
  current := by simp

theorem Follows.step (follows : Follows done splitter) (instr : Instruction) :
    Follows (done ++ [instr]) (splitter.step instr) := by
  rcases step_cases splitter instr with heq | heq
  · exact heq ▸ follows.read instr
  · exact heq ▸ (follows.read instr).close true

theorem follows_foldl (code : List Instruction) : Follows code (code.foldl Splitter.step {}) := by
  refine foldl_induct ⟨Tower.backs_of_unknown (by simp), by simp, by simp⟩ ?_ code
  exact fun _ _ instr follows => follows.step instr

end Splitter

/-- Whatever the splitter knows of the stack at an instruction, before and after it may have closed
a statement, is so on the reference machine.  The paths of a statement are names that instructions
of its code access, and attributes of the object that is on top of the machine's stack when the
instruction is reached. -/
theorem Block.recovered_paths_sound (block : Block) :
    (∀ before instr after, block.instructions = before ++ instr :: after →
      ∀ depth path,
        (((before.foldl Splitter.step {}).stack.step instr).1[depth]? = some (some path) →
          Tower.run (before ++ [instr]) depth = some path) ∧
        (((before ++ [instr]).foldl Splitter.step {}).stack[depth]? = some (some path) →
          Tower.run (before ++ [instr]) depth = some path)) ∧
    ∀ statement ∈ block.statements, ∃ before piece after,
      block.instructions = before ++ piece ++ after ∧
      piece.head?.map Instruction.address = some statement.start ∧
      piece.getLast?.map Instruction.address = some statement.last ∧
      (∀ path ∈ statement.loads, ∃ front instr back, piece = front ++ instr :: back ∧
        (Tower.run (before ++ front)).Accesses instr .load .loadAttr path) ∧
      (∀ path ∈ statement.stores, ∃ front instr back, piece = front ++ instr :: back ∧
        (Tower.run (before ++ front)).Accesses instr .store .storeAttr path) ∧
      ∀ path ∈ statement.deletes, ∃ front instr back, piece = front ++ instr :: back ∧
        (Tower.run (before ++ front)).Accesses instr .delete .deleteAttr path := by
  constructor
  · intro before instr after _ depth path
    have follows := Splitter.follows_foldl before
    constructor
    · exact (follows.read instr).stack depth path
    · exact (Splitter.follows_foldl (before ++ [instr])).stack depth path
  · intro statement member
    rw [statements, splitStatements_eq_close] at member
    have follows := (Splitter.follows_foldl block.instructions).close false
    obtain ⟨before, piece, after, split, traced⟩ := follows.closed statement member
    exact ⟨before, piece, after, split, traced.first_eq, traced.last_eq, traced.loads,
      traced.stores, traced.deletes⟩

-- `self.count += 1`: the name is duplicated, and comes to the top again when the sum is stored.
example :
    (splitStatements [
      ⟨0, .loadFast, .name "self", 1, 0, false⟩,
      ⟨3, .dupTop, .none, 1, 0, false⟩,
      ⟨4, .loadAttr, .name "count", 1, 0, false⟩,
      ⟨7, .loadConst, .none, 1, 0, false⟩,
      ⟨10, .inPlace .add, .none, 1, 0, false⟩,
      ⟨11, .rotTwo, .none, 1, 0, false⟩,
      ⟨12, .storeAttr, .name "count", 1, 0, false⟩]).map Statement.toNames =
      [{ loads := ["self", "self.count"], stores := ["self.count"] }] := by
  decide

end StackFlow
