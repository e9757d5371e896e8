import StackFlow.Proofs.Leaders

/-!
# Runs with a block stack

A run goes from instruction to instruction.  A setup puts itself on a stack of open regions, and a
pop takes the latest off.  Seen from the blocks of the scope, a run enters a block at its start,
and it leaves a block through one of the jumps of that block.
-/

namespace StackFlow

def Instruction.marks (instr : Instruction) : Bool :=
  match instr.op.transfer with
  | .returns | .breaks | .continues | .raises => true
  | .advance | .jump | .jumpIfTrue | .jumpIfFalse | .jumpIfExhausted | .setup _ => false

theorem Instruction.marks_of_transfer {instr : Instruction} {marker : Marker}
    (transfer : instr.op.transfer = Block.markerTransfer marker) : instr.marks = true := by
  cases marker <;> simp [marks, transfer, Block.markerTransfer]

theorem Instruction.stops_of_marks {instr : Instruction} (marks : instr.marks = true) :
    instr.stops = true := by
  unfold Instruction.marks at marks
  unfold stops
  split at marks <;> simp_all

theorem Instruction.goesOn_of_isJump {instr : Instruction} (jumps : instr.op.isJump = true)
    (conditional : instr.op.transfer ≠ .jump) : instr.stops = false := by
  unfold Opcode.isJump at jumps
  unfold stops
  split at jumps <;> simp_all

theorem Decoded.branch?_isSome_of_isJump {code : Decoded}
    (jumps : code.instr.op.isJump = true) : code.branch?.isSome = true := by
  unfold Opcode.isJump at jumps
  unfold branch?
  split at jumps <;> simp_all

def Decoded.opensLoop (code : Decoded) : Bool :=
  code.instr.op.transfer = .setup .loop

/-- The open regions, the latest first, after an instruction from which control goes on.  None where
a pop finds no open region. -/
def Decoded.stackAfter? (code : Decoded) (stack : List Decoded) : Option (List Decoded) :=
  match code.instr.op.transfer with
  | .setup _ => some (code :: stack)
  | _ => if code.instr.op = .popBlock then stack.tail? else some stack

structure Config where
  position : Nat
  stack : List Decoded

namespace Scope

variable {scope : Scope} {config after : Config} {past : List Config} {code landing : Decoded}
  {number : Nat} {block : Block}

/-- A jump goes to its destination, and all but an unconditional one may go on.  Nothing follows a
return, raise, break or continue. -/
inductive Step (scope : Scope) : Config → Config → Prop where
  | next {position : Nat} {stack stack' : List Decoded} {code : Decoded}
      (here : scope.decoded[position]? = some code) (goesOn : code.instr.stops = false)
      (stacked : code.stackAfter? stack = some stack') :
      Step scope ⟨position, stack⟩ ⟨position + 1, stack'⟩
  | jump {position target : Nat} {stack : List Decoded} {code landing : Decoded}
      (here : scope.decoded[position]? = some code) (jumps : code.instr.op.isJump = true)
      (there : scope.decoded[target]? = some landing)
      (hdestination : code.destination = some landing.instr.address) :
      Step scope ⟨position, stack⟩ ⟨target, stack⟩

inductive Trace (scope : Scope) : List Config → Prop where
  | start : Trace scope [⟨0, []⟩]
  | step {config next : Config} {past : List Config} (trace : Trace scope (config :: past))
      (step : scope.Step config next) : Trace scope (next :: config :: past)

theorem Step.exists_code (step : scope.Step config after) :
    ∃ code, scope.decoded[config.position]? = some code := by
  cases step with
  | next here => exact ⟨_, here⟩
  | jump here => exact ⟨_, here⟩

/-! ## Open regions -/

theorem Step.stack_cases (step : scope.Step config after) :
    (∃ code, scope.decoded[config.position]? = some code ∧ after.stack = code :: config.stack) ∨
      after.stack <:+ config.stack := by
  cases step with
  | jump => exact .inr (List.suffix_refl _)
  | @next position stack _ code here _ stacked =>
      unfold Decoded.stackAfter? at stacked
      split at stacked
      · exact .inl ⟨code, here, (Option.some.inj stacked).symm⟩
      · right
        split at stacked
        · cases stack with
          | nil => cases stacked
          | cons top rest => exact Option.some.inj stacked ▸ List.suffix_cons top rest
        · exact Option.some.inj stacked ▸ List.suffix_refl stack

theorem Trace.exists_push (trace : scope.Trace (config :: past)) {inner outer : List Decoded}
    {opening : Decoded} (split : config.stack = inner ++ opening :: outer) :
    ∃ recent push older, past = recent ++ push :: older ∧
      scope.decoded[push.position]? = some opening ∧ push.stack = outer ∧
      ∀ later ∈ recent, opening :: outer <:+ later.stack := by
  generalize hrun : config :: past = configs at trace
  induction trace generalizing config past inner with
  | start =>
      cases hrun
      simp at split
  | @step previous current past trace step ih =>
      cases hrun
      have keep : ∀ deeper, previous.stack = deeper ++ opening :: outer →
          ∃ recent push older, previous :: past = recent ++ push :: older ∧
            scope.decoded[push.position]? = some opening ∧ push.stack = outer ∧
            ∀ later ∈ recent, opening :: outer <:+ later.stack := by
        intro deeper hdeeper
        obtain ⟨recent, push, older, heq, pushed, below, above⟩ := ih hdeeper rfl
        refine ⟨previous :: recent, push, older, by rw [heq, List.cons_append], pushed, below, ?_⟩
        exact List.forall_mem_cons.2 ⟨hdeeper ▸ List.suffix_append deeper _, above⟩
      rcases step.stack_cases with ⟨code, here, pushed⟩ | ⟨popped, hpopped⟩
      · rw [pushed] at split
        cases inner with
        | nil =>
            obtain ⟨rfl, below⟩ := List.cons.inj split
            exact ⟨[], previous, past, rfl, here, below, nofun⟩
        | cons _ deeper => exact keep deeper (List.cons.inj split).2
      · exact keep (popped ++ inner) (by rw [← hpopped, split, List.append_assoc])

/-! ## Blocks along a run -/

def Clear (scope : Scope) (code : Decoded) : Prop :=
  ∀ number block, scope.Covers number block code.instr.address →
    ∀ instr ∈ block.instructions, instr.address < code.instr.address → instr.stops = false

theorem clear_of_mem_boundaries (starts : code.instr.address ∈ scope.boundaries) :
    scope.Clear code := by
  intro number block covers instr member before
  have low := (covers_of_mem covers.found member).low
  rw [covers.start_eq starts] at low
  omega

section Positions

variable {position : Nat} (distinct : scope.Distinct)
  (here : scope.decoded[position]? = some code)
  (covers : scope.Covers number block code.instr.address) (clear : scope.Clear code)

include distinct here covers clear

theorem Clear.goesOn_of_le (goesOn : code.instr.stops = false) {instr : Instruction}
    (member : instr ∈ block.instructions) (le : instr.address ≤ code.instr.address) :
    instr.stops = false := by
  rcases Nat.lt_or_eq_of_le le with before | same
  · exact clear number block covers instr member before
  · rw [covers.spans.instructions_eq] at member
    obtain ⟨other, hother, rfl⟩ := List.mem_map.1 member
    rwa [distinct.eq_of_address_eq here (mem_codeBetween_iff.1 hother).1 same]

theorem Clear.goesOn_of_lt_next (goesOn : code.instr.stops = false)
    (hnext : scope.decoded[position + 1]? = some landing) {instr : Instruction}
    (member : instr ∈ block.instructions) (before : instr.address < landing.instr.address) :
    instr.stops = false := by
  refine clear.goesOn_of_le distinct here covers goesOn member ?_
  rw [covers.spans.instructions_eq] at member
  obtain ⟨other, hother, rfl⟩ := List.mem_map.1 member
  obtain ⟨index, hindex⟩ := List.mem_iff_getElem?.1 (mem_codeBetween_iff.1 hother).1
  have upper := (distinct.lt_iff hindex hnext).1 before
  have lower := distinct.lt_iff here hindex
  omega

theorem Clear.advance (goesOn : code.instr.stops = false)
    (hnext : scope.decoded[position + 1]? = some landing) : scope.Clear landing := by
  rcases distinct.next_cases here hnext covers with same | ⟨-, starts⟩
  · intro other candidate others instr member before
    obtain ⟨rfl, rfl⟩ := same.unique others
    exact clear.goesOn_of_lt_next distinct here covers goesOn hnext member before
  · exact clear_of_mem_boundaries starts

theorem Clear.isJump_head_eq_false (other : code.instr.op.isJump = false) {first : Instruction}
    (head : block.instructions.head? = some first) : first.op.isJump = false := by
  rw [Bool.eq_false_iff]
  intro jumps
  have start := covers.spans.head?_instructions
  rw [head, Option.map_some, Option.some.injEq] at start
  have member := List.mem_of_head? head
  rw [covers.spans.instructions_eq] at member
  obtain ⟨decoded, hdecoded, rfl⟩ := List.mem_map.1 member
  obtain ⟨index, hindex⟩ := List.mem_iff_getElem?.1 (mem_codeBetween_iff.1 hdecoded).1
  have low := covers.low
  have before : decoded.instr.address < code.instr.address := by
    refine Nat.lt_of_le_of_ne (by omega) fun same => ?_
    rw [distinct.eq_of_address_eq here (List.mem_of_getElem? hindex) same, other] at jumps
    cases jumps
  have goesOn := clear number block covers _ (List.mem_of_head? head) before
  have covers' := covers_of_mem covers.found (List.mem_of_head? head)
  have last := distinct.address_le hindex covers' (Opcode.addressing_isSome_of_isJump jumps)
    (Instruction.neverFallsThrough_of_goesOn goesOn)
    ((covers.mem_instructions_iff (List.mem_of_getElem? here)).2 covers)
  omega

end Positions

theorem mem_boundaries_of_destination (hcode : code ∈ scope.decoded)
    (hdestination : code.destination = some landing.instr.address)
    (there : landing ∈ scope.decoded) : landing.instr.address ∈ scope.boundaries := by
  have carries := addressing_isSome_of_destination hcode hdestination
  exact mem_boundaries_of_mem_jumpLeaders
    (mem_jumpLeaders_of_destination hcode carries hdestination) ⟨landing, there, rfl⟩

/-- The run leaves one of the first blocks by an unconditional jump, and the block has a marked
instruction besides. -/
def Strays (scope : Scope) (number : Nat) (config : Config) : Prop :=
  ∃ code earlier block, scope.decoded[config.position]? = some code ∧
    code.instr.op.transfer = .jump ∧ earlier < number ∧
    scope.Covers earlier block code.instr.address ∧
    ∃ instr ∈ block.instructions, instr.marks = true

variable (distinct : scope.Distinct)

include distinct

theorem Trace.clear (enters : scope.EntersFirst) (trace : scope.Trace (config :: past))
    (here : scope.decoded[config.position]? = some code) : scope.Clear code := by
  generalize hrun : config :: past = configs at trace
  induction trace generalizing config past code with
  | start =>
      cases hrun
      have starts : code.instr.address = scope.entry := by
        have first := enters
        unfold EntersFirst at first
        rw [← map_instr_decoded, List.head?_map, List.head?_eq_getElem?, here] at first
        exact Option.some.inj first
      exact clear_of_mem_boundaries (starts ▸ enters.holdsEntry.entry_mem_boundaries)
  | step trace step ih =>
      cases hrun
      cases step with
      | next there goesOn _ =>
          obtain ⟨number, block, covers⟩ := exists_covers enters (List.mem_of_getElem? there)
          exact (ih there rfl).advance distinct there covers goesOn here
      | jump from_ _ there hdestination =>
          obtain rfl := Option.some.inj (there.symm.trans here)
          exact clear_of_mem_boundaries (mem_boundaries_of_destination
            (List.mem_of_getElem? from_) hdestination (List.mem_of_getElem? there))

theorem Step.block_cases (step : scope.Step config after) (clear : scope.Clear code)
    (here : scope.decoded[config.position]? = some code)
    (covers : scope.Covers number block code.instr.address)
    (there : scope.decoded[after.position]? = some landing) :
    scope.Covers number block landing.instr.address ∨
      landing.instr.address ∈ scope.boundaries ∧
      (∃ kind, ⟨.address landing.instr.address, kind⟩ ∈ block.jumps) ∧
      (code.instr.op.transfer = .jump ∨ ∀ instr ∈ block.instructions, instr.stops = false) := by
  cases step with
  | next here' goesOn _ =>
      obtain rfl := Option.some.inj (here'.symm.trans here)
      refine (distinct.next_cases here there covers).imp_right fun ⟨last, starts⟩ => ?_
      have all : ∀ instr ∈ block.instructions, instr.stops = false := by
        intro instr member
        have high := (covers_of_mem covers.found member).high
        exact clear.goesOn_of_lt_next distinct here covers goesOn there member (last ▸ high)
      have inner : block.endAddress ≠ scope.endAddress := by
        have bound := address_lt_endAddress
          (map_instr_decoded scope ▸ List.mem_map_of_mem (List.mem_of_getElem? there))
        omega
      exact ⟨starts, last ▸ covers.spans.fallThrough_mem all inner, .inr all⟩
  | jump here' jumps there' hdestination =>
      obtain rfl := Option.some.inj (here'.symm.trans here)
      obtain rfl := Option.some.inj (there'.symm.trans there)
      have hcode := List.mem_of_getElem? here
      have member := (covers.mem_instructions_iff hcode).2 covers
      obtain ⟨kind, branch⟩ := Option.isSome_iff_exists.1 (Decoded.branch?_isSome_of_isJump jumps)
      have jump := covers.spans.jump_mem hcode member (Decoded.jump?_of_branch branch hdestination)
      refine .inr ⟨mem_boundaries_of_destination hcode hdestination (List.mem_of_getElem? there),
        ⟨kind, jump⟩, ?_⟩
      refine or_iff_not_imp_left.2 fun conditional instr inside => ?_
      have goesOn := Instruction.goesOn_of_isJump jumps conditional
      have carries := Opcode.addressing_isSome_of_isJump jumps
      exact clear.goesOn_of_le distinct here covers goesOn inside
        (distinct.address_le here covers carries (Instruction.neverFallsThrough_of_goesOn goesOn)
          inside)

end Scope

end StackFlow
