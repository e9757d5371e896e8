import Mathlib.Data.List.Forall2
import StackFlow.Proofs.JumpIssues
import StackFlow.Proofs.Statements

/-!
# Statements as segments of a block

The statements of a block are cut out of its code one after the other.  A piece ends with the first
instruction, extended arguments aside, after which the net effects of the piece add up to nothing or
less.  Only the code at the end of a block may be left open, so a block has at most one statement
that is not balanced.

Every name of a statement is recorded by one instruction of its piece.  Without those that attribute
accesses record, the names of all statements are the operands of the name accesses of the block.
-/

namespace StackFlow

/-! ## Pieces of code -/

def netEffect : List Instruction → Int
  | [] => 0
  | instr :: rest => instr.effect.net + netEffect rest

@[simp] theorem netEffect_append (first second : List Instruction) :
    netEffect (first ++ second) = netEffect first + netEffect second := by
  induction first with
  | nil => simp [netEffect]
  | cons instr rest ih =>
      simp [netEffect, ih]
      omega

@[simp] theorem netEffect_singleton (instr : Instruction) :
    netEffect [instr] = instr.effect.net := by
  simp [netEffect]

theorem Instruction.net_of_extendedArg {instr : Instruction} (prefixes : instr.op = .extendedArg) :
    instr.effect.net = 0 := by
  simp [effect, prefixes, Opcode.stackEffect, StackEffect.net]

inductive Mention where
  | store
  | load
  | delete
  deriving DecidableEq, Repr

namespace Mention

def plain : Mention → NameAccess
  | store => .store
  | load => .load
  | delete => .delete

def dotted : Mention → NameAccess
  | store => .storeAttr
  | load => .loadAttr
  | delete => .deleteAttr

end Mention

def Names.of (names : Names) : Mention → List String
  | .store => names.stores
  | .load => names.loads
  | .delete => names.deletes

def Instruction.named? (instr : Instruction) (mention : Mention) : Option String :=
  if instr.op.nameAccess = some mention.plain then instr.operand.name? else none

namespace NameStack

variable {stack : NameStack} {instr : Instruction} {mention : Mention}

def after (stack : NameStack) (code : List Instruction) : NameStack :=
  code.foldl (fun stack instr => (stack.step instr).1) stack

def records : NameStack → List Instruction → List (Instruction × Names)
  | _, [] => []
  | stack, instr :: rest => (instr, (stack.step instr).2) :: records (stack.step instr).1 rest

theorem after_snoc (stack : NameStack) (code : List Instruction) (instr : Instruction) :
    stack.after (code ++ [instr]) = ((stack.after code).step instr).1 := by
  simp [after]

theorem records_snoc (stack : NameStack) (code : List Instruction) (instr : Instruction) :
    stack.records (code ++ [instr]) =
      stack.records code ++ [(instr, ((stack.after code).step instr).2)] := by
  induction code generalizing stack with
  | nil => rfl
  | cons first rest ih => simp [records, after, ih]

theorem of_step (other : instr.op.nameAccess ≠ some mention.dotted) :
    (stack.step instr).2.of mention = (instr.named? mention).toList := by
  unfold step Instruction.named?
  cases access : instr.op.nameAccess with
  | none => cases mention <;> simp [Names.of]
  | some found =>
      rw [access] at other
      cases name : instr.operand.name? with
      | none => cases found <;> cases mention <;> simp [Names.of]
      | some text =>
          cases found <;> cases mention <;>
            simp_all [Names.of, Mention.plain, Mention.dotted]

end NameStack

def recorded (mention : Mention) (piece : List Instruction) : List String :=
  (NameStack.records [] piece).flatMap fun entry => entry.2.of mention

def recordedPlain (mention : Mention) (piece : List Instruction) : List String :=
  ((NameStack.records [] piece).filter fun entry =>
    entry.1.op.nameAccess ≠ some mention.dotted).flatMap fun entry => entry.2.of mention

theorem recorded_snoc (mention : Mention) (piece : List Instruction) (instr : Instruction) :
    recorded mention (piece ++ [instr]) =
      recorded mention piece ++ ((NameStack.after [] piece).step instr).2.of mention := by
  simp [recorded, NameStack.records_snoc]

theorem recordedPlain_eq (mention : Mention) (piece : List Instruction) :
    recordedPlain mention piece = piece.filterMap fun instr => instr.named? mention := by
  unfold recordedPlain
  generalize ([] : NameStack) = stack
  induction piece generalizing stack with
  | nil => rfl
  | cons instr rest ih =>
      rw [NameStack.records]
      by_cases skipped : instr.op.nameAccess = some mention.dotted
      · have unnamed : instr.named? mention = none := by
          cases mention <;> simp [Instruction.named?, skipped, Mention.dotted, Mention.plain]
        rw [List.filter_cons_of_neg (by simpa using skipped), ih]
        simp [unnamed]
      · rw [List.filter_cons_of_pos (by simpa using skipped), List.flatMap_cons, ih,
          NameStack.of_step skipped]
        cases named : instr.named? mention with
        | none => simp [named]
        | some name => simp [named]

/-! ## Segments -/

/-- The statement is split off as the piece of code.  It has the addresses, the depth and the names
of the piece, which does not come back to the depth at its start before its last instruction. -/
structure Segment (piece : List Instruction) (statement : Statement) : Prop where
  start_eq : piece.head?.map Instruction.address = some statement.start
  last_eq : piece.getLast?.map Instruction.address = some statement.last
  depth_eq : statement.depth = netEffect piece
  positive : ∀ front instr back, piece = front ++ instr :: back → back ≠ [] →
    instr.op ≠ .extendedArg → 0 < netEffect (front ++ [instr])
  balanced_iff : ∀ instr, piece.getLast? = some instr →
    (statement.balanced = true ↔ instr.op ≠ .extendedArg ∧ statement.depth ≤ 0)
  names_eq : ∀ mention, statement.of mention = recorded mention piece

theorem Segment.ne_nil {piece : List Instruction} {statement : Statement}
    (segment : Segment piece statement) : piece ≠ [] := by
  rintro rfl
  cases segment.start_eq

theorem forall₂_exists_of_mem {α β : Type} {related : α → β → Prop} {first : List α}
    {second : List β} (all : List.Forall₂ related first second) {item : α} (member : item ∈ first) :
    ∃ other ∈ second, related item other := by
  induction all with
  | nil => cases member
  | cons pair _ ih =>
      rcases List.mem_cons.1 member with rfl | later
      · exact ⟨_, List.mem_cons_self, pair⟩
      · obtain ⟨other, listed, pair⟩ := ih later
        exact ⟨other, List.mem_cons_of_mem _ listed, pair⟩

inductive Opened : List Instruction → Option OpenStatement → Prop where
  | nothing : Opened [] none
  | begun {piece : List Instruction} {statement : OpenStatement}
      (start_eq : piece.head?.map Instruction.address = some statement.start)
      (last_eq : piece.getLast?.map Instruction.address = some statement.last)
      (names_eq : ∀ mention, statement.of mention = recorded mention piece) :
      Opened piece (some statement)

theorem Opened.extend {piece : List Instruction} {current : Option OpenStatement}
    (opened : Opened piece current) (instr : Instruction) :
    Opened (piece ++ [instr]) (some (Splitter.extend current instr.address
      ((NameStack.after [] piece).step instr).2)) := by
  cases opened with
  | nothing =>
      refine .begun rfl rfl fun mention => ?_
      rw [recorded_snoc]
      cases mention <;> rfl
  | begun start_eq _ names_eq =>
      refine .begun ?_ (by simp [Splitter.extend]) fun mention => ?_
      · cases piece with
        | nil => cases start_eq
        | cons first rest => exact start_eq
      · rw [recorded_snoc, ← names_eq]
        cases mention <;> rfl

theorem Opened.segment {piece : List Instruction} {statement : OpenStatement}
    (opened : Opened piece (some statement)) (balanced : Bool)
    (positive : ∀ front instr back, piece = front ++ instr :: back → back ≠ [] →
      instr.op ≠ .extendedArg → 0 < netEffect (front ++ [instr]))
    (flag : ∀ instr, piece.getLast? = some instr →
      (balanced = true ↔ instr.op ≠ .extendedArg ∧ netEffect piece ≤ 0)) :
    Segment piece { statement with balanced, depth := netEffect piece } := by
  cases opened with
  | begun start_eq last_eq names_eq => exact ⟨start_eq, last_eq, rfl, positive, flag, names_eq⟩

theorem split_snoc {α : Type} {items front back : List α} {item other : α}
    (split : items ++ [item] = front ++ other :: back) :
    back = [] ∧ front = items ∧ other = item ∨
      ∃ shorter, back = shorter ++ [item] ∧ items = front ++ other :: shorter := by
  rcases List.eq_nil_or_concat' back with rfl | ⟨shorter, last, rfl⟩
  · obtain ⟨rfl, heq⟩ := List.append_inj' split rfl
    exact .inl ⟨rfl, rfl, (List.singleton_inj.1 heq).symm⟩
  · rw [← List.cons_append, ← List.append_assoc] at split
    obtain ⟨rfl, heq⟩ := List.append_inj' split rfl
    exact .inr ⟨shorter, by rw [List.singleton_inj.1 heq], rfl⟩

theorem forall_split_snoc {α : Type} {items : List α} {item : α}
    {holds : List α → α → Prop} :
    (∀ front other back, items ++ [item] = front ++ other :: back → holds front other) ↔
      (∀ front other back, items = front ++ other :: back → holds front other) ∧
        holds items item := by
  constructor
  · intro all
    refine ⟨fun front other back split => ?_, all items item [] rfl⟩
    exact all front other (back ++ [item]) (by simp [split])
  · rintro ⟨earlier, last⟩ front other back split
    rcases split_snoc split with ⟨-, rfl, rfl⟩ | ⟨shorter, -, rest⟩
    · exact last
    · exact earlier front other shorter rest

namespace Splitter

variable {splitter : Splitter} {pieces : List (List Instruction)} {rest : List Instruction}

/-- The splitter has closed the pieces, each as a balanced statement, and the rest of the code that
it has read is open.  After every instruction of the rest the depth is positive, extended arguments
aside. -/
structure Splits (splitter : Splitter) (pieces : List (List Instruction))
    (rest : List Instruction) : Prop where
  closed : List.Forall₂ Segment pieces splitter.closed
  balanced : ∀ statement ∈ splitter.closed, statement.balanced = true
  current : Opened rest splitter.current
  stack_eq : splitter.stack = NameStack.after [] rest
  depth_eq : splitter.depth = netEffect rest
  nonneg : 0 ≤ netEffect rest
  positive : ∀ front instr back, rest = front ++ instr :: back → instr.op ≠ .extendedArg →
    0 < netEffect (front ++ [instr])

theorem splits_start : Splits {} [] [] where
  closed := .nil
  balanced := by simp
  current := .nothing
  stack_eq := rfl
  depth_eq := rfl
  nonneg := by simp [netEffect]
  positive := by simp

theorem Splits.read (splits : Splits splitter pieces rest) (instr : Instruction)
    (stays : instr.op ≠ .extendedArg → 0 < netEffect (rest ++ [instr])) :
    Splits (splitter.read instr (splitter.stack.step instr)) pieces (rest ++ [instr]) where
  closed := splits.closed
  balanced := splits.balanced
  current := splits.stack_eq ▸ splits.current.extend instr
  stack_eq := by
    rw [NameStack.after_snoc, ← splits.stack_eq]
    rfl
  depth_eq := by simp [Splitter.read, splits.depth_eq]
  nonneg := by
    by_cases prefixes : instr.op = .extendedArg
    · simp [Instruction.net_of_extendedArg prefixes, splits.nonneg]
    · exact Int.le_of_lt (stays prefixes)
  positive := forall_split_snoc.2 ⟨splits.positive, stays⟩

theorem Splits.close (splits : Splits splitter pieces rest) {instr : Instruction}
    (ends : instr.op ≠ .extendedArg) (returns : netEffect (rest ++ [instr]) ≤ 0) :
    Splits ((splitter.read instr (splitter.stack.step instr)).close true)
      (pieces ++ [rest ++ [instr]]) [] := by
  have opened : Opened (rest ++ [instr]) (some (extend splitter.current instr.address
      (splitter.stack.step instr).2)) := splits.stack_eq ▸ splits.current.extend instr
  have segment := opened.segment true
    (fun front other back split more ends => by
      rcases split_snoc split with ⟨rfl, -⟩ | ⟨shorter, rfl, rfl⟩
      · exact absurd rfl more
      · exact splits.positive front other shorter rfl ends)
    (fun last hlast => by
      rw [List.getLast?_concat, Option.some.injEq] at hlast
      simpa [← hlast, ends] using returns)
  have depth : splitter.depth + instr.effect.net = netEffect (rest ++ [instr]) := by
    simp [splits.depth_eq]
  rw [← depth] at segment
  refine ⟨List.rel_append splits.closed (.cons segment .nil), ?_, .nothing, rfl, rfl, ?_, ?_⟩
  · intro statement member
    rcases List.mem_append.1 member with old | new
    · exact splits.balanced statement old
    · rw [List.mem_singleton.1 new]
  · simp [netEffect]
  · simp

theorem Splits.step (splits : Splits splitter pieces rest) (instr : Instruction) :
    ∃ pieces' rest', pieces'.flatten ++ rest' = pieces.flatten ++ rest ++ [instr] ∧
      Splits (splitter.step instr) pieces' rest' := by
  rw [step_eq, splits.depth_eq]
  by_cases closes : instr.op ≠ .extendedArg ∧ netEffect rest + instr.effect.net ≤ 0
  · rw [if_pos closes]
    refine ⟨pieces ++ [rest ++ [instr]], [], by simp, splits.close closes.1 ?_⟩
    simpa using closes.2
  · rw [if_neg closes]
    refine ⟨pieces, rest ++ [instr], by simp, splits.read instr fun ends => ?_⟩
    have depth := not_and.1 closes ends
    simp
    omega

theorem exists_splits (code : List Instruction) :
    ∃ pieces rest, pieces.flatten ++ rest = code ∧ Splits (code.foldl step {}) pieces rest := by
  refine foldl_induct (motive := fun code splitter => ∃ pieces rest,
    pieces.flatten ++ rest = code ∧ Splits splitter pieces rest) ?_ ?_ code
  · exact ⟨[], [], rfl, splits_start⟩
  · rintro done splitter instr ⟨pieces, rest, rfl, splits⟩
    exact splits.step instr

theorem Splits.last (splits : Splits splitter pieces rest) {opened : OpenStatement}
    (hcurrent : splitter.current = some opened) :
    Segment rest { opened with balanced := false, depth := splitter.depth } := by
  have current := hcurrent ▸ splits.current
  rw [splits.depth_eq]
  refine current.segment false (fun front instr back split _ => ?_) fun instr hlast => ?_
  · exact splits.positive front instr back split
  · obtain ⟨front, rfl⟩ := List.getLast?_eq_some_iff.1 hlast
    simpa using splits.positive front instr [] rfl

end Splitter

theorem exists_segments (code : List Instruction) :
    ∃ pieces, pieces.flatten = code ∧ List.Forall₂ Segment pieces (splitStatements code) ∧
      ∀ before statement after, splitStatements code = before ++ statement :: after →
        statement.balanced = false → after = [] ∧ 0 ≤ statement.depth := by
  obtain ⟨pieces, rest, read, splits⟩ := Splitter.exists_splits code
  rw [splitStatements_eq_close]
  unfold Splitter.close
  cases hcurrent : (code.foldl Splitter.step {}).current with
  | none =>
      have done : rest = [] := by
        have current := hcurrent ▸ splits.current
        cases current
        rfl
      refine ⟨pieces, by simpa [done] using read, splits.closed, ?_⟩
      intro before statement after split unbalanced
      have balanced := splits.balanced statement (split ▸ by simp)
      simp [balanced] at unbalanced
  | some opened =>
      refine ⟨pieces ++ [rest], by simpa using read,
        List.rel_append splits.closed (.cons (splits.last hcurrent) .nil), ?_⟩
      intro before statement after split unbalanced
      rcases split_snoc split with ⟨rfl, -, rfl⟩ | ⟨shorter, -, closed⟩
      · exact ⟨rfl, splits.depth_eq ▸ splits.nonneg⟩
      · have balanced := splits.balanced statement (closed ▸ by simp)
        simp [balanced] at unbalanced

/-! ## Unbalanced statements of a graph -/

def Issue.unbalances (number : Nat) : Issue → Bool
  | .unbalancedStatement block _ _ => block == number
  | _ => false

namespace Draft

variable {draft next : Draft} {options : Options} {number position : Nat} {marker : Marker}

def Quiet (number : Nat) (draft : Draft) : Prop :=
  ∀ issue ∈ draft.issues, issue.unbalances number = false

theorem Quiet.wire (quiet : draft.Quiet number) (wire : draft.wire = .ok next) :
    next.Quiet number := by
  intro issue member
  rcases (mem_issues_wire_iff wire).1 member with old | ⟨position, block, -, new⟩
  · exact quiet issue old
  · unfold jumpIssues at new
    rcases List.mem_append.1 new with undecodable | unknown
    · obtain ⟨address, -, rfl⟩ := List.mem_map.1 undecodable
      rfl
    · obtain ⟨jump, -, rfl⟩ := List.mem_map.1 unknown
      rfl

theorem Quiet.resolve {exit : LoopExit} (quiet : draft.Quiet number)
    (resolved : draft.resolve options exit position = .ok next) : next.Quiet number := by
  obtain ⟨block, resolution, notes, -, -, warns, outcome⟩ := resolve_eq_ok resolved
  have noted : ∀ issue ∈ draft.issues ++ notes, issue.unbalances number = false := by
    intro issue member
    rcases List.mem_append.1 member with old | note
    · exact quiet issue old
    · rcases warns with rfl | ⟨loop, rfl⟩
      · cases note
      · rw [List.mem_singleton.1 note]
        rfl
  cases resolution with
  | none =>
      obtain ⟨-, failure, fails, issues⟩ := outcome
      intro issue member
      rw [issues] at member
      rcases List.mem_append.1 member with old | new
      · exact noted issue old
      · rw [List.mem_singleton.1 new]
        cases fails with
        | unresolved => cases exit <;> rfl
        | unknown => rfl
  | some pair =>
      intro issue member
      exact noted issue (outcome.2.2 ▸ member)

theorem Quiet.applyMarker (quiet : draft.Quiet number)
    (applied : applyMarker options position draft marker = .ok next) : next.Quiet number := by
  cases marker with
  | breaks | continues => exact quiet.resolve applied
  | returns | raises =>
      unfold Quiet
      rw [issues_redirect applied]
      exact quiet

theorem Quiet.finalizeBlocks {positions : List Nat} (quiet : draft.Quiet number)
    (folded : positions.foldlM (finalizeBlock options) draft = .ok next) : next.Quiet number := by
  refine foldlM_induct (motive := fun _ => Quiet number) folded quiet ?_
  intro _ position _ before after _ quiet finalized
  obtain ⟨block, -, taken⟩ := bind_eq_ok_iff.1 finalized
  refine foldlM_induct (motive := fun _ => Quiet number) taken quiet ?_
  exact fun _ _ _ _ _ _ quiet applied => quiet.applyMarker applied

end Draft

theorem countP_mapIdx_le_one {α β : Type} {test : β → Bool} {items : List α}
    {make : Nat → α → List β} (number : Nat)
    (own : ∀ index, ∀ item ∈ items, ∀ member ∈ make index item, test member = true →
      index = number)
    (once : ∀ item ∈ items, (make number item).countP test ≤ 1) :
    (items.mapIdx make).flatten.countP test ≤ 1 := by
  induction items generalizing make number with
  | nil => simp
  | cons item items ih =>
      rw [List.mapIdx_cons, List.flatten_cons, List.countP_append]
      cases number with
      | zero =>
          have others : (items.mapIdx fun index => make (index + 1)).flatten.countP test = 0 := by
            rw [List.countP_eq_zero]
            intro member inside passes
            obtain ⟨made, listed, inside⟩ := List.mem_flatten.1 inside
            obtain ⟨index, bound, rfl⟩ := List.mem_mapIdx.1 listed
            have none := own (index + 1) _ (List.mem_cons_of_mem _ (List.getElem_mem bound)) member
              inside passes
            omega
          have first := once item List.mem_cons_self
          omega
      | succ number =>
          have first : (make 0 item).countP test = 0 := by
            rw [List.countP_eq_zero]
            intro member inside passes
            have none := own 0 item List.mem_cons_self member inside passes
            omega
          have rest : (items.mapIdx fun index => make (index + 1)).flatten.countP test ≤ 1 := by
            refine ih number ?_ ?_
            · intro index other listed member inside passes
              have same := own (index + 1) other (List.mem_cons_of_mem _ listed) member inside
                passes
              omega
            · exact fun other listed => once other (List.mem_cons_of_mem _ listed)
          omega

namespace FlowGraph

variable {scope : Scope} {options : Options} {flow : FlowGraph}

theorem countP_unbalanced_le_one (number : Nat) (block : Block) {statements : List Statement}
    (lasts : ∀ before statement after, statements = before ++ statement :: after →
      statement.balanced = false → after = []) :
    (unbalanced number block statements).countP (·.unbalances number) ≤ 1 := by
  have all : (statements.filter fun statement => !statement.balanced).length ≤ 1 := by
    rcases List.eq_nil_or_concat' statements with rfl | ⟨earlier, last, rfl⟩
    · simp
    · have closed : (earlier.filter fun statement => !statement.balanced) = [] := by
        rw [List.filter_eq_nil_iff]
        intro statement member unbalanced
        obtain ⟨before, after, rfl⟩ := List.append_of_mem member
        have final := lasts before statement (after ++ [last]) (by simp) (by simpa using unbalanced)
        simp at final
      rw [List.filter_append, closed, List.nil_append]
      exact List.length_filter_le _ _
  refine List.countP_le_length.trans ?_
  rw [unbalanced, List.length_map]
  exact (((List.take_sublist _ statements).filter _).length_le).trans all

theorem countP_issues_le_one (built : build scope options = .ok flow) (number : Nat) :
    flow.issues.countP (·.unbalances number) ≤ 1 := by
  obtain ⟨wired, resolved, frozen, entry, exit, assembled⟩ := exists_assembled scope options
  rw [assembled.build_eq] at built
  obtain ⟨_, -, rest⟩ := bind_eq_ok_iff.1 built
  obtain ⟨statements, mapped, done⟩ := bind_eq_ok_iff.1 rest
  obtain rfl := pure_eq_ok_iff.1 done
  have start : (Draft.ofBlocks scope.endAddress scope.blocks).Quiet number := by
    intro issue member
    cases member
  have quiet : resolved.Quiet number := by
    have first : wired.reclassify.Quiet number :=
      fun issue member => start.wire assembled.wire issue member
    exact first.finalizeBlocks assembled.finalize
  have none : resolved.issues.countP (·.unbalances number) = 0 := by
    rw [List.countP_eq_zero]
    intro issue member
    simp [quiet issue member]
  rw [assemble, List.countP_append, none, Nat.zero_add]
  refine countP_mapIdx_le_one number ?_ ?_
  · rintro index ⟨block, found⟩ - issue member passes
    obtain ⟨statement, -, rfl⟩ := List.mem_map.1 member
    simpa [Issue.unbalances] using passes
  · rintro ⟨block, found⟩ member
    obtain ⟨origin, -, checked⟩ := (mem_of_mapM_eq_ok mapped).1 (List.of_mem_zip member).2
    rw [checkedStatements_eq_ok checked, Block.statements]
    obtain ⟨-, -, -, lasts⟩ := exists_segments origin.instructions
    refine countP_unbalanced_le_one number block fun before statement after split left => ?_
    exact (lasts before statement after split left).1

end FlowGraph

/-- The statements of a block, which it has unless a stack effect is no word, are split off as
consecutive pieces of its code.  Only the last can be left unbalanced, with no less on the stack
than before it.  The variables that the block names are those that the pieces record without the
accesses to attributes.  A graph reports at most one statement of a block. -/
theorem statements_partition_blocks :
    (∀ block : Block,
      ((∃ statements, block.checkedStatements = .ok statements) ↔
        ∀ instr ∈ block.instructions,
          instr.effect.pops < Word.limit ∧ instr.effect.pushes < Word.limit) ∧
      ∀ statements, block.checkedStatements = .ok statements →
        ∃ pieces, pieces.flatten = block.instructions ∧ (∀ piece ∈ pieces, piece ≠ []) ∧
          List.Forall₂ Segment pieces statements ∧
          (∀ before statement after, statements = before ++ statement :: after →
            statement.balanced = false → after = [] ∧ 0 ≤ statement.depth) ∧
          ∀ mention, block.instructions.filterMap (fun instr => instr.named? mention) =
            pieces.flatMap (recordedPlain mention)) ∧
    ∀ scope options flow, FlowGraph.build scope options = .ok flow →
      ∀ number, flow.issues.countP (fun issue => issue.unbalances number) ≤ 1 := by
  refine ⟨fun block => ⟨FlowGraph.exists_checkedStatements_iff, ?_⟩, ?_⟩
  · intro statements checked
    obtain ⟨pieces, code, segments, lasts⟩ := exists_segments block.instructions
    rw [FlowGraph.checkedStatements_eq_ok checked, Block.statements]
    refine ⟨pieces, code, fun piece member => ?_, segments, lasts, fun mention => ?_⟩
    · obtain ⟨statement, -, segment⟩ := forall₂_exists_of_mem segments member
      exact segment.ne_nil
    · rw [← code, List.filterMap_flatten, List.flatMap, funext (recordedPlain_eq mention)]
  · exact fun scope options flow built number => FlowGraph.countP_issues_le_one built number

/-- A store and an attribute store of one value, and code that the block leaves open behind an
extended argument. -/
def chainSample : Scope :=
  { instructions := [
      ⟨0, .loadConst, .const (.int 1), 1, 0, false⟩,
      ⟨3, .dupTop, .none, 1, 0, false⟩,
      ⟨4, .storeName, .name "x", 1, 0, false⟩,
      ⟨7, .loadName, .name "x", 1, 0, false⟩,
      ⟨10, .storeAttr, .name "a", 1, 0, false⟩,
      ⟨13, .loadName, .name "y", 2, 0, false⟩,
      ⟨16, .extendedArg, .arg 0, 2, 0, false⟩]
    sorted := by decide }

theorem chainSample_partition :
    ∃ flow block statements, FlowGraph.build chainSample {} = .ok flow ∧
      flow.blocks[0]? = some block ∧ block.checkedStatements = .ok statements ∧
      statements.map (fun statement => (statement.start, statement.last, statement.balanced)) =
        [(0, 10, true), (13, 16, false)] ∧
      (∃ pieces, pieces.flatten = block.instructions ∧ List.Forall₂ Segment pieces statements ∧
        block.instructions.filterMap (fun instr => instr.named? .store) =
          pieces.flatMap (recordedPlain .store)) ∧
      flow.issues.countP (fun issue => issue.unbalances 0) ≤ 1 := by
  have run : succeedsWith (fun flow => flow.blocks[0]?.any fun block =>
      succeedsWith (fun statements => statements.map (fun statement =>
        (statement.start, statement.last, statement.balanced)) =
          [(0, 10, true), (13, 16, false)]) block.checkedStatements)
      (FlowGraph.build chainSample {}) = true := by decide +kernel
  obtain ⟨flow, built, found⟩ := succeedsWith_iff.1 run
  obtain ⟨block, hblock, found⟩ := (Option.any_eq_true _ _).1 found
  obtain ⟨statements, checked, found⟩ := succeedsWith_iff.1 found
  obtain ⟨pieces, code, -, segments, -, names⟩ :=
    (statements_partition_blocks.1 block).2 statements checked
  exact ⟨flow, block, statements, built, hblock, checked, of_decide_eq_true found,
    ⟨pieces, code, segments, names .store⟩, statements_partition_blocks.2 _ _ flow built 0⟩

end StackFlow
