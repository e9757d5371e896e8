import StackFlow.Proofs.Continues

/-!
# Issues about jumps

Wiring reports the branches of every block whose destination cannot be decoded or lies where control
cannot land.  Taking the markers adds to these reports in one way only: a break whose loop ends at
such an address.  A fall through and a continue always lead to the start of a block.
-/

namespace StackFlow

def Opcode.branches (op : Opcode) : Bool :=
  match op.transfer with
  | .jump | .jumpIfTrue | .jumpIfFalse | .jumpIfExhausted | .setup _ => true
  | .advance | .returns | .breaks | .continues | .raises => false

def Issue.concernsJump : Issue → Bool
  | .unknownJumpTarget .. | .undecodableJump .. => true
  | .unresolvedBreak .. | .unresolvedContinue .. | .nonDominatingLoop .. |
    .unbalancedStatement .. => false

theorem Decoded.branch?_isSome_eq (code : Decoded) :
    code.branch?.isSome = code.instr.op.branches := by
  unfold branch? Opcode.branches
  cases code.instr.op.transfer with
  | setup region => cases region <;> rfl
  | _ => rfl

/-! ## Addresses where control can land -/

namespace Scope

variable {scope : Scope} {start stop address target number : Nat} {block : Block}

def Unknown (scope : Scope) (address : Nat) : Prop :=
  address ≠ scope.endAddress ∧ ∀ instr ∈ scope.instructions, instr.address ≠ address

theorem not_unknown_of_mem_boundaries (member : address ∈ scope.boundaries) :
    ¬ scope.Unknown address := by
  rintro ⟨inner, none⟩
  obtain ⟨instr, hinstr, heq⟩ := (mem_boundaries_iff.1 member).2.resolve_left inner
  exact none instr hinstr heq

theorem mem_leaders_of_destination {code : Decoded} (hcode : code ∈ scope.decoded)
    (lands : code.destination = some address) : address ∈ scope.leaders :=
  SortedSet.mem_ofList.2 (List.mem_append_left _
    (mem_jumpLeaders_of_destination hcode (addressing_isSome_of_destination hcode lands) lands))

theorem unknown_iff_of_mem_leaders (leads : address ∈ scope.leaders) :
    scope.Unknown address ↔
      address ≠ scope.endAddress ∧ ∀ block ∈ scope.blocks, block.start ≠ address := by
  constructor
  · intro unknown
    refine ⟨unknown.1, ?_⟩
    rintro block member rfl
    exact not_unknown_of_mem_boundaries (start_mem_boundaries member) unknown
  · rintro ⟨inner, none⟩
    refine ⟨inner, fun instr member heq => ?_⟩
    have cut : address ∈ scope.boundaries :=
      mem_boundaries_iff.2 ⟨leads, .inr ⟨instr, member, heq⟩⟩
    obtain ⟨block, hblock, start⟩ := exists_block_of_mem_boundaries cut inner
    exact none block hblock start

theorem mem_leaders_of_endTarget (member : block ∈ scope.blocks)
    (opens : block.endTarget = some stop) : stop ∈ scope.leaders := by
  obtain ⟨code, hcode, -, -, lands⟩ := exists_setup_of_endTarget member opens
  exact mem_leaders_of_destination hcode lands

/-! ## Branches of a block -/

structure Jumps (scope : Scope) (block : Block) (previous : Option Instruction)
    (instr : Instruction) : Prop where
  behind : (previous, instr) ∈ scope.withPrevious
  inside : instr ∈ block.instructions
  branches : instr.op.branches = true

namespace Spans

variable (spans : scope.Spans start stop block)

include spans

theorem exists_branch_iff {P : Nat → Option Nat → Prop} :
    (∃ code ∈ scope.codeBetween start stop, code.branch?.isSome = true ∧
        P code.instr.address code.destination) ↔
      ∃ previous instr, scope.Jumps block previous instr ∧ P instr.address
        ((instr.jumpDestination (extension previous) scope.jumpWidth).map scope.anchor) := by
  simp only [Decoded.branch?_isSome_eq]
  constructor
  · rintro ⟨code, between, branches, holds⟩
    have inside : code.instr ∈ block.instructions :=
      spans.instructions_eq ▸ List.mem_map_of_mem between
    obtain ⟨⟨previous, instr⟩, behind, rfl⟩ := List.mem_map.1 (mem_codeBetween_iff.1 between).1
    exact ⟨previous, instr, ⟨behind, inside, branches⟩, holds⟩
  · rintro ⟨previous, instr, jumps, holds⟩
    have hcode : Decoded.mk instr ((instr.jumpDestination (extension previous)
        scope.jumpWidth).map scope.anchor) ∈ scope.decoded := List.mem_map.2 ⟨_, jumps.behind, rfl⟩
    exact ⟨_, spans.mem_codeBetween hcode jumps.inside, jumps.branches, holds⟩

theorem mem_undecodable_iff :
    address ∈ block.undecodable ↔ ∃ previous instr, scope.Jumps block previous instr ∧
      instr.jumpDestination (extension previous) scope.jumpWidth = none ∧
      instr.address = address := by
  have decoded := spans.exists_branch_iff
    (P := fun place destination => destination = none ∧ place = address)
  simp only [Option.map_eq_none_iff] at decoded
  rw [← decoded]
  obtain ⟨first, rest, next, split, rfl, -⟩ := spans.ofCode
  simp only [Block.ofCode, ← split, List.mem_map, List.mem_filter, Decoded.isUndecodable,
    Bool.and_eq_true, Option.isNone_iff_eq_none, and_assoc]

theorem exists_markerAddress_iff {marker : Marker} :
    block.hasMarker marker = true ↔ ∃ address, block.markerAddress marker = some address := by
  simp [spans.hasMarker_iff, Block.markerAddress, ← Option.isSome_iff_exists]

theorem mem_leaders_of_jump {kind : BranchKind} (hstop : stop ∈ scope.boundaries)
    (jump : ⟨.address target, kind⟩ ∈ block.jumps) : target ∈ scope.leaders := by
  obtain ⟨first, rest, next, split, rfl, follows⟩ := spans.ofCode
  rcases Block.address_mem_ofCode_iff.1 jump with
    ⟨code, hcode, -, lands⟩ | ⟨-, -, -, instr, rfl, rfl⟩
  · exact mem_leaders_of_destination (mem_codeBetween_iff.1 (split ▸ hcode)).1 lands
  · rcases follows with ⟨none, -⟩ | ⟨following, heq, rfl⟩
    · cases none
    · rw [Option.some.inj heq]
      exact (mem_boundaries_iff.1 hstop).1

theorem exists_jump_iff_of_unknown (hstop : stop ∈ scope.boundaries)
    (unknown : scope.Unknown target) :
    (∃ kind, ⟨.address target, kind⟩ ∈ block.jumps) ↔
      ∃ previous instr, scope.Jumps block previous instr ∧
        (instr.jumpDestination (extension previous) scope.jumpWidth).map scope.anchor =
          some target := by
  rw [← spans.exists_branch_iff (P := fun _ destination => destination = some target)]
  obtain ⟨first, rest, next, split, rfl, follows⟩ := spans.ofCode
  simp only [Block.address_mem_ofCode_iff, split, Option.isSome_iff_exists]
  constructor
  · rintro ⟨kind, ⟨code, hcode, branches, lands⟩ | ⟨-, -, -, instr, rfl, heq⟩⟩
    · exact ⟨code, hcode, ⟨kind, branches⟩, lands⟩
    · -- the block falls through to a boundary
      rcases follows with ⟨none, -⟩ | ⟨following, hfollowing, hstops⟩
      · cases none
      · obtain rfl := Option.some.inj hfollowing
        rw [← heq, hstops] at unknown
        exact absurd unknown (not_unknown_of_mem_boundaries hstop)
  · rintro ⟨code, hcode, ⟨kind, branches⟩, lands⟩
    exact ⟨kind, .inl ⟨code, hcode, branches, lands⟩⟩

end Spans

end Scope

/-! ## Reports -/

namespace Draft

variable {scope : Scope} {options : Options} {draft next wired : Draft}
  {number position address target : Nat} {block : Block} {exit : LoopExit}

theorem nodeAt?_eq_none_iff :
    draft.nodeAt? address = none ↔
      address ≠ draft.endAddress ∧ ∀ block ∈ draft.blocks, block.start ≠ address := by
  have starts := @Block.startingAt?_isSome_iff draft.blocks address
  unfold nodeAt?
  by_cases hend : address = draft.endAddress
  · simp [hend]
  · simp [hend, ← Option.not_isSome_iff_eq_none, starts]

theorem undecodableJump_mem_jumpIssues_iff :
    .undecodableJump position address ∈ draft.jumpIssues number block ↔
      position = number ∧ address ∈ block.undecodable := by
  simp only [jumpIssues, List.mem_append, List.mem_map, List.mem_filter, reduceCtorEq, and_false,
    exists_false, or_false, Issue.undecodableJump.injEq]
  constructor
  · rintro ⟨_, member, rfl, rfl⟩
    exact ⟨rfl, member⟩
  · rintro ⟨rfl, member⟩
    exact ⟨address, member, rfl, rfl⟩

theorem unknownJumpTarget_mem_jumpIssues_iff :
    .unknownJumpTarget position target ∈ draft.jumpIssues number block ↔
      position = number ∧ (∃ kind, ⟨.address target, kind⟩ ∈ block.jumps) ∧
        draft.nodeAt? target = none := by
  simp only [jumpIssues, List.mem_append, List.mem_map, List.mem_filter, Prod.exists,
    Block.mem_addressJumps_iff, Option.isNone_iff_eq_none, reduceCtorEq, and_false, exists_false,
    false_or, Issue.unknownJumpTarget.injEq]
  constructor
  · rintro ⟨_, kind, ⟨jump, none⟩, rfl, rfl⟩
    exact ⟨rfl, ⟨kind, jump⟩, none⟩
  · rintro ⟨rfl, ⟨kind, jump⟩, none⟩
    exact ⟨target, kind, ⟨jump, none⟩, rfl, rfl⟩

theorem mem_issues_wire_iff {issue : Issue} (wire : draft.wire = .ok next) :
    issue ∈ next.issues ↔ issue ∈ draft.issues ∨
      ∃ number block, draft.blocks[number]? = some block ∧
        issue ∈ draft.jumpIssues number block := by
  obtain ⟨graph, -, done⟩ := bind_eq_ok_iff.1 wire
  obtain rfl := pure_eq_ok_iff.1 done
  simp only [List.mem_append, List.mem_flatMap, Prod.exists, List.mem_zipIdx_iff_getElem?]
  exact or_congr_right ⟨fun ⟨block, number, found⟩ => ⟨number, block, found⟩,
    fun ⟨number, block, found⟩ => ⟨block, number, found⟩⟩

theorem exists_start_of_continueDestination? {setup : Block}
    (chosen : draft.continueDestination? block setup = some target) :
    ∃ landing ∈ draft.blocks, landing.start = target := by
  unfold continueDestination? at chosen
  rcases Option.or_eq_some_iff.1 chosen with encoded | ⟨-, header⟩
  · have fits := (Option.filter_eq_some_iff.1 encoded).2
    exact Block.startingAt?_isSome_iff.1 (Bool.and_eq_true_iff.1 fits).2
  · obtain ⟨_, -, found⟩ := Option.bind_eq_some_iff.1 header
    obtain ⟨landing, hlanding, heq⟩ := Option.bind_eq_some_iff.1 found
    exact ⟨landing, List.mem_of_getElem? hlanding, Option.some.inj heq⟩

/-- The break of a block is found to leave a loop that ends at an address without a node. -/
def Misses (draft : Draft) (number : Nat) (block : Block) (target : Nat) : Prop :=
  ∃ loop setup, enclosingLoop? draft.graph draft.blocks (blockIndex number)
      ((block.markerAddress .breaks).getD block.start) = .ok (some (loop, setup)) ∧
    setup.endTarget = some target ∧ draft.nodeAt? target = none

namespace Fails

variable {issue other : Issue}

theorem unique (first : draft.Fails exit number block issue)
    (second : draft.Fails exit number block other) : issue = other := by
  cases first with
  | unresolved nowhere =>
      cases second with
      | unresolved => rfl
      | unknown chosen leads => cases (nowhere _ _ chosen).symm.trans leads
  | unknown chosen leads =>
      cases second with
      | unresolved nowhere => cases (nowhere _ _ chosen).symm.trans leads
      | unknown found goes =>
          cases chosen.symm.trans found
          rw [Option.some.inj (leads.symm.trans goes)]

theorem not_resolved {pair : Nat × Nat} (fails : draft.Fails exit number block issue)
    (resolution : draft.resolution? exit number block = .ok (some pair)) : False := by
  obtain ⟨loop, hloop, chosen⟩ := bind_eq_ok_iff.1 resolution
  obtain ⟨⟨loop, setup⟩, rfl, leads⟩ := Option.bind_eq_some_iff.1 (pure_eq_ok_iff.1 chosen)
  obtain ⟨destination, hdestination, hnode⟩ := Option.bind_eq_some_iff.1 leads
  cases fails with
  | unresolved nowhere => cases (nowhere _ _ hloop).symm.trans hdestination
  | unknown found goes missing =>
      cases hloop.symm.trans found
      cases hdestination.symm.trans goes
      rw [missing] at hnode
      cases hnode

theorem iff_misses (concerns : issue.concernsJump = true) :
    draft.Fails exit number block issue ↔
      exit = .breaks ∧ ∃ target, issue = .unknownJumpTarget number target ∧
        draft.Misses number block target := by
  constructor
  · intro fails
    cases fails with
    | unresolved => cases exit <;> cases concerns
    | unknown chosen leads missing =>
        cases exit with
        | breaks => exact ⟨rfl, _, rfl, _, _, chosen, leads, missing⟩
        | continues =>
            obtain ⟨landing, member, start⟩ := exists_start_of_continueDestination? leads
            exact absurd start ((nodeAt?_eq_none_iff.1 missing).2 landing member)
  · rintro ⟨rfl, target, rfl, loop, setup, chosen, leads, missing⟩
    exact .unknown chosen leads missing

end Fails

theorem mem_issues_resolve_iff {issue : Issue} (concerns : issue.concernsJump = true)
    (resolved : draft.resolve options exit number = .ok next)
    (found : draft.blocks[number]? = some block) :
    issue ∈ next.issues ↔ issue ∈ draft.issues ∨ draft.Fails exit number block issue := by
  obtain ⟨current, resolution, notes, hcurrent, hresolution, warns, outcome⟩ :=
    resolve_eq_ok resolved
  obtain rfl := Option.some.inj (hcurrent.symm.trans found)
  have quiet : issue ∉ notes := by
    rcases warns with rfl | ⟨loop, rfl⟩
    · exact List.not_mem_nil
    · intro member
      obtain rfl := List.mem_singleton.1 member
      cases concerns
  cases resolution with
  | none =>
      obtain ⟨-, failure, fails, issues⟩ := outcome
      have same : issue = failure ↔ draft.Fails exit number current issue :=
        ⟨fun heq => heq ▸ fails, fun others => others.unique fails⟩
      simp [issues, quiet, same]
  | some pair =>
      obtain ⟨-, -, issues⟩ := outcome
      have none : ¬ draft.Fails exit number current issue := fun fails =>
        fails.not_resolved hresolution
      simp [issues, quiet, none]

theorem mem_issues_finalizeBlock_iff {issue : Issue} (concerns : issue.concernsJump = true)
    (finalized : finalizeBlock options draft number = .ok next)
    (found : draft.blocks[number]? = some block) :
    issue ∈ next.issues ↔ issue ∈ draft.issues ∨ block.hasMarker .breaks = true ∧
      ∃ target, issue = .unknownJumpTarget number target ∧ draft.Misses number block target := by
  obtain ⟨broken, continued, returned, hbroken, hcontinued, hreturned, hraised⟩ :=
    finalizeBlock_eq_ok finalized found
  have leaves : ∀ {marker before after}, marker.leaves = true →
      takeMarker options number block before marker = .ok after →
      after.issues = before.issues := by
    intro marker before after leaves taken
    unfold takeMarker at taken
    split at taken
    · cases marker with
      | breaks | continues => cases leaves
      | returns | raises => exact issues_redirect taken
    · rw [pure_eq_ok_iff.1 taken]
  have continues : issue ∈ continued.issues ↔ issue ∈ broken.issues := by
    cases marked : block.hasMarker .continues with
    | false =>
        rw [takeMarker_of_not marked, Except.ok.injEq] at hcontinued
        rw [hcontinued]
    | true =>
        rw [show Marker.continues = LoopExit.marker .continues from rfl] at hcontinued marked
        rw [takeMarker_exit marked] at hcontinued
        obtain ⟨current, hcurrent, -⟩ := bind_eq_ok_iff.1 hcontinued
        rw [mem_issues_resolve_iff concerns hcontinued (Fault.fetch_eq_ok_iff.1 hcurrent),
          Fails.iff_misses concerns]
        simp
  rw [leaves rfl hraised, leaves rfl hreturned, continues]
  cases marked : block.hasMarker .breaks with
  | false =>
      rw [takeMarker_of_not marked, Except.ok.injEq] at hbroken
      simp [hbroken]
  | true =>
      rw [show Marker.breaks = LoopExit.marker .breaks from rfl] at hbroken marked
      rw [takeMarker_exit marked] at hbroken
      rw [mem_issues_resolve_iff concerns hbroken found, Fails.iff_misses concerns]
      simp

end Draft

/-! ## The issues of a graph -/

namespace FlowGraph

variable {scope : Scope} {options : Options} {flow : FlowGraph} {wired resolved draft : Draft}
  {number bound target : Nat} {block : Block} {issue : Issue}

theorem draftBefore_succ_eq_ok
    (before : draftBefore scope options (number + 1) = .ok draft) :
    ∃ current block, draftBefore scope options number = .ok current ∧
      scope.blocks[number]? = some block ∧ current.blocks[number]? = some block ∧
      Draft.finalizeBlock options current number = .ok draft := by
  obtain ⟨wired, wire, folded⟩ := bind_eq_ok_iff.1 before
  rw [List.range_succ, List.foldlM_append] at folded
  obtain ⟨current, first, folded⟩ := bind_eq_ok_iff.1 folded
  rw [List.foldlM_cons] at folded
  obtain ⟨next, turn, last⟩ := bind_eq_ok_iff.1 folded
  obtain rfl := pure_eq_ok_iff.1 last
  obtain ⟨block, hblock, -⟩ := bind_eq_ok_iff.1 turn
  have found := Fault.fetch_eq_ok_iff.1 hblock
  -- the block is still as it was, since its turn has not come
  have same := (Draft.touches_foldlM_finalizeBlock first).block number (by simp)
  have blocks : wired.reclassify.blocks = scope.blocks := (Draft.wire_eq_ok wire).2.1
  rw [found, blocks] at same
  exact ⟨current, block, bind_eq_ok_iff.2 ⟨wired, wire, first⟩, same.symm, found, turn⟩

structure Overshoots (scope : Scope) (options : Options) (number : Nat) (target : Nat)
    (block : Block) (draft : Draft) : Prop where
  before : draftBefore scope options number = .ok draft
  found : scope.blocks[number]? = some block
  breaks : block.hasMarker .breaks = true
  misses : draft.Misses number block target

theorem mem_issues_draftBefore_iff (concerns : issue.concernsJump = true)
    (wire : (Draft.ofBlocks scope.endAddress scope.blocks).wire = .ok wired)
    (before : draftBefore scope options bound = .ok draft) :
    issue ∈ draft.issues ↔ issue ∈ wired.issues ∨ ∃ number < bound, ∃ target block current,
      issue = .unknownJumpTarget number target ∧
        Overshoots scope options number target block current := by
  induction bound generalizing draft with
  | zero =>
      obtain ⟨other, hother, folded⟩ := bind_eq_ok_iff.1 before
      obtain rfl := Except.ok.inj (hother.symm.trans wire)
      obtain rfl : other.reclassify = draft := pure_eq_ok_iff.1 folded
      simp [Draft.reclassify]
  | succ bound ih =>
      obtain ⟨current, block, first, hblock, found, turn⟩ := draftBefore_succ_eq_ok before
      rw [Draft.mem_issues_finalizeBlock_iff concerns turn found, ih first, or_assoc]
      refine or_congr_right ?_
      simp only [Nat.lt_succ_iff_lt_or_eq, or_and_right, exists_or, exists_eq_left]
      refine or_congr_right ⟨?_, ?_⟩
      · rintro ⟨breaks, target, rfl, misses⟩
        exact ⟨target, block, current, rfl, first, hblock, breaks, misses⟩
      · rintro ⟨target, other, draft, rfl, hdraft, hother, breaks, misses⟩
        obtain rfl := Except.ok.inj (first.symm.trans hdraft)
        obtain rfl := Option.some.inj (hblock.symm.trans hother)
        exact ⟨breaks, target, rfl, misses⟩

theorem mem_issues_iff (concerns : issue.concernsJump = true)
    (built : build scope options = .ok flow) :
    issue ∈ flow.issues ↔
      (∃ number block, scope.blocks[number]? = some block ∧
        issue ∈ (Draft.ofBlocks scope.endAddress scope.blocks).jumpIssues number block) ∨
      ∃ number target block draft, issue = .unknownJumpTarget number target ∧
        Overshoots scope options number target block draft := by
  obtain ⟨wired, resolved, unbalanced, stages, issues, balance⟩ := exists_stages_issues built
  have quiet : issue ∉ unbalanced := by
    intro member
    obtain ⟨number, start, depth, rfl⟩ := balance issue member
    cases concerns
  have last : draftBefore scope options scope.blocks.length = .ok resolved :=
    bind_eq_ok_iff.2 ⟨wired, stages.wire, stages.blocks_wired ▸ stages.finalize⟩
  rw [issues, List.mem_append, or_iff_left quiet,
    mem_issues_draftBefore_iff concerns stages.wire last, Draft.mem_issues_wire_iff stages.wire]
  simp only [Draft.ofBlocks, List.not_mem_nil, false_or]
  refine or_congr_right ⟨?_, ?_⟩
  · rintro ⟨number, -, rest⟩
    exact ⟨number, rest⟩
  · rintro ⟨number, target, block, draft, heq, overshoots⟩
    exact ⟨number, (List.getElem?_eq_some_iff.1 overshoots.found).1, target, block, draft, heq,
      overshoots⟩

theorem undecodableJump_mem_issues_iff {address : Nat} (built : build scope options = .ok flow) :
    .undecodableJump number address ∈ flow.issues ↔
      ∃ block, scope.blocks[number]? = some block ∧ ∃ previous instr,
        scope.Jumps block previous instr ∧
        instr.jumpDestination (Scope.extension previous) scope.jumpWidth = none ∧
        instr.address = address := by
  rw [mem_issues_iff rfl built]
  simp only [Draft.undecodableJump_mem_jumpIssues_iff, reduceCtorEq, false_and, exists_false,
    or_false]
  constructor
  · rintro ⟨_, block, found, rfl, member⟩
    obtain ⟨_, _, -, -, spans⟩ := Scope.getElem?_blocks found
    exact ⟨block, found, spans.mem_undecodable_iff.1 member⟩
  · rintro ⟨block, found, member⟩
    obtain ⟨_, _, -, -, spans⟩ := Scope.getElem?_blocks found
    exact ⟨number, block, found, rfl, spans.mem_undecodable_iff.2 member⟩

theorem nodeAt?_endTarget_eq_none_iff {loop index address : Nat} {setup : Block}
    (before : draftBefore scope options number = .ok draft)
    (chosen : Draft.enclosingLoop? draft.graph draft.blocks index address =
      .ok (some (loop, setup))) (opens : setup.endTarget = some target) :
    draft.nodeAt? target = none ↔ scope.Unknown target := by
  have reached := finalizing_draftBefore before
  obtain ⟨encloses, -⟩ := Draft.encloses_of_enclosingLoop? reached.whole.live chosen
  obtain ⟨original, horiginal, heq⟩ := reached.exists_original encloses.found
  rw [heq] at opens
  have leads := Scope.mem_leaders_of_endTarget (List.mem_of_getElem? horiginal) opens
  rw [Draft.nodeAt?_eq_none_iff, Scope.unknown_iff_of_mem_leaders leads, reached.endAddress_eq]
  exact and_congr_right fun _ => Block.forall_mem_congr reached.bare_eq fun _ => Iff.rfl

structure BreaksTo (scope : Scope) (options : Options) (number : Nat) (block : Block)
    (target : Nat) (draft : Draft) (address loop : Nat) (setup : Block) : Prop where
  breaks : block.markerAddress .breaks = some address
  before : draftBefore scope options number = .ok draft
  chosen : Draft.enclosingLoop? draft.graph draft.blocks (Draft.blockIndex number) address =
    .ok (some (loop, setup))
  opens : setup.endTarget = some target

theorem exists_overshoots_iff :
    (∃ block draft, Overshoots scope options number target block draft) ↔
      scope.Unknown target ∧ ∃ block, scope.blocks[number]? = some block ∧
        ∃ draft address loop setup,
          BreaksTo scope options number block target draft address loop setup := by
  constructor
  · rintro ⟨block, draft, before, found, breaks, loop, setup, chosen, opens, missing⟩
    obtain ⟨_, _, -, -, spans⟩ := Scope.getElem?_blocks found
    obtain ⟨address, marked⟩ := spans.exists_markerAddress_iff.1 breaks
    have unknown := (nodeAt?_endTarget_eq_none_iff before chosen opens).1 missing
    rw [marked, Option.getD_some] at chosen
    exact ⟨unknown, block, found, draft, address, loop, setup, marked, before, chosen, opens⟩
  · rintro ⟨unknown, block, found, draft, address, loop, setup, marked, before, chosen, opens⟩
    obtain ⟨_, _, -, -, spans⟩ := Scope.getElem?_blocks found
    have missing := (nodeAt?_endTarget_eq_none_iff before chosen opens).2 unknown
    rw [← Option.getD_some (a := address) (b := block.start), ← marked] at chosen
    exact ⟨block, draft, before, found, spans.exists_markerAddress_iff.2 ⟨address, marked⟩, loop,
      setup, chosen, opens, missing⟩

theorem unknownJumpTarget_mem_issues_iff (built : build scope options = .ok flow) :
    .unknownJumpTarget number target ∈ flow.issues ↔
      scope.Unknown target ∧ ∃ block, scope.blocks[number]? = some block ∧
        ((∃ previous instr, scope.Jumps block previous instr ∧
            (instr.jumpDestination (Scope.extension previous) scope.jumpWidth).map scope.anchor =
              some target) ∨
          ∃ draft address loop setup,
            BreaksTo scope options number block target draft address loop setup) := by
  rw [mem_issues_iff rfl built]
  simp only [Draft.unknownJumpTarget_mem_jumpIssues_iff, Issue.unknownJumpTarget.injEq]
  constructor
  · rintro (⟨_, block, found, rfl, ⟨kind, jump⟩, missing⟩ |
      ⟨_, _, block, draft, ⟨rfl, rfl⟩, overshoots⟩)
    · obtain ⟨_, _, -, hstop, spans⟩ := Scope.getElem?_blocks found
      have leads := spans.mem_leaders_of_jump (List.mem_of_getElem? hstop) jump
      have unknown := (Scope.unknown_iff_of_mem_leaders leads).2
        (Draft.nodeAt?_eq_none_iff.1 missing)
      exact ⟨unknown, block, found, .inl ((spans.exists_jump_iff_of_unknown
        (List.mem_of_getElem? hstop) unknown).1 ⟨kind, jump⟩)⟩
    · obtain ⟨unknown, block, found, breaks⟩ := exists_overshoots_iff.1 ⟨block, draft, overshoots⟩
      exact ⟨unknown, block, found, .inr breaks⟩
  · rintro ⟨unknown, block, found, branch | breaks⟩
    · obtain ⟨_, _, -, hstop, spans⟩ := Scope.getElem?_blocks found
      obtain ⟨kind, jump⟩ := (spans.exists_jump_iff_of_unknown
        (List.mem_of_getElem? hstop) unknown).2 branch
      have leads := spans.mem_leaders_of_jump (List.mem_of_getElem? hstop) jump
      exact .inl ⟨number, block, found, rfl, ⟨kind, jump⟩,
        Draft.nodeAt?_eq_none_iff.2 ((Scope.unknown_iff_of_mem_leaders leads).1 unknown)⟩
    · obtain ⟨block, draft, overshoots⟩ := exists_overshoots_iff.2 ⟨unknown, block, found, breaks⟩
      exact .inr ⟨number, target, block, draft, ⟨rfl, rfl⟩, overshoots⟩

theorem Stages.exists_block_iff {P : Block → Prop}
    (stages : Stages scope options flow wired resolved)
    (blind : ∀ block jumps, P block → P { block with jumps }) :
    (∃ block, scope.blocks[number]? = some block ∧ P block) ↔
      ∃ block, flow.blocks[number]? = some block ∧ P block := by
  constructor
  · rintro ⟨original, horiginal, holds⟩
    obtain ⟨block, found, heq⟩ := stages.getElem?_flow_blocks horiginal
    exact ⟨block, found, heq ▸ blind original block.jumps holds⟩
  · rintro ⟨block, found, holds⟩
    obtain ⟨original, horiginal, heq⟩ := stages.getElem?_scope_blocks found
    rw [heq] at holds
    exact ⟨original, horiginal, blind { original with jumps := block.jumps } original.jumps holds⟩

/-- The jumps that are reported.  One is undecodable if it is that of a branch without a
destination.  A target is unknown if control cannot land there, and a branch of the block goes
there or its break leaves a loop that ends there. -/
theorem jump_issues_iff (built : build scope options = .ok flow) (number : Nat) :
    (∀ address, .undecodableJump number address ∈ flow.issues ↔
      ∃ block, flow.blocks[number]? = some block ∧ ∃ previous instr,
        scope.Jumps block previous instr ∧
        instr.jumpDestination (Scope.extension previous) scope.jumpWidth = none ∧
        instr.address = address) ∧
    ∀ target, .unknownJumpTarget number target ∈ flow.issues ↔
      scope.Unknown target ∧ ∃ block, flow.blocks[number]? = some block ∧
        ((∃ previous instr, scope.Jumps block previous instr ∧
            (instr.jumpDestination (Scope.extension previous) scope.jumpWidth).map scope.anchor =
              some target) ∨
          ∃ draft address loop setup,
            BreaksTo scope options number block target draft address loop setup) := by
  obtain ⟨wired, resolved, stages⟩ := build_eq_ok built
  constructor
  · intro address
    rw [undecodableJump_mem_issues_iff built, stages.exists_block_iff]
    rintro block jumps ⟨previous, instr, ⟨behind, inside, branches⟩, rest⟩
    exact ⟨previous, instr, ⟨behind, inside, branches⟩, rest⟩
  · intro target
    rw [unknownJumpTarget_mem_issues_iff built, stages.exists_block_iff]
    rintro block jumps (⟨previous, instr, ⟨behind, inside, branches⟩, lands⟩ |
      ⟨draft, address, loop, setup, ⟨breaks, before, chosen, opens⟩⟩)
    · exact .inl ⟨previous, instr, ⟨behind, inside, branches⟩, lands⟩
    · exact .inr ⟨draft, address, loop, setup, ⟨breaks, before, chosen, opens⟩⟩

/-- A loop that ends past the scope, a break out of it, and a jump without an argument. -/
def strayJumpSample : Scope :=
  { instructions := [
      ⟨0, .setupLoop, .arg 100, 1, 0, false⟩,
      ⟨3, .breakLoop, .none, 2, 0, false⟩,
      ⟨4, .jumpAbsolute, .none, 3, 0, false⟩,
      ⟨7, .nop, .none, 4, 0, false⟩]
    sorted := by decide }

theorem strayJumpSample_issues :
    ∃ flow, build strayJumpSample {} = .ok flow ∧ .undecodableJump 1 4 ∈ flow.issues ∧
      .unknownJumpTarget 0 103 ∈ flow.issues ∧ .unknownJumpTarget 1 103 ∈ flow.issues ∧
      .unknownJumpTarget 1 8 ∉ flow.issues := by
  have run : succeedsWith (fun flow =>
      (flow.blocks[0]?).any
        (fun block => block.instructions = strayJumpSample.instructions.take 1) &&
      (flow.blocks[1]?).any fun block => block.instructions = strayJumpSample.instructions.drop 1)
      (build strayJumpSample {}) = true := by decide +kernel
  have search : succeedsWith (fun draft => succeedsWith (fun loop =>
        loop.any fun found => found.2.endTarget == some 103)
      (Draft.enclosingLoop? draft.graph draft.blocks (Draft.blockIndex 1) 3))
      (draftBefore strayJumpSample {} 1) = true := by decide +kernel
  obtain ⟨flow, built, found⟩ := succeedsWith_iff.1 run
  simp only [Bool.and_eq_true, Option.any_eq_true, decide_eq_true_eq] at found
  obtain ⟨⟨first, hfirst, setup⟩, second, hsecond, body⟩ := found
  obtain ⟨draft, before, found⟩ := succeedsWith_iff.1 search
  simp only [succeedsWith_iff, Option.any_eq_true, beq_iff_eq] at found
  obtain ⟨_, chosen, ⟨loop, opener⟩, rfl, opens⟩ := found
  have unknown : strayJumpSample.Unknown 103 := ⟨by decide, by decide⟩
  refine ⟨flow, built, ?_, ?_, ?_, ?_⟩
  · exact ((jump_issues_iff built 1).1 4).2 ⟨second, hsecond,
      some ⟨3, .breakLoop, .none, 2, 0, false⟩, ⟨4, .jumpAbsolute, .none, 3, 0, false⟩,
      ⟨by decide, by rw [body]; decide, rfl⟩, rfl, rfl⟩
  · exact ((jump_issues_iff built 0).2 103).2 ⟨unknown, first, hfirst, .inl ⟨none,
      ⟨0, .setupLoop, .arg 100, 1, 0, false⟩, ⟨by decide, by rw [setup]; decide, rfl⟩, by decide⟩⟩
  · exact ((jump_issues_iff built 1).2 103).2 ⟨unknown, second, hsecond, .inr ⟨draft, 3, loop,
      opener, by rw [Block.markerAddress, body]; rfl, before, chosen, opens⟩⟩
  · intro reported
    exact ((jump_issues_iff built 1).2 8).1 reported |>.1.1 (by decide)

end FlowGraph

end StackFlow
