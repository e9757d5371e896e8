import StackFlow.Proofs.FlowGraph
import StackFlow.Proofs.Markers

/-!
# Transfers of control in the finished graph

The first instruction of a block after which control cannot go on decides where the block leads.
The graph has the edge for it, unless a marked instruction of the same block was carried out in its
place (`FlowGraph.Detours`): such an instruction replaces the edges of the block also when control
never comes to it.
-/

namespace StackFlow

theorem Draft.nodeAt?_eq_some_iff {draft : Draft} {address index : Nat}
    (ascending : draft.blocks.Pairwise fun first second => first.start < second.start)
    (below : ∀ block ∈ draft.blocks, block.start < draft.endAddress) :
    draft.nodeAt? address = some index ↔
      address = draft.endAddress ∧ index = exitIndex ∨
        ∃ number block, draft.blocks[number]? = some block ∧ block.start = address ∧
          index = blockIndex number := by
  refine ⟨nodeAt?_eq_some, ?_⟩
  rintro (⟨rfl, rfl⟩ | ⟨number, block, found, rfl, rfl⟩)
  · simp [nodeAt?]
  · have inner : block.start ≠ draft.endAddress :=
      Nat.ne_of_lt (below block (List.mem_of_getElem? found))
    rw [nodeAt?, if_neg inner, (Block.startingAt?_eq_some_iff ascending).2 ⟨block, found, rfl⟩,
      Option.map_some]

namespace FlowGraph

variable {scope : Scope} {options : Options} {flow : FlowGraph} {wired resolved : Draft}
  {number address : Nat} {node : Fin flow.size} {block original : Block}

/-! ## Nodes at addresses -/

/-- Control reaches the node at the address: the exit at the end of the scope, or the node of the
block that starts there. -/
def At (flow : FlowGraph) (scope : Scope) (address : Nat) (node : Fin flow.size) : Prop :=
  address = scope.endAddress ∧ node = flow.exit ∨
    ∃ number block, flow.blocks[number]? = some block ∧ block.start = address ∧
      flow.nodeOf? number = some node

def Lands (flow : FlowGraph) (scope : Scope) (address : Nat) : Prop :=
  address = scope.endAddress ∨ ∃ block ∈ flow.blocks, block.start = address

def LeadsTo (flow : FlowGraph) (scope : Scope) (node : Fin flow.size) (address : Nat) : Prop :=
  ∃ target, flow.At scope address target ∧ target ∈ flow.graph.succ node

theorem At.lands (reached : flow.At scope address node) : flow.Lands scope address := by
  rcases reached with ⟨hend, -⟩ | ⟨number, block, found, start, -⟩
  · exact .inl hend
  · exact .inr ⟨block, List.mem_of_getElem? found, start⟩

namespace Stages

variable (stages : Stages scope options flow wired resolved)

include stages

theorem nodeAt?_eq_some_iff {index : Nat} :
    resolved.nodeAt? address = some index ↔
      address = scope.endAddress ∧ index = Draft.exitIndex ∨
        ∃ number block, flow.blocks[number]? = some block ∧ block.start = address ∧
          index = Draft.blockIndex number := by
  have ascending : (flow.blocks.map Block.bare).Pairwise
      fun first second => first.start < second.start := by
    rw [stages.bare_eq, List.pairwise_map]
    exact Scope.pairwise_start scope
  rw [← stages.endAddress_eq, stages.blocks]
  refine Draft.nodeAt?_eq_some_iff ?_ fun block member => ?_
  · rw [stages.blocks, List.pairwise_map] at ascending
    exact ascending
  · obtain ⟨number, found⟩ := List.mem_iff_getElem?.1 (stages.blocks ▸ member)
    obtain ⟨original, horiginal, heq⟩ := stages.getElem?_scope_blocks found
    have below := Scope.start_lt_endAddress (List.mem_of_getElem? horiginal)
    rw [stages.endAddress_eq, heq]
    exact below

theorem nodeAt?_wired (address : Nat) : wired.nodeAt? address = resolved.nodeAt? address :=
  (stages.touches.nodeAt?_eq address).symm

theorem at_iff :
    flow.At scope address node ↔
      resolved.nodeAt? address = some (flow.frozen.indices.get node) := by
  rw [stages.nodeAt?_eq_some_iff, stages.index_exit_iff]
  simp only [← stages.index_eq_iff]
  rfl

theorem lands_iff :
    flow.Lands scope address ↔ ∃ target, resolved.nodeAt? address = some target := by
  simp only [stages.nodeAt?_eq_some_iff]
  constructor
  · rintro (hend | ⟨block, member, start⟩)
    · exact ⟨_, .inl ⟨hend, rfl⟩⟩
    · obtain ⟨number, found⟩ := List.mem_iff_getElem?.1 member
      exact ⟨_, .inr ⟨number, block, found, start, rfl⟩⟩
  · rintro ⟨_, ⟨hend, -⟩ | ⟨number, block, found, start, -⟩⟩
    · exact .inl hend
    · exact .inr ⟨block, List.mem_of_getElem? found, start⟩

theorem exists_succ {source : Fin flow.size} {index : Nat}
    (joins : resolved.graph.Joins (flow.frozen.indices.get source) index) :
    ∃ target, flow.frozen.indices.get target = index ∧ target ∈ flow.graph.succ source := by
  obtain ⟨target, rfl⟩ := Sketch.exists_node_of_joins stages.freeze
    ((stages.sameOut_lastDraft source).joins_iff.2 joins)
  exact ⟨target, rfl, stages.mem_succ_iff.2 joins⟩

end Stages

/-! ## The turn of a block -/

def draftBefore (scope : Scope) (options : Options) (number : Nat) : Except Fault Draft := do
  let wired ← (Draft.ofBlocks scope.endAddress scope.blocks).wire
  (List.range number).foldlM (Draft.finalizeBlock options) wired.reclassify

structure Turn (scope : Scope) (options : Options) (wired resolved : Draft) (number : Nat)
    (original : Block) (draft : Draft) : Prop where
  before : draftBefore scope options number = .ok draft
  nodeAt?_eq : ∀ address, draft.nodeAt? address = resolved.nodeAt? address
  same : Sketch.SameOut (Draft.blockIndex number) draft.graph wired.graph
  outcome : Draft.Outcome number original draft resolved

theorem range_split {bound : Nat} (lt : number < bound) :
    ∃ later, List.range bound = List.range number ++ number :: later ∧ number ∉ later := by
  obtain ⟨count, rfl⟩ : ∃ count, bound = number + (count + 1) := ⟨bound - number - 1, by omega⟩
  refine ⟨List.range' (number + 1) count, ?_, by rw [List.mem_range'_1]; omega⟩
  rw [List.range_eq_range', List.range_eq_range', ← List.range'_append_1, Nat.zero_add,
    List.range'_succ]

theorem Stages.exists_turn (stages : Stages scope options flow wired resolved)
    (found : scope.blocks[number]? = some original) :
    ∃ draft, Turn scope options wired resolved number original draft := by
  have hwired : wired.blocks[number]? = some original := stages.blocks_wired ▸ found
  obtain ⟨bound, -⟩ := List.getElem?_eq_some_iff.1 hwired
  obtain ⟨later, split, absent⟩ := range_split bound
  have folded := stages.finalize
  rw [split, List.foldlM_append] at folded
  obtain ⟨draft, first, folded⟩ := bind_eq_ok_iff.1 folded
  rw [List.foldlM_cons] at folded
  obtain ⟨next, turn, last⟩ := bind_eq_ok_iff.1 folded
  have before := Draft.touches_foldlM_finalizeBlock first
  have after := Draft.touches_foldlM_finalizeBlock last
  have touches := Draft.touches_finalizeBlock turn
  have untouched : number ∉ List.range number := by simp
  refine ⟨draft, bind_eq_ok_iff.2 ⟨wired, stages.wire, first⟩, fun address => ?_, ?_, ?_⟩
  · rw [after.nodeAt?_eq, touches.nodeAt?_eq]
  · refine (before.sameOut untouched).trans fun edge _ => ?_
    rw [Draft.edges_reclassify]
  · have found : draft.blocks[number]? = some original :=
      (before.block number untouched).trans hwired
    exact (Draft.finalizeBlock_outcome turn found).congr (after.block number absent)
      (after.sameOut absent) after.nodeAt?_eq

/-! ## Detours -/

/-- The marked instructions of a block that were carried out send it to the target.  A return or
raise sends it to the exit.  Without one, a break or continue of the given kinds whose marker has
gone sends it to the address that the block was given instead. -/
inductive Detours (flow : FlowGraph) (scope : Scope) (block : Block) (exits : List LoopExit)
    (target : Fin flow.size) : Prop where
  | leaves (instr : Instruction) (member : instr ∈ block.instructions)
      (transfer : instr.op.transfer = .returns ∨ instr.op.transfer = .raises)
      (exits_at : target = flow.exit)
  | resolved
      (stays : ∀ instr ∈ block.instructions,
        instr.op.transfer ≠ .returns ∧ instr.op.transfer ≠ .raises)
      (exit : LoopExit) (listed : exit ∈ exits)
      (instr : Instruction) (member : instr ∈ block.instructions)
      (transfer : instr.op.transfer = Block.markerTransfer exit.marker)
      (gone : block.hasMarker exit.marker = false)
      (destination : Nat) (jump : ⟨.address destination, .always⟩ ∈ block.jumps)
      (reached : flow.At scope destination target)

structure Placed (scope : Scope) (flow : FlowGraph) (number : Nat) (block original : Block)
    (node : Fin flow.size) : Prop where
  found : flow.blocks[number]? = some block
  source : scope.blocks[number]? = some original
  same : block = { original with jumps := block.jumps }
  index : flow.frozen.indices.get node = Draft.blockIndex number

theorem Stages.exists_placed (stages : Stages scope options flow wired resolved)
    (found : flow.blocks[number]? = some block) (hnode : flow.nodeOf? number = some node) :
    ∃ original, Placed scope flow number block original node := by
  obtain ⟨original, source, same⟩ := stages.getElem?_scope_blocks found
  exact ⟨original, found, source, same, stages.index_eq_iff.1 hnode⟩

variable {draft : Draft} {exits : List LoopExit} {target : Fin flow.size}

namespace Placed

variable (placed : Placed scope flow number block original node)

include placed

theorem instructions_eq : block.instructions = original.instructions := by
  rw [placed.same]

theorem exists_spans : ∃ start stop, scope.Spans start stop original := by
  obtain ⟨start, stop, -, -, spans⟩ := Scope.getElem?_blocks placed.source
  exact ⟨start, stop, spans⟩

theorem hasMarker_iff {marker : Marker} :
    original.hasMarker marker = true ↔
      ∃ instr ∈ block.instructions, instr.op.transfer = Block.markerTransfer marker := by
  obtain ⟨_, _, spans⟩ := placed.exists_spans
  rw [spans.hasMarker_iff, placed.instructions_eq]

theorem stays_iff :
    original.hasMarker .returns = false ∧ original.hasMarker .raises = false ↔
      ∀ instr ∈ block.instructions,
        instr.op.transfer ≠ .returns ∧ instr.op.transfer ≠ .raises := by
  simp only [Bool.eq_false_iff, ne_eq, placed.hasMarker_iff, not_exists, not_and]
  exact ⟨fun both instr member => ⟨both.1 instr member, both.2 instr member⟩,
    fun all => ⟨fun instr member => (all instr member).1, fun instr member => (all instr member).2⟩⟩

theorem detours_of_leaves
    (marked : original.hasMarker .returns = true ∨ original.hasMarker .raises = true) :
    ∃ target, flow.Detours scope block exits target := by
  rcases marked with returns | raises
  · obtain ⟨instr, member, transfer⟩ := placed.hasMarker_iff.1 returns
    exact ⟨flow.exit, .leaves instr member (.inl transfer) rfl⟩
  · obtain ⟨instr, member, transfer⟩ := placed.hasMarker_iff.1 raises
    exact ⟨flow.exit, .leaves instr member (.inr transfer) rfl⟩

variable (stages : Stages scope options flow wired resolved)

include stages

theorem mem_succ_iff_eq {index : Nat} {kind : BranchKind}
    (leads : resolved.graph.OnlyEdge ⟨Draft.blockIndex number, index, kind⟩)
    (htarget : flow.frozen.indices.get target = index) (other : Fin flow.size) :
    other ∈ flow.graph.succ node ↔ other = target := by
  rw [stages.mem_succ_iff, placed.index, leads.joins_iff, ← htarget, ← stages.index_eq_iff,
    stages.index_eq_iff.2 rfl, Option.some.injEq, eq_comm]

theorem of_resolved {exit : LoopExit} {destination : Nat}
    (done : resolved.Resolved number exit destination) :
    ∃ target, flow.At scope destination target ∧
      ∀ other, other ∈ flow.graph.succ node ↔ other = target := by
  obtain ⟨index, hindex, leads⟩ := done.leads
  obtain ⟨target, rfl, -⟩ := stages.exists_succ (placed.index ▸ leads.joins_iff.2 rfl)
  exact ⟨target, stages.at_iff.2 hindex, placed.mem_succ_iff_eq stages leads rfl⟩

theorem getElem?_resolved : resolved.blocks[number]? = some block :=
  stages.blocks ▸ placed.found

theorem detours_of_resolved {exit : LoopExit} {destination : Nat}
    (done : resolved.Resolved number exit destination)
    (stays : original.hasMarker .returns = false ∧ original.hasMarker .raises = false)
    (listed : exit ∈ exits) (marked : original.hasMarker exit.marker = true) :
    ∃ target, flow.Detours scope block exits target := by
  obtain ⟨target, reached, -⟩ := placed.of_resolved stages done
  obtain ⟨instr, member, transfer⟩ := placed.hasMarker_iff.1 marked
  have found := placed.getElem?_resolved stages
  exact ⟨target, .resolved (placed.stays_iff.1 stays) exit listed instr member transfer
    (done.gone block found) destination (done.jump block found) reached⟩

theorem exists_succ_of_jump
    (kept : Sketch.SameOut (Draft.blockIndex number) resolved.graph wired.graph)
    {kind : BranchKind} {index : Nat} (jump : ⟨.address address, kind⟩ ∈ original.jumps)
    (hindex : resolved.nodeAt? address = some index) :
    ∃ target, flow.frozen.indices.get target = index ∧ target ∈ flow.graph.succ node := by
  have joins := (Draft.joins_wire_iff stages.wire (stages.blocks_wired ▸ placed.source)).2
    (.inr ⟨address, kind, jump, (stages.nodeAt?_wired address).trans hindex⟩)
  exact stages.exists_succ (placed.index ▸ kept.joins_iff.2 joins)

theorem leadsTo_of_jump
    (kept : Sketch.SameOut (Draft.blockIndex number) resolved.graph wired.graph)
    {kind : BranchKind} (jump : ⟨.address address, kind⟩ ∈ original.jumps)
    (lands : flow.Lands scope address) : flow.LeadsTo scope node address := by
  obtain ⟨index, hindex⟩ := stages.lands_iff.1 lands
  obtain ⟨target, rfl, edge⟩ := placed.exists_succ_of_jump stages kept jump hindex
  exact ⟨target, stages.at_iff.2 hindex, edge⟩

variable (turn : Turn scope options wired resolved number original draft)

include turn

theorem mem_succ_iff_exit (marked : original.hasMarker .returns = true ∨
      original.hasMarker .raises = true) (other : Fin flow.size) :
    other ∈ flow.graph.succ node ↔ other = flow.exit := by
  have marks : ¬ (original.hasMarker .returns = false ∧ original.hasMarker .raises = false) := by
    rintro ⟨returns, raises⟩
    simp [returns, raises] at marked
  cases turn.outcome with
  | leaves _ leads _ =>
      exact placed.mem_succ_iff_eq stages leads (stages.index_eq_iff.1 stages.exit) other
  | continues _ stays _ _ => exact absurd stays marks
  | breaks _ _ stays _ _ _ => exact absurd stays marks
  | unchanged stays _ _ _ => exact absurd stays marks

theorem mem_succ_iff_of_detours (detours : flow.Detours scope block exits target)
    (other : Fin flow.size) : other ∈ flow.graph.succ node ↔ other = target := by
  cases detours with
  | leaves instr member transfer exits_at =>
      rw [exits_at]
      refine placed.mem_succ_iff_exit stages turn ?_ other
      rcases transfer with returns | raises
      · exact .inl (placed.hasMarker_iff.2 ⟨instr, member, returns⟩)
      · exact .inr (placed.hasMarker_iff.2 ⟨instr, member, raises⟩)
  | resolved stays exit listed instr member transfer gone destination jump reached =>
      -- the address of the detour is the only one that the block has left
      have only : ∀ {exit last}, resolved.Resolved number exit last →
          (other ∈ flow.graph.succ node ↔ other = target) := by
        intro exit last done
        have same := done.only block (placed.getElem?_resolved stages) _ jump destination rfl
        obtain ⟨rfl⟩ := Target.address.inj (congrArg Jump.target same)
        obtain ⟨found, hfound, succ⟩ := placed.of_resolved stages done
        have index := (stages.at_iff.1 hfound).symm.trans (stages.at_iff.1 reached)
        have here := stages.index_eq_iff.2 (Option.some.inj index).symm
        have heq : found = target := Option.some.inj ((stages.index_eq_iff.2 rfl).symm.trans here)
        rw [succ, heq]
      cases turn.outcome with
      | leaves marked _ _ =>
          obtain ⟨returns, raises⟩ := placed.stays_iff.2 stays
          simp [returns, raises] at marked
      | continues _ _ _ done => exact only done
      | breaks _ _ _ _ _ done => exact only done
      | unchanged _ _ kept _ =>
          have heq := Option.some.inj ((placed.getElem?_resolved stages).symm.trans kept)
          have marked := placed.hasMarker_iff.2 ⟨instr, member, transfer⟩
          rw [← heq, gone] at marked
          cases marked

theorem detours_or_wired :
    (∃ target, flow.Detours scope block [.breaks, .continues] target) ∨
      Sketch.SameOut (Draft.blockIndex number) resolved.graph wired.graph := by
  cases turn.outcome with
  | leaves marked _ _ => exact .inl (placed.detours_of_leaves marked)
  | continues _ stays marked done =>
      exact .inl (placed.detours_of_resolved stages done stays (by simp) marked)
  | breaks _ _ stays marked _ done =>
      exact .inl (placed.detours_of_resolved stages done stays (by simp) marked)
  | unchanged _ _ _ same => exact .inr (same.trans turn.same)

theorem detours_or_break {destination index : Nat} (marked : original.hasMarker .breaks = true)
    (resolution : draft.resolution? .breaks number original = .ok (some (destination, index))) :
    (∃ target, flow.Detours scope block [.continues] target) ∨
      flow.LeadsTo scope node destination := by
  cases turn.outcome with
  | leaves marked _ _ => exact .inl (placed.detours_of_leaves marked)
  | continues _ stays marked done =>
      exact .inl (placed.detours_of_resolved stages done stays (by simp) marked)
  | breaks _ _ _ _ same done =>
      rw [resolution] at same
      obtain ⟨rfl, -⟩ := Prod.mk.inj (Option.some.inj (Except.ok.inj same))
      obtain ⟨target, reached, succ⟩ := placed.of_resolved stages done
      exact .inr ⟨target, reached, (succ target).2 rfl⟩
  | unchanged _ unresolved _ _ =>
      rw [unresolved marked] at resolution
      cases resolution

theorem leadsTo_iff (either : (∃ target, flow.Detours scope block exits target) ∨
      flow.LeadsTo scope node address) :
    flow.LeadsTo scope node address ↔
      ∀ other, flow.Detours scope block exits other → flow.At scope address other := by
  constructor
  · rintro ⟨target, reached, edge⟩ other detours
    rwa [← (placed.mem_succ_iff_of_detours stages turn detours target).1 edge]
  · intro all
    rcases either with ⟨target, detours⟩ | edge
    · have succ := placed.mem_succ_iff_of_detours stages turn detours target
      exact ⟨target, all target detours, succ.2 rfl⟩
    · exact edge

end Placed

/-! ## Transfers -/

theorem markerAddress_breaks {instr : Instruction}
    (first : block.instructions.find? Instruction.stops = some instr)
    (breaks : instr.op.transfer = .breaks) :
    block.markerAddress .breaks = some instr.address := by
  obtain ⟨-, before, after, split, earlier⟩ := List.find?_eq_some_iff_append.1 first
  have found : block.instructions.find?
      (fun instr => instr.op.transfer = Block.markerTransfer .breaks) = some instr := by
    refine List.find?_eq_some_iff_append.2 ⟨decide_eq_true breaks, before, after, split, ?_⟩
    intro other member
    have goesOn := earlier other member
    rw [Bool.not_eq_true'] at goesOn ⊢
    refine decide_eq_false fun heq => ?_
    have heq : other.op.transfer = .breaks := heq
    simp [Instruction.stops, heq] at goesOn
  rw [Block.markerAddress, found, Option.map_some]

namespace Placed

variable (placed : Placed scope flow number block original node)
  (turn : Turn scope options wired resolved number original draft)

include placed turn

theorem kept_of_goesOn (goesOn : ∀ instr ∈ block.instructions, instr.stops = false) :
    Sketch.SameOut (Draft.blockIndex number) resolved.graph wired.graph := by
  have unmarked : ∀ marker, ¬ original.hasMarker marker = true := by
    intro marker marked
    obtain ⟨instr, member, transfer⟩ := placed.hasMarker_iff.1 marked
    have stops := goesOn instr member
    cases marker <;> simp [Instruction.stops, transfer, Block.markerTransfer] at stops
  cases turn.outcome with
  | leaves marked _ _ => exact absurd marked (by simp [unmarked])
  | continues _ _ marked _ => exact absurd marked (unmarked _)
  | breaks _ _ _ marked _ _ => exact absurd marked (unmarked _)
  | unchanged _ _ _ same => exact same.trans turn.same

variable (stages : Stages scope options flow wired resolved)

include stages

theorem exists_next (goesOn : ∀ instr ∈ block.instructions, instr.stops = false)
    (inner : number + 1 < flow.blocks.length) :
    ∃ next, flow.nodeOf? (number + 1) = some next ∧ next ∈ flow.graph.succ node := by
  have hnext := List.getElem?_eq_getElem inner
  obtain ⟨following, hfollowing, same⟩ := stages.getElem?_scope_blocks hnext
  obtain ⟨start, stop, spans⟩ := placed.exists_spans
  have adjacent : following.start = stop :=
    (Scope.start_next placed.source hfollowing).trans spans.endAddress_eq
  have hstart : flow.blocks[number + 1].start = stop := by
    rw [same]
    exact adjacent
  have before : stop ≠ scope.endAddress := by
    have lt := Scope.start_lt_endAddress (List.mem_of_getElem? hfollowing)
    omega
  obtain ⟨kind, jump⟩ := spans.fallThrough_mem (placed.instructions_eq ▸ goesOn) before
  obtain ⟨next, index, edge⟩ := placed.exists_succ_of_jump stages
    (placed.kept_of_goesOn turn goesOn) jump
    (stages.nodeAt?_eq_some_iff.2 (.inr ⟨number + 1, _, hnext, hstart, rfl⟩))
  exact ⟨next, stages.index_eq_iff.2 index, edge⟩

theorem leadsTo_of_goesOn (goesOn : ∀ instr ∈ block.instructions, instr.stops = false)
    {code : Decoded} (hcode : code ∈ scope.decoded) (member : code.instr ∈ block.instructions)
    (hdestination : code.destination = some address) (lands : flow.Lands scope address) :
    flow.LeadsTo scope node address := by
  obtain ⟨start, stop, spans⟩ := placed.exists_spans
  obtain ⟨kind, branch⟩ := Option.isSome_iff_exists.1 (Decoded.branch?_isSome
    (Scope.addressing_isSome_of_destination hcode hdestination) (goesOn _ member))
  have jump := spans.jump_mem hcode (placed.instructions_eq ▸ member)
    (Decoded.jump?_of_branch branch hdestination)
  exact placed.leadsTo_of_jump stages (placed.kept_of_goesOn turn goesOn) jump lands

theorem leadsTo_jump_iff {code : Decoded} (jumps : code.instr.op.transfer = .jump)
    (hcode : code ∈ scope.decoded) (member : code.instr ∈ block.instructions)
    (hdestination : code.destination = some address) (lands : flow.Lands scope address) :
    flow.LeadsTo scope node address ↔
      ∀ other, flow.Detours scope block [.breaks, .continues] other →
        flow.At scope address other := by
  refine placed.leadsTo_iff stages turn ((placed.detours_or_wired stages turn).imp_right ?_)
  intro kept
  obtain ⟨start, stop, spans⟩ := placed.exists_spans
  have branch : code.branch? = some .always := by simp [Decoded.branch?, jumps]
  have jump := spans.jump_mem hcode (placed.instructions_eq ▸ member)
    (Decoded.jump?_of_branch branch hdestination)
  exact placed.leadsTo_of_jump stages kept jump lands

theorem leadsTo_break_iff {instr : Instruction} {loop : Nat} {setup : Block}
    (first : block.instructions.find? Instruction.stops = some instr)
    (breaks : instr.op.transfer = .breaks)
    (encloses : Draft.enclosingLoop? draft.graph draft.blocks (Draft.blockIndex number)
      instr.address = .ok (some (loop, setup)))
    (hstop : setup.endTarget = some address) (lands : flow.Lands scope address) :
    flow.LeadsTo scope node address ↔
      ∀ other, flow.Detours scope block [.continues] other → flow.At scope address other := by
  obtain ⟨index, hindex⟩ := stages.lands_iff.1 lands
  have haddress : original.markerAddress .breaks = some instr.address :=
    markerAddress_breaks (placed.instructions_eq ▸ first) breaks
  have resolution : draft.resolution? .breaks number original = .ok (some (address, index)) := by
    unfold Draft.resolution?
    simp only [LoopExit.marker, haddress, Option.getD_some, encloses]
    simp [Draft.destination?, hstop, turn.nodeAt?_eq, hindex]
  have marked : original.hasMarker .breaks = true :=
    placed.hasMarker_iff.2 ⟨instr, List.mem_of_find?_eq_some first, breaks⟩
  exact placed.leadsTo_iff stages turn (placed.detours_or_break stages turn marked resolution)

end Placed

/-- Every transfer of control out of a block is an edge of the graph, but for the detours.  Where
control first cannot go on, a return or raise leads to the exit, and a jump, or a break that is
resolved, leads to the node at its destination exactly if all detours lead there.  Where control
always goes on, the block leads to the next one and to the destination of its last instruction. -/
theorem mem_succ_of_transfer (built : build scope options = .ok flow)
    (found : flow.blocks[number]? = some block) (hnode : flow.nodeOf? number = some node) :
    (∀ instr, block.instructions.find? Instruction.stops = some instr →
      (instr.op.transfer = .returns ∨ instr.op.transfer = .raises →
        flow.exit ∈ flow.graph.succ node) ∧
      (instr.op.transfer = .jump → ∀ code ∈ scope.decoded, code.instr = instr →
        ∀ destination, code.destination = some destination → flow.Lands scope destination →
          (flow.LeadsTo scope node destination ↔
            ∀ other, flow.Detours scope block [.breaks, .continues] other →
              flow.At scope destination other)) ∧
      (instr.op.transfer = .breaks → ∀ draft loop setup destination,
        draftBefore scope options number = .ok draft →
        Draft.enclosingLoop? draft.graph draft.blocks (Draft.blockIndex number) instr.address =
          .ok (some (loop, setup)) →
        setup.endTarget = some destination → flow.Lands scope destination →
          (flow.LeadsTo scope node destination ↔
            ∀ other, flow.Detours scope block [.continues] other →
              flow.At scope destination other))) ∧
    (block.instructions.find? Instruction.stops = none →
      (number + 1 < flow.blocks.length →
        ∃ next, flow.nodeOf? (number + 1) = some next ∧ next ∈ flow.graph.succ node) ∧
      ∀ last, block.instructions.getLast? = some last →
        ∀ code ∈ scope.decoded, code.instr = last →
          ∀ destination, code.destination = some destination → flow.Lands scope destination →
            flow.LeadsTo scope node destination) := by
  obtain ⟨wired, resolved, stages⟩ := build_eq_ok built
  obtain ⟨original, placed⟩ := stages.exists_placed found hnode
  obtain ⟨draft, turn⟩ := stages.exists_turn placed.source
  refine ⟨fun instr first => ?_, fun none => ?_⟩
  · have member := List.mem_of_find?_eq_some first
    refine ⟨fun leaves => ?_, ?_, ?_⟩
    · have marked : original.hasMarker .returns = true ∨ original.hasMarker .raises = true :=
        leaves.imp (fun returns => placed.hasMarker_iff.2 ⟨instr, member, returns⟩)
          fun raises => placed.hasMarker_iff.2 ⟨instr, member, raises⟩
      exact (placed.mem_succ_iff_exit stages turn marked flow.exit).2 rfl
    · rintro jumps code hcode rfl destination hdestination lands
      exact placed.leadsTo_jump_iff turn stages jumps hcode member hdestination lands
    · intro breaks current loop setup destination before encloses hstop lands
      obtain rfl := Except.ok.inj (turn.before.symm.trans before)
      exact placed.leadsTo_break_iff turn stages first breaks encloses hstop lands
  · have goesOn : ∀ instr ∈ block.instructions, instr.stops = false := by
      simpa using List.find?_eq_none.1 none
    refine ⟨placed.exists_next turn stages goesOn, ?_⟩
    rintro last hlast code hcode rfl destination hdestination lands
    exact placed.leadsTo_of_goesOn turn stages goesOn hcode (List.mem_of_getLast? hlast)
      hdestination lands

/-! ## A transfer that is lost -/

def outlook? (scope : Scope) (number other : Nat) : Option (List Instruction × Nat × Bool) :=
  match build scope {} with
  | .error _ => none
  | .ok flow => do
      let block ← flow.blocks[number]?
      let following ← flow.blocks[other]?
      let node ← flow.nodeOf? number
      let target ← flow.nodeOf? other
      return (block.instructions, following.start, (flow.graph.succ node).contains target)

theorem outlook?_eq_some {other start : Nat} {code : List Instruction} {edge : Bool}
    (found : outlook? scope number other = some (code, start, edge)) :
    ∃ flow node target block, build scope {} = .ok flow ∧ flow.blocks[number]? = some block ∧
      flow.nodeOf? number = some node ∧ block.instructions = code ∧ flow.At scope start target ∧
      (target ∈ flow.graph.succ node ↔ edge = true) := by
  unfold outlook? at found
  split at found
  · cases found
  · next flow built =>
      simp only [Option.bind_eq_bind, Option.bind_eq_some_iff, Option.pure_def,
        Option.some.injEq, Prod.mk.injEq] at found
      obtain ⟨block, hblock, following, hfollowing, node, hnode, target, htarget, hcode, hstart,
        hedge⟩ := found
      refine ⟨flow, node, target, block, built, hblock, hnode, hcode,
        .inr ⟨other, following, hfollowing, hstart, htarget⟩, ?_⟩
      rw [← hedge, List.contains_iff_mem]

def jumpOver (op : Opcode) : Scope :=
  { instructions := [
      ⟨0, .jumpAbsolute, .arg 4, 0, 0, false⟩,
      ⟨3, op, .none, 0, 0, false⟩,
      ⟨4, .nop, .none, 0, 0, false⟩,
      ⟨5, .loadName, .name "x", 0, 0, false⟩,
      ⟨8, .popTop, .none, 0, 0, false⟩]
    sorted := by simp }

/-- Control never comes to the return in the block of the jump, and yet the block leads to the exit
and no longer to the destination of the jump. -/
theorem jumpOver_return_loses_edge :
    ((jumpOver .returnValue).instructions.map Instruction.address).Nodup ∧
    (jumpOver .returnValue).instructions.head?.map Instruction.address =
      some (jumpOver .returnValue).entry ∧
    ∃ flow node target block, build (jumpOver .returnValue) {} = .ok flow ∧
      flow.blocks[0]? = some block ∧ flow.nodeOf? 0 = some node ∧
      block.instructions.find? Instruction.stops = some ⟨0, .jumpAbsolute, .arg 4, 0, 0, false⟩ ∧
      ⟨⟨0, .jumpAbsolute, .arg 4, 0, 0, false⟩, some 4⟩ ∈ (jumpOver .returnValue).decoded ∧
      flow.At (jumpOver .returnValue) 4 target ∧ target ∉ flow.graph.succ node := by
  have run : outlook? (jumpOver .returnValue) 0 1 =
      some ((jumpOver .returnValue).instructions.take 2, 4, false) := by decide +kernel
  obtain ⟨flow, node, target, block, built, hblock, hnode, hcode, reached, edge⟩ :=
    outlook?_eq_some run
  refine ⟨by decide, rfl, flow, node, target, block, built, hblock, hnode, ?_, by decide, reached,
    ?_⟩
  · rw [hcode]
    decide
  · simp [edge]

theorem jumpOver_nop_keeps_edge :
    ∃ flow node block, build (jumpOver .nop) {} = .ok flow ∧ flow.blocks[0]? = some block ∧
      flow.nodeOf? 0 = some node ∧ flow.LeadsTo (jumpOver .nop) node 4 := by
  have run : outlook? (jumpOver .nop) 0 1 =
      some ((jumpOver .nop).instructions.take 2, 4, true) := by decide +kernel
  obtain ⟨flow, node, target, block, built, hblock, hnode, hcode, reached, -⟩ :=
    outlook?_eq_some run
  refine ⟨flow, node, block, built, hblock, hnode, ?_⟩
  have first : block.instructions.find? Instruction.stops =
      some ⟨0, .jumpAbsolute, .arg 4, 0, 0, false⟩ := by
    rw [hcode]
    decide
  have iff := ((mem_succ_of_transfer built hblock hnode).1 _ first).2.1 rfl
    ⟨⟨0, .jumpAbsolute, .arg 4, 0, 0, false⟩, some 4⟩ (by decide) rfl 4 rfl reached.lands
  refine iff.2 fun other detours => ?_
  have unmarked : ∀ marker, ∀ instr ∈ block.instructions,
      instr.op.transfer ≠ Block.markerTransfer marker := by
    rw [hcode]
    intro marker
    cases marker <;> decide
  cases detours with
  | leaves instr member transfer =>
      rcases transfer with returns | raises
      · exact absurd returns (unmarked .returns instr member)
      · exact absurd raises (unmarked .raises instr member)
  | resolved _ exit _ instr member transfer =>
      exact absurd transfer (unmarked exit.marker instr member)

end FlowGraph

end StackFlow
