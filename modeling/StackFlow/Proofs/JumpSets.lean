import StackFlow.Proofs.Transfers

/-!
# Edges and jump sets

A block keeps its jumps in a set, and the graph keeps them a second time as edges.  Wiring and every
marker that is carried out change both, and in the finished graph they agree (`Draft.Matches`): a
block leads to the nodes at the addresses in its set, and to the exit for a marker that leaves the
scope or where control falls off its end.
-/

namespace StackFlow

namespace Block

variable {block : Block}

/-- No transfer of the block was carried out: it neither returns nor raises, and the breaks and
continues in it still have their markers. -/
structure Pending (block : Block) : Prop where
  returns : block.hasMarker .returns = false
  raises : block.hasMarker .raises = false
  loops : ∀ exit : LoopExit, ∀ instr ∈ block.instructions,
    instr.op.transfer = markerTransfer exit.marker → block.hasMarker exit.marker = true

/-- The label of an edge to the exit, where the jumps of the block do not decide it. -/
def exitKind? (block : Block) (last : Bool) : Option BranchKind :=
  if block.hasMarker .raises then some .onException
  else if block.hasMarker .returns then some .onReturn
  else if last then some .always
  else none

theorem exitKind?_of_marked (last : Bool)
    (marked : block.hasMarker .returns = true ∨ block.hasMarker .raises = true) :
    block.exitKind? last = some block.leavingKind := by
  unfold exitKind? leavingKind
  split
  · rfl
  · next stays => rw [if_pos (marked.resolve_right stays)]

theorem exitKind?_of_stays {last : Bool} (returns : block.hasMarker .returns = false)
    (raises : block.hasMarker .raises = false) :
    block.exitKind? last = if last then some .always else none := by
  simp [exitKind?, returns, raises]

def LeastKind (block : Block) (address : Nat) (kind : BranchKind) : Prop :=
  ⟨.address address, kind⟩ ∈ block.jumps ∧
    ∀ other, ⟨.address address, other⟩ ∈ block.jumps → kind.rank ≤ other.rank

end Block

namespace Draft

variable {draft next : Draft} {number : Nat} {block : Block}

structure Matches (draft : Draft) (number : Nat) (block : Block) : Prop where
  joins : ∀ target, draft.graph.Joins (blockIndex number) target ↔
    (∃ address kind, ⟨.address address, kind⟩ ∈ block.jumps ∧
      draft.nodeAt? address = some target) ∨
    target = exitIndex ∧
      (block.hasMarker .returns = true ∨ block.hasMarker .raises = true ∨
        number + 1 = draft.blocks.length ∧ block.Pending)
  exitLabel : ∀ edge ∈ draft.graph.edges, edge.source = blockIndex number →
    edge.target = exitIndex → ∀ kind,
      block.exitKind? (number + 1 == draft.blocks.length) = some kind → edge.label = kind
  jumpLabel : ∀ edge ∈ draft.graph.edges, edge.source = blockIndex number →
    edge.target ≠ exitIndex ∨ block.exitKind? (number + 1 == draft.blocks.length) = none →
      ∃ address, draft.nodeAt? address = some edge.target ∧ block.LeastKind address edge.label

theorem Matches.congr (matched : draft.Matches number block)
    (same : Sketch.SameOut (blockIndex number) next.graph draft.graph)
    (hnode : ∀ address, next.nodeAt? address = draft.nodeAt? address)
    (length : next.blocks.length = draft.blocks.length) : next.Matches number block := by
  refine ⟨fun target => ?_, fun edge member leaves => ?_, fun edge member leaves => ?_⟩
  · rw [same.joins_iff, matched.joins]
    simp only [hnode, length]
  · rw [length]
    exact matched.exitLabel edge ((same edge leaves).1 member) leaves
  · simp only [length, hnode]
    exact matched.jumpLabel edge ((same edge leaves).1 member) leaves

theorem matches_of_leaves
    (leads : draft.graph.OnlyEdge ⟨blockIndex number, exitIndex, block.leavingKind⟩)
    (markers : ∀ jump ∈ block.jumps, jump.target.isMarker = true)
    (marked : block.hasMarker .returns = true ∨ block.hasMarker .raises = true) :
    draft.Matches number block := by
  refine ⟨fun target => ?_, fun edge member leaves _ kind label => ?_,
    fun edge member leaves inner => ?_⟩
  · rw [leads.joins_iff]
    constructor
    · rintro rfl
      exact .inr ⟨rfl, marked.imp_right .inl⟩
    · rintro (⟨address, kind, member, -⟩ | ⟨heq, -⟩)
      · cases markers _ member
      · exact heq
  · rw [Block.exitKind?_of_marked _ marked] at label
    rw [(leads edge leaves).1 member, ← Option.some.inj label]
  · rw [(leads edge leaves).1 member, Block.exitKind?_of_marked _ marked] at inner
    simp at inner

theorem Resolved.matched {exit : LoopExit} {destination : Nat}
    (resolved : draft.Resolved number exit destination) (found : draft.blocks[number]? = some block)
    (returns : block.hasMarker .returns = false) (raises : block.hasMarker .raises = false)
    {instr : Instruction} (member : instr ∈ block.instructions)
    (transfer : instr.op.transfer = Block.markerTransfer exit.marker) :
    draft.Matches number block := by
  obtain ⟨index, hindex, leads⟩ := resolved.leads
  have only : ∀ {address kind}, ⟨.address address, kind⟩ ∈ block.jumps →
      address = destination ∧ kind = .always := by
    intro address kind jump
    simpa using resolved.only block found _ jump address rfl
  have carried : ¬ block.Pending := by
    intro pending
    have kept := pending.loops exit instr member transfer
    rw [resolved.gone block found] at kept
    cases kept
  refine ⟨fun target => ?_, fun edge member leaves _ kind label => ?_,
    fun edge member leaves _ => ?_⟩
  · rw [leads.joins_iff]
    constructor
    · rintro rfl
      exact .inl ⟨destination, .always, resolved.jump block found, hindex⟩
    · rintro (⟨address, kind, jump, hnode⟩ | ⟨-, leaves⟩)
      · rw [(only jump).1, hindex] at hnode
        exact (Option.some.inj hnode).symm
      · simp [returns, raises, carried] at leaves
  · rw [Block.exitKind?_of_stays returns raises] at label
    rw [(leads edge leaves).1 member]
    split at label
    · exact Option.some.inj label
    · cases label
  · rw [(leads edge leaves).1 member]
    exact ⟨destination, hindex, resolved.jump block found, fun _ _ => Nat.zero_le _⟩

theorem matches_wire {scopeEnd : Nat} {blocks : List Block}
    (wired : (ofBlocks scopeEnd blocks).wire = .ok next)
    (found : next.blocks[number]? = some block) (pending : block.Pending) :
    next.Matches number block := by
  have label : ∀ {last}, block.exitKind? last = if last then some .always else none :=
    Block.exitKind?_of_stays pending.returns pending.raises
  refine ⟨fun target => ?_, fun edge member leaves htarget kind hkind => ?_,
    fun edge member leaves inner => ?_⟩
  · rw [joins_wire_iff wired found, or_comm]
    simp [pending.returns, pending.raises, pending, and_comm]
  · obtain ⟨-, least⟩ := least_of_mem_edges_wire wired member
    rw [label] at hkind
    split at hkind
    · next last =>
        have outer := least ⟨blockIndex number, exitIndex, .always⟩
          ((mem_wiredEdges_iff_of_source rfl found).2 (.inl ⟨beq_iff_eq.1 last, rfl⟩))
          leaves htarget
        rw [← Option.some.inj hkind]
        exact BranchKind.eq_of_rank_eq (Nat.le_zero.1 outer)
    · cases hkind
  · obtain ⟨listed, least⟩ := least_of_mem_edges_wire wired member
    rcases (mem_wiredEdges_iff_of_source leaves found).1 listed with ⟨last, rfl⟩ | jump
    · simp [label, last] at inner
    · obtain ⟨address, jump, hnode, -⟩ := mem_jumpEdges_iff.1 jump
      refine ⟨address, hnode, jump, fun other hother => ?_⟩
      exact least ⟨blockIndex number, edge.target, other⟩
        ((mem_wiredEdges_iff_of_source rfl found).2
          (.inr (mem_jumpEdges_iff.2 ⟨address, hother, hnode, rfl⟩))) leaves rfl

end Draft

namespace FlowGraph

variable {scope : Scope} {options : Options} {flow : FlowGraph} {wired resolved draft : Draft}
  {number : Nat} {node : Fin flow.size} {block original : Block}

namespace Placed

variable (placed : Placed scope flow number block original node)
  (stages : Stages scope options flow wired resolved)

include placed stages

theorem hasMarker_eq (marker : Marker) (leaves : marker.leaves = true) :
    block.hasMarker marker = original.hasMarker marker := by
  have hwired : wired.reclassify.blocks[number]? = some original :=
    stages.blocks_wired ▸ placed.source
  have same := congrArg (·[number]?) (stages.touches.marker marker leaves)
  simpa only [List.getElem?_map, placed.getElem?_resolved stages, hwired, Option.map_some,
    Option.some.injEq] using same

theorem matched (turn : Turn scope options wired resolved number original draft) :
    resolved.Matches number block := by
  have found := placed.getElem?_resolved stages
  have returns := placed.hasMarker_eq stages .returns rfl
  have raises := placed.hasMarker_eq stages .raises rfl
  cases turn.outcome with
  | leaves marked leads markers =>
      have kind : block.leavingKind = original.leavingKind := by
        rw [Block.leavingKind, raises, Block.leavingKind]
      exact Draft.matches_of_leaves (kind ▸ leads) (markers block found) (by rwa [returns, raises])
  | continues destination stays marked done =>
      obtain ⟨instr, member, transfer⟩ := placed.hasMarker_iff.1 marked
      exact done.matched found (returns.trans stays.1) (raises.trans stays.2) member transfer
  | breaks destination target stays marked resolution done =>
      obtain ⟨instr, member, transfer⟩ := placed.hasMarker_iff.1 marked
      exact done.matched found (returns.trans stays.1) (raises.trans stays.2) member transfer
  | unchanged stays unresolved kept same =>
      obtain rfl := Option.some.inj (found.symm.trans kept)
      have pending : block.Pending :=
        ⟨stays.1, stays.2, fun exit instr member transfer =>
          placed.hasMarker_iff.2 ⟨instr, member, transfer⟩⟩
      have matched := Draft.matches_wire stages.wire (stages.blocks_wired ▸ placed.source) pending
      exact matched.congr (same.trans turn.same) stages.touches.nodeAt?_eq
        stages.touches.length_blocks

end Placed

/-- The successors of a block are the nodes at the addresses to which it jumps, and the exit if it
returns or raises or if control falls off the end of the scope.  The edge to the exit has the label
of the transfer that leaves the scope, and every other edge the least label of its jumps. -/
theorem succ_iff_jumps (built : build scope options = .ok flow)
    (found : flow.blocks[number]? = some block) (hnode : flow.nodeOf? number = some node) :
    (∀ target, target ∈ flow.graph.succ node ↔
      (∃ address kind, ⟨.address address, kind⟩ ∈ block.jumps ∧ flow.At scope address target) ∨
      target = flow.exit ∧
        (block.hasMarker .returns = true ∨ block.hasMarker .raises = true ∨
          number + 1 = flow.blocks.length ∧ block.Pending)) ∧
    (∀ address kind, ⟨.address address, kind⟩ ∈ block.jumps → flow.Lands scope address →
      ∃ target, flow.At scope address target) ∧
    ∀ edge ∈ flow.graph.edges, edge.source = node →
      (edge.target = flow.exit → ∀ kind,
        block.exitKind? (number + 1 == flow.blocks.length) = some kind → edge.label = kind) ∧
      (edge.target ≠ flow.exit ∨ block.exitKind? (number + 1 == flow.blocks.length) = none →
        ∃ address, flow.At scope address edge.target ∧ block.LeastKind address edge.label) := by
  obtain ⟨wired, resolved, stages⟩ := build_eq_ok built
  obtain ⟨original, placed⟩ := stages.exists_placed found hnode
  obtain ⟨draft, turn⟩ := stages.exists_turn placed.source
  have matched := placed.matched stages turn
  refine ⟨fun target => ?_, fun address kind jump lands => ?_, fun edge member source => ?_⟩
  · rw [stages.mem_succ_iff, placed.index, matched.joins, stages.index_exit_iff, stages.blocks]
    simp only [stages.at_iff]
  · obtain ⟨index, hindex⟩ := stages.lands_iff.1 lands
    have joins := (matched.joins index).2 (.inl ⟨address, kind, jump, hindex⟩)
    obtain ⟨target, rfl, -⟩ := stages.exists_succ (placed.index ▸ joins)
    exact ⟨target, stages.at_iff.2 hindex⟩
  · subst source
    have raw := stages.mem_edges_iff.1 member
    simp only [stages.blocks, stages.at_iff, ne_eq, ← stages.index_exit_iff]
    exact ⟨matched.exitLabel _ raw placed.index, matched.jumpLabel _ raw placed.index⟩

def idleSample : Scope :=
  { instructions := [
      ⟨0, .loadName, .name "c", 1, 0, false⟩,
      ⟨3, .popJumpIfFalse, .arg 6, 1, 0, false⟩,
      ⟨6, .loadName, .name "d", 2, 0, false⟩,
      ⟨9, .popJumpIfFalse, .arg 12, 2, 0, false⟩]
    sorted := by decide }

theorem idleSample_edge_least :
    ∃ flow node block, build idleSample {} = .ok flow ∧ flow.blocks[0]? = some block ∧
      flow.nodeOf? 0 = some node ∧
      block.jumps.toList = [⟨.address 6, .onTrue⟩, ⟨.address 6, .onFalse⟩] ∧
      (∃ target, flow.At idleSample 6 target ∧ target ∈ flow.graph.succ node) ∧
      ∀ edge ∈ flow.graph.edges, edge.source = node → edge.label = .onTrue := by
  have run : succeedsWith (fun flow => (flow.blocks.map fun block => block.jumps.toList) ==
        [[⟨.address 6, .onTrue⟩, ⟨.address 6, .onFalse⟩], [⟨.address 12, .onFalse⟩]] &&
      flow.blocks.map Block.start == [0, 6] && (flow.nodeOf? 0).isSome)
      (build idleSample {}) = true := by decide +kernel
  obtain ⟨flow, built, found⟩ := succeedsWith_iff.1 run
  simp only [Bool.and_eq_true, beq_iff_eq, Option.isSome_iff_exists] at found
  obtain ⟨⟨sets, starts⟩, node, hnode⟩ := found
  obtain ⟨block, rest, blocks, hjumps, -⟩ := List.map_eq_cons_iff.1 sets
  have hblock : flow.blocks[0]? = some block := by rw [blocks, List.getElem?_cons_zero]
  have length : flow.blocks.length = 2 := by simpa using congrArg List.length sets
  have jumps : ∀ {jump}, jump ∈ block.jumps ↔
      jump = ⟨.address 6, .onTrue⟩ ∨ jump = ⟨.address 6, .onFalse⟩ := by
    intro jump
    rw [← SortedSet.mem_toList, hjumps]
    simp
  have unmarked : ∀ marker, block.hasMarker marker = false := by
    intro marker
    simp [Block.hasMarker, hjumps]
  have lands : flow.Lands idleSample 6 := by
    have start : 6 ∈ flow.blocks.map Block.start := by simp [starts]
    exact .inr (List.mem_map.1 start)
  obtain ⟨succ, reaches, labels⟩ := succ_iff_jumps built hblock hnode
  obtain ⟨target, reached⟩ := reaches 6 .onTrue (jumps.2 (.inl rfl)) lands
  refine ⟨flow, node, block, built, hblock, hnode, hjumps,
    ⟨target, reached, (succ target).2 (.inl ⟨6, .onTrue, jumps.2 (.inl rfl), reached⟩)⟩,
    fun edge member source => ?_⟩
  obtain ⟨address, -, jump, least⟩ := (labels edge member source).2 (.inr (by
    rw [Block.exitKind?_of_stays (unmarked _) (unmarked _), length]
    rfl))
  rcases jumps.1 jump with heq | heq
  · exact congrArg Jump.kind heq
  · obtain ⟨rfl, label⟩ : address = 6 ∧ edge.label = .onFalse := by simpa using heq
    have le := least .onTrue (jumps.2 (.inl rfl))
    rw [label] at le
    exact absurd le (by decide)

end FlowGraph

end StackFlow
