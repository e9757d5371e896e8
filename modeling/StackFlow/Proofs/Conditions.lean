import StackFlow.Proofs.Leaders
import StackFlow.Proofs.Shape
import StackFlow.Proofs.Transfers

/-!
# Conditions

Nodes become conditions right after wiring, before any marker is taken.  A block has at most one
true and one false jump, since a test is its last instruction, and a block with both falls through
and so has no marker.  The edges of a condition therefore stay as they were wired, and no other node
gets a true or a false edge later.
-/

namespace StackFlow

def BranchKind.tests : BranchKind → Bool
  | onTrue | onFalse => true
  | always | onException | onFinally | onReturn => false

theorem Decoded.ends_block_of_tests {code : Decoded} {kind : BranchKind}
    (branch : code.branch? = some kind) (tests : kind.tests = true) :
    code.instr.op.addressing.isSome = true ∧ code.instr.op.neverFallsThrough = false ∧
      Block.fallThroughKind code.instr ≠ kind := by
  unfold branch? at branch
  unfold Block.fallThroughKind
  generalize code.instr.op = op at branch ⊢
  cases op <;> simp [Opcode.transfer] at branch <;> subst branch <;>
    simp_all [BranchKind.tests, Opcode.addressing, Opcode.neverFallsThrough, Opcode.transfer]

theorem Block.tests_leavingKind (block : Block) : block.leavingKind.tests = false := by
  unfold leavingKind
  split <;> rfl

theorem count_map_eq_one_iff {α κ : Type} [DecidableEq κ] {items : List α} {key : α → κ} {value : κ}
    (nodup : items.Nodup)
    (unique : ∀ first ∈ items, ∀ second ∈ items, key first = value → key second = value →
      first = second) :
    (items.map key).count value = 1 ↔ ∃ item ∈ items, key item = value := by
  constructor
  · intro once
    have member : value ∈ items.map key := List.count_pos_iff.1 (by omega)
    simpa using member
  · rintro ⟨item, member, found⟩
    have only : items.filter (fun other => key other == value) = [item] := by
      refine eq_singleton_of_nodup (nodup.filter _) fun other => ?_
      simp only [List.mem_filter, beq_iff_eq]
      constructor
      · rintro ⟨hother, same⟩
        exact unique other hother item member same found
      · rintro rfl
        exact ⟨member, found⟩
    rw [List.count_eq_countP, List.countP_map, List.countP_eq_length_filter]
    exact congrArg List.length only

/-! ## Jumps of a block -/

namespace Scope.Distinct

variable {scope : Scope} {number address other : Nat} {block : Block} {kind : BranchKind}
  (distinct : scope.Distinct) (found : scope.blocks[number]? = some block)

include distinct found

theorem exists_last :
    ∃ last : Decoded, ∀ address kind, kind.tests = true →
      ⟨.address address, kind⟩ ∈ block.jumps →
      last.branch? = some kind ∧ last.destination = some address ∨
        Block.fallThroughKind last.instr = kind ∧ address = block.endAddress ∧
          ∀ marker, block.hasMarker marker = false := by
  obtain ⟨start, stop, -, -, spans⟩ := getElem?_blocks found
  have ends := spans.endAddress_eq
  have starts := spans.start_eq
  obtain ⟨first, rest, next, split, heq, following⟩ := spans.ofCode
  refine ⟨rest.getLastD first, fun address kind tests jump => ?_⟩
  rw [heq, Block.address_mem_ofCode_iff] at jump
  rcases jump with ⟨code, member, branch, lands⟩ | ⟨unmarked, -, through, instr, rfl, rfl⟩
  · obtain ⟨hcode, low, high⟩ := mem_codeBetween_iff.1 (split ▸ member)
    obtain ⟨position, here⟩ := List.mem_iff_getElem?.1 hcode
    obtain ⟨carries, falls, -⟩ := Decoded.ends_block_of_tests branch tests
    have covers : scope.Covers number block code.instr.address :=
      ⟨found, by omega, by omega⟩
    have last := distinct.getLastD_eq here covers carries falls (by rw [starts, ends, split])
    exact .inl ⟨last ▸ branch, last ▸ lands⟩
  · refine .inr ⟨through.symm, ?_, fun marker => ?_⟩
    · rw [ends]
      simpa using following
    · rw [heq, Bool.eq_false_iff, ne_eq, Block.hasMarker_ofCode_iff]
      rintro ⟨code, member, marked⟩
      simp [unmarked code member] at marked

theorem address_eq_of_tests (tests : kind.tests = true)
    (first : ⟨.address address, kind⟩ ∈ block.jumps)
    (second : ⟨.address other, kind⟩ ∈ block.jumps) : address = other := by
  obtain ⟨last, jumps⟩ := distinct.exists_last found
  rcases jumps address kind tests first with ⟨branch, lands⟩ | ⟨through, heq, -⟩ <;>
    rcases jumps other kind tests second with ⟨branch', lands'⟩ | ⟨through', heq', -⟩
  · exact Option.some.inj (lands.symm.trans lands')
  · exact absurd through' (Decoded.ends_block_of_tests branch tests).2.2
  · exact absurd through (Decoded.ends_block_of_tests branch' tests).2.2
  · rw [heq, heq']

theorem unmarked_of_tests (onTrue : ⟨.address address, .onTrue⟩ ∈ block.jumps)
    (onFalse : ⟨.address other, .onFalse⟩ ∈ block.jumps) (marker : Marker) :
    block.hasMarker marker = false := by
  obtain ⟨last, jumps⟩ := distinct.exists_last found
  rcases jumps address .onTrue rfl onTrue with ⟨branch, -⟩ | ⟨-, -, unmarked⟩
  · rcases jumps other .onFalse rfl onFalse with ⟨branch', -⟩ | ⟨-, -, unmarked⟩
    · simp [branch] at branch'
    · exact unmarked marker
  · exact unmarked marker

end Scope.Distinct

/-! ## Wired edges -/

namespace Draft

variable {next : Draft} {index scopeEnd : Nat} {blocks : List Block}

def Branches (graph : Sketch Node BranchKind) (index : Nat) (kind : BranchKind) : Prop :=
  ∃ edge ∈ graph.edges, edge.source = index ∧ edge.label = kind

theorem branchesBothWays_iff {graph : Sketch Node BranchKind} :
    branchesBothWays graph index = true ↔
      Branches graph index .onTrue ∧ Branches graph index .onFalse := by
  simp [branchesBothWays, Branches, Sketch.mem_outEdges, and_assoc]

theorem kind_ne_condition {node : Node} (found : (nodes blocks)[index]? = some node) :
    node.kind ≠ .condition := by
  have member := List.mem_of_getElem? found
  simp only [nodes, List.mem_cons, List.mem_mapIdx] at member
  rcases member with rfl | rfl | ⟨number, bound, rfl⟩
  · simp
  · simp
  · cases blocks[number].kind <;> simp [NodeKind.ofBlock]

theorem exists_jump_of_tests (wired : (ofBlocks scopeEnd blocks).wire = .ok next)
    {edge : Edge Nat BranchKind} (member : edge ∈ next.graph.edges)
    (tests : edge.label.tests = true) :
    ∃ number block address, blocks[number]? = some block ∧ edge.source = blockIndex number ∧
      ⟨.address address, edge.label⟩ ∈ block.jumps ∧
      next.nodeAt? address = some edge.target := by
  rcases mem_wiredEdges_iff.1 (least_of_mem_edges_wire wired member).1 with
    outer | ⟨block, number, found, jump⟩
  · rw [(mem_outerEdges outer).1] at tests
    cases tests
  · obtain ⟨address, jump, hnode, source⟩ := mem_jumpEdges_iff.1 jump
    rw [(wire_eq_ok wired).2.1] at found
    exact ⟨number, block, address, found, source, jump, hnode⟩

theorem Branches.exists_jump {kind : BranchKind} (branches : Branches next.graph index kind)
    (wired : (ofBlocks scopeEnd blocks).wire = .ok next) (tests : kind.tests = true) :
    ∃ number block address, blocks[number]? = some block ∧ index = blockIndex number ∧
      ⟨.address address, kind⟩ ∈ block.jumps := by
  obtain ⟨edge, member, rfl, rfl⟩ := branches
  obtain ⟨number, block, address, found, source, jump, -⟩ :=
    exists_jump_of_tests wired member tests
  exact ⟨number, block, address, found, source, jump⟩

end Draft

/-! ## The finished graph -/

namespace FlowGraph

variable {scope : Scope} {options : Options} {flow : FlowGraph} {wired resolved : Draft}
  {kind : BranchKind}

namespace Stages

variable (stages : Stages scope options flow wired resolved)

include stages

theorem kind_eq_condition_iff (node : Fin flow.size) :
    (flow.graph.label node).kind = .condition ↔
      Draft.branchesBothWays wired.graph (flow.frozen.indices.get node) = true := by
  have found := node?_of_lastDraft (Sketch.node?_eq_some_label stages.freeze node)
  rw [Sketch.node?, stages.touches.slots] at found
  obtain ⟨label, hlabel, heq⟩ := Option.map_eq_some_iff.1
    ((Draft.node?_reclassify wired _).symm.trans found)
  have plain := Draft.kind_ne_condition (Draft.node?_wire stages.wire ▸ hlabel)
  rw [graph, ← heq]
  split <;> simp_all

theorem mem_wired_of_tests {edge : Edge Nat BranchKind} (member : edge ∈ resolved.graph.edges)
    (tests : edge.label.tests = true) : edge ∈ wired.graph.edges := by
  by_cases inner : ∃ number original, scope.blocks[number]? = some original ∧
      edge.source = Draft.blockIndex number
  · obtain ⟨number, original, found, source⟩ := inner
    obtain ⟨draft, turn⟩ := stages.exists_turn found
    cases turn.outcome with
    | leaves _ leads _ =>
        rw [(leads edge source).1 member, Block.tests_leavingKind] at tests
        cases tests
    | continues _ _ _ done | breaks _ _ _ _ _ done =>
        obtain ⟨target, -, leads⟩ := done.leads
        rw [(leads edge source).1 member] at tests
        cases tests
    | unchanged _ _ _ same => exact (same.trans turn.same edge source).1 member
  · rw [← Draft.edges_reclassify]
    refine (stages.touches.edge edge fun number listed source => inner ?_).1 member
    have bound : number < scope.blocks.length := by
      simpa [stages.blocks_wired] using listed
    exact ⟨number, _, List.getElem?_eq_getElem bound, source⟩

theorem edge_eq_of_tests (distinct : scope.Distinct) {first second : Edge Nat BranchKind}
    (hfirst : first ∈ resolved.graph.edges) (hsecond : second ∈ resolved.graph.edges)
    (tests : first.label.tests = true) (source : first.source = second.source)
    (label : first.label = second.label) : first = second := by
  obtain ⟨number, block, address, found, leaves, jump, hnode⟩ :=
    Draft.exists_jump_of_tests stages.wire (stages.mem_wired_of_tests hfirst tests) tests
  obtain ⟨number', block', address', found', leaves', jump', hnode'⟩ :=
    Draft.exists_jump_of_tests stages.wire (stages.mem_wired_of_tests hsecond (label ▸ tests))
      (label ▸ tests)
  obtain rfl := Draft.blockIndex_inj.1 (leaves.symm.trans (source.trans leaves'))
  obtain rfl := Option.some.inj (found.symm.trans found')
  obtain rfl := distinct.address_eq_of_tests found tests jump (label ▸ jump')
  obtain ⟨_, _, _⟩ := first
  obtain ⟨_, _, _⟩ := second
  have target := Option.some.inj (hnode.symm.trans hnode')
  simp_all

theorem count_label_eq_one_iff (distinct : scope.Distinct) (tests : kind.tests = true)
    (node : Fin flow.size) :
    ((flow.graph.outEdges node).map Edge.label).count kind = 1 ↔
      Draft.Branches resolved.graph (flow.frozen.indices.get node) kind := by
  have listed : ∀ edge, edge ∈ flow.graph.outEdges node ↔
      ⟨flow.frozen.indices.get edge.source, flow.frozen.indices.get edge.target, edge.label⟩ ∈
        resolved.graph.edges ∧ edge.source = node := by
    simp [Digraph.outEdges, stages.mem_edges_iff]
  have nodup : (flow.graph.outEdges node).Nodup := stages.nodup_ends.of_map.filter _
  rw [count_map_eq_one_iff nodup]
  · simp only [listed]
    constructor
    · rintro ⟨edge, ⟨member, rfl⟩, label⟩
      exact ⟨_, member, rfl, label⟩
    · rintro ⟨⟨source, target, label⟩, member, rfl, rfl⟩
      obtain ⟨image, rfl, -⟩ := stages.exists_succ ⟨_, member, rfl, rfl⟩
      exact ⟨⟨node, image, label⟩, ⟨member, rfl⟩, rfl⟩
  · intro first hfirst second hsecond label label'
    obtain ⟨hfirst, source⟩ := (listed first).1 hfirst
    obtain ⟨hsecond, source'⟩ := (listed second).1 hsecond
    have same := stages.edge_eq_of_tests distinct hfirst hsecond (by simpa [label] using tests)
      (by rw [source, source']) (label.trans label'.symm)
    rw [Edge.mk.injEq, stages.index_inj, stages.index_inj] at same
    obtain ⟨_, _, _⟩ := first
    obtain ⟨_, _, _⟩ := second
    rw [Edge.mk.injEq]
    exact same

theorem branchesBothWays_resolved_iff (distinct : scope.Distinct) (index : Nat) :
    Draft.branchesBothWays resolved.graph index = true ↔
      Draft.branchesBothWays wired.graph index = true := by
  rw [Draft.branchesBothWays_iff, Draft.branchesBothWays_iff]
  have back : ∀ kind : BranchKind, kind.tests = true →
      Draft.Branches resolved.graph index kind → Draft.Branches wired.graph index kind := by
    rintro _ tests ⟨edge, member, leaves, rfl⟩
    exact ⟨edge, stages.mem_wired_of_tests member tests, leaves, rfl⟩
  refine ⟨fun both => ⟨back _ rfl both.1, back _ rfl both.2⟩, fun both => ?_⟩
  obtain ⟨number, block, address, found, source, onTrue⟩ := both.1.exists_jump stages.wire rfl
  obtain ⟨other, candidate, address', found', source', onFalse⟩ :=
    both.2.exists_jump stages.wire rfl
  obtain rfl := Draft.blockIndex_inj.1 (source.symm.trans source')
  obtain rfl := Option.some.inj (found.symm.trans found')
  have unmarked := distinct.unmarked_of_tests found onTrue onFalse
  obtain ⟨draft, turn⟩ := stages.exists_turn found
  cases turn.outcome with
  | leaves marked _ _ => simp [unmarked] at marked
  | continues _ _ marked _ | breaks _ _ _ marked _ _ => simp [unmarked] at marked
  | unchanged _ _ _ same =>
      have kept := same.trans turn.same
      refine both.imp ?_ ?_ <;> rintro ⟨edge, member, leaves, label⟩ <;>
        exact ⟨edge, (kept edge (leaves.trans source)).2 member, leaves, label⟩

end Stages

/-- A node is a condition just if exactly one true and exactly one false edge leave it. -/
theorem condition_iff_one_edge_each_way (distinct : scope.Distinct)
    (built : build scope options = .ok flow) (node : Fin flow.size) :
    (flow.graph.label node).kind = .condition ↔
      ((flow.graph.outEdges node).map Edge.label).count .onTrue = 1 ∧
        ((flow.graph.outEdges node).map Edge.label).count .onFalse = 1 := by
  obtain ⟨wired, resolved, stages⟩ := build_eq_ok built
  rw [stages.kind_eq_condition_iff, ← stages.branchesBothWays_resolved_iff distinct,
    Draft.branchesBothWays_iff, stages.count_label_eq_one_iff distinct rfl,
    stages.count_label_eq_one_iff distinct rfl]

/-- A test with two outcomes, and one that leads to the next instruction either way. -/
def testSample : Scope :=
  { instructions := [
      ⟨0, .loadName, .name "c", 1, 0, false⟩,
      ⟨3, .popJumpIfFalse, .arg 12, 1, 0, false⟩,
      ⟨6, .loadName, .name "d", 2, 0, false⟩,
      ⟨9, .popJumpIfTrue, .arg 12, 2, 0, false⟩,
      ⟨12, .loadName, .name "e", 3, 0, false⟩,
      ⟨15, .returnValue, .none, 3, 0, false⟩]
    sorted := by decide }

theorem testSample_one_condition :
    testSample.Distinct ∧ ∃ flow first second, build testSample {} = .ok flow ∧
      flow.nodeOf? 0 = some first ∧ (flow.graph.label first).kind = .condition ∧
      ((flow.graph.outEdges first).map Edge.label).count .onTrue = 1 ∧
      ((flow.graph.outEdges first).map Edge.label).count .onFalse = 1 ∧
      flow.nodeOf? 1 = some second ∧ (flow.graph.outEdges second).map Edge.label = [.onTrue] ∧
      (flow.graph.label second).kind ≠ .condition := by
  have distinct : testSample.Distinct := by decide
  have run : succeedsWith (fun flow =>
      (flow.nodeOf? 0).any (fun first => (flow.graph.label first).kind == .condition) &&
      (flow.nodeOf? 1).any fun second => (flow.graph.outEdges second).map Edge.label == [.onTrue])
      (build testSample {}) = true := by decide +kernel
  obtain ⟨flow, built, found⟩ := succeedsWith_iff.1 run
  simp only [Bool.and_eq_true, Option.any_eq_true, beq_iff_eq] at found
  obtain ⟨⟨first, hfirst, condition⟩, second, hsecond, labels⟩ := found
  have counts := (condition_iff_one_edge_each_way distinct built first).1 condition
  refine ⟨distinct, flow, first, second, built, hfirst, condition, counts.1, counts.2, hsecond,
    labels, fun other => ?_⟩
  have none := ((condition_iff_one_edge_each_way distinct built second).1 other).2
  simp [labels] at none

end FlowGraph

end StackFlow
