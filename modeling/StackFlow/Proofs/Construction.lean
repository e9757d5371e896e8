import StackFlow.FlowGraph.Finalization
import StackFlow.Proofs.Sketch

/-!
# Construction of a control-flow graph

What every stage of the construction does to the edges and to the blocks.  Wiring is described by
the edges that it adds, and finalization by a relation between the drafts before and after changes
at some blocks (`Draft.Touches`): they replace edges that leave the nodes of these blocks and jumps
of the blocks, and leave everything else alone.
-/

namespace StackFlow

def Block.bare (block : Block) : Block :=
  { block with jumps := ∅ }

theorem Block.eq_of_bare_eq {first second : Block} (same : first.bare = second.bare) :
    first = { second with jumps := first.jumps } := by
  obtain ⟨⟩ := first
  obtain ⟨⟩ := second
  simpa [bare] using same

section

variable {first second : List Block} (same : first.map Block.bare = second.map Block.bare)

include same

theorem Block.exists_getElem? {number : Nat} {block : Block} (found : first[number]? = some block) :
    ∃ other, second[number]? = some other ∧ block.bare = other.bare := by
  have there := congrArg (fun blocks => blocks[number]?) same
  simp only [List.getElem?_map, found, Option.map_some] at there
  obtain ⟨other, hother, heq⟩ := Option.map_eq_some_iff.1 there.symm
  exact ⟨other, hother, heq.symm⟩

theorem Block.map_start_eq : first.map start = second.map start := by
  have starts := congrArg (List.map start) same
  rwa [List.map_map, List.map_map] at starts

end

theorem Block.forall_mem_congr {first second : List Block} {P : Block → Prop}
    (same : first.map bare = second.map bare) (blind : ∀ block, P block.bare ↔ P block) :
    (∀ block ∈ first, P block) ↔ ∀ block ∈ second, P block := by
  have each : ∀ blocks : List Block,
      (∀ block ∈ blocks, P block) ↔ ∀ block ∈ blocks.map bare, P block := by
    simp [blind]
  rw [each first, each second, same]

theorem Block.hasMarker_iff {block : Block} {marker : Marker} :
    block.hasMarker marker = true ↔ ∃ jump ∈ block.jumps, jump.target = .marker marker := by
  simp [hasMarker, SortedSet.mem_toList]

theorem Jump.address?_map_eq_some_iff {jump : Jump} {address : Nat} {kind : BranchKind} :
    jump.address?.map (·, jump.kind) = some (address, kind) ↔ jump = ⟨.address address, kind⟩ := by
  obtain ⟨target, label⟩ := jump
  cases target <;> simp [address?]

theorem Block.mem_addressJumps_iff {block : Block} {address : Nat} {kind : BranchKind} :
    (address, kind) ∈ block.addressJumps ↔ ⟨.address address, kind⟩ ∈ block.jumps := by
  unfold addressJumps
  rw [List.mem_filterMap]
  simp only [Jump.address?_map_eq_some_iff, exists_eq_right, SortedSet.mem_toList]

def LoopExit.Reports (exit : LoopExit) (number address : Nat) (issue : Issue) : Prop :=
  issue = exit.unresolved number address ∨ ∃ target, issue = .unknownJumpTarget number target

def Marker.leaves : Marker → Bool
  | .returns | .raises => true
  | .breaks | .continues => false

namespace Draft

variable {draft next before after : Draft} {number target address : Nat} {kind : BranchKind}
  {jumps : SortedSet Jump → SortedSet Jump} {block : Block} {options : Options}

/-! ## Nodes at addresses -/

theorem blockIndex_inj {first second : Nat} : blockIndex first = blockIndex second ↔
    first = second := by
  simp [blockIndex]

theorem blockIndex_ne_entryIndex : blockIndex number ≠ entryIndex := by
  simp [blockIndex, entryIndex]

theorem blockIndex_ne_exitIndex : blockIndex number ≠ exitIndex := by
  simp [blockIndex, exitIndex]

theorem nodeAt?_eq_some (found : draft.nodeAt? address = some target) :
    address = draft.endAddress ∧ target = exitIndex ∨
      ∃ number block, draft.blocks[number]? = some block ∧ block.start = address ∧
        target = blockIndex number := by
  unfold nodeAt? at found
  split at found
  · next hend => exact .inl ⟨hend, (Option.some.inj found).symm⟩
  · obtain ⟨number, starts, rfl⟩ := Option.map_eq_some_iff.1 found
    obtain ⟨bound, hit, -⟩ := List.findIdx?_eq_some_iff_getElem.1 starts
    exact .inr ⟨number, _, List.getElem?_eq_getElem bound, beq_iff_eq.1 hit, rfl⟩

theorem nodeAt?_ne_entryIndex (found : draft.nodeAt? address = some target) :
    target ≠ entryIndex := by
  rcases nodeAt?_eq_some found with ⟨-, rfl⟩ | ⟨number, -, -, -, rfl⟩
  · decide
  · exact blockIndex_ne_entryIndex

theorem nodeAt?_inj {other : Nat} (first : draft.nodeAt? address = some target)
    (second : draft.nodeAt? other = some target) : address = other := by
  rcases nodeAt?_eq_some first with ⟨rfl, rfl⟩ | ⟨number, block, found, rfl, rfl⟩
  · rcases nodeAt?_eq_some second with ⟨rfl, -⟩ | ⟨number, block, -, -, heq⟩
    · rfl
    · exact absurd heq.symm blockIndex_ne_exitIndex
  · rcases nodeAt?_eq_some second with ⟨-, heq⟩ | ⟨position, following, hfollowing, rfl, heq⟩
    · exact absurd heq blockIndex_ne_exitIndex
    · obtain rfl := blockIndex_inj.1 heq
      rw [Option.some.inj (found.symm.trans hfollowing)]

theorem startingAt?_congr {first second : List Block}
    (same : first.map Block.bare = second.map Block.bare) (address : Nat) :
    Block.startingAt? first address = Block.startingAt? second address := by
  have bare : ∀ blocks : List Block, Block.startingAt? blocks address =
      (blocks.map Block.bare).findIdx? fun block => block.start == address := by
    intro blocks
    rw [List.findIdx?_map]
    rfl
  rw [bare, bare, same]

theorem nodeAt?_congr (hend : after.endAddress = before.endAddress)
    (same : after.blocks.map Block.bare = before.blocks.map Block.bare) (address : Nat) :
    after.nodeAt? address = before.nodeAt? address := by
  rw [nodeAt?, nodeAt?, hend, startingAt?_congr same]

/-! ## Wiring -/

structure Sealed (draft : Draft) : Prop where
  entry : ∀ edge ∈ draft.graph.edges, edge.target ≠ entryIndex
  exit : ∀ edge ∈ draft.graph.edges, edge.source ≠ exitIndex

theorem mem_jumpEdges_iff {edge : Edge Nat BranchKind} :
    edge ∈ draft.jumpEdges number block ↔
      ∃ address, ⟨.address address, edge.label⟩ ∈ block.jumps ∧
        draft.nodeAt? address = some edge.target ∧ edge.source = blockIndex number := by
  obtain ⟨source, target, label⟩ := edge
  simp only [jumpEdges, List.mem_filterMap, Option.map_eq_some_iff]
  constructor
  · rintro ⟨⟨address, kind⟩, member, node, hnode, heq⟩
    cases heq
    exact ⟨address, Block.mem_addressJumps_iff.1 member, hnode, rfl⟩
  · rintro ⟨address, jump, hnode, rfl⟩
    exact ⟨(address, label), Block.mem_addressJumps_iff.2 jump, target, hnode, rfl⟩

def wiredEdges (draft : Draft) : List (Edge Nat BranchKind) :=
  draft.outerEdges ++
    draft.blocks.zipIdx.flatMap fun (block, number) => draft.jumpEdges number block

theorem mem_outerEdges {edge : Edge Nat BranchKind} (member : edge ∈ draft.outerEdges) :
    edge.label = .always ∧ edge.target ≠ entryIndex ∧ edge.source ≠ exitIndex := by
  unfold outerEdges at member
  split at member
  · obtain rfl := List.mem_singleton.1 member
    exact ⟨rfl, by decide, by decide⟩
  · rcases List.mem_cons.1 member with rfl | member
    · exact ⟨rfl, by decide, by decide⟩
    · obtain rfl := List.mem_singleton.1 member
      exact ⟨rfl, (by decide : exitIndex ≠ entryIndex), blockIndex_ne_exitIndex⟩

theorem mem_outerEdges_iff {edge : Edge Nat BranchKind} (leaves : edge.source = blockIndex number) :
    edge ∈ draft.outerEdges ↔
      number + 1 = draft.blocks.length ∧ edge = ⟨blockIndex number, exitIndex, .always⟩ := by
  have entry : ∀ target, edge ≠ ⟨entryIndex, target, .always⟩ := by
    rintro target rfl
    exact blockIndex_ne_entryIndex leaves.symm
  unfold outerEdges
  split
  · next length => simp [entry, length]
  · next last length =>
      simp only [List.mem_cons, entry, List.not_mem_nil, or_false, false_or, length,
        Nat.succ_eq_add_one, Nat.add_right_cancel_iff]
      constructor
      · rintro rfl
        obtain rfl := blockIndex_inj.1 leaves
        exact ⟨rfl, rfl⟩
      · rintro ⟨rfl, rfl⟩
        rfl

theorem mem_wiredEdges_iff {edge : Edge Nat BranchKind} :
    edge ∈ draft.wiredEdges ↔
      edge ∈ draft.outerEdges ∨
        ∃ block number, draft.blocks[number]? = some block ∧
          edge ∈ draft.jumpEdges number block := by
  simp [wiredEdges, List.mem_flatMap, List.mem_zipIdx_iff_getElem?]

theorem mem_wiredEdges_iff_of_source {edge : Edge Nat BranchKind}
    (leaves : edge.source = blockIndex number) (found : draft.blocks[number]? = some block) :
    edge ∈ draft.wiredEdges ↔
      number + 1 = draft.blocks.length ∧ edge = ⟨blockIndex number, exitIndex, .always⟩ ∨
        edge ∈ draft.jumpEdges number block := by
  rw [mem_wiredEdges_iff, mem_outerEdges_iff leaves]
  refine or_congr_right ⟨?_, fun member => ⟨block, number, found, member⟩⟩
  rintro ⟨other, position, hother, member⟩
  obtain ⟨-, -, -, source⟩ := mem_jumpEdges_iff.1 member
  obtain rfl := blockIndex_inj.1 (source.symm.trans leaves)
  rwa [Option.some.inj (found.symm.trans hother)]

theorem kind_le_of_ascends {first second : Jump} (ascends : Ascends first second)
    (same : first.target = second.target) : first.kind.rank ≤ second.kind.rank := by
  have lt : Jump.order first second = .lt := ascends
  simp only [Jump.order, compareLex, compareOn, same, Std.ReflCmp.compare_self, Ordering.eq_then,
    Nat.compare_eq_lt] at lt
  exact Nat.le_of_lt lt

theorem pairwise_addressJumps (block : Block) :
    block.addressJumps.Pairwise fun first second =>
      first.1 = second.1 → first.2.rank ≤ second.2.rank := by
  refine block.jumps.ascending.filterMap _ fun first second ascends => ?_
  rintro ⟨address, kind⟩ hfirst ⟨other, later⟩ hsecond rfl
  rw [Jump.address?_map_eq_some_iff.1 hfirst, Jump.address?_map_eq_some_iff.1 hsecond] at ascends
  exact kind_le_of_ascends ascends rfl

theorem pairwise_jumpEdges (draft : Draft) (number : Nat) (block : Block) :
    (draft.jumpEdges number block).Pairwise fun first second =>
      first.target = second.target → first.label.rank ≤ second.label.rank := by
  refine (pairwise_addressJumps block).filterMap _ fun first second ordered => ?_
  intro earlier hearlier later hlater same
  obtain ⟨target, hfirst, rfl⟩ := Option.map_eq_some_iff.1 hearlier
  obtain ⟨other, hsecond, rfl⟩ := Option.map_eq_some_iff.1 hlater
  obtain rfl : target = other := same
  exact ordered (nodeAt?_inj hfirst hsecond)

theorem pairwise_wiredEdges (draft : Draft) :
    draft.wiredEdges.Pairwise fun first second => first.source = second.source →
      first.target = second.target → first.label.rank ≤ second.label.rank := by
  have outer : ∀ {first second : Edge Nat BranchKind}, first ∈ draft.outerEdges →
      first.label.rank ≤ second.label.rank := by
    intro first second member
    rw [(mem_outerEdges member).1]
    exact Nat.zero_le _
  refine List.pairwise_append.2 ⟨?_, ?_, fun first member second _ _ _ => outer member⟩
  · exact List.pairwise_of_forall_mem_list fun first member second _ _ _ => outer member
  · refine List.pairwise_flatMap.2 ⟨?_, (pairwise_zipIdx draft.blocks).imp ?_⟩
    · rintro ⟨block, number⟩ -
      refine (pairwise_jumpEdges draft number block).imp ?_
      exact fun ordered _ => ordered
    · -- the edges of two blocks have different sources
      rintro ⟨block, number⟩ ⟨other, later⟩ lt first hfirst second hsecond same
      obtain ⟨-, -, -, source⟩ := mem_jumpEdges_iff.1 hfirst
      obtain ⟨-, -, -, hlater⟩ := mem_jumpEdges_iff.1 hsecond
      have heq := blockIndex_inj.1 (source.symm.trans (same.trans hlater))
      exact absurd heq (Nat.ne_of_lt lt)

theorem wire_eq_ok (wired : draft.wire = .ok next) :
    next.endAddress = draft.endAddress ∧ next.blocks = draft.blocks ∧
      draft.graph.addEdges next.wiredEdges = .ok next.graph := by
  obtain ⟨graph, added, built⟩ := bind_eq_ok_iff.1 wired
  obtain rfl := pure_eq_ok_iff.1 built
  exact ⟨rfl, rfl, added⟩

variable {scopeEnd : Nat} {blocks : List Block}

section Wire

variable (wired : (ofBlocks scopeEnd blocks).wire = .ok next)

include wired

theorem least_of_mem_edges_wire {edge : Edge Nat BranchKind} (member : edge ∈ next.graph.edges) :
    edge ∈ next.wiredEdges ∧ ∀ other ∈ next.wiredEdges, edge.source = other.source →
      edge.target = other.target → edge.label.rank ≤ other.label.rank := by
  obtain ⟨-, -, added⟩ := wire_eq_ok wired
  rcases Sketch.least_of_mem_edges_addEdges added (pairwise_wiredEdges next) member with
    old | ⟨-, least⟩
  · cases old
  · exact least

theorem sealed_wire : next.Sealed := by
  have all : ∀ edge ∈ next.graph.edges,
      edge.target ≠ entryIndex ∧ edge.source ≠ exitIndex := by
    intro edge member
    have listed := (least_of_mem_edges_wire wired member).1
    rcases mem_wiredEdges_iff.1 listed with outer | ⟨block, number, -, jump⟩
    · exact (mem_outerEdges outer).2
    · obtain ⟨address, -, hnode, hsource⟩ := mem_jumpEdges_iff.1 jump
      exact ⟨nodeAt?_ne_entryIndex hnode, hsource ▸ blockIndex_ne_exitIndex⟩
  exact ⟨fun edge member => (all edge member).1, fun edge member => (all edge member).2⟩

theorem live_wire : next.graph.Live := by
  obtain ⟨-, -, added⟩ := wire_eq_ok wired
  have empty : (ofBlocks scopeEnd blocks).graph.Live := nofun
  exact empty.addEdges added

theorem joins_wire_iff (found : next.blocks[number]? = some block) :
    next.graph.Joins (blockIndex number) target ↔
      number + 1 = next.blocks.length ∧ target = exitIndex ∨
        ∃ address kind, ⟨.address address, kind⟩ ∈ block.jumps ∧
          next.nodeAt? address = some target := by
  obtain ⟨-, -, added⟩ := wire_eq_ok wired
  rw [Sketch.joins_addEdges_iff added]
  constructor
  · rintro (⟨edge, old, -⟩ | ⟨edge, member, leaves, rfl⟩)
    · cases old
    · rcases (mem_wiredEdges_iff_of_source leaves found).1 member with ⟨last, rfl⟩ | jump
      · exact .inl ⟨last, rfl⟩
      · obtain ⟨address, jump, hnode, -⟩ := mem_jumpEdges_iff.1 jump
        exact .inr ⟨address, edge.label, jump, hnode⟩
  · rintro (⟨last, rfl⟩ | ⟨address, kind, jump, hnode⟩)
    · exact .inr ⟨⟨blockIndex number, exitIndex, .always⟩,
        (mem_wiredEdges_iff_of_source rfl found).2 (.inl ⟨last, rfl⟩), rfl, rfl⟩
    · exact .inr ⟨⟨blockIndex number, target, kind⟩,
        (mem_wiredEdges_iff_of_source rfl found).2 (.inr (mem_jumpEdges_iff.2
          ⟨address, jump, hnode, rfl⟩)), rfl, rfl⟩

end Wire

/-! ## Changes at blocks -/

/-- What changes at some blocks leave alone. -/
structure Touches (numbers : List Nat) (before after : Draft) : Prop where
  endAddress : after.endAddress = before.endAddress
  bare : after.blocks.map Block.bare = before.blocks.map Block.bare
  marker : ∀ marker, marker.leaves = true →
    after.blocks.map (·.hasMarker marker) = before.blocks.map (·.hasMarker marker)
  block : ∀ other ∉ numbers, after.blocks[other]? = before.blocks[other]?
  edge : ∀ edge : Edge Nat BranchKind, (∀ number ∈ numbers, edge.source ≠ blockIndex number) →
    (edge ∈ after.graph.edges ↔ edge ∈ before.graph.edges)
  entry : ∀ edge ∈ after.graph.edges, edge.target = entryIndex → edge ∈ before.graph.edges
  slots : after.graph.slots = before.graph.slots

namespace Touches

variable {numbers : List Nat}

theorem refl (numbers : List Nat) (draft : Draft) : Touches numbers draft draft where
  endAddress := rfl
  bare := rfl
  marker := fun _ _ => rfl
  block := fun _ _ => rfl
  edge := fun _ _ => Iff.rfl
  entry := fun _ member _ => member
  slots := rfl

theorem trans {middle : Draft} (first : Touches numbers before middle)
    (second : Touches numbers middle after) : Touches numbers before after where
  endAddress := second.endAddress.trans first.endAddress
  bare := second.bare.trans first.bare
  marker := fun marker leaves => (second.marker marker leaves).trans (first.marker marker leaves)
  block := fun other absent => (second.block other absent).trans (first.block other absent)
  edge := fun edge absent => (second.edge edge absent).trans (first.edge edge absent)
  entry := fun edge member heq => first.entry edge (second.entry edge member heq) heq
  slots := second.slots.trans first.slots

theorem mono {others : List Nat} (touches : Touches numbers before after)
    (subset : ∀ number ∈ numbers, number ∈ others) : Touches others before after where
  endAddress := touches.endAddress
  bare := touches.bare
  marker := touches.marker
  block := fun other absent => touches.block other fun member => absent (subset other member)
  edge := fun edge absent => touches.edge edge fun other member =>
    absent other (subset other member)
  entry := touches.entry
  slots := touches.slots

theorem sameOut (touches : Touches numbers before after) {other : Nat} (absent : other ∉ numbers) :
    Sketch.SameOut (blockIndex other) after.graph before.graph := by
  intro edge leaves
  refine touches.edge edge fun number member heq => absent ?_
  rwa [blockIndex_inj.1 (leaves.symm.trans heq)]

theorem isSealed (touches : Touches numbers before after) (isSealed : before.Sealed) :
    after.Sealed where
  entry := fun edge member heq => isSealed.entry edge (touches.entry edge member heq) heq
  exit := by
    intro edge member heq
    have kept := touches.edge edge fun number _ => heq ▸ blockIndex_ne_exitIndex.symm
    exact isSealed.exit edge (kept.1 member) heq

theorem nodeAt?_eq (touches : Touches numbers before after) (address : Nat) :
    after.nodeAt? address = before.nodeAt? address :=
  nodeAt?_congr touches.endAddress touches.bare address

theorem length_blocks (touches : Touches numbers before after) :
    after.blocks.length = before.blocks.length := by
  simpa using congrArg List.length touches.bare

end Touches

/-- The node of a block has no edge but the one to `target`, and the jumps of the block are
changed. -/
structure Redirected (number target : Nat) (kind : BranchKind)
    (jumps : SortedSet Jump → SortedSet Jump) (before after : Draft) : Prop where
  endAddress : after.endAddress = before.endAddress
  blocks : after.blocks =
    before.blocks.modify number fun block => { block with jumps := jumps block.jumps }
  edges : after.graph.edges =
    (before.graph.clearOut (blockIndex number)).edges ++ [⟨blockIndex number, target, kind⟩]
  slots : after.graph.slots = before.graph.slots
  ends : before.graph.contains (blockIndex number) = true ∧ before.graph.contains target = true

theorem issues_redirect (redirected : draft.redirect number target kind jumps = .ok next) :
    next.issues = draft.issues := by
  obtain ⟨graph, -, built⟩ := bind_eq_ok_iff.1 redirected
  obtain rfl := pure_eq_ok_iff.1 built
  rfl

theorem redirect_eq_ok (redirected : draft.redirect number target kind jumps = .ok next) :
    Redirected number target kind jumps draft next := by
  obtain ⟨graph, added, built⟩ := bind_eq_ok_iff.1 redirected
  obtain rfl := pure_eq_ok_iff.1 built
  rcases Sketch.addEdge_eq_ok added with ⟨⟨edge, member, hsource, -⟩, -⟩ | ⟨-, leaves, enters, rfl⟩
  · exact absurd hsource (Sketch.mem_edges_clearOut.1 member).2
  · exact ⟨rfl, rfl, rfl, rfl, leaves, enters⟩

namespace Redirected

variable (redirected : Redirected number target kind jumps before after)

include redirected

theorem mem_edges_iff {edge : Edge Nat BranchKind} :
    edge ∈ after.graph.edges ↔
      edge ∈ before.graph.edges ∧ edge.source ≠ blockIndex number ∨
        edge = ⟨blockIndex number, target, kind⟩ := by
  rw [redirected.edges, List.mem_append, Sketch.mem_edges_clearOut, List.mem_singleton]

theorem onlyEdge : after.graph.OnlyEdge ⟨blockIndex number, target, kind⟩ := by
  intro edge leaves
  rw [redirected.mem_edges_iff]
  exact or_iff_right fun old => old.2 leaves

theorem getElem?_blocks (found : before.blocks[number]? = some block) :
    after.blocks[number]? = some { block with jumps := jumps block.jumps } := by
  rw [redirected.blocks, List.getElem?_modify, found]
  simp

theorem map_blocks {α : Type} {view : Block → α}
    (same : ∀ block, view { block with jumps := jumps block.jumps } = view block) :
    after.blocks.map view = before.blocks.map view := by
  refine List.ext_getElem? fun index => ?_
  rw [redirected.blocks, List.getElem?_map, List.getElem?_map, List.getElem?_modify]
  cases before.blocks[index]? with
  | none => rfl
  | some block => by_cases heq : number = index <;> simp [heq, same]

theorem touches (ne : target ≠ entryIndex)
    (keeps : ∀ set jump marker, jump.target = .marker marker → marker.leaves = true →
      (jump ∈ jumps set ↔ jump ∈ set)) : Touches [number] before after where
  endAddress := redirected.endAddress
  bare := redirected.map_blocks fun _ => rfl
  marker := by
    intro marker leaves
    refine redirected.map_blocks fun block => ?_
    rw [Bool.eq_iff_iff, Block.hasMarker_iff, Block.hasMarker_iff]
    exact exists_congr fun jump => and_congr_left fun marks => keeps _ jump marker marks leaves
  block := by
    intro other absent
    rw [redirected.blocks, List.getElem?_modify_ne _ _ (Ne.symm (List.ne_of_not_mem_cons absent))]
  edge := by
    intro edge absent
    have hsource := absent number List.mem_cons_self
    rw [redirected.mem_edges_iff]
    constructor
    · rintro (⟨member, -⟩ | rfl)
      · exact member
      · exact absurd rfl hsource
    · exact fun member => .inl ⟨member, hsource⟩
  entry := by
    intro edge member htarget
    rcases redirected.mem_edges_iff.1 member with old | rfl
    · exact old.1
    · exact absurd htarget ne
  slots := redirected.slots

end Redirected

/-! ## Markers -/

def resolution? (draft : Draft) (exit : LoopExit) (number : Nat) (block : Block) :
    Except Fault (Option (Nat × Nat)) := do
  let address := (block.markerAddress exit.marker).getD block.start
  let loop ← enclosingLoop? draft.graph draft.blocks (blockIndex number) address
  return loop.bind fun (_, setup) =>
    (draft.destination? exit block setup).bind fun destination =>
      (draft.nodeAt? destination).map (destination, ·)

structure Agrees (before after : Draft) : Prop where
  endAddress : after.endAddress = before.endAddress
  blocks : after.blocks = before.blocks
  graph : after.graph = before.graph

theorem Agrees.refl (draft : Draft) : Agrees draft draft :=
  ⟨rfl, rfl, rfl⟩

theorem Agrees.trans {middle : Draft} (first : Agrees before middle)
    (second : Agrees middle after) : Agrees before after :=
  ⟨second.endAddress.trans first.endAddress, second.blocks.trans first.blocks,
    second.graph.trans first.graph⟩

theorem Agrees.touches (agrees : Agrees before after) : Touches [number] before after where
  endAddress := agrees.endAddress
  bare := by rw [agrees.blocks]
  marker := fun _ _ => by rw [agrees.blocks]
  block := fun _ _ => by rw [agrees.blocks]
  edge := fun _ _ => by rw [agrees.graph]
  entry := fun _ member _ => agrees.graph ▸ member
  slots := by rw [agrees.graph]

def Warns (number : Nat) (notes : List Issue) : Prop :=
  notes = [] ∨ ∃ loop, notes = [.nonDominatingLoop number loop]

structure Warned (number : Nat) (notes : List Issue) (before after : Draft) : Prop where
  agrees : Agrees before after
  issues : after.issues = before.issues ++ notes
  atMost : Warns number notes

/-- Why the break or continue of a block is not resolved, with the issue that says so: there is no
loop around it, or no destination in the loop, or no node at the destination. -/
inductive Fails (draft : Draft) (exit : LoopExit) (number : Nat) (block : Block) :
    Issue → Prop where
  | unresolved
      (nowhere : ∀ loop setup, enclosingLoop? draft.graph draft.blocks (blockIndex number)
        ((block.markerAddress exit.marker).getD block.start) = .ok (some (loop, setup)) →
        draft.destination? exit block setup = none) :
      Fails draft exit number block
        (exit.unresolved number ((block.markerAddress exit.marker).getD block.start))
  | unknown {loop destination : Nat} {setup : Block}
      (chosen : enclosingLoop? draft.graph draft.blocks (blockIndex number)
        ((block.markerAddress exit.marker).getD block.start) = .ok (some (loop, setup)))
      (leads : draft.destination? exit block setup = some destination)
      (missing : draft.nodeAt? destination = none) :
      Fails draft exit number block (.unknownJumpTarget number destination)

theorem Fails.reports {exit : LoopExit} {issue : Issue}
    (fails : Fails draft exit number block issue) :
    exit.Reports number ((block.markerAddress exit.marker).getD block.start) issue := by
  cases fails with
  | unresolved => exact .inl rfl
  | unknown => exact .inr ⟨_, rfl⟩

theorem follow_eq_ok {exit : LoopExit} {loop : Nat} {setup : Block} {notes : List Issue}
    {reported : Draft} (warned : Warned number notes draft reported)
    (chosen : enclosingLoop? draft.graph draft.blocks (blockIndex number)
      ((block.markerAddress exit.marker).getD block.start) = .ok (some (loop, setup)))
    (followed : (match reported.destination? exit block setup with
      | none => pure (reported.report
          (exit.unresolved number ((block.markerAddress exit.marker).getD block.start)))
      | some destination =>
          match reported.nodeAt? destination with
          | none => pure (reported.report (.unknownJumpTarget number destination))
          | some target =>
              reported.redirect number target .always (resolvedJumps exit destination)) =
      Except.ok next) :
    match (draft.destination? exit block setup).bind fun destination =>
        (draft.nodeAt? destination).map (destination, ·) with
    | none => Agrees draft next ∧
        ∃ issue, draft.Fails exit number block issue ∧
          next.issues = draft.issues ++ notes ++ [issue]
    | some (destination, target) =>
        draft.nodeAt? destination = some target ∧
          Redirected number target .always (resolvedJumps exit destination) draft next ∧
          next.issues = draft.issues ++ notes := by
  obtain ⟨⟨hend, hblocks, hgraph⟩, issues, -⟩ := warned
  rw [← issues]
  have hdestination : reported.destination? exit block setup =
      draft.destination? exit block setup := by
    cases exit
    · rfl
    · simp only [destination?, continueDestination?, hblocks]
  rw [hdestination] at followed
  cases hfound : draft.destination? exit block setup with
  | none =>
      simp only [hfound, pure_eq_ok_iff] at followed
      subst followed
      refine ⟨⟨hend, hblocks, hgraph⟩, _, .unresolved ?_, rfl⟩
      intro other candidate found
      obtain ⟨-, rfl⟩ := Prod.mk.inj (Option.some.inj (Except.ok.inj (chosen.symm.trans found)))
      exact hfound
  | some destination =>
      simp only [hfound, nodeAt?_congr hend (by rw [hblocks])] at followed
      cases hnode : draft.nodeAt? destination with
      | none =>
          simp only [hnode, pure_eq_ok_iff] at followed
          subst followed
          simp only [Option.bind_some, hnode, Option.map_none]
          exact ⟨⟨hend, hblocks, hgraph⟩, _, .unknown chosen hfound hnode, rfl⟩
      | some target =>
          simp only [hnode] at followed
          obtain ⟨redirectedEnd, redirectedBlocks, edges, slots, ends⟩ := redirect_eq_ok followed
          simp only [Option.bind_some, hnode, Option.map_some, true_and]
          exact ⟨⟨redirectedEnd.trans hend, hblocks ▸ redirectedBlocks, hgraph ▸ edges,
            hgraph ▸ slots, hgraph ▸ ends⟩, issues_redirect followed⟩

theorem resolve_eq_ok {exit : LoopExit} (resolved : draft.resolve options exit number = .ok next) :
    ∃ block resolution notes, draft.blocks[number]? = some block ∧
      draft.resolution? exit number block = .ok resolution ∧ Warns number notes ∧
      match resolution with
      | none => Agrees draft next ∧
          ∃ issue, draft.Fails exit number block issue ∧
            next.issues = draft.issues ++ notes ++ [issue]
      | some (destination, target) =>
          draft.nodeAt? destination = some target ∧
            Redirected number target .always (resolvedJumps exit destination) draft next ∧
            next.issues = draft.issues ++ notes := by
  obtain ⟨block, hblock, rest⟩ := bind_eq_ok_iff.1 resolved
  obtain ⟨loop, hloop, rest⟩ := bind_eq_ok_iff.1 rest
  have found := Fault.fetch_eq_ok_iff.1 hblock
  have resolution : draft.resolution? exit number block = .ok _ :=
    bind_eq_ok_iff.2 ⟨loop, hloop, rfl⟩
  cases loop with
  | none =>
      obtain rfl := pure_eq_ok_iff.1 rest
      refine ⟨block, _, [], found, resolution, .inl rfl, ⟨rfl, rfl, rfl⟩, _, .unresolved ?_, ?_⟩
      · intro other candidate chosen
        cases hloop.symm.trans chosen
      · rw [List.append_nil]
        rfl
  | some chosen =>
      obtain ⟨loop, setup⟩ := chosen
      have warned : ∀ dominated : Bool, ∃ notes, Warned number notes draft
          (if dominated = true then draft else draft.report (.nonDominatingLoop number loop)) := by
        intro dominated
        cases dominated with
        | true => exact ⟨[], .refl draft, (List.append_nil _).symm, .inl rfl⟩
        | false => exact ⟨[_], ⟨rfl, rfl, rfl⟩, rfl, .inr ⟨loop, rfl⟩⟩
      simp only at rest
      split at rest
      · obtain ⟨dominated, -, rest⟩ := bind_eq_ok_iff.1 rest
        obtain ⟨notes, warned⟩ := warned dominated
        exact ⟨block, _, notes, found, resolution, warned.atMost, follow_eq_ok warned hloop rest⟩
      · obtain ⟨notes, warned⟩ := warned true
        exact ⟨block, _, notes, found, resolution, warned.atMost, follow_eq_ok warned hloop rest⟩

theorem mem_resolvedJumps_iff {exit : LoopExit} {destination : Nat} {jump : Jump}
    {set : SortedSet Jump} :
    jump ∈ resolvedJumps exit destination set ↔
      jump = ⟨.address destination, .always⟩ ∨
        jump ∈ set ∧ jump.target.isMarker = true ∧ jump.target ≠ .marker exit.marker := by
  simp [resolvedJumps]

theorem mem_resolvedJumps_iff_of_leaves {exit : LoopExit} {destination : Nat}
    (set : SortedSet Jump) (jump : Jump) (marker : Marker) (marks : jump.target = .marker marker)
    (leaves : marker.leaves = true) :
    jump ∈ resolvedJumps exit destination set ↔ jump ∈ set := by
  have other : marker ≠ exit.marker := by
    rintro rfl
    cases exit <;> cases leaves
  rw [mem_resolvedJumps_iff]
  constructor
  · rintro (rfl | ⟨member, -⟩)
    · cases marks
    · exact member
  · exact fun member => .inr ⟨member, by simp [marks, Target.isMarker], by simp [marks, other]⟩

/-- What a marker of a block can do: nothing but report an issue, or send the block to another node,
which a return does to the exit only. -/
inductive Taken (number : Nat) (before after : Draft) : Prop where
  | idle (agrees : Agrees before after)
  | sent {target : Nat} {kind : BranchKind} {jumps : SortedSet Jump → SortedSet Jump}
      (redirected : Redirected number target kind jumps before after)
      (inner : target ≠ entryIndex) (returns : kind = .onReturn → target = exitIndex)
      (keeps : ∀ set jump marker, jump.target = .marker marker → marker.leaves = true →
        (jump ∈ jumps set ↔ jump ∈ set))

theorem taken_resolve {exit : LoopExit} (resolved : draft.resolve options exit number = .ok next) :
    Taken number draft next := by
  obtain ⟨block, resolution, notes, -, -, -, outcome⟩ := resolve_eq_ok resolved
  cases resolution with
  | none => exact .idle outcome.1
  | some target =>
      exact .sent outcome.2.1 (nodeAt?_ne_entryIndex outcome.1) nofun
        mem_resolvedJumps_iff_of_leaves

theorem taken_redirectToExit (redirected : draft.redirectToExit kind number = .ok next) :
    Taken number draft next := by
  refine .sent (redirect_eq_ok redirected) (by decide) (fun _ => rfl) ?_
  intro set jump marker marks _
  simp [marks, Target.isMarker]

theorem taken_applyMarker {marker : Marker}
    (applied : applyMarker options number draft marker = .ok next) : Taken number draft next := by
  cases marker with
  | breaks | continues => exact taken_resolve applied
  | returns | raises => exact taken_redirectToExit applied

theorem Taken.touches (taken : Taken number before after) : Touches [number] before after := by
  cases taken with
  | idle agrees => exact agrees.touches
  | sent redirected inner _ keeps => exact redirected.touches inner keeps

theorem Taken.live (taken : Taken number before after) (live : before.graph.Live) :
    after.graph.Live := by
  cases taken with
  | idle agrees => exact agrees.graph ▸ live
  | sent redirected _ _ _ =>
      intro edge member
      rw [Sketch.contains_congr redirected.slots, Sketch.contains_congr redirected.slots]
      rcases redirected.mem_edges_iff.1 member with ⟨old, -⟩ | rfl
      · exact live edge old
      · exact redirected.ends

theorem touches_finalizeBlock (finalized : finalizeBlock options draft number = .ok next) :
    Touches [number] draft next := by
  obtain ⟨block, -, folded⟩ := bind_eq_ok_iff.1 finalized
  exact foldlM_induct (motive := fun _ current => Touches [number] draft current) folded
    (.refl _ _) fun _ _ _ _ _ _ touches applied => touches.trans (taken_applyMarker applied).touches

theorem touches_foldlM_finalizeBlock {numbers : List Nat}
    (folded : numbers.foldlM (finalizeBlock options) draft = .ok next) :
    Touches numbers draft next := by
  refine foldlM_induct (motive := fun _ current => Touches numbers draft current) folded
    (.refl _ _) ?_
  rintro done number rest current following split touches finalized
  refine touches.trans ((touches_finalizeBlock finalized).mono ?_)
  simp [split]

/-! ## The other stages -/

theorem edges_reclassify (draft : Draft) : draft.reclassify.graph.edges = draft.graph.edges := by
  unfold reclassify
  generalize draft.graph.indices.filter (branchesBothWays draft.graph) = conditions
  refine List.foldlRecOn conditions _
    (motive := fun graph : Sketch Node BranchKind => graph.edges = draft.graph.edges) rfl ?_
  intro graph same index _
  split
  · rw [Sketch.edges_setNode, same]
  · exact same

theorem node?_foldl_condition (conditions : List Nat) (graph : Sketch Node BranchKind)
    (index : Nat) :
    (conditions.foldl (fun graph index =>
        match graph.node? index with
        | some node => graph.setNode index { node with kind := .condition }
        | none => graph) graph).node? index =
      (graph.node? index).map fun node =>
        if index ∈ conditions then { node with kind := .condition } else node := by
  induction conditions generalizing graph with
  | nil => simp
  | cons first rest ih =>
      rw [List.foldl_cons, ih]
      cases found : graph.node? first with
      | none => by_cases same : index = first <;> simp [same, found]
      | some node =>
          have present : graph.contains first = true := by simp [Sketch.contains, found]
          simp only [Sketch.node?_setNode present]
          by_cases same : index = first <;> simp [same, found]

theorem node?_reclassify (draft : Draft) (index : Nat) :
    draft.reclassify.graph.node? index = (draft.graph.node? index).map fun node =>
      if branchesBothWays draft.graph index = true then { node with kind := .condition }
      else node := by
  refine (node?_foldl_condition _ draft.graph index).trans ?_
  refine Option.map_congr fun node found => ?_
  have present : draft.graph.contains index = true := by simp [Sketch.contains, found]
  simp [Sketch.mem_indices_iff, present]

theorem contains_reclassify (draft : Draft) (index : Nat) :
    draft.reclassify.graph.contains index = draft.graph.contains index := by
  rw [Sketch.contains, Sketch.contains, node?_reclassify, Option.isSome_map]

theorem live_reclassify (live : draft.graph.Live) : draft.reclassify.graph.Live := by
  intro edge member
  rw [contains_reclassify, contains_reclassify]
  exact live edge (edges_reclassify draft ▸ member)

theorem sameOut_prune {source : Nat} (kept : draft.prune.graph.contains source = true) :
    Sketch.SameOut source draft.prune.graph draft.graph := by
  unfold prune at kept ⊢
  simp only [Sketch.contains_foldl_removeNode] at kept
  rintro edge rfl
  rw [Sketch.mem_edges_foldl_removeNode]
  refine and_iff_left_of_imp fun member index gone present => ?_
  refine ⟨fun heq => kept.2 (heq ▸ gone), ?_⟩
  rintro rfl
  obtain ⟨⟨block, number⟩, hfilter, hindex⟩ := List.mem_map.1 gone
  simp only [List.mem_filter, Bool.and_eq_true, beq_iff_eq, Sketch.inDegree,
    List.length_eq_zero_iff, List.filter_eq_nil_iff] at hfilter
  exact hfilter.2.1.2 edge member hindex.symm

theorem sealed_prune (isSealed : draft.Sealed) : draft.prune.Sealed where
  entry := fun edge member =>
    isSealed.entry edge (Sketch.mem_edges_foldl_removeNode.1 member).1
  exit := fun edge member =>
    isSealed.exit edge (Sketch.mem_edges_foldl_removeNode.1 member).1

end Draft

end StackFlow
