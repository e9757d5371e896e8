import Mathlib.Data.List.Nodup
import StackFlow.Graph.Sketch
import StackFlow.Proofs.Checked

/-!
# Graphs under construction and their frozen form

What each change does to the nodes and edges, and how the frozen graph is read back: a frozen node
is a position in the ascending list of indices, and the frozen edges are the edges between the
nodes at these positions.
-/

namespace StackFlow

variable {ν ε : Type}

theorem pairwise_zipIdx {α : Type} (items : List α) :
    items.zipIdx.Pairwise fun first second => first.2 < second.2 := by
  rw [← List.pairwise_map (f := Prod.snd) (R := (· < ·)), List.zipIdx_map_snd]
  exact List.pairwise_lt_range'

namespace Sketch

variable {sketch next : Sketch ν ε} {source target index : Nat} {label : ε}

def Joins (sketch : Sketch ν ε) (source target : Nat) : Prop :=
  ∃ edge ∈ sketch.edges, edge.source = source ∧ edge.target = target

theorem hasEdge_iff : sketch.hasEdge source target = true ↔ sketch.Joins source target := by
  simp [hasEdge, Joins]

def SameOut (source : Nat) (first second : Sketch ν ε) : Prop :=
  ∀ edge : Edge Nat ε, edge.source = source → (edge ∈ first.edges ↔ edge ∈ second.edges)

theorem SameOut.joins_iff {first second : Sketch ν ε} (same : SameOut source first second) :
    first.Joins source target ↔ second.Joins source target := by
  refine exists_congr fun edge => and_congr_left fun ends => ?_
  exact same edge ends.1

theorem SameOut.trans {first second third : Sketch ν ε} (same : SameOut source first second)
    (next : SameOut source second third) : SameOut source first third :=
  fun edge leaves => (same edge leaves).trans (next edge leaves)

def OnlyEdge (sketch : Sketch ν ε) (edge : Edge Nat ε) : Prop :=
  ∀ other : Edge Nat ε, other.source = edge.source → (other ∈ sketch.edges ↔ other = edge)

theorem OnlyEdge.joins_iff (only : sketch.OnlyEdge ⟨source, target, label⟩) {other : Nat} :
    sketch.Joins source other ↔ other = target := by
  constructor
  · rintro ⟨edge, member, leaves, rfl⟩
    rw [(only edge leaves).1 member]
  · rintro rfl
    exact ⟨_, (only _ rfl).2 rfl, rfl, rfl⟩

theorem OnlyEdge.congr {edge : Edge Nat ε} (only : sketch.OnlyEdge edge)
    (same : SameOut edge.source next sketch) : next.OnlyEdge edge :=
  fun other leaves => (same other leaves).trans (only other leaves)

/-! ## Changes -/

theorem addEdge_eq_ok (added : sketch.addEdge source target label = .ok next) :
    sketch.Joins source target ∧ next = sketch ∨
      ¬ sketch.Joins source target ∧ sketch.contains source = true ∧
        sketch.contains target = true ∧
        next = { sketch with edges := sketch.edges ++ [⟨source, target, label⟩] } := by
  unfold addEdge at added
  split at added
  · next present => exact .inl ⟨hasEdge_iff.1 present, (Except.ok.inj added).symm⟩
  · next absent =>
      split at added
      · next ends =>
          rw [Bool.and_eq_true] at ends
          exact .inr ⟨fun joins => absent (hasEdge_iff.2 joins), ends.1, ends.2,
            (Except.ok.inj added).symm⟩
      · cases added

theorem joins_addEdge_iff (added : sketch.addEdge source target label = .ok next)
    {first second : Nat} :
    next.Joins first second ↔
      sketch.Joins first second ∨ source = first ∧ target = second := by
  rcases addEdge_eq_ok added with ⟨present, rfl⟩ | ⟨-, -, -, rfl⟩
  · refine (or_iff_left_of_imp ?_).symm
    rintro ⟨rfl, rfl⟩
    exact present
  · simp [Joins, or_and_right, exists_or]

theorem joins_addEdges_iff {edges : List (Edge Nat ε)} (added : sketch.addEdges edges = .ok next) :
    next.Joins source target ↔
      sketch.Joins source target ∨
        ∃ edge ∈ edges, edge.source = source ∧ edge.target = target := by
  induction edges generalizing sketch with
  | nil =>
      obtain rfl := Except.ok.inj added
      simp
  | cons edge edges ih =>
      obtain ⟨middle, first, rest⟩ := bind_eq_ok_iff.1 added
      rw [ih rest, joins_addEdge_iff first, or_assoc, List.exists_mem_cons_iff]

/-- Of the edges given for a pair the first is added.  So the labels that are added are the least,
if the edges of each pair come in the order of their labels. -/
theorem least_of_mem_edges_addEdges {rank : ε → Nat} {edges : List (Edge Nat ε)}
    (added : sketch.addEdges edges = .ok next)
    (ordered : edges.Pairwise fun first second => first.source = second.source →
      first.target = second.target → rank first.label ≤ rank second.label)
    {edge : Edge Nat ε} (member : edge ∈ next.edges) :
    edge ∈ sketch.edges ∨
      ¬ sketch.Joins edge.source edge.target ∧ edge ∈ edges ∧
        ∀ other ∈ edges, edge.source = other.source → edge.target = other.target →
          rank edge.label ≤ rank other.label := by
  induction edges generalizing sketch with
  | nil =>
      obtain rfl := Except.ok.inj added
      exact .inl member
  | cons head edges ih =>
      obtain ⟨middle, first, rest⟩ := bind_eq_ok_iff.1 added
      obtain ⟨least, ordered⟩ := List.pairwise_cons.1 ordered
      rcases ih rest ordered with old | ⟨fresh, member, below⟩
      · rcases addEdge_eq_ok first with ⟨-, rfl⟩ | ⟨fresh, -, -, rfl⟩
        · exact .inl old
        · rcases List.mem_append.1 old with old | new
          · exact .inl old
          · obtain rfl := List.mem_singleton.1 new
            refine .inr ⟨fresh, List.mem_cons_self, fun other member => ?_⟩
            rcases List.mem_cons.1 member with rfl | later
            · exact fun _ _ => Nat.le_refl _
            · exact least other later
      · -- the pair was not joined by the first edge
        rw [joins_addEdge_iff first, not_or] at fresh
        refine .inr ⟨fresh.1, List.mem_cons_of_mem _ member, fun other member => ?_⟩
        rcases List.mem_cons.1 member with rfl | later
        · exact fun source target => absurd ⟨source.symm, target.symm⟩ fresh.2
        · exact below other later

theorem mem_edges_clearOut {edge : Edge Nat ε} :
    edge ∈ (sketch.clearOut index).edges ↔ edge ∈ sketch.edges ∧ edge.source ≠ index := by
  simp [clearOut]

theorem node?_removeNode {other : Nat} :
    (sketch.removeNode index).node? other =
      if other = index then none else sketch.node? other := by
  unfold removeNode
  split
  · by_cases same : other = index
    · by_cases bound : index < sketch.slots.length <;> simp [node?, same, bound]
    · simp [node?, same, Ne.symm same]
  · next absent =>
      rw [contains, Bool.not_eq_true, Option.isSome_eq_false_iff,
        Option.isNone_iff_eq_none] at absent
      split
      · next same => rw [same, absent]
      · rfl

theorem contains_removeNode {other : Nat} :
    (sketch.removeNode index).contains other = true ↔
      sketch.contains other = true ∧ other ≠ index := by
  rw [contains, node?_removeNode, contains]
  split <;> simp [*]

theorem mem_edges_removeNode {edge : Edge Nat ε} :
    edge ∈ (sketch.removeNode index).edges ↔
      edge ∈ sketch.edges ∧
        (sketch.contains index = true → edge.source ≠ index ∧ edge.target ≠ index) := by
  unfold removeNode
  split <;> simp [*]

theorem node?_foldl_removeNode {gone : List Nat} {other : Nat} :
    (gone.foldl removeNode sketch).node? other =
      if other ∈ gone then none else sketch.node? other := by
  induction gone generalizing sketch with
  | nil => simp
  | cons index gone ih =>
      rw [List.foldl_cons, ih, node?_removeNode]
      by_cases later : other ∈ gone
      · simp [later]
      · by_cases now : other = index <;> simp [later, now]

theorem contains_foldl_removeNode {gone : List Nat} {other : Nat} :
    (gone.foldl removeNode sketch).contains other = true ↔
      sketch.contains other = true ∧ other ∉ gone := by
  rw [contains, node?_foldl_removeNode, contains]
  split <;> simp [*]

theorem mem_edges_foldl_removeNode {gone : List Nat} {edge : Edge Nat ε} :
    edge ∈ (gone.foldl removeNode sketch).edges ↔
      edge ∈ sketch.edges ∧ ∀ index ∈ gone, sketch.contains index = true →
        edge.source ≠ index ∧ edge.target ≠ index := by
  induction gone generalizing sketch with
  | nil => simp
  | cons index gone ih =>
      rw [List.foldl_cons, ih, mem_edges_removeNode, List.forall_mem_cons, and_assoc]
      refine and_congr_right fun _ => and_congr_right fun first => ?_
      refine forall_congr' fun other => forall_congr' fun _ => ?_
      rw [contains_removeNode, and_imp]
      constructor
      · intro rest present
        by_cases heq : other = index
        · exact heq ▸ first (heq ▸ present)
        · exact rest present heq
      · exact fun rest present _ => rest present

theorem edges_setNode {node : ν} : (sketch.setNode index node).edges = sketch.edges := by
  unfold setNode
  split <;> rfl

/-! ## Labels of nodes -/

theorem slots_addEdge (added : sketch.addEdge source target label = .ok next) :
    next.slots = sketch.slots := by
  rcases addEdge_eq_ok added with ⟨-, rfl⟩ | ⟨-, -, -, rfl⟩ <;> rfl

theorem slots_addEdges {edges : List (Edge Nat ε)} (added : sketch.addEdges edges = .ok next) :
    next.slots = sketch.slots := by
  induction edges generalizing sketch with
  | nil => rw [Except.ok.inj added]
  | cons edge edges ih =>
      obtain ⟨middle, first, rest⟩ := bind_eq_ok_iff.1 added
      rw [ih rest, slots_addEdge first]

theorem lt_length_of_contains (present : sketch.contains index = true) :
    index < sketch.slots.length := by
  by_contra past
  simp [contains, node?, List.getElem?_eq_none (Nat.not_lt.1 past)] at present

theorem node?_setNode {node : ν} (present : sketch.contains index = true) {other : Nat} :
    (sketch.setNode index node).node? other =
      if other = index then some node else sketch.node? other := by
  have bound := lt_length_of_contains present
  rw [setNode, if_pos present]
  by_cases same : other = index
  · simp [node?, same, bound]
  · simp [node?, same, Ne.symm same]

/-! ## Ends of edges -/

def Live (sketch : Sketch ν ε) : Prop :=
  ∀ edge ∈ sketch.edges,
    sketch.contains edge.source = true ∧ sketch.contains edge.target = true

theorem contains_congr (same : next.slots = sketch.slots) :
    next.contains index = sketch.contains index := by
  rw [contains, contains, node?, node?, same]

theorem exists_addEdge (label : ε)
    (ends : sketch.contains source = true ∧ sketch.contains target = true) :
    ∃ next, sketch.addEdge source target label = .ok next := by
  unfold addEdge
  split
  · exact ⟨_, rfl⟩
  · rw [if_pos (Bool.and_eq_true_iff.2 ends)]
    exact ⟨_, rfl⟩

theorem Live.addEdge (live : sketch.Live)
    (added : sketch.addEdge source target label = .ok next) : next.Live := by
  rcases addEdge_eq_ok added with ⟨-, rfl⟩ | ⟨-, hsource, htarget, rfl⟩
  · exact live
  · intro edge member
    rcases List.mem_append.1 member with old | new
    · exact live edge old
    · obtain rfl := List.mem_singleton.1 new
      exact ⟨hsource, htarget⟩

theorem Live.addEdges {edges : List (Edge Nat ε)} (live : sketch.Live)
    (added : sketch.addEdges edges = .ok next) : next.Live := by
  induction edges generalizing sketch with
  | nil => exact Except.ok.inj added ▸ live
  | cons edge edges ih =>
      obtain ⟨middle, first, rest⟩ := bind_eq_ok_iff.1 added
      exact ih (live.addEdge first) rest

theorem exists_addEdges {edges : List (Edge Nat ε)}
    (ends : ∀ edge ∈ edges,
      sketch.contains edge.source = true ∧ sketch.contains edge.target = true) :
    ∃ next, sketch.addEdges edges = .ok next := by
  induction edges generalizing sketch with
  | nil => exact ⟨sketch, rfl⟩
  | cons edge edges ih =>
      obtain ⟨middle, first⟩ := exists_addEdge edge.label (ends edge List.mem_cons_self)
      have same := slots_addEdge first
      obtain ⟨next, rest⟩ := @ih middle fun other member => by
        rw [contains_congr same, contains_congr same]
        exact ends other (List.mem_cons_of_mem _ member)
      exact ⟨next, bind_eq_ok_iff.2 ⟨middle, first, rest⟩⟩

theorem Live.removeNode (live : sketch.Live) (index : Nat) : (sketch.removeNode index).Live := by
  intro edge member
  obtain ⟨old, away⟩ := mem_edges_removeNode.1 member
  have ends := live edge old
  rw [contains_removeNode, contains_removeNode]
  refine ⟨⟨ends.1, ?_⟩, ends.2, ?_⟩
  · rintro rfl
    exact (away ends.1).1 rfl
  · rintro rfl
    exact (away ends.2).2 rfl

theorem Live.foldl_removeNode (live : sketch.Live) (gone : List Nat) :
    (gone.foldl Sketch.removeNode sketch).Live := by
  induction gone generalizing sketch with
  | nil => exact live
  | cons index gone ih => exact ih (live.removeNode index)

/-! ## Simple graphs -/

def Simple (sketch : Sketch ν ε) : Prop :=
  sketch.edges.Pairwise fun first second =>
    first.source = second.source → first.target ≠ second.target

theorem Simple.addEdge (simple : sketch.Simple)
    (added : sketch.addEdge source target label = .ok next) : next.Simple := by
  rcases addEdge_eq_ok added with ⟨-, rfl⟩ | ⟨fresh, -, -, rfl⟩
  · exact simple
  · refine List.pairwise_append.2 ⟨simple, List.pairwise_singleton _ _, ?_⟩
    intro edge member other new hsource htarget
    obtain rfl := List.mem_singleton.1 new
    exact fresh ⟨edge, member, hsource, htarget⟩

theorem Simple.addEdges {edges : List (Edge Nat ε)} (simple : sketch.Simple)
    (added : sketch.addEdges edges = .ok next) : next.Simple := by
  induction edges generalizing sketch with
  | nil => exact Except.ok.inj added ▸ simple
  | cons edge edges ih =>
      obtain ⟨middle, first, rest⟩ := bind_eq_ok_iff.1 added
      exact ih (simple.addEdge first) rest

theorem Simple.of_sublist (simple : sketch.Simple) (fewer : next.edges.Sublist sketch.edges) :
    next.Simple :=
  List.Pairwise.sublist fewer simple

theorem sublist_edges_removeNode : (sketch.removeNode index).edges.Sublist sketch.edges := by
  unfold removeNode
  split
  · exact List.filter_sublist
  · exact .refl _

theorem sublist_edges_foldl_removeNode {gone : List Nat} :
    (gone.foldl removeNode sketch).edges.Sublist sketch.edges := by
  induction gone generalizing sketch with
  | nil => exact .refl _
  | cons index gone ih => exact ih.trans sublist_edges_removeNode

/-! ## Reading a sketch -/

theorem mem_nodes_iff {node : ν} :
    (index, node) ∈ sketch.nodes ↔ sketch.node? index = some node := by
  simp only [nodes, List.mem_filterMap, Prod.exists, List.mem_zipIdx_iff_getElem?]
  constructor
  · rintro ⟨slot, position, found, mapped⟩
    obtain ⟨label, rfl, heq⟩ := Option.map_eq_some_iff.1 mapped
    obtain ⟨rfl, rfl⟩ := Prod.mk.inj heq
    simp [node?, found]
  · intro found
    refine ⟨some node, index, ?_, rfl⟩
    simpa [node?, Option.join_eq_some_iff] using found

theorem mem_indices_iff : index ∈ sketch.indices ↔ sketch.contains index = true := by
  rw [indices, List.mem_map, contains, Option.isSome_iff_exists]
  constructor
  · rintro ⟨⟨position, node⟩, member, rfl⟩
    exact ⟨node, mem_nodes_iff.1 member⟩
  · rintro ⟨node, found⟩
    exact ⟨(index, node), mem_nodes_iff.2 found, rfl⟩

theorem pairwise_indices : sketch.indices.Pairwise (· < ·) := by
  rw [indices, List.pairwise_map]
  refine (pairwise_zipIdx sketch.slots).filterMap _ ?_
  rintro ⟨slot, first⟩ ⟨slot', second⟩ lt ⟨i, node⟩ hnode ⟨j, node'⟩ hnode'
  simp only [Option.map_eq_some_iff, Prod.mk.injEq] at hnode hnode'
  obtain ⟨_, -, rfl, -⟩ := hnode
  obtain ⟨_, -, rfl, -⟩ := hnode'
  exact lt

theorem nodup_indices : sketch.indices.Nodup :=
  pairwise_indices.imp Nat.ne_of_lt

theorem mem_insertByTarget {edge other : Edge Nat ε} {edges : List (Edge Nat ε)} :
    other ∈ insertByTarget edge edges ↔ other = edge ∨ other ∈ edges := by
  induction edges with
  | nil => simp [insertByTarget]
  | cons head rest ih =>
      rw [insertByTarget]
      split
      · simp
      · rw [List.mem_cons, ih, List.mem_cons, or_left_comm]

theorem mem_outEdges {edge : Edge Nat ε} :
    edge ∈ sketch.outEdges index ↔ edge ∈ sketch.edges ∧ edge.source = index := by
  have sorted : ∀ edges : List (Edge Nat ε),
      edge ∈ edges.foldr insertByTarget [] ↔ edge ∈ edges := by
    intro edges
    induction edges with
    | nil => simp
    | cons head rest ih => rw [List.foldr_cons, mem_insertByTarget, ih, List.mem_cons]
  rw [outEdges, sorted, List.mem_filter, beq_iff_eq]

theorem perm_insertByTarget (edge : Edge Nat ε) (edges : List (Edge Nat ε)) :
    (insertByTarget edge edges).Perm (edge :: edges) := by
  induction edges with
  | nil => exact .refl _
  | cons head rest ih =>
      rw [insertByTarget]
      split
      · exact .refl _
      · exact (ih.cons head).trans (.swap edge head rest)

theorem perm_outEdges (sketch : Sketch ν ε) (index : Nat) :
    (sketch.outEdges index).Perm (sketch.edges.filter fun edge => edge.source == index) := by
  unfold outEdges
  induction sketch.edges.filter fun edge => edge.source == index with
  | nil => exact .refl _
  | cons head rest ih => exact (perm_insertByTarget head _).trans (ih.cons head)

theorem Simple.pairwise_outEdges (simple : sketch.Simple) :
    (sketch.indices.flatMap sketch.outEdges).Pairwise fun first second =>
      first.source = second.source → first.target ≠ second.target := by
  refine List.pairwise_flatMap.2 ⟨fun index _ => ?_, nodup_indices.imp ?_⟩
  · refine (List.Perm.pairwise_iff ?_ (perm_outEdges sketch index)).2 (simple.filter _)
    exact fun apart hsource htarget => apart hsource.symm htarget.symm
  · rintro first second ne edge member other hother hsource
    refine absurd ?_ ne
    rw [← (mem_outEdges.1 member).2, hsource, (mem_outEdges.1 hother).2]

end Sketch

/-! ## The frozen graph -/

theorem position?_eq_some_iff {items : List Nat} (nodup : items.Nodup) {item : Nat}
    {position : Fin items.length} : position? items item = some position ↔
      items.get position = item := by
  unfold position? StackFlow.node?
  constructor
  · intro found
    split at found
    · next bound =>
        rw [← Option.some.inj found]
        exact List.getElem_idxOf bound
    · cases found
  · rintro rfl
    have same : items.idxOf (items.get position) = position := by
      simpa using nodup.idxOf_getElem position.1 position.2
    rw [dif_pos (same ▸ position.isLt)]
    exact congrArg some (Fin.ext same)

namespace Sketch

variable {sketch : Sketch ν ε} {frozen : Frozen ν ε}

theorem freeze_indices (froze : sketch.freeze = .ok frozen) : frozen.indices = sketch.indices := by
  obtain ⟨edges, -, built⟩ := bind_eq_ok_iff.1 froze
  exact (congrArg Frozen.indices (pure_eq_ok_iff.1 built)).symm

theorem denseEdge_eq_ok_iff {indices : List Nat} (nodup : indices.Nodup) {edge : Edge Nat ε}
    {dense : Edge (Fin indices.length) ε} :
    denseEdge indices edge = .ok dense ↔
      edge = ⟨indices.get dense.source, indices.get dense.target, dense.label⟩ := by
  obtain ⟨source, target, label⟩ := edge
  obtain ⟨denseSource, denseTarget, denseLabel⟩ := dense
  simp only [denseEdge, bind_eq_ok_iff, Fault.require_eq_ok_iff, position?_eq_some_iff nodup,
    pure_eq_ok_iff, Edge.mk.injEq]
  constructor
  · rintro ⟨_, rfl, _, rfl, rfl, rfl, rfl⟩
    exact ⟨rfl, rfl, rfl⟩
  · rintro ⟨rfl, rfl, rfl⟩
    exact ⟨_, rfl, _, rfl, rfl, rfl, rfl⟩

theorem exists_position? {items : List Nat} {item : Nat} (member : item ∈ items) :
    ∃ position, position? items item = some position := by
  refine ⟨⟨items.idxOf item, List.idxOf_lt_length_iff.2 member⟩, ?_⟩
  rw [position?, StackFlow.node?, dif_pos (List.idxOf_lt_length_iff.2 member)]

theorem Live.exists_freeze (live : sketch.Live) : ∃ frozen, sketch.freeze = .ok frozen := by
  have each : ∀ edge ∈ sketch.indices.flatMap sketch.outEdges,
      ∃ dense, denseEdge sketch.indices edge = .ok dense := by
    intro edge listed
    obtain ⟨index, -, member⟩ := List.mem_flatMap.1 listed
    have ends := live edge (mem_outEdges.1 member).1
    obtain ⟨source, hsource⟩ := exists_position? (mem_indices_iff.2 ends.1)
    obtain ⟨target, htarget⟩ := exists_position? (mem_indices_iff.2 ends.2)
    exact ⟨⟨source, target, edge.label⟩,
      bind_eq_ok_iff.2 ⟨source, Fault.require_eq_ok_iff.2 hsource,
        bind_eq_ok_iff.2 ⟨target, Fault.require_eq_ok_iff.2 htarget, rfl⟩⟩⟩
  obtain ⟨edges, mapped⟩ := exists_mapM_eq_ok_iff.2 each
  exact ⟨_, bind_eq_ok_iff.2 ⟨edges, mapped, rfl⟩⟩

theorem mem_edges_freeze_iff (froze : sketch.freeze = .ok frozen)
    {edge : Edge (Fin frozen.size) ε} :
    edge ∈ frozen.graph.edges ↔
      ⟨frozen.indices.get edge.source, frozen.indices.get edge.target, edge.label⟩ ∈
        sketch.edges := by
  obtain ⟨edges, dense, built⟩ := bind_eq_ok_iff.1 froze
  obtain rfl := pure_eq_ok_iff.1 built
  change edge ∈ edges ↔ _
  rw [mem_of_mapM_eq_ok dense]
  simp only [denseEdge_eq_ok_iff nodup_indices, List.mem_flatMap, mem_outEdges]
  constructor
  · rintro ⟨raw, ⟨index, -, member, -⟩, rfl⟩
    exact member
  · intro member
    exact ⟨_, ⟨_, List.getElem_mem _, member, rfl⟩, rfl⟩

theorem Simple.nodup_freeze (simple : sketch.Simple) (froze : sketch.freeze = .ok frozen) :
    (frozen.graph.edges.map fun edge => (edge.source, edge.target)).Nodup := by
  obtain ⟨edges, dense, built⟩ := bind_eq_ok_iff.1 froze
  obtain rfl := pure_eq_ok_iff.1 built
  have raw := eq_map_of_mapM_eq_ok (fun _ _ => (denseEdge_eq_ok_iff nodup_indices).1) dense
  have apart := simple.pairwise_outEdges
  rw [raw, List.pairwise_map] at apart
  refine List.pairwise_map.2 (apart.imp fun {first second} apart same => ?_)
  obtain ⟨hsource, htarget⟩ := Prod.mk.inj same
  exact apart (congrArg sketch.indices.get hsource) (congrArg sketch.indices.get htarget)

theorem node?_eq_some_label (froze : sketch.freeze = .ok frozen) (node : Fin frozen.size) :
    sketch.node? (frozen.indices.get node) = some (frozen.graph.label node) := by
  obtain ⟨edges, -, built⟩ := bind_eq_ok_iff.1 froze
  obtain rfl := pure_eq_ok_iff.1 built
  have bound : node.val < sketch.nodes.length := by
    rw [← List.length_map (f := Prod.fst)]
    exact node.isLt
  have member : (sketch.indices.get node, (sketch.nodes.get ⟨node.val, bound⟩).2) ∈
      sketch.nodes := by
    have first : sketch.indices.get node = (sketch.nodes.get ⟨node.val, bound⟩).1 :=
      List.getElem_map _
    rw [first]
    exact List.get_mem sketch.nodes ⟨node.val, bound⟩
  rw [mem_nodes_iff.1 member]
  simp [Digraph.label, Vector.get]

theorem succ_freeze_iff (froze : sketch.freeze = .ok frozen) {source target : Fin frozen.size} :
    target ∈ frozen.graph.succ source ↔
      sketch.Joins (frozen.indices.get source) (frozen.indices.get target) := by
  rw [Digraph.mem_succ]
  constructor
  · rintro ⟨edge, member, rfl, rfl⟩
    exact ⟨_, (mem_edges_freeze_iff froze).1 member, rfl, rfl⟩
  · rintro ⟨⟨_, _, label⟩, member, rfl, rfl⟩
    exact ⟨⟨source, target, label⟩, (mem_edges_freeze_iff froze).2 member, rfl, rfl⟩

theorem node?_freeze_iff (froze : sketch.freeze = .ok frozen) {index : Nat}
    {node : Fin frozen.size} :
    frozen.node? index = some node ↔ frozen.indices.get node = index :=
  position?_eq_some_iff (freeze_indices froze ▸ nodup_indices)

theorem exists_node?_freeze_iff (froze : sketch.freeze = .ok frozen) {index : Nat} :
    (∃ node, frozen.node? index = some node) ↔ sketch.contains index = true := by
  rw [← mem_indices_iff, ← freeze_indices froze, List.mem_iff_get]
  simp only [node?_freeze_iff froze]

theorem exists_node_of_joins (froze : sketch.freeze = .ok frozen) {source : Fin frozen.size}
    {index : Nat} (joins : sketch.Joins (frozen.indices.get source) index) :
    ∃ node : Fin frozen.size, frozen.indices.get node = index := by
  obtain ⟨edges, dense, built⟩ := bind_eq_ok_iff.1 froze
  obtain rfl := pure_eq_ok_iff.1 built
  obtain ⟨edge, member, hsource, rfl⟩ := joins
  have listed : edge ∈ sketch.indices.flatMap sketch.outEdges :=
    List.mem_flatMap.2 ⟨_, List.get_mem sketch.indices source, mem_outEdges.2 ⟨member, hsource⟩⟩
  have succeeds : denseEdge sketch.indices edge ∈ edges.map .ok :=
    mapM_eq_ok_iff.1 dense ▸ List.mem_map_of_mem listed
  obtain ⟨found, -, heq⟩ := List.mem_map.1 succeeds
  rw [(denseEdge_eq_ok_iff nodup_indices).1 heq.symm]
  exact ⟨found.target, rfl⟩

end Sketch

end StackFlow
