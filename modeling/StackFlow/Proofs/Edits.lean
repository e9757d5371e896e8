import Mathlib.Data.List.Sort
import StackFlow.Proofs.Sketch

/-!
# Histories of a graph under construction

Whatever is done to an empty graph, no two of its edges have the same ends, all edges end at nodes,
and an index that is given out again belongs to no node (`Sketch.Sound`).  The frozen graph lists
the edges in order of their ends, so the lists that are stored for every node in one pass over the
edges ascend too.
-/

namespace StackFlow

variable {ν ε : Type}

def Edge.map {α β : Type} (move : α → β) (edge : Edge α ε) : Edge β ε :=
  ⟨move edge.source, move edge.target, edge.label⟩

def Edge.Before {α : Type} [LT α] (first second : Edge α ε) : Prop :=
  first.source < second.source ∨ first.source = second.source ∧ first.target < second.target

namespace Sketch

variable {sketch next : Sketch ν ε} {index other : Nat} {label : ν}

/-! ## Changes -/

inductive Edit (ν ε : Type) where
  | addNode (label : ν)
  | addEdge (source target : Nat) (label : ε)
  | setNode (index : Nat) (label : ν)
  | clearOut (index : Nat)
  | removeNode (index : Nat)
  deriving DecidableEq, Repr

def edit (sketch : Sketch ν ε) : Edit ν ε → Except Fault (Sketch ν ε)
  | .addNode label => .ok (sketch.addNode label)
  | .addEdge source target label => sketch.addEdge source target label
  | .setNode index label => .ok (sketch.setNode index label)
  | .clearOut index => .ok (sketch.clearOut index)
  | .removeNode index => .ok (sketch.removeNode index)

def ofEdits (edits : List (Edit ν ε)) : Except Fault (Sketch ν ε) :=
  edits.foldlM edit {}

structure Sound (sketch : Sketch ν ε) : Prop where
  simple : sketch.Simple
  live : sketch.Live
  nodup : sketch.free.Nodup
  free_iff : ∀ index, index ∈ sketch.free ↔
    index < sketch.slots.length ∧ sketch.contains index = false

theorem Sound.contains_nextIndex (sound : sketch.Sound) :
    sketch.contains sketch.nextIndex = false := by
  unfold nextIndex
  cases hfree : sketch.free with
  | nil => simp [contains, node?]
  | cons first rest => exact ((sound.free_iff first).1 (by simp [hfree])).2

theorem edges_addNode : (sketch.addNode label).edges = sketch.edges := by
  unfold addNode
  split <;> rfl

theorem node?_addNode (sound : sketch.Sound) :
    (sketch.addNode label).node? other =
      if other = sketch.nextIndex then some label else sketch.node? other := by
  unfold addNode nextIndex
  cases hfree : sketch.free with
  | nil =>
      rcases Nat.lt_trichotomy other sketch.slots.length with below | rfl | above
      · simp [node?, List.getElem?_append_left below, Nat.ne_of_lt below]
      · simp [node?]
      · simp [node?, Nat.ne_of_gt above, List.getElem?_eq_none (Nat.le_of_lt above),
          List.getElem?_eq_none (show (sketch.slots ++ [some label]).length ≤ other by simp; omega)]
  | cons first rest =>
      have bound := ((sound.free_iff first).1 (by simp [hfree])).1
      by_cases same : other = first
      · simp [node?, same, bound]
      · simp [node?, same, Ne.symm same]

theorem Sound.addNode (sound : sketch.Sound) (label : ν) : (sketch.addNode label).Sound where
  simple := by
    rw [Simple, edges_addNode]
    exact sound.simple
  live := by
    have keeps : ∀ index, sketch.contains index = true →
        (sketch.addNode label).contains index = true := by
      intro index present
      rw [contains, node?_addNode sound]
      split
      · rfl
      · exact present
    intro edge member
    have ends := sound.live edge (edges_addNode ▸ member)
    exact ⟨keeps _ ends.1, keeps _ ends.2⟩
  nodup := by
    unfold Sketch.addNode
    split
    · exact sound.nodup
    · next first rest hfree => exact (List.nodup_cons.1 (hfree ▸ sound.nodup)).2
  free_iff := by
    intro index
    have before := sound.free_iff index
    have nodup := sound.nodup
    rw [contains, node?_addNode sound]
    unfold Sketch.addNode nextIndex
    cases hfree : sketch.free with
    | nil =>
        rw [hfree, contains] at before
        by_cases same : index = sketch.slots.length
        · simp [same]
        · simp only [List.headD_nil, same, if_false, before, List.length_append,
            List.length_singleton]
          refine and_congr_left fun _ => ?_
          omega
    | cons first rest =>
        rw [hfree, contains] at before
        rw [hfree] at nodup
        by_cases same : index = first
        · simp [same, (List.nodup_cons.1 nodup).1]
        · simpa [same] using before

theorem Sound.addEdge {source target : Nat} {label : ε} (sound : sketch.Sound)
    (added : sketch.addEdge source target label = .ok next) : next.Sound := by
  have simple := sound.simple.addEdge added
  have live := sound.live.addEdge added
  rcases addEdge_eq_ok added with ⟨-, rfl⟩ | ⟨-, -, -, rfl⟩
  · exact sound
  · exact ⟨simple, live, sound.nodup, sound.free_iff⟩

theorem Sound.setNode (sound : sketch.Sound) (index : Nat) (label : ν) :
    (sketch.setNode index label).Sound := by
  by_cases present : sketch.contains index = true
  · have same : ∀ other, (sketch.setNode index label).contains other = sketch.contains other := by
      intro other
      rw [contains, node?_setNode present]
      split
      · next heq => rw [heq, present, Option.isSome_some]
      · rfl
    refine ⟨?_, fun edge member => ?_, ?_, fun other => ?_⟩
    · rw [Simple, edges_setNode]
      exact sound.simple
    · rw [same, same]
      exact sound.live edge (edges_setNode ▸ member)
    · rw [Sketch.setNode, if_pos present]
      exact sound.nodup
    · rw [same, Sketch.setNode, if_pos present, List.length_set]
      exact sound.free_iff other
  · rwa [Sketch.setNode, if_neg present]

theorem Sound.clearOut (sound : sketch.Sound) (index : Nat) : (sketch.clearOut index).Sound where
  simple := sound.simple.of_sublist List.filter_sublist
  live := fun edge member => sound.live edge (mem_edges_clearOut.1 member).1
  nodup := sound.nodup
  free_iff := sound.free_iff

theorem Sound.removeNode (sound : sketch.Sound) (index : Nat) :
    (sketch.removeNode index).Sound where
  simple := sound.simple.of_sublist sublist_edges_removeNode
  live := sound.live.removeNode index
  nodup := by
    unfold Sketch.removeNode
    split
    · next present =>
        refine List.nodup_cons.2 ⟨fun free => ?_, sound.nodup⟩
        rw [((sound.free_iff index).1 free).2] at present
        cases present
    · exact sound.nodup
  free_iff := by
    intro other
    rw [contains, node?_removeNode]
    unfold Sketch.removeNode
    split
    · next present =>
        have bound := lt_length_of_contains present
        by_cases heq : other = index
        · simp [heq, bound]
        · simpa [heq, contains] using sound.free_iff other
    · next absent =>
        rw [sound.free_iff other, contains]
        by_cases heq : other = index
        · simp [heq, Option.isSome_eq_false_iff, contains] at absent ⊢
          simp [absent]
        · simp [heq]

theorem Sound.edit {change : Edit ν ε} (sound : sketch.Sound)
    (edited : sketch.edit change = .ok next) : next.Sound := by
  cases change with
  | addNode label => exact Except.ok.inj edited ▸ sound.addNode label
  | addEdge source target label => exact sound.addEdge edited
  | setNode index label => exact Except.ok.inj edited ▸ sound.setNode index label
  | clearOut index => exact Except.ok.inj edited ▸ sound.clearOut index
  | removeNode index => exact Except.ok.inj edited ▸ sound.removeNode index

theorem sound_ofEdits {edits : List (Edit ν ε)} (ran : ofEdits edits = .ok sketch) :
    sketch.Sound := by
  have empty : Sound ({} : Sketch ν ε) :=
    ⟨List.Pairwise.nil, nofun, List.nodup_nil, by simp⟩
  exact foldlM_induct (motive := fun _ current => Sound current) ran empty
    fun _ _ _ _ _ _ sound edited => sound.edit edited

/-! ## Edges in order -/

theorem pairwise_insertByTarget {edge : Edge Nat ε} {edges : List (Edge Nat ε)}
    (sorted : edges.Pairwise fun first second => first.target ≤ second.target) :
    (insertByTarget edge edges).Pairwise fun first second => first.target ≤ second.target := by
  induction edges with
  | nil => simp [insertByTarget]
  | cons head rest ih =>
      obtain ⟨least, sortedRest⟩ := List.pairwise_cons.1 sorted
      rw [insertByTarget]
      split
      · next le =>
          refine List.pairwise_cons.2 ⟨fun later member => ?_, sorted⟩
          rcases List.mem_cons.1 member with rfl | member
          · exact le
          · exact Nat.le_trans le (least later member)
      · next gt =>
          refine List.pairwise_cons.2 ⟨fun later member => ?_, ih sortedRest⟩
          rcases mem_insertByTarget.1 member with rfl | member
          · omega
          · exact least later member

theorem pairwise_target_outEdges (sketch : Sketch ν ε) (index : Nat) :
    (sketch.outEdges index).Pairwise fun first second => first.target ≤ second.target := by
  unfold outEdges
  induction sketch.edges.filter fun edge => edge.source == index with
  | nil => exact List.Pairwise.nil
  | cons head rest ih => exact pairwise_insertByTarget ih

theorem Simple.pairwise_before (simple : sketch.Simple) :
    (sketch.indices.flatMap sketch.outEdges).Pairwise Edge.Before := by
  have sorted : (sketch.indices.flatMap sketch.outEdges).Pairwise fun first second =>
      first.source < second.source ∨
        first.source = second.source ∧ first.target ≤ second.target := by
    refine List.pairwise_flatMap.2 ⟨fun index _ => ?_, pairwise_indices.imp ?_⟩
    · refine (pairwise_target_outEdges sketch index).imp_of_mem ?_
      intro first second hfirst hsecond le
      rw [(mem_outEdges.1 hfirst).2, (mem_outEdges.1 hsecond).2]
      exact .inr ⟨rfl, le⟩
    · intro first second lt edge hedge other hother
      rw [(mem_outEdges.1 hedge).2, (mem_outEdges.1 hother).2]
      exact .inl lt
  refine (sorted.and simple.pairwise_outEdges).imp ?_
  rintro first second ⟨lt | ⟨same, le⟩, apart⟩
  · exact .inl lt
  · exact .inr ⟨same, Nat.lt_of_le_of_ne le (apart same)⟩

theorem Simple.nodup (simple : sketch.Simple) : sketch.edges.Nodup := by
  refine List.Pairwise.imp (fun apart same => ?_) simple
  exact apart (congrArg Edge.source same) (congrArg Edge.target same)

theorem Sound.perm_outEdges (sound : sketch.Sound) :
    (sketch.indices.flatMap sketch.outEdges).Perm sketch.edges := by
  have nodup : (sketch.indices.flatMap sketch.outEdges).Nodup := by
    refine sound.simple.pairwise_outEdges.imp fun apart same => ?_
    exact apart (congrArg Edge.source same) (congrArg Edge.target same)
  refine (List.perm_ext_iff_of_nodup nodup sound.simple.nodup).2 fun edge => ?_
  simp only [List.mem_flatMap, mem_outEdges, mem_indices_iff]
  constructor
  · rintro ⟨index, -, member, -⟩
    exact member
  · intro member
    exact ⟨edge.source, (sound.live edge member).1, member, rfl⟩

/-! ## The frozen graph -/

variable {frozen : Frozen ν ε}

theorem map_edges_freeze (froze : sketch.freeze = .ok frozen) :
    frozen.graph.edges.map (Edge.map frozen.indices.get) =
      sketch.indices.flatMap sketch.outEdges := by
  obtain ⟨edges, dense, built⟩ := bind_eq_ok_iff.1 froze
  obtain rfl := pure_eq_ok_iff.1 built
  exact (eq_map_of_mapM_eq_ok (fun _ _ => (denseEdge_eq_ok_iff nodup_indices).1) dense).symm

theorem get_lt_get_iff (froze : sketch.freeze = .ok frozen) {first second : Fin frozen.size} :
    frozen.indices.get first < frozen.indices.get second ↔ first < second := by
  have ascending : frozen.indices.Pairwise (· < ·) := freeze_indices froze ▸ pairwise_indices
  exact ascending.sortedLT.strictMono_get.lt_iff_lt

theorem get_inj (froze : sketch.freeze = .ok frozen) {first second : Fin frozen.size} :
    frozen.indices.get first = frozen.indices.get second ↔ first = second := by
  have nodup : frozen.indices.Nodup := freeze_indices froze ▸ nodup_indices
  exact nodup.injective_get.eq_iff

theorem Simple.before_freeze (simple : sketch.Simple) (froze : sketch.freeze = .ok frozen) :
    frozen.graph.edges.Pairwise Edge.Before := by
  have raw := simple.pairwise_before
  rw [← map_edges_freeze froze, List.pairwise_map] at raw
  refine raw.imp ?_
  rintro first second (lt | ⟨same, lt⟩)
  · exact .inl ((get_lt_get_iff froze).1 lt)
  · exact .inr ⟨(get_inj froze).1 same, (get_lt_get_iff froze).1 lt⟩

end Sketch

/-! ## Lists at the nodes -/

/-- The edges that leave and enter each node, by their numbers, and the nodes at their other
ends. -/
structure Incidence (n : Nat) where
  outEdges : Vector (List Nat) n
  inEdges : Vector (List Nat) n
  succ : Vector (List (Fin n)) n
  pred : Vector (List (Fin n)) n

namespace Incidence

variable {n : Nat} {α : Type}

def empty (n : Nat) : Incidence n :=
  ⟨.replicate n [], .replicate n [], .replicate n [], .replicate n []⟩

def append (table : Vector (List α) n) (node : Fin n) (item : α) : Vector (List α) n :=
  table.set node (table.get node ++ [item]) node.isLt

def add (lists : Incidence n) (edge : Edge (Fin n) ε) (number : Nat) : Incidence n :=
  { outEdges := append lists.outEdges edge.source number
    inEdges := append lists.inEdges edge.target number
    succ := append lists.succ edge.source edge.target
    pred := append lists.pred edge.target edge.source }

def ofEdges (edges : List (Edge (Fin n) ε)) : Incidence n :=
  edges.zipIdx.foldl (fun lists numbered => lists.add numbered.1 numbered.2) (empty n)

theorem get_append (table : Vector (List α) n) (node other : Fin n) (item : α) :
    (append table node item).get other =
      table.get other ++ if node = other then [item] else [] := by
  rw [append, get_set_node]
  by_cases same : other = node
  · simp [same]
  · simp [same, Ne.symm same]

theorem get_foldl_append {β : Type} (key : β → Fin n) (value : β → α) (items : List β)
    (table : Vector (List α) n) (node : Fin n) :
    (items.foldl (fun table item => append table (key item) (value item)) table).get node =
      table.get node ++ (items.filter fun item => key item == node).map value := by
  induction items generalizing table with
  | nil => simp
  | cons item items ih =>
      rw [List.foldl_cons, ih, get_append, List.append_assoc]
      by_cases here : key item = node <;> simp [here]

theorem get_ofEdges (table : Incidence n → Vector (List α) n) (key : Edge (Fin n) ε → Fin n)
    (value : Edge (Fin n) ε × Nat → α) (blank : table (empty n) = .replicate n [])
    (adds : ∀ lists edge number,
      table (add lists edge number) = append (table lists) (key edge) (value (edge, number)))
    (edges : List (Edge (Fin n) ε)) (node : Fin n) :
    (table (ofEdges edges)).get node =
      (edges.zipIdx.filter fun item => key item.1 == node).map value := by
  have stored := get_foldl_append (fun item : Edge (Fin n) ε × Nat => key item.1) value
    edges.zipIdx (.replicate n []) node
  rw [get_replicate_node, List.nil_append] at stored
  rw [← stored, ← blank, ofEdges]
  have hom : ∀ (lists : Incidence n) (item : Edge (Fin n) ε × Nat),
      append (table lists) (key item.1) (value item) = table (lists.add item.1 item.2) :=
    fun lists item => (adds lists item.1 item.2).symm
  rw [List.foldl_hom table hom]

end Incidence

namespace Digraph

variable {n : Nat} (graph : Digraph n ν ε) (node : Fin n)

theorem filter_zipIdx_fst (keep : Edge (Fin n) ε → Bool) :
    (graph.edges.zipIdx.filter fun item => keep item.1).map Prod.fst = graph.edges.filter keep := by
  conv_rhs => rw [← List.zipIdx_map_fst 0 graph.edges, List.filter_map]
  rfl

theorem getElem?_filter_zipIdx (keep : Edge (Fin n) ε → Bool) :
    (graph.edges.zipIdx.filter fun item => keep item.1).map (fun item => graph.edges[item.2]?) =
      (graph.edges.filter keep).map some := by
  rw [← filter_zipIdx_fst, List.map_map]
  refine List.map_congr_left fun item member => ?_
  exact List.mem_zipIdx_iff_getElem?.1 (List.mem_of_mem_filter member)

theorem incidence_ofEdges :
    ((Incidence.ofEdges graph.edges).outEdges.get node).map (graph.edges[·]?) =
      (graph.outEdges node).map some ∧
    ((Incidence.ofEdges graph.edges).inEdges.get node).map (graph.edges[·]?) =
      (graph.inEdges node).map some ∧
    (Incidence.ofEdges graph.edges).succ.get node = graph.succ node ∧
    (Incidence.ofEdges graph.edges).pred.get node = graph.pred node := by
  refine ⟨?_, ?_, ?_, ?_⟩
  · rw [Incidence.get_ofEdges Incidence.outEdges Edge.source Prod.snd rfl fun _ _ _ => rfl,
      List.map_map]
    exact graph.getElem?_filter_zipIdx fun edge => edge.source == node
  · rw [Incidence.get_ofEdges Incidence.inEdges Edge.target Prod.snd rfl fun _ _ _ => rfl,
      List.map_map]
    exact graph.getElem?_filter_zipIdx fun edge => edge.target == node
  · rw [Incidence.get_ofEdges Incidence.succ Edge.source (fun item => item.1.target) rfl
      fun _ _ _ => rfl, succ, outEdges, ← filter_zipIdx_fst, List.map_map]
    rfl
  · rw [Incidence.get_ofEdges Incidence.pred Edge.target (fun item => item.1.source) rfl
      fun _ _ _ => rfl, pred, inEdges, ← filter_zipIdx_fst, List.map_map]
    rfl

variable {graph} {node}

theorem pairwise_succ (ordered : graph.edges.Pairwise Edge.Before) :
    (graph.succ node).Pairwise (· < ·) := by
  refine List.pairwise_map.2 ((ordered.filter _).imp_of_mem ?_)
  intro first second hfirst hsecond before
  have source := beq_iff_eq.1 (List.mem_filter.1 hfirst).2
  have source' := beq_iff_eq.1 (List.mem_filter.1 hsecond).2
  rcases before with lt | ⟨-, lt⟩
  · exact absurd (source.trans source'.symm) (Fin.ne_of_lt lt)
  · exact lt

theorem pairwise_pred (ordered : graph.edges.Pairwise Edge.Before) :
    (graph.pred node).Pairwise (· < ·) := by
  refine List.pairwise_map.2 ((ordered.filter _).imp_of_mem ?_)
  intro first second hfirst hsecond before
  have target := beq_iff_eq.1 (List.mem_filter.1 hfirst).2
  have target' := beq_iff_eq.1 (List.mem_filter.1 hsecond).2
  rcases before with lt | ⟨-, lt⟩
  · exact lt
  · exact absurd (target.trans target'.symm) (Fin.ne_of_lt lt)

theorem mem_outEdges_iff {edge : Edge (Fin n) ε} :
    edge ∈ graph.outEdges node ↔ edge ∈ graph.edges ∧ edge.source = node := by
  simp [outEdges]

theorem mem_inEdges_iff {edge : Edge (Fin n) ε} :
    edge ∈ graph.inEdges node ↔ edge ∈ graph.edges ∧ edge.target = node := by
  simp [inEdges]

end Digraph

/-! ## All histories -/

namespace Sketch

variable {sketch : Sketch ν ε}

/-- Every history leaves a simple graph whose edges end at nodes.  Freezing it numbers the nodes
anew in their order and keeps their labels, lists the edges in order of their ends, and stores at
every node the edges there. -/
theorem ofEdits_freezes_in_order {edits : List (Edit ν ε)} (ran : ofEdits edits = .ok sketch) :
    (sketch.edges.Pairwise fun first second =>
      first.source = second.source → first.target ≠ second.target) ∧
    (∀ edge ∈ sketch.edges,
      sketch.contains edge.source = true ∧ sketch.contains edge.target = true) ∧
    sketch.contains sketch.nextIndex = false ∧
    ∃ frozen, sketch.freeze = .ok frozen ∧
      (∀ index, sketch.contains index = true ↔ ∃ node, frozen.node? index = some node) ∧
      (∀ index node, frozen.node? index = some node ↔ frozen.indices.get node = index) ∧
      (∀ first second : Fin frozen.size,
        frozen.indices.get first < frozen.indices.get second ↔ first < second) ∧
      (∀ node, sketch.node? (frozen.indices.get node) = some (frozen.graph.label node)) ∧
      (frozen.graph.edges.map (Edge.map frozen.indices.get)).Perm sketch.edges ∧
      (frozen.graph.edges.Pairwise fun first second => first.source < second.source ∨
        first.source = second.source ∧ first.target < second.target) ∧
      ∀ node,
        (∀ edge, edge ∈ frozen.graph.outEdges node ↔
          edge ∈ frozen.graph.edges ∧ edge.source = node) ∧
        (∀ edge, edge ∈ frozen.graph.inEdges node ↔
          edge ∈ frozen.graph.edges ∧ edge.target = node) ∧
        (∀ next, next ∈ frozen.graph.succ node ↔
          ∃ edge ∈ frozen.graph.edges, edge.source = node ∧ edge.target = next) ∧
        (∀ previous, previous ∈ frozen.graph.pred node ↔
          ∃ edge ∈ frozen.graph.edges, edge.target = node ∧ edge.source = previous) ∧
        (frozen.graph.succ node).Pairwise (· < ·) ∧
        (frozen.graph.pred node).Pairwise (· < ·) ∧
        ((Incidence.ofEdges frozen.graph.edges).outEdges.get node).map
            (frozen.graph.edges[·]?) = (frozen.graph.outEdges node).map some ∧
        ((Incidence.ofEdges frozen.graph.edges).inEdges.get node).map
            (frozen.graph.edges[·]?) = (frozen.graph.inEdges node).map some ∧
        (Incidence.ofEdges frozen.graph.edges).succ.get node = frozen.graph.succ node ∧
        (Incidence.ofEdges frozen.graph.edges).pred.get node = frozen.graph.pred node := by
  have sound := sound_ofEdits ran
  obtain ⟨frozen, froze⟩ := sound.live.exists_freeze
  have ordered := sound.simple.before_freeze froze
  refine ⟨sound.simple, sound.live, sound.contains_nextIndex, frozen, froze,
    fun index => (exists_node?_freeze_iff froze).symm, fun index node => node?_freeze_iff froze,
    fun first second => get_lt_get_iff froze, node?_eq_some_label froze, ?_, ordered,
    fun node => ?_⟩
  · rw [map_edges_freeze froze]
    exact sound.perm_outEdges
  · exact ⟨fun _ => Digraph.mem_outEdges_iff, fun _ => Digraph.mem_inEdges_iff,
      fun _ => Digraph.mem_succ, fun _ => Digraph.mem_pred, Digraph.pairwise_succ ordered,
      Digraph.pairwise_pred ordered, frozen.graph.incidence_ofEdges node⟩

/-- The last node that is added gets the index of the one removed last, and the other index that was
freed stays unused. -/
def reuseSample : List (Edit String String) :=
  [.addNode "a", .addNode "b", .addNode "c", .addNode "d", .addEdge 0 2 "e", .addEdge 0 2 "f",
    .addEdge 1 3 "g", .addEdge 3 0 "h", .removeNode 1, .removeNode 2, .addNode "k",
    .addEdge 3 2 "l", .addEdge 0 2 "m", .clearOut 2, .setNode 0 "n"]

theorem reuseSample_freezes_in_order :
    ∃ sketch frozen, ofEdits reuseSample = .ok sketch ∧ sketch.freeze = .ok frozen ∧
      sketch.indices = [0, 2, 3] ∧ sketch.free = [1] ∧
      sketch.edges = [⟨3, 0, "h"⟩, ⟨3, 2, "l"⟩, ⟨0, 2, "m"⟩] ∧
      (frozen.graph.edges.map (Edge.map frozen.indices.get)).Perm sketch.edges ∧
      (∀ first second : Fin frozen.size,
        frozen.indices.get first < frozen.indices.get second ↔ first < second) ∧
      ∀ node, (frozen.graph.pred node).Pairwise (· < ·) := by
  have run : succeedsWith (fun sketch => sketch.indices = [0, 2, 3] && sketch.free = [1] &&
      sketch.edges = [⟨3, 0, "h"⟩, ⟨3, 2, "l"⟩, ⟨0, 2, "m"⟩]) (ofEdits reuseSample) = true := by
    decide +kernel
  obtain ⟨sketch, ran, found⟩ := succeedsWith_iff.1 run
  simp only [Bool.and_eq_true, decide_eq_true_eq] at found
  obtain ⟨⟨indices, free⟩, edges⟩ := found
  obtain ⟨-, -, -, frozen, froze, -, -, order, -, perm, -, lists⟩ := ofEdits_freezes_in_order ran
  exact ⟨sketch, frozen, ran, froze, indices, free, edges, perm, order,
    fun node => (lists node).2.2.2.2.2.1⟩

end Sketch

end StackFlow
