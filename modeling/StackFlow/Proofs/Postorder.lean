import Mathlib.Data.List.Perm.Subperm
import StackFlow.Graph.Postorder
import StackFlow.Proofs.Loop
import StackFlow.Proofs.Path

/-!
# The depth-first post-order

What a search adds to the nodes seen so far is described by `Search.Grows`, and the three ways in
which a search goes on keep that description: a node that was seen before, one visit after another,
and the visit to a new node around the visits to its successors.

The order lists exactly the nodes that can be reached, the root last.  A node other than the root
is entered from a predecessor that is left only later, and this is all that the computation of
dominators needs of the order.

When a node is left, its successors have been entered.  One that is not left by then lies on the
way from the root to the node.  So an edge leads to a node that comes earlier in the order or to one
from which a path leads back.

A search that keeps the nodes on its way in a stack, each with the position of the successor to look
at next (`Descent`), leaves the nodes in the same order, and its stack runs out.
-/

namespace StackFlow

variable {n : Nat} {succ : Fin n → List (Fin n)}

namespace Search

def enter (search : Search n) (node : Fin n) : Search n :=
  { search with seen := node :: search.seen }

def leave (search : Search n) (node : Fin n) : Search n :=
  { search with finished := search.finished ++ [node] }

section Visit

variable {search : Search n} {node : Fin n} {depth : Nat}

theorem visit_of_mem (old : node ∈ search.seen) : visit succ depth search node = search := by
  cases depth with
  | zero => rfl
  | succ depth => rw [visit, if_pos (List.contains_iff_mem.2 old)]

theorem visit_of_not_mem (new : node ∉ search.seen) :
    visit succ (depth + 1) search node =
      ((succ node).foldl (visit succ depth) (search.enter node)).leave node := by
  rw [visit, if_neg fun old => new (List.contains_iff_mem.1 old)]
  rfl

end Visit

/-- The search after visits to the given nodes in turn.  `fresh` are the nodes it has entered and
left on the way. -/
structure Grows (succ : Fin n → List (Fin n)) (roots : List (Fin n)) (before after : Search n)
    (fresh : List (Fin n)) : Prop where
  nodup : after.seen.Nodup
  seen : after.seen.Perm (fresh ++ before.seen)
  finished : after.finished = before.finished ++ fresh
  roots_seen : ∀ root ∈ roots, root ∈ after.seen
  closed : ∀ node ∈ fresh, ∀ next ∈ succ node, next ∈ after.seen
  reached : ∀ node ∈ fresh, ∃ root ∈ roots, Reaches succ root node
  entered : ∀ node ∈ fresh, node ∈ roots ∨
    ∃ previous, node ∈ succ previous ∧ [node, previous].Sublist fresh
  ordered : ∀ node ∈ fresh, ∀ next ∈ succ node,
    next ∈ before.seen ∨ [next, node].Sublist fresh ∨ Reaches succ next node

namespace Grows

variable {before middle after : Search n} {fresh more roots : List (Fin n)} {root node : Fin n}

theorem mem_seen (grows : Grows succ roots before after fresh) :
    node ∈ after.seen ↔ node ∈ fresh ∨ node ∈ before.seen := by
  rw [grows.seen.mem_iff, List.mem_append]

theorem length_le (grows : Grows succ roots before after fresh) :
    before.seen.length ≤ after.seen.length := by
  rw [grows.seen.length_eq, List.length_append]
  omega

theorem refl (nodup : before.seen.Nodup) (seen : ∀ root ∈ roots, root ∈ before.seen) :
    Grows succ roots before before [] where
  nodup := nodup
  seen := .refl _
  finished := (List.append_nil _).symm
  roots_seen := seen
  closed := by simp
  reached := by simp
  entered := by simp
  ordered := by simp

theorem cons (first : Grows succ [root] before middle fresh)
    (second : Grows succ roots middle after more) :
    Grows succ (root :: roots) before after (fresh ++ more) where
  nodup := second.nodup
  seen := by
    refine (second.seen.trans (first.seen.append_left more)).trans ?_
    rw [← List.append_assoc]
    exact List.perm_append_comm.append_right _
  finished := by rw [second.finished, first.finished, List.append_assoc]
  roots_seen := by
    intro other member
    rcases List.mem_cons.1 member with rfl | member
    · exact second.mem_seen.2 (.inr (first.roots_seen _ List.mem_cons_self))
    · exact second.roots_seen other member
  closed := by
    intro node member next edge
    rcases List.mem_append.1 member with member | member
    · exact second.mem_seen.2 (.inr (first.closed node member next edge))
    · exact second.closed node member next edge
  reached := by
    intro node member
    rcases List.mem_append.1 member with member | member
    · obtain ⟨other, hother, reaches⟩ := first.reached node member
      exact ⟨other, List.mem_cons.2 (.inl (List.mem_singleton.1 hother)), reaches⟩
    · obtain ⟨other, hother, reaches⟩ := second.reached node member
      exact ⟨other, List.mem_cons_of_mem _ hother, reaches⟩
  entered := by
    intro node member
    rcases List.mem_append.1 member with member | member
    · rcases first.entered node member with hroot | ⟨previous, edge, sublist⟩
      · exact .inl (List.mem_cons.2 (.inl (List.mem_singleton.1 hroot)))
      · exact .inr ⟨previous, edge, sublist.trans (List.sublist_append_left _ _)⟩
    · rcases second.entered node member with hroot | ⟨previous, edge, sublist⟩
      · exact .inl (List.mem_cons_of_mem _ hroot)
      · exact .inr ⟨previous, edge, sublist.trans (List.sublist_append_right _ _)⟩
  ordered := by
    intro node member next edge
    rcases List.mem_append.1 member with member | member
    · rcases first.ordered node member next edge with old | sublist | back
      · exact .inl old
      · exact .inr (.inl (sublist.trans (List.sublist_append_left _ _)))
      · exact .inr (.inr back)
    · rcases second.ordered node member next edge with old | sublist | back
      · -- what the first visit left comes before what the others leave
        rcases first.mem_seen.1 old with left | old
        · exact .inr (.inl
            ((List.singleton_sublist.2 left).append (List.singleton_sublist.2 member)))
        · exact .inl old
      · exact .inr (.inl (sublist.trans (List.sublist_append_right _ _)))
      · exact .inr (.inr back)

theorem enter (inner : Grows succ (succ root) (before.enter root) after fresh) :
    Grows succ [root] before (after.leave root) (fresh ++ [root]) where
  nodup := inner.nodup
  seen := by simpa [Search.enter, Search.leave] using inner.seen
  finished := by
    rw [Search.leave, inner.finished, Search.enter, List.append_assoc]
  roots_seen := by
    intro other member
    rw [List.mem_singleton.1 member]
    exact inner.mem_seen.2 (.inr List.mem_cons_self)
  closed := by
    intro node member next edge
    rcases List.mem_append.1 member with member | member
    · exact inner.closed node member next edge
    · rw [List.mem_singleton.1 member] at edge
      exact inner.roots_seen next edge
  reached := by
    intro node member
    refine ⟨root, List.mem_singleton_self root, ?_⟩
    rcases List.mem_append.1 member with member | member
    · obtain ⟨next, edge, reaches⟩ := inner.reached node member
      exact .head edge reaches
    · rw [List.mem_singleton.1 member]
      exact .refl root
  entered := by
    intro node member
    rcases List.mem_append.1 member with member | member
    · right
      rcases inner.entered node member with edge | ⟨previous, edge, sublist⟩
      · -- a successor of the root is left before the root
        refine ⟨root, edge, ?_⟩
        exact (List.singleton_sublist.2 member).append (.refl [root])
      · exact ⟨previous, edge, sublist.trans (List.sublist_append_left _ _)⟩
    · exact .inl member
  ordered := by
    intro node member next edge
    rcases List.mem_append.1 member with below | last
    · rcases inner.ordered node below next edge with old | sublist | back
      · rcases List.mem_cons.1 old with rfl | old
        · -- the visit is under way, and all that it enters is reached from its node
          obtain ⟨first, start, reaches⟩ := inner.reached node below
          exact .inr (.inr (.head start reaches))
        · exact .inl old
      · exact .inr (.inl (sublist.trans (List.sublist_append_left _ _)))
      · exact .inr (.inr back)
    · obtain rfl := List.mem_singleton.1 last
      rcases inner.mem_seen.1 (inner.roots_seen next edge) with left | old
      · exact .inr (.inl ((List.singleton_sublist.2 left).append (.refl _)))
      · rcases List.mem_cons.1 old with rfl | old
        · exact .inr (.inr (.refl _))
        · exact .inl old

end Grows

theorem mem_of_full {seen : List (Fin n)} (nodup : seen.Nodup) (full : n ≤ seen.length)
    (node : Fin n) : node ∈ seen := by
  have all : seen.Perm (List.finRange n) :=
    (nodup.subperm fun node _ => List.mem_finRange node).perm_of_length_le (by simpa using full)
  exact all.mem_iff.2 (List.mem_finRange node)

theorem foldl_visit_grows {succ : Fin n → List (Fin n)} {depth : Nat}
    (visits : ∀ search node, search.seen.Nodup → n ≤ depth + search.seen.length →
      ∃ fresh, Grows succ [node] search (visit succ depth search node) fresh)
    (roots : List (Fin n)) (search : Search n) (nodup : search.seen.Nodup)
    (enough : n ≤ depth + search.seen.length) :
    ∃ fresh, Grows succ roots search (roots.foldl (visit succ depth) search) fresh := by
  induction roots generalizing search with
  | nil => exact ⟨[], .refl nodup (by simp)⟩
  | cons root roots ih =>
      obtain ⟨fresh, first⟩ := visits search root nodup enough
      obtain ⟨more, second⟩ := ih _ first.nodup (by have := first.length_le; omega)
      exact ⟨_, first.cons second⟩

theorem visit_grows (succ : Fin n → List (Fin n)) (depth : Nat) (search : Search n) (node : Fin n)
    (nodup : search.seen.Nodup) (enough : n ≤ depth + search.seen.length) :
    ∃ fresh, Grows succ [node] search (visit succ depth search node) fresh := by
  induction depth generalizing search node with
  | zero =>
      have member : node ∈ search.seen := mem_of_full nodup (by omega) node
      exact ⟨[], .refl nodup (by simpa using member)⟩
  | succ depth ih =>
      by_cases member : node ∈ search.seen
      · rw [visit_of_mem member]
        exact ⟨[], .refl nodup (by simpa using member)⟩
      · rw [visit_of_not_mem member]
        obtain ⟨fresh, inner⟩ := foldl_visit_grows ih (succ node) (search.enter node)
          (List.nodup_cons.2 ⟨member, nodup⟩) (by rw [enter, List.length_cons]; omega)
        exact ⟨_, inner.enter⟩

end Search

/-! ## The stack -/

/-- A search with a stack under way.  A frame is a node and the position among its successors of the
one to look at next. -/
structure Descent (n : Nat) where
  visited : Vector Bool n
  order : List (Fin n)
  stack : List (Fin n × Nat)

namespace Descent

def start (root : Fin n) : Descent n :=
  { visited := (Vector.replicate n false).set root true root.isLt
    order := []
    stack := [(root, 0)] }

def turn (succ : Fin n → List (Fin n)) (descent : Descent n) : Descent n :=
  match descent.stack with
  | [] => descent
  | (node, position) :: below =>
      match (succ node)[position]? with
      | some child =>
          if descent.visited.get child then
            { descent with stack := (node, position + 1) :: below }
          else
            { descent with
              visited := descent.visited.set child true child.isLt
              stack := (child, 0) :: (node, position + 1) :: below }
      | none => { descent with order := descent.order ++ [node], stack := below }

end Descent

def Descends (succ : Fin n → List (Fin n)) : Descent n → Descent n → Prop :=
  Ends (fun descent => descent.stack ≠ []) fun descent next => next = descent.turn succ

namespace Search

variable {search : Search n} {node child : Fin n} {position depth : Nat}
  {below : List (Fin n × Nat)} {last : Descent n}

def withStack (search : Search n) (stack : List (Fin n × Nat)) : Descent n :=
  ⟨marks search.seen, search.finished, stack⟩

theorem turn_of_mem (next : (succ node)[position]? = some child) (old : child ∈ search.seen) :
    (search.withStack ((node, position) :: below)).turn succ =
      search.withStack ((node, position + 1) :: below) := by
  simp [withStack, Descent.turn, next, get_marks, old]

theorem turn_of_not_mem (next : (succ node)[position]? = some child)
    (new : child ∉ search.seen) :
    (search.withStack ((node, position) :: below)).turn succ =
      (search.enter child).withStack ((child, 0) :: (node, position + 1) :: below) := by
  simp [withStack, Descent.turn, next, get_marks, new, set_marks_true, enter]

theorem turn_of_none (none : (succ node)[position]? = none) :
    (search.withStack ((node, position) :: below)).turn succ =
      (search.leave node).withStack below := by
  simp [withStack, Descent.turn, none, leave]

theorem descends_of_foldl_visit
    (visits : ∀ search child below, search.seen.Nodup → n ≤ depth + search.seen.length →
      child ∉ search.seen → Descends succ ((visit succ depth search child).withStack below) last →
      Descends succ ((search.enter child).withStack ((child, 0) :: below)) last)
    {remaining : List (Fin n)} (left : (succ node).drop position = remaining)
    (nodup : search.seen.Nodup) (enough : n ≤ depth + search.seen.length)
    (rest : Descends succ
      (((remaining.foldl (visit succ depth) search).leave node).withStack below) last) :
    Descends succ (search.withStack ((node, position) :: below)) last := by
  -- the induction is on the successors of the topmost node that are still to be looked at
  induction remaining generalizing search position with
  | nil =>
      have none : (succ node)[position]? = none :=
        List.getElem?_eq_none (List.drop_eq_nil_iff.1 left)
      exact .turn (List.cons_ne_nil _ _) (turn_of_none none).symm rest
  | cons child remaining ih =>
      have next : (succ node)[position]? = some child := by
        rw [← List.head?_drop, left, List.head?_cons]
      have tail : (succ node).drop (position + 1) = remaining := by
        rw [← List.tail_drop, left, List.tail_cons]
      rw [List.foldl_cons] at rest
      by_cases old : child ∈ search.seen
      · rw [visit_of_mem old] at rest
        exact .turn (List.cons_ne_nil _ _) (turn_of_mem next old).symm
          (ih tail nodup enough rest)
      · obtain ⟨fresh, grows⟩ := visit_grows succ depth search child nodup enough
        have length := grows.length_le
        refine .turn (List.cons_ne_nil _ _) (turn_of_not_mem next old).symm ?_
        exact visits search child _ nodup enough old (ih tail grows.nodup (by omega) rest)

theorem descends_of_visit (nodup : search.seen.Nodup) (enough : n ≤ depth + search.seen.length)
    (new : node ∉ search.seen)
    (rest : Descends succ ((visit succ depth search node).withStack below) last) :
    Descends succ ((search.enter node).withStack ((node, 0) :: below)) last := by
  induction depth generalizing search node below with
  | zero => exact absurd (mem_of_full nodup (by omega) node) new
  | succ depth ih =>
      rw [visit_of_not_mem new] at rest
      refine descends_of_foldl_visit (fun _ _ _ => ih) rfl ?_ ?_ rest
      · exact List.nodup_cons.2 ⟨new, nodup⟩
      · rw [enter, List.length_cons]
        omega

end Search

theorem Search.mem_seen_visit_iff {root node : Fin n} :
    node ∈ (Search.visit succ n {} root).seen ↔ node ∈ postorder succ root := by
  obtain ⟨fresh, grows⟩ := Search.visit_grows succ n {} root .nil (by simp)
  rw [postorder, grows.finished, grows.mem_seen]
  simp

/-- The search with a stack comes to an end.  It has left the nodes in post-order then, and they are
the ones that it has marked. -/
theorem descends_start_iff (succ : Fin n → List (Fin n)) (root : Fin n) (last : Descent n) :
    Descends succ (.start root) last ↔
      last = ⟨marks (postorder succ root), postorder succ root, []⟩ := by
  have first : Descent.start root = (Search.enter {} root).withStack [(root, 0)] := by
    rw [Descent.start, ← marks_nil, set_marks_true]
    rfl
  have final : (Search.visit succ n {} root).withStack [] =
      ⟨marks (postorder succ root), postorder succ root, []⟩ := by
    rw [Search.withStack, marks_congr fun _ => Search.mem_seen_visit_iff]
    rfl
  rw [first, ← final]
  refine Ends.iff_eq (fun _ _ _ next other => next.trans other.symm) ?_
  exact Search.descends_of_visit .nil (by simp) List.not_mem_nil (.stop (not_not_intro rfl))

/-! ## The order -/

structure IsPostorder (succ : Fin n → List (Fin n)) (root : Fin n) (order : List (Fin n)) :
    Prop where
  nodup : order.Nodup
  mem_iff : ∀ node, node ∈ order ↔ Reaches succ root node
  root_last : ∃ start, order = start ++ [root]
  entered : ∀ node ∈ order, node ≠ root →
    ∃ previous, node ∈ succ previous ∧ [node, previous].Sublist order
  ordered : ∀ node ∈ order, ∀ next ∈ succ node,
    [next, node].Sublist order ∨ Reaches succ next node

theorem postorder_isPostorder (succ : Fin n → List (Fin n)) (root : Fin n) :
    IsPostorder succ root (postorder succ root) := by
  obtain ⟨fresh, grows⟩ := Search.visit_grows succ n {} root .nil (by simp)
  have order : postorder succ root = fresh := by simpa [postorder] using grows.finished
  have seen : ∀ node, node ∈ (Search.visit succ n {} root).seen ↔ node ∈ fresh := by
    intro node
    rw [Search.mem_seen_visit_iff, order]
  rw [order]
  refine ⟨by simpa using grows.seen.nodup_iff.1 grows.nodup, fun node => ⟨fun member => ?_,
    fun reaches => ?_⟩, ?_, fun node member ne => ?_, fun node member next edge => ?_⟩
  · obtain ⟨other, hother, reaches⟩ := grows.reached node member
    rwa [List.mem_singleton.1 hother] at reaches
  · refine reaches.mem_of_closed ((seen root).1 (grows.roots_seen root List.mem_cons_self)) ?_
    intro node member next edge
    exact (seen next).1 (grows.closed node member next edge)
  · cases n with
    | zero => exact root.elim0
    | succ depth =>
        rw [← order]
        exact ⟨_, rfl⟩
  · rcases grows.entered node member with hroot | before
    · exact absurd (List.mem_singleton.1 hroot) ne
    · exact before
  · exact (grows.ordered node member next edge).resolve_left List.not_mem_nil

namespace IsPostorder

variable {root node : Fin n} {order : List (Fin n)}

theorem idxOf_lt_of_sublist (isPostorder : IsPostorder succ root order) {first second : Fin n}
    (sublist : [first, second].Sublist order) : order.idxOf first < order.idxOf second := by
  obtain ⟨start, rest, rfl, head, tail⟩ := List.cons_sublist_iff.1 sublist
  have nodup := List.nodup_append.1 isPostorder.nodup
  have later : second ∉ start := fun member =>
    nodup.2.2 _ member _ (List.singleton_sublist.1 tail) rfl
  rw [List.idxOf_append_of_mem head, List.idxOf_append_of_notMem later]
  have := List.idxOf_lt_length_iff.2 head
  omega

theorem root_mem (isPostorder : IsPostorder succ root order) : root ∈ order :=
  (isPostorder.mem_iff root).2 (.refl root)

theorem idxOf_lt_idxOf_root (isPostorder : IsPostorder succ root order) (member : node ∈ order)
    (ne : node ≠ root) : order.idxOf node < order.idxOf root := by
  obtain ⟨start, rfl⟩ := isPostorder.root_last
  refine isPostorder.idxOf_lt_of_sublist ?_
  have before : node ∈ start := by simpa [ne] using member
  exact (List.singleton_sublist.2 before).append (.refl [root])

theorem getLast?_eq (isPostorder : IsPostorder succ root order) : order.getLast? = some root := by
  obtain ⟨start, rfl⟩ := isPostorder.root_last
  exact List.getLast?_concat

theorem idxOf_lt_or_reaches (isPostorder : IsPostorder succ root order) {next : Fin n}
    (reached : Reaches succ root node) (edge : next ∈ succ node) :
    order.idxOf next < order.idxOf node ∨ Reaches succ next node :=
  (isPostorder.ordered node ((isPostorder.mem_iff node).2 reached) next edge).imp_left
    isPostorder.idxOf_lt_of_sublist

end IsPostorder

/-- The post-order of a graph lists the nodes that can be reached once, the root last, and an edge
leads to an earlier node or to one from which a path leads back.  The post-order of the reverse
graph lists the nodes from which the root can be reached in the same way, and an edge comes from an
earlier node or from one to which a path leads. -/
theorem postorder_is_depth_first {ν ε : Type} (graph : Digraph n ν ε) (root : Fin n) :
    ((postorder graph.succ root).Nodup ∧
      (∀ node, node ∈ postorder graph.succ root ↔ Reaches graph.succ root node) ∧
      (postorder graph.succ root).getLast? = some root ∧
      ∀ node next, Reaches graph.succ root node → next ∈ graph.succ node →
        (postorder graph.succ root).idxOf next < (postorder graph.succ root).idxOf node ∨
          Reaches graph.succ next node) ∧
    (postorder graph.reverse.succ root).Nodup ∧
      (∀ node, node ∈ postorder graph.reverse.succ root ↔ Reaches graph.succ node root) ∧
      (postorder graph.reverse.succ root).getLast? = some root ∧
      ∀ previous node, Reaches graph.succ node root → node ∈ graph.succ previous →
        (postorder graph.reverse.succ root).idxOf previous <
            (postorder graph.reverse.succ root).idxOf node ∨
          Reaches graph.succ node previous := by
  have forward := postorder_isPostorder graph.succ root
  have backward := postorder_isPostorder graph.reverse.succ root
  refine ⟨⟨forward.nodup, forward.mem_iff, forward.getLast?_eq,
    fun node next => forward.idxOf_lt_or_reaches⟩,
    backward.nodup, fun node => ?_, backward.getLast?_eq, fun previous node reaches edge => ?_⟩
  · rw [backward.mem_iff, Digraph.reaches_reverse_iff]
  · have turned : previous ∈ graph.reverse.succ node := by
      rw [Digraph.succ_reverse]
      exact Digraph.mem_pred_iff_mem_succ.2 edge
    exact (backward.idxOf_lt_or_reaches (Digraph.reaches_reverse_iff.2 reaches) turned).imp_right
      Digraph.reaches_reverse_iff.1

end StackFlow
