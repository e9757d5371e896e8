/-!
# Sorted sets

Finite sets as strictly ascending lists.

The list of a set is determined by its members, so equality of sets is equality of members
(`SortedSet.ext`), and everything that walks a set does so in ascending order.
-/

namespace StackFlow

def Ascends {α : Type} [Ord α] (first second : α) : Prop :=
  compare first second = .lt

structure SortedSet (α : Type) [Ord α] where
  toList : List α
  ascending : toList.Pairwise Ascends

namespace SortedSet

variable {α : Type} [Ord α]

instance [DecidableEq α] : DecidableEq (SortedSet α) := fun first second =>
  decidable_of_iff (first.toList = second.toList) <| by
    cases first
    cases second
    simp

def empty : SortedSet α :=
  ⟨[], .nil⟩

instance : EmptyCollection (SortedSet α) := ⟨empty⟩

instance : Inhabited (SortedSet α) := ⟨empty⟩

instance : Membership α (SortedSet α) := ⟨fun set item => item ∈ set.toList⟩

instance [DecidableEq α] (item : α) (set : SortedSet α) : Decidable (item ∈ set) :=
  inferInstanceAs (Decidable (item ∈ set.toList))

theorem mem_toList {set : SortedSet α} {item : α} : item ∈ set.toList ↔ item ∈ set :=
  Iff.rfl

@[simp] theorem not_mem_empty (item : α) : ¬ item ∈ (∅ : SortedSet α) :=
  List.not_mem_nil

def isEmpty (set : SortedSet α) : Bool :=
  set.toList.isEmpty

def contains [BEq α] (set : SortedSet α) (item : α) : Bool :=
  set.toList.contains item

def singleton (item : α) : SortedSet α :=
  ⟨[item], List.pairwise_singleton _ _⟩

@[simp] theorem mem_singleton {item other : α} : other ∈ singleton item ↔ other = item :=
  List.mem_singleton

def filter (keep : α → Bool) (set : SortedSet α) : SortedSet α :=
  ⟨set.toList.filter keep, set.ascending.filter _⟩

@[simp] theorem mem_filter {keep : α → Bool} {set : SortedSet α} {other : α} :
    other ∈ set.filter keep ↔ other ∈ set ∧ keep other = true :=
  List.mem_filter

def insertList (item : α) : List α → List α
  | [] => [item]
  | head :: tail =>
      match compare item head with
      | .lt => item :: head :: tail
      | .eq => head :: tail
      | .gt => head :: insertList item tail

variable [Std.LawfulEqOrd α]

theorem not_ascends_self (item : α) : ¬ Ascends item item := by
  simp [Ascends]

theorem nodup_toList (set : SortedSet α) : set.toList.Nodup := by
  refine set.ascending.imp fun ascends same => ?_
  subst same
  exact not_ascends_self _ ascends

@[simp] theorem mem_insertList {item other : α} {items : List α} :
    other ∈ insertList item items ↔ other = item ∨ other ∈ items := by
  induction items with
  | nil => simp [insertList]
  | cons head tail ih =>
      simp only [insertList]
      split
      · simp
      · have heq : item = head := Std.LawfulEqOrd.eq_of_compare ‹_›
        simp [heq]
      · simp only [List.mem_cons, ih]
        exact or_left_comm

variable [Std.TransOrd α]

theorem pairwise_insertList {item : α} {items : List α} (h : items.Pairwise Ascends) :
    (insertList item items).Pairwise Ascends := by
  induction items with
  | nil => simp [insertList]
  | cons head tail ih =>
      obtain ⟨hhead, htail⟩ := List.pairwise_cons.1 h
      simp only [insertList]
      split
      · rename_i hlt
        refine List.pairwise_cons.2 ⟨fun other hother => ?_, h⟩
        rcases List.mem_cons.1 hother with rfl | hother
        · exact hlt
        · exact Std.TransCmp.lt_trans hlt (hhead other hother)
      · exact h
      · rename_i hgt
        refine List.pairwise_cons.2 ⟨fun other hother => ?_, ih htail⟩
        rcases mem_insertList.1 hother with rfl | hother
        · exact Std.OrientedCmp.lt_of_gt hgt
        · exact hhead other hother

def insert (set : SortedSet α) (item : α) : SortedSet α :=
  ⟨insertList item set.toList, pairwise_insertList set.ascending⟩

@[simp] theorem mem_insert {set : SortedSet α} {item other : α} :
    other ∈ set.insert item ↔ other = item ∨ other ∈ set :=
  mem_insertList

def insertAll (set : SortedSet α) (items : List α) : SortedSet α :=
  items.foldl insert set

@[simp] theorem mem_insertAll {set : SortedSet α} {items : List α} {other : α} :
    other ∈ set.insertAll items ↔ other ∈ set ∨ other ∈ items := by
  induction items generalizing set with
  | nil => simp [insertAll]
  | cons head tail ih =>
      have hstep : set.insertAll (head :: tail) = (set.insert head).insertAll tail := rfl
      rw [hstep, ih, mem_insert, List.mem_cons]
      grind

def ofList (items : List α) : SortedSet α :=
  empty.insertAll items

@[simp] theorem mem_ofList {items : List α} {other : α} : other ∈ ofList items ↔ other ∈ items := by
  have h : other ∈ ofList items ↔ other ∈ (∅ : SortedSet α) ∨ other ∈ items := mem_insertAll
  simpa using h

def union (first second : SortedSet α) : SortedSet α :=
  first.insertAll second.toList

instance : Union (SortedSet α) := ⟨union⟩

@[simp] theorem mem_union {first second : SortedSet α} {other : α} :
    other ∈ first ∪ second ↔ other ∈ first ∨ other ∈ second :=
  mem_insertAll

theorem eq_of_mem_iff {first second : List α} (hfirst : first.Pairwise Ascends)
    (hsecond : second.Pairwise Ascends) (hmem : ∀ item, item ∈ first ↔ item ∈ second) :
    first = second := by
  induction first generalizing second with
  | nil =>
      cases second with
      | nil => rfl
      | cons y ys => exact absurd ((hmem y).2 List.mem_cons_self) List.not_mem_nil
  | cons x xs ih =>
      cases second with
      | nil => exact absurd ((hmem x).1 List.mem_cons_self) List.not_mem_nil
      | cons y ys =>
          obtain ⟨hx, hxs⟩ := List.pairwise_cons.1 hfirst
          obtain ⟨hy, hys⟩ := List.pairwise_cons.1 hsecond
          have hxy : x = y := by
            rcases List.mem_cons.1 ((hmem x).1 List.mem_cons_self) with hxy | hxy
            · exact hxy
            rcases List.mem_cons.1 ((hmem y).2 List.mem_cons_self) with hyx | hyx
            · exact hyx.symm
            exact absurd (Std.TransCmp.lt_trans (hx y hyx) (hy x hxy)) (not_ascends_self x)
          subst hxy
          refine congrArg (x :: ·) (ih hxs hys fun item => ?_)
          constructor
          · intro hitem
            rcases List.mem_cons.1 ((hmem item).1 (List.mem_cons_of_mem _ hitem)) with rfl | hin
            · exact absurd (hx item hitem) (not_ascends_self item)
            · exact hin
          · intro hitem
            rcases List.mem_cons.1 ((hmem item).2 (List.mem_cons_of_mem _ hitem)) with rfl | hin
            · exact absurd (hy item hitem) (not_ascends_self item)
            · exact hin

@[ext] theorem ext {first second : SortedSet α} (h : ∀ item, item ∈ first ↔ item ∈ second) :
    first = second := by
  obtain ⟨xs, hxs⟩ := first
  obtain ⟨ys, hys⟩ := second
  obtain rfl : xs = ys := eq_of_mem_iff hxs hys h
  rfl

end SortedSet

end StackFlow
