import StackFlow.Sorted.Set

/-!
# Sorted maps

Finite maps as association lists with strictly ascending keys.

A map is determined by its look-ups (`SortedMap.ext`), and everything that walks a map does so in
ascending order of the keys.  A key that maps to an empty collection is present all the same.
-/

namespace StackFlow

structure SortedMap (κ : Type) [Ord κ] (β : Type) where
  entries : List (κ × β)
  ascending : entries.Pairwise fun first second => Ascends first.1 second.1

namespace SortedMap

variable {κ β : Type} [Ord κ]

instance [DecidableEq κ] [DecidableEq β] : DecidableEq (SortedMap κ β) := fun first second =>
  decidable_of_iff (first.entries = second.entries) <| by
    cases first
    cases second
    simp

def empty : SortedMap κ β :=
  ⟨[], .nil⟩

instance : EmptyCollection (SortedMap κ β) := ⟨empty⟩

instance : Inhabited (SortedMap κ β) := ⟨empty⟩

def isEmpty (map : SortedMap κ β) : Bool :=
  map.entries.isEmpty

def lookup (key : κ) : List (κ × β) → Option β
  | [] => none
  | (head, value) :: rest => if compare key head = .eq then some value else lookup key rest

def get? (map : SortedMap κ β) (key : κ) : Option β :=
  lookup key map.entries

def Lists {α : Type} [Ord α] (map : SortedMap κ (SortedSet α)) (key : κ) (item : α) : Prop :=
  ∃ items, map.get? key = some items ∧ item ∈ items

theorem not_lists_empty {α : Type} [Ord α] {key : κ} {item : α} :
    ¬ (∅ : SortedMap κ (SortedSet α)).Lists key item := by
  rintro ⟨items, found, -⟩
  cases found

def putList (key : κ) (value : β) : List (κ × β) → List (κ × β)
  | [] => [(key, value)]
  | (head, old) :: rest =>
      match compare key head with
      | .lt => (key, value) :: (head, old) :: rest
      | .eq => (key, value) :: rest
      | .gt => (head, old) :: putList key value rest

theorem mem_putList {key : κ} {value : β} {entries : List (κ × β)} {entry : κ × β}
    (h : entry ∈ putList key value entries) : entry = (key, value) ∨ entry ∈ entries := by
  induction entries with
  | nil => simpa [putList] using h
  | cons head rest ih =>
      obtain ⟨head, old⟩ := head
      simp only [putList] at h
      split at h
      · simpa using h
      · rcases List.mem_cons.1 h with h | h
        · exact .inl h
        · exact .inr (List.mem_cons_of_mem _ h)
      · rcases List.mem_cons.1 h with h | h
        · exact .inr (h ▸ List.mem_cons_self)
        · exact (ih h).imp id (List.mem_cons_of_mem _)

theorem lookup_eq_none_of_lt {key : κ} {entries : List (κ × β)}
    (h : ∀ entry ∈ entries, Ascends key entry.1) : lookup key entries = none := by
  induction entries with
  | nil => rfl
  | cons head rest ih =>
      obtain ⟨head, value⟩ := head
      have hhead : compare key head = .lt := h (head, value) List.mem_cons_self
      simp [lookup, hhead, ih fun entry hentry => h entry (List.mem_cons_of_mem _ hentry)]

variable [Std.LawfulEqOrd κ]

theorem lookup_putList_self (key : κ) (value : β) (entries : List (κ × β)) :
    lookup key (putList key value entries) = some value := by
  induction entries with
  | nil => simp [putList, lookup]
  | cons head rest ih =>
      obtain ⟨head, old⟩ := head
      simp only [putList]
      split
      · simp [lookup]
      · simp [lookup]
      · rename_i hgt
        simp [lookup, hgt, ih]

theorem lookup_putList_ne {key other : κ} (h : other ≠ key) (value : β)
    (entries : List (κ × β)) :
    lookup other (putList key value entries) = lookup other entries := by
  induction entries with
  | nil => simp [putList, lookup, h]
  | cons head rest ih =>
      obtain ⟨head, old⟩ := head
      simp only [putList]
      split
      · simp [lookup, h]
      · rename_i heq
        have hkey : key = head := Std.LawfulEqOrd.eq_of_compare heq
        subst hkey
        simp [lookup, h]
      · simp only [lookup, ih]

theorem lookup_eq_some_iff {key : κ} {value : β} {entries : List (κ × β)}
    (h : entries.Pairwise fun first second => Ascends first.1 second.1) :
    lookup key entries = some value ↔ (key, value) ∈ entries := by
  induction entries with
  | nil => simp [lookup]
  | cons head rest ih =>
      obtain ⟨hhead, hrest⟩ := List.pairwise_cons.1 h
      obtain ⟨head, old⟩ := head
      by_cases hkey : key = head
      · subst hkey
        have absent : (key, value) ∉ rest := fun hmem =>
          SortedSet.not_ascends_self key (hhead _ hmem)
        simp [lookup, absent, eq_comm]
      · simp [lookup, hkey, ih hrest]

theorem mem_entries_iff {map : SortedMap κ β} {key : κ} {value : β} :
    (key, value) ∈ map.entries ↔ map.get? key = some value :=
  (lookup_eq_some_iff map.ascending).symm

variable [Std.TransOrd κ]

theorem pairwise_putList {key : κ} {value : β} {entries : List (κ × β)}
    (h : entries.Pairwise fun first second => Ascends first.1 second.1) :
    (putList key value entries).Pairwise fun first second => Ascends first.1 second.1 := by
  induction entries with
  | nil => simp [putList]
  | cons head rest ih =>
      obtain ⟨hhead, hrest⟩ := List.pairwise_cons.1 h
      obtain ⟨head, old⟩ := head
      simp only [putList]
      split
      · rename_i hlt
        refine List.pairwise_cons.2 ⟨fun other hother => ?_, h⟩
        rcases List.mem_cons.1 hother with rfl | hother
        · exact hlt
        · exact Std.TransCmp.lt_trans hlt (hhead other hother)
      · rename_i heq
        have hkey : key = head := Std.LawfulEqOrd.eq_of_compare heq
        subst hkey
        exact List.pairwise_cons.2 ⟨fun other hother => hhead other hother, hrest⟩
      · rename_i hgt
        refine List.pairwise_cons.2 ⟨fun other hother => ?_, ih hrest⟩
        rcases mem_putList hother with rfl | hother
        · exact Std.OrientedCmp.lt_of_gt hgt
        · exact hhead other hother

def insert (map : SortedMap κ β) (key : κ) (value : β) : SortedMap κ β :=
  ⟨putList key value map.entries, pairwise_putList map.ascending⟩

theorem get?_insert_self (map : SortedMap κ β) (key : κ) (value : β) :
    (map.insert key value).get? key = some value :=
  lookup_putList_self key value map.entries

theorem get?_insert_ne (map : SortedMap κ β) {key other : κ} (h : other ≠ key) (value : β) :
    (map.insert key value).get? other = map.get? other :=
  lookup_putList_ne h value map.entries

/-- What two maps together hold at a key: `join` decides where both hold something. -/
def merged (join : β → β → β) : Option β → Option β → Option β
  | none, second => second
  | first, none => first
  | some first, some second => some (join first second)

def insertWith (join : β → β → β) (map : SortedMap κ β) (key : κ) (value : β) : SortedMap κ β :=
  map.insert key <|
    match map.get? key with
    | none => value
    | some old => join old value

theorem get?_insertWith_self (join : β → β → β) (map : SortedMap κ β) (key : κ) (value : β) :
    (map.insertWith join key value).get? key = merged join (map.get? key) (some value) := by
  rw [insertWith, get?_insert_self]
  cases map.get? key <;> rfl

theorem get?_insertWith_ne (join : β → β → β) (map : SortedMap κ β) {key other : κ}
    (h : other ≠ key) (value : β) :
    (map.insertWith join key value).get? other = map.get? other :=
  get?_insert_ne map h _

theorem lists_insertWith_iff {α : Type} [Ord α] [Std.LawfulEqOrd α] [Std.TransOrd α]
    {map : SortedMap κ (SortedSet α)} {key other : κ} {item added : α} :
    (map.insertWith (· ∪ ·) key (.singleton added)).Lists other item ↔
      other = key ∧ item = added ∨ map.Lists other item := by
  unfold Lists
  by_cases same : other = key
  · subst same
    rw [get?_insertWith_self]
    cases map.get? other <;> simp [merged, or_comm]
  · simp [get?_insertWith_ne _ _ same, same]

def unionWith (join : β → β → β) (first second : SortedMap κ β) : SortedMap κ β :=
  second.entries.foldl (fun map entry => map.insertWith join entry.1 entry.2) first

theorem get?_foldl_insertWith (join : β → β → β) (entries : List (κ × β)) (map : SortedMap κ β)
    (h : entries.Pairwise fun first second => Ascends first.1 second.1) (key : κ) :
    (entries.foldl (fun map entry => map.insertWith join entry.1 entry.2) map).get? key =
      merged join (map.get? key) (lookup key entries) := by
  induction entries generalizing map with
  | nil => cases hget : map.get? key <;> simp [hget, lookup, merged]
  | cons head rest ih =>
      obtain ⟨hhead, hrest⟩ := List.pairwise_cons.1 h
      obtain ⟨head, value⟩ := head
      rw [List.foldl_cons, ih _ hrest]
      by_cases hkey : key = head
      · subst hkey
        rw [get?_insertWith_self, lookup_eq_none_of_lt hhead]
        cases hget : map.get? key <;> simp [lookup, merged]
      · rw [get?_insertWith_ne join map hkey]
        simp [lookup, hkey]

theorem get?_unionWith (join : β → β → β) (first second : SortedMap κ β) (key : κ) :
    (first.unionWith join second).get? key = merged join (first.get? key) (second.get? key) :=
  get?_foldl_insertWith join second.entries first second.ascending key

theorem eq_of_lookup_eq {first second : List (κ × β)}
    (hfirst : first.Pairwise fun first second => Ascends first.1 second.1)
    (hsecond : second.Pairwise fun first second => Ascends first.1 second.1)
    (h : ∀ key, lookup key first = lookup key second) : first = second := by
  induction first generalizing second with
  | nil =>
      cases second with
      | nil => rfl
      | cons head rest =>
          have hhead := h head.1
          simp [lookup] at hhead
  | cons x xs ih =>
      cases second with
      | nil =>
          have hhead := h x.1
          simp [lookup] at hhead
      | cons y ys =>
          obtain ⟨kx, vx⟩ := x
          obtain ⟨ky, vy⟩ := y
          obtain ⟨hx, hxs⟩ := List.pairwise_cons.1 hfirst
          obtain ⟨hy, hys⟩ := List.pairwise_cons.1 hsecond
          have hkey : kx = ky := by
            cases hcmp : compare kx ky with
            | eq => exact Std.LawfulEqOrd.eq_of_compare hcmp
            | lt =>
                have hnone : lookup kx ((ky, vy) :: ys) = none := by
                  refine lookup_eq_none_of_lt fun entry hentry => ?_
                  rcases List.mem_cons.1 hentry with rfl | hentry
                  · exact hcmp
                  · exact Std.TransCmp.lt_trans hcmp (hy entry hentry)
                have hsome := h kx
                rw [hnone] at hsome
                simp [lookup] at hsome
            | gt =>
                have hlt : compare ky kx = .lt := Std.OrientedCmp.lt_of_gt hcmp
                have hnone : lookup ky ((kx, vx) :: xs) = none := by
                  refine lookup_eq_none_of_lt fun entry hentry => ?_
                  rcases List.mem_cons.1 hentry with rfl | hentry
                  · exact hlt
                  · exact Std.TransCmp.lt_trans hlt (hx entry hentry)
                have hsome := h ky
                rw [hnone] at hsome
                simp [lookup] at hsome
          subst hkey
          have hvalue := h kx
          simp only [lookup, Std.ReflOrd.compare_self, if_true, Option.some.injEq] at hvalue
          subst hvalue
          refine congrArg ((kx, vx) :: ·) (ih hxs hys fun key => ?_)
          by_cases hkey : key = kx
          · subst hkey
            rw [lookup_eq_none_of_lt hx, lookup_eq_none_of_lt hy]
          · have hrest := h key
            simpa [lookup, hkey] using hrest

@[ext] theorem ext {first second : SortedMap κ β} (h : ∀ key, first.get? key = second.get? key) :
    first = second := by
  obtain ⟨xs, hxs⟩ := first
  obtain ⟨ys, hys⟩ := second
  obtain rfl : xs = ys := eq_of_lookup_eq hxs hys h
  rfl

end SortedMap

end StackFlow
