import Mathlib.Data.Finset.Card
import Mathlib.Data.Finset.Range
import Mathlib.Logic.Relation
import StackFlow.Proofs.Sketch

/-!
# Reachability against the edges

The search goes back from a node level by level.  All nodes that it finds lead to the start, and
when it ends, either a level found nothing new, so that what was found is closed under predecessors,
or there is no node left to find.
-/

namespace StackFlow.Sketch

variable {ν ε : Type} {sketch : Sketch ν ε} {start index member : Nat} {seen level : List Nat}

def Leads (sketch : Sketch ν ε) : Nat → Nat → Prop :=
  Relation.TransGen sketch.Joins

theorem mem_pred_iff : member ∈ sketch.pred index ↔ sketch.Joins member index := by
  simp only [pred, SortedSet.mem_ofList, List.mem_map, List.mem_filter, beq_iff_eq, Joins]
  constructor
  · rintro ⟨edge, ⟨found, htarget⟩, hsource⟩
    exact ⟨edge, found, hsource, htarget⟩
  · rintro ⟨edge, found, hsource, htarget⟩
    exact ⟨edge, ⟨found, htarget⟩, hsource⟩

/-! ## One level -/

theorem mem_discover_iff :
    member ∈ sketch.discover seen level ↔
      (∃ index ∈ level, sketch.Joins member index) ∧ member ∉ seen := by
  induction level generalizing seen with
  | nil => simp [discover]
  | cons index rest ih =>
      simp only [discover, List.mem_append, ih, List.mem_filter, Bool.not_eq_true',
        SortedSet.mem_toList, mem_pred_iff, List.exists_mem_cons_iff]
      grind

theorem nodup_discover : (sketch.discover seen level).Nodup := by
  induction level generalizing seen with
  | nil => exact List.nodup_nil
  | cons index rest ih =>
      refine ((sketch.pred _).nodup_toList.filter _).append ih fun member here later => ?_
      exact (mem_discover_iff.1 later).2 (List.mem_append_right _ here)

/-! ## The whole search -/

theorem sweep_nil {depth : Nat} : sketch.sweep depth seen [] = [] := by
  cases depth <;> rfl

theorem sweep_succ {depth : Nat} :
    sketch.sweep (depth + 1) seen level = sketch.discover seen level ++
      sketch.sweep depth (seen ++ sketch.discover seen level) (sketch.discover seen level) := by
  rw [sweep]
  split
  · next none => rw [none, sweep_nil, List.append_nil]
  · rfl

theorem leads_of_mem_sweep {depth : Nat} (member_sweep : member ∈ sketch.sweep depth seen level)
    (reached : ∀ index ∈ level, index = start ∨ sketch.Leads index start) :
    sketch.Leads member start := by
  induction depth generalizing seen level with
  | zero => cases member_sweep
  | succ depth ih =>
      have found : ∀ index ∈ sketch.discover seen level, sketch.Leads index start := by
        intro index hindex
        obtain ⟨⟨next, hnext, joins⟩, -⟩ := mem_discover_iff.1 hindex
        rcases reached next hnext with rfl | leads
        · exact .single joins
        · exact .head joins leads
      rw [sweep_succ] at member_sweep
      rcases List.mem_append.1 member_sweep with here | later
      · exact found member here
      · exact ih later fun index hindex => .inr (found index hindex)

theorem mem_of_nodup_of_lt {bound : Nat} (nodup : seen.Nodup)
    (below : ∀ index ∈ seen, index < bound) (full : bound ≤ seen.length) (lt : member < bound) :
    member ∈ seen := by
  have subset : seen.toFinset ⊆ Finset.range bound := by
    intro index hindex
    exact Finset.mem_range.2 (below index (List.mem_toFinset.1 hindex))
  have card : (Finset.range bound).card ≤ seen.toFinset.card := by
    rw [Finset.card_range, List.toFinset_card_of_nodup nodup]
    exact full
  rw [← List.mem_toFinset, Finset.eq_of_subset_of_card_le subset card]
  exact Finset.mem_range.2 lt

theorem lt_length_of_joins (live : sketch.Live) (joins : sketch.Joins member index) :
    member < sketch.slots.length := by
  obtain ⟨edge, found, rfl, -⟩ := joins
  exact lt_length_of_contains (live edge found).1

/-- The search under way: the predecessors of all nodes that were expanded have been seen, and the
nodes that have been seen are expanded or in the level. -/
structure Searching (sketch : Sketch ν ε) (start : Nat) (expanded : Nat → Prop)
    (seen level : List Nat) : Prop where
  nodup : seen.Nodup
  below : ∀ index ∈ seen, index < sketch.slots.length
  first : expanded start ∨ start ∈ level
  closed : ∀ index, expanded index → ∀ previous, sketch.Joins previous index → previous ∈ seen
  inside : ∀ index ∈ seen, expanded index ∨ index ∈ level

theorem searching_start (sketch : Sketch ν ε) (start : Nat) :
    sketch.Searching start (fun _ => False) [] [start] :=
  ⟨List.nodup_nil, nofun, .inr (List.mem_singleton_self start), nofun, nofun⟩

namespace Searching

variable {expanded : Nat → Prop} (searching : sketch.Searching start expanded seen level)

include searching

theorem mem_of_joins (known : expanded index ∨ index ∈ level) {previous : Nat}
    (joins : sketch.Joins previous index) : previous ∈ seen ++ sketch.discover seen level := by
  by_cases old : previous ∈ seen
  · exact List.mem_append_left _ old
  · refine List.mem_append_right _ (mem_discover_iff.2 ⟨⟨index, ?_, joins⟩, old⟩)
    exact known.resolve_left fun expanded => old (searching.closed index expanded previous joins)

theorem next (live : sketch.Live) :
    sketch.Searching start (fun index => expanded index ∨ index ∈ level)
      (seen ++ sketch.discover seen level) (sketch.discover seen level) where
  nodup := searching.nodup.append nodup_discover
    fun _ old new => (mem_discover_iff.1 new).2 old
  below := by
    intro index member
    rcases List.mem_append.1 member with old | new
    · exact searching.below index old
    · obtain ⟨⟨next, -, joins⟩, -⟩ := mem_discover_iff.1 new
      exact lt_length_of_joins live joins
  first := .inl searching.first
  closed := fun _ known _ => searching.mem_of_joins known
  inside := by
    intro index member
    rcases List.mem_append.1 member with old | new
    · exact .inl (searching.inside index old)
    · exact .inr new

theorem mem_of_discover_eq_nil (none : sketch.discover seen level = [])
    (leads : sketch.Leads member start) : member ∈ seen := by
  have closed : ∀ index, expanded index ∨ index ∈ level → ∀ previous,
      sketch.Joins previous index → previous ∈ seen := by
    intro index known previous joins
    simpa [none] using searching.mem_of_joins known joins
  induction leads using Relation.TransGen.head_induction_on with
  | single joins => exact closed start searching.first _ joins
  | head joins _ ih => exact closed _ (searching.inside _ ih) _ joins

end Searching

theorem Searching.mem_sweep (live : sketch.Live) {depth : Nat} {expanded : Nat → Prop}
    (searching : sketch.Searching start expanded seen level)
    (deep : sketch.slots.length ≤ depth + seen.length) (leads : sketch.Leads member start) :
    member ∈ seen ∨ member ∈ sketch.sweep depth seen level := by
  induction depth generalizing seen level expanded with
  | zero =>
      obtain ⟨next, joins, -⟩ := Relation.TransGen.head'_iff.1 leads
      exact .inl (mem_of_nodup_of_lt searching.nodup searching.below (by omega)
        (lt_length_of_joins live joins))
  | succ depth ih =>
      by_cases none : sketch.discover seen level = []
      · exact .inl (searching.mem_of_discover_eq_nil none leads)
      · have longer : 0 < (sketch.discover seen level).length := List.length_pos_iff.2 none
        have rest := ih (searching.next live) (by rw [List.length_append]; omega)
        rwa [List.mem_append, or_assoc, ← List.mem_append, ← sweep_succ] at rest

theorem mem_reverseReachable_iff (live : sketch.Live) :
    member ∈ sketch.reverseReachable start ↔ sketch.Leads member start := by
  constructor
  · intro found
    exact leads_of_mem_sweep found fun index hindex => .inl (List.mem_singleton.1 hindex)
  · intro leads
    have found := (sketch.searching_start start).mem_sweep live (Nat.le_refl _) leads
    exact found.resolve_left List.not_mem_nil

end StackFlow.Sketch
