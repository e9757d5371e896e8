import StackFlow.Proofs.Edits
import StackFlow.Proofs.Loop
import StackFlow.Proofs.Reachability

/-!
# The order of the search against the edges

The search goes back from a node level by level, and the nodes of one level are those at one
distance from the start.  So all nodes are found in the order of their distances.

A queue in place of the levels (`Traversal`) finds the same nodes in the same order, and runs out.
The start is not marked as seen when it is put there, so it is found too if it lies on a cycle.
-/

namespace StackFlow.Sketch

variable {ν ε : Type} {sketch : Sketch ν ε} {start index member steps : Nat}
  {seen level : List Nat}

/-! ## Distances -/

inductive Walk (sketch : Sketch ν ε) : Nat → Nat → Nat → Prop where
  | stop (index : Nat) : Walk sketch 0 index index
  | step {steps source next target : Nat} (joins : sketch.Joins source next)
      (rest : Walk sketch steps next target) : Walk sketch (steps + 1) source target

structure Distance (sketch : Sketch ν ε) (steps source target : Nat) : Prop where
  pos : 0 < steps
  walk : sketch.Walk steps source target
  least : ∀ other, 0 < other → sketch.Walk other source target → steps ≤ other

theorem leads_iff_exists_walk :
    sketch.Leads index start ↔ ∃ steps, 0 < steps ∧ sketch.Walk steps index start := by
  constructor
  · intro leads
    induction leads using Relation.TransGen.head_induction_on with
    | single joins => exact ⟨1, Nat.one_pos, .step joins (.stop start)⟩
    | head joins _ ih =>
        obtain ⟨steps, -, walk⟩ := ih
        exact ⟨steps + 1, Nat.succ_pos steps, .step joins walk⟩
  · rintro ⟨steps, pos, walk⟩
    induction walk with
    | stop => exact absurd pos (Nat.lt_irrefl 0)
    | step joins rest ih =>
        cases rest with
        | stop => exact .single joins
        | step => exact .head joins (ih (Nat.succ_pos _))

/-! ## Levels -/

/-- The search is so many steps back: it has seen the nodes within that distance, and those of them
that are no nearer are in the level. -/
structure Leveled (sketch : Sketch ν ε) (start steps : Nat) (seen level : List Nat) : Prop where
  reached : ∀ index ∈ level, sketch.Walk steps index start
  complete : ∀ index, sketch.Walk steps index start →
    index ∈ level ∨ ∃ fewer, 0 < fewer ∧ fewer < steps ∧ sketch.Walk fewer index start
  seen_iff : ∀ index, index ∈ seen ↔
    ∃ fewer, 0 < fewer ∧ fewer ≤ steps ∧ sketch.Walk fewer index start

theorem leveled_start : sketch.Leveled start 0 [] [start] where
  reached := by
    intro index hindex
    obtain rfl := List.mem_singleton.1 hindex
    exact .stop index
  complete := by
    rintro index ⟨⟩
    exact .inl (List.mem_singleton_self start)
  seen_iff := by
    refine fun index => ⟨nofun, ?_⟩
    rintro ⟨fewer, pos, none, -⟩
    omega

namespace Leveled

variable (leveled : sketch.Leveled start steps seen level)

include leveled

theorem distance_of_mem_discover (found : member ∈ sketch.discover seen level) :
    sketch.Distance (steps + 1) member start := by
  obtain ⟨⟨index, hindex, joins⟩, unseen⟩ := mem_discover_iff.1 found
  refine ⟨Nat.succ_pos steps, .step joins (leveled.reached index hindex), ?_⟩
  intro other pos walk
  by_contra near
  exact unseen ((leveled.seen_iff member).2 ⟨other, pos, Nat.le_of_lt_succ (by omega), walk⟩)

theorem mem_of_walk (walk : sketch.Walk (steps + 1) member start) :
    member ∈ sketch.discover seen level ∨ member ∈ seen := by
  by_cases old : member ∈ seen
  · exact .inr old
  · cases walk with
    | step joins rest =>
        rcases leveled.complete _ rest with here | ⟨fewer, pos, less, shorter⟩
        · exact .inl (mem_discover_iff.2 ⟨⟨_, here, joins⟩, old⟩)
        · exact .inr ((leveled.seen_iff member).2
            ⟨fewer + 1, Nat.succ_pos fewer, less, .step joins shorter⟩)

theorem next :
    sketch.Leveled start (steps + 1) (seen ++ sketch.discover seen level)
      (sketch.discover seen level) where
  reached := fun member found => (leveled.distance_of_mem_discover found).walk
  complete := by
    intro member walk
    refine (leveled.mem_of_walk walk).imp_right fun old => ?_
    obtain ⟨fewer, pos, le, shorter⟩ := (leveled.seen_iff member).1 old
    exact ⟨fewer, pos, Nat.lt_succ_of_le le, shorter⟩
  seen_iff := by
    intro member
    rw [List.mem_append]
    constructor
    · rintro (old | new)
      · obtain ⟨fewer, pos, le, walk⟩ := (leveled.seen_iff member).1 old
        exact ⟨fewer, pos, Nat.le_succ_of_le le, walk⟩
      · have distance := leveled.distance_of_mem_discover new
        exact ⟨steps + 1, distance.pos, Nat.le_refl _, distance.walk⟩
    · rintro ⟨fewer, pos, le, walk⟩
      rcases Nat.lt_or_eq_of_le le with less | rfl
      · exact .inl ((leveled.seen_iff member).2 ⟨fewer, pos, Nat.le_of_lt_succ less, walk⟩)
      · exact (leveled.mem_of_walk walk).symm

end Leveled

/-! ## Order -/

theorem Leveled.exists_distance {depth : Nat} (leveled : sketch.Leveled start steps seen level)
    (found : member ∈ sketch.sweep depth seen level) :
    ∃ far, steps < far ∧ sketch.Distance far member start := by
  induction depth generalizing steps seen level with
  | zero => cases found
  | succ depth ih =>
      rw [sweep_succ] at found
      rcases List.mem_append.1 found with here | later
      · exact ⟨steps + 1, Nat.lt_succ_self steps, leveled.distance_of_mem_discover here⟩
      · obtain ⟨far, less, distance⟩ := ih leveled.next later
        exact ⟨far, Nat.lt_of_succ_lt less, distance⟩

theorem Leveled.pairwise_sweep {depth : Nat} (leveled : sketch.Leveled start steps seen level) :
    (sketch.sweep depth seen level).Pairwise fun first second => ∃ near far,
      sketch.Distance near first start ∧ sketch.Distance far second start ∧ near ≤ far := by
  induction depth generalizing steps seen level with
  | zero => exact .nil
  | succ depth ih =>
      have distance : ∀ member ∈ sketch.discover seen level,
          sketch.Distance (steps + 1) member start :=
        fun _ => leveled.distance_of_mem_discover
      rw [sweep_succ]
      refine List.pairwise_append.2 ⟨?_, ih leveled.next, fun first here second later => ?_⟩
      · refine List.pairwise_of_forall_mem_list fun first here second there => ?_
        exact ⟨_, _, distance first here, distance second there, Nat.le_refl _⟩
      · obtain ⟨far, less, hfar⟩ := leveled.next.exists_distance later
        exact ⟨_, far, distance first here, hfar, Nat.le_of_lt less⟩

theorem not_mem_of_mem_sweep {depth : Nat} (found : member ∈ sketch.sweep depth seen level) :
    member ∉ seen := by
  induction depth generalizing seen level with
  | zero => cases found
  | succ depth ih =>
      rw [sweep_succ] at found
      rcases List.mem_append.1 found with here | later
      · exact (mem_discover_iff.1 here).2
      · exact fun old => ih later (List.mem_append_left _ old)

theorem nodup_sweep {depth : Nat} : (sketch.sweep depth seen level).Nodup := by
  induction depth generalizing seen level with
  | zero => exact List.nodup_nil
  | succ depth ih =>
      rw [sweep_succ]
      refine nodup_discover.append ih fun member here later => ?_
      exact not_mem_of_mem_sweep later (List.mem_append_right _ here)

/-! ## The queue -/

/-- A search with a queue under way: the nodes seen, those found in order, and those whose
predecessors have still to be looked at. -/
structure Traversal where
  seen : SortedSet Nat := ∅
  found : List Nat := []
  queue : List Nat
  deriving DecidableEq

namespace Traversal

def meet (traversal : Traversal) (index : Nat) : Traversal :=
  if traversal.seen.contains index then
    traversal
  else
    { seen := traversal.seen.insert index
      found := traversal.found ++ [index]
      queue := traversal.queue ++ [index] }

def turn (sketch : Sketch ν ε) (traversal : Traversal) : Traversal :=
  match traversal.queue with
  | [] => traversal
  | index :: rest => (sketch.pred index).toList.foldl meet { traversal with queue := rest }

def having (found queue : List Nat) : Traversal :=
  ⟨.ofList found, found, queue⟩

theorem meet_having_of_mem {found queue : List Nat} (old : index ∈ found) :
    (having found queue).meet index = having found queue := by
  have seen : (SortedSet.ofList found).contains index = true := by
    simpa [SortedSet.contains, SortedSet.mem_toList] using old
  rw [meet, having, if_pos seen]

theorem meet_having_of_not_mem {found queue : List Nat} (new : index ∉ found) :
    (having found queue).meet index = having (found ++ [index]) (queue ++ [index]) := by
  have unseen : ¬ (SortedSet.ofList found).contains index = true := by
    simpa [SortedSet.contains, SortedSet.mem_toList] using new
  have seen : (SortedSet.ofList found).insert index = SortedSet.ofList (found ++ [index]) := by
    ext other
    simp [or_comm]
  rw [meet, having, if_neg unseen, seen, having]

theorem foldl_meet_having {items found queue : List Nat} (nodup : items.Nodup) :
    items.foldl meet (having found queue) =
      having (found ++ items.filter fun item => !found.contains item)
        (queue ++ items.filter fun item => !found.contains item) := by
  induction items generalizing found queue with
  | nil => simp
  | cons item rest ih =>
      obtain ⟨single, distinct⟩ := List.nodup_cons.1 nodup
      rw [List.foldl_cons]
      by_cases old : item ∈ found
      · simp [meet_having_of_mem old, ih distinct, old]
      · -- The item is not met again, so the rest is filtered as before.
        have same : (rest.filter fun other => !(found ++ [item]).contains other) =
            rest.filter fun other => !found.contains other := by
          refine List.filter_congr fun other hother => ?_
          have ne : other ≠ item := fun heq => single (heq ▸ hother)
          simp [ne]
        rw [meet_having_of_not_mem old, ih distinct, same,
          List.filter_cons_of_pos (by simpa using old)]
        simp

theorem turn_having {found queue : List Nat} :
    (having found (index :: queue)).turn sketch =
      having (found ++ sketch.discover found [index]) (queue ++ sketch.discover found [index]) := by
  rw [discover, discover, List.append_nil]
  exact foldl_meet_having (sketch.pred index).nodup_toList

end Traversal

def Traverses (sketch : Sketch ν ε) : Traversal → Traversal → Prop :=
  Ends (fun traversal => traversal.queue ≠ []) fun traversal next => next = traversal.turn sketch

namespace Traverses

variable {found queue : List Nat} {last : Traversal}

theorem of_level
    (rest : sketch.Traverses (.having (found ++ sketch.discover found level)
      (queue ++ sketch.discover found level)) last) :
    sketch.Traverses (.having found (level ++ queue)) last := by
  induction level generalizing found queue with
  | nil => simpa [discover] using rest
  | cons index level ih =>
      refine .turn (List.cons_ne_nil _ _) rfl ?_
      rw [List.cons_append, Traversal.turn_having, List.append_assoc]
      apply ih
      simpa [discover] using rest

theorem of_next_level
    (rest : sketch.Traverses (.having (found ++ sketch.discover found level)
      (sketch.discover found level)) last) :
    sketch.Traverses (.having found level) last := by
  have turns : sketch.Traverses (.having found (level ++ [])) last := of_level rest
  rwa [List.append_nil] at turns

theorem of_discover_eq_nil (none : sketch.discover found level = []) :
    sketch.Traverses (.having found level) (.having found []) := by
  apply of_next_level
  rw [none, List.append_nil]
  exact .stop (not_not_intro rfl)

end Traverses

theorem Searching.traverses (live : sketch.Live) {depth : Nat} {expanded : Nat → Prop}
    (searching : sketch.Searching start expanded seen level)
    (deep : sketch.slots.length ≤ depth + seen.length) :
    sketch.Traverses (.having seen level) (.having (seen ++ sketch.sweep depth seen level) []) := by
  induction depth generalizing seen level expanded with
  | zero =>
      have none : sketch.discover seen level = [] := by
        refine List.eq_nil_iff_forall_not_mem.2 fun member found => ?_
        obtain ⟨⟨index, -, joins⟩, unseen⟩ := mem_discover_iff.1 found
        exact unseen (mem_of_nodup_of_lt searching.nodup searching.below (by omega)
          (lt_length_of_joins live joins))
      rw [sweep, List.append_nil]
      exact .of_discover_eq_nil none
  | succ depth ih =>
      by_cases none : sketch.discover seen level = []
      · rw [sweep_succ, none, sweep_nil, List.append_nil, List.append_nil]
        exact .of_discover_eq_nil none
      · have longer : 0 < (sketch.discover seen level).length := List.length_pos_iff.2 none
        have rest := ih (searching.next live) (by rw [List.length_append]; omega)
        rw [List.append_assoc, ← sweep_succ] at rest
        exact .of_next_level rest

/-- In a graph that was drawn by any changes, the search with a queue comes to an end, and what it
has found then is what `reverseReachable` lists.  Those are the nodes from which a path of one edge
or more leads to the start, each once, in the order of the lengths of their shortest such paths.  So
the start is listed if and only if it lies on a cycle. -/
theorem reverseReachable_is_breadth_first {edits : List (Edit ν ε)}
    (drawn : ofEdits edits = .ok sketch) (start : Nat) :
    (∀ last, sketch.Traverses ⟨∅, [], [start]⟩ last ↔
      last = ⟨.ofList (sketch.reverseReachable start), sketch.reverseReachable start, []⟩) ∧
    (sketch.reverseReachable start).Nodup ∧
    (∀ index, index ∈ sketch.reverseReachable start ↔
      ∃ steps, 0 < steps ∧ sketch.Walk steps index start) ∧
    (sketch.reverseReachable start).Pairwise fun first second => ∃ near far,
      sketch.Distance near first start ∧ sketch.Distance far second start ∧ near ≤ far := by
  have live := (sound_ofEdits drawn).live
  refine ⟨fun last => ?_, nodup_sweep, fun index => ?_, leveled_start.pairwise_sweep⟩
  · have ends := (sketch.searching_start start).traverses live (Nat.le_refl _)
    exact Ends.iff_eq (fun _ _ _ next other => next.trans other.symm) ends
  · rw [mem_reverseReachable_iff live, leads_iff_exists_walk]

def ringSample : List (Edit String String) :=
  [.addNode "a", .addNode "b", .addNode "c", .addNode "d", .addNode "e", .addEdge 0 1 "r",
    .addEdge 1 4 "s", .addEdge 4 3 "t", .addEdge 3 0 "u", .addEdge 1 3 "v", .addEdge 2 0 "w",
    .removeNode 2]

theorem ringSample_is_breadth_first :
    ∃ sketch, ofEdits ringSample = .ok sketch ∧ sketch.reverseReachable 0 = [3, 1, 4, 0] ∧
      sketch.Traverses ⟨∅, [], [0]⟩ ⟨.ofList [3, 1, 4, 0], [3, 1, 4, 0], []⟩ ∧
      (∃ steps, 0 < steps ∧ sketch.Walk steps 0 0) ∧
      (¬ ∃ steps, 0 < steps ∧ sketch.Walk steps 2 0) ∧
      ∃ near far, sketch.Distance near 1 0 ∧ sketch.Distance far 0 0 ∧ near ≤ far := by
  have run : succeedsWith (fun sketch => sketch.reverseReachable 0 = [3, 1, 4, 0])
      (ofEdits ringSample) = true := by decide +kernel
  obtain ⟨sketch, drawn, listed⟩ := succeedsWith_iff.1 run
  have order := of_decide_eq_true listed
  obtain ⟨queue, -, member_iff, ascending⟩ := reverseReachable_is_breadth_first drawn 0
  rw [order] at queue member_iff ascending
  refine ⟨sketch, drawn, order, (queue _).2 rfl, (member_iff 0).1 (by decide),
    fun found => absurd ((member_iff 2).2 found) (by decide), ?_⟩
  exact List.pairwise_iff_forall_sublist.1 ascending (by decide)

end StackFlow.Sketch
