import StackFlow.FlowGraph.LoopExit
import StackFlow.Proofs.Edits
import StackFlow.Proofs.Reachability

/-!
# The innermost loop around an address

The loop through which a break leaves is the one that starts last among the loops that enclose its
address (`Draft.Encloses`), in whatever order the search meets them.
-/

namespace StackFlow.Draft

variable {graph : Sketch Node BranchKind} {blocks : List Block} {index address number : Nat}
  {setup : Block}

structure Encloses (graph : Sketch Node BranchKind) (blocks : List Block) (index address : Nat)
    (number : Nat) (setup : Block) : Prop where
  found : blocks[number]? = some setup
  inside : holds setup address = true
  before : ∃ previous, graph.node? previous = some ⟨.loop, some number⟩ ∧
    graph.Leads previous index

theorem mem_loopsBefore_iff (live : graph.Live) :
    number ∈ loopsBefore graph index ↔
      ∃ previous, graph.node? previous = some ⟨.loop, some number⟩ ∧
        graph.Leads previous index := by
  simp only [loopsBefore, List.mem_filterMap, Sketch.mem_reverseReachable_iff live]
  constructor
  · rintro ⟨previous, leads, found⟩
    split at found
    · next block heq => exact ⟨previous, Option.some.inj found ▸ heq, leads⟩
    · cases found
  · rintro ⟨previous, found, leads⟩
    exact ⟨previous, leads, by simp [found]⟩

theorem exists_later (best : Option (Nat × Block)) (head : Nat × Block) :
    ∃ next, later best head = some next ∧ (best = some next ∨ next = head) ∧
      head.2.start ≤ next.2.start ∧ ∀ item, best = some item → item.2.start ≤ next.2.start := by
  cases best with
  | none => exact ⟨head, rfl, .inr rfl, Nat.le_refl _, nofun⟩
  | some item =>
      by_cases lt : item.2.start < head.2.start
      · refine ⟨head, by simp [later, lt], .inr rfl, Nat.le_refl _, ?_⟩
        intro other same
        rw [← Option.some.inj same]
        exact Nat.le_of_lt lt
      · refine ⟨item, by simp [later, lt], .inl rfl, Nat.not_lt.1 lt, ?_⟩
        intro other same
        rw [Option.some.inj same]

theorem foldl_later {items : List (Nat × Block)} {best : Option (Nat × Block)}
    {chosen : Nat × Block} (kept : items.foldl later best = some chosen) :
    (best = some chosen ∨ chosen ∈ items) ∧
      ∀ item, best = some item ∨ item ∈ items → item.2.start ≤ chosen.2.start := by
  induction items generalizing best with
  | nil =>
      obtain rfl : best = some chosen := kept
      refine ⟨.inl rfl, fun item either => ?_⟩
      rcases either with same | member
      · rw [Option.some.inj same]
      · cases member
  | cons head rest ih =>
      obtain ⟨next, hnext, origin, hhead, hbest⟩ := exists_later best head
      rw [List.foldl_cons, hnext] at kept
      obtain ⟨member, last⟩ := ih kept
      have le := last next (.inl rfl)
      constructor
      · rcases member with same | member
        · rw [← Option.some.inj same]
          exact origin.imp_right fun first => List.mem_cons.2 (.inl first)
        · exact .inr (List.mem_cons_of_mem _ member)
      · rintro item (same | member)
        · exact Nat.le_trans (hbest item same) le
        · rcases List.mem_cons.1 member with rfl | member
          · exact Nat.le_trans hhead le
          · exact last item (.inr member)

theorem enclosingLoop?_eq_ok (live : graph.Live) {result : Option (Nat × Block)}
    (searched : enclosingLoop? graph blocks index address = .ok result) :
    ∃ candidates : List (Nat × Block), candidates.foldl later none = result ∧
      ∀ number setup, (number, setup) ∈ candidates ↔
        Encloses graph blocks index address number setup := by
  obtain ⟨fetched, mapped, rest⟩ := bind_eq_ok_iff.1 searched
  refine ⟨_, pure_eq_ok_iff.1 rest, fun number setup => ?_⟩
  have listed : (number, setup) ∈ fetched ↔
      number ∈ loopsBefore graph index ∧ blocks[number]? = some setup := by
    rw [mem_of_mapM_eq_ok mapped]
    constructor
    · rintro ⟨found, member, applied⟩
      obtain ⟨block, hblock, same⟩ := bind_eq_ok_iff.1 applied
      obtain ⟨rfl, rfl⟩ := Prod.mk.inj (pure_eq_ok_iff.1 same)
      exact ⟨member, Fault.fetch_eq_ok_iff.1 hblock⟩
    · rintro ⟨member, found⟩
      exact ⟨number, member, bind_eq_ok_iff.2 ⟨setup, Fault.fetch_eq_ok_iff.2 found, rfl⟩⟩
  rw [List.mem_filter, listed, mem_loopsBefore_iff live]
  constructor
  · rintro ⟨⟨before, found⟩, inside⟩
    exact ⟨found, inside, before⟩
  · rintro ⟨found, inside, before⟩
    exact ⟨⟨before, found⟩, inside⟩

theorem encloses_of_enclosingLoop? (live : graph.Live)
    (chosen : enclosingLoop? graph blocks index address = .ok (some (number, setup))) :
    Encloses graph blocks index address number setup ∧
      ∀ other candidate, Encloses graph blocks index address other candidate →
        candidate.start ≤ setup.start := by
  obtain ⟨candidates, kept, mem_candidates⟩ := enclosingLoop?_eq_ok live chosen
  obtain ⟨member, last⟩ := foldl_later kept
  refine ⟨(mem_candidates number setup).1 (member.resolve_left nofun), ?_⟩
  intro other candidate encloses
  exact last (other, candidate) (.inr ((mem_candidates other candidate).2 encloses))

theorem Encloses.number_eq (distinct : (blocks.map Block.start).Nodup) {other : Nat}
    {candidate : Block} (encloses : Encloses graph blocks index address number setup)
    (others : Encloses graph blocks index address other candidate)
    (same : candidate.start = setup.start) : other = number ∧ candidate = setup := by
  have first : (blocks.map Block.start)[number]? = some setup.start := by
    simp [encloses.found]
  have second : (blocks.map Block.start)[other]? = some setup.start := by
    simp [others.found, same]
  have heq := (List.getElem?_inj (List.getElem?_eq_some_iff.1 second).1 distinct).1
    (second.trans first.symm)
  subst heq
  exact ⟨rfl, Option.some.inj (others.found.symm.trans encloses.found)⟩

theorem foldl_later_eq_none {items : List (Nat × Block)} {best : Option (Nat × Block)} :
    items.foldl later best = none ↔ best = none ∧ items = [] := by
  induction items generalizing best with
  | nil => simp
  | cons head rest ih =>
      obtain ⟨next, hnext, -⟩ := exists_later best head
      simp [ih, hnext]

theorem holds_iff :
    holds setup address = true ↔
      ∃ stop, setup.endTarget = some stop ∧ setup.start < address ∧ address < stop := by
  unfold holds
  cases setup.endTarget <;> simp

theorem exists_enclosingLoop?
    (known : ∀ index node number, graph.node? index = some node → node.block = some number →
      number < blocks.length) (index address : Nat) :
    ∃ result, enclosingLoop? graph blocks index address = .ok result := by
  have each : ∀ number ∈ loopsBefore graph index, ∃ result,
      (do return (number, ← Fault.fetch blocks number) : Except Fault (Nat × Block)) =
        .ok result := by
    intro number member
    obtain ⟨previous, -, found⟩ := List.mem_filterMap.1 member
    split at found
    · next label heq =>
        have bound := known previous _ _ heq rfl
        rw [Option.some.inj found] at bound
        exact exists_bind_eq_ok (Fault.fetch_eq_ok bound) ⟨_, rfl⟩
    · cases found
  obtain ⟨fetched, mapped⟩ := exists_mapM_eq_ok_iff.2 each
  exact ⟨_, bind_eq_ok_iff.2 ⟨fetched, mapped, rfl⟩⟩

/-- In a graph that was drawn by any changes, with blocks that start at different addresses, the
search finds a block exactly if it encloses the address and no other enclosing block starts later,
and finds none exactly if there is no enclosing block. -/
theorem search_finds_innermost_loop {edits : List (Sketch.Edit Node BranchKind)}
    (drawn : Sketch.ofEdits edits = .ok graph) (distinct : (blocks.map Block.start).Nodup)
    (known : ∀ index node number, graph.node? index = some node → node.block = some number →
      number < blocks.length) (index address : Nat) :
    (∀ number setup,
      enclosingLoop? graph blocks index address = .ok (some (number, setup)) ↔
        Encloses graph blocks index address number setup ∧
          ∀ other candidate, Encloses graph blocks index address other candidate →
            candidate.start ≤ setup.start) ∧
    (enclosingLoop? graph blocks index address = .ok none ↔
      ∀ number setup, ¬ Encloses graph blocks index address number setup) ∧
    ∀ number setup, Encloses graph blocks index address number setup ↔
      blocks[number]? = some setup ∧
      (∃ stop, setup.endTarget = some stop ∧ setup.start < address ∧ address < stop) ∧
      ∃ previous, graph.node? previous = some ⟨.loop, some number⟩ ∧
        graph.Leads previous index := by
  have live := (Sketch.sound_ofEdits drawn).live
  obtain ⟨result, searched⟩ := exists_enclosingLoop? known index address
  obtain ⟨candidates, kept, mem_candidates⟩ := enclosingLoop?_eq_ok live searched
  refine ⟨fun number setup => ⟨encloses_of_enclosingLoop? live, ?_⟩, ?_, fun number setup => ?_⟩
  · rintro ⟨encloses, last⟩
    cases result with
    | none =>
        have none := (foldl_later_eq_none.1 kept).2
        simpa [none] using (mem_candidates number setup).2 encloses
    | some chosen =>
        obtain ⟨other, candidate⟩ := chosen
        obtain ⟨others, latest⟩ := encloses_of_enclosingLoop? live searched
        have same := Nat.le_antisymm (last other candidate others) (latest number setup encloses)
        obtain ⟨rfl, rfl⟩ := encloses.number_eq distinct others same
        exact searched
  · rw [searched, Except.ok.injEq, ← kept, foldl_later_eq_none, List.eq_nil_iff_forall_not_mem]
    simp only [true_and, Prod.forall, mem_candidates]
  · rw [← holds_iff]
    constructor
    · rintro ⟨found, inside, before⟩
      exact ⟨found, inside, before⟩
    · rintro ⟨found, inside, before⟩
      exact ⟨found, inside, before⟩

def nestBlocks : List Block :=
  [⟨.loop, 0, 3, true, false, some 20, none, [], ∅, []⟩,
    ⟨.loop, 3, 3, true, false, some 15, none, [], ∅, []⟩,
    ⟨.unclassified, 6, 9, false, false, none, none, [], ∅, []⟩]

/-- From the last node the search meets the outer loop before the inner one. -/
def nestEdits : List (Sketch.Edit Node BranchKind) :=
  [.addNode ⟨.loop, some 0⟩, .addNode ⟨.loop, some 1⟩, .addNode ⟨.plain, some 2⟩,
    .addEdge 0 2 .always, .addEdge 1 0 .always, .addEdge 2 1 .always]

theorem nestEdits_finds_inner :
    ∃ graph setup, Sketch.ofEdits nestEdits = .ok graph ∧ graph.reverseReachable 2 = [0, 1, 2] ∧
      nestBlocks[1]? = some setup ∧
      enclosingLoop? graph nestBlocks 2 7 = .ok (some (1, setup)) ∧
      enclosingLoop? graph nestBlocks 2 20 = .ok none := by
  have run : succeedsWith (fun graph => graph.reverseReachable 2 = [0, 1, 2] &&
      graph.slots = [some ⟨.loop, some 0⟩, some ⟨.loop, some 1⟩, some ⟨.plain, some 2⟩] &&
      graph.edges = [⟨0, 2, .always⟩, ⟨1, 0, .always⟩, ⟨2, 1, .always⟩])
      (Sketch.ofEdits nestEdits) = true := by decide +kernel
  obtain ⟨graph, drawn, found⟩ := succeedsWith_iff.1 run
  simp only [Bool.and_eq_true, decide_eq_true_eq] at found
  obtain ⟨⟨order, slots⟩, edges⟩ := found
  have known : ∀ index node number, graph.node? index = some node → node.block = some number →
      number < nestBlocks.length := by
    intro index node number found hblock
    rw [Sketch.node?, slots] at found
    rcases index with _ | _ | _ | index
    iterate 3
      · obtain rfl := Option.some.inj found
        obtain rfl := Option.some.inj hblock
        decide
    · cases found
  have leads : graph.Leads 1 2 :=
    .tail (.single ⟨⟨1, 0, .always⟩, by simp [edges], rfl, rfl⟩)
      ⟨⟨0, 2, .always⟩, by simp [edges], rfl, rfl⟩
  obtain ⟨inner, -, explained⟩ := search_finds_innermost_loop drawn (by decide) known 2 7
  obtain ⟨-, outside, -⟩ := search_finds_innermost_loop drawn (by decide) known 2 20
  refine ⟨graph, nestBlocks[1], drawn, order, rfl, (inner 1 nestBlocks[1]).2 ⟨?_, ?_⟩,
    outside.2 ?_⟩
  · refine (explained 1 nestBlocks[1]).2 ⟨rfl, ⟨15, rfl, by decide, by decide⟩, 1, ?_, leads⟩
    rw [Sketch.node?, slots]
    rfl
  · intro other candidate encloses
    have late : ∀ candidate ∈ nestBlocks, holds candidate 7 = true →
        candidate.start ≤ nestBlocks[1].start := by decide
    exact late candidate (List.mem_of_getElem? encloses.found) encloses.inside
  · intro other candidate encloses
    have past : ∀ candidate ∈ nestBlocks, ¬ holds candidate 20 = true := by decide
    exact past candidate (List.mem_of_getElem? encloses.found) encloses.inside

end StackFlow.Draft
