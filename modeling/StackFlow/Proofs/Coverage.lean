import StackFlow.Proofs.FlowGraph

/-!
# Blocks cover their scope

The blocks of a scope that is entered at its first instruction follow each other from the entry to
the end without a gap (`Scope.Tiles`).  So their code is the code of the scope, and in the finished
graph every address of the scope lies in one block.
-/

namespace StackFlow

namespace Scope

variable {scope : Scope} {start middle stop address : Nat} {block : Block} {blocks : List Block}

theorem codeBetween_append (first : start ≤ middle) (second : middle ≤ stop) :
    scope.codeBetween start middle ++ scope.codeBetween middle stop =
      scope.codeBetween start stop :=
  filter_append_filter (sorted_decoded scope) first second

theorem Spans.head?_instructions (spans : scope.Spans start stop block) :
    block.instructions.head?.map Instruction.address = some block.start := by
  obtain ⟨first, rest, next, -, rfl, -⟩ := spans.ofCode
  rfl

/-! ## Tilings -/

inductive Tiles (scope : Scope) : Nat → Nat → List Block → Prop where
  | done (address : Nat) : Tiles scope address address []
  | next {start middle stop : Nat} {block : Block} {blocks : List Block}
      (spans : scope.Spans start middle block) (rest : Tiles scope middle stop blocks) :
      Tiles scope start stop (block :: blocks)

namespace Tiles

theorem le (tiles : scope.Tiles start stop blocks) : start ≤ stop := by
  induction tiles with
  | done => exact Nat.le_refl _
  | next spans _ ih => exact Nat.le_trans (Nat.le_of_lt spans.lt) ih

theorem flatMap_instructions (tiles : scope.Tiles start stop blocks) :
    blocks.flatMap Block.instructions = (scope.codeBetween start stop).map Decoded.instr := by
  induction tiles with
  | done address =>
      have none : scope.codeBetween address address = [] := by
        simp [codeBetween]
      simp [none]
  | next spans rest ih =>
      rw [List.flatMap_cons, ih, spans.instructions_eq, ← List.map_append,
        codeBetween_append (Nat.le_of_lt spans.lt) rest.le]

theorem getLast?_endAddress (tiles : scope.Tiles start stop blocks) (ne : blocks ≠ []) :
    blocks.getLast?.map Block.endAddress = some stop := by
  induction tiles with
  | done => exact absurd rfl ne
  | next spans rest ih =>
      cases rest with
      | done => simp [spans.endAddress_eq]
      | next following rest =>
          rw [List.getLast?_cons_cons]
          exact ih (List.cons_ne_nil _ _)

theorem exists_contains (tiles : scope.Tiles start stop blocks) (low : start ≤ address)
    (high : address < stop) : ∃ block ∈ blocks, block.contains address = true := by
  induction tiles with
  | done => omega
  | @next start middle stop block blocks spans rest ih =>
      by_cases inside : address < middle
      · refine ⟨block, List.mem_cons_self, ?_⟩
        simp [Block.contains, spans.start_eq, spans.endAddress_eq, low, inside]
      · obtain ⟨other, member, contains⟩ := ih (by omega) high
        exact ⟨other, List.mem_cons_of_mem _ member, contains⟩

theorem range_of_contains (tiles : scope.Tiles start stop blocks) (member : block ∈ blocks)
    (contains : block.contains address = true) : start ≤ address ∧ address < stop := by
  induction tiles with
  | done => cases member
  | next spans rest ih =>
      have lt := spans.lt
      have le := rest.le
      rcases List.mem_cons.1 member with rfl | member
      · simp [Block.contains, spans.start_eq, spans.endAddress_eq] at contains
        omega
      · have range := ih member
        omega

end Tiles

theorem tiles_of_boundaries {rest : List Nat} (ascending : (start :: rest).Pairwise (· < ·))
    (known : ∀ boundary ∈ start :: rest, boundary ∈ scope.boundaries)
    (last : stop ∈ start :: rest) (bound : ∀ boundary ∈ start :: rest, boundary ≤ stop) :
    scope.Tiles start stop (((start :: rest).zip rest).filterMap fun pair =>
      scope.blockBetween? scope.decoded pair.1 pair.2) := by
  induction rest generalizing start with
  | nil =>
      obtain rfl := List.mem_singleton.1 last
      exact .done stop
  | cons middle rest ih =>
      obtain ⟨below, ascending⟩ := List.pairwise_cons.1 ascending
      obtain ⟨hstart, known⟩ := List.forall_mem_cons.1 known
      have lt := below middle List.mem_cons_self
      have later : stop ∈ middle :: rest := by
        rcases List.mem_cons.1 last with rfl | later
        · exact absurd (bound middle (by simp)) (by omega)
        · exact later
      obtain ⟨block, found, spans⟩ :=
        blockBetween?_eq_some hstart (known middle List.mem_cons_self) lt
      simp only [List.zip_cons_cons, List.filterMap_cons, found]
      exact .next spans (ih ascending known later (List.forall_mem_cons.1 bound).2)

def HoldsEntry (scope : Scope) : Prop :=
  ∃ instr ∈ scope.instructions, instr.address = scope.entry

instance : Decidable scope.HoldsEntry :=
  inferInstanceAs (Decidable (∃ instr ∈ scope.instructions, instr.address = scope.entry))

namespace HoldsEntry

variable (holds : scope.HoldsEntry)

include holds

theorem entry_lt_endAddress : scope.entry < scope.endAddress := by
  obtain ⟨instr, member, heq⟩ := holds
  exact heq ▸ address_lt_endAddress member

theorem isEmpty_eq_false : scope.isEmpty = false := by
  obtain ⟨instr, member, -⟩ := holds
  simpa [isEmpty] using List.ne_nil_of_mem member

theorem entry_mem_boundaries : scope.entry ∈ scope.boundaries :=
  mem_boundaries_iff.2 ⟨SortedSet.mem_ofList.2 (by simp), .inr holds⟩

end HoldsEntry

def EntersFirst (scope : Scope) : Prop :=
  scope.instructions.head?.map Instruction.address = some scope.entry

namespace EntersFirst

variable (enters : scope.EntersFirst)

include enters

theorem holdsEntry : scope.HoldsEntry := by
  obtain ⟨first, head, heq⟩ := Option.map_eq_some_iff.1 enters
  exact ⟨first, List.mem_of_head? head, heq⟩

theorem entry_le {instr : Instruction} (member : instr ∈ scope.instructions) :
    scope.entry ≤ instr.address := by
  have sorted := scope.sorted
  unfold EntersFirst at enters
  cases code : scope.instructions with
  | nil => simp [code] at member
  | cons first rest =>
      rw [code] at enters member sorted
      rw [← Option.some.inj enters]
      rcases List.mem_cons.1 member with rfl | later
      · exact Nat.le_refl _
      · exact (List.pairwise_cons.1 sorted).1 instr later

theorem entry_le_of_mem_boundaries (member : address ∈ scope.boundaries) :
    scope.entry ≤ address := by
  rcases (mem_boundaries_iff.1 member).2 with rfl | ⟨instr, hinstr, rfl⟩
  · exact Nat.le_of_lt enters.holdsEntry.entry_lt_endAddress
  · exact enters.entry_le hinstr

theorem tiles : scope.Tiles scope.entry scope.endAddress scope.blocks := by
  have ascending := pairwise_boundaries scope
  have hentry := enters.holdsEntry.entry_mem_boundaries
  have hend := endAddress_mem_boundaries scope
  simp only [blocks, enters.holdsEntry.isEmpty_eq_false, Bool.false_eq_true, if_false]
  obtain ⟨first, rest, split⟩ := List.exists_cons_of_ne_nil (List.ne_nil_of_mem hentry)
  obtain rfl : first = scope.entry := by
    refine Nat.le_antisymm ?_ (enters.entry_le_of_mem_boundaries (split ▸ List.mem_cons_self))
    rw [split] at ascending hentry
    rcases List.mem_cons.1 hentry with heq | later
    · exact Nat.le_of_eq heq.symm
    · exact Nat.le_of_lt ((List.pairwise_cons.1 ascending).1 _ later)
  rw [split] at ascending hend ⊢
  exact tiles_of_boundaries ascending (fun _ member => split ▸ member) hend
    fun _ member => le_endAddress_of_mem_boundaries (split ▸ member)

theorem codeBetween_eq : scope.codeBetween scope.entry scope.endAddress = scope.decoded := by
  refine List.filter_eq_self.2 fun code member => ?_
  have hinstr : code.instr ∈ scope.instructions :=
    map_instr_decoded scope ▸ List.mem_map_of_mem member
  simp [enters.entry_le hinstr, address_lt_endAddress hinstr]

theorem flatMap_instructions :
    scope.blocks.flatMap Block.instructions = scope.instructions := by
  rw [enters.tiles.flatMap_instructions, enters.codeBetween_eq, map_instr_decoded]

theorem blocks_ne_nil : scope.blocks ≠ [] := by
  intro none
  have all := enters.flatMap_instructions
  have code := enters.holdsEntry.isEmpty_eq_false
  rw [none, List.flatMap_nil] at all
  simp [isEmpty, ← all] at code

end EntersFirst

theorem checkedBlocks_eq_ok_iff {blocks : List Block} :
    scope.checkedBlocks = .ok blocks ↔ scope.endAddress < Word.limit ∧ blocks = scope.blocks := by
  simp only [checkedBlocks, checkedEndAddress, bind_eq_ok_iff, pure_eq_ok_iff,
    Word.checked_eq_ok_iff]
  constructor
  · rintro ⟨last, ⟨fits, -⟩, made⟩
    exact ⟨fits, made.symm⟩
  · rintro ⟨fits, rfl⟩
    exact ⟨scope.endAddress, ⟨fits, rfl⟩, rfl⟩

theorem checkedBlocks_eq_ok (fits : scope.endAddress < Word.limit) :
    scope.checkedBlocks = .ok scope.blocks :=
  checkedBlocks_eq_ok_iff.2 ⟨fits, rfl⟩

end Scope

/-! ## Addresses of a finished graph -/

namespace FlowGraph

variable {scope : Scope} {options : Options} {flow : FlowGraph} {number address : Nat}

theorem blockAt?_eq_some_iff (wellFormed : flow.WellFormed) :
    flow.blockAt? address = some number ↔
      ∃ block, flow.blocks[number]? = some block ∧ block.contains address = true := by
  constructor
  · intro found
    obtain ⟨⟨block, position⟩, last, found⟩ := Option.bind_eq_some_iff.1 found
    obtain ⟨contains, heq⟩ := Option.ite_none_right_eq_some.1 found
    obtain rfl := Option.some.inj heq
    have member := List.mem_of_mem_filter (List.mem_of_getLast? last)
    exact ⟨block, List.mk_mem_zipIdx_iff_getElem?.1 member, contains⟩
  · rintro ⟨block, found, contains⟩
    exact blockAt?_eq_some_of_contains wellFormed found contains

theorem exists_contains_iff (enters : scope.EntersFirst)
    (built : build scope options = .ok flow) :
    (∃ block ∈ flow.blocks, block.contains address = true) ↔
      scope.entry ≤ address ∧ address < scope.endAddress := by
  obtain ⟨wired, resolved, stages⟩ := build_eq_ok built
  constructor
  · rintro ⟨block, member, contains⟩
    obtain ⟨number, found⟩ := List.mem_iff_getElem?.1 member
    obtain ⟨original, horiginal, heq⟩ := stages.getElem?_scope_blocks found
    rw [heq] at contains
    exact enters.tiles.range_of_contains (List.mem_of_getElem? horiginal) contains
  · rintro ⟨low, high⟩
    obtain ⟨original, member, contains⟩ := enters.tiles.exists_contains low high
    obtain ⟨number, found⟩ := List.mem_iff_getElem?.1 member
    obtain ⟨block, hblock, heq⟩ := stages.getElem?_flow_blocks found
    refine ⟨block, List.mem_of_getElem? hblock, ?_⟩
    rw [heq]
    exact contains

end FlowGraph

namespace Scope

/-- The blocks hold the code of the scope once and in order, each starts where the one before it
ends, and an address of the scope lies in one block of a graph built from it. -/
theorem blocks_partition {scope : Scope} (enters : scope.EntersFirst)
    (fits : scope.endAddress < Word.limit) :
    ∃ blocks, scope.checkedBlocks = .ok blocks ∧ blocks ≠ [] ∧
      blocks.flatMap Block.instructions = scope.instructions ∧
      (∀ block ∈ blocks, block.instructions.head?.map Instruction.address = some block.start) ∧
      (∀ number block next, blocks[number]? = some block → blocks[number + 1]? = some next →
        block.endAddress = next.start) ∧
      blocks.getLast?.map Block.endAddress = some scope.endAddress ∧
      ∀ options flow, FlowGraph.build scope options = .ok flow → ∀ address,
        ((flow.blockAt? address).isSome = true ↔
          scope.entry ≤ address ∧ address < scope.endAddress) ∧
        ∀ number, flow.blockAt? address = some number → ∀ other,
          (∃ block, flow.blocks[other]? = some block ∧ block.contains address = true) ↔
            other = number := by
  refine ⟨scope.blocks, checkedBlocks_eq_ok fits, enters.blocks_ne_nil,
    enters.flatMap_instructions, fun block member => ?_, fun number block next found hnext => ?_,
    enters.tiles.getLast?_endAddress enters.blocks_ne_nil, fun options flow built address => ?_⟩
  · obtain ⟨start, stop, -, spans⟩ := exists_spans_of_mem member
    exact spans.head?_instructions
  · exact (start_next found hnext).symm
  · have wellFormed := FlowGraph.build_wellFormed built
    constructor
    · rw [← FlowGraph.exists_contains_iff enters built, Option.isSome_iff_exists]
      simp only [FlowGraph.blockAt?_eq_some_iff wellFormed, List.mem_iff_getElem?]
      grind
    · intro number found other
      rw [← FlowGraph.blockAt?_eq_some_iff wellFormed, found, Option.some.injEq, eq_comm]

/-- A branch to a jump whose argument is extended, and from there into the middle of an
instruction. -/
def prefixedSample : Scope :=
  { instructions := [
      ⟨0, .loadName, .name "c", 1, 0, false⟩,
      ⟨3, .popJumpIfFalse, .arg 9, 1, 0, false⟩,
      ⟨6, .extendedArg, .arg 0, 2, 0, false⟩,
      ⟨9, .jumpAbsolute, .arg 1, 2, 0, false⟩,
      ⟨12, .returnValue, .none, 3, 0, false⟩]
    sorted := by decide }

theorem prefixedSample_partition :
    prefixedSample.EntersFirst ∧ prefixedSample.endAddress = 13 ∧
    prefixedSample.blocks.map Block.start = [0, 6] ∧
    prefixedSample.blocks.flatMap Block.instructions = prefixedSample.instructions ∧
    ∃ flow, FlowGraph.build prefixedSample {} = .ok flow ∧
      ∀ address, (flow.blockAt? address).isSome = true ↔ address < 13 := by
  have enters : prefixedSample.EntersFirst := rfl
  have fits : prefixedSample.endAddress < Word.limit := by decide
  have run : succeedsWith (fun _ => true) (FlowGraph.build prefixedSample {}) = true := by
    decide +kernel
  obtain ⟨flow, built, -⟩ := succeedsWith_iff.1 run
  obtain ⟨blocks, hblocks, -, code, -, -, -, addresses⟩ := blocks_partition enters fits
  obtain rfl := Except.ok.inj ((checkedBlocks_eq_ok fits).symm.trans hblocks)
  refine ⟨enters, rfl, by decide +kernel, code, flow, built, fun address => ?_⟩
  rw [(addresses {} flow built address).1]
  exact and_iff_right (Nat.zero_le address)

end Scope

end StackFlow
