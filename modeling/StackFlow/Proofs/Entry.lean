import StackFlow.Proofs.Leaders
import StackFlow.Proofs.Shape

/-!
# Where control enters a graph

The entry of a graph leads to the block with the lowest addresses.  Code before the declared entry
of the scope belongs to no block as a rule, and then that block is the one at the declared entry.
But where a jump leads before the declared entry, a block starts there and comes first.
-/

namespace StackFlow

namespace Scope

variable {scope : Scope} {address : Nat}

/-- A jump leads to an instruction before the entry, or it may fall through to one. -/
def LeadsBefore (scope : Scope) : Prop :=
  (∃ code ∈ scope.decoded, ∃ landing ∈ scope.instructions,
    code.destination = some landing.address ∧ landing.address < scope.entry) ∨
  ∃ position instr next, scope.instructions[position]? = some instr ∧
    scope.instructions[position + 1]? = some next ∧ instr.op.addressing.isSome = true ∧
    instr.op ≠ .jumpAbsolute ∧ instr.op ≠ .jumpForward ∧ next.address < scope.entry

theorem exists_boundary_of_leadsBefore (leads : scope.LeadsBefore) :
    ∃ address ∈ scope.boundaries, address < scope.entry := by
  rcases leads with ⟨code, hcode, landing, member, lands, before⟩ |
    ⟨position, instr, next, found, hnext, carries, absolute, forward, before⟩
  · rw [← map_instr_decoded] at member
    obtain ⟨target, htarget, rfl⟩ := List.mem_map.1 member
    refine ⟨_, mem_boundaries_of_mem_jumpLeaders ?_ ⟨target, htarget, rfl⟩, before⟩
    exact mem_jumpLeaders_of_destination hcode (addressing_isSome_of_destination hcode lands) lands
  · rw [getElem?_instructions] at found hnext
    obtain ⟨code, hcode, rfl⟩ := Option.map_eq_some_iff.1 found
    obtain ⟨target, htarget, rfl⟩ := Option.map_eq_some_iff.1 hnext
    refine ⟨_, mem_boundaries_of_mem_jumpLeaders ?_ ⟨target, List.mem_of_getElem? htarget, rfl⟩,
      before⟩
    exact mem_jumpLeaders_of_next hcode htarget carries
      (Opcode.neverFallsThrough_eq_false_iff.2 ⟨absolute, forward⟩)

namespace HoldsEntry

variable (entered : scope.HoldsEntry)

include entered

theorem leadsBefore_iff :
    scope.LeadsBefore ↔ ∃ address ∈ scope.boundaries, address < scope.entry := by
  refine ⟨exists_boundary_of_leadsBefore, ?_⟩
  rintro ⟨address, member, before⟩
  have last := entered.entry_lt_endAddress
  obtain ⟨leads, there⟩ := mem_boundaries_iff.1 member
  obtain ⟨landing, hlanding, rfl⟩ := there.resolve_left (by omega)
  have leader : landing.address ∈ jumpLeaders scope.decoded := by
    have other : landing.address ≠ scope.entry := by omega
    have past : landing.address ≠ scope.endAddress := by omega
    simpa [other, past] using SortedSet.mem_ofList.1 leads
  refine (cases_of_mem_jumpLeaders leader).imp ?_ ?_
  · rintro ⟨code, hcode, -, lands⟩
    exact ⟨code, hcode, landing, hlanding, lands, before⟩
  · rintro ⟨position, code, next, hcode, hnext, carries, falls, heq⟩
    obtain ⟨absolute, forward⟩ := Opcode.neverFallsThrough_eq_false_iff.1 falls
    exact ⟨position, code.instr, next.instr, by simp [getElem?_instructions, hcode],
      by simp [getElem?_instructions, hnext], carries, absolute, forward, heq ▸ before⟩

theorem exists_block_at_entry : ∃ block ∈ scope.blocks, block.start = scope.entry :=
  exists_block_of_mem_boundaries entered.entry_mem_boundaries
    (Nat.ne_of_lt entered.entry_lt_endAddress)

theorem exists_first : ∃ first : Block, scope.blocks[0]? = some first := by
  obtain ⟨block, member, -⟩ := entered.exists_block_at_entry
  exact ⟨_, List.getElem?_eq_getElem (List.length_pos_of_mem member)⟩

end HoldsEntry

theorem start_le_of_first {first block : Block} (found : scope.blocks[0]? = some first)
    (member : block ∈ scope.blocks) : first.start ≤ block.start := by
  obtain ⟨number, bound, rfl⟩ := List.mem_iff_getElem.1 member
  obtain ⟨low, rfl⟩ := List.getElem?_eq_some_iff.1 found
  rcases Nat.eq_zero_or_pos number with rfl | later
  · exact Nat.le_refl _
  · exact Nat.le_of_lt (List.pairwise_iff_getElem.1 (pairwise_start scope) 0 number low bound later)

theorem HoldsEntry.first_start_eq_iff (entered : scope.HoldsEntry) {first : Block}
    (found : scope.blocks[0]? = some first) :
    first.start = scope.entry ↔ ¬ scope.LeadsBefore := by
  rw [entered.leadsBefore_iff]
  constructor
  · rintro starts ⟨address, member, before⟩
    have last := entered.entry_lt_endAddress
    obtain ⟨block, hblock, rfl⟩ := exists_block_of_mem_boundaries member (by omega)
    have le := start_le_of_first found hblock
    omega
  · intro none
    obtain ⟨block, hblock, heq⟩ := entered.exists_block_at_entry
    have le := start_le_of_first found hblock
    by_contra ne
    exact none ⟨first.start, start_mem_boundaries (List.mem_of_getElem? found), by omega⟩

end Scope

namespace FlowGraph

variable {scope : Scope} {options : Options} {flow : FlowGraph} {address : Nat}

def StartsAt (flow : FlowGraph) (address : Nat) : Prop :=
  ∃ number block node, flow.blocks[number]? = some block ∧ block.start = address ∧
    flow.nodeOf? number = some node ∧ flow.graph.succ flow.entry = [node]

theorem exists_succ_entry (entered : scope.HoldsEntry) (built : build scope options = .ok flow) :
    ∃ node, flow.nodeOf? 0 = some node ∧ flow.graph.succ flow.entry = [node] := by
  obtain ⟨wired, resolved, stages⟩ := build_eq_ok built
  obtain ⟨target, index, only⟩ := stages.exists_outEdge_entry
  obtain ⟨first, found⟩ := entered.exists_first
  have filled : scope.blocks.isEmpty = false := by
    simpa using List.ne_nil_of_mem (List.mem_of_getElem? found)
  rw [Draft.firstIndex, filled, if_neg (by simp)] at index
  exact ⟨target, stages.index_eq_iff.2 index, by simp [Digraph.succ, only]⟩

theorem startsAt_iff (entered : scope.HoldsEntry) (built : build scope options = .ok flow) :
    flow.StartsAt address ↔
      ∃ first : Block, scope.blocks[0]? = some first ∧ first.start = address := by
  obtain ⟨wired, resolved, stages⟩ := build_eq_ok built
  obtain ⟨target, htarget, only⟩ := exists_succ_entry entered built
  constructor
  · rintro ⟨number, block, node, found, heq, hnode, succ⟩
    obtain rfl : target = node := by simpa [only] using succ
    have same : number = 0 := by
      rw [stages.wellFormed.nodeOf?_iff] at hnode htarget
      exact Option.some.inj (hnode.symm.trans htarget)
    subst same
    obtain ⟨original, horiginal, hblock⟩ := stages.getElem?_scope_blocks found
    rw [hblock] at heq
    exact ⟨original, horiginal, heq⟩
  · rintro ⟨first, found, heq⟩
    obtain ⟨block, hblock, same⟩ := stages.getElem?_flow_blocks found
    refine ⟨0, block, target, hblock, ?_, htarget, only⟩
    rw [same]
    exact heq

/-- The entry leads to the lowest of the blocks and nowhere else.  A block starts at the declared
entry, and it is the one entered exactly if no jump leads before it. -/
theorem entry_leads_to_lowest_block (entered : scope.HoldsEntry)
    (built : build scope options = .ok flow) :
    (∃ first, flow.blocks[0]? = some first ∧ flow.StartsAt first.start ∧
      ∀ block ∈ flow.blocks, first.start ≤ block.start) ∧
    (∃ block ∈ flow.blocks, block.start = scope.entry) ∧
    (flow.StartsAt scope.entry ↔ ¬ scope.LeadsBefore) := by
  obtain ⟨wired, resolved, stages⟩ := build_eq_ok built
  obtain ⟨original, found⟩ := entered.exists_first
  obtain ⟨first, hfirst, same⟩ := stages.getElem?_flow_blocks found
  have start : first.start = original.start := by rw [same]
  refine ⟨⟨first, hfirst, ?_, fun block member => ?_⟩, ?_, ?_⟩
  · exact (startsAt_iff entered built).2 ⟨original, found, start.symm⟩
  · obtain ⟨number, hnumber⟩ := List.mem_iff_getElem?.1 member
    obtain ⟨other, hother, heq⟩ := stages.getElem?_scope_blocks hnumber
    have le := Scope.start_le_of_first found (List.mem_of_getElem? hother)
    rw [start, heq]
    exact le
  · obtain ⟨block, member, starts⟩ := entered.exists_block_at_entry
    obtain ⟨number, hnumber⟩ := List.mem_iff_getElem?.1 member
    obtain ⟨copy, hcopy, heq⟩ := stages.getElem?_flow_blocks hnumber
    refine ⟨copy, List.mem_of_getElem? hcopy, ?_⟩
    rw [heq]
    exact starts
  · rw [startsAt_iff entered built, ← entered.first_start_eq_iff found]
    simp [found]

def lateSample : Scope :=
  { entry := 1
    instructions := [
      ⟨0, .nop, .none, 1, 0, false⟩,
      ⟨1, .loadName, .name "c", 2, 0, false⟩,
      ⟨4, .popJumpIfFalse, .arg 1, 2, 0, false⟩,
      ⟨7, .returnValue, .none, 3, 0, false⟩]
    sorted := by decide }

theorem lateSample_starts_at_entry :
    lateSample.HoldsEntry ∧ ∃ flow, build lateSample {} = .ok flow ∧ flow.StartsAt 1 := by
  have entered : lateSample.HoldsEntry := by decide
  have run : succeedsWith (fun _ => true) (build lateSample {}) = true := by decide +kernel
  obtain ⟨flow, built, -⟩ := succeedsWith_iff.1 run
  have low : ¬ ∃ address ∈ lateSample.boundaries, address < lateSample.entry := by decide +kernel
  obtain ⟨-, -, starts⟩ := entry_leads_to_lowest_block entered built
  exact ⟨entered, flow, built, starts.2 (mt entered.leadsBefore_iff.1 low)⟩

def earlySample : Scope :=
  { entry := 1
    instructions := [
      ⟨0, .nop, .none, 1, 0, false⟩,
      ⟨1, .loadName, .name "c", 2, 0, false⟩,
      ⟨4, .popJumpIfFalse, .arg 0, 2, 0, false⟩,
      ⟨7, .returnValue, .none, 3, 0, false⟩]
    sorted := by decide }

/-- So control can enter a graph at another address than the declared one. -/
theorem not_forall_starts_at_entry :
    ¬ ∀ (scope : Scope) (options : Options) (flow : FlowGraph), scope.Distinct →
      scope.HoldsEntry → build scope options = .ok flow → flow.StartsAt scope.entry := by
  intro every
  have entered : earlySample.HoldsEntry := by decide
  have run : succeedsWith (fun _ => true) (build earlySample {}) = true := by decide +kernel
  obtain ⟨flow, built, -⟩ := succeedsWith_iff.1 run
  have starts := every earlySample {} flow (by decide) entered built
  obtain ⟨first, found, heq⟩ := (startsAt_iff entered built).1 starts
  have low : earlySample.blocks[0]?.map Block.start = some 0 := by decide +kernel
  rw [found, Option.map_some, heq] at low
  exact absurd low (by decide)

end FlowGraph

end StackFlow
