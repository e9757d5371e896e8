import StackFlow.Proofs.Leaders

/-!
# Extended arguments and block starts

A destination is moved once, to the extended-argument operation right in front of it.  So a block
does not start between such an operation and the instruction that it extends, unless that
instruction is an extended-argument operation too: a jump to what the second one extends is moved to
the second, and parts it from the first.
-/

namespace StackFlow.Scope

variable {scope : Scope} {position other address : Nat} {previous instr landing : Instruction}
  {blocks : List Block}

/-! ## Extended arguments -/

structure Extended (scope : Scope) (position : Nat) (previous instr : Instruction) : Prop where
  first : scope.instructions[position]? = some previous
  second : scope.instructions[position + 1]? = some instr
  extends_arg : previous.op = .extendedArg

/-- A jump of the scope has the address as its destination, before it is moved. -/
def Encodes (scope : Scope) (address : Nat) : Prop :=
  ∃ previous instr, (previous, instr) ∈ scope.withPrevious ∧
    instr.jumpDestination (extension previous) scope.jumpWidth = some address

theorem mem_withPrevious_iff :
    (some previous, instr) ∈ scope.withPrevious ↔
      ∃ position, scope.instructions[position]? = some previous ∧
        scope.instructions[position + 1]? = some instr := by
  simp only [withPrevious, List.mem_iff_getElem?, List.getElem?_zip_eq_some]
  constructor
  · rintro ⟨index, hprevious, hinstr⟩
    cases index with
    | zero => simp at hprevious
    | succ position => exact ⟨position, by simpa using hprevious, hinstr⟩
  · rintro ⟨position, hprevious, hinstr⟩
    exact ⟨position + 1, by simpa using hprevious, hinstr⟩

theorem anchor_cases (scope : Scope) (address : Nat) :
    (∃ position previous instr, scope.Extended position previous instr ∧
      instr.address = address ∧ scope.anchor address = previous.address) ∨
    (∀ position previous instr, scope.Extended position previous instr →
      instr.address ≠ address) ∧ scope.anchor address = address := by
  simp only [anchor]
  generalize hanchors : List.filterMap _ scope.withPrevious = anchors
  have mem_anchors : ∀ anchor, anchor ∈ anchors ↔ ∃ position previous instr,
      scope.Extended position previous instr ∧ instr.address = address ∧
        previous.address = anchor := by
    intro anchor
    rw [← hanchors, List.mem_filterMap]
    constructor
    · rintro ⟨⟨_ | previous, instr⟩, member, moved⟩
      · cases moved
      · obtain ⟨position, hprevious, hinstr⟩ := mem_withPrevious_iff.1 member
        simp only [Bool.and_eq_true, decide_eq_true_eq, beq_iff_eq, Option.ite_none_right_eq_some,
          Option.some.injEq] at moved
        obtain ⟨⟨extended, heq⟩, moved⟩ := moved
        exact ⟨position, previous, instr, ⟨hprevious, hinstr, extended⟩, heq, moved⟩
    · rintro ⟨position, previous, instr, extended, rfl, rfl⟩
      exact ⟨(some previous, instr),
        mem_withPrevious_iff.2 ⟨position, extended.first, extended.second⟩,
        by simp [extended.extends_arg]⟩
  rcases List.eq_nil_or_concat anchors with rfl | ⟨rest, last, rfl⟩
  · refine .inr ⟨fun position previous instr extended heq => ?_, rfl⟩
    exact List.not_mem_nil ((mem_anchors _).2 ⟨position, previous, instr, extended, heq, rfl⟩)
  · obtain ⟨position, previous, instr, extended, heq, moved⟩ := (mem_anchors last).1 (by simp)
    exact .inl ⟨position, previous, instr, extended, heq, by simp [moved]⟩

/-! ## Positions and addresses -/

theorem Distinct.position_eq (distinct : scope.Distinct)
    (hprevious : scope.instructions[position]? = some previous)
    (hinstr : scope.instructions[other]? = some instr) (same : previous.address = instr.address) :
    position = other := by
  have first : (scope.instructions.map Instruction.address)[position]? = some instr.address := by
    simp [hprevious, same]
  have second : (scope.instructions.map Instruction.address)[other]? = some instr.address := by
    simp [hinstr]
  exact (List.getElem?_inj (List.getElem?_eq_some_iff.1 first).1 distinct).1
    (first.trans second.symm)

theorem Distinct.anchor_eq (distinct : scope.Distinct)
    (extended : scope.Extended position previous instr) :
    scope.anchor instr.address = previous.address := by
  rcases anchor_cases scope instr.address with
    ⟨index, other, following, there, same, moved⟩ | ⟨none, -⟩
  · have heq := distinct.position_eq there.second extended.second same
    obtain rfl : index = position := by omega
    rw [moved, Option.some.inj (there.first.symm.trans extended.first)]
  · exact absurd rfl (none position previous instr extended)

theorem exists_destination_iff :
    (∃ code ∈ scope.decoded, code.destination = some address) ↔
      ∃ encoded, scope.Encodes encoded ∧ scope.anchor encoded = address := by
  simp only [decoded, List.mem_map, Encodes]
  constructor
  · rintro ⟨code, ⟨⟨previous, instr⟩, member, rfl⟩, lands⟩
    obtain ⟨encoded, hencoded, moved⟩ := Option.map_eq_some_iff.1 lands
    exact ⟨encoded, ⟨previous, instr, member, hencoded⟩, moved⟩
  · rintro ⟨encoded, ⟨previous, instr, member, hencoded⟩, rfl⟩
    exact ⟨_, ⟨(previous, instr), member, rfl⟩, by simp [hencoded]⟩

/-! ## Blocks -/

theorem Extended.exists_codes (extended : scope.Extended position previous instr) :
    ∃ first second, scope.decoded[position]? = some first ∧ first.instr = previous ∧
      scope.decoded[position + 1]? = some second ∧ second.instr = instr := by
  have hprevious := extended.first
  have hinstr := extended.second
  rw [getElem?_instructions, Option.map_eq_some_iff] at hprevious hinstr
  obtain ⟨first, hfirst, rfl⟩ := hprevious
  obtain ⟨second, hsecond, rfl⟩ := hinstr
  exact ⟨first, second, hfirst, rfl, hsecond, rfl⟩

section

variable (distinct : scope.Distinct) (extended : scope.Extended position previous instr)

include distinct extended

theorem Distinct.address_lt : previous.address < instr.address := by
  obtain ⟨first, second, hfirst, rfl, hsecond, rfl⟩ := extended.exists_codes
  exact (distinct.lt_iff hfirst hsecond).2 (Nat.lt_succ_self position)

variable (enters : scope.EntersFirst)

include enters

theorem Distinct.exists_start_iff :
    (∃ block ∈ scope.blocks, block.start = instr.address) ↔
      instr.op = .extendedArg ∧ ∃ landing, scope.instructions[position + 2]? = some landing ∧
        scope.Encodes landing.address := by
  constructor
  · rintro ⟨block, member, starts⟩
    have lt := distinct.address_lt extended
    have entry := enters.entry_le (List.mem_of_getElem? extended.first)
    have leads := mem_jumpLeaders_of_start member (by omega)
    rw [starts] at leads
    rcases cases_of_mem_jumpLeaders leads with ⟨code, hcode, -, lands⟩ |
      ⟨index, code, next, hcode, hnext, carries, -, heq⟩
    · obtain ⟨encoded, hencoded, moved⟩ := exists_destination_iff.1 ⟨code, hcode, lands⟩
      rcases anchor_cases scope encoded with
        ⟨index, second, landing, there, rfl, same⟩ | ⟨none, same⟩
      · have hindex := distinct.position_eq there.first extended.second (same.symm.trans moved)
        subst hindex
        obtain rfl := Option.some.inj (there.first.symm.trans extended.second)
        exact ⟨there.extends_arg, landing, there.second, hencoded⟩
      · exact absurd (moved.symm.trans same) (none position previous instr extended)
    · -- the operation right before would have to carry a jump
      have hinstr : scope.instructions[index + 1]? = some next.instr := by
        simp [getElem?_instructions, hnext]
      have hindex := distinct.position_eq hinstr extended.second heq
      obtain rfl : index = position := by omega
      have hprevious := extended.first
      rw [getElem?_instructions, hcode, Option.map_some, Option.some.injEq] at hprevious
      rw [hprevious, extended.extends_arg] at carries
      cases carries
  · rintro ⟨second, landing, hlanding, encoded⟩
    have there : scope.Extended (position + 1) instr landing := ⟨extended.second, hlanding, second⟩
    obtain ⟨code, hcode, lands⟩ :=
      exists_destination_iff.2 ⟨landing.address, encoded, distinct.anchor_eq there⟩
    exact exists_block_of_mem_jumpLeaders enters (List.mem_of_getElem? extended.second)
      (mem_jumpLeaders_of_destination hcode (addressing_isSome_of_destination hcode lands) lands)

theorem Distinct.exists_common_block_iff :
    (∃ block ∈ scope.blocks, previous ∈ block.instructions ∧ instr ∈ block.instructions) ↔
      ¬ ∃ block ∈ scope.blocks, block.start = instr.address := by
  have lt := distinct.address_lt extended
  constructor
  · rintro ⟨block, member, hprevious, hinstr⟩ ⟨other, hother, starts⟩
    obtain ⟨number, found⟩ := List.mem_iff_getElem?.1 member
    have low := (covers_of_mem found hprevious).low
    have boundary := start_mem_boundaries hother
    rw [starts] at boundary
    have start := (covers_of_mem found hinstr).start_eq boundary
    omega
  · intro none
    obtain ⟨first, second, hfirst, rfl, hsecond, rfl⟩ := extended.exists_codes
    have hnext := List.mem_of_getElem? hsecond
    obtain ⟨number, block, covers⟩ := exists_covers enters (List.mem_of_getElem? hfirst)
    rcases distinct.next_cases hfirst hsecond covers with inside | ⟨-, boundary⟩
    · exact ⟨block, List.mem_of_getElem? covers.found,
        (covers.mem_instructions_iff (List.mem_of_getElem? hfirst)).2 covers,
        (covers.mem_instructions_iff hnext).2 inside⟩
    · obtain ⟨_, other, there⟩ := exists_covers enters hnext
      exact absurd ⟨other, List.mem_of_getElem? there.found, there.start_eq boundary⟩ none

end

/-- An extended-argument operation is in one block with the instruction that it extends, unless a
block starts at that instruction.  This happens just if the instruction extends the argument of a
third one, to which a jump leads. -/
theorem parted_iff_doubly_extended (distinct : scope.Distinct) (enters : scope.EntersFirst)
    (made : scope.checkedBlocks = .ok blocks)
    (hprevious : scope.instructions[position]? = some previous)
    (hinstr : scope.instructions[position + 1]? = some instr)
    (extends_arg : previous.op = .extendedArg) :
    ((∃ block ∈ blocks, block.start = instr.address) ↔
      instr.op = .extendedArg ∧ ∃ landing, scope.instructions[position + 2]? = some landing ∧
        scope.Encodes landing.address) ∧
    ((∃ block ∈ blocks, previous ∈ block.instructions ∧ instr ∈ block.instructions) ↔
      ¬ ∃ block ∈ blocks, block.start = instr.address) := by
  obtain ⟨-, rfl⟩ := checkedBlocks_eq_ok_iff.1 made
  have extended : scope.Extended position previous instr := ⟨hprevious, hinstr, extends_arg⟩
  exact ⟨distinct.exists_start_iff extended enters,
    distinct.exists_common_block_iff extended enters⟩

def doubledSample : Scope :=
  { instructions := [
      ⟨0, .loadName, .name "c", 1, 0, false⟩,
      ⟨3, .popJumpIfFalse, .arg 12, 1, 0, false⟩,
      ⟨6, .extendedArg, .arg 0, 2, 0, false⟩,
      ⟨9, .extendedArg, .arg 0, 2, 0, false⟩,
      ⟨12, .loadConst, .const .none, 2, 0, false⟩,
      ⟨15, .returnValue, .none, 2, 0, false⟩]
    sorted := by decide }

theorem doubledSample_parted_once :
    doubledSample.Distinct ∧ doubledSample.EntersFirst ∧
    ∃ blocks, doubledSample.checkedBlocks = .ok blocks ∧
      (∃ block ∈ blocks, block.start = 9) ∧ (¬ ∃ block ∈ blocks, block.start = 12) ∧
      ∃ block ∈ blocks, ⟨9, .extendedArg, .arg 0, 2, 0, false⟩ ∈ block.instructions ∧
        ⟨12, .loadConst, .const .none, 2, 0, false⟩ ∈ block.instructions := by
  have distinct : doubledSample.Distinct := by decide
  have enters : doubledSample.EntersFirst := rfl
  have made : doubledSample.checkedBlocks = .ok doubledSample.blocks :=
    checkedBlocks_eq_ok (by decide)
  have encoded : doubledSample.Encodes 12 :=
    ⟨some ⟨0, .loadName, .name "c", 1, 0, false⟩, ⟨3, .popJumpIfFalse, .arg 12, 1, 0, false⟩,
      by decide, by decide⟩
  obtain ⟨first, -⟩ := @parted_iff_doubly_extended doubledSample 2 _ _ _ distinct enters made
    rfl rfl rfl
  obtain ⟨second, together⟩ := @parted_iff_doubly_extended doubledSample 3 _ _ _ distinct enters
    made rfl rfl rfl
  have kept : ¬ ∃ block ∈ doubledSample.blocks, block.start = 12 :=
    fun starts => nomatch (second.1 starts).1
  exact ⟨distinct, enters, _, made, first.2 ⟨rfl, _, rfl, encoded⟩, kept, together.2 kept⟩

/-- So a block can start right behind an extended-argument operation. -/
theorem not_forall_kept_together :
    ¬ ∀ scope : Scope, scope.Distinct → scope.EntersFirst →
      ∀ blocks, scope.checkedBlocks = .ok blocks → ∀ position previous instr,
        scope.instructions[position]? = some previous →
        scope.instructions[position + 1]? = some instr → previous.op = .extendedArg →
        ∀ block ∈ blocks, block.start ≠ instr.address := by
  intro kept
  have starts : (doubledSample.blocks.any fun block => block.start == 9) = true := by
    decide +kernel
  obtain ⟨block, member, heq⟩ := List.any_eq_true.1 starts
  exact kept doubledSample (by decide) rfl _ (checkedBlocks_eq_ok (by decide)) 2 _ _ rfl rfl rfl
    block member (beq_iff_eq.1 heq)

end StackFlow.Scope
