import Mathlib.Data.List.Pairwise
import StackFlow.Proofs.Coverage

/-!
# Where blocks start

A jump that lands on an instruction lands on the start of a block, and an operation that carries a
jump and may fall through is the last of its block.  So control enters a block at its start only,
and from the instruction at a position it goes on in the same block or to the start of another.
Blocks start nowhere else, apart from the entry.
-/

namespace StackFlow.Scope

variable {scope : Scope} {position number address : Nat} {code next : Decoded} {block : Block}

/-! ## Leaders -/

theorem mem_jumpLeaders_cons {head : Decoded} {rest : List Decoded} :
    address ∈ jumpLeaders (head :: rest) ↔
      head.instr.op.addressing.isSome = true ∧
          (head.destination = some address ∨ head.instr.op.neverFallsThrough = false ∧
            ∃ next, rest.head? = some next ∧ next.instr.address = address) ∨
        address ∈ jumpLeaders rest := by
  rw [jumpLeaders, List.mem_append]
  refine or_congr_left ?_
  cases head.instr.op.addressing with
  | none => simp
  | some addressing => cases head.instr.op.neverFallsThrough <;> simp

theorem mem_jumpLeaders_of_destination {codes : List Decoded} (member : code ∈ codes)
    (carries : code.instr.op.addressing.isSome = true)
    (hdestination : code.destination = some address) : address ∈ jumpLeaders codes := by
  induction codes with
  | nil => cases member
  | cons head rest ih =>
      rw [mem_jumpLeaders_cons]
      rcases List.mem_cons.1 member with rfl | later
      · exact .inl ⟨carries, .inl hdestination⟩
      · exact .inr (ih later)

theorem mem_jumpLeaders_of_next {codes : List Decoded} (found : codes[position]? = some code)
    (hnext : codes[position + 1]? = some next)
    (carries : code.instr.op.addressing.isSome = true)
    (falls : code.instr.op.neverFallsThrough = false) :
    next.instr.address ∈ jumpLeaders codes := by
  induction codes generalizing position with
  | nil => cases found
  | cons head rest ih =>
      rw [mem_jumpLeaders_cons]
      cases position with
      | zero =>
          obtain rfl := Option.some.inj found
          have first : rest.head? = some next := by simpa [List.head?_eq_getElem?] using hnext
          exact .inl ⟨carries, .inr ⟨falls, next, first, rfl⟩⟩
      | succ position => exact .inr (ih found hnext)

theorem cases_of_mem_jumpLeaders {codes : List Decoded} (member : address ∈ jumpLeaders codes) :
    (∃ code ∈ codes, code.instr.op.addressing.isSome = true ∧ code.destination = some address) ∨
      ∃ position code next, codes[position]? = some code ∧ codes[position + 1]? = some next ∧
        code.instr.op.addressing.isSome = true ∧ code.instr.op.neverFallsThrough = false ∧
        next.instr.address = address := by
  induction codes with
  | nil => simp [jumpLeaders] at member
  | cons head rest ih =>
      rcases mem_jumpLeaders_cons.1 member with
        ⟨carries, lands | ⟨falls, next, first, heq⟩⟩ | later
      · exact .inl ⟨head, List.mem_cons_self, carries, lands⟩
      · have second : (head :: rest)[0 + 1]? = some next := by
          simpa [List.head?_eq_getElem?] using first
        exact .inr ⟨0, head, next, rfl, second, carries, falls, heq⟩
      · rcases ih later with ⟨code, hcode, facts⟩ | ⟨position, code, next, found, hnext, facts⟩
        · exact .inl ⟨code, List.mem_cons_of_mem _ hcode, facts⟩
        · exact .inr ⟨position + 1, code, next, found, hnext, facts⟩

theorem mem_boundaries_of_mem_jumpLeaders (member : address ∈ jumpLeaders scope.decoded)
    (instr : ∃ code ∈ scope.decoded, code.instr.address = address) :
    address ∈ scope.boundaries := by
  obtain ⟨code, hcode, rfl⟩ := instr
  refine mem_boundaries_iff.2 ⟨SortedSet.mem_ofList.2 (List.mem_append_left _ member), .inr ?_⟩
  exact ⟨code.instr, map_instr_decoded scope ▸ List.mem_map_of_mem hcode, rfl⟩

/-! ## Blocks and positions -/

structure Covers (scope : Scope) (number : Nat) (block : Block) (address : Nat) : Prop where
  found : scope.blocks[number]? = some block
  low : block.start ≤ address
  high : address < block.endAddress

theorem covers_of_mem (found : scope.blocks[number]? = some block) {instr : Instruction}
    (member : instr ∈ block.instructions) : scope.Covers number block instr.address := by
  obtain ⟨start, stop, -, -, spans⟩ := getElem?_blocks found
  have inside := spans.contains_of_mem member
  simp only [Block.contains, Bool.and_eq_true, decide_eq_true_eq] at inside
  exact ⟨found, inside.1, inside.2⟩

namespace Covers

variable (covers : scope.Covers number block address)

include covers

theorem spans : scope.Spans block.start block.endAddress block := by
  obtain ⟨start, stop, -, -, spans⟩ := getElem?_blocks covers.found
  rw [spans.start_eq, spans.endAddress_eq]
  exact spans

theorem mem_instructions_iff (hcode : code ∈ scope.decoded) :
    code.instr ∈ block.instructions ↔ scope.Covers number block code.instr.address := by
  constructor
  · exact covers_of_mem covers.found
  · intro inside
    rw [covers.spans.instructions_eq]
    exact List.mem_map_of_mem (mem_codeBetween_iff.2 ⟨hcode, inside.low, inside.high⟩)

theorem endAddress_le {boundary : Nat} (member : boundary ∈ scope.boundaries)
    (lt : block.start < boundary) : block.endAddress ≤ boundary := by
  obtain ⟨start, stop, hstart, hstop, spans⟩ := getElem?_blocks covers.found
  rw [spans.start_eq] at lt
  rw [spans.endAddress_eq]
  obtain ⟨index, hindex, rfl⟩ := List.mem_iff_getElem.1 member
  obtain ⟨lower, rfl⟩ := List.getElem?_eq_some_iff.1 hstart
  obtain ⟨upper, rfl⟩ := List.getElem?_eq_some_iff.1 hstop
  have ascending := List.pairwise_iff_getElem.1 (pairwise_boundaries scope)
  by_contra past
  by_cases before : index < number
  · have earlier := ascending index number hindex lower before
    omega
  · by_cases after : number + 1 < index
    · have later := ascending (number + 1) index upper hindex after
      omega
    · obtain rfl | rfl : index = number ∨ index = number + 1 := by omega
      · omega
      · omega

theorem start_eq (member : address ∈ scope.boundaries) : block.start = address := by
  by_contra ne
  have le := covers.endAddress_le member (Nat.lt_of_le_of_ne covers.low ne)
  have lt := covers.high
  omega

theorem unique {other : Nat} {candidate : Block}
    (others : scope.Covers other candidate address) : other = number ∧ candidate = block := by
  have apart := List.pairwise_iff_getElem.1 (pairwise_blocks scope)
  obtain ⟨bound, hblock⟩ := List.getElem?_eq_some_iff.1 covers.found
  obtain ⟨limit, hcandidate⟩ := List.getElem?_eq_some_iff.1 others.found
  have low := covers.low
  have high := covers.high
  have low' := others.low
  have high' := others.high
  rcases Nat.lt_trichotomy other number with before | same | after
  · have le := apart other number limit bound before
    rw [hcandidate, hblock] at le
    omega
  · subst same
    exact ⟨rfl, hcandidate.symm.trans hblock⟩
  · have le := apart number other bound limit after
    rw [hcandidate, hblock] at le
    omega

end Covers

theorem exists_covers (enters : scope.EntersFirst) (hcode : code ∈ scope.decoded) :
    ∃ number block, scope.Covers number block code.instr.address := by
  have member : code.instr ∈ scope.instructions :=
    map_instr_decoded scope ▸ List.mem_map_of_mem hcode
  obtain ⟨block, hblock, inside⟩ :=
    enters.tiles.exists_contains (enters.entry_le member) (address_lt_endAddress member)
  obtain ⟨number, found⟩ := List.mem_iff_getElem?.1 hblock
  simp only [Block.contains, Bool.and_eq_true, decide_eq_true_eq] at inside
  exact ⟨number, block, found, inside.1, inside.2⟩

def Distinct (scope : Scope) : Prop :=
  (scope.instructions.map Instruction.address).Nodup

instance : Decidable scope.Distinct :=
  inferInstanceAs (Decidable (List.Nodup _))

theorem Distinct.pairwise_decoded (distinct : scope.Distinct) :
    scope.decoded.Pairwise fun first second => first.instr.address < second.instr.address := by
  unfold Distinct at distinct
  rw [← map_instr_decoded, List.map_map] at distinct
  refine ((sorted_decoded scope).and (List.pairwise_map.1 distinct)).imp ?_
  exact fun both => Nat.lt_of_le_of_ne both.1 both.2

theorem Distinct.lt_iff (distinct : scope.Distinct) {other : Nat}
    (found : scope.decoded[position]? = some code) (hnext : scope.decoded[other]? = some next) :
    code.instr.address < next.instr.address ↔ position < other := by
  have ascending := distinct.pairwise_decoded
  obtain ⟨bound, rfl⟩ := List.getElem?_eq_some_iff.1 found
  obtain ⟨limit, rfl⟩ := List.getElem?_eq_some_iff.1 hnext
  rw [List.pairwise_iff_getElem] at ascending
  constructor
  · intro lt
    by_contra past
    rcases Nat.lt_or_eq_of_le (Nat.not_lt.1 past) with before | rfl
    · have gt := ascending other position limit bound before
      omega
    · omega
  · exact ascending position other bound limit

section Positions

variable (distinct : scope.Distinct) (found : scope.decoded[position]? = some code)

include distinct found

theorem Distinct.eq_of_address_eq {other : Decoded} (member : other ∈ scope.decoded)
    (same : other.instr.address = code.instr.address) : other = code := by
  obtain ⟨index, hindex⟩ := List.mem_iff_getElem?.1 member
  have forward := distinct.lt_iff found hindex
  have backward := distinct.lt_iff hindex found
  obtain rfl : index = position := by omega
  exact Option.some.inj (hindex.symm.trans found)

theorem Distinct.next_cases
    (hnext : scope.decoded[position + 1]? = some next)
    (covers : scope.Covers number block code.instr.address) :
    scope.Covers number block next.instr.address ∨
      next.instr.address = block.endAddress ∧ next.instr.address ∈ scope.boundaries := by
  have lt := (distinct.lt_iff found hnext).2 (Nat.lt_succ_self position)
  have low := covers.low
  by_cases inside : next.instr.address < block.endAddress
  · exact .inl ⟨covers.found, by omega, inside⟩
  · right
    obtain ⟨start, stop, -, hstop, spans⟩ := getElem?_blocks covers.found
    have stops : block.endAddress ∈ scope.boundaries :=
      spans.endAddress_eq ▸ List.mem_of_getElem? hstop
    have inner : block.endAddress ≠ scope.endAddress := by
      have bound := address_lt_endAddress
        (map_instr_decoded scope ▸ List.mem_map_of_mem (List.mem_of_getElem? hnext))
      omega
    -- the end of the block is the address of an instruction, and none lies in between
    obtain ⟨other, hother, same⟩ := exists_code_of_mem_boundaries stops inner
    obtain ⟨index, hindex⟩ := List.mem_iff_getElem?.1 hother
    have high := covers.high
    have after := distinct.lt_iff found hindex
    have before := distinct.lt_iff hnext hindex
    have equal : next.instr.address = block.endAddress := by
      by_contra ne
      have above := distinct.lt_iff hindex hnext
      omega
    exact ⟨equal, equal ▸ stops⟩

section Last

variable (covers : scope.Covers number block code.instr.address)
  (carries : code.instr.op.addressing.isSome = true)
  (falls : code.instr.op.neverFallsThrough = false)

include covers carries falls

theorem Distinct.endAddress_le_next (hnext : scope.decoded[position + 1]? = some next) :
    block.endAddress ≤ next.instr.address := by
  have member := mem_boundaries_of_mem_jumpLeaders
    (mem_jumpLeaders_of_next found hnext carries falls) ⟨next, List.mem_of_getElem? hnext, rfl⟩
  have lt := (distinct.lt_iff found hnext).2 (Nat.lt_succ_self position)
  have low := covers.low
  exact covers.endAddress_le member (by omega)

theorem Distinct.address_le {instr : Instruction} (member : instr ∈ block.instructions) :
    instr.address ≤ code.instr.address := by
  rw [covers.spans.instructions_eq] at member
  obtain ⟨other, hother, rfl⟩ := List.mem_map.1 member
  obtain ⟨hother, -, high⟩ := mem_codeBetween_iff.1 hother
  obtain ⟨index, hindex⟩ := List.mem_iff_getElem?.1 hother
  by_contra past
  have after := (distinct.lt_iff found hindex).1 (Nat.not_le.1 past)
  obtain ⟨bound, -⟩ := List.getElem?_eq_some_iff.1 hindex
  have hnext := List.getElem?_eq_getElem (Nat.lt_of_le_of_lt after bound)
  have le := distinct.endAddress_le_next found covers carries falls hnext
  have order := distinct.lt_iff hindex hnext
  omega

theorem Distinct.getLastD_eq {first : Decoded} {rest : List Decoded}
    (split : scope.codeBetween block.start block.endAddress = first :: rest) :
    rest.getLastD first = code := by
  have hlast : rest.getLastD first ∈ scope.codeBetween block.start block.endAddress := by
    rw [split, ← List.getLast_eq_getLastD (List.cons_ne_nil first rest)]
    exact List.getLast_mem _
  have inside : code ∈ scope.codeBetween block.start block.endAddress :=
    mem_codeBetween_iff.2 ⟨List.mem_of_getElem? found, covers.low, covers.high⟩
  refine distinct.eq_of_address_eq found (mem_codeBetween_iff.1 hlast).1 (Nat.le_antisymm ?_ ?_)
  · refine distinct.address_le found covers carries falls ?_
    rw [covers.spans.instructions_eq]
    exact List.mem_map_of_mem hlast
  · have sorted := pairwise_codeBetween scope block.start block.endAddress
    rw [split] at sorted inside
    rw [← List.getLast_eq_getLastD (List.cons_ne_nil first rest)]
    exact sorted.rel_getLast_of_rel_getLast_getLast inside (Nat.le_refl _)

theorem Distinct.last?_eq : block.last? = some code.instr := by
  obtain ⟨first, rest, next, split, -⟩ := covers.spans.ofCode
  have last := distinct.getLastD_eq found covers carries falls split
  rw [Block.last?, covers.spans.instructions_eq, split, List.getLast?_map,
    List.getLast?_eq_some_getLast (List.cons_ne_nil first rest), List.getLast_eq_getLastD,
    last, Option.map_some]

end Last

end Positions

/-! ## Block starts -/

theorem exists_block_of_mem_jumpLeaders (enters : scope.EntersFirst) {instr : Instruction}
    (member : instr ∈ scope.instructions) (leads : instr.address ∈ jumpLeaders scope.decoded) :
    ∃ block ∈ scope.blocks, block.start = instr.address := by
  rw [← map_instr_decoded] at member
  obtain ⟨code, hcode, rfl⟩ := List.mem_map.1 member
  obtain ⟨number, block, covers⟩ := exists_covers enters hcode
  have starts := mem_boundaries_of_mem_jumpLeaders leads ⟨code, hcode, rfl⟩
  exact ⟨block, List.mem_of_getElem? covers.found, covers.start_eq starts⟩

theorem start_mem_boundaries (member : block ∈ scope.blocks) :
    block.start ∈ scope.boundaries := by
  obtain ⟨number, found⟩ := List.mem_iff_getElem?.1 member
  obtain ⟨start, stop, hstart, -, spans⟩ := getElem?_blocks found
  exact spans.start_eq ▸ List.mem_of_getElem? hstart

theorem mem_jumpLeaders_of_start (member : block ∈ scope.blocks)
    (inner : block.start ≠ scope.entry) : block.start ∈ jumpLeaders scope.decoded := by
  have leads := SortedSet.mem_ofList.1 (mem_boundaries_iff.1 (start_mem_boundaries member)).1
  have before := start_lt_endAddress member
  have past : block.start ≠ scope.endAddress := by omega
  simpa [inner, past] using leads

theorem getElem?_instructions (scope : Scope) (position : Nat) :
    scope.instructions[position]? = scope.decoded[position]?.map Decoded.instr := by
  rw [← List.getElem?_map, map_instr_decoded]

end StackFlow.Scope

namespace StackFlow

theorem Opcode.neverFallsThrough_eq_false_iff {op : Opcode} :
    op.neverFallsThrough = false ↔ op ≠ .jumpAbsolute ∧ op ≠ .jumpForward := by
  cases op <;> simp [neverFallsThrough]

/-- A scope has blocks exactly if its end is a word.  A jump that leads to an instruction leads to
the start of a block.  An operation that carries a jump and is no unconditional jump is the last of
its block.  And a block other than the first starts where such a jump leads or right after such an
operation. -/
theorem Scope.block_starts_are_leaders {scope : Scope} (distinct : scope.Distinct)
    (enters : scope.EntersFirst) :
    ((∃ blocks, scope.checkedBlocks = .ok blocks) ↔ scope.endAddress < Word.limit) ∧
    ∀ blocks, scope.checkedBlocks = .ok blocks →
      (∀ code ∈ scope.decoded, code.instr.op.addressing.isSome = true →
        ∀ landing ∈ scope.instructions, code.destination = some landing.address →
          ∃ block ∈ blocks, block.start = landing.address) ∧
      (∀ instr ∈ scope.instructions, instr.op.addressing.isSome = true →
        instr.op ≠ .jumpAbsolute → instr.op ≠ .jumpForward →
          (∃ block ∈ blocks, instr ∈ block.instructions) ∧
            ∀ block ∈ blocks, instr ∈ block.instructions → block.last? = some instr) ∧
      ∀ block ∈ blocks, block.start ≠ scope.entry →
        (∃ code ∈ scope.decoded, code.instr.op.addressing.isSome = true ∧
          code.destination = some block.start) ∨
        ∃ position instr next, scope.instructions[position]? = some instr ∧
          scope.instructions[position + 1]? = some next ∧
          instr.op.addressing.isSome = true ∧ instr.op ≠ .jumpAbsolute ∧
          instr.op ≠ .jumpForward ∧ next.address = block.start := by
  refine ⟨by simp [checkedBlocks_eq_ok_iff], fun blocks made => ?_⟩
  obtain ⟨-, rfl⟩ := checkedBlocks_eq_ok_iff.1 made
  refine ⟨?_, ?_, ?_⟩
  · intro code hcode carries landing there lands
    exact exists_block_of_mem_jumpLeaders enters there
      (mem_jumpLeaders_of_destination hcode carries lands)
  · intro instr member carries absolute forward
    have falls := Opcode.neverFallsThrough_eq_false_iff.2 ⟨absolute, forward⟩
    obtain ⟨position, found⟩ := List.mem_iff_getElem?.1 member
    rw [getElem?_instructions] at found
    obtain ⟨code, hcode, rfl⟩ := Option.map_eq_some_iff.1 found
    constructor
    · obtain ⟨number, block, covers⟩ := exists_covers enters (List.mem_of_getElem? hcode)
      exact ⟨block, List.mem_of_getElem? covers.found,
        (covers.mem_instructions_iff (List.mem_of_getElem? hcode)).2 covers⟩
    · intro block hblock inside
      obtain ⟨number, hnumber⟩ := List.mem_iff_getElem?.1 hblock
      exact distinct.last?_eq hcode (covers_of_mem hnumber inside) carries falls
  · intro block hblock inner
    refine (cases_of_mem_jumpLeaders (mem_jumpLeaders_of_start hblock inner)).imp_right ?_
    rintro ⟨position, code, next, hcode, hnext, carries, falls, heq⟩
    obtain ⟨absolute, forward⟩ := Opcode.neverFallsThrough_eq_false_iff.1 falls
    exact ⟨position, code.instr, next.instr, by simp [getElem?_instructions, hcode],
      by simp [getElem?_instructions, hnext], carries, absolute, forward, heq⟩

/-- A loop with a continue and three jumps: to a jump whose argument is extended, from there into
the middle of an instruction, and past the end. -/
def Scope.leaderSample : Scope :=
  { instructions := [
      ⟨0, .setupLoop, .arg 18, 1, 0, false⟩,
      ⟨3, .loadName, .name "c", 2, 0, false⟩,
      ⟨6, .popJumpIfFalse, .arg 15, 2, 0, false⟩,
      ⟨9, .continueLoop, .arg 3, 3, 0, false⟩,
      ⟨12, .extendedArg, .arg 0, 4, 0, false⟩,
      ⟨15, .jumpAbsolute, .arg 4, 4, 0, false⟩,
      ⟨18, .popJumpIfTrue, .arg 500, 5, 0, false⟩,
      ⟨21, .returnValue, .none, 6, 0, false⟩]
    sorted := by decide }

theorem Scope.leaderSample_block_starts :
    leaderSample.Distinct ∧ leaderSample.EntersFirst ∧
    leaderSample.blocks.map Block.start = [0, 3, 9, 12, 21] ∧
    (∃ block ∈ leaderSample.blocks, block.start = 12) ∧
    ∃ block ∈ leaderSample.blocks,
      block.last? = some ⟨9, .continueLoop, .arg 3, 3, 0, false⟩ := by
  have distinct : leaderSample.Distinct := by decide
  have enters : leaderSample.EntersFirst := rfl
  have made : leaderSample.checkedBlocks = .ok leaderSample.blocks :=
    checkedBlocks_eq_ok (by decide)
  obtain ⟨lands, last, -⟩ := (block_starts_are_leaders distinct enters).2 _ made
  have jump : ⟨⟨6, .popJumpIfFalse, .arg 15, 2, 0, false⟩, some 12⟩ ∈ leaderSample.decoded := by
    decide +kernel
  have prefixed := lands _ jump rfl ⟨12, .extendedArg, .arg 0, 4, 0, false⟩ (by decide) rfl
  obtain ⟨⟨block, hblock, inside⟩, ends⟩ :=
    last ⟨9, .continueLoop, .arg 3, 3, 0, false⟩ (by decide) rfl (by decide) (by decide)
  exact ⟨distinct, enters, by decide +kernel, prefixed, block, hblock, ends block hblock inside⟩

end StackFlow
