import Mathlib.Data.List.Basic
import StackFlow.Block.Loop
import StackFlow.Block.Partition

/-!
# Blocks and addresses

Between two adjacent boundaries stands one block, and its code is the code of the scope at the
addresses from the first boundary up to the second (`Scope.Spans`).  So the blocks follow each other
without overlap, and the block that starts at an address is determined by it.
-/

namespace StackFlow

/-! ## Slices of sorted lists -/

section Slice

variable {α : Type} {key : α → Nat} {items : List α} {start stop lower upper : Nat}

theorem take_eq_filter (sorted : items.Pairwise fun first second => key first ≤ key second)
    (found : items.findIdx? (fun item => key item == stop) = some upper) :
    items.take upper = items.filter fun item => key item < stop := by
  induction items generalizing upper with
  | nil => cases found
  | cons item items ih =>
      obtain ⟨least, rest⟩ := List.pairwise_cons.1 sorted
      rw [List.findIdx?_cons] at found
      split at found
      · next heq =>
          rw [beq_iff_eq] at heq
          obtain rfl := Option.some.inj found
          symm
          rw [List.take_zero, List.filter_eq_nil_iff]
          intro other member
          rcases List.mem_cons.1 member with rfl | member
          · simp [heq]
          · simpa [← heq] using least other member
      · next ne =>
          rw [beq_iff_eq] at ne
          obtain ⟨position, later, rfl⟩ := Option.map_eq_some_iff.1 found
          have lt : key item < stop := by
            obtain ⟨bound, hit, -⟩ := List.findIdx?_eq_some_iff_getElem.1 later
            have := least _ (List.getElem_mem bound)
            rw [beq_iff_eq.1 hit] at this
            omega
          rw [List.take_succ_cons, ih rest later, List.filter_cons_of_pos (by simpa using lt)]

theorem drop_take_eq_filter
    (sorted : items.Pairwise fun first second => key first ≤ key second) (lt : start < stop)
    (hlower : items.findIdx? (fun item => key item == start) = some lower)
    (hupper : items.findIdx? (fun item => key item == stop) = some upper ∨
      upper = items.length ∧ ∀ item ∈ items, key item < stop) :
    (items.take upper).drop lower =
      items.filter fun item => start ≤ key item && key item < stop := by
  induction items generalizing lower upper with
  | nil => cases hlower
  | cons item items ih =>
      obtain ⟨least, rest⟩ := List.pairwise_cons.1 sorted
      rw [List.findIdx?_cons] at hlower
      split at hlower
      · next heq =>
          rw [beq_iff_eq] at heq
          obtain rfl := Option.some.inj hlower
          have taken : (item :: items).take upper =
              (item :: items).filter fun item => key item < stop := by
            rcases hupper with hupper | ⟨rfl, below⟩
            · exact take_eq_filter sorted hupper
            · rw [List.take_length, List.filter_eq_self.2 fun item member => by
                simpa using below item member]
          rw [List.drop_zero, taken]
          refine List.filter_congr fun other member => ?_
          have : start ≤ key other := by
            rcases List.mem_cons.1 member with rfl | member
            · exact Nat.le_of_eq heq.symm
            · exact heq ▸ least other member
          simp [this]
      · next ne =>
          rw [beq_iff_eq] at ne
          obtain ⟨position, later, rfl⟩ := Option.map_eq_some_iff.1 hlower
          have below : key item < start := by
            obtain ⟨bound, hit, -⟩ := List.findIdx?_eq_some_iff_getElem.1 later
            have := least _ (List.getElem_mem bound)
            rw [beq_iff_eq.1 hit] at this
            omega
          have upper_tail : ∃ position, upper = position + 1 ∧
              (items.findIdx? (fun item => key item == stop) = some position ∨
                position = items.length ∧ ∀ item ∈ items, key item < stop) := by
            rcases hupper with hupper | ⟨rfl, all⟩
            · rw [List.findIdx?_cons, if_neg (by rw [beq_iff_eq]; omega)] at hupper
              obtain ⟨position, hposition, rfl⟩ := Option.map_eq_some_iff.1 hupper
              exact ⟨position, rfl, .inl hposition⟩
            · exact ⟨items.length, rfl, .inr ⟨rfl, (List.forall_mem_cons.1 all).2⟩⟩
          obtain ⟨position, rfl, htail⟩ := upper_tail
          rw [List.take_succ_cons, List.drop_succ_cons, ih rest later htail,
            List.filter_cons_of_neg (by simp; omega)]

theorem filter_append_filter {middle : Nat}
    (sorted : items.Pairwise fun first second => key first ≤ key second)
    (first : start ≤ middle) (second : middle ≤ stop) :
    items.filter (fun item => start ≤ key item && key item < middle) ++
        items.filter (fun item => middle ≤ key item && key item < stop) =
      items.filter fun item => start ≤ key item && key item < stop := by
  induction items with
  | nil => rfl
  | cons item items ih =>
      obtain ⟨least, rest⟩ := List.pairwise_cons.1 sorted
      by_cases low : key item < middle
      · have skipped : ¬ middle ≤ key item := by omega
        have below : key item < stop := by omega
        by_cases inside : start ≤ key item <;> simp [low, skipped, below, inside, ih rest]
      · -- from here on no key lies below the middle
        have above : ∀ other ∈ item :: items, middle ≤ key other := by
          intro other member
          rcases List.mem_cons.1 member with rfl | member
          · omega
          · exact Nat.le_trans (by omega) (least other member)
        have none : (item :: items).filter
            (fun item => start ≤ key item && key item < middle) = [] := by
          rw [List.filter_eq_nil_iff]
          intro other member
          have le := above other member
          simp [le]
        rw [none, List.nil_append]
        refine List.filter_congr fun other member => ?_
        have le := above other member
        have ge : start ≤ key other := by omega
        simp [le, ge]

end Slice

namespace Scope

variable {scope : Scope} {start stop address : Nat} {block : Block}

/-! ## Decoded instructions -/

theorem map_instr_decoded (scope : Scope) :
    scope.decoded.map Decoded.instr = scope.instructions := by
  have instrs : scope.withPrevious.map Prod.snd = scope.instructions := by
    rw [withPrevious, List.map_snd_zip]
    simp
  rw [decoded, List.map_map]
  exact instrs

theorem sorted_decoded (scope : Scope) :
    scope.decoded.Pairwise fun first second => first.instr.address ≤ second.instr.address := by
  rw [← List.pairwise_map (f := Decoded.instr)
    (R := fun first second => first.address ≤ second.address), map_instr_decoded]
  exact scope.sorted

theorem positionOf_eq_findIdx? (scope : Scope) (address : Nat) :
    scope.positionOf address =
      scope.decoded.findIdx? fun code => code.instr.address == address := by
  rw [positionOf, ← map_instr_decoded, List.findIdx?_map]
  rfl

theorem address_lt_endAddress {instr : Instruction} (member : instr ∈ scope.instructions) :
    instr.address < scope.endAddress := by
  have sorted := scope.sorted
  unfold endAddress
  cases hlast : scope.instructions.getLast? with
  | none => simp [List.getLast?_eq_none_iff.1 hlast] at member
  | some last =>
      obtain ⟨start, split⟩ := List.getLast?_eq_some_iff.1 hlast
      rw [split] at member sorted
      have le : instr.address ≤ last.address := by
        rcases List.mem_append.1 member with member | member
        · exact (List.pairwise_append.1 sorted).2.2 _ member _ List.mem_cons_self
        · exact List.mem_singleton.1 member ▸ Nat.le_refl _
      exact Nat.lt_of_le_of_lt le (Nat.lt_add_of_pos_right last.op.width_pos)

theorem positionOf_isSome_iff :
    (scope.positionOf address).isSome = true ↔
      ∃ instr ∈ scope.instructions, instr.address = address := by
  simp [positionOf, List.findIdx?_isSome]

/-! ## Boundaries -/

theorem pairwise_boundaries (scope : Scope) : scope.boundaries.Pairwise (· < ·) := by
  refine List.Pairwise.filter _ (scope.leaders.ascending.imp fun ascends => ?_)
  exact Nat.compare_eq_lt.1 ascends

theorem mem_boundaries_iff :
    address ∈ scope.boundaries ↔
      address ∈ scope.leaders ∧
        (address = scope.endAddress ∨ ∃ instr ∈ scope.instructions, instr.address = address) := by
  rw [boundaries, List.mem_filter, isBoundary, Bool.or_eq_true, beq_iff_eq, positionOf_isSome_iff]
  rfl

theorem endAddress_mem_boundaries (scope : Scope) : scope.endAddress ∈ scope.boundaries :=
  mem_boundaries_iff.2 ⟨SortedSet.mem_ofList.2 (by simp), .inl rfl⟩

theorem le_endAddress_of_mem_boundaries (member : address ∈ scope.boundaries) :
    address ≤ scope.endAddress := by
  rcases (mem_boundaries_iff.1 member).2 with rfl | ⟨instr, hinstr, rfl⟩
  · exact Nat.le_refl _
  · exact Nat.le_of_lt (address_lt_endAddress hinstr)

/-! ## The block between two boundaries -/

def codeBetween (scope : Scope) (start stop : Nat) : List Decoded :=
  scope.decoded.filter fun code => start ≤ code.instr.address && code.instr.address < stop

theorem mem_codeBetween_iff {code : Decoded} :
    code ∈ scope.codeBetween start stop ↔
      code ∈ scope.decoded ∧ start ≤ code.instr.address ∧ code.instr.address < stop := by
  simp [codeBetween]

/-- The block holds the code from `start` up to `stop`, and is followed by the instruction at
`stop` unless the scope ends there. -/
structure Spans (scope : Scope) (start stop : Nat) (block : Block) : Prop where
  lt : start < stop
  start_eq : block.start = start
  length_eq : block.length = stop - start
  ofCode : ∃ first rest next, scope.codeBetween start stop = first :: rest ∧
    block = .ofCode (stop - start) first rest next ∧
    (next = none ∧ stop = scope.endAddress ∨
      ∃ instr, next = some instr ∧ instr.address = stop)

theorem pairwise_codeBetween (scope : Scope) (start stop : Nat) :
    (scope.codeBetween start stop).Pairwise fun first second =>
      first.instr.address ≤ second.instr.address :=
  (sorted_decoded scope).filter _

theorem exists_code_of_mem_boundaries (member : address ∈ scope.boundaries)
    (ne : address ≠ scope.endAddress) :
    ∃ code ∈ scope.decoded, code.instr.address = address := by
  obtain ⟨instr, hinstr, rfl⟩ := (mem_boundaries_iff.1 member).2.resolve_left ne
  rw [← map_instr_decoded] at hinstr
  obtain ⟨code, hcode, rfl⟩ := List.mem_map.1 hinstr
  exact ⟨code, hcode, rfl⟩

theorem next_spec (hstop : stop ∈ scope.boundaries) :
    (scope.decoded.findIdx? (fun code => code.instr.address == stop) =
          some ((scope.positionOf stop).getD scope.instructions.length) ∨
        (scope.positionOf stop).getD scope.instructions.length = scope.decoded.length ∧
          ∀ code ∈ scope.decoded, code.instr.address < stop) ∧
      (scope.instructions[(scope.positionOf stop).getD scope.instructions.length]? = none ∧
          stop = scope.endAddress ∨
        ∃ instr, scope.instructions[(scope.positionOf stop).getD scope.instructions.length]? =
          some instr ∧ instr.address = stop) := by
  rw [← positionOf_eq_findIdx?]
  cases hposition : scope.positionOf stop with
  | some position =>
      refine ⟨.inl rfl, .inr ?_⟩
      obtain ⟨bound, hit, -⟩ := List.findIdx?_eq_some_iff_getElem.1 hposition
      exact ⟨_, List.getElem?_eq_getElem bound, beq_iff_eq.1 hit⟩
  | none =>
      have hend : stop = scope.endAddress := by
        refine (mem_boundaries_iff.1 hstop).2.resolve_right fun found => ?_
        rw [← positionOf_isSome_iff, hposition] at found
        cases found
      refine ⟨.inr ⟨by simp [← map_instr_decoded], fun code member => ?_⟩, .inl ⟨by simp, hend⟩⟩
      rw [hend]
      exact address_lt_endAddress (map_instr_decoded scope ▸ List.mem_map_of_mem member)

theorem blockBetween?_eq_some (hstart : start ∈ scope.boundaries) (hstop : stop ∈ scope.boundaries)
    (lt : start < stop) :
    ∃ block, scope.blockBetween? scope.decoded start stop = some block ∧
      scope.Spans start stop block := by
  have before : start ≠ scope.endAddress := fun heq =>
    absurd (le_endAddress_of_mem_boundaries hstop) (by omega)
  obtain ⟨code, hcode, haddress⟩ := exists_code_of_mem_boundaries hstart before
  have hfound : code ∈ scope.codeBetween start stop :=
    mem_codeBetween_iff.2 ⟨hcode, Nat.le_of_eq haddress.symm, haddress ▸ lt⟩
  obtain ⟨lower, hlower⟩ := Option.isSome_iff_exists.1
    (positionOf_isSome_iff.2 ((mem_boundaries_iff.1 hstart).2.resolve_left before))
  obtain ⟨hupper, hnext⟩ := next_spec hstop
  have slice : (scope.decoded.take ((scope.positionOf stop).getD scope.instructions.length)).drop
      lower = scope.codeBetween start stop :=
    drop_take_eq_filter (sorted_decoded scope) lt (positionOf_eq_findIdx? scope start ▸ hlower)
      hupper
  obtain ⟨first, rest, hsplit⟩ := List.exists_cons_of_ne_nil (List.ne_nil_of_mem hfound)
  refine ⟨_, by simp only [blockBetween?, hlower, Option.bind_eq_bind, Option.bind_some, slice,
    hsplit], lt, ?_, rfl, first, rest, _, hsplit, rfl, hnext⟩
  -- the first instruction of the slice is the one at its start
  have sorted := pairwise_codeBetween scope start stop
  have low := (mem_codeBetween_iff.1 (hsplit ▸ List.mem_cons_self)).2.1
  rw [hsplit] at hfound sorted
  refine Nat.le_antisymm ?_ low
  rcases List.mem_cons.1 hfound with rfl | later
  · exact Nat.le_of_eq haddress
  · exact haddress ▸ (List.pairwise_cons.1 sorted).1 code later

/-! ## All blocks -/

theorem mem_zip_tail_of_pairwise {items : List Nat} (ascending : items.Pairwise (· < ·))
    {first second : Nat} (member : (first, second) ∈ items.zip items.tail) :
    first ∈ items ∧ second ∈ items ∧ first < second := by
  obtain ⟨index, bound, heq⟩ := List.mem_iff_getElem.1 member
  rw [List.getElem_zip, List.getElem_tail, Prod.mk.injEq] at heq
  obtain ⟨rfl, rfl⟩ := heq
  rw [List.length_zip, List.length_tail] at bound
  exact ⟨List.getElem_mem _, List.getElem_mem _,
    List.pairwise_iff_getElem.1 ascending _ _ _ _ (Nat.lt_succ_self index)⟩

theorem map_some_blocks (scope : Scope) (code : scope.isEmpty = false) :
    scope.blocks.map some =
      (scope.boundaries.zip scope.boundaries.tail).map fun pair =>
        scope.blockBetween? scope.decoded pair.1 pair.2 := by
  have all : ∀ pair ∈ scope.boundaries.zip scope.boundaries.tail,
      ∃ block, scope.blockBetween? scope.decoded pair.1 pair.2 = some block := by
    rintro ⟨start, stop⟩ member
    obtain ⟨hstart, hstop, lt⟩ := mem_zip_tail_of_pairwise (pairwise_boundaries scope) member
    obtain ⟨block, found, -⟩ := blockBetween?_eq_some hstart hstop lt
    exact ⟨block, found⟩
  simp only [blocks, code, Bool.false_eq_true, if_false]
  generalize scope.boundaries.zip scope.boundaries.tail = pairs at all ⊢
  induction pairs with
  | nil => rfl
  | cons pair pairs ih =>
      obtain ⟨block, found⟩ := all pair List.mem_cons_self
      have rest := ih fun other member => all other (List.mem_cons_of_mem _ member)
      simp only [List.filterMap_cons, found, List.map_cons, rest]

theorem exists_block_of_mem_boundaries (member : address ∈ scope.boundaries)
    (inner : address ≠ scope.endAddress) : ∃ block ∈ scope.blocks, block.start = address := by
  obtain ⟨index, bound, rfl⟩ := List.mem_iff_getElem.1 member
  obtain ⟨last, limit, ends⟩ := List.mem_iff_getElem.1 (endAddress_mem_boundaries scope)
  have ascending := List.pairwise_iff_getElem.1 (pairwise_boundaries scope)
  have more : index + 1 < scope.boundaries.length := by
    by_contra beyond
    have le := le_endAddress_of_mem_boundaries member
    rcases Nat.lt_or_ge last index with before | after
    · have lt := ascending last index limit bound before
      omega
    · obtain rfl : last = index := by omega
      exact inner ends
  have nonempty : scope.isEmpty = false := by
    obtain ⟨code, hcode, -⟩ := exists_code_of_mem_boundaries member inner
    have instr := map_instr_decoded scope ▸ List.mem_map_of_mem hcode
    simpa [isEmpty] using List.ne_nil_of_mem instr
  have pair : (scope.boundaries[index], scope.boundaries[index + 1]) ∈
      scope.boundaries.zip scope.boundaries.tail := by
    refine List.mem_iff_getElem?.2 ⟨index, List.getElem?_zip_eq_some.2 ⟨by simp, ?_⟩⟩
    rw [List.getElem?_tail]
    exact List.getElem?_eq_getElem more
  obtain ⟨block, between, spans⟩ := blockBetween?_eq_some member (List.getElem_mem more)
    (ascending index (index + 1) bound more (Nat.lt_succ_self index))
  have listed : some block ∈ scope.blocks.map some := by
    rw [map_some_blocks scope nonempty]
    exact List.mem_map.2 ⟨_, pair, between⟩
  exact ⟨block, by simpa using listed, spans.start_eq⟩

theorem getElem?_blocks {number : Nat} (found : scope.blocks[number]? = some block) :
    ∃ start stop, scope.boundaries[number]? = some start ∧
      scope.boundaries[number + 1]? = some stop ∧ scope.Spans start stop block := by
  have code : scope.isEmpty = false := by
    cases hcode : scope.isEmpty with
    | false => rfl
    | true => simp [blocks, hcode] at found
  have same : scope.blocks[number]?.map some = _ :=
    (List.getElem?_map ..).symm.trans (congrArg (·[number]?) (map_some_blocks scope code))
  rw [found, List.getElem?_map, Option.map_some] at same
  obtain ⟨⟨start, stop⟩, hpair, hblock⟩ := Option.map_eq_some_iff.1 same.symm
  obtain ⟨hstart, hstop, lt⟩ :=
    mem_zip_tail_of_pairwise (pairwise_boundaries scope) (List.mem_of_getElem? hpair)
  obtain ⟨other, hother, spans⟩ := blockBetween?_eq_some hstart hstop lt
  obtain rfl : other = block := Option.some.inj (hother.symm.trans hblock)
  obtain ⟨hfirst, hsecond⟩ := List.getElem?_zip_eq_some.1 hpair
  exact ⟨start, stop, hfirst, by simpa using hsecond, spans⟩

namespace Spans

variable (spans : scope.Spans start stop block)

include spans

theorem endAddress_eq : block.endAddress = stop := by
  have lt := spans.lt
  rw [Block.endAddress, spans.start_eq, spans.length_eq]
  omega

theorem instructions_eq :
    block.instructions = (scope.codeBetween start stop).map Decoded.instr := by
  obtain ⟨first, rest, next, code, rfl, -⟩ := spans.ofCode
  rw [code]
  rfl

theorem contains_of_mem {instr : Instruction} (member : instr ∈ block.instructions) :
    block.contains instr.address = true := by
  rw [spans.instructions_eq] at member
  obtain ⟨code, hcode, rfl⟩ := List.mem_map.1 member
  have range := (mem_codeBetween_iff.1 hcode).2
  simpa [Block.contains, spans.endAddress_eq, spans.start_eq] using range

end Spans

theorem pairwise_blocks (scope : Scope) :
    scope.blocks.Pairwise fun first second => first.endAddress ≤ second.start := by
  rw [List.pairwise_iff_getElem]
  intro earlier later hearlier hlater lt
  obtain ⟨_, stop, -, hstop, first⟩ := getElem?_blocks (List.getElem?_eq_getElem hearlier)
  obtain ⟨start, _, hstart, -, second⟩ := getElem?_blocks (List.getElem?_eq_getElem hlater)
  rw [first.endAddress_eq, second.start_eq]
  obtain ⟨_, rfl⟩ := List.getElem?_eq_some_iff.1 hstop
  obtain ⟨_, rfl⟩ := List.getElem?_eq_some_iff.1 hstart
  rcases Nat.lt_or_eq_of_le lt with before | same
  · exact Nat.le_of_lt (List.pairwise_iff_getElem.1 (pairwise_boundaries scope) _ _ _ _ before)
  · simp only [← same, Nat.succ_eq_add_one, Nat.le_refl]

theorem exists_spans_of_mem (member : block ∈ scope.blocks) :
    ∃ start stop, stop ∈ scope.boundaries ∧ scope.Spans start stop block := by
  obtain ⟨number, found⟩ := List.mem_iff_getElem?.1 member
  obtain ⟨start, stop, -, hstop, spans⟩ := getElem?_blocks found
  exact ⟨start, stop, List.mem_of_getElem? hstop, spans⟩

theorem start_lt_endAddress (member : block ∈ scope.blocks) :
    block.start < scope.endAddress := by
  obtain ⟨start, stop, hstop, spans⟩ := exists_spans_of_mem member
  have le := le_endAddress_of_mem_boundaries hstop
  have lt := spans.lt
  rw [spans.start_eq]
  omega

theorem pairwise_start (scope : Scope) :
    scope.blocks.Pairwise fun first second => first.start < second.start := by
  refine (pairwise_blocks scope).imp_of_mem fun {first second} member _ le => ?_
  obtain ⟨start, stop, -, spans⟩ := exists_spans_of_mem member
  have lt := spans.lt
  rw [spans.endAddress_eq] at le
  rw [spans.start_eq]
  omega

theorem start_next {number : Nat} {next : Block} (found : scope.blocks[number]? = some block)
    (hnext : scope.blocks[number + 1]? = some next) : next.start = block.endAddress := by
  obtain ⟨_, stop, -, hstop, spans⟩ := getElem?_blocks found
  obtain ⟨start, _, hstart, -, after⟩ := getElem?_blocks hnext
  rw [after.start_eq, spans.endAddress_eq]
  exact Option.some.inj (hstart.symm.trans hstop)

theorem contains_of_mem_blocks {instr : Instruction} (member : block ∈ scope.blocks)
    (inside : instr ∈ block.instructions) : block.contains instr.address = true := by
  obtain ⟨start, stop, -, spans⟩ := exists_spans_of_mem member
  exact spans.contains_of_mem inside

end Scope

/-! ## Jumps of a block -/

def Instruction.stops (instr : Instruction) : Bool :=
  match instr.op.transfer with
  | .jump | .returns | .breaks | .continues | .raises => true
  | .advance | .jumpIfTrue | .jumpIfFalse | .jumpIfExhausted | .setup _ => false

theorem Instruction.neverFallsThrough_of_goesOn {instr : Instruction}
    (goesOn : instr.stops = false) : instr.op.neverFallsThrough = false := by
  unfold stops at goesOn
  generalize instr.op = op at goesOn ⊢
  cases op <;> simp_all [Opcode.neverFallsThrough, Opcode.transfer]

theorem Decoded.marker?_eq_some_iff {code : Decoded} {marker : Marker} :
    code.marker? = some marker ↔ code.instr.op.transfer = Block.markerTransfer marker := by
  unfold marker?
  cases code.instr.op.transfer <;> cases marker <;> simp [Block.markerTransfer]

theorem Decoded.jump?_target_eq_marker_iff {code : Decoded} {marker : Marker} :
    (∃ jump, code.jump? = some jump ∧ jump.target = .marker marker) ↔
      code.marker? = some marker := by
  unfold jump?
  cases hmarker : code.marker? with
  | some found => cases found <;> cases marker <;> simp
  | none =>
      simp only [Option.bind_eq_bind, Option.bind_eq_some_iff, reduceCtorEq, iff_false, not_exists,
        not_and]
      rintro jump ⟨kind, -, destination, -, heq⟩
      cases heq
      simp

theorem Decoded.jump?_of_branch {code : Decoded} {kind : BranchKind} {destination : Nat}
    (hbranch : code.branch? = some kind) (hdestination : code.destination = some destination) :
    code.jump? = some ⟨.address destination, kind⟩ := by
  have hmarker : code.marker? = none := by
    unfold branch? at hbranch
    unfold marker?
    split at hbranch <;> simp_all
  simp [jump?, hmarker, hbranch, hdestination]

theorem Decoded.jump?_eq_address_iff {code : Decoded} {kind : BranchKind} {destination : Nat} :
    code.jump? = some ⟨.address destination, kind⟩ ↔
      code.branch? = some kind ∧ code.destination = some destination := by
  constructor
  · intro hjump
    unfold jump? at hjump
    split at hjump <;> simp_all [Option.bind_eq_some_iff]
  · rintro ⟨hbranch, hdestination⟩
    exact jump?_of_branch hbranch hdestination

theorem Scope.addressing_isSome_of_destination {scope : Scope} {code : Decoded}
    (hcode : code ∈ scope.decoded) {destination : Nat}
    (hdestination : code.destination = some destination) :
    code.instr.op.addressing.isSome = true := by
  obtain ⟨⟨previous, instr⟩, -, rfl⟩ := List.mem_map.1 hcode
  obtain ⟨address, found, -⟩ := Option.map_eq_some_iff.1 hdestination
  unfold Instruction.jumpDestination at found
  obtain ⟨addressing, haddressing, -⟩ := Option.bind_eq_some_iff.1 found
  exact Option.isSome_iff_exists.2 ⟨addressing, haddressing⟩

theorem Decoded.branch?_isSome {code : Decoded}
    (haddressing : code.instr.op.addressing.isSome = true) (goesOn : code.instr.stops = false) :
    code.branch?.isSome = true := by
  unfold branch?
  unfold Instruction.stops at goesOn
  generalize code.instr.op = op at haddressing goesOn ⊢
  cases op <;> simp_all [Opcode.addressing, Opcode.transfer]

namespace Block

variable {length : Nat} {first code : Decoded} {rest : List Decoded} {next : Option Instruction}
  {jump : Jump}

theorem jump_mem_ofCode (member : code ∈ first :: rest) (hjump : code.jump? = some jump) :
    jump ∈ (ofCode length first rest next).jumps :=
  SortedSet.mem_ofList.2 (List.mem_append_left _ (List.mem_filterMap.2 ⟨code, member, hjump⟩))

theorem hasMarker_ofCode_iff {marker : Marker} :
    (ofCode length first rest next).hasMarker marker = true ↔
      ∃ code ∈ first :: rest, code.marker? = some marker := by
  simp only [hasMarker, List.any_eq_true, beq_iff_eq, ← Decoded.jump?_target_eq_marker_iff]
  constructor
  · rintro ⟨jump, member, htarget⟩
    rcases List.mem_append.1 (SortedSet.mem_ofList.1 member) with own | through
    · obtain ⟨code, hcode, hjump⟩ := List.mem_filterMap.1 own
      exact ⟨code, hcode, jump, hjump, htarget⟩
    · -- the jump to the following block goes to an address
      obtain ⟨instr, -, rfl⟩ := Option.map_eq_some_iff.1 (Option.mem_toList.1 through)
      cases htarget
  · rintro ⟨code, hcode, jump, hjump, htarget⟩
    exact ⟨jump, SortedSet.mem_toList.2 (jump_mem_ofCode hcode hjump), htarget⟩

theorem address_mem_ofCode_iff {address : Nat} {kind : BranchKind} :
    ⟨.address address, kind⟩ ∈ (ofCode length first rest next).jumps ↔
      (∃ code ∈ first :: rest, code.branch? = some kind ∧ code.destination = some address) ∨
        (∀ code ∈ first :: rest, code.marker? = none) ∧
          (rest.getLastD first).instr.op.neverFallsThrough = false ∧
          kind = fallThroughKind (rest.getLastD first).instr ∧
          ∃ instr, next = some instr ∧ instr.address = address := by
  simp only [ofCode, SortedSet.mem_ofList, List.mem_append, List.mem_filterMap,
    Decoded.jump?_eq_address_iff, Option.mem_toList]
  refine or_congr_right ?_
  cases marked : (first :: rest).any fun item => item.marker?.isSome with
  | true =>
      obtain ⟨code, member, marks⟩ := List.any_eq_true.1 marked
      simp only [Bool.true_or, if_true, Option.map_none, reduceCtorEq, false_iff]
      rintro ⟨unmarked, -⟩
      simp [unmarked code member] at marks
  | false =>
      have unmarked : ∀ code ∈ first :: rest, code.marker? = none := by
        simpa using List.any_eq_false.1 marked
      cases (rest.getLastD first).instr.op.neverFallsThrough with
      | true => simp
      | false =>
          simp only [Bool.or_self, Bool.false_eq_true, if_false, Option.map_eq_some_iff,
            Jump.mk.injEq, Target.address.injEq, true_and]
          constructor
          · rintro ⟨instr, found, same, rfl⟩
            exact ⟨unmarked, rfl, instr, found, same⟩
          · rintro ⟨-, rfl, instr, found, same⟩
            exact ⟨instr, found, same, rfl⟩

theorem fallThrough_mem_ofCode {instr : Instruction}
    (continues : ∀ code ∈ first :: rest, code.instr.stops = false) :
    ⟨.address instr.address, fallThroughKind (rest.getLastD first).instr⟩ ∈
      (ofCode length first rest (some instr)).jumps := by
  have unmarked : ∀ code ∈ first :: rest, code.marker? = none := by
    intro code member
    have goesOn := continues code member
    unfold Instruction.stops at goesOn
    unfold Decoded.marker?
    split at goesOn <;> simp_all
  have last : (rest.getLastD first).instr.op.neverFallsThrough = false := by
    refine Instruction.neverFallsThrough_of_goesOn (continues (rest.getLastD first) ?_)
    rw [← List.getLast_eq_getLastD (List.cons_ne_nil first rest)]
    exact List.getLast_mem _
  exact address_mem_ofCode_iff.2 (.inr ⟨unmarked, last, rfl, instr, rfl, rfl⟩)

end Block

namespace Scope.Spans

variable {scope : Scope} {start stop : Nat} {block : Block} (spans : scope.Spans start stop block)

include spans

theorem mem_codeBetween {code : Decoded} (hcode : code ∈ scope.decoded)
    (member : code.instr ∈ block.instructions) : code ∈ scope.codeBetween start stop := by
  have within := spans.contains_of_mem member
  simp only [Block.contains, Bool.and_eq_true, decide_eq_true_eq, spans.start_eq,
    spans.endAddress_eq] at within
  exact mem_codeBetween_iff.2 ⟨hcode, within⟩

theorem jump_mem {code : Decoded} {jump : Jump} (hcode : code ∈ scope.decoded)
    (member : code.instr ∈ block.instructions) (hjump : code.jump? = some jump) :
    jump ∈ block.jumps := by
  have between := spans.mem_codeBetween hcode member
  obtain ⟨first, rest, next, split, rfl, -⟩ := spans.ofCode
  exact Block.jump_mem_ofCode (split ▸ between) hjump

theorem hasMarker_iff {marker : Marker} :
    block.hasMarker marker = true ↔
      ∃ instr ∈ block.instructions, instr.op.transfer = Block.markerTransfer marker := by
  have instrs := spans.instructions_eq
  obtain ⟨first, rest, next, split, rfl, -⟩ := spans.ofCode
  rw [instrs, split, Block.hasMarker_ofCode_iff]
  simp only [Decoded.marker?_eq_some_iff, List.mem_map, exists_exists_and_eq_and]

theorem fallThrough_mem (goesOn : ∀ instr ∈ block.instructions, instr.stops = false)
    (inner : stop ≠ scope.endAddress) : ∃ kind, ⟨.address stop, kind⟩ ∈ block.jumps := by
  have instrs := spans.instructions_eq
  obtain ⟨first, rest, next, split, rfl, ⟨-, hend⟩ | ⟨instr, rfl, rfl⟩⟩ := spans.ofCode
  · exact absurd hend inner
  · rw [instrs, split] at goesOn
    exact ⟨_, Block.fallThrough_mem_ofCode fun code member =>
      goesOn code.instr (List.mem_map_of_mem member)⟩

end Scope.Spans

theorem Block.startingAt?_eq_some_iff {blocks : List Block} {address number : Nat}
    (ascending : blocks.Pairwise fun first second => first.start < second.start) :
    startingAt? blocks address = some number ↔
      ∃ block, blocks[number]? = some block ∧ block.start = address := by
  rw [startingAt?, List.findIdx?_eq_some_iff_getElem]
  constructor
  · rintro ⟨bound, hit, -⟩
    exact ⟨_, List.getElem?_eq_getElem bound, beq_iff_eq.1 hit⟩
  · rintro ⟨block, found, rfl⟩
    obtain ⟨bound, rfl⟩ := List.getElem?_eq_some_iff.1 found
    refine ⟨bound, beq_self_eq_true _, fun earlier lt => ?_⟩
    have before := List.pairwise_iff_getElem.1 ascending earlier number (Nat.lt_trans lt bound)
      bound lt
    simpa using Nat.ne_of_lt before

end StackFlow
