import StackFlow.Proofs.Leaders
import StackFlow.Proofs.LoopExits

/-!
# Continues stay in their loop

A setup is the last instruction of its block, and so is a continue.  The block of a continue in the
region of a setup thus lies past the block of the setup, and the block right after the setup starts
in what is left of the region.  So there is always a block to which the continue can go, whichever
jumps earlier attempts have rewritten.
-/

namespace StackFlow

theorem Opcode.ends_block_of_transfer {op : Opcode}
    (transfer : (∃ region, op.transfer = .setup region) ∨ op.transfer = .continues) :
    op.addressing.isSome = true ∧ op.neverFallsThrough = false := by
  revert transfer
  cases op <;> simp [Opcode.transfer, addressing, neverFallsThrough]

theorem Block.exists_instr_of_markerAddress {block : Block} {marker : Marker} {address : Nat}
    (marked : block.markerAddress marker = some address) :
    ∃ instr ∈ block.instructions, instr.op.transfer = markerTransfer marker ∧
      instr.address = address := by
  obtain ⟨instr, found, heq⟩ := Option.map_eq_some_iff.1 marked
  exact ⟨instr, List.mem_of_find?_eq_some found, by simpa using List.find?_some found, heq⟩

/-! ## The block after a setup -/

namespace Scope

variable {scope : Scope} {number loop address stop : Nat} {block setup : Block}

theorem exists_setup_of_endTarget (member : block ∈ scope.blocks)
    (opens : block.endTarget = some stop) :
    ∃ code ∈ scope.decoded, code.instr ∈ block.instructions ∧
      (∃ region, code.instr.op.transfer = .setup region) ∧ code.destination = some stop := by
  obtain ⟨_, _, -, spans⟩ := exists_spans_of_mem member
  obtain ⟨first, rest, next, split, rfl, -⟩ := spans.ofCode
  obtain ⟨⟨region, _⟩, last, rfl⟩ := Option.map_eq_some_iff.1 opens
  obtain ⟨code, hcode, hsetup⟩ := List.mem_filterMap.1 (List.mem_of_getLast? last)
  refine ⟨code, (mem_codeBetween_iff.1 (split ▸ hcode)).1, List.mem_map_of_mem hcode, ?_⟩
  unfold Decoded.setup? at hsetup
  split at hsetup
  · next region transfer =>
      obtain ⟨destination, lands, heq⟩ := Option.map_eq_some_iff.1 hsetup
      rw [lands, (Prod.mk.inj heq).2]
      exact ⟨⟨region, transfer⟩, rfl⟩
  · cases hsetup

section

variable (distinct : scope.Distinct)

include distinct

theorem Distinct.last?_of_transfer {instr : Instruction}
    (found : scope.blocks[number]? = some block) (member : instr ∈ block.instructions)
    (transfer : (∃ region, instr.op.transfer = .setup region) ∨
      instr.op.transfer = .continues) : block.last? = some instr := by
  have covers := covers_of_mem found member
  have listed := member
  rw [covers.spans.instructions_eq] at listed
  obtain ⟨code, hcode, rfl⟩ := List.mem_map.1 listed
  obtain ⟨position, hposition⟩ := List.mem_iff_getElem?.1 (mem_codeBetween_iff.1 hcode).1
  obtain ⟨carries, falls⟩ := Opcode.ends_block_of_transfer transfer
  exact distinct.last?_eq hposition covers carries falls

theorem Distinct.exists_block_after_setup (hsetup : scope.blocks[loop]? = some setup)
    (opens : setup.endTarget = some stop) (found : scope.blocks[number]? = some block)
    (marked : block.markerAddress .continues = some address) (past : setup.start < address) :
    setup.endAddress ≤ address ∧ ∃ landing ∈ scope.blocks, landing.start = setup.endAddress := by
  obtain ⟨instr, member, continues, rfl⟩ := Block.exists_instr_of_markerAddress marked
  obtain ⟨opener, -, hopener, ⟨region, transfer⟩, -⟩ :=
    exists_setup_of_endTarget (List.mem_of_getElem? hsetup) opens
  have covers := covers_of_mem found member
  have le : setup.endAddress ≤ instr.address := by
    by_contra inside
    -- both instructions would be the last of the same block
    obtain ⟨-, rfl⟩ := covers.unique ⟨hsetup, Nat.le_of_lt past, Nat.not_le.1 inside⟩
    have last := distinct.last?_of_transfer found member (.inr continues)
    rw [distinct.last?_of_transfer hsetup hopener (.inl ⟨region, transfer⟩)] at last
    rw [← Option.some.inj last, transfer] at continues
    cases continues
  refine ⟨le, ?_⟩
  have after : loop < number := by
    have apart := List.pairwise_iff_getElem.1 (pairwise_blocks scope)
    obtain ⟨bound, hblock⟩ := List.getElem?_eq_some_iff.1 found
    obtain ⟨limit, heq⟩ := List.getElem?_eq_some_iff.1 hsetup
    have high := covers.high
    by_contra before
    rcases Nat.lt_or_eq_of_le (Nat.not_lt.1 before) with before | rfl
    · have earlier := apart number loop bound limit before
      rw [hblock, heq] at earlier
      omega
    · rw [← hblock, heq] at high
      omega
  have bound := (List.getElem?_eq_some_iff.1 found).1
  have hnext := List.getElem?_eq_getElem (Nat.lt_of_le_of_lt after bound)
  exact ⟨_, List.mem_of_getElem? hnext, start_next hsetup hnext⟩

end

end Scope

/-! ## Destinations -/

namespace Block

variable {blocks : List Block} {setup : Block} {address stop : Nat}

theorem startingAt?_isSome_iff :
    (startingAt? blocks address).isSome = true ↔ ∃ landing ∈ blocks, landing.start = address := by
  simp [startingAt?, List.findIdx?_isSome]

theorem encloses_iff (opens : setup.endTarget = some stop) :
    setup.encloses address = true ↔ setup.endAddress ≤ address ∧ address < stop := by
  simp [encloses, opens]

theorem exists_loopHeader? (inside : setup.encloses setup.endAddress = true)
    (following : ∃ landing ∈ blocks, landing.start = setup.endAddress) :
    ∃ header landing, loopHeader? blocks setup = some header ∧ blocks[header]? = some landing ∧
      setup.encloses landing.start = true := by
  have opens : setup.endTarget.isNone = false := by
    unfold encloses at inside
    split at inside <;> simp_all
  rw [loopHeader?, opens, if_neg Bool.false_ne_true]
  cases back : blocks.findIdx? fun candidate =>
      setup.encloses candidate.start && isBackTarget blocks setup candidate with
  | some header =>
      obtain ⟨bound, hit, -⟩ := List.findIdx?_eq_some_iff_getElem.1 back
      exact ⟨header, _, rfl, List.getElem?_eq_getElem bound, (Bool.and_eq_true_iff.1 hit).1⟩
  | none =>
      obtain ⟨header, hheader⟩ := Option.isSome_iff_exists.1 (startingAt?_isSome_iff.2 following)
      obtain ⟨bound, hit, -⟩ := List.findIdx?_eq_some_iff_getElem.1 hheader
      refine ⟨header, _, hheader, List.getElem?_eq_getElem bound, ?_⟩
      rw [beq_iff_eq.1 hit]
      exact inside

end Block

namespace Draft

variable {scope : Scope} {options : Options} {draft : Draft} {number loop address stop : Nat}
  {block setup : Block}

theorem exists_continueDestination? (block : Block)
    (inside : setup.encloses setup.endAddress = true)
    (following : ∃ landing ∈ draft.blocks, landing.start = setup.endAddress) :
    ∃ destination, draft.continueDestination? block setup = some destination ∧
      setup.encloses destination = true ∧
      (∃ landing ∈ draft.blocks, landing.start = destination) ∧
      ∀ target, block.continueTarget = some target → setup.encloses target = true →
        (∃ landing ∈ draft.blocks, landing.start = target) → destination = target := by
  cases encoded : block.continueTarget.filter fun target =>
      setup.encloses target && (Block.startingAt? draft.blocks target).isSome with
  | some target =>
      obtain ⟨htarget, fits⟩ := Option.filter_eq_some_iff.1 encoded
      obtain ⟨within, starts⟩ := Bool.and_eq_true_iff.1 fits
      refine ⟨target, by simp [continueDestination?, encoded], within,
        Block.startingAt?_isSome_iff.1 starts, ?_⟩
      intro other hother _ _
      exact Option.some.inj (htarget.symm.trans hother)
  | none =>
      obtain ⟨header, landing, hheader, hlanding, within⟩ :=
        Block.exists_loopHeader? inside following
      refine ⟨landing.start, by simp [continueDestination?, encoded, hheader, hlanding], within,
        ⟨landing, List.mem_of_getElem? hlanding, rfl⟩, ?_⟩
      intro target htarget fits starts
      rw [htarget, Option.filter_some, fits, Block.startingAt?_isSome_iff.2 starts] at encoded
      cases encoded

namespace Finalizing

variable (reached : Finalizing scope options draft)

include reached

theorem exists_original (found : draft.blocks[number]? = some block) :
    ∃ original, scope.blocks[number]? = some original ∧
      block = { original with jumps := block.jumps } := by
  obtain ⟨original, horiginal, heq⟩ := Block.exists_getElem? reached.bare_eq found
  exact ⟨original, horiginal, Block.eq_of_bare_eq heq⟩

theorem exists_block_after_setup (distinct : scope.Distinct)
    (hsetup : draft.blocks[loop]? = some setup) (opens : setup.endTarget = some stop)
    (found : draft.blocks[number]? = some block)
    (marked : block.markerAddress .continues = some address) (past : setup.start < address)
    (before : address < stop) :
    setup.encloses setup.endAddress = true ∧
      ∃ landing ∈ draft.blocks, landing.start = setup.endAddress := by
  obtain ⟨opener, hopener, heq⟩ := reached.exists_original hsetup
  obtain ⟨original, horiginal, same⟩ := reached.exists_original found
  rw [heq] at opens past ⊢
  rw [same] at marked
  obtain ⟨le, landing, member, start⟩ :=
    distinct.exists_block_after_setup hopener opens horiginal marked past
  refine ⟨(Block.encloses_iff opens).2 ⟨Nat.le_refl _, Nat.lt_of_le_of_lt le before⟩, ?_⟩
  rw [← List.mem_map, Block.map_start_eq reached.bare_eq]
  exact List.mem_map.2 ⟨landing, member, start⟩

theorem exists_nodeAt? (starts : ∃ landing ∈ draft.blocks, landing.start = address) :
    ∃ header landing, draft.blocks[header]? = some landing ∧ landing.start = address ∧
      draft.nodeAt? address = some (blockIndex header) := by
  obtain ⟨header, hheader⟩ := Option.isSome_iff_exists.1 (Block.startingAt?_isSome_iff.2 starts)
  obtain ⟨bound, hit, -⟩ := List.findIdx?_eq_some_iff_getElem.1 hheader
  have found := List.getElem?_eq_getElem bound
  obtain ⟨original, horiginal, heq⟩ := reached.exists_original found
  have start := beq_iff_eq.1 hit
  have inner : address ≠ draft.endAddress := by
    have below := Scope.start_lt_endAddress (List.mem_of_getElem? horiginal)
    rw [heq] at start
    rw [reached.endAddress_eq]
    exact Nat.ne_of_lt (start ▸ below)
  exact ⟨header, _, found, start, by rw [nodeAt?, if_neg inner, hheader, Option.map_some]⟩

end Finalizing

/-- A continue for which the search finds a loop is resolved, and stays in the rest of the region of
that loop: it goes to its encoded destination if a block starts there, else to some other block. -/
theorem continue_stays_in_loop (distinct : scope.Distinct)
    (reached : Finalizing scope options draft) (found : draft.blocks[number]? = some block)
    (marked : block.markerAddress .continues = some address)
    (chosen : enclosingLoop? draft.graph draft.blocks (blockIndex number) address =
      .ok (some (loop, setup))) :
    ∃ next destination stop header landing, draft.resolve options .continues number = .ok next ∧
      Completed .continues number block destination draft next ∧
      setup.endTarget = some stop ∧ setup.endAddress ≤ destination ∧ destination < stop ∧
      draft.blocks[header]? = some landing ∧ landing.start = destination ∧
      next.graph.outEdges (blockIndex number) =
        [⟨blockIndex number, blockIndex header, .always⟩] ∧
      ∀ target, block.continueTarget = some target → setup.endAddress ≤ target → target < stop →
        (∃ landing ∈ draft.blocks, landing.start = target) → destination = target := by
  obtain ⟨encloses, -⟩ := encloses_of_enclosingLoop? reached.whole.live chosen
  obtain ⟨stop, opens, past, before⟩ := holds_iff.1 encloses.inside
  obtain ⟨inside, following⟩ :=
    reached.exists_block_after_setup distinct encloses.found opens found marked past before
  obtain ⟨destination, hdestination, within, starts, encoded⟩ :=
    exists_continueDestination? block inside following
  obtain ⟨header, landing, hlanding, start, hnode⟩ := reached.exists_nodeAt? starts
  have resolution : draft.resolution? .continues number block =
      .ok (some (destination, blockIndex header)) := by
    have searched : enclosingLoop? draft.graph draft.blocks (blockIndex number)
        ((block.markerAddress .continues).getD block.start) = .ok (some (loop, setup)) := by
      rwa [marked, Option.getD_some]
    refine bind_eq_ok_iff.2 ⟨_, searched, ?_⟩
    simp [destination?, hdestination, hnode, pure, Except.pure]
  obtain ⟨next, resolved, completed⟩ := reached.exists_completed found resolution
  obtain ⟨target, -, htarget, only⟩ := completed.leads
  obtain rfl := Option.some.inj (hnode.symm.trans htarget)
  obtain ⟨low, high⟩ := (Block.encloses_iff opens).1 within
  refine ⟨next, destination, stop, header, landing, resolved, completed, opens, low, high, hlanding,
    start, only, ?_⟩
  intro target htarget low high
  exact encoded target htarget ((Block.encloses_iff opens).2 ⟨low, high⟩)

/-- A loop with two continues, of which the second has a destination before the loop. -/
def continueSample : Scope :=
  { instructions := [
      ⟨0, .setupLoop, .arg 16, 1, 0, false⟩,
      ⟨3, .loadName, .name "c", 2, 0, false⟩,
      ⟨6, .popJumpIfFalse, .arg 12, 2, 0, false⟩,
      ⟨9, .continueLoop, .arg 3, 3, 0, false⟩,
      ⟨12, .continueLoop, .arg 0, 4, 0, false⟩,
      ⟨15, .jumpAbsolute, .arg 3, 5, 0, false⟩,
      ⟨18, .popBlock, .none, 5, 0, false⟩,
      ⟨19, .returnValue, .none, 6, 0, false⟩]
    sorted := by decide }

theorem continueSample_stays_in_loop :
    continueSample.Distinct ∧ ∀ number ∈ [2, 3], ∃ draft next block destination,
      FlowGraph.draftAt continueSample {} number .continues = .ok draft ∧
      draft.blocks[number]? = some block ∧ draft.resolve {} .continues number = .ok next ∧
      Completed .continues number block destination draft next ∧
      3 ≤ destination ∧ destination < 19 ∧ (number = 2 → destination = 3) := by
  have distinct : continueSample.Distinct := by decide
  have run : ∀ number ∈ [2, 3], succeedsWith (fun draft =>
      draft.blocks.any (fun landing => landing.start == 3) &&
      (draft.blocks[number]?).any fun block =>
        (number != 2 || block.continueTarget == some 3) &&
        (block.markerAddress .continues).any fun address => succeedsWith (fun loop =>
          loop.any fun found => found.2.endAddress == 3 && found.2.endTarget == some 19)
          (enclosingLoop? draft.graph draft.blocks (blockIndex number) address))
      (FlowGraph.draftAt continueSample {} number .continues) = true := by decide +kernel
  refine ⟨distinct, fun number member => ?_⟩
  obtain ⟨draft, hdraft, found⟩ := succeedsWith_iff.1 (run number member)
  simp only [Bool.and_eq_true, Option.any_eq_true, List.any_eq_true, Bool.or_eq_true, bne_iff_ne,
    beq_iff_eq, succeedsWith_iff] at found
  obtain ⟨starts, block, hblock, encoded, address, marked, _, chosen, ⟨loop, setup⟩, rfl, ends,
    opens⟩ := found
  obtain ⟨next, destination, stop, header, landing, resolved, completed, hstop, low, high, -, -, -,
    follows⟩ := continue_stays_in_loop distinct (FlowGraph.finalizing_draftAt hdraft) hblock marked
      chosen
  obtain rfl := Option.some.inj (opens.symm.trans hstop)
  refine ⟨draft, next, block, destination, hdraft, hblock, resolved, completed, ends ▸ low, high,
    fun first => ?_⟩
  exact follows 3 (encoded.resolve_left (not_not_intro first)) (Nat.le_of_eq ends) (by decide)
    starts

end Draft

end StackFlow
