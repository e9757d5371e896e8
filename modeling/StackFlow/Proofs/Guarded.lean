import StackFlow.DefUse.Chains
import StackFlow.Proofs.EnclosingLoop
import StackFlow.Proofs.Statements
import StackFlow.Proofs.Success

/-!
# Guarded construction

The construction once more with a check on every operation that has a range: sums and differences
of words, indices, slices, and insertions.  The checks that the definitions do without, because the
number in question is in range by the way it was found, are all made here.  None of them fails, and
both constructions give the same graph.

Tables over the nodes of a frozen graph are vectors that are indexed by nodes, so dominators,
control dependence and the dataflow runs need no checks.  What is left there are the lookups of
statements and of blocks.
-/

namespace StackFlow

/-! ## Checked operations -/

def Word.checkedSub (first second : Nat) : Except Fault Nat :=
  if second ≤ first then .ok (first - second) else .error .overflow

theorem Word.checkedSub_eq_ok {first second : Nat} (le : second ≤ first) :
    checkedSub first second = .ok (first - second) :=
  if_pos le

theorem Word.checked_eq_ok {value : Nat} (fits : value < limit) : checked value = .ok value :=
  if_pos fits

namespace Fault

variable {α : Type}

def slice (items : List α) (lower upper : Nat) : Except Fault (List α) :=
  if lower ≤ upper ∧ upper ≤ items.length then
    .ok ((items.take upper).drop lower)
  else
    .error .missing

def exchange (items : List α) (first second : Nat) : Except Fault (List α) := do
  let one ← fetch items first
  let other ← fetch items second
  return (items.set first other).set second one

def insertAt (items : List α) (position : Nat) (item : α) : Except Fault (List α) :=
  if position ≤ items.length then
    .ok (items.take position ++ item :: items.drop position)
  else
    .error .missing

theorem slice_eq_ok {items : List α} {lower upper : Nat} (le : lower ≤ upper)
    (bound : upper ≤ items.length) :
    slice items lower upper = .ok ((items.take upper).drop lower) :=
  if_pos ⟨le, bound⟩

theorem mapM_fetch_range {items : List α} {lower count : Nat}
    (bound : lower + count ≤ items.length) :
    ((List.range count).mapM fun offset => fetch items (lower + offset)) =
      .ok ((items.drop lower).take count) := by
  rw [mapM_eq_ok_iff]
  refine List.ext_getElem (by simp; omega) fun offset inside _ => ?_
  have lt : lower + offset < items.length := by
    simp at inside
    omega
  simp [fetch_eq_ok lt]

end Fault

/-! ## Blocks -/

namespace Scope

def guardedBlockBetween (scope : Scope) (start stop : Nat) : Except Fault (Option Block) :=
  match scope.positionOf start with
  | none => return none
  | some lower =>
      let upper := (scope.positionOf stop).getD scope.instructions.length
      if lower < upper then do
        let length ← Word.checkedSub stop start
        let code ← Fault.slice scope.instructions lower upper
        let _ ← Fault.fetch code (← Word.checkedSub code.length 1)
        let decoded ← (List.range code.length).mapM fun offset =>
          Fault.fetch scope.decoded (lower + offset)
        let first ← Fault.fetch decoded 0
        return some (.ofCode length first decoded.tail scope.instructions[upper]?)
      else
        return none

def guardedBlocks (scope : Scope) : Except Fault (List Block) := do
  let _ ← scope.checkedEndAddress
  if scope.isEmpty then
    return []
  else
    let found ← (scope.boundaries.zip scope.boundaries.tail).mapM fun pair =>
      scope.guardedBlockBetween pair.1 pair.2
    return found.filterMap id

theorem length_decoded (scope : Scope) : scope.decoded.length = scope.instructions.length := by
  simp [← map_instr_decoded]

theorem positionOf_getD_le (scope : Scope) (address : Nat) :
    (scope.positionOf address).getD scope.instructions.length ≤ scope.instructions.length := by
  cases found : scope.positionOf address with
  | none => simp
  | some position => exact Nat.le_of_lt (List.findIdx?_eq_some_iff_getElem.1 found).1

theorem guardedBlockBetween_eq (scope : Scope) {start stop : Nat} (le : start ≤ stop) :
    scope.guardedBlockBetween start stop =
      .ok (scope.blockBetween? scope.decoded start stop) := by
  have bound := scope.positionOf_getD_le stop
  have same := scope.length_decoded
  unfold guardedBlockBetween blockBetween?
  cases scope.positionOf start with
  | none => rfl
  | some lower =>
      generalize (scope.positionOf stop).getD scope.instructions.length = upper at bound
      simp only [Option.bind_eq_bind, Option.bind_some, List.drop_take]
      split
      · next lt =>
          have last : upper - lower - 1 < ((scope.instructions.take upper).drop lower).length := by
            simp
            omega
          have length : ((scope.instructions.take upper).drop lower).length = upper - lower := by
            simp
            omega
          have filled : (scope.decoded.drop lower).take (upper - lower) ≠ [] := by
            simp
            omega
          obtain ⟨first, rest, split⟩ := List.exists_cons_of_ne_nil filled
          have fetched := @Fault.mapM_fetch_range _ scope.decoded lower (upper - lower) (by omega)
          simp only [Word.checkedSub_eq_ok le, Fault.slice_eq_ok (Nat.le_of_lt lt) bound, length,
            Word.checkedSub_eq_ok (show 1 ≤ upper - lower by omega), Fault.fetch_eq_ok last,
            fetched, split, ok_bind]
          rfl
      · next ge =>
          have empty : (scope.decoded.drop lower).take (upper - lower) = [] := by
            simp
            omega
          rw [empty]
          rfl

theorem guardedBlocks_eq (scope : Scope) : scope.guardedBlocks = scope.checkedBlocks := by
  have each : ∀ pair ∈ scope.boundaries.zip scope.boundaries.tail,
      scope.guardedBlockBetween pair.1 pair.2 =
        .ok (scope.blockBetween? scope.decoded pair.1 pair.2) := by
    rintro ⟨start, stop⟩ member
    obtain ⟨-, -, lt⟩ := mem_zip_tail_of_pairwise (pairwise_boundaries scope) member
    exact scope.guardedBlockBetween_eq (Nat.le_of_lt lt)
  unfold guardedBlocks checkedBlocks blocks
  cases scope.checkedEndAddress with
  | error fault => rfl
  | ok stop =>
      cases scope.isEmpty with
      | true => rfl
      | false =>
          simp only [ok_bind, mapM_eq_ok_of_forall each, List.filterMap_map]
          rfl

end Scope

/-! ## Drafts -/

namespace Draft

variable {draft : Draft} {number : Nat} {options : Options}

def blockNodes (draft : Draft) : List Nat :=
  (List.range draft.blocks.length).map blockIndex

def guardedNodeAt (draft : Draft) (address : Nat) : Except Fault (Option Nat) :=
  if address = draft.endAddress then
    return some exitIndex
  else
    match Block.startingAt? draft.blocks address with
    | none => return none
    | some number => return some (← Fault.fetch draft.blockNodes number)

def guardedJumpEdges (draft : Draft) (number : Nat) (block : Block) :
    Except Fault (List (Edge Nat BranchKind)) := do
  let found ← block.addressJumps.mapM fun jump => do
    let source ← Fault.fetch draft.blockNodes number
    let target ← draft.guardedNodeAt jump.1
    return target.map (⟨source, ·, jump.2⟩)
  return found.filterMap id

def guardedWire (draft : Draft) : Except Fault Draft := do
  let lists ← draft.blocks.zipIdx.mapM fun numbered =>
    draft.guardedJumpEdges numbered.2 numbered.1
  let graph ← draft.graph.addEdges (draft.outerEdges ++ lists.flatten)
  return { draft with
    graph
    issues := draft.issues ++
      draft.blocks.zipIdx.flatMap fun (block, number) => draft.jumpIssues number block }

theorem fetch_blockNodes (bound : number < draft.blocks.length) :
    Fault.fetch draft.blockNodes number = .ok (blockIndex number) :=
  Fault.fetch_eq_ok_iff.2 (by simp [blockNodes, bound])

theorem guardedNodeAt_eq (draft : Draft) (address : Nat) :
    draft.guardedNodeAt address = .ok (draft.nodeAt? address) := by
  unfold guardedNodeAt nodeAt?
  split
  · rfl
  · cases found : Block.startingAt? draft.blocks address with
    | none => rfl
    | some number =>
        obtain ⟨bound, -⟩ := List.findIdx?_eq_some_iff_getElem.1 found
        simp only [fetch_blockNodes bound]
        rfl

theorem guardedJumpEdges_eq (bound : number < draft.blocks.length) (block : Block) :
    draft.guardedJumpEdges number block = .ok (draft.jumpEdges number block) := by
  have each : ∀ jump ∈ block.addressJumps, (do
      let source ← Fault.fetch draft.blockNodes number
      let target ← draft.guardedNodeAt jump.1
      return target.map (⟨source, ·, jump.2⟩) : Except Fault (Option (Edge Nat BranchKind))) =
        .ok ((draft.nodeAt? jump.1).map (⟨blockIndex number, ·, jump.2⟩)) := by
    intro jump _
    simp only [fetch_blockNodes bound, guardedNodeAt_eq]
    rfl
  unfold guardedJumpEdges jumpEdges
  simp only [mapM_eq_ok_of_forall each, ok_bind, List.filterMap_map]
  rfl

theorem guardedWire_eq (draft : Draft) : draft.guardedWire = draft.wire := by
  have each : ∀ numbered ∈ draft.blocks.zipIdx,
      draft.guardedJumpEdges numbered.2 numbered.1 =
        .ok (draft.jumpEdges numbered.2 numbered.1) := by
    rintro ⟨block, number⟩ member
    have found := List.mem_zipIdx_iff_getElem?.1 member
    exact guardedJumpEdges_eq (List.getElem?_eq_some_iff.1 found).1 block
  unfold guardedWire wire
  simp only [mapM_eq_ok_of_forall each, ok_bind, List.flatMap_def]

def guardedContinueDestination (draft : Draft) (block setup : Block) :
    Except Fault (Option Nat) := do
  let _ ← Word.checked setup.endAddress
  let encoded := block.continueTarget.filter fun target =>
    setup.encloses target && (Block.startingAt? draft.blocks target).isSome
  match encoded with
  | some target => return some target
  | none =>
      match Block.loopHeader? draft.blocks setup with
      | none => return none
      | some header => return some (← Fault.fetch draft.blocks header).start

def guardedDestination (draft : Draft) (exit : LoopExit) (block setup : Block) :
    Except Fault (Option Nat) :=
  match exit with
  | .breaks => return setup.endTarget
  | .continues => draft.guardedContinueDestination block setup

def guardedFollow (draft : Draft) (number : Nat) (exit : LoopExit) (block setup : Block)
    (unresolved : Issue) : Except Fault Draft := do
  match ← draft.guardedDestination exit block setup with
  | none => return draft.report unresolved
  | some destination =>
      match ← draft.guardedNodeAt destination with
      | none => return draft.report (.unknownJumpTarget number destination)
      | some target =>
          draft.redirect number target .always (resolvedJumps exit destination)

def guardedResolve (options : Options) (exit : LoopExit) (draft : Draft) (number : Nat) :
    Except Fault Draft := do
  let block ← Fault.fetch draft.blocks number
  let node ← Fault.fetch draft.blockNodes number
  let address := (block.markerAddress exit.marker).getD block.start
  match ← enclosingLoop? draft.graph draft.blocks node address with
  | none => return draft.report (exit.unresolved number address)
  | some (loop, setup) =>
      let _ ← Fault.fetch draft.blockNodes loop
      let dominated ←
        if options.requireDominatingLoop then draft.dominates loop number else pure true
      let draft := if dominated then draft else draft.report (.nonDominatingLoop number loop)
      draft.guardedFollow number exit block setup (exit.unresolved number address)

theorem lt_length_of_loopHeader? {blocks : List Block} {setup : Block} {header : Nat}
    (found : Block.loopHeader? blocks setup = some header) : header < blocks.length := by
  unfold Block.loopHeader? at found
  split at found
  · cases found
  · rcases Option.or_eq_some_iff.1 found with first | ⟨-, second⟩
    · exact (List.findIdx?_eq_some_iff_getElem.1 first).1
    · exact (List.findIdx?_eq_some_iff_getElem.1 second).1

theorem guardedDestination_eq (draft : Draft) (exit : LoopExit) (block : Block) {setup : Block}
    (fits : setup.endAddress < Word.limit) :
    draft.guardedDestination exit block setup = .ok (draft.destination? exit block setup) := by
  cases exit with
  | breaks => rfl
  | continues =>
      unfold guardedDestination destination? guardedContinueDestination continueDestination?
      simp only [Word.checked_eq_ok fits, ok_bind]
      cases block.continueTarget.filter fun target =>
          setup.encloses target && (Block.startingAt? draft.blocks target).isSome with
      | some target => rfl
      | none =>
          cases found : Block.loopHeader? draft.blocks setup with
          | none => rfl
          | some header =>
              have bound := lt_length_of_loopHeader? found
              simp [Fault.fetch_eq_ok bound, bound]

theorem guardedFollow_eq (draft : Draft) (number : Nat) (exit : LoopExit) (block : Block)
    {setup : Block} (fits : setup.endAddress < Word.limit) (unresolved : Issue) :
    draft.guardedFollow number exit block setup unresolved =
      match draft.destination? exit block setup with
      | none => return draft.report unresolved
      | some destination =>
          match draft.nodeAt? destination with
          | none => return draft.report (.unknownJumpTarget number destination)
          | some target =>
              draft.redirect number target .always (resolvedJumps exit destination) := by
  unfold guardedFollow
  rw [guardedDestination_eq draft exit block fits, ok_bind]
  cases draft.destination? exit block setup with
  | none => rfl
  | some destination => simp only [guardedNodeAt_eq, ok_bind]

theorem guardedResolve_eq (whole : draft.Whole) (bound : number < draft.blocks.length)
    (fits : ∀ block ∈ draft.blocks, block.endAddress < Word.limit) (exit : LoopExit) :
    draft.guardedResolve options exit number = draft.resolve options exit number := by
  unfold guardedResolve resolve
  simp only [Fault.fetch_eq_ok bound, fetch_blockNodes bound, ok_bind]
  obtain ⟨found, hfound⟩ := exists_enclosingLoop? whole.block_lt (blockIndex number)
    ((draft.blocks[number].markerAddress exit.marker).getD draft.blocks[number].start)
  simp only [hfound, ok_bind]
  cases found with
  | none => rfl
  | some found =>
      obtain ⟨loop, setup⟩ := found
      have hsetup := (encloses_of_enclosingLoop? whole.live hfound).1.found
      have inside := (List.getElem?_eq_some_iff.1 hsetup).1
      have follow := fun reported : Draft =>
        reported.guardedFollow_eq number exit draft.blocks[number]
          (fits setup (List.mem_of_getElem? hsetup))
      simp only [fetch_blockNodes inside, ok_bind]
      split
      · exact bind_congr fun dominated => follow _ _
      · exact follow _ _

def guardedApplyMarker (options : Options) (number : Nat) (draft : Draft) :
    Marker → Except Fault Draft
  | .breaks => draft.guardedResolve options .breaks number
  | .continues => draft.guardedResolve options .continues number
  | .returns => draft.redirectToExit .onReturn number
  | .raises => draft.redirectToExit .onException number

def guardedFinalizeBlock (options : Options) (draft : Draft) (number : Nat) :
    Except Fault Draft := do
  let block ← Fault.fetch draft.blocks number
  (markerOrder.filter block.hasMarker).foldlM (guardedApplyMarker options number) draft

def Fits (draft : Draft) : Prop :=
  ∀ block ∈ draft.blocks, block.endAddress < Word.limit

theorem Fits.congr {before after : Draft} (fits : before.Fits)
    (same : after.blocks.map Block.bare = before.blocks.map Block.bare) : after.Fits :=
  (Block.forall_mem_congr same fun _ => Iff.rfl).2 fits

/-- What every marker keeps, and what the guards rely on. -/
structure Guardable (length : Nat) (draft : Draft) : Prop where
  whole : draft.Whole
  fits : draft.Fits
  length_eq : draft.blocks.length = length

theorem Guardable.taken {length : Nat} {before after : Draft} (guardable : before.Guardable length)
    (taken : Taken number before after) : after.Guardable length where
  whole := taken.whole guardable.whole
  fits := guardable.fits.congr taken.touches.bare
  length_eq := taken.touches.length_blocks.trans guardable.length_eq

theorem Guardable.applyMarker_eq {length : Nat} (guardable : draft.Guardable length)
    (bound : number < length) (marker : Marker) :
    guardedApplyMarker options number draft marker = applyMarker options number draft marker := by
  rw [← guardable.length_eq] at bound
  cases marker with
  | breaks => exact guardedResolve_eq guardable.whole bound guardable.fits .breaks
  | continues => exact guardedResolve_eq guardable.whole bound guardable.fits .continues
  | returns | raises => rfl

theorem Guardable.finalizeBlock_eq {length : Nat} (guardable : draft.Guardable length)
    (bound : number < length) :
    guardedFinalizeBlock options draft number = finalizeBlock options draft number := by
  unfold guardedFinalizeBlock finalizeBlock
  rw [Fault.fetch_eq_ok (guardable.length_eq ▸ bound), ok_bind, ok_bind]
  refine foldlM_congr (Guardable length) guardable ?_ ?_
  · exact fun marker _ current holds => holds.applyMarker_eq bound marker
  · exact fun marker _ current following holds applied => holds.taken (taken_applyMarker applied)

theorem Guardable.finalizeBlocks_eq {length : Nat} (guardable : draft.Guardable length) :
    (List.range length).foldlM (guardedFinalizeBlock options) draft =
      (List.range length).foldlM (finalizeBlock options) draft := by
  refine foldlM_congr (Guardable length) guardable ?_ ?_
  · exact fun number member current holds => holds.finalizeBlock_eq (List.mem_range.1 member)
  · intro number _ current following holds finalized
    obtain ⟨block, -, folded⟩ := bind_eq_ok_iff.1 finalized
    exact foldlM_induct (motive := fun _ => Guardable length) folded holds
      fun _ _ _ _ _ _ holds applied => holds.taken (taken_applyMarker applied)

end Draft

/-! ## Statements -/

/-- The operand stack is a vector whose last entry is the top. -/
def NameStack.guardedShuffle (stack : NameStack) (op : Opcode) (effect : StackEffect) :
    Except Fault NameStack :=
  match op with
  | .dupTop => return stack.head?.join :: stack
  | .rotTwo =>
      if 2 ≤ stack.length then do
        let top ← Word.checkedSub stack.length 1
        let below ← Word.checkedSub stack.length 2
        return (← Fault.exchange stack.reverse top below).reverse
      else
        return stack.replace effect
  | .rotThree =>
      match stack with
      | top :: rest =>
          if 3 ≤ stack.length then do
            let position ← Word.checkedSub rest.length 2
            return (← Fault.insertAt rest.reverse position top).reverse
          else
            return stack.replace effect
      | [] => return stack.replace effect
  | _ => return stack.replace effect

theorem NameStack.guardedShuffle_eq (stack : NameStack) (op : Opcode) (effect : StackEffect) :
    stack.guardedShuffle op effect = .ok (stack.shuffle op effect) := by
  unfold guardedShuffle
  split
  · rfl
  · rcases stack with _ | ⟨first, _ | ⟨second, rest⟩⟩
    · rfl
    · rfl
    · simp [Word.checkedSub, Fault.exchange, Fault.fetch, Fault.require, shuffle, ok_bind]
  · rcases stack with _ | ⟨first, _ | ⟨second, _ | ⟨third, rest⟩⟩⟩
    · rfl
    · rfl
    · rfl
    · simp [Word.checkedSub, Fault.insertAt, shuffle, ok_bind]
  · next dup two three =>
      unfold shuffle
      split
      · exact absurd rfl dup
      · exact absurd rfl two
      · exact absurd rfl three
      · rfl

def NameStack.guardedStep (stack : NameStack) (instr : Instruction) :
    Except Fault (NameStack × Names) := do
  let effect ← instr.checkedEffect
  match instr.op.nameAccess, instr.operand.name? with
  | some _, some _ => return stack.step instr
  | _, _ => return (← stack.guardedShuffle instr.op effect, {})

def Splitter.advance (splitter : Splitter) (instr : Instruction) (outcome : NameStack × Names) :
    Splitter :=
  let next := splitter.read instr outcome
  if instr.op ≠ .extendedArg ∧ next.depth ≤ 0 then next.close true else next

def Splitter.guardedStep (splitter : Splitter) (instr : Instruction) : Except Fault Splitter :=
  return splitter.advance instr (← splitter.stack.guardedStep instr)

def Block.guardedStatements (block : Block) : Except Fault (List Statement) :=
  return (← block.instructions.foldlM Splitter.guardedStep {}).finish

theorem Instruction.checkedEffect_eq_ok {instr : Instruction}
    (pops : instr.effect.pops < Word.limit) (pushes : instr.effect.pushes < Word.limit) :
    instr.checkedEffect = .ok instr.effect := by
  unfold effect at pops pushes
  unfold checkedEffect Opcode.checkedStackEffect
  rw [Word.checked_eq_ok pops, Word.checked_eq_ok pushes]
  rfl

theorem Splitter.guardedStep_eq {instr : Instruction} (splitter : Splitter)
    (pops : instr.effect.pops < Word.limit) (pushes : instr.effect.pushes < Word.limit) :
    splitter.guardedStep instr = .ok (splitter.step instr) := by
  have stack : splitter.stack.guardedStep instr = .ok (splitter.stack.step instr) := by
    unfold NameStack.guardedStep
    rw [Instruction.checkedEffect_eq_ok pops pushes, ok_bind]
    split
    · rfl
    · next unnamed =>
        rw [NameStack.step_eq_shuffle unnamed, NameStack.guardedShuffle_eq]
        rfl
  unfold guardedStep
  rw [stack]
  rfl

theorem Block.guardedStatements_eq {block : Block}
    (words : ∀ instr ∈ block.instructions,
      instr.effect.pops < Word.limit ∧ instr.effect.pushes < Word.limit) :
    block.guardedStatements = .ok block.statements := by
  have folded : block.instructions.foldlM Splitter.guardedStep {} =
      .ok (block.instructions.foldl Splitter.step {}) :=
    foldlM_eq_ok_of_forall fun instr member splitter =>
      splitter.guardedStep_eq (words instr member).1 (words instr member).2
  unfold guardedStatements
  rw [folded]
  rfl

namespace FlowGraph

variable {scope : Scope} {options : Options} {flow : FlowGraph}

def guardedUnbalanced (number : Nat) (block : Block) (statements : List Statement) :
    Except Fault (List Issue) := do
  let exempt := if block.last?.any fun instr => instr.op.handsOperands then 1 else 0
  let reported ← Fault.slice statements 0 (statements.length - exempt)
  return (reported.filter fun statement => !statement.balanced).map
    fun statement => .unbalancedStatement number statement.start statement.depth

theorem guardedUnbalanced_eq (number : Nat) (block : Block) (statements : List Statement) :
    guardedUnbalanced number block statements = .ok (unbalanced number block statements) := by
  unfold guardedUnbalanced
  simp only [Fault.slice_eq_ok (Nat.zero_le _) (Nat.sub_le _ _)]
  rfl

/-! ## The whole construction -/

def guardedBuild (scope : Scope) (options : Options) : Except Fault FlowGraph := do
  let blocks ← scope.guardedBlocks
  let wired ← (Draft.ofBlocks scope.endAddress blocks).guardedWire
  let resolved ← (List.range wired.blocks.length).foldlM (Draft.guardedFinalizeBlock options)
    wired.reclassify
  let frozen ← (lastDraft options resolved).graph.freeze
  let statements ← resolved.blocks.mapM Block.guardedStatements
  let unbalanced ← (resolved.blocks.zip statements).zipIdx.mapM fun numbered =>
    guardedUnbalanced numbered.2 numbered.1.1 numbered.1.2
  let entry ← Fault.require (frozen.node? Draft.entryIndex)
  let exit ← Fault.require (frozen.node? Draft.exitIndex)
  return { assemble scope resolved frozen entry exit statements with
    issues := resolved.issues ++ unbalanced.flatten }

theorem endAddress_le_of_mem_blocks {block : Block} (member : block ∈ scope.blocks) :
    block.endAddress ≤ scope.endAddress := by
  obtain ⟨start, stop, hstop, spans⟩ := Scope.exists_spans_of_mem member
  rw [spans.endAddress_eq]
  exact Scope.le_endAddress_of_mem_boundaries hstop

theorem guardedBuild_eq (fits : scope.endAddress < Word.limit)
    (words : ∀ block ∈ scope.blocks, ∀ instr ∈ block.instructions,
      instr.effect.pops < Word.limit ∧ instr.effect.pushes < Word.limit) :
    guardedBuild scope options = build scope options := by
  obtain ⟨wired, resolved, frozen, entry, exit, assembled⟩ := exists_assembled scope options
  have guardable : wired.reclassify.Guardable wired.blocks.length := by
    refine ⟨Draft.whole_reclassify assembled.wire, ?_, rfl⟩
    have same : wired.reclassify.blocks = scope.blocks := (Draft.wire_eq_ok assembled.wire).2.1
    intro block member
    exact Nat.lt_of_le_of_lt (endAddress_le_of_mem_blocks (same ▸ member)) fits
  have resolvedWords := (Block.forall_mem_congr assembled.bare_eq fun _ => Iff.rfl).2 words
  have guarded : resolved.blocks.mapM Block.guardedStatements =
      .ok (resolved.blocks.map Block.statements) :=
    mapM_eq_ok_of_forall fun block member => Block.guardedStatements_eq (resolvedWords block member)
  have checked : resolved.blocks.mapM Block.checkedStatements =
      .ok (resolved.blocks.map Block.statements) := by
    refine mapM_eq_ok_of_forall fun block member => ?_
    obtain ⟨statements, done⟩ := exists_checkedStatements_iff.2 (resolvedWords block member)
    rw [done, checkedStatements_eq_ok done]
  have unbalanced := mapM_eq_ok_of_forall
    fun (numbered : (Block × List Statement) × Nat)
      (_ : numbered ∈ (resolved.blocks.zip (resolved.blocks.map Block.statements)).zipIdx) =>
      guardedUnbalanced_eq numbered.2 numbered.1.1 numbered.1.2
  rw [assembled.build_eq]
  unfold guardedBuild
  rw [Scope.guardedBlocks_eq]
  unfold Scope.checkedBlocks Scope.checkedEndAddress
  simp only [Word.checked_eq_ok fits, ok_bind, Draft.guardedWire_eq, pure_bind, assembled.wire,
    guardable.finalizeBlocks_eq, assembled.finalize, assembled.freeze, guarded, checked, unbalanced,
    Fault.require, assembled.entry, assembled.exit, assemble, List.mapIdx_eq_zipIdx_map]

/-! ## Lookups of the analyses -/

def guardedStatementsOf (flow : FlowGraph) (node : Fin flow.size) :
    Except Fault (List Statement) :=
  match flow.blockOf? node with
  | some block => Fault.fetch flow.statements block
  | none => return []

def guardedBlockAt (flow : FlowGraph) (address : Nat) : Except Fault (Option Nat) :=
  match (flow.blocks.zipIdx.filter fun (block, _) => block.start ≤ address).getLast? with
  | none => return none
  | some (_, number) => do
      let block ← Fault.fetch flow.blocks number
      let stop ← Word.checked block.endAddress
      return if block.start ≤ address && address < stop then some number else none

theorem guardedStatementsOf_eq (built : build scope options = .ok flow) (node : Fin flow.size) :
    flow.guardedStatementsOf node = .ok (flow.statementsOf node) := by
  obtain ⟨wired, resolved, stages⟩ := build_eq_ok built
  unfold guardedStatementsOf statementsOf
  cases found : flow.blockOf? node with
  | none => rfl
  | some block =>
      have bound : block < flow.statements.length := by
        rw [stages.wellFormed.statements_eq, List.length_map]
        exact stages.lt_length_blocks found
      simp [Fault.fetch_eq_ok bound, bound]

theorem guardedBlockAt_eq (fits : ∀ block ∈ flow.blocks, block.endAddress < Word.limit)
    (address : Nat) : flow.guardedBlockAt address = .ok (flow.blockAt? address) := by
  unfold guardedBlockAt blockAt?
  cases last : (flow.blocks.zipIdx.filter fun (block, _) => block.start ≤ address).getLast? with
  | none => rfl
  | some found =>
      obtain ⟨block, number⟩ := found
      have listed := (List.mem_filter.1 (List.mem_of_getLast? last)).1
      have hblock := List.mem_zipIdx_iff_getElem?.1 listed
      simp only [Fault.fetch_eq_ok_iff.2 hblock, ok_bind,
        Word.checked_eq_ok (fits block (List.mem_of_getElem? hblock))]
      rfl

end FlowGraph

/-! ## Words in the code -/

theorem Opcode.effect_words (op : Opcode) {arg : Nat} (word : arg < Word.limit)
    (function : op = .makeFunction → arg + 1 < Word.limit)
    (closure : op = .makeClosure → arg + 2 < Word.limit) :
    (op.stackEffect arg).pops < Word.limit ∧ (op.stackEffect arg).pushes < Word.limit := by
  unfold Word.limit at *
  cases op <;> simp_all [stackEffect, callArguments] <;> omega

namespace Scope

variable {scope : Scope}

theorem mem_instructions_of_mem_blocks {block : Block} {instr : Instruction}
    (member : block ∈ scope.blocks) (inside : instr ∈ block.instructions) :
    instr ∈ scope.instructions := by
  obtain ⟨start, stop, -, spans⟩ := exists_spans_of_mem member
  rw [spans.instructions_eq] at inside
  obtain ⟨code, hcode, rfl⟩ := List.mem_map.1 inside
  rw [← map_instr_decoded]
  exact List.mem_map_of_mem (mem_codeBetween_iff.1 hcode).1

theorem endAddress_word (entry : scope.entry < Word.limit)
    (ends : ∀ last, scope.instructions.getLast? = some last → last.nextAddress < Word.limit) :
    scope.endAddress < Word.limit := by
  unfold endAddress
  split
  · next last hlast => exact ends last hlast
  · exact entry

end Scope

theorem Chains.compute_cases (flow : FlowGraph) (steps : Nat) :
    (∃ chains, compute flow steps = .ok chains) ∨
      compute flow steps = .error (.nonTermination steps) := by
  unfold compute Analysis.solve
  split
  · exact .inr rfl
  · exact .inl ⟨_, rfl⟩

/-- The code may hold any operations at any addresses: as long as the last address, the arguments
and the counts of the two operations that add to theirs are words, no check fails, neither while the
graph is built nor in the analyses on it. -/
theorem FlowGraph.build_within_bounds {scope : Scope} (options : Options)
    (entry : scope.entry < Word.limit)
    (ends : ∀ last, scope.instructions.getLast? = some last → last.nextAddress < Word.limit)
    (args : ∀ instr ∈ scope.instructions, instr.arg < Word.limit)
    (functions : ∀ instr ∈ scope.instructions,
      instr.op = .makeFunction → instr.arg ≠ 4294967295)
    (closures : ∀ instr ∈ scope.instructions,
      instr.op = .makeClosure → instr.arg < 4294967294) :
    ∃ flow, build scope options = .ok flow ∧ guardedBuild scope options = .ok flow ∧
      (∀ node, flow.guardedStatementsOf node = .ok (flow.statementsOf node)) ∧
      (∀ address, flow.guardedBlockAt address = .ok (flow.blockAt? address)) ∧
      ∀ steps, (∃ chains, Chains.compute flow steps = .ok chains) ∨
        Chains.compute flow steps = .error (.nonTermination steps) := by
  have fits := Scope.endAddress_word entry ends
  have words : ∀ block ∈ scope.blocks, ∀ instr ∈ block.instructions,
      instr.effect.pops < Word.limit ∧ instr.effect.pushes < Word.limit := by
    intro block member instr inside
    have listed := Scope.mem_instructions_of_mem_blocks member inside
    have word := args instr listed
    have function := functions instr listed
    have closure := closures instr listed
    unfold Word.limit at word
    refine instr.op.effect_words word (fun heq => ?_) (fun heq => ?_)
    · have ne := function heq
      unfold Word.limit
      omega
    · have lt := closure heq
      unfold Word.limit
      omega
  have succeeds : ∃ flow, build scope options = .ok flow := exists_build_iff.2 ⟨fits, words⟩
  obtain ⟨flow, built⟩ := succeeds
  obtain ⟨wired, resolved, stages⟩ := build_eq_ok built
  have inside : ∀ block ∈ flow.blocks, block.endAddress < Word.limit := by
    refine (Block.forall_mem_congr stages.bare_eq fun _ => Iff.rfl).2 fun block member => ?_
    exact Nat.lt_of_le_of_lt (endAddress_le_of_mem_blocks member) fits
  exact ⟨flow, built, (guardedBuild_eq fits words).trans built, guardedStatementsOf_eq built,
    guardedBlockAt_eq inside, Chains.compute_cases flow⟩

/-- A loop with a break and a continue that ends at the last word, with rotations on too short a
stack and with the greatest arguments that there may be. -/
def FlowGraph.edgeSample : Scope :=
  { entry := 4294967200
    instructions := [
      ⟨4294967200, .setupLoop, .arg 21, 1, 0, false⟩,
      ⟨4294967203, .rotThree, .none, 1, 0, false⟩,
      ⟨4294967204, .loadName, .name "x", 2, 0, false⟩,
      ⟨4294967207, .rotTwo, .none, 2, 0, false⟩,
      ⟨4294967208, .popJumpIfFalse, .arg 4294967214, 2, 0, false⟩,
      ⟨4294967211, .continueLoop, .arg 4294967204, 3, 0, false⟩,
      ⟨4294967214, .makeFunction, .arg 4294967294, 4, 0, false⟩,
      ⟨4294967217, .makeClosure, .arg 4294967293, 4, 0, false⟩,
      ⟨4294967220, .unpackSequence, .arg 2, 4, 0, false⟩,
      ⟨4294967223, .breakLoop, .none, 5, 0, false⟩,
      ⟨4294967224, .extendedArg, .arg 4294967295, 6, 0, false⟩,
      ⟨4294967227, .jumpAbsolute, .arg 4294967295, 6, 0, false⟩,
      ⟨4294967292, .storeName, .name "y", 7, 0, false⟩]
    sorted := by decide }

theorem FlowGraph.edgeSample_within_bounds :
    ∃ flow, build edgeSample {} = .ok flow ∧ guardedBuild edgeSample {} = .ok flow ∧
      flow.guardedBlockAt 4294967292 = .ok (flow.blockAt? 4294967292) := by
  obtain ⟨flow, built, guarded, -, lookup, -⟩ :=
    @build_within_bounds edgeSample {} (by decide) (by decide +kernel) (by decide +kernel)
      (by decide +kernel) (by decide +kernel)
  exact ⟨flow, built, guarded, lookup _⟩

end StackFlow
