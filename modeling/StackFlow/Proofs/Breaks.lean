import StackFlow.Proofs.BlockStack
import StackFlow.Proofs.EnclosingLoop
import StackFlow.Proofs.Shape
import StackFlow.Proofs.Transfers

/-!
# Breaks and the block stack

A run that reaches a break has the setups of the loops that it is in on its stack, while the break
is resolved by addresses and by what the graph reaches when the turn of its block comes.  A run that
does not stray follows edges of that graph (`FlowGraph.Stages.covers_or_joins`), so each loop on its
stack whose region holds the break is one of the loops around it
(`FlowGraph.Stages.encloses_of_trace`).  The last of these loops may be one that the run has left
already, as in the else clause of a loop.
-/

namespace StackFlow

/-! ## Setups of loops -/

theorem Decoded.transfer_of_opensLoop {code : Decoded} (opens : code.opensLoop = true) :
    code.instr.op.transfer = .setup .loop :=
  of_decide_eq_true opens

theorem Decoded.carries_of_opensLoop {code : Decoded} (opens : code.opensLoop = true) :
    code.instr.op.addressing.isSome = true ∧ code.instr.stops = false := by
  have transfer := transfer_of_opensLoop opens
  refine ⟨?_, by simp [Instruction.stops, transfer]⟩
  generalize code.instr.op = op at transfer ⊢
  cases op <;> simp_all [Opcode.transfer, Opcode.addressing]

theorem Decoded.branch?_eq_onTrue_iff {code : Decoded} :
    code.branch? = some .onTrue ↔ code.instr.op.transfer = .jumpIfTrue := by
  unfold branch?
  split <;> simp_all

namespace Scope

variable {scope : Scope} {position number stop : Nat} {opening : Decoded} {opener : Block}

section Setup

variable (distinct : scope.Distinct) (here : scope.decoded[position]? = some opening)
  (opens : opening.opensLoop = true) (covers : scope.Covers number opener opening.instr.address)

include distinct here opens covers

theorem Distinct.getLastD_opening {first : Decoded} {rest : List Decoded}
    (split : scope.codeBetween opener.start opener.endAddress = first :: rest) :
    rest.getLastD first = opening := by
  obtain ⟨carries, goesOn⟩ := Decoded.carries_of_opensLoop opens
  exact distinct.getLastD_eq here covers carries
    (Instruction.neverFallsThrough_of_goesOn goesOn) split

theorem Distinct.kind_eq_loop (ends : opening.destination = some stop) :
    opener.kind = .loop ∧ opener.endTarget = some stop := by
  obtain ⟨first, rest, next, split, heq, -⟩ := covers.spans.ofCode
  have transfer := Decoded.transfer_of_opensLoop opens
  have setup : opening.setup? = some (.loop, stop) := by simp [Decoded.setup?, transfer, ends]
  have last : ((first :: rest).filterMap Decoded.setup?).getLast? = some (.loop, stop) := by
    rw [← List.dropLast_concat_getLast (List.cons_ne_nil first rest),
      List.getLast_eq_getLastD, distinct.getLastD_opening here opens covers split,
      List.filterMap_append, List.filterMap_cons_some setup]
    simp
  rw [heq]
  simp only [Block.ofCode, last]
  exact ⟨rfl, rfl⟩

theorem Distinct.kind_ne_onTrue {address : Nat} {kind : BranchKind}
    (jump : ⟨.address address, kind⟩ ∈ opener.jumps) : kind ≠ .onTrue := by
  obtain ⟨first, rest, next, split, heq, -⟩ := covers.spans.ofCode
  have last := distinct.getLastD_opening here opens covers split
  have transfer := Decoded.transfer_of_opensLoop opens
  rw [heq] at jump
  rintro rfl
  rcases Block.branch?_of_mem_ofCode jump with ⟨code, hcode, branch⟩ | through
  · -- a conditional jump would be the last instruction too
    obtain ⟨hcode, low, high⟩ := mem_codeBetween_iff.1 (split ▸ hcode)
    obtain ⟨index, hindex⟩ := List.mem_iff_getElem?.1 hcode
    have conditional := Decoded.branch?_eq_onTrue_iff.1 branch
    have jumps : code.instr.op.isJump = true := by simp [Opcode.isJump, conditional]
    have carries := Opcode.addressing_isSome_of_isJump jumps
    have goesOn : code.instr.stops = false := by simp [Instruction.stops, conditional]
    obtain rfl := last.symm.trans (distinct.getLastD_eq hindex ⟨covers.found, low, high⟩ carries
      (Instruction.neverFallsThrough_of_goesOn goesOn) split)
    rw [transfer] at conditional
    cases conditional
  · rw [last, Block.fallThroughKind, transfer] at through
    cases through

end Setup

end Scope

/-! ## The graph at the turn of a block -/

namespace Draft

variable {draft next before after : Draft} {number scopeEnd : Nat} {block : Block}
  {blocks : List Block} {options : Options}

theorem sameOut_of_unmarked {numbers : List Nat}
    (folded : numbers.foldlM (finalizeBlock options) draft = .ok next)
    (found : draft.blocks[number]? = some block)
    (unmarked : ∀ marker, block.hasMarker marker = false) :
    Sketch.SameOut (blockIndex number) next.graph draft.graph := by
  have kept : next.blocks[number]? = some block ∧
      Sketch.SameOut (blockIndex number) next.graph draft.graph := by
    refine foldlM_induct (motive := fun _ current => current.blocks[number]? = some block ∧
      Sketch.SameOut (blockIndex number) current.graph draft.graph) folded
      ⟨found, fun _ _ => Iff.rfl⟩ ?_
    rintro - other - current following - ⟨found, same⟩ finalized
    by_cases heq : other = number
    · subst heq
      obtain ⟨fetched, hfetched, applied⟩ := bind_eq_ok_iff.1 finalized
      obtain rfl := Option.some.inj (found.symm.trans (Fault.fetch_eq_ok_iff.1 hfetched))
      have none : markerOrder.filter block.hasMarker = [] := by simp [markerOrder, unmarked]
      rw [none, List.foldlM_nil, pure_eq_ok_iff] at applied
      exact applied ▸ ⟨found, same⟩
    · have touches := touches_finalizeBlock finalized
      have absent : number ∉ [other] := by simpa using Ne.symm heq
      exact ⟨(touches.block number absent).trans found, (touches.sameOut absent).trans same⟩
  exact kept.2

end Draft

namespace FlowGraph

variable {scope : Scope} {options : Options} {flow : FlowGraph} {wired resolved draft : Draft}
  {number earlier other stop position : Nat} {node : Fin flow.size}
  {block candidate opener original : Block} {code landing opening : Decoded}
  {config after push : Config} {past recent older : List Config}

namespace Stages

variable (stages : Stages scope options flow wired resolved)
  (before : draftBefore scope options number = .ok draft)

include stages before

theorem foldlM_before :
    (List.range number).foldlM (Draft.finalizeBlock options) wired.reclassify = .ok draft := by
  obtain ⟨current, wire, folded⟩ := bind_eq_ok_iff.1 before
  rwa [Except.ok.inj (wire.symm.trans stages.wire)] at folded

theorem live_before : draft.graph.Live :=
  Draft.foldlM_finalizeBlock_induct (stages.foldlM_before before)
    (Draft.live_reclassify (Draft.live_wire stages.wire)) fun _ _ _ taken => taken.live

theorem getElem?_before (found : scope.blocks[earlier]? = some block) :
    ∃ current, draft.blocks[earlier]? = some current ∧
      current = { block with jumps := current.jumps } := by
  have touches := Draft.touches_foldlM_finalizeBlock (stages.foldlM_before before)
  have hwired : wired.reclassify.blocks[earlier]? = some block := stages.blocks_wired ▸ found
  obtain ⟨current, hcurrent, heq⟩ := Block.exists_getElem? touches.bare.symm hwired
  exact ⟨current, hcurrent, Block.eq_of_bare_eq heq.symm⟩

theorem eq_of_start_eq (found : draft.blocks[earlier]? = some block)
    (hother : draft.blocks[other]? = some candidate) (same : block.start = candidate.start) :
    block = candidate := by
  have touches := Draft.touches_foldlM_finalizeBlock (stages.foldlM_before before)
  have starts : draft.blocks.map Block.start = scope.blocks.map Block.start :=
    (Block.map_start_eq touches.bare).trans (congrArg (List.map Block.start) stages.blocks_wired)
  have nodup : (draft.blocks.map Block.start).Nodup := by
    rw [starts]
    exact (List.pairwise_map.2 (Scope.pairwise_start scope)).imp Nat.ne_of_lt
  exact List.inj_on_of_nodup_map nodup (List.mem_of_getElem? found) (List.mem_of_getElem? hother)
    same

theorem joins_before (found : scope.blocks[earlier]? = some block)
    (unmarked : earlier < number → ∀ marker, block.hasMarker marker = false)
    {kind : BranchKind} (jump : ⟨.address candidate.start, kind⟩ ∈ block.jumps)
    (reached : scope.blocks[other]? = some candidate) :
    draft.graph.Joins (Draft.blockIndex earlier) (Draft.blockIndex other) := by
  have folded := stages.foldlM_before before
  have hwired : wired.blocks[earlier]? = some block := stages.blocks_wired ▸ found
  have kept : Sketch.SameOut (Draft.blockIndex earlier) draft.graph wired.reclassify.graph := by
    by_cases lt : earlier < number
    · exact Draft.sameOut_of_unmarked folded hwired (unmarked lt)
    · exact (Draft.touches_foldlM_finalizeBlock folded).sameOut (by simpa using lt)
  have same : Sketch.SameOut (Draft.blockIndex earlier) draft.graph wired.graph :=
    kept.trans fun edge _ => by rw [Draft.edges_reclassify]
  obtain ⟨following, hfollowing, heq⟩ := stages.getElem?_flow_blocks reached
  have starts : following.start = candidate.start := by rw [heq]
  refine same.joins_iff.2 ((Draft.joins_wire_iff stages.wire hwired).2
    (.inr ⟨candidate.start, kind, jump, ?_⟩))
  rw [stages.nodeAt?_wired]
  exact stages.nodeAt?_eq_some_iff.2 (.inr ⟨other, following, hfollowing, starts, rfl⟩)

theorem node?_before (found : scope.blocks[earlier]? = some block) (loop : block.kind = .loop)
    (straight : ∀ address kind, ⟨.address address, kind⟩ ∈ block.jumps → kind ≠ .onTrue) :
    draft.graph.node? (Draft.blockIndex earlier) = some ⟨.loop, some earlier⟩ := by
  have slots := (Draft.touches_foldlM_finalizeBlock (stages.foldlM_before before)).slots
  have hwired : wired.blocks[earlier]? = some block := stages.blocks_wired ▸ found
  have single : Draft.branchesBothWays wired.graph (Draft.blockIndex earlier) = false := by
    rw [Bool.eq_false_iff]
    intro branches
    obtain ⟨edge, member, leaves, label⟩ := Draft.exists_edge_of_branchesBothWays branches
    have listed := (Draft.least_of_mem_edges_wire stages.wire member).1
    rcases (Draft.mem_wiredEdges_iff_of_source leaves hwired).1 listed with ⟨-, rfl⟩ | jump
    · cases label
    · obtain ⟨address, jump, -⟩ := Draft.mem_jumpEdges_iff.1 jump
      exact straight address edge.label jump label
  rw [Sketch.node?, slots]
  refine (Draft.node?_reclassify wired _).trans ?_
  rw [Draft.node?_wire stages.wire, Draft.getElem?_nodes found]
  simp [single, loop, NodeKind.ofBlock]

theorem covers_or_joins (distinct : scope.Distinct) (step : scope.Step config after)
    (straight : ¬ scope.Strays number config) (clear : scope.Clear code)
    (here : scope.decoded[config.position]? = some code)
    (covers : scope.Covers earlier block code.instr.address)
    (there : scope.decoded[after.position]? = some landing)
    (reached : scope.Covers other candidate landing.instr.address) :
    scope.Covers earlier block landing.instr.address ∨
      draft.graph.Joins (Draft.blockIndex earlier) (Draft.blockIndex other) := by
  refine (step.block_cases distinct clear here covers there).imp_right ?_
  rintro ⟨starts, ⟨kind, jump⟩, either⟩
  rw [← reached.start_eq starts] at jump
  refine stages.joins_before before covers.found (fun lt marker => ?_) jump reached.found
  rw [Bool.eq_false_iff]
  intro marked
  obtain ⟨instr, member, transfer⟩ := covers.spans.hasMarker_iff.1 marked
  have marks := Instruction.marks_of_transfer transfer
  rcases either with jumps | goesOn
  · exact straight ⟨code, earlier, block, here, jumps, lt, covers, instr, member, marks⟩
  · have stops := Instruction.stops_of_marks marks
    rw [goesOn instr member] at stops
    cases stops

theorem leads_of_trace (enters : scope.EntersFirst) (distinct : scope.Distinct)
    (trace : scope.Trace (config :: (recent ++ push :: older)))
    (pushed : scope.decoded[push.position]? = some opening) (opens : opening.opensLoop = true)
    (covers : scope.Covers earlier opener opening.instr.address)
    (straight : ∀ later ∈ recent, ¬ scope.Strays number later)
    (here : scope.decoded[config.position]? = some code)
    (reached : scope.Covers other candidate code.instr.address) :
    draft.graph.Leads (Draft.blockIndex earlier) (Draft.blockIndex other) := by
  induction recent generalizing config code other candidate with
  | nil =>
      have transfer := Decoded.transfer_of_opensLoop opens
      obtain ⟨carries, goesOn⟩ := Decoded.carries_of_opensLoop opens
      cases trace with
      | step trace step =>
      have hnext : scope.decoded[push.position + 1]? = some code := by
        cases step with
        | next => exact here
        | jump current jumps _ _ =>
            obtain rfl := Option.some.inj (current.symm.trans pushed)
            simp [Opcode.isJump, transfer] at jumps
      have forward : ¬ scope.Strays number push := by
        rintro ⟨current, -, -, hcurrent, jumps, -⟩
        obtain rfl := Option.some.inj (hcurrent.symm.trans pushed)
        rw [transfer] at jumps
        cases jumps
      rcases stages.covers_or_joins before distinct step forward
        (trace.clear distinct enters pushed) pushed covers here reached with same | joins
      · have past := distinct.endAddress_le_next pushed covers carries
          (Instruction.neverFallsThrough_of_goesOn goesOn) hnext
        have high := same.high
        omega
      · exact .single joins
  | cons previous rest ih =>
      obtain ⟨hprevious, straight⟩ := List.forall_mem_cons.1 straight
      cases trace with
      | step trace step =>
      obtain ⟨current, hcurrent⟩ := step.exists_code
      obtain ⟨middle, passed, between⟩ :=
        Scope.exists_covers enters (List.mem_of_getElem? hcurrent)
      have leads := ih trace straight hcurrent between
      rcases stages.covers_or_joins before distinct step hprevious
        (trace.clear distinct enters hcurrent) hcurrent between here reached with same | joins
      · obtain ⟨rfl, -⟩ := same.unique reached
        exact leads
      · exact leads.tail joins

/-- The loop of an open region is one of those around the instruction that a run has reached. -/
theorem encloses_of_trace (enters : scope.EntersFirst) (distinct : scope.Distinct)
    (trace : scope.Trace (config :: (recent ++ push :: older)))
    (pushed : scope.decoded[push.position]? = some opening) (opens : opening.opensLoop = true)
    (covers : scope.Covers earlier opener opening.instr.address)
    (straight : ∀ later ∈ recent, ¬ scope.Strays number later)
    (here : scope.decoded[config.position]? = some code)
    (reached : scope.Covers other candidate code.instr.address)
    (ends : opening.destination = some stop) (low : opener.start < code.instr.address)
    (high : code.instr.address < stop) :
    ∃ current, current.start = opener.start ∧ current.endTarget = some stop ∧
      Draft.Encloses draft.graph draft.blocks (Draft.blockIndex other) code.instr.address
        earlier current := by
  obtain ⟨loop, hend⟩ := distinct.kind_eq_loop pushed opens covers ends
  obtain ⟨current, hcurrent, heq⟩ := stages.getElem?_before before covers.found
  have starts : current.start = opener.start := by rw [heq]
  have hstop : current.endTarget = some stop := by rw [heq]; exact hend
  refine ⟨current, starts, hstop, hcurrent, ?_, Draft.blockIndex earlier, ?_, ?_⟩
  · simp [Draft.holds, starts, hstop, low, high]
  · exact stages.node?_before before covers.found loop fun _ _ jump =>
      distinct.kind_ne_onTrue pushed opens covers jump
  · exact stages.leads_of_trace before enters distinct trace pushed opens covers straight here
      reached

end Stages

theorem markerAddress_of_sole {marker : Marker} {instr : Instruction}
    (member : instr ∈ block.instructions)
    (transfer : instr.op.transfer = Block.markerTransfer marker)
    (sole : ∀ other ∈ block.instructions,
      other.op.transfer = Block.markerTransfer marker → other = instr) :
    block.markerAddress marker = some instr.address := by
  unfold Block.markerAddress
  cases found : block.instructions.find? fun instr =>
      instr.op.transfer = Block.markerTransfer marker with
  | none => exact absurd transfer (by simpa using List.find?_eq_none.1 found instr member)
  | some other =>
      have hother : other.op.transfer = Block.markerTransfer marker := by
        simpa using List.find?_some found
      rw [Option.map_some, sole other (List.mem_of_find?_eq_some found) hother]

theorem Placed.exists_loop_of_break (placed : Placed scope flow number block original node)
    (stages : Stages scope options flow wired resolved)
    (turn : Turn scope options wired resolved number original draft)
    (breaks : code.instr.op.transfer = .breaks) (member : code.instr ∈ block.instructions)
    (sole : ∀ instr ∈ block.instructions, instr.marks = true → instr = code.instr)
    (gone : block.hasMarker .breaks = false) :
    ∃ loop setup destination target,
      Draft.enclosingLoop? draft.graph draft.blocks (Draft.blockIndex number)
        code.instr.address = .ok (some (loop, setup)) ∧
      setup.endTarget = some destination ∧ flow.At scope destination target ∧
      flow.graph.succ node = [target] := by
  have other : ∀ marker, original.hasMarker marker = true → marker = .breaks := by
    intro marker marked
    obtain ⟨instr, hinstr, transfer⟩ := placed.hasMarker_iff.1 marked
    rw [sole instr hinstr (Instruction.marks_of_transfer transfer), breaks] at transfer
    cases marker <;> first | rfl | cases transfer
  cases turn.outcome with
  | leaves marked _ _ =>
      rcases marked with marked | marked
      · cases other _ marked
      · cases other _ marked
  | continues _ _ marked _ => cases other _ marked
  | unchanged _ _ kept _ =>
      have marked : original.hasMarker .breaks = true :=
        placed.hasMarker_iff.2 ⟨code.instr, member, breaks⟩
      rw [Option.some.inj (kept.symm.trans (placed.getElem?_resolved stages)), gone] at marked
      cases marked
  | breaks destination index _ _ resolution done =>
      have haddress : original.markerAddress .breaks = some code.instr.address := by
        rw [placed.instructions_eq] at member sole
        exact markerAddress_of_sole member breaks fun instr hinstr transfer =>
          sole instr hinstr (Instruction.marks_of_transfer transfer)
      obtain ⟨chosen, hchosen, rest⟩ := bind_eq_ok_iff.1 resolution
      obtain ⟨⟨loop, setup⟩, rfl, hdestination⟩ := Option.bind_eq_some_iff.1 (pure_eq_ok_iff.1 rest)
      obtain ⟨stop, hstop, hindex⟩ := Option.bind_eq_some_iff.1 hdestination
      obtain ⟨_, -, heq⟩ := Option.map_eq_some_iff.1 hindex
      obtain rfl : stop = destination := congrArg Prod.fst heq
      obtain ⟨target, reached, only⟩ := placed.of_resolved stages done
      rw [LoopExit.marker, haddress] at hchosen
      exact ⟨loop, setup, stop, target, hchosen, hstop, reached,
        eq_singleton_of_nodup (stages.nodup_succ node) only⟩

/-- A break that is the only marked instruction of its block leads, once resolved, to the end of the
last loop around it, in the order of addresses.  The loop that is innermost on the stack of a run is
one of these loops if its region holds the break and the run did not stray since the setup. -/
theorem succ_eq_end_of_last_loop (enters : scope.EntersFirst) (distinct : scope.Distinct)
    (built : build scope options = .ok flow) (trace : scope.Trace (config :: past))
    (here : scope.decoded[config.position]? = some code)
    (breaks : code.instr.op.transfer = .breaks)
    (topmost : config.stack.find? Decoded.opensLoop = some opening)
    (found : flow.blocks[number]? = some block) (member : code.instr ∈ block.instructions)
    (sole : ∀ instr ∈ block.instructions, instr.marks = true → instr = code.instr)
    (gone : block.hasMarker .breaks = false) :
    ∃ node draft loop setup destination target recent push older opener,
      flow.nodeOf? number = some node ∧ draftBefore scope options number = .ok draft ∧
      Draft.Encloses draft.graph draft.blocks (Draft.blockIndex number) code.instr.address
        loop setup ∧
      (∀ other candidate, Draft.Encloses draft.graph draft.blocks (Draft.blockIndex number)
        code.instr.address other candidate → candidate.start ≤ setup.start) ∧
      setup.endTarget = some destination ∧ flow.At scope destination target ∧
      flow.graph.succ node = [target] ∧
      past = recent ++ push :: older ∧ scope.decoded[push.position]? = some opening ∧
      (∀ later ∈ recent, opening :: push.stack <:+ later.stack) ∧
      opener ∈ flow.blocks ∧ opening.instr ∈ opener.instructions ∧
      ∀ stop, opening.destination = some stop →
        opener.start < code.instr.address → code.instr.address < stop →
        (∀ later ∈ recent, ¬ scope.Strays number later) →
          opener.start ≤ setup.start ∧ (opener.start = setup.start → destination = stop) := by
  obtain ⟨wired, resolved, stages⟩ := build_eq_ok built
  obtain ⟨original, source, same⟩ := stages.getElem?_scope_blocks found
  have code_eq : block.instructions = original.instructions := by rw [same]
  have within := Scope.covers_of_mem source (code_eq ▸ member)
  obtain ⟨node, hnode⟩ := stages.exists_node found fun first head =>
    (trace.clear distinct enters here).isJump_head_eq_false distinct here within
      (by simp [Opcode.isJump, breaks]) (code_eq ▸ head)
  have placed : Placed scope flow number block original node :=
    ⟨found, source, same, stages.index_eq_iff.1 hnode⟩
  obtain ⟨draft, turn⟩ := stages.exists_turn source
  obtain ⟨loop, setup, destination, target, chosen, hend, reached, only⟩ :=
    placed.exists_loop_of_break stages turn breaks member sole gone
  obtain ⟨encloses, last⟩ :=
    Draft.encloses_of_enclosingLoop? (stages.live_before turn.before) chosen
  obtain ⟨opens, inner, outer, split, -⟩ := List.find?_eq_some_iff_append.1 topmost
  obtain ⟨recent, push, older, rfl, pushed, rfl, above⟩ := trace.exists_push split
  obtain ⟨earlier, unfinished, covers⟩ := Scope.exists_covers enters (List.mem_of_getElem? pushed)
  obtain ⟨opener, hopener, heq⟩ := stages.getElem?_flow_blocks covers.found
  refine ⟨node, draft, loop, setup, destination, target, recent, push, older, opener, hnode,
    turn.before, encloses, last, hend, reached, only, rfl, pushed, above,
    List.mem_of_getElem? hopener, ?_, ?_⟩
  · rw [heq]
    exact (covers.mem_instructions_iff (List.mem_of_getElem? pushed)).2 covers
  · intro stop ends low high straight
    have hstart : opener.start = unfinished.start := by rw [heq]
    obtain ⟨current, starts, hstop, around⟩ := stages.encloses_of_trace turn.before enters distinct
      trace pushed opens covers straight here within ends (hstart ▸ low) high
    rw [hstart, ← starts]
    refine ⟨last earlier current around, fun same => ?_⟩
    rw [stages.eq_of_start_eq turn.before around.found encloses.found same, hend] at hstop
    exact Option.some.inj hstop

/-- An endless loop around a loop that breaks in its body and, when its condition is false, in its
else clause. -/
def elseSample : Scope :=
  { instructions := [
      ⟨0, .setupLoop, .arg 20, 1, 0, false⟩,
      ⟨3, .setupLoop, .arg 9, 2, 0, false⟩,
      ⟨6, .loadName, .name "c", 2, 0, false⟩,
      ⟨9, .popJumpIfFalse, .arg 13, 2, 0, false⟩,
      ⟨12, .breakLoop, .none, 3, 0, false⟩,
      ⟨13, .popBlock, .none, 2, 0, false⟩,
      ⟨14, .breakLoop, .none, 5, 0, false⟩,
      ⟨15, .loadName, .name "x", 6, 0, false⟩,
      ⟨18, .popTop, .none, 6, 0, false⟩,
      ⟨19, .jumpAbsolute, .arg 3, 6, 0, false⟩,
      ⟨22, .popBlock, .none, 1, 0, false⟩,
      ⟨23, .loadName, .name "y", 7, 0, false⟩,
      ⟨26, .returnValue, .none, 7, 0, false⟩]
    sorted := by decide }

def elseOuter : Decoded :=
  ⟨⟨0, .setupLoop, .arg 20, 1, 0, false⟩, some 23⟩

def elseInner : Decoded :=
  ⟨⟨3, .setupLoop, .arg 9, 2, 0, false⟩, some 15⟩

def elseTest : List Config :=
  [⟨3, [elseInner, elseOuter]⟩, ⟨2, [elseInner, elseOuter]⟩, ⟨1, [elseOuter]⟩, ⟨0, []⟩]

theorem trace_elseTest : elseSample.Trace elseTest :=
  .step (.step (.step .start (.next rfl rfl rfl)) (.next rfl rfl rfl)) (.next rfl rfl rfl)

theorem body_break_leaves_inner_loop :
    ∃ flow node target, build elseSample {} = .ok flow ∧
      elseSample.Trace (⟨4, [elseInner, elseOuter]⟩ :: elseTest) ∧
      flow.nodeOf? 3 = some node ∧ flow.At elseSample 15 target ∧
      flow.graph.succ node = [target] := by
  have run : succeedsWith (fun flow =>
      (flow.blocks[3]?).any (fun block =>
        block.instructions = [⟨12, .breakLoop, .none, 3, 0, false⟩] && !block.hasMarker .breaks) &&
      flow.blocks.all (fun block =>
        !block.instructions.contains elseInner.instr || block.start == 3))
      (build elseSample {}) = true := by decide +kernel
  have around : succeedsWith (fun draft =>
      draft.blocks.all fun setup => !Draft.holds setup 12 || setup.start ≤ 3)
      (draftBefore elseSample {} 3) = true := by decide +kernel
  obtain ⟨flow, built, found⟩ := succeedsWith_iff.1 run
  simp only [Bool.and_eq_true, Option.any_eq_true, decide_eq_true_eq, Bool.not_eq_true',
    List.all_eq_true] at found
  obtain ⟨⟨block, hblock, hcode, gone⟩, openers⟩ := found
  have trace : elseSample.Trace (⟨4, [elseInner, elseOuter]⟩ :: elseTest) :=
    trace_elseTest.step (.next rfl rfl rfl)
  have enters : elseSample.EntersFirst := rfl
  have here : elseSample.decoded[4]? = some ⟨⟨12, .breakLoop, .none, 3, 0, false⟩, none⟩ := rfl
  have forward : elseTest.all (fun config => (elseSample.decoded[config.position]?).all fun code =>
      code.instr.op.transfer ≠ .jump) = true := by decide
  obtain ⟨node, draft, loop, setup, destination, target, recent, push, older, opener, hnode, before,
    encloses, -, -, reached, only, split, -, -, hopener, opens, agrees⟩ :=
    succ_eq_end_of_last_loop enters (by decide) built trace here rfl rfl hblock (by simp [hcode])
      (by simp [hcode]) gone
  obtain ⟨other, hother, all⟩ := succeedsWith_iff.1 around
  obtain rfl := Except.ok.inj (before.symm.trans hother)
  simp only [List.all_eq_true, Bool.or_eq_true, Bool.not_eq_true', decide_eq_true_eq] at all
  have bound : setup.start ≤ 3 := by
    refine (all setup (List.mem_of_getElem? encloses.found)).resolve_left ?_
    simp [encloses.inside]
  have start : opener.start = 3 := by
    simpa [opens] using openers opener hopener
  have straight : ∀ later ∈ recent, ¬ elseSample.Strays 3 later := by
    rintro later member ⟨code, -, -, here, jumps, -⟩
    simp only [List.all_eq_true, Option.all_eq_true, decide_eq_true_eq] at forward
    exact forward later (split ▸ List.mem_append_left _ member) code here jumps
  obtain ⟨le, same⟩ := agrees 15 rfl (by simp [start]) (by decide) straight
  exact ⟨flow, node, target, built, trace, hnode, same (by omega) ▸ reached, only⟩

/-- The break in the else clause leads to the end of the inner loop, although the run has left that
loop and only the outer one is on the stack. -/
theorem else_break_leads_to_inner_end :
    elseSample.EntersFirst ∧ elseSample.Distinct ∧
    elseSample.Trace (⟨6, [elseOuter]⟩ :: ⟨5, [elseInner, elseOuter]⟩ :: elseTest) ∧
    elseSample.decoded[6]? = some ⟨⟨14, .breakLoop, .none, 5, 0, false⟩, none⟩ ∧
    [elseOuter].find? Decoded.opensLoop = some elseOuter ∧ elseOuter.destination = some 23 ∧
    ∃ flow block node inner outer, build elseSample {} = .ok flow ∧
      flow.blocks[4]? = some block ∧
      block.instructions =
        [⟨13, .popBlock, .none, 2, 0, false⟩, ⟨14, .breakLoop, .none, 5, 0, false⟩] ∧
      block.hasMarker .breaks = false ∧ flow.nodeOf? 4 = some node ∧
      flow.At elseSample 15 inner ∧ flow.At elseSample 23 outer ∧ inner ≠ outer ∧
      flow.graph.succ node = [inner] := by
  have run : succeedsWith (fun flow =>
      (flow.blocks[4]?).any (fun block => block.instructions =
        [⟨13, .popBlock, .none, 2, 0, false⟩, ⟨14, .breakLoop, .none, 5, 0, false⟩] &&
          !block.hasMarker .breaks) &&
      (flow.blocks[5]?).any (fun block => block.start == 15) &&
      (flow.blocks[6]?).any (fun block => block.start == 23) &&
      (flow.nodeOf? 4).any fun node => (flow.nodeOf? 5).any fun inner =>
        (flow.nodeOf? 6).any fun outer => inner ≠ outer && flow.graph.succ node = [inner])
      (build elseSample {}) = true := by decide +kernel
  obtain ⟨flow, built, found⟩ := succeedsWith_iff.1 run
  simp only [Bool.and_eq_true, Option.any_eq_true, decide_eq_true_eq, Bool.not_eq_true',
    beq_iff_eq] at found
  obtain ⟨⟨⟨⟨block, hblock, hcode, gone⟩, fifth, hfifth, starts⟩, sixth, hsixth, ends⟩, node, hnode,
    inner, hinner, outer, houter, ne, only⟩ := found
  have trace : elseSample.Trace
      (⟨6, [elseOuter]⟩ :: ⟨5, [elseInner, elseOuter]⟩ :: elseTest) :=
    (trace_elseTest.step (.jump rfl rfl rfl rfl)).step (.next rfl rfl rfl)
  exact ⟨rfl, by decide, trace, rfl, rfl, rfl, flow, block, node, inner, outer, built, hblock,
    hcode, gone, hnode, .inr ⟨5, fifth, hfifth, starts, hinner⟩,
    .inr ⟨6, sixth, hsixth, ends, houter⟩, ne, only⟩

end FlowGraph

end StackFlow
