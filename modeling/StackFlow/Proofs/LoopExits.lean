import StackFlow.Proofs.Success
import StackFlow.Proofs.Transfers

/-!
# Attempts to leave a loop

A break or continue is resolved as a whole or not at all.  Once resolved, its block leads to one
node and has lost the marker (`Draft.Completed`).  An attempt that fails adds to the issues and
changes nothing else (`Draft.Abandoned`).  No other marker and no other block takes the marker of a
failed attempt away, so the markers that are left in a finished graph are those of the attempts that
failed.
-/

namespace StackFlow

namespace Draft

variable {scope : Scope} {options : Options} {draft next before middle after : Draft}
  {number position target index : Nat} {kind : BranchKind} {block : Block} {exit : LoopExit}
  {marker other : Marker} {jumps : SortedSet Jump → SortedSet Jump}

/-! ## States of finalization -/

/-- The drafts that come about from the wired one as markers of blocks are taken, in whatever
order. -/
inductive Finalizing (scope : Scope) (options : Options) : Draft → Prop where
  | start {wired : Draft} (wire : (ofBlocks scope.endAddress scope.blocks).wire = .ok wired) :
      Finalizing scope options wired.reclassify
  | step {draft next : Draft} {number : Nat} {marker : Marker}
      (reached : Finalizing scope options draft)
      (applied : applyMarker options number draft marker = .ok next) :
      Finalizing scope options next

namespace Finalizing

theorem whole (reached : Finalizing scope options draft) : draft.Whole := by
  induction reached with
  | start wire => exact whole_reclassify wire
  | step _ applied ih => exact (taken_applyMarker applied).whole ih

theorem endAddress_eq (reached : Finalizing scope options draft) :
    draft.endAddress = scope.endAddress := by
  induction reached with
  | start wire => exact (wire_eq_ok wire).1
  | step _ applied ih => exact (taken_applyMarker applied).touches.endAddress.trans ih

theorem bare_eq (reached : Finalizing scope options draft) :
    draft.blocks.map Block.bare = scope.blocks.map Block.bare := by
  induction reached with
  | start wire => exact congrArg (List.map Block.bare) (wire_eq_ok wire).2.1
  | step _ applied ih => exact (taken_applyMarker applied).touches.bare.trans ih

theorem takeMarker (reached : Finalizing scope options draft)
    (taken : takeMarker options number block draft marker = .ok next) :
    Finalizing scope options next := by
  unfold Draft.takeMarker at taken
  split at taken
  · exact reached.step taken
  · rwa [← pure_eq_ok_iff.1 taken]

theorem foldlM_finalizeBlock {numbers : List Nat} (reached : Finalizing scope options draft)
    (folded : numbers.foldlM (finalizeBlock options) draft = .ok next) :
    Finalizing scope options next := by
  refine foldlM_induct (motive := fun _ => Finalizing scope options) folded reached ?_
  intro _ number _ current following _ reached finalized
  obtain ⟨block, -, applied⟩ := bind_eq_ok_iff.1 finalized
  refine foldlM_induct (motive := fun _ => Finalizing scope options) applied reached ?_
  exact fun _ _ _ _ _ _ reached applied => reached.step applied

end Finalizing

/-! ## One attempt -/

namespace Redirected

variable (redirected : Redirected number target kind jumps before after)

include redirected

theorem outEdges_eq :
    after.graph.outEdges (blockIndex number) = [⟨blockIndex number, target, kind⟩] := by
  have cleared : (before.graph.clearOut (blockIndex number)).edges.filter
      (fun edge => edge.source == blockIndex number) = [] := by
    simp [Sketch.clearOut]
  simp [Sketch.outEdges, redirected.edges, cleared, Sketch.insertByTarget]

theorem outEdges_of_ne (ne : index ≠ blockIndex number) :
    after.graph.outEdges index = before.graph.outEdges index := by
  have kept : (before.graph.clearOut (blockIndex number)).edges.filter
      (fun edge => edge.source == index) =
        before.graph.edges.filter fun edge => edge.source == index := by
    rw [Sketch.clearOut, List.filter_filter]
    refine List.filter_congr fun edge _ => ?_
    by_cases leaves : edge.source = index <;> simp [leaves, ne]
  simp [Sketch.outEdges, redirected.edges, kept, Ne.symm ne]

theorem hasMarker_eq (keeps : ∀ set jump, jump.target = .marker marker →
    (jump ∈ jumps set ↔ jump ∈ set)) :
    after.blocks.map (·.hasMarker marker) = before.blocks.map (·.hasMarker marker) := by
  refine redirected.map_blocks fun block => ?_
  rw [Bool.eq_iff_iff, Block.hasMarker_iff, Block.hasMarker_iff]
  exact exists_congr fun jump => and_congr_left (keeps block.jumps jump)

end Redirected

structure Completed (exit : LoopExit) (number : Nat) (block : Block) (destination : Nat)
    (before after : Draft) : Prop where
  leads : ∃ target, before.resolution? exit number block = .ok (some (destination, target)) ∧
    before.nodeAt? destination = some target ∧
    after.graph.outEdges (blockIndex number) = [⟨blockIndex number, target, .always⟩]
  jumps : ∃ changed, after.blocks[number]? = some changed ∧ changed.bare = block.bare ∧
    ∀ jump, jump ∈ changed.jumps ↔ jump = ⟨.address destination, .always⟩ ∨
      jump ∈ block.jumps ∧ ∃ marker, jump.target = .marker marker ∧ marker ≠ exit.marker
  issues : ∃ notes, Warns number notes ∧ after.issues = before.issues ++ notes

structure Abandoned (exit : LoopExit) (number : Nat) (block : Block) (issue : Issue)
    (before after : Draft) : Prop where
  unresolved : before.resolution? exit number block = .ok none
  graph : after.graph = before.graph
  blocks : after.blocks = before.blocks
  reports : exit.Reports number ((block.markerAddress exit.marker).getD block.start) issue
  issues : ∃ notes, Warns number notes ∧ after.issues = before.issues ++ notes ++ [issue]

theorem isMarker_and_ne_iff {target : Target} :
    target.isMarker = true ∧ target ≠ .marker other ↔
      ∃ marker, target = .marker marker ∧ marker ≠ other := by
  cases target <;> simp [Target.isMarker]

theorem resolve_cases (resolved : draft.resolve options exit number = .ok next)
    (found : draft.blocks[number]? = some block) :
    ((∃ destination, Completed exit number block destination draft next) ∨
      ∃ issue, Abandoned exit number block issue draft next) ∧
    (∀ index, index ≠ blockIndex number →
      next.graph.outEdges index = draft.graph.outEdges index) ∧
    ∀ other, other ≠ number → next.blocks[other]? = draft.blocks[other]? := by
  obtain ⟨current, resolution, notes, hcurrent, hresolution, warns, outcome⟩ :=
    resolve_eq_ok resolved
  obtain rfl := Option.some.inj (hcurrent.symm.trans found)
  cases resolution with
  | none =>
      obtain ⟨agrees, issue, fails, issues⟩ := outcome
      refine ⟨.inr ⟨issue, ?_⟩, by simp [agrees.graph], by simp [agrees.blocks]⟩
      exact ⟨hresolution, agrees.graph, agrees.blocks, fails.reports, notes, warns, issues⟩
  | some pair =>
      obtain ⟨destination, target⟩ := pair
      obtain ⟨hnode, redirected, issues⟩ := outcome
      refine ⟨.inl ⟨destination, ?_, ?_, notes, warns, issues⟩,
        fun index => redirected.outEdges_of_ne, ?_⟩
      · exact ⟨target, hresolution, hnode, redirected.outEdges_eq⟩
      · refine ⟨_, redirected.getElem?_blocks found, rfl, fun jump => ?_⟩
        rw [mem_resolvedJumps_iff, isMarker_and_ne_iff]
      · intro other ne
        rw [redirected.blocks, List.getElem?_modify_ne _ _ (Ne.symm ne)]

theorem Finalizing.exists_completed {destination : Nat} (reached : Finalizing scope options draft)
    (found : draft.blocks[number]? = some block)
    (resolution : draft.resolution? exit number block = .ok (some (destination, target))) :
    ∃ next, draft.resolve options exit number = .ok next ∧
      Completed exit number block destination draft next := by
  obtain ⟨next, resolved⟩ := reached.whole.exists_resolve options exit
    (List.getElem?_eq_some_iff.1 found).1
  refine ⟨next, resolved, ?_⟩
  rcases (resolve_cases resolved found).1 with ⟨other, completed⟩ | ⟨_, abandoned⟩
  · obtain ⟨_, chosen, -⟩ := completed.leads
    rw [resolution] at chosen
    obtain ⟨rfl, -⟩ := Prod.mk.inj (Option.some.inj (Except.ok.inj chosen))
    exact completed
  · have unresolved := abandoned.unresolved
    rw [resolution] at unresolved
    cases unresolved

theorem Completed.hasMarker_eq_false {destination : Nat} {changed : Block}
    (completed : Completed exit number block destination before after)
    (found : after.blocks[number]? = some changed) : changed.hasMarker exit.marker = false := by
  obtain ⟨_, hchanged, -, jumps⟩ := completed.jumps
  obtain rfl := Option.some.inj (hchanged.symm.trans found)
  rw [Bool.eq_false_iff, ne_eq, Block.hasMarker_iff]
  rintro ⟨jump, member, marked⟩
  rcases (jumps jump).1 member with rfl | ⟨-, marker, heq, ne⟩
  · cases marked
  · exact ne (Target.marker.inj (heq.symm.trans marked))

/-! ## Markers that stay -/

structure Spares (number : Nat) (marker : Marker) (before after : Draft) : Prop where
  kept : after.blocks[number]?.map (·.hasMarker marker) =
    before.blocks[number]?.map (·.hasMarker marker)
  issues : before.issues <+: after.issues

theorem Spares.refl (number : Nat) (marker : Marker) (draft : Draft) :
    Spares number marker draft draft :=
  ⟨rfl, List.prefix_rfl⟩

theorem Spares.trans (first : Spares number marker before middle)
    (second : Spares number marker middle after) : Spares number marker before after :=
  ⟨second.kept.trans first.kept, first.issues.trans second.issues⟩

theorem issues_applyMarker (applied : applyMarker options position draft other = .ok next) :
    draft.issues <+: next.issues := by
  have attempt : ∀ exit : LoopExit, draft.resolve options exit position = .ok next →
      draft.issues <+: next.issues := by
    intro exit resolved
    obtain ⟨block, hblock, -⟩ := bind_eq_ok_iff.1 resolved
    have found := Fault.fetch_eq_ok_iff.1 hblock
    rcases (resolve_cases resolved found).1 with ⟨_, completed⟩ | ⟨_, abandoned⟩
    · obtain ⟨notes, -, issues⟩ := completed.issues
      simp [issues]
    · obtain ⟨notes, -, issues⟩ := abandoned.issues
      simp [issues]
  cases other with
  | breaks => exact attempt .breaks applied
  | continues => exact attempt .continues applied
  | returns | raises => simp [issues_redirect applied]

theorem hasMarker_applyMarker (applied : applyMarker options position draft other = .ok next)
    (ne : other ≠ marker) :
    next.blocks.map (·.hasMarker marker) = draft.blocks.map (·.hasMarker marker) := by
  have attempt : ∀ exit : LoopExit, exit.marker = other →
      draft.resolve options exit position = .ok next →
      next.blocks.map (·.hasMarker marker) = draft.blocks.map (·.hasMarker marker) := by
    rintro exit rfl resolved
    obtain ⟨_, resolution, _, -, -, -, outcome⟩ := resolve_eq_ok resolved
    cases resolution with
    | none => rw [outcome.1.blocks]
    | some pair =>
        refine outcome.2.1.hasMarker_eq fun set jump marked => ?_
        have elsewhere : jump ≠ ⟨.address pair.1, .always⟩ := by
          rintro rfl
          cases marked
        simp [mem_resolvedJumps_iff, marked, elsewhere, Target.isMarker, Ne.symm ne]
  have leaves : ∀ kind, draft.redirectToExit kind position = .ok next →
      next.blocks.map (·.hasMarker marker) = draft.blocks.map (·.hasMarker marker) := by
    intro kind redirected
    refine (redirect_eq_ok redirected).hasMarker_eq fun set jump marked => ?_
    simp [marked, Target.isMarker]
  cases other with
  | breaks => exact attempt .breaks rfl applied
  | continues => exact attempt .continues rfl applied
  | returns | raises => exact leaves _ applied

theorem spares_applyMarker (applied : applyMarker options position draft other = .ok next)
    (apart : position ≠ number ∨ other ≠ marker) : Spares number marker draft next := by
  refine ⟨?_, issues_applyMarker applied⟩
  rcases apart with elsewhere | different
  · rw [(taken_applyMarker applied).touches.block number (by simpa using Ne.symm elsewhere)]
  · have same := congrArg (fun list => list[number]?) (hasMarker_applyMarker applied different)
    simpa using same

theorem takeMarker_exit (marked : block.hasMarker exit.marker = true) :
    takeMarker options number block draft exit.marker = draft.resolve options exit number := by
  rw [takeMarker, if_pos marked]
  cases exit <;> rfl

theorem takeMarker_of_not (absent : block.hasMarker marker = false) :
    takeMarker options number block draft marker = .ok draft := by
  simp [takeMarker, absent, pure, Except.pure]

theorem spares_takeMarker (taken : takeMarker options position block draft other = .ok next)
    (ne : other ≠ marker) : Spares number marker draft next := by
  unfold takeMarker at taken
  split at taken
  · exact spares_applyMarker taken (.inr ne)
  · rw [← pure_eq_ok_iff.1 taken]
    exact .refl number marker draft

theorem spares_foldlM_finalizeBlock {numbers : List Nat} (absent : number ∉ numbers)
    (folded : numbers.foldlM (finalizeBlock options) draft = .ok next) :
    Spares number marker draft next := by
  refine foldlM_induct (motive := fun _ => Spares number marker draft) folded
    (.refl number marker draft) ?_
  intro done position rest current following split spares finalized
  have elsewhere : position ≠ number := by
    rintro rfl
    exact absent (by simp [split])
  obtain ⟨block, -, applied⟩ := bind_eq_ok_iff.1 finalized
  refine foldlM_induct (motive := fun _ => Spares number marker draft) applied spares ?_
  exact fun _ _ _ _ _ _ spares applied =>
    spares.trans (spares_applyMarker applied (.inl elsewhere))

end Draft

namespace FlowGraph

variable {scope : Scope} {options : Options} {flow : FlowGraph} {wired resolved draft : Draft}
  {number : Nat} {block original : Block} {exit : LoopExit}

/-! ## The attempts of finalization -/

/-- The draft in which finalization attempts the break or continue of a block.  The turn of a
continue comes after that of a break in the same block. -/
def draftAt (scope : Scope) (options : Options) (number : Nat) :
    LoopExit → Except Fault Draft
  | .breaks => draftBefore scope options number
  | .continues => do
      let draft ← draftBefore scope options number
      let block ← Fault.fetch draft.blocks number
      Draft.takeMarker options number block draft .breaks

theorem finalizing_draftBefore (before : draftBefore scope options number = .ok draft) :
    Draft.Finalizing scope options draft := by
  obtain ⟨wired, wire, folded⟩ := bind_eq_ok_iff.1 before
  exact (Draft.Finalizing.start wire).foldlM_finalizeBlock folded

theorem finalizing_draftAt (reached : draftAt scope options number exit = .ok draft) :
    Draft.Finalizing scope options draft := by
  cases exit with
  | breaks => exact finalizing_draftBefore reached
  | continues =>
      obtain ⟨first, before, rest⟩ := bind_eq_ok_iff.1 reached
      obtain ⟨block, -, taken⟩ := bind_eq_ok_iff.1 rest
      exact (finalizing_draftBefore before).takeMarker taken

structure Attempted (scope : Scope) (options : Options) (number : Nat) (original : Block)
    (exit : LoopExit) (resolved draft next : Draft) : Prop where
  reached : draftAt scope options number exit = .ok draft
  marked : draft.blocks[number]?.map (·.hasMarker exit.marker) =
    some (original.hasMarker exit.marker)
  taken : Draft.takeMarker options number original draft exit.marker = .ok next
  spares : Draft.Spares number exit.marker next resolved

theorem Stages.exists_attempted (stages : Stages scope options flow wired resolved)
    (found : scope.blocks[number]? = some original) (exit : LoopExit) :
    ∃ draft next, Attempted scope options number original exit resolved draft next := by
  have hwired : wired.blocks[number]? = some original := stages.blocks_wired ▸ found
  obtain ⟨later, split, absent⟩ := range_split (List.getElem?_eq_some_iff.1 hwired).1
  have folded := stages.finalize
  rw [split, List.foldlM_append] at folded
  obtain ⟨draft, first, folded⟩ := bind_eq_ok_iff.1 folded
  rw [List.foldlM_cons] at folded
  obtain ⟨next, turn, last⟩ := bind_eq_ok_iff.1 folded
  have before : draftBefore scope options number = .ok draft :=
    bind_eq_ok_iff.2 ⟨wired, stages.wire, first⟩
  have hdraft : draft.blocks[number]? = some original :=
    ((Draft.touches_foldlM_finalizeBlock first).block number (by simp)).trans hwired
  obtain ⟨broken, continued, returned, hbroken, hcontinued, hreturned, hraised⟩ :=
    Draft.finalizeBlock_eq_ok turn hdraft
  have rest : ∀ exit : LoopExit, Draft.Spares number exit.marker continued resolved := by
    intro exit
    have ends : .returns ≠ exit.marker ∧ .raises ≠ exit.marker := by cases exit <;> decide
    exact ((Draft.spares_takeMarker hreturned ends.1).trans
      (Draft.spares_takeMarker hraised ends.2)).trans
      (Draft.spares_foldlM_finalizeBlock absent last)
  cases exit with
  | breaks =>
      have spares : Draft.Spares number .breaks broken continued :=
        Draft.spares_takeMarker hcontinued (by decide)
      exact ⟨draft, broken, before, by rw [hdraft]; rfl, hbroken, spares.trans (rest .breaks)⟩
  | continues =>
      have spares : Draft.Spares number .continues draft broken :=
        Draft.spares_takeMarker hbroken (by decide)
      refine ⟨broken, continued, ?_, ?_, hcontinued, rest .continues⟩
      · exact bind_eq_ok_iff.2 ⟨draft, before,
          bind_eq_ok_iff.2 ⟨original, Fault.fetch_eq_ok_iff.2 hdraft, hbroken⟩⟩
      · exact spares.kept.trans (by rw [hdraft]; rfl)

theorem exists_stages_issues (built : build scope options = .ok flow) :
    ∃ wired resolved unbalanced, Stages scope options flow wired resolved ∧
      flow.issues = resolved.issues ++ unbalanced ∧
      ∀ issue ∈ unbalanced, ∃ number start depth,
        issue = .unbalancedStatement number start depth := by
  obtain ⟨wired, resolved, frozen, entry, exit, assembled⟩ := exists_assembled scope options
  rw [assembled.build_eq] at built
  obtain ⟨_, -, rest⟩ := bind_eq_ok_iff.1 built
  obtain ⟨statements, mapped, done⟩ := bind_eq_ok_iff.1 rest
  obtain rfl := pure_eq_ok_iff.1 done
  refine ⟨wired, resolved, _, assembled.stages mapped, rfl, fun issue member => ?_⟩
  obtain ⟨issues, listed, inside⟩ := List.mem_flatten.1 member
  obtain ⟨number, bound, heq⟩ := List.mem_mapIdx.1 listed
  have reported : issue ∈ unbalanced number _ _ := heq ▸ inside
  obtain ⟨statement, -, rfl⟩ := List.mem_map.1 reported
  exact ⟨_, _, _, rfl⟩

theorem hasMarker_iff_abandoned (built : build scope options = .ok flow)
    (found : flow.blocks[number]? = some block) :
    block.hasMarker exit.marker = true ↔ ∃ draft next current issue,
      draftAt scope options number exit = .ok draft ∧ draft.blocks[number]? = some current ∧
      current.hasMarker exit.marker = true ∧ draft.resolve options exit number = .ok next ∧
      Draft.Abandoned exit number current issue draft next ∧ issue ∈ flow.issues := by
  obtain ⟨wired, resolved, unbalanced, stages, reported, -⟩ := exists_stages_issues built
  obtain ⟨original, horiginal, -⟩ := stages.getElem?_scope_blocks found
  obtain ⟨draft, next, attempted⟩ := stages.exists_attempted horiginal exit
  have left : next.blocks[number]?.map (·.hasMarker exit.marker) =
      some (block.hasMarker exit.marker) := by
    rw [← attempted.spares.kept, ← stages.blocks, found, Option.map_some]
  obtain ⟨current, hcurrent, marked⟩ := Option.map_eq_some_iff.1 attempted.marked
  constructor
  · intro stays
    -- A block that loses its marker, or never had it, would not have it in the end.
    have had : current.hasMarker exit.marker = true := by
      by_contra absent
      have none : original.hasMarker exit.marker = false := by simpa [marked] using absent
      have same := attempted.taken
      rw [Draft.takeMarker_of_not none, Except.ok.injEq] at same
      simp [← same, hcurrent, absent, stays] at left
    have taken := attempted.taken
    rw [Draft.takeMarker_exit (marked ▸ had)] at taken
    obtain ⟨after, hafter, same⟩ := Option.map_eq_some_iff.1 left
    rcases (Draft.resolve_cases taken hcurrent).1 with ⟨_, completed⟩ | ⟨issue, abandoned⟩
    · have gone := completed.hasMarker_eq_false hafter
      simp [← same, gone] at stays
    · obtain ⟨notes, -, issues⟩ := abandoned.issues
      have member : issue ∈ next.issues := by simp [issues]
      exact ⟨draft, next, current, issue, attempted.reached, hcurrent, had, taken, abandoned,
        reported ▸ List.mem_append_left _ (attempted.spares.issues.subset member)⟩
  · rintro ⟨state, after, first, issue, reached, hfirst, had, attempt, abandoned, -⟩
    obtain rfl := Except.ok.inj (attempted.reached.symm.trans reached)
    obtain rfl := Option.some.inj (hcurrent.symm.trans hfirst)
    have taken := attempted.taken
    rw [Draft.takeMarker_exit (marked ▸ had)] at taken
    obtain rfl := Except.ok.inj (taken.symm.trans attempt)
    rw [abandoned.blocks, hcurrent, Option.map_some, had] at left
    exact (Option.some.inj left).symm

/-- Attempts at breaks and continues are completed or abandoned as a whole, in whatever state of
finalization they are made, and a marker is left in the finished graph just if its attempt was
abandoned, with an issue. -/
theorem attempt_all_or_nothing (scope : Scope) (options : Options) :
    (∀ draft number block exit, Draft.Finalizing scope options draft →
      draft.blocks[number]? = some block → block.hasMarker exit.marker = true →
      ∃ next, draft.resolve options exit number = .ok next ∧
        ((∃ destination, Draft.Completed exit number block destination draft next) ∨
          ∃ issue, Draft.Abandoned exit number block issue draft next) ∧
        (∀ index, index ≠ Draft.blockIndex number →
          next.graph.outEdges index = draft.graph.outEdges index) ∧
        ∀ other, other ≠ number → next.blocks[other]? = draft.blocks[other]?) ∧
    ∀ flow number block exit, build scope options = .ok flow →
      flow.blocks[number]? = some block →
      (block.hasMarker exit.marker = true ↔ ∃ draft next current issue,
        draftAt scope options number exit = .ok draft ∧ Draft.Finalizing scope options draft ∧
        draft.blocks[number]? = some current ∧ current.hasMarker exit.marker = true ∧
        draft.resolve options exit number = .ok next ∧
        Draft.Abandoned exit number current issue draft next ∧ issue ∈ flow.issues) := by
  constructor
  · intro draft number block exit reached found _
    have known := (List.getElem?_eq_some_iff.1 found).1
    obtain ⟨next, resolved⟩ := reached.whole.exists_resolve options exit known
    exact ⟨next, resolved, Draft.resolve_cases resolved found⟩
  · intro flow number block exit built found
    rw [hasMarker_iff_abandoned built found]
    constructor
    · rintro ⟨draft, next, current, issue, reached, rest⟩
      exact ⟨draft, next, current, issue, reached, finalizing_draftAt reached, rest⟩
    · rintro ⟨draft, next, current, issue, reached, -, rest⟩
      exact ⟨draft, next, current, issue, reached, rest⟩

def twoBreaksSample : Scope :=
  { instructions :=
      [⟨0, .setupLoop, .arg 2, 1, 0, false⟩,
       ⟨3, .breakLoop, .none, 2, 0, false⟩,
       ⟨4, .popBlock, .none, 3, 0, false⟩,
       ⟨5, .breakLoop, .none, 4, 0, false⟩,
       ⟨6, .returnValue, .none, 5, 0, false⟩]
    sorted := by decide }

theorem twoBreaksSample_attempts :
    ∃ flow outside, build twoBreaksSample {} = .ok flow ∧
      (∃ draft next inside destination, draftAt twoBreaksSample {} 1 .breaks = .ok draft ∧
        draft.blocks[1]? = some inside ∧ draft.resolve {} .breaks 1 = .ok next ∧
        Draft.Completed .breaks 1 inside destination draft next) ∧
      flow.blocks[2]? = some outside ∧ outside.start = 5 ∧ outside.hasMarker .breaks = true ∧
      ∃ draft next current issue, draftAt twoBreaksSample {} 2 .breaks = .ok draft ∧
        draft.blocks[2]? = some current ∧ draft.resolve {} .breaks 2 = .ok next ∧
        Draft.Abandoned .breaks 2 current issue draft next ∧ issue ∈ flow.issues := by
  have run : succeedsWith (fun flow => (flow.blocks[2]?).any fun block =>
      block.start == 5 && block.hasMarker .breaks) (build twoBreaksSample {}) = true := by
    decide +kernel
  have first : succeedsWith (fun draft =>
      (draft.blocks[1]?).any (fun block => block.hasMarker .breaks) &&
      succeedsWith (fun next => next.issues = draft.issues) (draft.resolve {} .breaks 1))
      (draftAt twoBreaksSample {} 1 .breaks) = true := by decide +kernel
  obtain ⟨flow, built, found⟩ := succeedsWith_iff.1 run
  simp only [Option.any_eq_true, Bool.and_eq_true, beq_iff_eq] at found
  obtain ⟨outside, houtside, start, marked⟩ := found
  obtain ⟨draft, reached, found⟩ := succeedsWith_iff.1 first
  simp only [Option.any_eq_true, Bool.and_eq_true, succeedsWith_iff, decide_eq_true_eq] at found
  obtain ⟨⟨inside, hinside, breaks⟩, after, hafter, issues⟩ := found
  obtain ⟨next, resolved, outcome, -⟩ := (attempt_all_or_nothing twoBreaksSample {}).1 draft 1
    inside .breaks (finalizing_draftAt reached) hinside breaks
  obtain rfl := Except.ok.inj (resolved.symm.trans hafter)
  obtain ⟨destination, completed⟩ := outcome.resolve_right (by
    rintro ⟨issue, abandoned⟩
    obtain ⟨notes, -, added⟩ := abandoned.issues
    simp [issues] at added)
  obtain ⟨state, last, current, issue, hstate, -, hcurrent, -, attempt, abandoned, member⟩ :=
    ((attempt_all_or_nothing twoBreaksSample {}).2 flow 2 outside .breaks built houtside).1 marked
  exact ⟨flow, outside, built,
    ⟨draft, next, inside, destination, reached, hinside, resolved, completed⟩, houtside, start,
    marked, state, last, current, issue, hstate, hcurrent, attempt, abandoned, member⟩

end FlowGraph

end StackFlow
