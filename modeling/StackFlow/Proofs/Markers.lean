import StackFlow.Proofs.Construction

/-!
# Markers of a block

The markers of a block are taken in a fixed order, and each one that is carried out replaces all
edges of the block by its own.  So the last one that is carried out decides where the block leads
(`Draft.Outcome`), wherever in the block its instruction stands.
-/

namespace StackFlow

def Block.leavingKind (block : Block) : BranchKind :=
  if block.hasMarker .raises then .onException else .onReturn

namespace Draft

variable {draft next : Draft} {number destination : Nat} {block : Block} {options : Options}
  {exit : LoopExit}

/-! ## Breaks and continues -/

structure Resolved (number : Nat) (exit : LoopExit) (destination : Nat) (draft : Draft) : Prop where
  leads : ∃ target, draft.nodeAt? destination = some target ∧
    draft.graph.OnlyEdge ⟨blockIndex number, target, .always⟩
  gone : ∀ block, draft.blocks[number]? = some block → block.hasMarker exit.marker = false
  jump : ∀ block, draft.blocks[number]? = some block →
    ⟨.address destination, .always⟩ ∈ block.jumps
  only : ∀ block, draft.blocks[number]? = some block → ∀ jump ∈ block.jumps,
    ∀ address, jump.target = .address address → jump = ⟨.address destination, .always⟩

theorem Resolved.congr {after : Draft} (resolved : draft.Resolved number exit destination)
    (hblock : after.blocks[number]? = draft.blocks[number]?)
    (same : Sketch.SameOut (blockIndex number) after.graph draft.graph)
    (hnode : ∀ address, after.nodeAt? address = draft.nodeAt? address) :
    after.Resolved number exit destination := by
  obtain ⟨⟨target, found, only⟩, gone, jump, addresses⟩ := resolved
  refine ⟨⟨target, (hnode destination).trans found, only.congr same⟩, ?_, ?_, ?_⟩
  · rwa [hblock]
  · rwa [hblock]
  · rwa [hblock]

theorem Resolved.of_agrees {after : Draft} (resolved : draft.Resolved number exit destination)
    (agrees : Agrees draft after) : after.Resolved number exit destination :=
  resolved.congr (by rw [agrees.blocks]) (fun _ _ => by rw [agrees.graph])
    (nodeAt?_congr agrees.endAddress (by rw [agrees.blocks]))

theorem Redirected.resolved {target : Nat} (hnode : draft.nodeAt? destination = some target)
    (redirected : Redirected number target .always (resolvedJumps exit destination) draft next)
    (found : draft.blocks[number]? = some block) : next.Resolved number exit destination := by
  have touches := redirected.touches (nodeAt?_ne_entryIndex hnode) mem_resolvedJumps_iff_of_leaves
  have changed := redirected.getElem?_blocks found
  refine ⟨⟨target, (touches.nodeAt?_eq destination).trans hnode, redirected.onlyEdge⟩, ?_, ?_, ?_⟩
  · rintro after hafter
    obtain rfl := Option.some.inj (changed.symm.trans hafter)
    rw [Bool.eq_false_iff, ne_eq, Block.hasMarker_iff]
    rintro ⟨jump, member, htarget⟩
    rcases mem_resolvedJumps_iff.1 member with rfl | ⟨-, -, ne⟩
    · cases htarget
    · exact ne htarget
  · rintro after hafter
    obtain rfl := Option.some.inj (changed.symm.trans hafter)
    exact mem_resolvedJumps_iff.2 (.inl rfl)
  · rintro after hafter jump member address htarget
    obtain rfl := Option.some.inj (changed.symm.trans hafter)
    rcases mem_resolvedJumps_iff.1 member with rfl | ⟨-, isMarker, -⟩
    · rfl
    · rw [htarget] at isMarker
      cases isMarker

theorem resolve_outcome (resolved : draft.resolve options exit number = .ok next)
    (found : draft.blocks[number]? = some block) :
    draft.resolution? exit number block = .ok none ∧ Agrees draft next ∨
      ∃ destination target,
        draft.resolution? exit number block = .ok (some (destination, target)) ∧
          next.Resolved number exit destination := by
  obtain ⟨current, resolution, notes, hcurrent, hresolution, -, outcome⟩ := resolve_eq_ok resolved
  obtain rfl := Option.some.inj (hcurrent.symm.trans found)
  cases resolution with
  | none => exact .inl ⟨hresolution, outcome.1⟩
  | some pair =>
      obtain ⟨destination, target⟩ := pair
      exact .inr ⟨destination, target, hresolution, outcome.2.1.resolved outcome.1 found⟩

/-! ## All markers -/

/-- What the markers make of a block.  A return or raise sends it to the exit, else a continue that
is resolved sends it to its destination, else a break that is resolved does, and without any of them
the block is as it was. -/
inductive Outcome (number : Nat) (block : Block) (draft next : Draft) : Prop where
  | leaves (marked : block.hasMarker .returns = true ∨ block.hasMarker .raises = true)
      (leads : next.graph.OnlyEdge ⟨blockIndex number, exitIndex, block.leavingKind⟩)
      (markers : ∀ block, next.blocks[number]? = some block →
        ∀ jump ∈ block.jumps, jump.target.isMarker = true)
  | continues (destination : Nat)
      (stays : block.hasMarker .returns = false ∧ block.hasMarker .raises = false)
      (marked : block.hasMarker .continues = true)
      (resolved : next.Resolved number .continues destination)
  | breaks (destination target : Nat)
      (stays : block.hasMarker .returns = false ∧ block.hasMarker .raises = false)
      (marked : block.hasMarker .breaks = true)
      (resolution : draft.resolution? .breaks number block = .ok (some (destination, target)))
      (resolved : next.Resolved number .breaks destination)
  | unchanged (stays : block.hasMarker .returns = false ∧ block.hasMarker .raises = false)
      (unresolved : block.hasMarker .breaks = true →
        draft.resolution? .breaks number block = .ok none)
      (kept : next.blocks[number]? = some block)
      (same : Sketch.SameOut (blockIndex number) next.graph draft.graph)

theorem Outcome.congr {after : Draft} (outcome : Outcome number block draft next)
    (hblock : after.blocks[number]? = next.blocks[number]?)
    (hedges : Sketch.SameOut (blockIndex number) after.graph next.graph)
    (hnode : ∀ address, after.nodeAt? address = next.nodeAt? address) :
    Outcome number block draft after := by
  cases outcome with
  | leaves marked leads markers => exact .leaves marked (leads.congr hedges) (by rwa [hblock])
  | continues destination stays marked resolved =>
      exact .continues destination stays marked (resolved.congr hblock hedges hnode)
  | breaks destination target stays marked resolution resolved =>
      exact .breaks destination target stays marked resolution
        (resolved.congr hblock hedges hnode)
  | unchanged stays unresolved kept same =>
      exact .unchanged stays unresolved (hblock.trans kept) (hedges.trans same)

def takeMarker (options : Options) (number : Nat) (block : Block) (draft : Draft)
    (marker : Marker) : Except Fault Draft :=
  if block.hasMarker marker = true then applyMarker options number draft marker else pure draft

theorem finalizeBlock_eq_ok (finalized : finalizeBlock options draft number = .ok next)
    (found : draft.blocks[number]? = some block) :
    ∃ broken continued returned, takeMarker options number block draft .breaks = .ok broken ∧
      takeMarker options number block broken .continues = .ok continued ∧
      takeMarker options number block continued .returns = .ok returned ∧
      takeMarker options number block returned .raises = .ok next := by
  obtain ⟨current, hcurrent, folded⟩ := bind_eq_ok_iff.1 finalized
  obtain rfl := Option.some.inj ((Fault.fetch_eq_ok_iff.1 hcurrent).symm.trans found)
  rw [List.foldlM_filter] at folded
  simp only [markerOrder, List.foldlM_cons, List.foldlM_nil, bind_eq_ok_iff,
    pure_eq_ok_iff] at folded
  obtain ⟨broken, hbroken, continued, hcontinued, returned, hreturned, raised, hraised, rfl⟩ :=
    folded
  exact ⟨broken, continued, returned, hbroken, hcontinued, hreturned, hraised⟩

theorem redirectToExit_eq_ok {kind : BranchKind}
    (redirected : draft.redirectToExit kind number = .ok next) :
    next.graph.OnlyEdge ⟨blockIndex number, exitIndex, kind⟩ ∧
      ∀ block, next.blocks[number]? = some block →
        ∀ jump ∈ block.jumps, jump.target.isMarker = true := by
  have redirected := redirect_eq_ok redirected
  refine ⟨redirected.onlyEdge, fun block found jump member => ?_⟩
  rw [redirected.blocks, List.getElem?_modify_eq] at found
  obtain ⟨original, -, rfl⟩ := Option.map_eq_some_iff.1 found
  exact (SortedSet.mem_filter.1 member).2

theorem takeMarker_breaks {broken : Draft}
    (taken : takeMarker options number block draft .breaks = .ok broken)
    (found : draft.blocks[number]? = some block) :
    (block.hasMarker .breaks = true → draft.resolution? .breaks number block = .ok none) ∧
        Agrees draft broken ∨
      block.hasMarker .breaks = true ∧ ∃ destination target,
        draft.resolution? .breaks number block = .ok (some (destination, target)) ∧
          broken.Resolved number .breaks destination := by
  unfold takeMarker at taken
  split at taken
  · next marked =>
      rcases resolve_outcome taken found with ⟨unresolved, agrees⟩ | resolved
      · exact .inl ⟨fun _ => unresolved, agrees⟩
      · exact .inr ⟨marked, resolved⟩
  · next unmarked =>
      obtain rfl := pure_eq_ok_iff.1 taken
      exact .inl ⟨fun marked => absurd marked unmarked, .refl _⟩

theorem takeMarker_continues {continued : Draft}
    (taken : takeMarker options number block draft .continues = .ok continued) :
    Agrees draft continued ∨
      block.hasMarker .continues = true ∧ ∃ destination,
        continued.Resolved number .continues destination := by
  unfold takeMarker at taken
  split at taken
  · next marked =>
      obtain ⟨current, _, _, found, -⟩ := resolve_eq_ok taken
      rcases resolve_outcome taken found with ⟨-, agrees⟩ | ⟨destination, _, -, resolved⟩
      · exact .inl agrees
      · exact .inr ⟨marked, destination, resolved⟩
  · obtain rfl := pure_eq_ok_iff.1 taken
    exact .inl (.refl _)

theorem finalizeBlock_outcome (finalized : finalizeBlock options draft number = .ok next)
    (found : draft.blocks[number]? = some block) : Outcome number block draft next := by
  obtain ⟨broken, continued, returned, hbroken, hcontinued, hreturned, hraised⟩ :=
    finalizeBlock_eq_ok finalized found
  unfold takeMarker at hreturned hraised
  -- the marker that is taken last decides
  by_cases raises : block.hasMarker .raises = true
  · rw [if_pos raises] at hraised
    obtain ⟨leads, markers⟩ := redirectToExit_eq_ok hraised
    exact .leaves (.inr raises) (by simpa [Block.leavingKind, raises] using leads) markers
  rw [if_neg raises, pure_eq_ok_iff] at hraised
  subst hraised
  by_cases returns : block.hasMarker .returns = true
  · rw [if_pos returns] at hreturned
    obtain ⟨leads, markers⟩ := redirectToExit_eq_ok hreturned
    exact .leaves (.inl returns) (by simpa [Block.leavingKind, raises] using leads) markers
  rw [if_neg returns, pure_eq_ok_iff] at hreturned
  subst hreturned
  have stays : block.hasMarker .returns = false ∧ block.hasMarker .raises = false :=
    ⟨Bool.eq_false_iff.2 returns, Bool.eq_false_iff.2 raises⟩
  rcases takeMarker_continues hcontinued with agrees | ⟨marked, destination, resolved⟩
  · rcases takeMarker_breaks hbroken found with ⟨unresolved, same⟩ |
      ⟨marked, destination, target, resolution, resolved⟩
    · have both := same.trans agrees
      exact .unchanged stays unresolved (both.blocks ▸ found) fun _ _ => by rw [both.graph]
    · exact .breaks destination target stays marked resolution (resolved.of_agrees agrees)
  · exact .continues destination stays marked resolved

end Draft

end StackFlow
