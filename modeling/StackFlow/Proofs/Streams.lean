import Mathlib.Data.List.Induction
import Mathlib.Data.List.Nodup
import Mathlib.Data.List.Perm.Basic
import StackFlow.Program

/-!
# Scopes of a stream

The scopes of a program stand in the order in which the stream first names them.  A scope is read
off the instructions that belong to it, and of the others it matters only whether one of them comes
first in the stream.

Splitting a stream into its scopes loses no instruction and doubles none.  A scope sorts its own by
their addresses, and the entry is the lowest of these, so none is cut off before it.
-/

namespace StackFlow

theorem pairwise_idxOf_eraseDups (items : List Nat) :
    items.eraseDups.Pairwise fun first second => items.idxOf first < items.idxOf second := by
  induction items using List.reverseRecOn with
  | nil => simp
  | append_singleton items item ih =>
      have kept : items.eraseDups.Pairwise fun first second =>
          (items ++ [item]).idxOf first < (items ++ [item]).idxOf second := by
        refine ih.imp_of_mem fun {first second} hfirst hsecond lt => ?_
        rw [List.mem_eraseDups] at hfirst hsecond
        rwa [List.idxOf_append_of_mem hfirst, List.idxOf_append_of_mem hsecond]
      rw [List.eraseDups_append]
      by_cases known : item ∈ items
      · simpa [List.removeAll, known] using kept
      · have added : ([item].removeAll items).eraseDups = [item] := by
          simp [List.removeAll, known, List.eraseDups_cons]
        rw [added, List.pairwise_append]
        refine ⟨kept, List.pairwise_singleton _ _, fun first hfirst second hsecond => ?_⟩
        rw [List.mem_eraseDups] at hfirst
        obtain rfl := List.mem_singleton.1 hsecond
        have lt := List.idxOf_lt_length_of_mem hfirst
        rw [List.idxOf_append_of_mem hfirst, List.idxOf_append_of_notMem known]
        omega

def ownedBy (id : Nat) (stream : List Instruction) : List Instruction :=
  stream.filter fun instr => instr.scope == id

theorem Scope.ofStream_congr (heading : Heading) {first second : List Instruction}
    (same : ownedBy heading.id first = ownedBy heading.id second) :
    ofStream heading first = ofStream heading second := by
  have code : ∀ stream : List Instruction,
      (stream.filter fun instr => instr.scope == heading.id && heading.entry ≤ instr.address) =
        (ownedBy heading.id stream).filter fun instr => heading.entry ≤ instr.address := by
    intro stream
    simp [ownedBy, List.filter_filter, Bool.and_comm]
  rw [ofStream, ofStream, code, code, same]

theorem Scope.ofStream_eq_self {scope : Scope} {stream : List Instruction}
    (code : stream.filter (fun instr => instr.scope == scope.id && scope.entry ≤ instr.address) =
      scope.instructions) : ofStream scope.toHeading stream = scope := by
  rw [ofStream, code]
  simp only [ofInstructions, sortByAddress_eq_self scope.sorted]

namespace Program

variable {stream first second : List Instruction} {id : Nat}

def appearance (stream : List Instruction) (id : Nat) : Nat :=
  (stream.map Instruction.scope).idxOf id

theorem pairwise_scopeIds (stream : List Instruction) :
    (scopeIds stream).Pairwise fun first second =>
      appearance stream first < appearance stream second :=
  pairwise_idxOf_eraseDups _

theorem nodup_scopeIds (stream : List Instruction) : (scopeIds stream).Nodup :=
  (pairwise_scopeIds stream).imp fun {first second} lt same => by
    rw [same] at lt
    omega

theorem mem_scopeIds_iff : id ∈ scopeIds stream ↔ id ∈ stream.map Instruction.scope :=
  List.mem_eraseDups

def scopeOf (stream : List Instruction) (options : Options) (id : Nat) : Scope :=
  .ofStream
    { id
      name := nameOf ((scopeIds stream).idxOf id) id
      entry := entryOf stream id
      jumpWidth := options.jumpWidth }
    stream

theorem scopes_ofStream (stream : List Instruction) (options : Options) :
    (ofStream stream options).scopes = (scopeIds stream).map (scopeOf stream options) := by
  refine List.ext_getElem? fun position => ?_
  rw [ofStream, List.getElem?_mapIdx, List.getElem?_map]
  cases found : (scopeIds stream)[position]? with
  | none => rfl
  | some id =>
      obtain ⟨bound, rfl⟩ := List.getElem?_eq_some_iff.1 found
      rw [Option.map_some, Option.map_some, scopeOf,
        (nodup_scopeIds stream).idxOf_getElem position bound]

theorem map_id_scopes (stream : List Instruction) (options : Options) :
    (ofStream stream options).scopes.map (fun scope => scope.id) = scopeIds stream := by
  rw [scopes_ofStream, List.map_map]
  exact List.map_id _

theorem ofStream_eq_of_scopes {options : Options} {scopes : List Scope}
    (ids : scopeIds stream = scopes.map fun scope => scope.id)
    (headings : ∀ scope ∈ scopes, scope.toHeading =
      { id := scope.id
        name := nameOf ((scopeIds stream).idxOf scope.id) scope.id
        entry := entryOf stream scope.id
        jumpWidth := options.jumpWidth })
    (codes : ∀ scope ∈ scopes,
      stream.filter (fun instr => instr.scope == scope.id && scope.entry ≤ instr.address) =
        scope.instructions) :
    ofStream stream options = { scopes } := by
  have each : ∀ scope ∈ scopes, scopeOf stream options scope.id = scope := by
    intro scope member
    rw [scopeOf, ← headings scope member]
    exact Scope.ofStream_eq_self (codes scope member)
  have all : (ofStream stream options).scopes = scopes := by
    rw [scopes_ofStream, ids, List.map_map]
    exact (List.map_congr_left each).trans (List.map_id _)
  rw [← all]

theorem idxOf_scopeIds_eq_zero_iff (member : id ∈ stream.map Instruction.scope) :
    (scopeIds stream).idxOf id = 0 ↔ stream.head?.map Instruction.scope = some id := by
  cases stream with
  | nil => simp at member
  | cons instr rest =>
      by_cases same : instr.scope = id <;>
        simp [scopeIds, List.eraseDups_cons, same]

theorem scopeOf_congr (options : Options) (hfirst : id ∈ first.map Instruction.scope)
    (hsecond : id ∈ second.map Instruction.scope)
    (same : ownedBy id first = ownedBy id second)
    (leads : first.head?.map Instruction.scope = some id ↔
      second.head?.map Instruction.scope = some id) :
    scopeOf first options id = scopeOf second options id := by
  rw [← idxOf_scopeIds_eq_zero_iff hfirst, ← idxOf_scopeIds_eq_zero_iff hsecond] at leads
  have name : nameOf ((scopeIds first).idxOf id) id = nameOf ((scopeIds second).idxOf id) id := by
    simp only [nameOf, leads]
  have entry : entryOf first id = entryOf second id :=
    congrArg (fun code => (code.map Instruction.address).min?.getD 0) same
  rw [scopeOf, scopeOf, name, entry]
  exact Scope.ofStream_congr _ same

end Program

/-! ## What becomes of the instructions -/

/-- The second list holds the instructions of the first by ascending addresses, those with the same
address in the order of the first list. -/
structure SortsByAddress (code sorted : List Instruction) : Prop where
  perm : sorted.Perm code
  ascending : sorted.Pairwise fun first second => first.address ≤ second.address
  stable : ∀ address, sorted.filter (fun instr => instr.address == address) =
    code.filter fun instr => instr.address == address

namespace Scope

theorem sortByAddress_perm (code : List Instruction) : (sortByAddress code).Perm code :=
  List.mergeSort_perm _ _

theorem filter_sublist_sortByAddress (code : List Instruction) (address : Nat) :
    (code.filter fun instr => instr.address == address).Sublist (sortByAddress code) := by
  refine List.sublist_mergeSort (fun first second third => ?_) (fun first second => ?_) ?_
    List.filter_sublist
  · simp only [decide_eq_true_eq]
    exact Nat.le_trans
  · simp only [Bool.or_eq_true, decide_eq_true_eq]
    exact Nat.le_total _ _
  · refine List.pairwise_of_forall_mem_list fun first hfirst second hsecond => ?_
    have same := beq_iff_eq.1 (List.mem_filter.1 hfirst).2
    have same' := beq_iff_eq.1 (List.mem_filter.1 hsecond).2
    simp [same, same']

theorem sortsByAddress (code : List Instruction) : SortsByAddress code (sortByAddress code) where
  perm := sortByAddress_perm code
  ascending := pairwise_sortByAddress code
  stable := by
    intro address
    have kept := (filter_sublist_sortByAddress code address).filter fun instr =>
      instr.address == address
    simp only [List.filter_filter, Bool.and_self] at kept
    exact (kept.eq_of_length ((sortByAddress_perm code).filter _).length_eq.symm).symm

end Scope

theorem flatMap_ownedBy_perm {ids : List Nat} (nodup : ids.Nodup) (stream : List Instruction) :
    (ids.flatMap fun id => ownedBy id stream).Perm
      (stream.filter fun instr => ids.contains instr.scope) := by
  induction ids with
  | nil => simp
  | cons id ids ih =>
      obtain ⟨absent, nodup⟩ := List.nodup_cons.1 nodup
      have own : (stream.filter fun instr => (id :: ids).contains instr.scope).filter
          (fun instr => instr.scope == id) = ownedBy id stream := by
        rw [List.filter_filter]
        refine List.filter_congr fun instr _ => ?_
        by_cases same : instr.scope = id <;> simp [same]
      have others : (stream.filter fun instr => (id :: ids).contains instr.scope).filter
          (fun instr => !(instr.scope == id)) =
            stream.filter fun instr => ids.contains instr.scope := by
        rw [List.filter_filter]
        refine List.filter_congr fun instr _ => ?_
        by_cases same : instr.scope = id <;> simp [same, absent]
      have parts := List.filter_append_perm (fun instr : Instruction => instr.scope == id)
        (stream.filter fun instr => (id :: ids).contains instr.scope)
      rw [own, others] at parts
      exact ((ih nodup).append_left _).trans parts

namespace Program

variable {stream : List Instruction} {id : Nat}

theorem entryOf_le {instr : Instruction} (member : instr ∈ ownedBy id stream) :
    entryOf stream id ≤ instr.address :=
  List.min?_getD_le_of_mem (List.mem_map_of_mem member)

theorem exists_address_eq_entryOf (member : id ∈ scopeIds stream) :
    ∃ instr ∈ ownedBy id stream, instr.address = entryOf stream id := by
  obtain ⟨instr, hinstr, rfl⟩ := List.mem_map.1 (mem_scopeIds_iff.1 member)
  have owned : instr ∈ ownedBy instr.scope stream := by simpa [ownedBy] using hinstr
  obtain ⟨least, found⟩ := Option.isSome_iff_exists.1
    (List.isSome_min?_of_mem (List.mem_map_of_mem (f := Instruction.address) owned))
  have entry : entryOf stream instr.scope = least := by
    rw [entryOf, ← ownedBy, found, Option.getD_some]
  rw [entry]
  exact List.mem_map.1 (List.min?_mem found)

theorem instructions_scopeOf (stream : List Instruction) (options : Options) (id : Nat) :
    (scopeOf stream options id).instructions = Scope.sortByAddress (ownedBy id stream) := by
  have all : (stream.filter fun instr =>
      instr.scope == id && decide (entryOf stream id ≤ instr.address)) = ownedBy id stream := by
    refine List.filter_congr fun instr hinstr => ?_
    by_cases same : instr.scope = id
    · have low : entryOf stream id ≤ instr.address :=
        entryOf_le (List.mem_filter.2 ⟨hinstr, beq_iff_eq.2 same⟩)
      simp [same, low]
    · simp [same]
  exact congrArg Scope.sortByAddress all

theorem flatMap_instructions_perm (stream : List Instruction) (options : Options) :
    ((ofStream stream options).scopes.flatMap fun scope => scope.instructions).Perm stream := by
  have sorted : ((scopeIds stream).flatMap fun id => (scopeOf stream options id).instructions).Perm
      ((scopeIds stream).flatMap fun id => ownedBy id stream) := by
    refine List.Perm.flatMap_left _ fun id _ => ?_
    rw [instructions_scopeOf]
    exact Scope.sortByAddress_perm _
  have all : (stream.filter fun instr => (scopeIds stream).contains instr.scope) = stream := by
    refine List.filter_eq_self.2 fun instr member => ?_
    exact List.contains_iff_mem.2 (mem_scopeIds_iff.2 (List.mem_map_of_mem member))
  have parts := flatMap_ownedBy_perm (nodup_scopeIds stream) stream
  rw [all] at parts
  rw [scopes_ofStream, List.flatMap_map]
  exact sorted.trans parts

/-- The scopes of a stream are those that it names, in the order in which it first names them.
Each holds its own instructions by ascending addresses and is entered at the lowest, and together
they hold every instruction of the stream once. -/
theorem ofStream_keeps_instructions (stream : List Instruction) (options : Options) :
    ((ofStream stream options).scopes.map fun scope => scope.id).Nodup ∧
    (∀ id, id ∈ ((ofStream stream options).scopes.map fun scope => scope.id) ↔
      ∃ instr ∈ stream, instr.scope = id) ∧
    ((ofStream stream options).scopes.map fun scope => scope.id).Pairwise
      (fun first second => appearance stream first < appearance stream second) ∧
    (∀ scope ∈ (ofStream stream options).scopes,
      SortsByAddress (ownedBy scope.id stream) scope.instructions ∧
      (∃ instr ∈ ownedBy scope.id stream, instr.address = scope.entry) ∧
      ∀ instr ∈ ownedBy scope.id stream, scope.entry ≤ instr.address) ∧
    ((ofStream stream options).scopes.flatMap fun scope => scope.instructions).Perm stream := by
  rw [map_id_scopes]
  refine ⟨nodup_scopeIds stream, fun id => ?_, pairwise_scopeIds stream, fun scope member => ?_,
    flatMap_instructions_perm stream options⟩
  · rw [mem_scopeIds_iff, List.mem_map]
  · rw [scopes_ofStream] at member
    obtain ⟨id, hid, rfl⟩ := List.mem_map.1 member
    refine ⟨?_, exists_address_eq_entryOf hid, fun instr => entryOf_le⟩
    rw [instructions_scopeOf]
    exact Scope.sortsByAddress _

end Program

end StackFlow
