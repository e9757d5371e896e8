import Mathlib.Data.Finset.Option
import Mathlib.Data.Finset.Prod
import StackFlow.Proofs.Solutions

/-!
# The lattice of the definition-use analysis

A state is determined by its entries: the keys of its three maps and the addresses at each key.
A join holds the entries of both sides, so the laws of the lattice are those of disjunction, and a
statement moves entries in a way that distributes over joins.  The entries that the statements of a
graph can make are finite in number.
-/

namespace StackFlow

namespace AddressMap

variable {map first second : AddressMap} {name other : String} {addresses : SortedSet Nat}
  {entry : Option Nat}

/-- The map has the key, and at the key the address, if one is given. -/
def Holds (map : AddressMap) (name : String) (entry : Option Nat) : Prop :=
  ∃ addresses, map.get? name = some addresses ∧ ∀ address ∈ entry, address ∈ addresses

theorem not_holds_empty : ¬ Holds ∅ name entry := by
  rintro ⟨addresses, found, -⟩
  cases found

theorem ext_holds (same : ∀ name entry, Holds first name entry ↔ Holds second name entry) :
    first = second := by
  refine SortedMap.ext fun name => ?_
  have key := same name none
  have address := fun address => same name (some address)
  unfold Holds at key address
  cases left : first.get? name with
  | none =>
      cases right : second.get? name with
      | none => rfl
      | some addresses => simp [left, right] at key
  | some addresses =>
      cases right : second.get? name with
      | none => simp [left, right] at key
      | some others =>
          rw [Option.some.injEq]
          refine SortedSet.ext fun item => ?_
          simpa [left, right] using address item

theorem holds_union_iff :
    Holds (first.union second) name entry ↔ Holds first name entry ∨ Holds second name entry := by
  unfold Holds union
  rw [SortedMap.get?_unionWith]
  cases first.get? name <;> cases second.get? name <;> cases entry <;> simp [SortedMap.merged]

theorem holds_insert_iff :
    Holds (map.insert name addresses) other entry ↔
      if other = name then ∀ address ∈ entry, address ∈ addresses else Holds map other entry := by
  unfold Holds
  by_cases same : other = name
  · subst same
    simp [SortedMap.get?_insert_self]
  · simp [SortedMap.get?_insert_ne _ same, same]

theorem holds_insertWith_iff :
    Holds (map.insertWith (· ∪ ·) name addresses) other entry ↔
      Holds map other entry ∨ other = name ∧ ∀ address ∈ entry, address ∈ addresses := by
  unfold Holds
  by_cases same : other = name
  · subst same
    rw [SortedMap.get?_insertWith_self]
    cases map.get? other <;> cases entry <;> simp [SortedMap.merged]
  · simp [SortedMap.get?_insertWith_ne _ _ same, same]

end AddressMap

namespace Reaching

variable {state first second : Reaching} {name other : String} {address start : Nat}
  {entry : Option Nat}

/-! ## Entries -/

inductive Part where
  | generated
  | used
  | killed
  deriving DecidableEq

def part (state : Reaching) : Part → AddressMap
  | .generated => state.generated
  | .used => state.used
  | .killed => state.killed

def Holds (state : Reaching) (part : Part) (name : String) (entry : Option Nat) : Prop :=
  (state.part part).Holds name entry

theorem not_holds_init {part : Part} : ¬ Holds lattice.init part name entry := by
  cases part <;> exact AddressMap.not_holds_empty

theorem ext_holds
    (same : ∀ part name entry, first.Holds part name entry ↔ second.Holds part name entry) :
    first = second := by
  have generated : first.generated = second.generated := AddressMap.ext_holds (same .generated)
  have used : first.used = second.used := AddressMap.ext_holds (same .used)
  have killed : first.killed = second.killed := AddressMap.ext_holds (same .killed)
  obtain ⟨⟩ := first
  obtain ⟨⟩ := second
  simp_all

@[simp] theorem holds_join_iff {part : Part} :
    (lattice.join first second).Holds part name entry ↔
      first.Holds part name entry ∨ second.Holds part name entry := by
  cases part <;> exact AddressMap.holds_union_iff

theorem lattice_lawful : lattice.Lawful where
  comm := fun _ _ => ext_holds fun _ _ _ => by simp [or_comm]
  assoc := fun _ _ _ => ext_holds fun _ _ _ => by simp [or_assoc]
  idem := fun _ => ext_holds fun _ _ _ => by simp
  identity := fun _ => ext_holds fun _ _ _ => by simp [not_holds_init]

theorem below_iff : lattice.Below first second ↔
    ∀ part name entry, first.Holds part name entry → second.Holds part name entry := by
  constructor
  · intro below part name entry holds
    rw [← below, holds_join_iff]
    exact .inl holds
  · intro subset
    exact ext_holds fun part name entry => by
      rw [holds_join_iff, or_iff_right_of_imp (subset part name entry)]

/-! ## Statements -/

theorem holds_useAt_iff {part : Part} :
    (useAt start state name).Holds part other entry ↔
      state.Holds part other entry ∨
        part = .used ∧ other = name ∧ ∀ address ∈ entry, address = start := by
  cases part with
  | used =>
      refine AddressMap.holds_insertWith_iff.trans ?_
      simp only [SortedSet.mem_singleton, true_and]
      rfl
  | generated | killed => simp [Holds, Reaching.part, useAt]

theorem holds_defineAt_iff {part : Part} (ne : name ≠ "None") :
    (defineAt start state name).Holds part other entry ↔
      state.Holds part other entry ∧ ¬ (part = .generated ∧ other = name) ∨
      part = .generated ∧ other = name ∧ (∀ address ∈ entry, address = start) ∨
      part = .killed ∧ other = name ∧ state.Holds .generated name entry := by
  unfold defineAt
  rw [if_neg ne]
  cases part with
  | generated =>
      refine AddressMap.holds_insert_iff.trans ?_
      by_cases same : other = name <;> simp [same, Holds, Reaching.part]
  | used => simp [Holds, Reaching.part]
  | killed =>
      simp only [Holds, Reaching.part, reduceCtorEq, false_and, not_false_eq_true, and_true,
        true_and, false_or]
      cases found : state.generated.get? name with
      | none => simp [AddressMap.Holds, found]
      | some previous =>
          rw [AddressMap.holds_insertWith_iff]
          simp [AddressMap.Holds, found]

def Distributes (change : Reaching → Reaching) : Prop :=
  ∀ first second,
    change (lattice.join first second) = lattice.join (change first) (change second)

theorem Distributes.foldl {α : Type} {change : Reaching → α → Reaching}
    (distributes : ∀ item, Distributes fun state => change state item) (items : List α) :
    Distributes fun state => items.foldl change state := by
  induction items with
  | nil => exact fun _ _ => rfl
  | cons item items ih =>
      intro first second
      have head := distributes item first second
      simp only [List.foldl_cons, head]
      exact ih _ _

theorem distributes_useAt (start : Nat) (name : String) :
    Distributes fun state => useAt start state name := by
  refine fun first second => ext_holds fun part other entry => ?_
  simp only [holds_join_iff, holds_useAt_iff]
  grind

theorem distributes_defineAt (start : Nat) (name : String) :
    Distributes fun state => defineAt start state name := by
  by_cases constant : name = "None"
  · intro first second
    simp [defineAt, constant]
  · refine fun first second => ext_holds fun part other entry => ?_
    simp only [holds_join_iff, holds_defineAt_iff constant]
    grind

theorem distributes_step (statement : Statement) :
    Distributes fun state => state.step statement := by
  intro first second
  have uses := Distributes.foldl (distributes_useAt statement.start) statement.uses first second
  have stores := Distributes.foldl (distributes_defineAt statement.start) statement.stores
  simp only at uses
  simp only [step, uses]
  exact stores _ _

theorem Distributes.below {change : Reaching → Reaching} (distributes : Distributes change)
    (below : lattice.Below first second) : lattice.Below (change first) (change second) := by
  rw [Lattice.Below, ← distributes, below]

/-! ## Height -/

def Within (names : List String) (addresses : List Nat) (state : Reaching) : Prop :=
  ∀ part name entry, state.Holds part name entry →
    name ∈ names ∧ ∀ address ∈ entry, address ∈ addresses

variable {names : List String} {addresses : List Nat}

theorem Within.join (left : first.Within names addresses) (right : second.Within names addresses) :
    (lattice.join first second).Within names addresses := by
  intro part name entry holds
  rcases holds_join_iff.1 holds with holds | holds
  · exact left part name entry holds
  · exact right part name entry holds

theorem Within.useAt (within : state.Within names addresses) (known : name ∈ names)
    (inside : start ∈ addresses) : (useAt start state name).Within names addresses := by
  intro part other entry holds
  rcases holds_useAt_iff.1 holds with old | ⟨-, rfl, only⟩
  · exact within part other entry old
  · exact ⟨known, fun address member => only address member ▸ inside⟩

theorem Within.defineAt (within : state.Within names addresses) (known : name ∈ names)
    (inside : start ∈ addresses) : (defineAt start state name).Within names addresses := by
  by_cases constant : name = "None"
  · rw [Reaching.defineAt, if_pos constant]
    exact within
  · intro part other entry holds
    rcases (holds_defineAt_iff constant).1 holds with ⟨old, -⟩ | ⟨-, rfl, only⟩ | ⟨-, rfl, old⟩
    · exact within part other entry old
    · exact ⟨known, fun address member => only address member ▸ inside⟩
    · exact within .generated other entry old

theorem Within.step {statement : Statement} (within : state.Within names addresses)
    (known : ∀ name ∈ statement.uses ++ statement.stores, name ∈ names)
    (inside : statement.start ∈ addresses) : (state.step statement).Within names addresses := by
  unfold Reaching.step
  refine List.foldlRecOn _ _ (motive := Within names addresses) ?_ fun _ within name member => ?_
  · refine List.foldlRecOn _ _ (motive := Within names addresses) within ?_
    exact fun _ within name member =>
      within.useAt (known name (List.mem_append_left _ member)) inside
  · exact within.defineAt (known name (List.mem_append_right _ member)) inside

def entries (names : List String) (addresses : List Nat) : Finset (Part × String × Option Nat) :=
  {.generated, .used, .killed} ×ˢ names.toFinset ×ˢ addresses.toFinset.insertNone

theorem Within.mem_entries {part : Part} (within : state.Within names addresses)
    (holds : state.Holds part name entry) : (part, name, entry) ∈ entries names addresses := by
  obtain ⟨known, inside⟩ := within part name entry holds
  have listed : part ∈ ({.generated, .used, .killed} : Finset Part) := by cases part <;> simp
  simp only [entries, Finset.mem_product, List.mem_toFinset, Finset.mem_insertNone]
  exact ⟨listed, known, inside⟩

open Classical in
noncomputable def weight (names : List String) (addresses : List Nat) (state : Reaching) : Nat :=
  ((entries names addresses).filter fun item => state.Holds item.1 item.2.1 item.2.2).card

theorem weight_le (state : Reaching) :
    state.weight names addresses ≤ (entries names addresses).card := by
  classical
  exact Finset.card_filter_le _ _

theorem weight_lt (within : second.Within names addresses) (below : lattice.Below first second)
    (ne : first ≠ second) : first.weight names addresses < second.weight names addresses := by
  classical
  have subset := below_iff.1 below
  refine Finset.card_lt_card (Finset.ssubset_iff_subset_ne.2 ⟨?_, fun same => ne ?_⟩)
  · exact Finset.monotone_filter_right _ fun item _ => subset _ _ _
  · refine lattice_lawful.below_antisymm below (below_iff.2 fun part name entry holds => ?_)
    have member := (Finset.ext_iff.1 same (part, name, entry)).2
    simp only [Finset.mem_filter, within.mem_entries holds, true_and] at member
    exact member holds

end Reaching

/-! ## The analysis of a graph -/

namespace FlowGraph

variable (flow : FlowGraph)

theorem reaching_distributes (node : Fin flow.size) :
    Reaching.Distributes (flow.reaching.transfer node) :=
  Reaching.Distributes.foldl Reaching.distributes_step (flow.statementsOf node)

theorem reaching_monotone : flow.reaching.IsMonotone := fun node _ _ =>
  (flow.reaching_distributes node).below

def names : List String :=
  flow.statements.flatten.flatMap fun statement => statement.uses ++ statement.stores

def addresses : List Nat :=
  flow.statements.flatten.map Statement.start

theorem mem_flatten_of_mem_statementsOf {node : Fin flow.size} {statement : Statement}
    (member : statement ∈ flow.statementsOf node) : statement ∈ flow.statements.flatten := by
  unfold statementsOf at member
  split at member
  · next number _ =>
      cases found : flow.statements[number]? with
      | none => simp [found] at member
      | some statements =>
          rw [found, Option.getD_some] at member
          exact List.mem_flatten.2 ⟨statements, List.mem_of_getElem? found, member⟩
  · cases member

theorem within_transfer {node : Fin flow.size} {state : Reaching}
    (within : state.Within flow.names flow.addresses) :
    (flow.reaching.transfer node state).Within flow.names flow.addresses := by
  refine List.foldlRecOn _ _ (motive := Reaching.Within flow.names flow.addresses) within ?_
  intro state within statement member
  have listed := flow.mem_flatten_of_mem_statementsOf member
  exact within.step (fun name known => List.mem_flatMap.2 ⟨statement, listed, known⟩)
    (List.mem_map_of_mem listed)

/-- The states of the definition-use analysis form a semilattice under the join, with the initial
state at the bottom, and the transfer of every node of every graph distributes over joins.  So it is
monotone. -/
theorem reaching_respects_join :
    (∀ first second, Reaching.lattice.join first second = Reaching.lattice.join second first) ∧
    (∀ first second third,
      Reaching.lattice.join (Reaching.lattice.join first second) third =
        Reaching.lattice.join first (Reaching.lattice.join second third)) ∧
    (∀ state, Reaching.lattice.join state state = state) ∧
    (∀ state, Reaching.lattice.join state Reaching.lattice.init = state ∧
      Reaching.lattice.join Reaching.lattice.init state = state) ∧
    ∀ (flow : FlowGraph) (node : Fin flow.size),
      (∀ first second,
        flow.reaching.transfer node (Reaching.lattice.join first second) =
          Reaching.lattice.join (flow.reaching.transfer node first)
            (flow.reaching.transfer node second)) ∧
      ∀ first second, Reaching.lattice.Below first second →
        Reaching.lattice.Below (flow.reaching.transfer node first)
          (flow.reaching.transfer node second) := by
  have lawful := Reaching.lattice_lawful
  refine ⟨lawful.comm, lawful.assoc, lawful.idem, fun state => ?_, fun flow node => ?_⟩
  · exact ⟨lawful.identity state, lawful.init_below state⟩
  · exact ⟨flow.reaching_distributes node, fun first second => flow.reaching_monotone node _ _⟩

theorem loopSample_respects_join :
    ∃ flow node, build loopSample {} = .ok flow ∧ flow.nodeOf? 0 = some node ∧
      let blank : Reaching := { generated := SortedMap.insert ∅ "x" ∅ }
      let known : Reaching := { generated := SortedMap.insert ∅ "x" (.singleton 12) }
      Reaching.lattice.Below blank known ∧
      flow.reaching.transfer node (Reaching.lattice.join blank known) =
        Reaching.lattice.join (flow.reaching.transfer node blank)
          (flow.reaching.transfer node known) ∧
      Reaching.lattice.Below (flow.reaching.transfer node blank)
        (flow.reaching.transfer node known) := by
  have run : succeedsWith (fun flow => (flow.nodeOf? 0).isSome) (build loopSample {}) = true := by
    decide +kernel
  obtain ⟨flow, built, found⟩ := succeedsWith_iff.1 run
  obtain ⟨node, hnode⟩ := Option.isSome_iff_exists.1 found
  obtain ⟨distributes, monotone⟩ := reaching_respects_join.2.2.2.2 flow node
  have below : Reaching.lattice.Below { generated := SortedMap.insert ∅ "x" ∅ }
      { generated := SortedMap.insert ∅ "x" (.singleton 12) } := by
    unfold Lattice.Below
    decide
  exact ⟨flow, node, built, hnode, below, distributes _ _, monotone _ _ below⟩

end FlowGraph

end StackFlow
