import StackFlow.DefUse.Chains
import StackFlow.Proofs.ReachingDefinitions
import StackFlow.Proofs.Statements

/-!
# Definition-use chains

The chains link the block of a definition to the block of a use exactly if the definition reaches
the use, from an earlier statement of the same block or along a clear path.  A variable escapes
exactly if no definition reaches one of its uses.
-/

namespace StackFlow

/-! ## Maps of pairs -/

namespace Chains

variable {map : SortedMap String (SortedMap Nat (SortedSet Nat))} {name : String}
  {first second : Nat}

def Pairs (map : SortedMap String (SortedMap Nat (SortedSet Nat))) (name : String)
    (first second : Nat) : Prop :=
  ∃ inner, map.get? name = some inner ∧ ∃ members, inner.get? first = some members ∧
    second ∈ members

theorem pairs_iff_lists : Pairs map name first second ↔
    ∃ inner, map.get? name = some inner ∧ inner.Lists first second :=
  Iff.rfl

theorem pairs_addPair_iff {added : String} {key value : Nat} :
    Pairs (addPair map added key value) name first second ↔
      name = added ∧ first = key ∧ second = value ∨ Pairs map name first second := by
  rw [pairs_iff_lists, pairs_iff_lists, addPair]
  by_cases same : name = added
  · subst same
    rw [SortedMap.get?_insert_self]
    cases map.get? name <;>
      simp [SortedMap.lists_insertWith_iff, SortedMap.not_lists_empty]
  · simp [SortedMap.get?_insert_ne _ same, same]

variable {chains : Chains} {sightings : List Sighting}

theorem pairs_foldl_add_iff :
    (Pairs (sightings.foldl add chains).definitions name first second ↔
        Pairs chains.definitions name first second ∨ .link name first second ∈ sightings) ∧
      (Pairs (sightings.foldl add chains).useSites name second first ↔
        Pairs chains.useSites name second first ∨ .link name first second ∈ sightings) := by
  induction sightings generalizing chains with
  | nil => simp
  | cons sighting rest ih =>
      obtain ⟨definitions, useSites⟩ := @ih (chains.add sighting)
      rw [List.foldl_cons, definitions, useSites]
      cases sighting with
      | link other definition use =>
          simp only [add, pairs_addPair_iff, List.mem_cons, Sighting.link.injEq]
          grind
      | escape other => simp [add]

theorem mem_escaped_foldl_add_iff :
    name ∈ (sightings.foldl add chains).escaped ↔
      name ∈ chains.escaped ∨ .escape name ∈ sightings := by
  induction sightings generalizing chains with
  | nil => simp
  | cons sighting rest ih =>
      rw [List.foldl_cons, ih]
      cases sighting with
      | link other definition use => simp [add]
      | escape other =>
          simp only [add, SortedSet.mem_insert, List.mem_cons, Sighting.escape.injEq]
          grind

theorem pairs_empty : ¬ Pairs ∅ name first second := by
  rintro ⟨inner, found, -⟩
  cases found

end Chains

/-! ## Blocks at addresses -/

namespace FlowGraph

variable {flow : FlowGraph}

theorem blockAt?_start (wellFormed : flow.WellFormed) {node : Fin flow.size}
    {statement : Statement} (member : statement ∈ flow.statementsOf node) :
    ∃ number, flow.blockOf? node = some number ∧
      flow.blockAt? statement.start = some number := by
  unfold statementsOf at member
  cases hnumber : flow.blockOf? node with
  | none => simp [hnumber] at member
  | some number =>
      refine ⟨number, rfl, ?_⟩
      simp only [hnumber, wellFormed.statements_eq, List.getElem?_map] at member
      cases hblock : flow.blocks[number]? with
      | none => simp [hblock] at member
      | some block =>
          simp only [hblock, Option.map_some, Option.getD_some] at member
          obtain ⟨instr, hinstr, heq⟩ := exists_instr_of_mem_splitStatements member
          have within := wellFormed.inside block (List.mem_of_getElem? hblock) instr hinstr
          exact heq ▸ blockAt?_eq_some_of_contains wellFormed hblock within

end FlowGraph

/-! ## Sightings -/

namespace Chains

variable {flow : FlowGraph} {name other : String} {number definition use : Nat} {state : Reaching}
  {sighting : Sighting}

theorem link_mem_sightingsOf_iff :
    .link other definition use ∈ sightingsOf flow number state name ↔
      other = name ∧ use = number ∧
        ∃ address, state.Defines name address ∧ flow.blockAt? address = some definition := by
  unfold sightingsOf Reaching.Defines
  cases hset : state.generated.get? name with
  | none => simp
  | some addresses =>
      by_cases empty : addresses.isEmpty = true
      · have absent : ∀ address, ¬ address ∈ addresses := by
          intro address member
          rw [SortedSet.isEmpty, List.isEmpty_iff] at empty
          rw [← SortedSet.mem_toList, empty] at member
          cases member
        simp [empty, absent]
      · simp only [if_neg empty, List.mem_map, List.mem_filterMap, Sighting.link.injEq,
          Option.some.injEq, exists_eq_left', SortedSet.mem_toList]
        constructor
        · rintro ⟨_, reached, rfl, rfl, rfl⟩
          exact ⟨rfl, rfl, reached⟩
        · rintro ⟨rfl, rfl, reached⟩
          exact ⟨definition, reached, rfl, rfl, rfl⟩

theorem escape_mem_sightingsOf_iff :
    .escape other ∈ sightingsOf flow number state name ↔
      other = name ∧ ∀ address, ¬ state.Defines name address := by
  unfold sightingsOf Reaching.Defines
  cases hset : state.generated.get? name with
  | none => simp
  | some addresses =>
      cases hlist : addresses.toList with
      | nil =>
          have absent : ∀ address, ¬ address ∈ addresses := by
            intro address member
            rw [← SortedSet.mem_toList, hlist] at member
            cases member
          simp [SortedSet.isEmpty, hlist, absent]
      | cons head rest =>
          have present : head ∈ addresses := SortedSet.mem_toList.1 (hlist ▸ List.mem_cons_self)
          simp only [SortedSet.isEmpty, hlist]
          simp only [List.isEmpty_cons, Bool.false_eq_true, if_false, List.mem_map, reduceCtorEq,
            and_false, exists_false, Option.some.injEq, exists_eq_left', false_iff, not_and]
          exact fun _ all => all head present

theorem mem_replay_iff {statements : List Statement} :
    sighting ∈ replay flow number state statements ↔
      ∃ before statement after, statements = before ++ statement :: after ∧
        ∃ name ∈ statement.uses,
          sighting ∈ sightingsOf flow number (before.foldl Reaching.step state) name := by
  induction statements generalizing state with
  | nil => simp [replay]
  | cons first rest ih =>
      rw [replay, List.mem_append, List.mem_flatMap, ih]
      constructor
      · rintro (now | ⟨before, statement, after, rfl, later⟩)
        · exact ⟨[], first, rest, rfl, now⟩
        · exact ⟨first :: before, statement, after, rfl, later⟩
      · rintro ⟨_ | ⟨head, before⟩, statement, after, split, seen⟩
        · obtain ⟨rfl, rfl⟩ := List.cons_eq_cons.1 split
          exact .inl seen
        · obtain ⟨rfl, rfl⟩ := List.cons_eq_cons.1 split
          exact .inr ⟨before, statement, after, rfl, seen⟩

theorem mem_sightings_iff {inputs : Vector Reaching flow.size} :
    sighting ∈ inputs.toList.zipIdx.flatMap
        (fun (state, number) => sightingsAt flow number state) ↔
      ∃ node number, flow.blockOf? node = some number ∧
        sighting ∈ replay flow number (inputs.get node) (flow.statementsOf node) := by
  simp only [List.mem_flatMap, Prod.exists, List.mem_zipIdx_iff_getElem?]
  constructor
  · rintro ⟨state, position, found, seen⟩
    rw [Vector.getElem?_toList] at found
    obtain ⟨bound, rfl⟩ := Vector.getElem?_eq_some_iff.1 found
    simp only [sightingsAt, node?, dif_pos bound] at seen
    split at seen
    · cases seen
    · next number hnumber => exact ⟨⟨position, bound⟩, number, hnumber, seen⟩
  · rintro ⟨node, number, hnumber, seen⟩
    refine ⟨inputs.get node, node.val, ?_, ?_⟩
    · rw [Vector.getElem?_toList]
      exact Vector.getElem?_eq_getElem node.isLt
    · simpa only [sightingsAt, node?, dif_pos node.isLt, hnumber] using seen

/-! ## Definitions that reach a use -/

/-- The definition by a statement of the source reaches a use in a statement of the target that has
the statements `before` in front of it. -/
inductive DefinitionReaches (flow : FlowGraph) (name : String) (source : Fin flow.size)
    (definition : Statement) (target : Fin flow.size) (before : List Statement) : Prop where
  | within (same : source = target) (last : LastAssignment before name definition)
  | across (keeps : Keeps before name)
      (last : LastAssignment (flow.statementsOf source) name definition)
      (clear : flow.ClearPath name source target)

variable {maxSteps : Nat} {states : States flow.size Reaching} {target : Fin flow.size}
  {before : List Statement}

theorem defines_foldl_input_iff (wellFormed : flow.WellFormed)
    (solved : flow.reaching.solve .forward maxSteps = .ok states) {address : Nat} :
    (before.foldl Reaching.step (states.input.get target)).Defines name address ↔
      ∃ source definition, DefinitionReaches flow name source definition target before ∧
        definition.start = address := by
  rw [Reaching.defines_foldl_step_iff, FlowGraph.defines_input_iff_arrives wellFormed solved]
  constructor
  · rintro (⟨definition, last, start⟩ | ⟨keeps, source, definition, last, start, clear⟩)
    · exact ⟨target, definition, .within rfl last, start⟩
    · exact ⟨source, definition, .across keeps last clear, start⟩
  · rintro ⟨source, definition, ⟨same, last⟩ | ⟨keeps, last, clear⟩, start⟩
    · exact .inl ⟨definition, last, start⟩
    · exact .inr ⟨keeps, source, definition, last, start, clear⟩

theorem DefinitionReaches.mem {source : Fin flow.size} {statement definition : Statement}
    {after : List Statement} (split : flow.statementsOf target = before ++ statement :: after)
    (reaches : DefinitionReaches flow name source definition target before) :
    definition ∈ flow.statementsOf source := by
  cases reaches with
  | within same last =>
      rw [same, split]
      exact List.mem_append_left _ last.mem
  | across keeps last clear => exact last.mem

theorem compute_eq_ok {chains : Chains} (computed : compute flow maxSteps = .ok chains) :
    ∃ states, flow.reaching.solve .forward maxSteps = .ok states ∧
      chains = ofInputs flow states.input.toList := by
  obtain ⟨states, solved, done⟩ := bind_eq_ok_iff.1 computed
  exact ⟨states, solved, (pure_eq_ok_iff.1 done).symm⟩

theorem link_mem_sightings_iff (wellFormed : flow.WellFormed)
    (solved : flow.reaching.solve .forward maxSteps = .ok states) :
    .link name definition use ∈ states.input.toList.zipIdx.flatMap
        (fun (state, number) => sightingsAt flow number state) ↔
      ∃ target before statement after source assignment, flow.nodeOf? use = some target ∧
        flow.statementsOf target = before ++ statement :: after ∧ name ∈ statement.uses ∧
        flow.nodeOf? definition = some source ∧
        DefinitionReaches flow name source assignment target before := by
  rw [mem_sightings_iff]
  simp only [mem_replay_iff, link_mem_sightingsOf_iff, defines_foldl_input_iff wellFormed solved,
    wellFormed.nodeOf?_iff]
  constructor
  · rintro ⟨target, number, hnumber, before, statement, after, split, other, uses, rfl, rfl,
      address, ⟨source, assignment, reaches, rfl⟩, hblock⟩
    obtain ⟨defining, hdefining, hstart⟩ := FlowGraph.blockAt?_start wellFormed (reaches.mem split)
    obtain rfl := Option.some.inj (hstart.symm.trans hblock)
    exact ⟨target, before, statement, after, source, assignment, hnumber, split, uses, hdefining,
      reaches⟩
  · rintro ⟨target, before, statement, after, source, assignment, hnumber, split, uses, hdefining,
      reaches⟩
    obtain ⟨defining, hsource, hstart⟩ := FlowGraph.blockAt?_start wellFormed (reaches.mem split)
    obtain rfl := Option.some.inj (hsource.symm.trans hdefining)
    exact ⟨target, use, hnumber, before, statement, after, split, name, uses, rfl, rfl,
      assignment.start, ⟨source, assignment, reaches, rfl⟩, hstart⟩

theorem escape_mem_sightings_iff (wellFormed : flow.WellFormed)
    (solved : flow.reaching.solve .forward maxSteps = .ok states) :
    .escape name ∈ states.input.toList.zipIdx.flatMap
        (fun (state, number) => sightingsAt flow number state) ↔
      ∃ number target before statement after, flow.nodeOf? number = some target ∧
        flow.statementsOf target = before ++ statement :: after ∧ name ∈ statement.uses ∧
        ∀ source assignment, ¬ DefinitionReaches flow name source assignment target before := by
  rw [mem_sightings_iff]
  simp only [mem_replay_iff, escape_mem_sightingsOf_iff, defines_foldl_input_iff wellFormed solved,
    wellFormed.nodeOf?_iff]
  constructor
  · rintro ⟨target, number, hnumber, before, statement, after, split, other, uses, rfl, none⟩
    exact ⟨number, target, before, statement, after, hnumber, split, uses,
      fun source assignment reaches => none _ ⟨source, assignment, reaches, rfl⟩⟩
  · rintro ⟨number, target, before, statement, after, hnumber, split, uses, none⟩
    refine ⟨target, number, hnumber, before, statement, after, split, name, uses, rfl, ?_⟩
    rintro address ⟨source, assignment, reaches, -⟩
    exact none source assignment reaches

theorem mem_usesOf?_iff {chains : Chains} :
    (∃ uses, chains.usesOf? name definition = some uses ∧ use ∈ uses) ↔
      Pairs chains.definitions name definition use := by
  simp only [usesOf?, Pairs, Option.bind_eq_bind, Option.bind_eq_some_iff]
  constructor
  · rintro ⟨uses, ⟨inner, hinner, huses⟩, member⟩
    exact ⟨inner, hinner, uses, huses, member⟩
  · rintro ⟨inner, hinner, uses, huses, member⟩
    exact ⟨uses, ⟨inner, hinner, huses⟩, member⟩

theorem mem_definitionsReaching?_iff {chains : Chains} :
    (∃ definitions, chains.definitionsReaching? name use = some definitions ∧
        definition ∈ definitions) ↔
      Pairs chains.useSites name use definition := by
  simp only [definitionsReaching?, Pairs, Option.bind_eq_bind, Option.bind_eq_some_iff]
  constructor
  · rintro ⟨definitions, ⟨inner, hinner, hdefinitions⟩, member⟩
    exact ⟨inner, hinner, definitions, hdefinitions, member⟩
  · rintro ⟨inner, hinner, definitions, hdefinitions, member⟩
    exact ⟨definitions, ⟨inner, hinner, hdefinitions⟩, member⟩

/-- In a graph that was built, and for every ceiling under which the run ends, the chains link a
defining block to a using block exactly if a definition of the one reaches a use in the other, they
are the same read from either side, and a variable escapes exactly if it has a use that no
definition reaches. -/
theorem compute_links_iff_reaches {scope : Scope} {options : Options} {chains : Chains}
    (built : FlowGraph.build scope options = .ok flow)
    (computed : compute flow maxSteps = .ok chains) (name : String) :
    (∀ definition use,
      ((∃ uses, chains.usesOf? name definition = some uses ∧ use ∈ uses) ↔
        ∃ definitions, chains.definitionsReaching? name use = some definitions ∧
          definition ∈ definitions) ∧
      ((∃ uses, chains.usesOf? name definition = some uses ∧ use ∈ uses) ↔
        ∃ target before statement after source assignment, flow.nodeOf? use = some target ∧
          flow.statementsOf target = before ++ statement :: after ∧ name ∈ statement.uses ∧
          flow.nodeOf? definition = some source ∧
          DefinitionReaches flow name source assignment target before)) ∧
    (name ∈ chains.escaped ↔
      ∃ number target before statement after, flow.nodeOf? number = some target ∧
        flow.statementsOf target = before ++ statement :: after ∧ name ∈ statement.uses ∧
        ∀ source assignment, ¬ DefinitionReaches flow name source assignment target before) := by
  have wellFormed := FlowGraph.build_wellFormed built
  obtain ⟨states, solved, rfl⟩ := compute_eq_ok computed
  refine ⟨fun definition use => ?_, ?_⟩
  · obtain ⟨definitions, useSites⟩ := @pairs_foldl_add_iff name definition use {}
      (states.input.toList.zipIdx.flatMap fun (state, number) => sightingsAt flow number state)
    rw [or_iff_right pairs_empty, link_mem_sightings_iff wellFormed solved] at definitions useSites
    rw [mem_usesOf?_iff, mem_definitionsReaching?_iff]
    exact ⟨definitions.trans useSites.symm, definitions⟩
  · refine mem_escaped_foldl_add_iff.trans ?_
    rw [or_iff_right (SortedSet.not_mem_empty name), escape_mem_sightings_iff wellFormed solved]

def ofScope? (scope : Scope) (maxSteps : Nat) : Option Chains :=
  match FlowGraph.build scope {} with
  | .error _ => none
  | .ok flow => (compute flow maxSteps).toOption

theorem ofScope?_eq_some {scope : Scope} {chains : Chains}
    (found : ofScope? scope maxSteps = some chains) :
    ∃ flow, FlowGraph.build scope {} = .ok flow ∧ compute flow maxSteps = .ok chains := by
  unfold ofScope? at found
  split at found
  · cases found
  · next flow built =>
      refine ⟨flow, built, ?_⟩
      cases hcompute : compute flow maxSteps with
      | error error => simp [hcompute, Except.toOption] at found
      | ok result =>
          rw [hcompute] at found
          exact congrArg Except.ok (Option.some.inj found)

theorem loopSample_links_body_to_header :
    ∃ flow chains, FlowGraph.build FlowGraph.loopSample {} = .ok flow ∧
      compute flow 100 = .ok chains ∧
      (∃ target before statement after source assignment, flow.nodeOf? 1 = some target ∧
        flow.statementsOf target = before ++ statement :: after ∧ "x" ∈ statement.uses ∧
        flow.nodeOf? 2 = some source ∧
        DefinitionReaches flow "x" source assignment target before) ∧
      ¬ ∃ number target before statement after, flow.nodeOf? number = some target ∧
        flow.statementsOf target = before ++ statement :: after ∧ "x" ∈ statement.uses ∧
        ∀ source assignment, ¬ DefinitionReaches flow "x" source assignment target before := by
  have run : (ofScope? FlowGraph.loopSample 100).map (fun chains =>
      ((chains.usesOf? "x" 2).map SortedSet.toList, chains.escaped.toList)) =
        some (some [1, 3], []) := by decide +kernel
  obtain ⟨chains, found, heq⟩ := Option.map_eq_some_iff.1 run
  obtain ⟨huses, hescaped⟩ := Prod.mk.inj heq
  obtain ⟨flow, built, computed⟩ := ofScope?_eq_some found
  obtain ⟨links, escapes⟩ := compute_links_iff_reaches built computed "x"
  refine ⟨flow, chains, built, computed, (links 2 1).2.1 ?_, fun unreached => ?_⟩
  · obtain ⟨uses, hset, hlist⟩ := Option.map_eq_some_iff.1 huses
    exact ⟨uses, hset, SortedSet.mem_toList.1 (by simp [hlist])⟩
  · have member := SortedSet.mem_toList.2 (escapes.2 unreached)
    simp [hescaped] at member

end Chains

end StackFlow
