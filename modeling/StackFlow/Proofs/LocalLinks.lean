import StackFlow.Proofs.Chains
import StackFlow.Proofs.Leaders
import StackFlow.Proofs.Segments

/-!
# Reads and writes within a block

The chains link a block to itself if one of its statements reads a variable that an earlier one has
assigned.  They do not look into a statement, whose reads all count as made before its writes.  So
a load behind a store of the same block is linked to it wherever a statement ends between the two.
Within one statement the link depends on the rest of the block and on the ways back to it.
-/

namespace StackFlow

/-! ## The places of statements -/

def Statement.Covers (statement : Statement) (address : Nat) : Prop :=
  statement.start ≤ address ∧ address ≤ statement.last

instance (statement : Statement) (address : Nat) : Decidable (statement.Covers address) :=
  inferInstanceAs (Decidable (_ ∧ _))

def Ascending (code : List Instruction) : Prop :=
  code.Pairwise fun first second => first.address < second.address

namespace Segment

variable {piece : List Instruction} {statement : Statement}

theorem exists_start (segment : Segment piece statement) :
    ∃ first rest, piece = first :: rest ∧ first.address = statement.start := by
  obtain ⟨first, head, heq⟩ := Option.map_eq_some_iff.1 segment.start_eq
  obtain ⟨rest, rfl⟩ := List.head?_eq_some_iff.1 head
  exact ⟨first, rest, rfl, heq⟩

theorem exists_last (segment : Segment piece statement) :
    ∃ front last, piece = front ++ [last] ∧ last.address = statement.last := by
  obtain ⟨last, tail, heq⟩ := Option.map_eq_some_iff.1 segment.last_eq
  obtain ⟨front, rfl⟩ := List.getLast?_eq_some_iff.1 tail
  exact ⟨front, last, rfl, heq⟩

theorem covers (segment : Segment piece statement) (ascending : Ascending piece)
    {instr : Instruction} (member : instr ∈ piece) : statement.Covers instr.address := by
  unfold Ascending at ascending
  constructor
  · obtain ⟨first, rest, rfl, start⟩ := segment.exists_start
    rcases List.mem_cons.1 member with rfl | later
    · omega
    · have lt := List.rel_of_pairwise_cons ascending later
      omega
  · obtain ⟨front, last, rfl, stop⟩ := segment.exists_last
    rcases List.mem_append.1 member with earlier | final
    · have lt := (List.pairwise_append.1 ascending).2.2 instr earlier last List.mem_cons_self
      omega
    · rw [List.mem_singleton.1 final]
      omega

theorem mem_of (segment : Segment piece statement) {instr : Instruction} {mention : Mention}
    {name : String} (member : instr ∈ piece) (named : instr.named? mention = some name) :
    name ∈ statement.of mention := by
  have plain : name ∈ recordedPlain mention piece := by
    rw [recordedPlain_eq]
    exact List.mem_filterMap.2 ⟨instr, member, named⟩
  obtain ⟨entry, listed, inside⟩ := List.mem_flatMap.1 plain
  rw [segment.names_eq]
  exact List.mem_flatMap.2 ⟨entry, List.mem_of_mem_filter listed, inside⟩

end Segment

def Consecutive (statements : List Statement) : Prop :=
  statements.Pairwise fun first second => first.last < second.start

theorem consecutive_of_segments {pieces : List (List Instruction)} {statements : List Statement}
    (segments : List.Forall₂ Segment pieces statements) (ascending : Ascending pieces.flatten) :
    Consecutive statements := by
  induction segments with
  | nil => exact .nil
  | @cons piece statement pieces statements segment rest ih =>
      obtain ⟨-, later, across⟩ := List.pairwise_append.1 ascending
      refine .cons (fun other member => ?_) (ih later)
      obtain ⟨found, listed, next⟩ := forall₂_exists_of_mem rest.flip member
      obtain ⟨front, last, rfl, stop⟩ := segment.exists_last
      obtain ⟨first, back, rfl, start⟩ := next.exists_start
      have lt := across last (by simp) first (List.mem_flatten_of_mem listed List.mem_cons_self)
      omega

section Places

variable {code : List Instruction} (ascending : Ascending code)

include ascending

theorem consecutive_splitStatements : Consecutive (splitStatements code) := by
  obtain ⟨pieces, rfl, segments, -⟩ := exists_segments code
  exact consecutive_of_segments segments ascending

theorem exists_covers_of_mem {instr : Instruction} (member : instr ∈ code) :
    ∃ statement ∈ splitStatements code, statement.Covers instr.address ∧
      ∀ mention name, instr.named? mention = some name → name ∈ statement.of mention := by
  obtain ⟨pieces, rfl, segments, -⟩ := exists_segments code
  obtain ⟨piece, listed, inside⟩ := List.mem_flatten.1 member
  obtain ⟨statement, found, segment⟩ := forall₂_exists_of_mem segments listed
  have sorted : Ascending piece :=
    List.Pairwise.sublist (List.sublist_flatten_of_mem listed) ascending
  exact ⟨statement, found, segment.covers sorted inside,
    fun mention name named => segment.mem_of inside named⟩

end Places

namespace Consecutive

variable {earlier later : List Statement} {statement other : Statement}

theorem cases_of_mem (consecutive : Consecutive (earlier ++ statement :: later))
    (member : other ∈ earlier ++ statement :: later) :
    other ∈ earlier ∧ other.last < statement.start ∨ other = statement ∨
      other ∈ later ∧ statement.last < other.start := by
  obtain ⟨-, behind, across⟩ := List.pairwise_append.1 consecutive
  rcases List.mem_append.1 member with before | member
  · exact .inl ⟨before, across other before statement List.mem_cons_self⟩
  · rcases List.mem_cons.1 member with same | after
    · exact .inr (.inl same)
    · exact .inr (.inr ⟨after, List.rel_of_pairwise_cons behind after⟩)

theorem eq_of_covers (consecutive : Consecutive (earlier ++ statement :: later))
    (member : other ∈ earlier ++ statement :: later) {address : Nat}
    (covers : statement.Covers address) (covered : other.Covers address) : other = statement := by
  unfold Statement.Covers at covers covered
  rcases consecutive.cases_of_mem member with ⟨-, before⟩ | same | ⟨-, after⟩
  · omega
  · exact same
  · omega

end Consecutive

/-! ## Blocks linked to themselves -/

theorem exists_lastAssignment_iff {statements : List Statement} {name : String} :
    (∃ statement, LastAssignment statements name statement) ↔
      ∃ statement ∈ statements, statement.Assigns name := by
  constructor
  · rintro ⟨statement, before, after, rfl, assigns, -⟩
    exact ⟨statement, by simp, assigns⟩
  · induction statements with
    | nil => simp
    | cons first rest ih =>
        rintro ⟨statement, member, assigns⟩
        by_cases keeps : Keeps rest name
        · rcases List.mem_cons.1 member with rfl | later
          · exact ⟨statement, lastAssignment_cons.2 (.inr ⟨rfl, assigns, keeps⟩)⟩
          · exact absurd assigns (keeps statement later)
        · simp only [Keeps, not_forall, not_not] at keeps
          obtain ⟨other, later, assigns⟩ := keeps
          obtain ⟨last, found⟩ := ih ⟨other, later, assigns⟩
          exact ⟨last, lastAssignment_cons.2 (.inl found)⟩

namespace Chains

variable {scope : Scope} {options : Options} {flow : FlowGraph} {chains : Chains}
  {maxSteps number : Nat} {node : Fin flow.size} {name : String}

/-- The chains lead from the block, as one that defines the variable, back to it as one that uses
it. -/
def LinksBack (chains : Chains) (name : String) (number : Nat) : Prop :=
  ∃ uses, chains.usesOf? name number = some uses ∧ number ∈ uses

theorem linksBack_iff (built : FlowGraph.build scope options = .ok flow)
    (computed : compute flow maxSteps = .ok chains) (hnode : flow.nodeOf? number = some node) :
    chains.LinksBack name number ↔
      ∃ before statement after, flow.statementsOf node = before ++ statement :: after ∧
        name ∈ statement.uses ∧
        ((∃ other ∈ before, other.Assigns name) ∨
          (∃ other ∈ flow.statementsOf node, other.Assigns name) ∧
            flow.ClearPath name node node) := by
  have wellFormed := FlowGraph.build_wellFormed built
  obtain ⟨states, solved, rfl⟩ := compute_eq_ok computed
  unfold LinksBack
  rw [mem_usesOf?_iff, ofInputs, (pairs_foldl_add_iff).1, or_iff_right pairs_empty,
    link_mem_sightings_iff wellFormed solved]
  constructor
  · rintro ⟨target, before, statement, after, source, assignment, htarget, split, uses, hsource,
      reaches⟩
    obtain rfl := Option.some.inj (htarget.symm.trans hnode)
    obtain rfl := Option.some.inj (hsource.symm.trans hnode)
    refine ⟨before, statement, after, split, uses, ?_⟩
    cases reaches with
    | within _ last => exact .inl (exists_lastAssignment_iff.1 ⟨assignment, last⟩)
    | across _ last clear => exact .inr ⟨exists_lastAssignment_iff.1 ⟨assignment, last⟩, clear⟩
  · rintro ⟨before, statement, after, split, uses, reaches⟩
    by_cases assigned : ∃ other ∈ before, other.Assigns name
    · obtain ⟨assignment, last⟩ := exists_lastAssignment_iff.2 assigned
      exact ⟨node, before, statement, after, node, assignment, hnode, split, uses, hnode,
        .within rfl last⟩
    · obtain ⟨somewhere, clear⟩ := reaches.resolve_left assigned
      obtain ⟨assignment, last⟩ := exists_lastAssignment_iff.2 somewhere
      have keeps : Keeps before name :=
        fun other member assigns => assigned ⟨other, member, assigns⟩
      exact ⟨node, before, statement, after, node, assignment, hnode, split, uses, hnode,
        .across keeps last clear⟩

theorem linksBack_iff_of_assigns (built : FlowGraph.build scope options = .ok flow)
    (computed : compute flow maxSteps = .ok chains) (hnode : flow.nodeOf? number = some node)
    {earlier later : List Statement} {statement : Statement}
    (split : flow.statementsOf node = earlier ++ statement :: later)
    (reads : name ∈ statement.uses) (assigns : statement.Assigns name) :
    chains.LinksBack name number ↔
      (∃ other ∈ earlier, other.Assigns name) ∨ (∃ other ∈ later, name ∈ other.uses) ∨
        flow.ClearPath name node node := by
  rw [linksBack_iff built computed hnode]
  constructor
  · rintro ⟨before, reader, after, place, uses, ⟨other, member, writes⟩ | ⟨-, clear⟩⟩
    · rw [split] at place
      rcases List.append_eq_append_iff.1 place with ⟨gap, rfl, rest⟩ | ⟨gap, rfl, -⟩
      · cases gap with
        | nil => exact .inl ⟨other, by simpa using member, writes⟩
        | cons head gap =>
            obtain ⟨-, rfl⟩ := List.cons_eq_cons.1 rest
            exact .inr (.inl ⟨reader, by simp, uses⟩)
      · exact .inl ⟨other, List.mem_append_left _ member, writes⟩
    · exact .inr (.inr clear)
  · rintro (assigned | ⟨reader, member, uses⟩ | clear)
    · exact ⟨earlier, statement, later, split, reads, .inl assigned⟩
    · obtain ⟨gap, after, rfl⟩ := List.append_of_mem member
      exact ⟨earlier ++ statement :: gap, reader, after, by simpa using split, uses,
        .inl ⟨statement, by simp, assigns⟩⟩
    · exact ⟨earlier, statement, later, split, reads,
        .inr ⟨⟨statement, split ▸ by simp, assigns⟩, clear⟩⟩

end Chains

namespace FlowGraph

variable {scope : Scope} {options : Options} {flow : FlowGraph} {number : Nat} {block : Block}

theorem WellFormed.statementsOf_eq (wellFormed : flow.WellFormed) {node : Fin flow.size}
    (hnode : flow.nodeOf? number = some node) (hblock : flow.blocks[number]? = some block) :
    flow.statementsOf node = splitStatements block.instructions := by
  rw [statementsOf, (wellFormed.nodeOf?_iff number node).1 hnode]
  simp [wellFormed.statements_eq, hblock, Block.statements]

theorem ascending_instructions (distinct : scope.Distinct)
    (built : build scope options = .ok flow) (hblock : flow.blocks[number]? = some block) :
    Ascending block.instructions := by
  obtain ⟨wired, resolved, stages⟩ := build_eq_ok built
  obtain ⟨original, horiginal, heq⟩ := stages.getElem?_scope_blocks hblock
  obtain ⟨start, stop, -, spans⟩ := Scope.exists_spans_of_mem (List.mem_of_getElem? horiginal)
  rw [heq, spans.instructions_eq]
  exact List.pairwise_map.2 (distinct.pairwise_decoded.filter _)

end FlowGraph

/-! ## A load behind a store -/

namespace Chains

/-- A block in which a load of a variable follows a store of it is linked to itself if no statement
covers both.  If one does, the block is linked exactly if an earlier statement assigns the variable,
a later one reads it, or a clear path leads back to the block. -/
theorem read_after_write_linked {scope : Scope} {options : Options} {flow : FlowGraph}
    {maxSteps : Nat} {chains : Chains} (distinct : scope.Distinct)
    (built : FlowGraph.build scope options = .ok flow)
    (computed : compute flow maxSteps = .ok chains)
    {number : Nat} {node : Fin flow.size} {block : Block} (hnode : flow.nodeOf? number = some node)
    (hblock : flow.blocks[number]? = some block)
    {before between after : List Instruction} {store load : Instruction} {name : String}
    (code : block.instructions = before ++ store :: (between ++ load :: after))
    (stores : store.named? .store = some name) (loads : load.named? .load = some name)
    (isVariable : name ≠ "None") :
    ((∀ statement ∈ flow.statementsOf node,
        statement.Covers store.address → ¬ statement.Covers load.address) →
      chains.LinksBack name number) ∧
    ∀ earlier statement later, flow.statementsOf node = earlier ++ statement :: later →
      statement.Covers store.address → statement.Covers load.address →
      (chains.LinksBack name number ↔
        (∃ other ∈ earlier, other.Assigns name) ∨ (∃ other ∈ later, name ∈ other.uses) ∨
          flow.ClearPath name node node) := by
  have ascending := FlowGraph.ascending_instructions distinct built hblock
  have statements := (FlowGraph.build_wellFormed built).statementsOf_eq hnode hblock
  have consecutive := consecutive_splitStatements ascending
  obtain ⟨writer, hwriter, covered, writes⟩ :=
    exists_covers_of_mem ascending (show store ∈ block.instructions by simp [code])
  obtain ⟨reader, hreader, covers, reads⟩ :=
    exists_covers_of_mem ascending (show load ∈ block.instructions by simp [code])
  have assigns : writer.Assigns name := ⟨writes .store name stores, isVariable⟩
  have uses : name ∈ reader.uses := List.mem_append_left _ (reads .load name loads)
  rw [← statements] at consecutive hwriter hreader
  constructor
  · intro apart
    have lt : store.address < load.address := by
      rw [code] at ascending
      have behind := (List.pairwise_append.1 ascending).2.1
      exact List.rel_of_pairwise_cons behind (by simp)
    obtain ⟨earlier, later, split⟩ := List.append_of_mem hreader
    have place := (split ▸ consecutive).cases_of_mem (split ▸ hwriter)
    refine (linksBack_iff built computed hnode).2 ⟨earlier, reader, later, split, uses, .inl ?_⟩
    rcases place with ⟨member, -⟩ | rfl | ⟨-, behind⟩
    · exact ⟨writer, member, assigns⟩
    · exact absurd covers (apart writer hwriter covered)
    · unfold Statement.Covers at covered covers
      omega
  · intro earlier statement later split first second
    rw [split] at consecutive hwriter hreader
    obtain rfl := consecutive.eq_of_covers hwriter first covered
    obtain rfl := consecutive.eq_of_covers hreader second covers
    exact linksBack_iff_of_assigns built computed hnode split uses assigns

def readSample : Scope :=
  { instructions := [
      ⟨0, .loadConst, .const (.int 1), 1, 0, false⟩,
      ⟨3, .dupTop, .none, 1, 0, false⟩,
      ⟨4, .storeName, .name "x", 1, 0, false⟩,
      ⟨7, .loadName, .name "x", 1, 0, false⟩,
      ⟨10, .storeAttr, .name "a", 1, 0, false⟩,
      ⟨13, .loadName, .name "x", 2, 0, false⟩,
      ⟨16, .popTop, .none, 2, 0, false⟩]
    sorted := by decide }

theorem readSample_linked :
    ∃ flow chains node block first second, FlowGraph.build readSample {} = .ok flow ∧
      compute flow 100 = .ok chains ∧ flow.nodeOf? 0 = some node ∧
      flow.blocks[0]? = some block ∧ block.instructions = readSample.instructions ∧
      flow.statementsOf node = [first, second] ∧
      first.Covers 4 ∧ first.Covers 7 ∧ ¬ first.Covers 13 ∧ chains.LinksBack "x" 0 ∧
      (chains.LinksBack "x" 0 ↔
        (∃ other ∈ [], Statement.Assigns other "x") ∨ (∃ other ∈ [second], "x" ∈ other.uses) ∨
          flow.ClearPath "x" node node) := by
  let first : Statement := ⟨{ stores := ["x", "x.a"], loads := ["x"] }, 0, 10, true, 0⟩
  let second : Statement := ⟨{ loads := ["x"] }, 13, 16, true, 0⟩
  have run : succeedsWith (fun flow =>
      (flow.nodeOf? 0).any (fun node => flow.statementsOf node = [first, second]) &&
        flow.blocks[0]?.any (fun block => block.instructions = readSample.instructions) &&
        succeedsWith (fun _ => true) (compute flow 100))
      (FlowGraph.build readSample {}) = true := by decide +kernel
  obtain ⟨flow, built, found⟩ := succeedsWith_iff.1 run
  simp only [Bool.and_eq_true, Option.any_eq_true, decide_eq_true_eq, succeedsWith_iff,
    and_true] at found
  obtain ⟨⟨⟨node, hnode, statements⟩, block, hblock, code⟩, chains, computed⟩ := found
  have distinct : readSample.Distinct := by decide
  -- the load at 7 is in the statement of the store at 4, the one at 13 is in the next
  have same : block.instructions = readSample.instructions.take 2 ++
      ⟨4, .storeName, .name "x", 1, 0, false⟩ :: ([] ++
        ⟨7, .loadName, .name "x", 1, 0, false⟩ :: readSample.instructions.drop 4) := code
  have next : block.instructions = readSample.instructions.take 2 ++
      ⟨4, .storeName, .name "x", 1, 0, false⟩ :: ((readSample.instructions.drop 3).take 2 ++
        ⟨13, .loadName, .name "x", 2, 0, false⟩ :: readSample.instructions.drop 6) := code
  refine ⟨flow, chains, node, block, first, second, built, computed, hnode, hblock, code,
    statements, by decide, by decide, by decide, ?_, ?_⟩
  · refine (read_after_write_linked distinct built computed hnode hblock next rfl rfl
      (by decide)).1 ?_
    rw [statements]
    decide
  · exact (read_after_write_linked distinct built computed hnode hblock same rfl rfl
      (by decide)).2 [] first [second] statements (by decide) (by decide)

/-- A load behind a store of its block need not be linked: within one statement the uses come
first. -/
theorem not_forall_read_linked :
    ¬ ∀ (scope : Scope) (options : Options) (flow : FlowGraph) (maxSteps : Nat) (chains : Chains)
        (number : Nat) (node : Fin flow.size) (block : Block)
        (before between after : List Instruction) (store load : Instruction) (name : String),
      scope.Distinct → FlowGraph.build scope options = .ok flow →
      compute flow maxSteps = .ok chains → flow.nodeOf? number = some node →
      flow.blocks[number]? = some block →
      block.instructions = before ++ store :: (between ++ load :: after) →
      store.named? .store = some name → load.named? .load = some name → name ≠ "None" →
      chains.LinksBack name number := by
  intro all
  have run : succeedsWith (fun flow => (flow.nodeOf? 0).isSome &&
      flow.blocks[0]?.any (fun block => block.instructions = chainSample.instructions) &&
        succeedsWith (fun chains => (chains.usesOf? "x" 0).isNone) (compute flow 100))
      (FlowGraph.build chainSample {}) = true := by decide +kernel
  obtain ⟨flow, built, found⟩ := succeedsWith_iff.1 run
  simp only [Bool.and_eq_true, Option.isSome_iff_exists, Option.any_eq_true, decide_eq_true_eq,
    succeedsWith_iff, Option.isNone_iff_eq_none] at found
  obtain ⟨⟨⟨node, hnode⟩, block, hblock, code⟩, chains, computed, none⟩ := found
  have split : block.instructions = chainSample.instructions.take 2 ++
      ⟨4, .storeName, .name "x", 1, 0, false⟩ :: ([] ++
        ⟨7, .loadName, .name "x", 1, 0, false⟩ :: chainSample.instructions.drop 4) := code
  obtain ⟨uses, linked, -⟩ := all chainSample {} flow 100 chains 0 node block _ _ _ _ _ "x"
    (by decide) built computed hnode hblock split rfl rfl (by decide)
  rw [none] at linked
  cases linked

end Chains

end StackFlow
