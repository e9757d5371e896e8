import StackFlow.Pipeline.Basic
import StackFlow.Proofs.Checked
import StackFlow.Proofs.Streams

/-!
# Scopes do not interfere

The standard pipeline gives every scope what it would give it alone (`Subject.Complete`), so the
result for a scope does not depend on the rest of the stream.  A run fails exactly if the chains of
some scope cannot be computed, and it reports the first such scope.
-/

namespace StackFlow

def Scope.FailsWith (options : Options) (scope : Scope) (error : AnalysisError) : Prop :=
  ∃ flow, FlowGraph.build scope options = .ok flow ∧
    Chains.compute flow options.maxSteps = .error error

theorem Scope.exists_failsWith_iff {options : Options} {scope : Scope} :
    (∃ error, scope.FailsWith options error) ↔
      succeedsWith (fun flow => !(Chains.compute flow options.maxSteps).isOk)
        (FlowGraph.build scope options) = true := by
  rw [succeedsWith_iff]
  constructor
  · rintro ⟨error, flow, built, failed⟩
    exact ⟨flow, built, by rw [failed]; rfl⟩
  · rintro ⟨flow, built, failed⟩
    cases computed : Chains.compute flow options.maxSteps with
    | ok chains =>
        rw [computed] at failed
        cases failed
    | error error => exact ⟨error, flow, built, computed⟩

instance {options : Options} {scope : Scope} :
    Decidable (∃ error, scope.FailsWith options error) :=
  decidable_of_iff _ Scope.exists_failsWith_iff.symm

namespace Subject

variable {options : Options} {scope : Scope} {subject first second : Subject}
  {subjects : List Subject} {error : AnalysisError} {id : Nat}

structure Complete (options : Options) (subject : Subject) : Prop where
  built : FlowGraph.build subject.scope options = .ok subject.flow
  chained : ∃ chains, Chains.compute subject.flow options.maxSteps = .ok chains ∧
    subject.chains = some chains

theorem Complete.eq_of_scope_eq (hfirst : first.Complete options)
    (hsecond : second.Complete options) (same : first.scope = second.scope) : first = second := by
  obtain ⟨scope, flow, chains⟩ := first
  obtain ⟨_, flow', chains'⟩ := second
  obtain rfl : scope = _ := same
  obtain rfl : flow = flow' := Except.ok.inj (hfirst.built.symm.trans hsecond.built)
  obtain ⟨found, computed, rfl⟩ := hfirst.chained
  obtain ⟨found', computed', rfl⟩ := hsecond.chained
  rw [Except.ok.inj (computed.symm.trans computed')]

theorem ofScope_eq_ok (made : ofScope options scope = .ok subject) :
    scope = subject.scope ∧ FlowGraph.build subject.scope options = .ok subject.flow := by
  obtain ⟨flow, built, done⟩ := bind_eq_ok_iff.1 made
  obtain rfl := pure_eq_ok_iff.1 done
  exact ⟨rfl, built⟩

theorem exists_ofScope_iff :
    (∃ subject, ofScope options scope = .ok subject) ↔
      ∃ flow, FlowGraph.build scope options = .ok flow := by
  constructor
  · rintro ⟨subject, made⟩
    obtain ⟨rfl, built⟩ := ofScope_eq_ok made
    exact ⟨subject.flow, built⟩
  · rintro ⟨flow, built⟩
    exact exists_bind_eq_ok built ⟨_, rfl⟩

theorem failsWith_iff (built : FlowGraph.build subject.scope options = .ok subject.flow) :
    subject.scope.FailsWith options error ↔
      Chains.compute subject.flow options.maxSteps = .error error := by
  constructor
  · rintro ⟨flow, built', failed⟩
    rwa [Except.ok.inj (built'.symm.trans built)] at failed
  · exact fun failed => ⟨subject.flow, built, failed⟩

theorem exists_filter_eq_singleton (nodup : (subjects.map fun subject => subject.scope.id).Nodup)
    (member : id ∈ subjects.map fun subject => subject.scope.id) :
    ∃ subject, subjects.filter (fun subject => subject.scope.id == id) = [subject] := by
  have single : (subjects.map fun subject => subject.scope.id).filter (· == id) = [id] := by
    rw [List.filter_beq, List.count_eq_one_of_mem nodup member, List.replicate_one]
  rw [List.filter_map] at single
  obtain ⟨subject, found, -⟩ := List.map_eq_singleton_iff.1 single
  exact ⟨subject, found⟩

end Subject

namespace Processor

variable {options : Options} {subject : Subject} {chains : Chains} {error : AnalysisError}

theorem attempt_defUse_of_ok
    (computed : Chains.compute subject.flow options.maxSteps = .ok chains) :
    defUse.attempt options subject = .ok { subject with chains := some chains } := by
  simp [attempt, defUse, attachChains, computed, Except.mapError]

theorem attempt_defUse_of_error
    (computed : Chains.compute subject.flow options.maxSteps = .error error) :
    defUse.attempt options subject =
      .error ⟨"def_use", subject.name, .chains subject.name error⟩ := by
  simp [attempt, defUse, attachChains, computed, Except.mapError]

theorem attempt_defUse_eq_ok {result : Subject}
    (attempted : defUse.attempt options subject = .ok result) :
    ∃ chains, Chains.compute subject.flow options.maxSteps = .ok chains ∧
      result = { subject with chains := some chains } := by
  cases computed : Chains.compute subject.flow options.maxSteps with
  | ok chains =>
      rw [attempt_defUse_of_ok computed] at attempted
      exact ⟨chains, rfl, (Except.ok.inj attempted).symm⟩
  | error error =>
      rw [attempt_defUse_of_error computed] at attempted
      cases attempted

theorem attempt_defUse_eq_error {failure : Failure}
    (attempted : defUse.attempt options subject = .error failure) :
    ∃ error, Chains.compute subject.flow options.maxSteps = .error error ∧
      failure = ⟨"def_use", subject.name, .chains subject.name error⟩ := by
  cases computed : Chains.compute subject.flow options.maxSteps with
  | ok chains =>
      rw [attempt_defUse_of_ok computed] at attempted
      cases attempted
  | error error =>
      rw [attempt_defUse_of_error computed] at attempted
      exact ⟨error, rfl, (Except.error.inj attempted).symm⟩

end Processor

namespace Pipeline

variable {options : Options} {program : Program} {started results : List Subject}
  {failure : Failure}

/-- The graphs of all scopes can be built, and the run on them has the outcome. -/
def Ends (pipeline : Pipeline) (options : Options) (program : Program)
    (outcome : Except Failure (List Subject)) : Prop :=
  ∃ started, subjects program options = .ok started ∧ pipeline.run options started = outcome

theorem subjects_eq_ok (made : subjects program options = .ok started) :
    program.scopes = started.map Subject.scope ∧
      ∀ subject ∈ started, FlowGraph.build subject.scope options = .ok subject.flow := by
  constructor
  · exact eq_map_of_mapM_eq_ok (fun _ _ made => (Subject.ofScope_eq_ok made).1) made
  · intro subject member
    obtain ⟨scope, -, made⟩ := (mem_of_mapM_eq_ok made).1 member
    exact (Subject.ofScope_eq_ok made).2

theorem exists_subjects_iff :
    (∃ started, subjects program options = .ok started) ↔
      ∀ scope ∈ program.scopes, ∃ flow, FlowGraph.build scope options = .ok flow := by
  simp only [subjects, exists_mapM_eq_ok_iff, Subject.exists_ofScope_iff]

theorem run_standard (options : Options) (started : List Subject) :
    standard.run options started = started.mapM (Processor.defUse.attempt options) := by
  have first : Processor.dominators.attemptAll options started = .ok (started.map id) :=
    mapM_eq_ok_of_forall fun _ _ => rfl
  rw [List.map_id] at first
  simp only [run, standard, List.foldlM_cons, first, ok_bind]
  exact bind_pure _

theorem complete_of_ends (ends : standard.Ends options program (.ok results)) :
    results.map Subject.scope = program.scopes ∧ ∀ result ∈ results, result.Complete options := by
  obtain ⟨started, made, ran⟩ := ends
  obtain ⟨scopes, built⟩ := subjects_eq_ok made
  rw [run_standard] at ran
  constructor
  · rw [scopes]
    refine (map_eq_map_of_mapM_eq_ok (fun subject result done => ?_) ran).symm
    obtain ⟨chains, -, rfl⟩ := Processor.attempt_defUse_eq_ok done
    rfl
  · intro result member
    obtain ⟨subject, hsubject, done⟩ := (mem_of_mapM_eq_ok ran).1 member
    obtain ⟨chains, computed, rfl⟩ := Processor.attempt_defUse_eq_ok done
    exact ⟨built subject hsubject, chains, computed, rfl⟩

theorem first_of_ends (ends : standard.Ends options program (.error failure)) :
    ∃ before scope after error, program.scopes = before ++ scope :: after ∧
      (∀ earlier ∈ before, ∀ error, ¬ earlier.FailsWith options error) ∧
      scope.FailsWith options error ∧
      failure = ⟨"def_use", scope.name, .chains scope.name error⟩ := by
  obtain ⟨started, made, ran⟩ := ends
  obtain ⟨scopes, built⟩ := subjects_eq_ok made
  rw [run_standard] at ran
  obtain ⟨before, subject, after, rfl, succeed, fails⟩ := exists_first_of_mapM_eq_error ran
  obtain ⟨error, computed, report⟩ := Processor.attempt_defUse_eq_error fails
  refine ⟨before.map Subject.scope, subject.scope, after.map Subject.scope, error, by simp [scopes],
    ?_, (Subject.failsWith_iff (built subject (by simp))).2 computed, report⟩
  intro earlier member
  obtain ⟨other, hother, rfl⟩ := List.mem_map.1 member
  intro error fails
  rw [Subject.failsWith_iff (built other (by simp [hother]))] at fails
  obtain ⟨result, done⟩ := succeed other hother
  obtain ⟨chains, computed, -⟩ := Processor.attempt_defUse_eq_ok done
  cases computed.symm.trans fails

theorem exists_failure_iff :
    (∃ failure, standard.Ends options program (.error failure)) ↔
      (∀ scope ∈ program.scopes, ∃ flow, FlowGraph.build scope options = .ok flow) ∧
        ∃ scope ∈ program.scopes, ∃ error, scope.FailsWith options error := by
  constructor
  · rintro ⟨failure, ends⟩
    obtain ⟨before, scope, after, error, split, -, fails, -⟩ := first_of_ends ends
    obtain ⟨started, made, -⟩ := ends
    exact ⟨exists_subjects_iff.1 ⟨started, made⟩, scope, by simp [split], error, fails⟩
  · rintro ⟨builds, scope, member, error, fails⟩
    obtain ⟨started, made⟩ := exists_subjects_iff.2 builds
    cases ran : standard.run options started with
    | error failure => exact ⟨failure, started, made, ran⟩
    | ok results =>
        obtain ⟨scopes, complete⟩ := complete_of_ends ⟨started, made, ran⟩
        rw [← scopes] at member
        obtain ⟨result, hresult, rfl⟩ := List.mem_map.1 member
        obtain ⟨built, chains, computed, -⟩ := complete result hresult
        rw [Subject.failsWith_iff built, computed] at fails
        cases fails

theorem exists_ends_of_succeedsWith
    (ran : succeedsWith (fun started => (standard.run options started).isOk)
      (subjects program options) = true) :
    ∃ results, standard.Ends options program (.ok results) := by
  obtain ⟨started, made, succeeded⟩ := succeedsWith_iff.1 ran
  cases outcome : standard.run options started with
  | ok results => exact ⟨results, started, made, outcome⟩
  | error failure =>
      rw [outcome] at succeeded
      cases succeeded

/-! ## Streams -/

variable {stream : List Instruction} {id : Nat}

theorem exists_result (ends : standard.Ends options (.ofStream stream options) (.ok results))
    (member : id ∈ stream.map Instruction.scope) :
    ∃ subject, results.filter (fun subject => subject.scope.id == id) = [subject] ∧
      subject.scope = Program.scopeOf stream options id ∧ subject.Complete options := by
  obtain ⟨scopes, complete⟩ := complete_of_ends ends
  have ids : results.map (fun subject => subject.scope.id) = Program.scopeIds stream := by
    rw [← Program.map_id_scopes stream options, ← scopes, List.map_map]
    rfl
  obtain ⟨subject, found⟩ := Subject.exists_filter_eq_singleton
    (ids ▸ Program.nodup_scopeIds stream) (ids ▸ Program.mem_scopeIds_iff.2 member)
  obtain ⟨hsubject, number⟩ := List.mem_filter.1 (found ▸ List.mem_singleton_self subject)
  refine ⟨subject, found, ?_, complete subject hsubject⟩
  have listed : subject.scope ∈ (Program.ofStream stream options).scopes :=
    scopes ▸ List.mem_map_of_mem hsubject
  rw [Program.scopes_ofStream] at listed
  obtain ⟨other, -, same⟩ := List.mem_map.1 listed
  rw [← beq_iff_eq.1 number, ← same]
  rfl

theorem appearance_le_of_split {before after : List Scope} {scope other : Scope}
    (split : (Program.ofStream stream options).scopes = before ++ scope :: after)
    (member : other ∈ scope :: after) :
    Program.appearance stream scope.id ≤ Program.appearance stream other.id := by
  have order := Program.pairwise_scopeIds stream
  rw [← Program.map_id_scopes stream options, split, List.pairwise_map,
    List.pairwise_append, List.pairwise_cons] at order
  rcases List.mem_cons.1 member with rfl | later
  · exact Nat.le_refl _
  · exact Nat.le_of_lt (order.2.1.1 other later)

/-- What the standard pipeline gives a scope follows from the instructions of the scope and from
whether it comes first.  Where the graphs of all scopes can be built, a run fails if and only if the
chains of some scope cannot be computed on its own, and the failure is that of the scope that
appears first among these. -/
theorem standard_isolates_scopes (options : Options) :
    (∀ first second id firstResults secondResults,
      id ∈ first.map Instruction.scope → id ∈ second.map Instruction.scope →
      ownedBy id first = ownedBy id second →
      (first.head?.map Instruction.scope = some id ↔
        second.head?.map Instruction.scope = some id) →
      standard.Ends options (.ofStream first options) (.ok firstResults) →
      standard.Ends options (.ofStream second options) (.ok secondResults) →
      ∃ subject, firstResults.filter (fun subject => subject.scope.id == id) = [subject] ∧
        secondResults.filter (fun subject => subject.scope.id == id) = [subject]) ∧
    ∀ stream,
      ((∃ failure, standard.Ends options (.ofStream stream options) (.error failure)) ↔
        (∀ scope ∈ (Program.ofStream stream options).scopes,
          ∃ flow, FlowGraph.build scope options = .ok flow) ∧
        ∃ scope ∈ (Program.ofStream stream options).scopes,
          ∃ error, scope.FailsWith options error) ∧
      ∀ failure, standard.Ends options (.ofStream stream options) (.error failure) →
        ∃ scope ∈ (Program.ofStream stream options).scopes, ∃ error,
          scope.FailsWith options error ∧
          failure = ⟨"def_use", scope.name, .chains scope.name error⟩ ∧
          ∀ other ∈ (Program.ofStream stream options).scopes,
            (∃ error, other.FailsWith options error) →
              Program.appearance stream scope.id ≤ Program.appearance stream other.id := by
  constructor
  · intro first second id firstResults secondResults hfirst hsecond same leads endsFirst endsSecond
    obtain ⟨subject, found, hscope, complete⟩ := exists_result endsFirst hfirst
    obtain ⟨other, found', hscope', complete'⟩ := exists_result endsSecond hsecond
    -- both subjects are what the pipeline makes of the same scope
    have scopes := Program.scopeOf_congr options hfirst hsecond same leads
    have equal : other = subject :=
      complete'.eq_of_scope_eq complete (hscope'.trans (scopes.symm.trans hscope.symm))
    exact ⟨subject, found, equal ▸ found'⟩
  · intro stream
    refine ⟨exists_failure_iff, fun failure ends => ?_⟩
    obtain ⟨before, scope, after, error, split, none, fails, report⟩ := first_of_ends ends
    refine ⟨scope, by simp [split], error, fails, report, ?_⟩
    rintro other member ⟨reason, hother⟩
    rw [split] at member
    rcases List.mem_append.1 member with earlier | later
    · exact absurd hother (none other earlier reason)
    · exact appearance_le_of_split split later

def branchSample : Scope :=
  { id := 7
    name := Program.nameOf 1 7
    entry := 20
    instructions := [
      ⟨20, .loadName, .name "y", 2, 7, false⟩,
      ⟨23, .popJumpIfFalse, .arg 27, 2, 7, false⟩,
      ⟨26, .returnValue, .none, 3, 7, false⟩,
      ⟨27, .returnValue, .none, 4, 7, false⟩]
    sorted := by decide }

def assignSample : Scope :=
  { name := "<module>"
    instructions := [
      ⟨0, .loadConst, .const (.int 1), 1, 0, false⟩,
      ⟨3, .storeName, .name "x", 1, 0, false⟩]
    sorted := by decide }

def repeatSample : Scope :=
  { id := 3
    name := "<module>"
    instructions := [
      ⟨0, .loadName, .name "y", 1, 3, false⟩,
      ⟨3, .popJumpIfTrue, .arg 0, 1, 3, false⟩,
      ⟨6, .returnValue, .none, 1, 3, false⟩]
    sorted := by decide }

def innerStream : List Instruction :=
  [ ⟨0, .loadConst, .const (.int 1), 1, 0, false⟩,
    ⟨20, .loadName, .name "y", 2, 7, false⟩,
    ⟨3, .storeName, .name "x", 1, 0, false⟩,
    ⟨23, .popJumpIfFalse, .arg 27, 2, 7, false⟩,
    ⟨26, .returnValue, .none, 3, 7, false⟩,
    ⟨27, .returnValue, .none, 4, 7, false⟩ ]

def outerStream : List Instruction :=
  [ ⟨0, .loadName, .name "y", 1, 3, false⟩,
    ⟨3, .popJumpIfTrue, .arg 0, 1, 3, false⟩,
    ⟨20, .loadName, .name "y", 2, 7, false⟩,
    ⟨23, .popJumpIfFalse, .arg 27, 2, 7, false⟩,
    ⟨26, .returnValue, .none, 3, 7, false⟩,
    ⟨27, .returnValue, .none, 4, 7, false⟩,
    ⟨6, .returnValue, .none, 1, 3, false⟩ ]

def tightOptions : Options :=
  { maxSteps := 2 }

theorem innerStream_outerStream_agree :
    (∃ inner outer subject,
      standard.Ends {} (.ofStream innerStream {}) (.ok inner) ∧
      standard.Ends {} (.ofStream outerStream {}) (.ok outer) ∧
      inner.filter (fun subject => subject.scope.id == 7) = [subject] ∧
      outer.filter (fun subject => subject.scope.id == 7) = [subject]) ∧
    ∃ error, branchSample.FailsWith tightOptions error ∧
      standard.Ends tightOptions (.ofStream innerStream tightOptions)
        (.error ⟨"def_use", branchSample.name, .chains branchSample.name error⟩) := by
  have inner : Program.ofStream innerStream {} = ⟨[assignSample, branchSample]⟩ :=
    Program.ofStream_eq_of_scopes (by decide +kernel) (by decide +kernel) (by decide +kernel)
  have outer : Program.ofStream outerStream {} = ⟨[repeatSample, branchSample]⟩ :=
    Program.ofStream_eq_of_scopes (by decide +kernel) (by decide +kernel) (by decide +kernel)
  have tight : Program.ofStream innerStream tightOptions = ⟨[assignSample, branchSample]⟩ :=
    Program.ofStream_eq_of_scopes (by decide +kernel) (by decide +kernel) (by decide +kernel)
  constructor
  · obtain ⟨first, endsFirst⟩ :
        ∃ results, standard.Ends {} (.ofStream innerStream {}) (.ok results) :=
      exists_ends_of_succeedsWith (by rw [inner]; decide +kernel)
    obtain ⟨second, endsSecond⟩ :
        ∃ results, standard.Ends {} (.ofStream outerStream {}) (.ok results) :=
      exists_ends_of_succeedsWith (by rw [outer]; decide +kernel)
    obtain ⟨subject, found, found'⟩ := (standard_isolates_scopes {}).1 innerStream outerStream 7
      first second (by decide) (by decide) (by decide) (by decide) endsFirst endsSecond
    exact ⟨first, second, subject, endsFirst, endsSecond, found, found'⟩
  · have listed : (Program.ofStream innerStream tightOptions).scopes =
        [assignSample, branchSample] := by rw [tight]
    have builds : ∀ scope ∈ (Program.ofStream innerStream tightOptions).scopes,
        ∃ flow, FlowGraph.build scope tightOptions = .ok flow := by
      have tested : ∀ scope ∈ [assignSample, branchSample],
          succeedsWith (fun _ => true) (FlowGraph.build scope tightOptions) = true := by
        decide +kernel
      intro scope member
      obtain ⟨flow, built, -⟩ := succeedsWith_iff.1 (tested scope (listed ▸ member))
      exact ⟨flow, built⟩
    have sound : ¬ ∃ error, assignSample.FailsWith tightOptions error := by decide +kernel
    have failing : ∃ error, branchSample.FailsWith tightOptions error := by decide +kernel
    obtain ⟨fails, report⟩ := (standard_isolates_scopes tightOptions).2 innerStream
    obtain ⟨failure, ends⟩ := fails.2 ⟨builds, branchSample, by simp [listed], failing⟩
    obtain ⟨scope, member, error, hscope, rfl, -⟩ := report failure ends
    rw [listed, List.mem_pair] at member
    rcases member with rfl | rfl
    · exact absurd ⟨error, hscope⟩ sound
    · exact ⟨error, hscope, ends⟩

def leadingSample : Scope :=
  { branchSample with name := "<module>" }

def overrunSample : Scope :=
  { id := 9
    name := Program.nameOf 1 9
    entry := 4294967295
    instructions := [⟨4294967295, .nop, .none, 5, 9, false⟩]
    sorted := by decide }

def overrunStream : List Instruction :=
  leadingSample.instructions ++ overrunSample.instructions

/-- The graphs of all scopes are built before the first processor runs: the overflow in the last
scope ends the run, and the failure of the first scope is never reported. -/
theorem overrunStream_hides_failure :
    (Program.ofStream overrunStream tightOptions).scopes = [leadingSample, overrunSample] ∧
    (∃ error, leadingSample.FailsWith tightOptions error) ∧
    subjects (.ofStream overrunStream tightOptions) tightOptions = .error .overflow ∧
    ¬ ∃ failure, standard.Ends tightOptions (.ofStream overrunStream tightOptions)
      (.error failure) := by
  have listed : Program.ofStream overrunStream tightOptions = ⟨[leadingSample, overrunSample]⟩ :=
    Program.ofStream_eq_of_scopes (by decide +kernel) (by decide +kernel) (by decide +kernel)
  have overflow : subjects (.ofStream overrunStream tightOptions) tightOptions =
      .error .overflow := by
    rw [listed]
    rfl
  refine ⟨by rw [listed], by decide +kernel, overflow, ?_⟩
  rintro ⟨failure, started, made, -⟩
  rw [overflow] at made
  cases made

end Pipeline

end StackFlow
