import StackFlow.Pipeline.Processor
import StackFlow.Program

/-!
# Pipelines of processors

A pipeline runs breadth first: a processor has seen every subject before the next one starts.  The
first failure ends the run.
-/

namespace StackFlow

structure Failure where
  processor : String
  scope : String
  cause : Cause
  deriving DecidableEq, Repr

namespace Failure

def chain (failure : Failure) : List String :=
  s!"processor `{failure.processor}` failed on {failure.scope}" :: failure.cause.messages

def message (failure : Failure) : String :=
  String.intercalate ": " failure.chain

end Failure

namespace Processor

def attempt (processor : Processor) (options : Options) (subject : Subject) :
    Except Failure Subject :=
  (processor.process options subject).mapError fun cause =>
    { processor := processor.name, scope := subject.name, cause }

def attemptAll (processor : Processor) (options : Options) (subjects : List Subject) :
    Except Failure (List Subject) :=
  subjects.mapM (processor.attempt options)

/-- What the processor notes of the subjects that it takes up, the last of which is the first that
it fails on. -/
def observeAll (processor : Processor) (options : Options) : List Subject → List String
  | [] => []
  | subject :: rest =>
      processor.observe subject ++
        match processor.process options subject with
        | .ok _ => processor.observeAll options rest
        | .error _ => []

end Processor

structure Pipeline where
  processors : List Processor

namespace Pipeline

def standard : Pipeline :=
  { processors := [.dominators, .defUse] }

def names (pipeline : Pipeline) : List String :=
  pipeline.processors.map Processor.name

def subjects (program : Program) (options : Options) : Except Fault (List Subject) :=
  program.scopes.mapM (Subject.ofScope options)

def run (pipeline : Pipeline) (options : Options) (subjects : List Subject) :
    Except Failure (List Subject) :=
  pipeline.processors.foldlM
    (fun subjects processor => processor.attemptAll options subjects) subjects

/-- Called after a processor with its number, counted from one, and the subjects. -/
abbrev Hook := Nat → Processor → List Subject → List String

def notesFrom (options : Options) (hook : Hook) (step : Nat) :
    List Processor → List Subject → List String
  | [], _ => []
  | processor :: rest, subjects =>
      processor.before subjects ++ processor.observeAll options subjects ++
        match processor.attemptAll options subjects with
        | .error _ => []
        | .ok next =>
            processor.after next ++ hook step processor next ++
              notesFrom options hook (step + 1) rest next

def notes (pipeline : Pipeline) (options : Options) (hook : Hook) (subjects : List Subject) :
    List String :=
  notesFrom options hook 1 pipeline.processors subjects

def dump (pipeline : Pipeline) (subjects : List Subject) : String :=
  String.intercalate "\n" <| pipeline.processors.map fun processor =>
    s!"=== {processor.name} ===\n{processor.dump subjects}"

end Pipeline

end StackFlow
