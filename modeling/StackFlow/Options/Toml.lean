import StackFlow.Options.Basic
import StackFlow.Toml.Document
import StackFlow.Word

/-!
# Options as a TOML document

A document sets each option at most once and nothing else; an option that it leaves out has its
default.  TOML integers are signed, so a step bound of `2 ^ 63` or more cannot be written.
-/

namespace StackFlow

inductive OptionsError where
  | unreadable
  | unwritable
  deriving DecidableEq, Repr

def OptionsError.message : OptionsError → String
  | .unreadable => "parsing analysis options"
  | .unwritable => "serializing analysis options"

namespace Options

def set? (options : Options) : String × Toml.Scalar → Option Options
  | ("max_dataflow_steps", .int value) =>
      if 0 ≤ value then some { options with maxSteps := value.toNat } else none
  | ("relative_jump_width", .int value) =>
      if 0 ≤ value ∧ value < Word.limit then
        some { options with jumpWidth := value.toNat }
      else
        none
  | ("prune_unreachable_jumps", .bool value) => some { options with pruneJumps := value }
  | ("require_dominating_loop", .bool value) =>
      some { options with requireDominatingLoop := value }
  | _ => none

def ofSettings? (settings : List (String × Toml.Scalar)) : Option Options :=
  if (settings.map Prod.fst).Nodup then settings.foldlM set? {} else none

def ofToml (text : String) : Except OptionsError Options :=
  match Toml.settings? text >>= ofSettings? with
  | some options => .ok options
  | none => .error .unreadable

def settings (options : Options) : List (String × Toml.Scalar) :=
  [("max_dataflow_steps", .int options.maxSteps),
    ("relative_jump_width", .int options.jumpWidth),
    ("prune_unreachable_jumps", .bool options.pruneJumps),
    ("require_dominating_loop", .bool options.requireDominatingLoop)]

def toToml (options : Options) : Except OptionsError String :=
  if (options.maxSteps : Int) < Toml.intLimit then
    .ok (String.join (options.settings.map fun (key, value) => s!"{key} = {value.text}\n"))
  else
    .error .unwritable

end Options

end StackFlow
