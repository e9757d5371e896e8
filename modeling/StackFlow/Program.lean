import StackFlow.Options.Basic
import StackFlow.Scope

/-!
# Programs

A program is the list of the scopes in a decoded instruction stream.  The stream may interleave
them.  They are listed in the order in which they first appear, and the first one is the module
body.
-/

namespace StackFlow

structure Program where
  scopes : List Scope
  deriving DecidableEq

namespace Program

def scopeIds (stream : List Instruction) : List Nat :=
  (stream.map Instruction.scope).eraseDups

def entryOf (stream : List Instruction) (id : Nat) : Nat :=
  ((stream.filter fun instr => instr.scope == id).map Instruction.address).min?.getD 0

def nameOf (position id : Nat) : String :=
  if position = 0 then "<module>" else scopeLabel id

def ofStream (stream : List Instruction) (options : Options) : Program :=
  { scopes := (scopeIds stream).mapIdx fun position id =>
      .ofStream
        { id
          name := nameOf position id
          entry := entryOf stream id
          jumpWidth := options.jumpWidth }
        stream }

def scope? (program : Program) (id : Nat) : Option Scope :=
  program.scopes.find? fun scope => scope.id == id

end Program

end StackFlow
