import StackFlow.Toml.Scalar

/-!
# Flat TOML documents

A flat document consists of lines that set keys to plain values.

Only these documents are read.  A table, a dotted key or any other kind of value makes a document
unreadable here, and so does whatever makes it no TOML at all.
-/

namespace StackFlow.Toml

def isBlank (c : Char) : Bool :=
  c == ' ' || c == '\t'

def isPlain (c : Char) : Bool :=
  c == '\t' || (' ' ≤ c && c != '\x7f')

def isBareKey (c : Char) : Bool :=
  c.isAlphanum || c == '_' || c == '-'

def skipBlanks (text : List Char) : List Char :=
  text.dropWhile isBlank

/-! ## Keys -/

def codePoint? (text : List Char) : Option Char := do
  let value ← text.foldlM (fun before c => do return before * 16 + (← digit? 16 c)) 0
  if value.isValidChar then some (Char.ofNat value) else none

def shortEscape? : Char → Option Char
  | 'b' => some '\x08'
  | 't' => some '\t'
  | 'n' => some '\n'
  | 'f' => some '\x0c'
  | 'r' => some '\r'
  | '"' => some '"'
  | '\\' => some '\\'
  | _ => none

def basicText? : List Char → Option (List Char × List Char)
  | [] => none
  | '"' :: rest => some ([], rest)
  | '\\' :: 'u' :: a :: b :: c :: d :: rest => do
      let head ← codePoint? [a, b, c, d]
      let (tail, rest) ← basicText? rest
      return (head :: tail, rest)
  | '\\' :: 'U' :: a :: b :: c :: d :: e :: f :: g :: h :: rest => do
      let head ← codePoint? [a, b, c, d, e, f, g, h]
      let (tail, rest) ← basicText? rest
      return (head :: tail, rest)
  | '\\' :: c :: rest => do
      let head ← shortEscape? c
      let (tail, rest) ← basicText? rest
      return (head :: tail, rest)
  | c :: rest =>
      if isPlain c then do
        let (tail, rest) ← basicText? rest
        return (c :: tail, rest)
      else
        none

def literalText? : List Char → Option (List Char × List Char)
  | [] => none
  | '\x27' :: rest => some ([], rest)
  | c :: rest =>
      if isPlain c then do
        let (tail, rest) ← literalText? rest
        return (c :: tail, rest)
      else
        none

def key? : List Char → Option (List Char × List Char)
  | '"' :: rest => basicText? rest
  | '\x27' :: rest => literalText? rest
  | text =>
      match text.takeWhile isBareKey with
      | [] => none
      | key => some (key, text.dropWhile isBareKey)

/-! ## Lines -/

def isTrailer : List Char → Bool
  | [] => true
  | '#' :: comment => comment.all isPlain
  | _ => false

def setting? (line : List Char) : Option (String × Scalar) := do
  let (key, rest) ← key? line
  match skipBlanks rest with
  | '=' :: rest =>
      let rest := skipBlanks rest
      let inValue (c : Char) : Bool := !isBlank c && c != '#'
      let value ← scalar? (rest.takeWhile inValue)
      if isTrailer (skipBlanks (rest.dropWhile inValue)) then
        some (String.ofList key, value)
      else
        none
  | _ => none

def line? (line : List Char) : Option (List (String × Scalar)) :=
  let line := skipBlanks line
  if isTrailer line then some [] else (setting? line).map ([·])

/-- The lines of a text.  A carriage return right before a line feed belongs to the line end. -/
def lines : List Char → List (List Char)
  | [] => [[]]
  | '\n' :: rest => [] :: lines rest
  | '\r' :: '\n' :: rest => [] :: lines rest
  | c :: rest =>
      match lines rest with
      | [] => [[c]]
      | line :: after => (c :: line) :: after

def withoutMark : List Char → List Char
  | '\ufeff' :: rest => rest
  | text => text

def settings? (text : String) : Option (List (String × Scalar)) := do
  let settings ← (lines (withoutMark text.toList)).mapM line?
  return settings.flatten

end StackFlow.Toml
