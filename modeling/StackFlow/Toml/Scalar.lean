/-!
# Plain TOML values

Options are made of two kinds of values, integers and booleans.

An integer is decimal with an optional sign and no leading zero, or it has one of the marks `0x`,
`0o` and `0b` and no sign.  Single underscores may stand between digits.  Integers are those of
sixty-four bits.
-/

namespace StackFlow.Toml

inductive Scalar where
  | int (value : Int)
  | bool (value : Bool)
  deriving DecidableEq, Repr

/-- Two to the sixty-third power, the least number that is too large for an integer. -/
def intLimit : Int := 9223372036854775808

def digit? (base : Nat) (c : Char) : Option Nat :=
  let value :=
    if '0' ≤ c ∧ c ≤ '9' then some (c.toNat - '0'.toNat)
    else if 'a' ≤ c ∧ c ≤ 'f' then some (c.toNat - 'a'.toNat + 10)
    else if 'A' ≤ c ∧ c ≤ 'F' then some (c.toNat - 'A'.toNat + 10)
    else none
  value.filter fun value => value < base

def moreDigits? (base before : Nat) : List Char → Option Nat
  | [] => some before
  | '_' :: c :: rest => do moreDigits? base (before * base + (← digit? base c)) rest
  | c :: rest => do moreDigits? base (before * base + (← digit? base c)) rest

def digits? (base : Nat) : List Char → Option Nat
  | [] => none
  | c :: rest => do moreDigits? base (← digit? base c) rest

def decimal? : List Char → Option Nat
  | '0' :: _ :: _ => none
  | digits => digits? 10 digits

def unboundedInt? : List Char → Option Int
  | '0' :: 'x' :: digits => (digits? 16 digits).map Int.ofNat
  | '0' :: 'o' :: digits => (digits? 8 digits).map Int.ofNat
  | '0' :: 'b' :: digits => (digits? 2 digits).map Int.ofNat
  | '+' :: digits => (decimal? digits).map Int.ofNat
  | '-' :: digits => (decimal? digits).map fun value => -Int.ofNat value
  | digits => (decimal? digits).map Int.ofNat

def int? (text : List Char) : Option Int :=
  (unboundedInt? text).filter fun value => -intLimit ≤ value && value < intLimit

def scalar? (text : List Char) : Option Scalar :=
  if text = ['t', 'r', 'u', 'e'] then some (.bool true)
  else if text = ['f', 'a', 'l', 's', 'e'] then some (.bool false)
  else (int? text).map .int

def Scalar.text : Scalar → String
  | .int value => toString value
  | .bool true => "true"
  | .bool false => "false"

end StackFlow.Toml
