import TreeEnsemble.Text.Blank
import TreeEnsemble.Text.Quoted

/-!
The comparison at a split node, its symbols, and the reader of symbols.
-/

namespace TreeEnsemble

inductive Comparison where
  | lt
  | le
  | gt
  | ge
  | eq
  deriving DecidableEq

namespace Comparison

def all : List Comparison := [lt, le, gt, ge, eq]

/-- Whether `value op threshold` holds, given their order. Nothing holds of values without an
order, such as NaN. -/
def holds : Comparison → Option Ordering → Bool
  | _, none => false
  | lt, some o => o.isLT
  | le, some o => o.isLE
  | gt, some o => o.isGT
  | ge, some o => o.isGE
  | eq, some o => o.isEq

def code : Comparison → Nat
  | lt => 0
  | le => 1
  | gt => 2
  | ge => 3
  | eq => 4

/-- The comparison of a number; numbers without one mean `lt`. -/
def ofCode (n : Nat) : Comparison :=
  match n with
  | 1 => le
  | 2 => gt
  | 3 => ge
  | 4 => eq
  | _ => lt

def symbol : Comparison → String
  | lt => "<"
  | le => "<="
  | gt => ">"
  | ge => ">="
  | eq => "=="

/-- The name under which a model document holds the comparison. -/
def name : Comparison → String
  | lt => "Lt"
  | le => "Le"
  | gt => "Gt"
  | ge => "Ge"
  | eq => "Eq"

def ofName? : String → Option Comparison
  | "Lt" => some lt
  | "Le" => some le
  | "Gt" => some gt
  | "Ge" => some ge
  | "Eq" => some eq
  | _ => none

def ofSymbol? : List Char → Option Comparison
  | ['<'] => some lt
  | ['<', '='] => some le
  | ['>'] => some gt
  | ['>', '='] => some ge
  | ['=', '='] => some eq
  | _ => none

/-- A text that is no symbol, without the blanks around it. -/
structure UnknownSymbol where
  text : String
  deriving DecidableEq

def UnknownSymbol.message (e : UnknownSymbol) : String :=
  "unknown comparison operator: " ++ Text.quote e.text

/-- Reads a symbol that may stand between blanks. -/
def parse (s : String) : Except UnknownSymbol Comparison :=
  let core := Text.trim s.toList
  match ofSymbol? core with
  | some c => .ok c
  | none => .error ⟨String.ofList core⟩

theorem ofSymbol?_symbol (c : Comparison) : ofSymbol? c.symbol.toList = some c := by
  cases c <;> rfl

theorem ofName?_name (c : Comparison) : ofName? c.name = some c := by
  cases c <;> rfl

end Comparison

end TreeEnsemble
