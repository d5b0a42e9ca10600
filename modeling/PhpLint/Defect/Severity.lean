import PhpLint.Text.Ascii
import PhpLint.Text.WhiteSpace

/-! Importance of defects. -/
namespace PhpLint

inductive Severity where
  | notice
  | warning
  | error
  | fatal
  deriving DecidableEq, Repr, Inhabited

namespace Severity

def name : Severity → String
  | .notice => "notice"
  | .warning => "warning"
  | .error => "error"
  | .fatal => "fatal"

/-- Importance as a number; a fatal defect weighs most. -/
def level : Severity → Nat
  | .notice => 1
  | .warning => 2
  | .error => 3
  | .fatal => 4

def ofLevel? : Nat → Option Severity
  | 1 => some .notice
  | 2 => some .warning
  | 3 => some .error
  | 4 => some .fatal
  | _ => none

def ofName? (name : String) : Option Severity :=
  [notice, warning, error, fatal].find? (·.name == name)

/-- A decimal number, perhaps after a plus sign. -/
def number? (s : List Char) : Option Nat :=
  let digits := if s.head? == some '+' then s.drop 1 else s
  if digits.isEmpty || !digits.all Char.isDigit then none
  else some (digits.foldl (fun n d => 10 * n + (d.toNat - 48)) 0)

/-- A report level as users write it: a name in singular or plural, or a number. -/
def parse? (s : String) : Option Severity :=
  match Text.fold (Text.trim s) with
  | "notice" | "notices" => some .notice
  | "warning" | "warnings" => some .warning
  | "error" | "errors" => some .error
  | "fatal" => some .fatal
  | other => (number? other.toList).bind ofLevel?

end Severity

end PhpLint
