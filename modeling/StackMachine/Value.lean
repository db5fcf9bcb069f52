import StackMachine.Allocator
import StackMachine.Decimal.Shortest

/-!
Values that programs compute with, and the two ways to write them: the short text shown to a
user, and the exact text of diagnostics, from which the number can be read back.
-/
namespace StackMachine

inductive Value where
  | number (x : Float)

instance : SlotSize Value := ⟨8⟩

namespace Value

/-- Numbers are compared as such: not-a-number differs from itself, and the two zeros agree. -/
instance : BEq Value where
  beq
    | .number x, .number y => x == y

instance : Inhabited Value where
  default := .number 0

def toFloat : Value → Float
  | .number x => x

def signText (negative : Bool) : String :=
  if negative then "-" else ""

/-- Six significant digits, plain from `1e-04` to just below `1e+06`. -/
def shortNotation : Decimal.GeneralNotation where
  places := 5
  lowest := -4
  exponentDigits := 2

/-- The fewest digits that read back, plain from `1e-4` to just below `1e16`. -/
def exactNotation : Decimal.ExactNotation where
  lowest := -4
  highest := 16

def shortNumber (x : Float) : String :=
  match Binary64.ofBits x.toBits with
  | .nan => "nan"
  | .infinite negative => signText negative ++ "inf"
  | .finite negative significand exponent =>
    signText negative ++ shortNotation.text (Binary64.magnitude significand exponent)

def exactNumber (x : Float) : String :=
  match Binary64.ofBits x.toBits with
  | .nan => "NaN"
  | .infinite negative => signText negative ++ "inf"
  | .finite negative significand exponent =>
    signText negative ++
      if significand = 0 then "0.0"
      else
        let (digits, power) := Decimal.shortest significand exponent
        exactNotation.text digits power

def display : Value → String
  | .number x => shortNumber x

def debug : Value → String
  | .number x => "Number(" ++ exactNumber x ++ ")"

def debugList (values : List Value) : String :=
  "[" ++ ", ".intercalate (values.map debug) ++ "]"

end Value

end StackMachine
