/-!
Columns of text: padding to a width, numbers with leading zeros, and bytes in hexadecimal.
A text that is already wider than its column is never cut.
-/
namespace StackMachine.Text

/-- `text` at the right end of a column of `width` characters. -/
def alignRight (width : Nat) (fill : Char) (text : String) : String :=
  String.ofList (text.toList.leftpad width fill)

/-- `text` at the left end of a column of `width` characters. -/
def alignLeft (width : Nat) (fill : Char) (text : String) : String :=
  String.ofList (text.toList.rightpad width fill)

def zeroPadded (width n : Nat) : String :=
  alignRight width '0' (toString n)

def hexDigit (n : Nat) : Char :=
  (Nat.digitChar n).toUpper

def hexByte (byte : UInt8) : String :=
  String.ofList [hexDigit (byte.toNat / 16), hexDigit (byte.toNat % 16)]

@[simp] theorem toList_alignRight (width : Nat) (fill : Char) (text : String) :
    (alignRight width fill text).toList = text.toList.leftpad width fill := by
  simp [alignRight]

@[simp] theorem toList_alignLeft (width : Nat) (fill : Char) (text : String) :
    (alignLeft width fill text).toList = text.toList.rightpad width fill := by
  simp [alignLeft]

end StackMachine.Text
