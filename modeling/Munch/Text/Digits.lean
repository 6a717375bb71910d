namespace Munch.Text

def words32 : Nat := 0x100000000

def words64 : Nat := 0x10000000000000000

def numeral (n : Nat) : List Char := Nat.toDigits 10 n

def hex (width n : Nat) : List Char :=
  let digits := Nat.toDigits 16 n
  List.replicate (width - digits.length) '0' ++ digits

def digitsValue (base : Nat) (digit : Char → Nat) (cs : List Char) : Nat :=
  cs.foldl (fun n c => n * base + digit c) 0

def decimalValue (cs : List Char) : Nat := digitsValue 10 (fun c => c.toNat - '0'.toNat) cs

def isHexDigit (c : Char) : Bool :=
  c.isDigit || ('a' ≤ c && c ≤ 'f') || ('A' ≤ c && c ≤ 'F')

def hexDigit (c : Char) : Nat :=
  if c.isDigit then c.toNat - '0'.toNat
  else if 'a' ≤ c then c.toNat - 'a'.toNat + 10
  else c.toNat - 'A'.toNat + 10

def hexValue? (cs : List Char) : Option Nat :=
  if cs.all isHexDigit then some (digitsValue 16 hexDigit cs) else none

end Munch.Text
