/-!
Numerals of addresses: lowercase hexadecimal with a `0x` mark.
-/

namespace MissBound

/-- Hexadecimal numeral without padding. -/
def hex (n : Nat) : String :=
  "0x" ++ String.ofList (Nat.toDigits 16 n)

/-- Hexadecimal numeral of at least eight digits, as 32-bit addresses are written in messages. -/
def hexAddress (n : Nat) : String :=
  let digits := Nat.toDigits 16 n
  "0x" ++ String.ofList (List.replicate (8 - digits.length) '0' ++ digits)

/-- The signed reading of a 32-bit word. -/
def signed (w : UInt32) : Int :=
  w.toInt32.toInt

/-- The 32-bit word congruent to an integer. -/
def word (x : Int) : UInt32 :=
  (Int32.ofInt x).toUInt32

end MissBound
