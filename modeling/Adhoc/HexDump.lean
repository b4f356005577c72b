import Adhoc.Container.Varint

namespace Adhoc

def hexDigit (n : Nat) : Char := "0123456789abcdef".toList.getD n '0'

/-- A number in hex, at least `width` digits long. -/
def hexPadded (width n : Nat) : String :=
  let digits := Nat.toDigits 16 n
  String.ofList (List.replicate (width - digits.length) '0' ++ digits)

def hexByte (b : UInt8) : String :=
  String.ofList [hexDigit (b.toNat / 16), hexDigit (b.toNat % 16)]

def hexText (bytes : List UInt8) : String := "".intercalate (bytes.map hexByte)

/-- The byte as a character, a dot if it does not print. -/
def byteChar (b : UInt8) : Char :=
  if 0x21 ≤ b && b ≤ 0x7e then Char.ofNat b.toNat else '.'

def hexDumpLine (offset : Nat) (bytes : List UInt8) : String :=
  hexPadded 8 offset ++ "   " ++ "".intercalate (bytes.map fun b => " " ++ hexByte b) ++
    String.ofList (List.replicate (3 * (16 - bytes.length)) ' ') ++ "    " ++
    String.ofList (bytes.map byteChar)

/-- The lines from `offset` on. -/
def hexDumpFrom (offset : Nat) : List UInt8 → List String
  | [] => []
  | b :: rest => hexDumpLine offset (b :: rest.take 15) :: hexDumpFrom (offset + 16) (rest.drop 15)
termination_by bytes => bytes.length
decreasing_by simp +arith

def hexDump (bytes : List UInt8) : List String := hexDumpFrom 0 bytes

end Adhoc
