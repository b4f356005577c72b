import Adhoc.Json.Value

namespace Adhoc.Number

/-- The parts of a number's text. -/
structure Parts where
  negative : Bool
  whole : List Nat
  fraction : Option (List Nat)
  /-- The sign (`true` for minus) and the digits of the exponent. -/
  exponent : Option (Bool × List Nat)
deriving Repr

def word : Nat := UInt64.size

/-- Appends digits while they fit 64 bits. Gives the value, and how many digits were used and how
many were left. -/
def collect (significand : Nat) : List Nat → Nat × Nat × Nat
  | [] => (significand, 0, 0)
  | d :: ds =>
    if significand * 10 + d < word then
      let (value, used, left) := collect (significand * 10 + d) ds
      (value, used + 1, left)
    else (significand, 0, ds.length + 1)

def power (n : Nat) : Float := Float.ofScientific 1 false n

/-- Divides by `10 ^ n` for a large `n` in steps of `10 ^ 308`, as long as something is left. -/
def scaleDown : Nat → Float → Nat → Float
  | 0, _, _ => 0
  | steps + 1, f, n =>
    if n ≤ 308 then f / power n
    else if f == 0 then f
    else scaleDown steps (f / power 308) (n - 308)

/-- `significand * 10 ^ exponent`, `none` if it is not finite. -/
def scale? (significand : Nat) (exponent : Int) : Option Float :=
  let f := significand.toUInt64.toFloat
  if exponent < 0 then some (scaleDown 5 f (-exponent).toNat)
  else if exponent ≤ 308 then
    let g := f * power exponent.toNat
    if g.isInf then none else some g
  else if f == 0 then some f
  else none

def signed (negative : Bool) (f : Float) : Number :=
  .real (if negative then -f else f).toBits

def digitsValue (ds : List Nat) : Nat := ds.foldl (fun n d => n * 10 + d) 0

/-- The exponent added by the `e` part; `none` if it does not fit 31 bits. -/
def exponentValue? : Option (Bool × List Nat) → Option Int
  | none => some 0
  | some (negative, ds) =>
    let n := digitsValue ds
    if n < 0x80000000 then some (if negative then -n else n) else none

def Parts.isInteger (p : Parts) : Bool := p.fraction.isNone && p.exponent.isNone

/-- The value of a number's text; `none` if it is out of range. Minus zero is no integer. -/
def Parts.value? (p : Parts) : Option Number :=
  let (significand, _, dropped) := collect 0 p.whole
  if p.isInteger && dropped == 0 then
    if !p.negative then some (.int significand)
    else if significand == 0 || significand > 0x8000000000000000 then
      some (signed true significand.toUInt64.toFloat)
    else some (.int (-significand))
  else
    let (significand, used, _) := collect significand (p.fraction.getD [])
    match exponentValue? p.exponent with
    | some e => (scale? significand (dropped - used + e)).map (signed p.negative)
    | none =>
      match p.exponent with
      | some (true, _) => some (signed p.negative 0)
      | _ => if significand == 0 then some (signed p.negative 0) else none

/-- The nearest single. An integer is rounded once. -/
def toSingle : Number → UInt32
  | .int i =>
    (if i < 0 then -(-i).toNat.toUInt64.toFloat32 else i.toNat.toUInt64.toFloat32).toBits
  | .real bits => (Float.ofBits bits).toFloat32.toBits

/-- The nearest double. -/
def toDouble : Number → UInt64
  | .int i => (if i < 0 then -(-i).toNat.toUInt64.toFloat else i.toNat.toUInt64.toFloat).toBits
  | .real bits => bits

end Adhoc.Number
