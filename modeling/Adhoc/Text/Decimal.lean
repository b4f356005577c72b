namespace Adhoc

/-- A binary floating point format: the widths of the stored mantissa and of the exponent. -/
structure FloatFormat where
  mantissa : Nat
  exponent : Nat

namespace FloatFormat

def single : FloatFormat := ⟨23, 8⟩

def double : FloatFormat := ⟨52, 11⟩

end FloatFormat

/-- A bit pattern taken apart; a finite one stands for `mantissa * 2 ^ exponent`. -/
inductive FloatParts
  | nan
  | infinite (negative : Bool)
  | finite (negative : Bool) (mantissa : Nat) (exponent : Int)
deriving DecidableEq, Repr

def FloatFormat.parts (f : FloatFormat) (bits : Nat) : FloatParts :=
  let fraction := bits % Nat.pow 2 f.mantissa
  let biased := bits / Nat.pow 2 f.mantissa % Nat.pow 2 f.exponent
  let negative := bits / Nat.pow 2 (f.mantissa + f.exponent) % 2 == 1
  let low : Int := 2 - (Nat.pow 2 (f.exponent - 1) : Nat) - f.mantissa
  if biased == Nat.pow 2 f.exponent - 1 then
    if fraction == 0 then .infinite negative else .nan
  else if biased == 0 then .finite negative fraction low
  else .finite negative (fraction + Nat.pow 2 f.mantissa) (low + biased - 1)

/-- The bits of positive infinity. -/
def FloatFormat.infinity (f : FloatFormat) : Nat :=
  (Nat.pow 2 f.exponent - 1) * Nat.pow 2 f.mantissa

/-- The exponent of the leading bit of `a / b`. -/
def leadingBit (a b : Nat) : Int :=
  if b ≤ a then Nat.log2 (a / b)
  else
    let n := Nat.log2 (b / a)
    if b ≤ a * Nat.pow 2 n then -n else -(n + 1)

/-- The whole number nearest to `a / b`; a half goes to the even one. -/
def divideToEven (a b : Nat) : Nat :=
  let q := a / b
  let r := 2 * (a % b)
  if r < b || (r == b && q % 2 == 0) then q else q + 1

/-- The bits of the float nearest to `a / b`, where `a` is not zero; a half goes to the even one.
The mantissa is counted in units of the last place. If rounding fills it, the carry goes on into
the exponent. -/
def FloatFormat.nearest (f : FloatFormat) (a b : Nat) : Nat :=
  let low : Int := 2 - (Nat.pow 2 (f.exponent - 1) : Nat) - f.mantissa
  let e := max low (leadingBit a b - f.mantissa)
  let units := if e < 0 then divideToEven (a * Nat.pow 2 (-e).toNat) b
    else divideToEven a (b * Nat.pow 2 e.toNat)
  min ((e - low).toNat * Nat.pow 2 f.mantissa + units) f.infinity

/-- The number `digits * 10 ^ exponent`. -/
structure Decimal where
  digits : Nat
  exponent : Int
deriving DecidableEq, Repr

namespace Decimal

def countDigits (n : Nat) : Nat := (Nat.toDigits 10 n).length

/-- The exponent of the leading digit of `a / b`. -/
def magnitude (a b : Nat) : Int :=
  if b ≤ a then countDigits (a / b) - 1
  else
    let n := countDigits (b / a)
    if b ≤ a * Nat.pow 10 (n - 1) then 1 - n else -n

/-- The reals that read back as a float: `low / den` to `high / den`, around `mid / den`. -/
structure Interval where
  low : Nat
  mid : Nat
  high : Nat
  den : Nat
  closed : Bool

def Interval.contains (r : Interval) (n : Nat) : Bool :=
  if r.closed then r.low ≤ n * r.den && n * r.den ≤ r.high
  else r.low < n * r.den && n * r.den < r.high

/-- The interval in units of `10 ^ e`. -/
def Interval.scaled (r : Interval) (e : Int) : Interval :=
  if e < 0 then
    let s := Nat.pow 10 (-e).toNat
    { r with low := r.low * s, mid := r.mid * s, high := r.high * s }
  else { r with den := r.den * Nat.pow 10 e.toNat }

/-- The whole number in the interval that is nearest to its middle. -/
def Interval.nearest? (r : Interval) : Option Nat :=
  let below := r.mid / r.den
  let above := below + 1
  if r.contains below then
    if r.contains above && above * r.den - r.mid ≤ r.mid - below * r.den then some above
    else some below
  else if r.contains above then some above
  else none

/-- The float `mantissa * 2 ^ exponent` with its neighbourhood, in quarters of a unit. The gap below
a power of two is half as wide. -/
def interval (mantissa : Nat) (exponent : Int) (narrowBelow : Bool) : Interval :=
  let e := exponent - 2
  let s := if e < 0 then 1 else Nat.pow 2 e.toNat
  { low := (4 * mantissa - (if narrowBelow then 1 else 2)) * s
    mid := 4 * mantissa * s
    high := (4 * mantissa + 2) * s
    den := if e < 0 then Nat.pow 2 (-e).toNat else 1
    closed := mantissa % 2 == 0 }

/-- Tries `n` digits, then one more, at most `fuel` times. -/
def search (r : Interval) (top : Int) : Nat → Nat → Decimal
  | 0, _ => ⟨r.mid / r.den, 0⟩
  | fuel + 1, n =>
    let e := top - n + 1
    match (r.scaled e).nearest? with
    | some digits => ⟨digits, e⟩
    | none => search r top fuel (n + 1)

/-- No trailing zeros. -/
def trim : Nat → Decimal → Decimal
  | 0, d => d
  | fuel + 1, d =>
    if d.digits % 10 == 0 && d.digits != 0 then trim fuel ⟨d.digits / 10, d.exponent + 1⟩ else d

def shortest (f : FloatFormat) (mantissa : Nat) (exponent : Int) : Decimal :=
  if mantissa == 0 then ⟨0, 0⟩
  else
    let low : Int := 2 - (Nat.pow 2 (f.exponent - 1) : Nat) - f.mantissa
    let r := interval mantissa exponent (mantissa == Nat.pow 2 f.mantissa && low < exponent)
    trim 20 (search r (magnitude r.mid r.den) 20 1)

/-- Positional text, without an exponent. -/
def positional (d : Decimal) : String :=
  let text := toString d.digits
  if 0 ≤ d.exponent then text ++ String.ofList (List.replicate d.exponent.toNat '0')
  else
    let places := (-d.exponent).toNat
    let padded := String.ofList (List.replicate (places + 1 - text.length) '0') ++ text
    let cs := padded.toList
    String.ofList (cs.take (cs.length - places)) ++ "." ++ String.ofList (cs.drop (cs.length - places))

/-- The bits of the float nearest to the decimal. Far outside the range of the format only the
number of digits matters. -/
def nearest (f : FloatFormat) (d : Decimal) : Nat :=
  let top := countDigits d.digits + d.exponent
  let range := Nat.pow 2 f.exponent
  if d.digits == 0 || top < -range then 0
  else if range < top then f.infinity
  else if 0 ≤ d.exponent then f.nearest (d.digits * Nat.pow 10 d.exponent.toNat) 1
  else f.nearest d.digits (Nat.pow 10 (-d.exponent).toNat)

end Decimal

/-- The text of a float: the shortest digits that read back, in full, without a trailing `.0`. -/
def FloatFormat.text (f : FloatFormat) (bits : Nat) : String :=
  match f.parts bits with
  | .nan => "NaN"
  | .infinite negative => if negative then "-inf" else "inf"
  | .finite negative mantissa exponent =>
    (if negative then "-" else "") ++ (Decimal.shortest f mantissa exponent).positional

end Adhoc
