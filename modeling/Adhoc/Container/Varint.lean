namespace Adhoc

/-- The lowest `count` bytes of a number, the most significant first. -/
def bigEndian : Nat → Nat → List UInt8
  | 0, _ => []
  | count + 1, n => UInt8.ofNat (n / Nat.pow 256 count) :: bigEndian count n

@[simp] theorem length_bigEndian (count n : Nat) : (bigEndian count n).length = count := by
  induction count with
  | zero => rfl
  | succ count ih => simp [bigEndian, ih]

/-- The number that the bytes spell, the most significant first, after the digits `high`. -/
def ofBigEndian (high : Nat) (bytes : List UInt8) : Nat :=
  bytes.foldl (fun n b => n * 256 + b.toNat) high

namespace Varint

/-- How many bytes follow the first. -/
def following (n : Nat) : Nat := ((List.range 8).find? fun k => n < Nat.pow 2 (7 + 7 * k)).getD 8

/-- The bytes of a number below `2 ^ 64`. -/
def encode (n : Nat) : List UInt8 :=
  UInt8.ofNat (256 - Nat.pow 2 (8 - following n) + n / Nat.pow 256 (following n)) ::
    bigEndian (following n) n

def leadingOnes (b : UInt8) : Nat :=
  ((List.range 8).find? fun k => b.toNat < 256 - Nat.pow 2 (7 - k)).getD 8

/-- The number in front and how many bytes it takes; `none` if the bytes end early. -/
def front? : List UInt8 → Option (Nat × Nat)
  | [] => none
  | first :: rest =>
    let k := leadingOnes first
    let tail := rest.take k
    if tail.length = k then some (ofBigEndian (first.toNat % Nat.pow 2 (7 - k)) tail, k + 1)
    else none

theorem front?_size {bytes : List UInt8} {n size : Nat} (h : front? bytes = some (n, size)) :
    0 < size ∧ size ≤ bytes.length := by
  unfold front? at h
  split at h
  · simp at h
  · simp only [List.length_take, Option.ite_none_right_eq_some, Option.some.injEq,
      Prod.mk.injEq] at h
    simp only [List.length_cons]
    omega

/-- The number at `start` and the position after it; `none` if the bytes end early. -/
def decode? (bytes : List UInt8) (start : Nat) : Option (Nat × Nat) :=
  (front? (bytes.drop start)).map fun (n, size) => (n, start + size)

/-- The numbers in `bytes`, which stand at `start`, with the positions after them. -/
def decodeFrom (start : Nat) (bytes : List UInt8) : List (Nat × Nat) :=
  match _h : front? bytes with
  | none => []
  | some (n, size) => (n, start + size) :: decodeFrom (start + size) (bytes.drop size)
termination_by bytes.length
decreasing_by
  have := front?_size _h
  simp only [List.length_drop]
  omega

/-- The numbers from `start` on with the positions after them, as far as the bytes go. -/
def decodeAll (bytes : List UInt8) (start : Nat) : List (Nat × Nat) :=
  decodeFrom start (bytes.drop start)

end Varint
end Adhoc
