namespace Adhoc

/-- An integer that fits 64 bits, or the bit pattern of a double. -/
inductive Number
  | int (value : Int)
  | real (bits : UInt64)
deriving DecidableEq, Repr

inductive Json
  | null
  | bool (value : Bool)
  | number (value : Number)
  | string (value : String)
  | array (items : List Json)
  | object (fields : List (String × Json))
deriving Repr

/-- Values by their keys. -/
abbrev Entries (α : Type) := List (String × α)

namespace Entries

variable {α β : Type}

/-- The value under a key, if there is one. A key that is repeated has no reading. -/
def once? (fields : Entries α) (key : String) : Option (Option α) :=
  match fields.filter (·.1 == key) with
  | [] => some none
  | [(_, value)] => some (some value)
  | _ => none

/-- A required field. -/
def required (fields : Entries α) (key : String) (read : α → Option β) : Option β :=
  (fields.once? key).bind (·.bind read)

/-- A field that may be missing. -/
def withDefault (fields : Entries α) (key : String) (dflt : β) (read : α → Option β) : Option β :=
  (fields.once? key).bind fun
    | none => some dflt
    | some value => read value

end Entries

namespace Json

def isNull : Json → Bool
  | .null => true
  | _ => false

def bool? : Json → Option Bool
  | .bool b => some b
  | _ => none

def string? : Json → Option String
  | .string s => some s
  | _ => none

/-- A name, alone or as the only key of an object with nothing under it. -/
def name? : Json → Option String
  | .string s | .object [(s, .null)] | .object [(s, .object [])] => some s
  | _ => none

def int? : Json → Option Int
  | .number (.int i) => some i
  | _ => none

def number? : Json → Option Number
  | .number n => some n
  | _ => none

def array? : Json → Option (List Json)
  | .array items => some items
  | _ => none

def object? : Json → Option (List (String × Json))
  | .object fields => some fields
  | _ => none

/-- The first value under a key. -/
def field? (key : String) (j : Json) : Option Json := j.object?.bind (List.lookup key)

/-- The fields of an object, or of an array that gives the first of them in order. -/
def fields? (keys : List String) : Json → Option (Entries Json)
  | .object fields => some fields
  | .array items => if items.length ≤ keys.length then some (keys.zip items) else none
  | _ => none

/-- An integer between the bounds. -/
def intBetween? (low high : Int) (j : Json) : Option Int :=
  j.int?.filter fun i => low ≤ i && i ≤ high

/-- An integer in two's complement of `width + 1` bits. -/
def signed? (width : Nat) (j : Json) : Option Int :=
  let bound : Int := Int.ofNat (Nat.pow 2 width)
  j.intBetween? (-bound) (bound - 1)

/-- A natural number of `width` bits. -/
def unsigned? (width : Nat) (j : Json) : Option Nat :=
  (j.intBetween? 0 (Int.ofNat (Nat.pow 2 width) - 1)).map Int.toNat

end Json
end Adhoc
