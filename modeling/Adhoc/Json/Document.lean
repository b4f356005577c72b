import Adhoc.Json.Number

namespace Adhoc

/-- What is wrong with a text: it ends too early, or it is not JSON. -/
inductive TextFault
  | early
  | malformed
deriving DecidableEq, Repr

/-- Where a text breaks off. Skipping over a value looks less closely than reading it, so the two
may report different faults. -/
structure Break where
  read : TextFault
  skip : TextFault
deriving DecidableEq, Repr

namespace Break

def early : Break := ⟨.early, .early⟩

def malformed : Break := ⟨.malformed, .malformed⟩

/-- The text ends inside a number. -/
def insideNumber : Break := ⟨.early, .malformed⟩

end Break

inductive Document
  | null
  | bool (value : Bool)
  | number (value : Number)
  | string (value : String)
  | array (items : List Document) (cut : Option Break)
  /-- A key is `none` if it has no value as text. -/
  | object (fields : List (Option String × Document)) (cut : Option Break)
  /-- Well formed, but without a value: a number out of range, half of a surrogate pair. -/
  | valueless
  | broken (b : Break)
deriving Repr

namespace Document

def isBlank (c : Char) : Bool := c == ' ' || c == '\n' || c == '\t' || c == '\r'

def skipBlank (cs : List Char) : List Char := cs.dropWhile isBlank

def digit? (c : Char) : Option Nat := if c.isDigit then some (c.toNat - 48) else none

def takeDigits (cs : List Char) : List Nat × List Char :=
  ((cs.takeWhile Char.isDigit).filterMap digit?, cs.dropWhile Char.isDigit)

def hexDigit? (c : Char) : Option Nat :=
  if c.isDigit then some (c.toNat - 48)
  else if 'a' ≤ c && c ≤ 'f' then some (c.toNat - 87)
  else if 'A' ≤ c && c ≤ 'F' then some (c.toNat - 55)
  else none

/-- At least one digit. -/
def digits1 (cs : List Char) : Except Break (List Nat × List Char) :=
  match takeDigits cs with
  | ([], []) => .error .insideNumber
  | ([], _) => .error .malformed
  | found => .ok found

def whole (cs : List Char) : Except Break (List Nat × List Char) :=
  match cs with
  | '0' :: c :: rest => if c.isDigit then .error .malformed else .ok ([0], c :: rest)
  | _ => digits1 cs

def fraction (cs : List Char) : Except Break (Option (List Nat) × List Char) :=
  match cs with
  | '.' :: rest => do
    let (ds, rest) ← digits1 rest
    pure (some ds, rest)
  | _ => .ok (none, cs)

def exponent (cs : List Char) : Except Break (Option (Bool × List Nat) × List Char) := do
  match cs with
  | c :: rest =>
    if c == 'e' || c == 'E' then
      let (negative, rest) := match rest with
        | '+' :: rest => (false, rest)
        | '-' :: rest => (true, rest)
        | _ => (false, rest)
      let (ds, rest) ← digits1 rest
      pure (some (negative, ds), rest)
    else pure (none, cs)
  | [] => pure (none, cs)

def numberParts (negative : Bool) (cs : List Char) : Except Break (Number.Parts × List Char) := do
  let (whole, cs) ← whole cs
  let (fraction, cs) ← fraction cs
  let (exponent, cs) ← exponent cs
  pure (⟨negative, whole, fraction, exponent⟩, cs)

def readNumber (negative : Bool) (cs : List Char) : Document × Option (List Char) :=
  match numberParts negative cs with
  | .error b => (.broken b, none)
  | .ok (parts, rest) =>
    match parts.value? with
    | some n => (.number n, some rest)
    | none => (.valueless, some rest)

/-- The text read so far, backwards, and a high surrogate that waits for its partner. The text is
lost once a surrogate stays alone. -/
structure Quote where
  text : Option (List Char) := some []
  high : Option Nat := none

namespace Quote

def lose (q : Quote) : Quote := { q with text := none, high := none }

def push (q : Quote) (c : Char) : Quote :=
  if q.high.isSome then q.lose else { q with text := q.text.map (c :: ·) }

/-- Takes a code unit that was given by an escape. -/
def unit (q : Quote) (n : Nat) : Quote :=
  match q.high with
  | some hi =>
    if 0xDC00 ≤ n && n ≤ 0xDFFF then
      let c := Char.ofNat (0x10000 + (hi - 0xD800) * 0x400 + (n - 0xDC00))
      { text := q.text.map (c :: ·), high := none }
    else q.lose
  | none =>
    if 0xDC00 ≤ n && n ≤ 0xDFFF then q.lose
    else if 0xD800 ≤ n && n ≤ 0xDBFF then { q with high := some n }
    else q.push (Char.ofNat n)

def result (q : Quote) : Option String :=
  if q.high.isSome then none else q.text.map fun cs => String.ofList cs.reverse

/-- Where the text breaks off, given what skipping finds there. -/
def breakAt (q : Quote) (fault : TextFault) : Break :=
  ⟨if q.text.isNone then .malformed else fault, fault⟩

end Quote

def simpleEscape? : Char → Option Char
  | '"' => some '"'
  | '\\' => some '\\'
  | '/' => some '/'
  | 'b' => some '\x08'
  | 'f' => some '\x0c'
  | 'n' => some '\n'
  | 'r' => some '\r'
  | 't' => some '\t'
  | _ => none

/-- Whether at least four bytes of text are left. -/
def hasFourBytes (cs : List Char) : Bool :=
  4 ≤ (cs.take 4).foldl (fun n c => n + c.utf8Size) 0

/-- The rest of a string after its opening quote. -/
def readQuote (q : Quote) : List Char → Except Break (Option String × List Char)
  | [] => .error (q.breakAt .early)
  | '"' :: rest => .ok (q.result, rest)
  | '\\' :: 'u' :: a :: b :: c :: d :: rest =>
    match hexDigit? a, hexDigit? b, hexDigit? c, hexDigit? d with
    | some a, some b, some c, some d =>
      readQuote (q.unit (((a * 16 + b) * 16 + c) * 16 + d)) rest
    | _, _, _, _ => .error (q.breakAt .malformed)
  | '\\' :: 'u' :: rest => .error (q.breakAt (if hasFourBytes rest then .malformed else .early))
  | ['\\'] => .error (q.breakAt .early)
  | '\\' :: c :: rest =>
    match simpleEscape? c with
    | some c => readQuote (q.push c) rest
    | none => .error ((if q.high.isSome then q.lose else q).breakAt .malformed)
  | c :: rest =>
    if c.toNat < 0x20 then .error ((if q.high.isSome then q.lose else q).breakAt .malformed)
    else readQuote (q.push c) rest

/-- The rest of a word whose first letter has been read. -/
def readWord (value : Document) : List Char → List Char → Document × Option (List Char)
  | [], cs => (value, some cs)
  | _ :: _, [] => (.broken .early, none)
  | w :: ws, c :: cs => if c == w then readWord value ws cs else (.broken .malformed, none)

mutual

/-- Reads a value. The remaining text is `none` once the text has broken off. The first argument
bounds the recursion and is at least the length of the text. -/
def readValue : Nat → List Char → Document × Option (List Char)
  | 0, _ => (.broken .early, none)
  | n + 1, cs =>
    match skipBlank cs with
    | [] => (.broken .early, none)
    | '{' :: rest =>
      let (fields, cut, rest) := readFields n true rest
      (.object fields cut, rest)
    | '[' :: rest =>
      let (items, cut, rest) := readItems n true rest
      (.array items cut, rest)
    | '"' :: rest =>
      match readQuote {} rest with
      | .ok (some s, rest) => (.string s, some rest)
      | .ok (none, rest) => (.valueless, some rest)
      | .error b => (.broken b, none)
    | 'n' :: rest => readWord .null ['u', 'l', 'l'] rest
    | 't' :: rest => readWord (.bool true) ['r', 'u', 'e'] rest
    | 'f' :: rest => readWord (.bool false) ['a', 'l', 's', 'e'] rest
    | '-' :: rest => readNumber true rest
    | c :: rest => if c.isDigit then readNumber false (c :: rest) else (.broken .malformed, none)

/-- Reads the items of an array up to its closing bracket. -/
def readItems : Nat → Bool → List Char → List Document × Option Break × Option (List Char)
  | 0, _, _ => ([], some .early, none)
  | n + 1, first, cs =>
    match skipBlank cs with
    | [] => ([], some .early, none)
    | ']' :: rest => ([], none, some rest)
    | c :: rest =>
      if !first && c != ',' then ([], some .malformed, none)
      else
        match skipBlank (if first then c :: rest else rest) with
        | [] => ([], some .early, none)
        | ']' :: _ => ([], some .malformed, none)
        | cs =>
          match readValue n cs with
          | (item, none) => ([item], none, none)
          | (item, some rest) =>
            let (items, cut, rest) := readItems n false rest
            (item :: items, cut, rest)

/-- Reads the fields of an object up to its closing brace. -/
def readFields : Nat → Bool → List Char →
    List (Option String × Document) × Option Break × Option (List Char)
  | 0, _, _ => ([], some .early, none)
  | n + 1, first, cs =>
    match skipBlank cs with
    | [] => ([], some .early, none)
    | '}' :: rest => ([], none, some rest)
    | c :: rest =>
      if !first && c != ',' then ([], some .malformed, none)
      else
        match skipBlank (if first then c :: rest else rest) with
        | [] => ([], some .early, none)
        | '"' :: rest =>
          match readQuote {} rest with
          | .error b => ([], some b, none)
          | .ok (key, rest) =>
            match skipBlank rest with
            | [] => ([(key, .broken .early)], none, none)
            | ':' :: rest =>
              match readValue n rest with
              | (value, none) => ([(key, value)], none, none)
              | (value, some rest) =>
                let (fields, cut, rest) := readFields n false rest
                ((key, value) :: fields, cut, rest)
            | _ => ([(key, .broken .malformed)], none, none)
        | _ => ([], some .malformed, none)

end

/-- The document of a text, and what follows it (blanks aside). -/
def parse (text : String) : Document × List Char :=
  let cs := text.toList
  let (doc, rest) := readValue (cs.length + 1) cs
  (doc, skipBlank (rest.getD []))

mutual

/-- The first fault that skipping over the document meets. -/
def skip : Document → Option TextFault
  | .array items cut => (skipItems items).or (cut.map (·.skip))
  | .object fields cut => (skipFields fields).or (cut.map (·.skip))
  | .broken b => some b.skip
  | _ => none

def skipItems : List Document → Option TextFault
  | [] => none
  | item :: rest => item.skip.or (skipItems rest)

def skipFields : List (Option String × Document) → Option TextFault
  | [] => none
  | field :: rest => (skipField field).or (skipFields rest)

def skipField : Option String × Document → Option TextFault
  | (_, value) => value.skip

end

mutual

/-- The value of a document in which containers nest at most `room` deep. -/
def toJson (room : Nat) : Document → Except TextFault Json
  | .null => .ok .null
  | .bool b => .ok (.bool b)
  | .number n => .ok (.number n)
  | .string s => .ok (.string s)
  | .array items cut =>
    if room == 0 then .error .malformed
    else do
      let items ← itemsToJson (room - 1) items
      if let some b := cut then throw b.read
      pure (.array items)
  | .object fields cut =>
    if room == 0 then .error .malformed
    else do
      let fields ← fieldsToJson (room - 1) fields
      if let some b := cut then throw b.read
      pure (.object fields)
  | .valueless => .error .malformed
  | .broken b => .error b.read

def itemsToJson (room : Nat) : List Document → Except TextFault (List Json)
  | [] => .ok []
  | item :: rest => do
    let item ← item.toJson room
    let rest ← itemsToJson room rest
    pure (item :: rest)

def fieldsToJson (room : Nat) :
    List (Option String × Document) → Except TextFault (List (String × Json))
  | [] => .ok []
  | field :: rest => do
    let field ← fieldToJson room field
    let rest ← fieldsToJson room rest
    pure (field :: rest)

def fieldToJson (room : Nat) : Option String × Document → Except TextFault (String × Json)
  | (some key, value) => do
    let value ← value.toJson room
    pure (key, value)
  | (none, _) => .error .malformed

end

end Document
end Adhoc
