namespace Adhoc.Toml

/-- What called a table into being, which decides what may add to it. -/
inductive Origin
  /-- Its own header; the table of the whole text too. -/
  | header
  /-- A header of another table inside it. -/
  | passage
  /-- A dotted key. -/
  | dottedKey
  | inline
deriving DecidableEq, Repr

/-- Whether a path goes on through a table. A dotted key does not reach into tables that have a
header of their own. -/
def Origin.lets (dotted : Bool) : Origin → Bool
  | .header => !dotted
  | .passage | .dottedKey => true
  | .inline => false

inductive Value
  | string (text : String)
  | integer (value : Int)
  | float (bits : UInt64)
  | boolean (value : Bool)
  /-- A date, a time or both, as written. -/
  | moment (text : String)
  | array (items : List Value)
  | table (origin : Origin) (entries : List (String × Value))
  /-- The tables of one repeated header, the newest first. -/
  | tables (items : List (List (String × Value)))

abbrev Table := List (String × Value)

namespace Value

def string? : Value → Option String
  | .string s => some s
  | _ => none

def integer? : Value → Option Int
  | .integer i => some i
  | _ => none

def boolean? : Value → Option Bool
  | .boolean b => some b
  | _ => none

/-- The items in the order of the text. -/
def items? : Value → Option (List Value)
  | .array items => some items
  | .tables items => some (items.reverse.map (.table .header))
  | _ => none

end Value

namespace Table

def put (key : String) (value : Value) : Table → Table
  | [] => [(key, value)]
  | (k, v) :: rest => if k == key then (k, value) :: rest else (k, v) :: put key value rest

/-- Changes the table that a path leads to, and makes those that are missing on the way. Of tables
under a repeated header the newest is meant. -/
def update (dotted : Bool) (change : Origin → Table → Option Table) (origin : Origin) :
    List String → Table → Option Table
  | [], t => change origin t
  | key :: path, t =>
    match t.lookup key with
    | none => do
      let origin := if dotted then .dottedKey else .passage
      let inner ← update dotted change origin path []
      pure (put key (.table origin inner) t)
    | some (.table origin inner) =>
      if origin.lets dotted then do
        let inner ← update dotted change origin path inner
        pure (put key (.table origin inner) t)
      else none
    | some (.tables (newest :: others)) => do
      let newest ← update dotted change .header path newest
      pure (put key (.tables (newest :: others)) t)
    | some _ => none

/-- Adds a value under a new key. A dotted key ends in a table that dotted keys have made. -/
def insert? (path : List String) (key : String) (value : Value) (origin : Origin) (t : Table) :
    Option Table :=
  update true (fun origin t =>
    if (origin == .dottedKey) == path.isEmpty || (t.lookup key).isSome then none
    else some (put key value t)) origin path t

end Table

/-- A line `key = value`. -/
structure Entry where
  path : List String
  key : String
  value : Value

def Table.addAll? (origin : Origin) (entries : List Entry) (t : Table) : Option Table :=
  entries.foldlM (fun t e => t.insert? e.path e.key e.value origin) t

/-- A header with the entries below it. -/
structure Section where
  path : List String
  key : String
  /-- Whether the header is of the kind that is written again for every table. -/
  repeated : Bool
  entries : List Entry

namespace Section

/-- Adds the section to the table that holds its last key. -/
def addTo? (s : Section) (t : Table) : Option Table :=
  match s.repeated, t.lookup s.key with
  | false, none => do
    let inner ← Table.addAll? .header s.entries []
    pure (Table.put s.key (.table .header inner) t)
  | false, some (.table .passage inner) => do
    let inner ← Table.addAll? .header s.entries inner
    pure (Table.put s.key (.table .header inner) t)
  | true, none => do
    let inner ← Table.addAll? .header s.entries []
    pure (Table.put s.key (.tables [inner]) t)
  | true, some (.tables items) => do
    let inner ← Table.addAll? .header s.entries []
    pure (Table.put s.key (.tables (inner :: items)) t)
  | _, some _ => none

end Section

/-- The table of a text: the entries before the first header, then the sections. -/
def Table.ofSections? (entries : List Entry) (sections : List Section) : Option Table := do
  let top ← Table.addAll? .header entries []
  sections.foldlM (fun t s => t.update false (fun _ => s.addTo?) .header s.path) top

end Adhoc.Toml
