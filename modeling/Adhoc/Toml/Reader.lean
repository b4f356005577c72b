import Adhoc.Text.Decimal
import Adhoc.Toml.Value

namespace Adhoc.Toml

/-- Reads something from the front of a text, or fails. -/
abbrev Reader := StateT (List Char) Option

namespace Reader

def satisfy (p : Char → Bool) : Reader Char
  | c :: rest => if p c then some (c, rest) else none
  | [] => none

def char (c : Char) : Reader Unit := do let _ ← satisfy (· == c)

def word (w : String) : Reader Unit := w.toList.forM char

def skip (p : Char → Bool) : Reader Unit := fun cs => some ((), cs.dropWhile p)

def endOfText : Reader Unit
  | [] => some ((), [])
  | _ :: _ => none

def tryRead {α : Type} (r : Reader α) : Reader (Option α) := (some <$> r) <|> pure none

def manyUpTo {α : Type} (r : Reader α) : Nat → Reader (List α)
  | 0 => pure []
  | n + 1 => (do
      let x ← r
      let xs ← manyUpTo r n
      pure (x :: xs)) <|> pure []

/-- As often as it succeeds; what is read is not empty, so the length of the text is a bound. -/
def many {α : Type} (r : Reader α) : Reader (List α) := fun cs => manyUpTo r cs.length cs

/-- The text that is read. -/
def spelling (r : Reader Unit) : Reader String := fun cs => do
  let ((), rest) ← r cs
  pure (String.ofList (cs.take (cs.length - rest.length)), rest)

def isSpace (c : Char) : Bool := c == ' ' || c == '\t'

/-- A character of a comment or a string: no control character but the tab. -/
def isPlain (c : Char) : Bool := c == '\t' || (0x20 ≤ c.toNat && c.toNat != 0x7f)

def spaces : Reader Unit := skip isSpace

def newline : Reader Unit := char '\n' <|> word "\r\n"

def comment : Reader Unit := do
  char '#'
  skip isPlain

/-- Spaces, comments and line breaks. -/
def gap : Reader Unit := do
  let _ ← many ((do let _ ← satisfy isSpace) <|> newline <|> comment)

def endOfLine : Reader Unit := do
  spaces
  let _ ← tryRead comment
  newline <|> endOfText

def hexDigit? (c : Char) : Option Nat :=
  if c.isDigit then some (c.toNat - 48)
  else if 'a' ≤ c && c ≤ 'f' then some (c.toNat - 87)
  else if 'A' ≤ c && c ≤ 'F' then some (c.toNat - 55)
  else none

/-- The character of a code point in hex. Surrogates are none. -/
def codePoint? (ds : List Char) : Option Char := do
  let n ← ds.foldlM (fun n c => (hexDigit? c).map (n * 16 + ·)) 0
  if n.isValidChar then some (Char.ofNat n) else none

def escape? : Char → Option Char
  | 'b' => some '\x08'
  | 't' => some '\t'
  | 'n' => some '\n'
  | 'f' => some '\x0c'
  | 'r' => some '\r'
  | '"' => some '"'
  | '\\' => some '\\'
  | _ => none

/-- Puts a character in front of a string that has been read. -/
def prepend (c : Char) (r : Option (List Char × List Char)) : Option (List Char × List Char) :=
  r.map fun (s, rest) => (c :: s, rest)

/-- The rest of a string in double quotes. -/
def basicRest : List Char → Option (List Char × List Char)
  | '"' :: rest => some ([], rest)
  | '\\' :: 'u' :: a :: b :: c :: d :: rest => do
    prepend (← codePoint? [a, b, c, d]) (basicRest rest)
  | '\\' :: 'U' :: a :: b :: c :: d :: e :: f :: g :: h :: rest => do
    prepend (← codePoint? [a, b, c, d, e, f, g, h]) (basicRest rest)
  | '\\' :: c :: rest => do prepend (← escape? c) (basicRest rest)
  | c :: rest => if isPlain c then prepend c (basicRest rest) else none
  | [] => none

/-- The rest of a string in single quotes. -/
def literalRest : List Char → Option (List Char × List Char)
  | '\x27' :: rest => some ([], rest)
  | c :: rest => if isPlain c then prepend c (literalRest rest) else none
  | [] => none

/-- After three closing quotes: up to two more belong to the string. -/
def closing (quote : Char) : List Char → List Char × List Char
  | c :: d :: rest =>
    if c == quote && d == quote then ([c, d], rest)
    else if c == quote then ([c], d :: rest)
    else ([], c :: d :: rest)
  | [c] => if c == quote then ([c], []) else ([], [c])
  | [] => ([], [])

/-- Whether the line has nothing more but spaces. -/
def lineEnds (cs : List Char) : Bool :=
  match cs.dropWhile isSpace with
  | '\n' :: _ | '\r' :: '\n' :: _ => true
  | _ => false

/-- The rest of a string in three double quotes. A backslash at the end of a line takes away the
blanks and line breaks that follow (`trim`). -/
def basicLines (trim : Bool) : List Char → Option (List Char × List Char)
  | '"' :: '"' :: '"' :: rest => some (closing '"' rest)
  | '\\' :: 'u' :: a :: b :: c :: d :: rest => do
    prepend (← codePoint? [a, b, c, d]) (basicLines false rest)
  | '\\' :: 'U' :: a :: b :: c :: d :: e :: f :: g :: h :: rest => do
    prepend (← codePoint? [a, b, c, d, e, f, g, h]) (basicLines false rest)
  | '\\' :: c :: rest =>
    if lineEnds (c :: rest) then basicLines true (c :: rest)
    else do prepend (← escape? c) (basicLines false rest)
  | '\r' :: '\n' :: rest =>
    if trim then basicLines true rest else prepend '\n' (basicLines false rest)
  | c :: rest =>
    if trim && (isSpace c || c == '\n') then basicLines true rest
    else if isPlain c || c == '\n' then prepend c (basicLines false rest)
    else none
  | [] => none

/-- The rest of a string in three single quotes. -/
def literalLines : List Char → Option (List Char × List Char)
  | '\x27' :: '\x27' :: '\x27' :: rest => some (closing '\x27' rest)
  | '\r' :: '\n' :: rest => prepend '\n' (literalLines rest)
  | c :: rest => if isPlain c || c == '\n' then prepend c (literalLines rest) else none
  | [] => none

def line : Reader String :=
  String.ofList <$> ((char '"' *> basicRest) <|> (char '\x27' *> literalRest))

/-- A string of several lines; a line break right after the quotes is not part of it. -/
def block : Reader String :=
  String.ofList <$>
    ((word "\"\"\"" *> tryRead newline *> basicLines false) <|>
      (word "'''" *> tryRead newline *> literalLines))

def isSign (c : Char) : Bool := c == '+' || c == '-'

/-- Whether there is a sign, and it is a minus. -/
def negative : Reader Bool := do
  let c ← tryRead (satisfy isSign)
  pure (c == some '-')

/-- Digits, each of which may have one underscore before it. -/
def moreDigits (isDigit : Char → Bool) : List Char → List Char × List Char
  | '_' :: c :: rest =>
    if isDigit c then
      let (ds, rest) := moreDigits isDigit rest
      (c :: ds, rest)
    else ([], '_' :: c :: rest)
  | c :: rest =>
    if isDigit c then
      let (ds, rest) := moreDigits isDigit rest
      (c :: ds, rest)
    else ([], c :: rest)
  | [] => ([], [])

def digits (isDigit : Char → Bool) : Reader (List Nat) := do
  let c ← satisfy isDigit
  let cs ← fun cs => some (moreDigits isDigit cs)
  pure ((c :: cs).filterMap hexDigit?)

def decimals : Reader (List Nat) := digits Char.isDigit

/-- The digits before the point: a zero stands alone. -/
def whole : Reader (List Nat) := (do char '0'; pure [0]) <|> decimals

def valueIn (base : Nat) (ds : List Nat) : Nat := ds.foldl (fun n d => n * base + d) 0

/-- An integer of 64 bits. -/
def small (i : Int) : Reader Value :=
  if Int64.minValue.toInt ≤ i && i ≤ Int64.maxValue.toInt then pure (.integer i) else failure

def inBase (mark : String) (base : Nat) : Reader Value := do
  word mark
  let ds ← digits fun c => (hexDigit? c).any (· < base)
  small (valueIn base ds)

def integer : Reader Value :=
  inBase "0x" 16 <|> inBase "0o" 8 <|> inBase "0b" 2 <|> do
    let negative ← negative
    let n := valueIn 10 (← whole)
    small (if negative then -n else n)

def exponent : Reader (Bool × List Nat) := do
  let _ ← satisfy fun c => c == 'e' || c == 'E'
  let negative ← negative
  pure (negative, ← decimals)

def infinity : UInt64 := UInt64.ofNat FloatFormat.double.infinity

def notANumber : UInt64 := 0x7ff8000000000000

def withSign (negative : Bool) (bits : UInt64) : UInt64 :=
  if negative then bits ||| 0x8000000000000000 else bits

def signedValue : Bool × List Nat → Int
  | (negative, ds) => if negative then -(valueIn 10 ds : Int) else valueIn 10 ds

/-- A float in digits. One too large fails; one too far below zero is minus infinity. -/
def float : Reader Value := do
  let negative ← negative
  let whole ← whole
  let fraction ← tryRead (char '.' *> decimals)
  let exponent ← tryRead exponent
  if fraction.isNone && exponent.isNone then failure
  let fraction := fraction.getD []
  let e := (exponent.map signedValue).getD 0
  let decimal : Decimal := ⟨valueIn 10 (whole ++ fraction), e - fraction.length⟩
  let bits := UInt64.ofNat (decimal.nearest .double)
  if bits == infinity && !negative then failure
  pure (.float (withSign negative bits))

def namedFloat : Reader Value := do
  let negative ← negative
  let bits ← (do word "inf"; pure infinity) <|> (do word "nan"; pure notANumber)
  pure (.float (withSign negative bits))

def digitRun : Nat → Reader (List Nat)
  | 0 => pure []
  | n + 1 => do
    let c ← satisfy Char.isDigit
    pure ((c.toNat - 48) :: (← digitRun n))

/-- A number of `n` digits between the bounds. -/
def fixed (n low high : Nat) : Reader Nat := do
  let value := valueIn 10 (← digitRun n)
  if low ≤ value && value ≤ high then pure value else failure

def daysIn (year month : Nat) : Nat :=
  if month == 2 then
    if (year % 4 == 0 && year % 100 != 0) || year % 400 == 0 then 29 else 28
  else if [4, 6, 9, 11].contains month then 30
  else 31

def date : Reader Unit := do
  let year ← fixed 4 0 9999
  char '-'
  let month ← fixed 2 1 12
  char '-'
  let _ ← fixed 2 1 (daysIn year month)

def clock : Reader Unit := do
  let _ ← fixed 2 0 23
  char ':'
  let _ ← fixed 2 0 59
  char ':'
  let _ ← fixed 2 0 60
  let _ ← tryRead (char '.' *> satisfy Char.isDigit *> skip Char.isDigit)

def zone : Reader Unit :=
  (do let _ ← satisfy fun c => c == 'Z' || c == 'z') <|> do
    let _ ← satisfy isSign
    let _ ← fixed 2 0 23
    char ':'
    let _ ← fixed 2 0 59

def moment : Reader Unit :=
  (do
    date
    let _ ← tryRead do
      let _ ← satisfy fun c => c == 'T' || c == 't' || c == ' '
      clock
      tryRead zone) <|> clock

/-- The longest way down into a value, and the longest dotted key, is one step shorter. -/
def depthLimit : Nat := 80

def bareKey : Reader String := do
  let isBare := fun c : Char => c.isAlphanum || c == '_' || c == '-'
  let c ← satisfy isBare
  let cs ← fun cs : List Char => some (cs.takeWhile isBare, cs.dropWhile isBare)
  pure (String.ofList (c :: cs))

def simpleKey : Reader String := do
  spaces
  let key ← line <|> bareKey
  spaces
  pure key

/-- A dotted key: the path and the last name. -/
def key : Reader (List String × String) := do
  let first ← simpleKey
  let others ← many (char '.' *> simpleKey)
  if depthLimit ≤ others.length + 1 then failure
  pure ((first :: others).dropLast, others.getLast?.getD first)

def entry (value : Reader Value) : Reader Entry := do
  let (path, key) ← key
  char '='
  spaces
  pure ⟨path, key, ← value⟩

def scalar : Reader Value :=
  (.string <$> (block <|> line)) <|> (.moment <$> spelling moment) <|> float <|> integer <|>
    namedFloat <|> (do word "true"; pure (.boolean true)) <|> (do word "false"; pure (.boolean false))

def array (value : Reader Value) : Reader Value := do
  char '['
  gap
  (do char ']'; pure (.array [])) <|> do
    let first ← value
    let others ← many (gap *> char ',' *> gap *> value)
    gap
    let _ ← tryRead (char ',')
    gap
    char ']'
    pure (.array (first :: others))

/-- A table on one line. -/
def inlineTable (value : Reader Value) : Reader Value := do
  char '\x7b'
  spaces
  (do char '\x7d'; pure (.table .inline [])) <|> do
    let first ← entry value
    let others ← many (spaces *> char ',' *> entry value)
    spaces
    char '\x7d'
    let entries ← liftM (Table.addAll? .inline (first :: others) [])
    pure (.table .inline entries)

/-- A value in which containers nest at most as deep as said. -/
def value : Nat → Reader Value
  | 0 => scalar
  | depth + 1 => scalar <|> array (value depth) <|> inlineTable (value depth)

def entryLine : Reader Entry := do
  gap
  let e ← entry (value (depthLimit - 1))
  endOfLine
  pure e

def header : Reader (Bool × List String × String) :=
  (do word "[["; let k ← key; word "]]"; pure (true, k)) <|>
    (do char '['; let k ← key; char ']'; pure (false, k))

def titled : Reader Section := do
  gap
  let (repeated, path, key) ← header
  endOfLine
  pure ⟨path, key, repeated, ← many entryLine⟩

def document : Reader Table := do
  let _ ← tryRead (char '\ufeff')
  let entries ← many entryLine
  let sections ← many titled
  gap
  endOfText
  liftM (Table.ofSections? entries sections)

end Reader

/-- The table of a text. -/
def Table.ofText? (text : String) : Option Table := (Reader.document text.toList).map (·.1)

end Adhoc.Toml
