namespace Adhoc.CommandLine

inductive Key
  | input
  | output
  | version
  | noDebug
  | bigEndian
  | includeFolder
  | logExceptions
  | verbose
  | help
deriving DecidableEq, Repr

namespace Key

def long : Key → String
  | .input => "input"
  | .output => "output"
  | .version => "version"
  | .noDebug => "no-debug"
  | .bigEndian => "big-endian"
  | .includeFolder => "include"
  | .logExceptions => "log-exceptions"
  | .verbose => "verbose"
  | .help => "help"

def short? : Key → Option Char
  | .input => some 'i'
  | .output => some 'o'
  | .version => some 'v'
  | .help => some 'h'
  | _ => none

def takesValue : Key → Bool
  | .input | .output | .version | .includeFolder => true
  | _ => false

end Key

/-- Why no command is run. -/
inductive Stop
  | usage
  | help
deriving DecidableEq, Repr

/-- The options read so far. -/
abbrev Given := List (Key × String)

/-- An integer in decimal, with or without a sign. -/
def integer? (s : String) : Option Int :=
  let digits? : List Char → Option Nat := fun ds =>
    if ds.isEmpty || !ds.all Char.isDigit then none
    else some (ds.foldl (fun n c => n * 10 + (c.toNat - 48)) 0)
  match s.toList with
  | '-' :: ds => (digits? ds).map fun n => -n
  | '+' :: ds => (digits? ds).map Int.ofNat
  | ds => (digits? ds).map Int.ofNat

/-- A number of eight bits. -/
def byte? (s : String) : Option Nat :=
  (integer? s).bind fun i => if 0 ≤ i && i ≤ 255 then some i.toNat else none

/-- Paths are not empty. -/
def Key.accepts (key : Key) (value : String) : Bool :=
  match key with
  | .input | .output | .includeFolder => !value.isEmpty
  | .version => (byte? value).isSome
  | _ => true

def give (key : Key) (value : String) (given : Given) : Except Stop Given :=
  if key == .help then .error .help
  else if (given.lookup key).isSome || !key.accepts value then .error .usage
  else .ok ((key, value) :: given)

/-- How an argument reads on its own. -/
inductive Argument
  /-- Two dashes: no options follow. -/
  | separator
  | long (name : String) (value : Option String)
  | short (name : Char) (rest : List Char)
  | plain (text : String)
deriving DecidableEq, Repr

/-- The text before the first equals sign, and the text after it. -/
def splitEquals (cs : List Char) : List Char × Option (List Char) :=
  match cs.dropWhile (· != '=') with
  | [] => (cs, none)
  | _ :: value => (cs.takeWhile (· != '='), some value)

def Argument.ofString (s : String) : Argument :=
  match s.toList with
  | ['-', '-'] => .separator
  | '-' :: '-' :: cs =>
    let (name, value) := splitEquals cs
    .long (String.ofList name) (value.map String.ofList)
  | '-' :: c :: cs => .short c cs
  | _ => .plain s

/-- What stands right after a one-letter name. -/
def attached? : List Char → Option String
  | [] => none
  | '=' :: cs => some (String.ofList cs)
  | cs => some (String.ofList cs)

/-- An option with the value attached to it. The only one-letter option without a value asks for
help, whatever follows it. -/
def option? (keys : List Key) : Argument → Option (Key × Option String)
  | .long name value => (keys.find? (·.long == name)).map fun key => (key, value)
  | .short c rest => (keys.find? (·.short? == some c)).map fun key =>
    (key, if key.takesValue then attached? rest else none)
  | _ => none

/-- Reads options up to the first plain argument, which is left with what follows it. -/
def options (keys : List Key) (given : Given) : List String → Except Stop (Given × List String)
  | [] => .ok (given, [])
  | arg :: rest =>
    match Argument.ofString arg with
    | .separator => if rest.isEmpty then .ok (given, []) else .error .usage
    | .plain _ => .ok (given, arg :: rest)
    | a =>
      match option? keys a with
      | none => .error .usage
      | some (key, some value) =>
        if key.takesValue then do
          let given ← give key value given
          options keys given rest
        else .error .usage
      | some (key, none) =>
        if key.takesValue then
          match rest with
          | [] => .error .usage
          | value :: rest =>
            match Argument.ofString value with
            | .plain _ => do
              let given ← give key value given
              options keys given rest
            | _ => .error .usage
        else do
          let given ← give key "" given
          options keys given rest

structure BuildRequest where
  input : String
  output : Option String
  version : Nat
  debug : Bool
  bigEndian : Bool
  includeFolder : Option String
  logsExceptions : Bool
deriving DecidableEq, Repr

inductive Command
  | build (request : BuildRequest)
  | dump (input : String) (version : Nat)
  | version
deriving DecidableEq, Repr

def globalKeys : List Key := [.verbose, .help]

def buildKeys : List Key :=
  [.input, .output, .version, .noDebug, .bigEndian, .includeFolder, .logExceptions] ++ globalKeys

def dumpKeys : List Key := [.input, .version] ++ globalKeys

/-- Options with no plain argument after them. -/
def onlyOptions (keys : List Key) (args : List String) : Except Stop Given := do
  let (given, rest) ← options keys [] args
  if rest.isEmpty then pure given else .error .usage

def required (given : Given) (key : Key) : Except Stop String :=
  match given.lookup key with
  | some value => .ok value
  | none => .error .usage

def versionNumber (dflt : Nat) (given : Given) : Nat :=
  ((given.lookup .version).bind byte?).getD dflt

def commandNames : List String := ["build", "dump", "version", "help"]

/-- The command of an argument list; `dflt` is the version if none is asked for. -/
def Command.ofArguments (dflt : Nat) (args : List String) : Except Stop Command := do
  let (_, rest) ← options globalKeys [] args
  match rest with
  | "build" :: args => do
    let given ← onlyOptions buildKeys args
    let has := fun key => (given.lookup key).isSome
    pure (.build
      { input := ← required given .input
        output := given.lookup .output
        version := versionNumber dflt given
        debug := !has .noDebug
        bigEndian := has .bigEndian
        includeFolder := given.lookup .includeFolder
        logsExceptions := has .logExceptions })
  | "dump" :: args => do
    let given ← onlyOptions dumpKeys args
    pure (.dump (← required given .input) (versionNumber dflt given))
  | "version" :: args => do
    let _ ← onlyOptions globalKeys args
    pure .version
  | ["help"] => .error .help
  | ["help", name] => if commandNames.contains name then .error .help else .error .usage
  | _ => .error .usage

end Adhoc.CommandLine
