namespace Adhoc

inductive Content
  | folder
  | file (bytes : ByteArray)

/-- Each entry is found under the names that lead to it from the root, the innermost first. -/
structure Files where
  /-- The current folder. -/
  home : List String
  entries : List (List String × Content) := []

namespace Files

/-- What is found under a key; the root itself is a folder. -/
def find? (files : Files) (key : List String) : Option Content :=
  if key.isEmpty then some .folder else files.entries.lookup key

def isFolder (files : Files) (key : List String) : Bool :=
  match files.find? key with
  | some .folder => true
  | _ => false

/-- The key that the names lead to. Every step starts from a folder. -/
def walk (files : Files) (key : List String) : List String → Option (List String)
  | [] => some key
  | name :: rest =>
    if !files.isFolder key then none
    else if name == "" || name == "." then files.walk key rest
    else if name == ".." then files.walk key.tail rest
    else files.walk (name :: key) rest

/-- Whether a path can lead anywhere: names have at most 255 bytes, the path at most 4095, and none
of them is zero. -/
def admits (path : String) : Bool :=
  path.utf8ByteSize ≤ 4095 && (path.splitOn "/").all (·.utf8ByteSize ≤ 255) && !path.contains '\x00'

/-- Where the names of a path start. -/
def base (files : Files) (path : String) : List String :=
  if path.startsWith "/" then [] else files.home

/-- The key of a path. -/
def locate? (files : Files) (path : String) : Option (List String) :=
  if path.isEmpty || !admits path then none else files.walk (files.base path) (path.splitOn "/")

/-- What a path leads to. -/
def get? (files : Files) (path : String) : Option Content :=
  (files.locate? path).bind files.find?

def contains (files : Files) (path : String) : Bool := (files.get? path).isSome

def read? (files : Files) (path : String) : Option ByteArray :=
  match files.get? path with
  | some (.file bytes) => some bytes
  | _ => none

def readText? (files : Files) (path : String) : Option String :=
  (files.read? path).bind String.fromUTF8?

def put (files : Files) (key : List String) (content : Content) : Files :=
  { files with entries := (key, content) :: files.entries.filter (·.1 != key) }

/-- Writes a file into a folder that is there. -/
def write? (files : Files) (path : String) (bytes : ByteArray) : Option Files :=
  match (path.splitOn "/").reverse with
  | [] => none
  | name :: folders =>
    if name == "" || name == "." || name == ".." || !admits path then none
    else
      match files.walk (files.base path) folders.reverse with
      | none => none
      | some key =>
        if !files.isFolder key || files.isFolder (name :: key) then none
        else some (files.put (name :: key) (.file bytes))

/-- Adds the folders that lead to a key. -/
def makeFolders (files : Files) : List String → Files
  | [] => files
  | name :: outer =>
    let files := files.makeFolders outer
    if files.isFolder (name :: outer) then files else files.put (name :: outer) .folder

/-- A current folder with nothing in it. -/
def start (home : List String) : Files := makeFolders { home := home } home

/-- The key of a path that need not lead through folders that are there. -/
def keyOf (files : Files) (path : String) : List String :=
  (path.splitOn "/").foldl (fun key name =>
    if name == "" || name == "." then key
    else if name == ".." then key.tail
    else name :: key) (files.base path)

def addFolder (files : Files) (path : String) : Files := files.makeFolders (files.keyOf path)

/-- Adds a file with the folders around it. -/
def addFile (files : Files) (path : String) (bytes : ByteArray) : Files :=
  let key := files.keyOf path
  (files.makeFolders key.tail).put key (.file bytes)

/-- The texts in a current folder below the root; a path that ends in a slash is an empty folder. -/
def ofList (texts : List (String × String)) : Files :=
  texts.foldl (fun files (path, text) =>
    if path.endsWith "/" then files.addFolder path else files.addFile path text.toUTF8)
    (start ["home"])

end Files
end Adhoc
