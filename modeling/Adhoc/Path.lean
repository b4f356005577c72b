namespace Adhoc.Path

def isAbsolute (path : String) : Bool := path.startsWith "/"

/-- `p` seen from the folder `base`. -/
def join (base p : String) : String :=
  if isAbsolute p || base.isEmpty then p
  else if base.endsWith "/" then base ++ p
  else base ++ "/" ++ p

/-- The prefix and the names of the body. -/
def split (path : String) : String × List String :=
  match path.toList with
  | '/' :: rest => ("/", (String.ofList rest).splitOn "/")
  | ['.'] => (".", [])
  | '.' :: '/' :: rest => (".", ("/" ++ String.ofList rest).splitOn "/")
  | _ => ("", path.splitOn "/")

def isBlank (name : String) : Bool := name.isEmpty || name == "."

/-- Without the names at the end that mean nothing. -/
def trim (names : List String) : List String := (names.reverse.dropWhile isBlank).reverse

/-- The last name and what stands before it. -/
def unsnoc? (path : String) : Option (String × String) :=
  let (root, names) := split path
  match (trim names).reverse with
  | [] => none
  | name :: rest => some (root ++ "/".intercalate (trim rest.reverse), name)

/-- The folder that a path lies in; the root and the empty path lie in none. -/
def parent? (path : String) : Option String :=
  match unsnoc? path with
  | some (folder, _) => some folder
  | none => if (split path).1 == "." then some "" else none

def parent (path : String) : String := (parent? path).getD ""

/-- The last name with the text before it; `..` is not the name of a file. -/
def fileName? (path : String) : Option (String × String) :=
  match unsnoc? path with
  | none | some (_, "..") => none
  | some (_, name) =>
    let (root, names) := split path
    let folders := (trim names).dropLast
    some (root ++ String.join (folders.map (· ++ "/")), name)

/-- A name before and after its last dot. A dot in front is part of the name. -/
def splitExtension (name : String) : String × Option String :=
  match (name.splitOn ".").reverse with
  | [] | [_] | [_, ""] => (name, none)
  | extension :: stem => (".".intercalate stem.reverse, some extension)

def extension? (path : String) : Option String :=
  (fileName? path).bind fun (_, name) => (splitExtension name).2

/-- The path without its extension; the dot before it stays. -/
def dropExtension (path : String) : String :=
  match extension? path with
  | none => path
  | some extension => String.ofList (path.toList.take (path.length - extension.length))

/-- Puts another extension in place of the old one, which is dropped first. If what is left names no
file, as with `..` from `..txt`, it gets no extension. -/
def withExtension (path extension : String) : String :=
  let path := dropExtension path
  match fileName? path with
  | none => path
  | some (before, name) => before ++ (splitExtension name).1 ++ "." ++ extension

end Adhoc.Path
