import Adhoc.Tree.Writer

namespace Adhoc

/-- The path of a node that includes a file. -/
def includedPath? (fields : List (String × Json)) : Option String :=
  if fields.lookup "type" matches some (.string "IncludeStatement") then
    (fields.lookup "path").bind Json.string?
  else none

mutual

def Json.includePaths : Json → List String
  | .array items => itemsIncludePaths items
  | .object fields => (includedPath? fields).toList ++ fieldsIncludePaths fields
  | _ => []

def itemsIncludePaths : List Json → List String
  | [] => []
  | item :: rest => item.includePaths ++ itemsIncludePaths rest

def fieldsIncludePaths : List (String × Json) → List String
  | [] => []
  | field :: rest => fieldIncludePaths field ++ fieldsIncludePaths rest

def fieldIncludePaths : String × Json → List String
  | (_, value) => value.includePaths

end

/-- The paths in include statements anywhere in the program, as written. -/
def Program.includePaths (p : Program) : List String := p.toJson.includePaths

end Adhoc
