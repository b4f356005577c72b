import Adhoc.Json.Read
import Adhoc.Tree.Reader
import Adhoc.Tree.Writer

namespace Adhoc

/-- How deep containers may nest inside a statement; the program, its body and the statement itself
are three more. -/
def statementRoom : Nat := 124

def Loc.ofEntries (line column : Option UInt32) :
    List (Option String × Document) → Option Break → Except ReadError Loc
  | [], cut => do
    Document.close cut
    match line with
    | some line => pure ⟨line, column.getD 0⟩
    | none => throw .misfit
  | (none, _) :: _, _ => .error .malformed
  | (some key, value) :: rest, cut =>
    match key with
    | "line" => do
      if line.isSome then throw .misfit
      let n ← value.readInt 0 0xFFFFFFFF
      ofEntries (some (UInt32.ofNat n.toNat)) column rest cut
    | "column" => do
      if column.isSome then throw .misfit
      let n ← value.readInt 0 0xFFFFFFFF
      ofEntries line (some (UInt32.ofNat n.toNat)) rest cut
    | _ => do
      value.ignore
      ofEntries line column rest cut

/-- The items of an array that gives fields in order end with the last of the fields. -/
def Document.closeItems (rest : List Document) (cut : Option Break) : Except ReadError Unit :=
  if rest.isEmpty then Document.close cut else .error .malformed

def Loc.ofDocument : Document → Except ReadError Loc
  | .object fields cut => Loc.ofEntries none none fields cut
  | .array [] cut => do
    Document.close cut
    throw .misfit
  | .array [line] cut => do
    let line ← line.readInt 0 0xFFFFFFFF
    Document.close cut
    pure ⟨UInt32.ofNat line.toNat, 0⟩
  | .array (line :: column :: rest) cut => do
    let line ← line.readInt 0 0xFFFFFFFF
    let column ← column.readInt 0 0xFFFFFFFF
    Document.closeItems rest cut
    pure ⟨UInt32.ofNat line.toNat, UInt32.ofNat column.toNat⟩
  | d => .error d.mismatch

/-- The fields of a statement. Its position is read at once, so that a second one ends the reading. -/
def Stmt.fieldsOfEntries (located : Bool) :
    List (Option String × Document) → Option Break → Except ReadError (List (String × Json))
  | [], cut => do
    Document.close cut
    pure []
  | (none, _) :: _, _ => .error .malformed
  | (some key, value) :: rest, cut =>
    if key == "loc" then do
      if located then .error .misfit
      let loc ← Loc.ofDocument value
      let fields ← fieldsOfEntries true rest cut
      pure ((key, loc.toJson) :: fields)
    else do
      let value ← value.toValue statementRoom
      let fields ← fieldsOfEntries located rest cut
      pure ((key, value) :: fields)

def Stmt.ofDocument : Document → Except ReadError Stmt
  | .object fields cut => do
    let fields ← Stmt.fieldsOfEntries false fields cut
    match Stmt.ofJson? (.object fields) with
    | some s => .ok s
    | none => .error .misfit
  | d => .error d.mismatch

def stmtsOfDocument : Document → Except ReadError (List Stmt)
  | .array items cut => do
    let stmts ← items.mapM Stmt.ofDocument
    Document.close cut
    pure stmts
  | d => .error d.mismatch

namespace Program

def ofEntries (body : Option (List Stmt)) :
    List (Option String × Document) → Option Break → Except ReadError Program
  | [], cut => do
    Document.close cut
    pure ⟨body.getD []⟩
  | (none, _) :: _, _ => .error .malformed
  | (some key, value) :: rest, cut =>
    match key with
    | "body" => do
      if body.isSome then throw .misfit
      let body ← stmtsOfDocument value
      ofEntries (some body) rest cut
    | _ => do
      value.ignore
      ofEntries body rest cut

def ofDocument : Document → Except ReadError Program
  | .object fields cut => ofEntries none fields cut
  | .array [] cut => do
    Document.close cut
    pure ⟨[]⟩
  | .array (body :: rest) cut => do
    let body ← stmtsOfDocument body
    Document.closeItems rest cut
    pure ⟨body⟩
  | d => .error d.mismatch

def ofText (text : String) : Except ReadError Program := Document.readText ofDocument text

end Program
end Adhoc
