import Adhoc.Json.Read
import Adhoc.Version

namespace Adhoc.Version

def ofDocument (d : Document) : Except ReadError Version := do
  let n ← d.readInt 0 255
  match ofNat? n.toNat with
  | some v => pure v
  | none => throw .misfit

def ofJsonText (text : String) : Except ReadError Version := Document.readText ofDocument text

end Adhoc.Version
