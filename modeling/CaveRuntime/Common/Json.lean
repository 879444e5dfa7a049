import CaveRuntime.Common.Table
import CaveRuntime.Common.Text

/-!
# JSON values

`serde_json::Value`, as far as handlers take it apart or build it.
-/

open Text Utf8

/-- `Value`; a number that is not an integer is given by its bits. -/
inductive Json where
  | null
  | bool (b : Bool)
  | number (n : ℤ)
  | double (bits : UInt64)
  | string (s : Bytes)
  | array (items : List Json)
  | object (fields : List (Bytes × Json))

namespace Json

def get (key : String) : Json → Option Json
  | .object fields => fields.lookup (word key)
  | _ => none

/-- An object with the given fields. -/
def obj (fields : List (String × Json)) : Json := .object (fields.map fun f => (word f.1, f.2))

lemma get_obj_head {key : String} {value : Json} {fields : List (String × Json)} :
    (obj ((key, value) :: fields)).get key = some value := List.lookup_cons_self

/-- A map as an object. -/
def ofTable (t : Table Bytes Json) : Json := .object (t.entries.map fun e => (e.1, e.2))

end Json
