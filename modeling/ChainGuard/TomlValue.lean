import ChainGuard.Binary64
import ChainGuard.Dict

namespace ChainGuard

/-- A TOML value. Tables keep the order of their keys. Dates and times keep their spelling only. -/
inductive TomlValue where
  | text (value : String)
  | integer (value : Int)
  | float (value : Binary64)
  | bool (value : Bool)
  | moment (spelling : String)
  | array (items : List TomlValue)
  | table (entries : List (String × TomlValue))
  deriving Repr, Inhabited

abbrev TomlTable := Dict TomlValue

namespace TomlTable

/-- Change the table behind a path of keys, with the tables on the way made as needed. A key that
holds an array leads to the last table of the array, where `throughArrays` says so. A key that holds
anything else leads nowhere. -/
def change (throughArrays : Bool) (f : TomlTable → Option TomlTable) :
    List String → TomlTable → Option TomlTable
  | [], t => f t
  | k :: ks, t =>
    match t.get? k with
    | none => (change throughArrays f ks []).map fun sub => t.set k (.table sub)
    | some (.table sub) => (change throughArrays f ks sub).map fun sub => t.set k (.table sub)
    | some (.array items) =>
      if throughArrays then
        match items.getLast? with
        | some (.table sub) =>
          (change throughArrays f ks sub).map fun sub =>
            t.set k (.array (items.dropLast ++ [.table sub]))
        | _ => none
      else none
    | some _ => none

/-- Set a key that has no value yet. -/
def setNew (key : String) (value : TomlValue) (t : TomlTable) : Option TomlTable :=
  if t.has key then none else some (t.set key value)

/-- Append an empty table to the array behind a key, which is made as needed. -/
def appendTable (key : String) (t : TomlTable) : Option TomlTable :=
  match t.get? key with
  | none => some (t.set key (.array [.table []]))
  | some (.array items) => some (t.set key (.array (items ++ [.table []])))
  | some _ => none

end TomlTable

end ChainGuard
