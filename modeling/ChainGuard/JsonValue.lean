import ChainGuard.Dict

namespace ChainGuard

/-- A JSON value. Objects keep the order of their members. A number that is no integer keeps its
spelling only. -/
inductive JsonValue where
  | null
  | bool (value : Bool)
  | integer (value : Int)
  | real (spelling : String)
  | text (value : String)
  | array (items : List JsonValue)
  | object (members : List (String × JsonValue))
  deriving Repr, Inhabited

end ChainGuard
