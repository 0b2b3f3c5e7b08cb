import ChainGuard.JsonValue
import ChainGuard.Text.Quoted

/-!
# Writing JSON

A value is written over several lines, every level indented by two more blanks, and in ASCII only:
every other character is written as one or two UTF-16 escapes.
-/

namespace ChainGuard.JsonValue

def unitEscape (n : Nat) : Text :=
  '\\' :: 'u' :: Text.hex 4 n

/-- A character inside a JSON string. -/
def escapeChar (c : Char) : Text :=
  if c = '"' then ['\\', '"']
  else if c = '\\' then ['\\', '\\']
  else if c = '\n' then ['\\', 'n']
  else if c = '\r' then ['\\', 'r']
  else if c = '\t' then ['\\', 't']
  else if c = '\x0c' then ['\\', 'f']
  else if c = '\x08' then ['\\', 'b']
  else if 0x20 ≤ c.toNat ∧ c.toNat ≤ 0x7e then [c]
  else if c.toNat < 0x10000 then unitEscape c.toNat
  else
    let n := c.toNat - 0x10000
    unitEscape (0xd800 + n / 0x400) ++ unitEscape (0xdc00 + n % 0x400)

def renderText (s : String) : Text :=
  '"' :: s.toList.flatMap escapeChar ++ ['"']

def newLine (level : Nat) : Text :=
  '\n' :: List.replicate (2 * level) ' '

mutual

/-- A value whose members stand on the given level. -/
def renderAt (level : Nat) : JsonValue → Text
  | .null => "null".toList
  | .bool b => if b then "true".toList else "false".toList
  | .integer i => (toString i).toList
  | .real spelling => spelling.toList
  | .text s => renderText s
  | .array [] => ['[', ']']
  | .array (item :: items) =>
    '[' :: newLine (level + 1) ++ renderAt (level + 1) item ++ renderItems (level + 1) items ++
      newLine level ++ [']']
  | .object [] => ['{', '}']
  | .object ((key, value) :: members) =>
    '{' :: newLine (level + 1) ++ renderText key ++ ": ".toList ++ renderAt (level + 1) value ++
      renderMembers (level + 1) members ++ newLine level ++ ['}']

def renderItems (level : Nat) : List JsonValue → Text
  | [] => []
  | item :: items => ',' :: newLine level ++ renderAt level item ++ renderItems level items

def renderMembers (level : Nat) : List (String × JsonValue) → Text
  | [] => []
  | (key, value) :: members =>
    ',' :: newLine level ++ renderText key ++ ": ".toList ++ renderAt level value ++
      renderMembers level members

end

def render (v : JsonValue) : Text :=
  renderAt 0 v

end ChainGuard.JsonValue
