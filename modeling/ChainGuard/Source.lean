import ChainGuard.Text
import ChainGuard.Tree

/-!
# Sources

A source is a text together with its syntax tree. The tree counts UTF-8 bytes and everything else
counts characters, so a source converts between the two.

* `byteOffset` and `charOffset` convert positions. For a text of ASCII characters both are the
  identity, also out of range. Otherwise a negative position counts from the end, a position past
  the end means the end, and a byte inside a character belongs to that character.
* `tokenAt?` finds the smallest node at a character position.
-/

namespace ChainGuard

/-- A text and its syntax tree. -/
structure Source where
  text : Text
  root : Tree

namespace Source

/-! ## Positions -/

def byteOffset (s : Source) (offset : Int) : Int :=
  if s.text.isAscii then offset
  else Text.utf8Length (s.text.take (Text.cutEnd s.text.length offset))

def charOffset (s : Source) (byte : Int) : Int :=
  if s.text.isAscii then byte
  else Text.wholeChars s.text (Text.cutEnd (Text.utf8Length s.text) byte)

/-- The character position of a byte position counted from the start. -/
def charAt (s : Source) (byte : Nat) : Nat :=
  if s.text.isAscii then byte else Text.wholeChars s.text byte

def startOf (s : Source) (t : Tree) : Nat :=
  s.charAt t.start

/-- The character position at which a node ends. -/
def stopOf (s : Source) (t : Tree) : Nat :=
  s.charAt t.stop

def textOf (s : Source) (t : Tree) : Text :=
  s.text.slice (s.startOf t) (s.stopOf t)

/-! ## Tokens -/

def deepestAt (s : Source) (byte : Nat) : Focus :=
  Focus.descend byte [] s.root

/-- The smallest node that starts at or spans a character position. Where only the root is there,
the node to the left is taken, as at the very end of the text. A position where only the root is has
no token. -/
def tokenAt? (s : Source) (offset : Int) : Option Focus :=
  if offset < 0 ∨ s.text.length < offset then none
  else
    let byte := (s.byteOffset offset).toNat
    let here := s.deepestAt byte
    if !here.isRoot then some here
    else if byte = 0 then none
    else
      let left := s.deepestAt (byte - 1)
      if left.isRoot then none else some left

end Source

end ChainGuard
