import ChainGuard.Text

namespace ChainGuard

/-- The grammar that a source is parsed with: with markup, or without. -/
inductive Grammar where
  | typescript
  | tsx
  deriving DecidableEq, Repr

namespace Grammar

def markupEndings : List Text :=
  [['.', 't', 's', 'x'], ['.', 'j', 's', 'x']]

def ofFileName (name : Text) : Grammar :=
  if markupEndings.any (·.isSuffixOf name) then tsx else typescript

end Grammar

end ChainGuard
