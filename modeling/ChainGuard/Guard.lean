import ChainGuard.Chain
import ChainGuard.Edit
import ChainGuard.Source

/-!
# Guards

Guarding an access inserts the marker `?.`: `a.b` becomes `a?.b`, `a[k]` becomes `a?.[k]`, and `f()`
becomes `f?.()`. `guard?` gives the smallest edit that does so, or nothing where the access is
better left to a human:

* it is written to, lies on a template tag, or is applied to `super`;
* its base uses a non-null assertion, which is deliberate;
* it is optional already;
* it is an invocation under `new`, or of something other than a name or an access.

`fix?` goes from a diagnostic to its edit.
-/

namespace ChainGuard

def invokeCode : Int := 2722

namespace Focus

/-- The node to guard for a diagnostic reported at a node. Invoking a missing value asks for an
optional call, everything else for an optional access. -/
def target? (f : Focus) (code : Int) : Option Focus :=
  if code = invokeCode then f.enclosingCall? else f.nullishAccess?

end Focus

namespace Source

/-! ## One edit per shape -/

/-- The edit from `a.b` to `a?.b`. Of several dots between base and property, the one nearest to the
property is the access. -/
def guardMember? (s : Source) (t base : Tree) : Option Edit :=
  match t.field? .property with
  | none => none
  | some property =>
    let from_ := s.stopOf base
    match Text.last? '.' (s.text.slice from_ (s.startOf property)) with
    | none => none
    | some i =>
      let dot := from_ + i
      if 0 < dot ∧ s.text.slice (dot - 1) (dot + 1) = Text.marker then none
      else some (Edit.replaceByMarker dot)

/-- The edit from `a[k]` to `a?.[k]`. -/
def guardIndexed? (s : Source) (t base : Tree) : Option Edit :=
  match s.text.firstFrom? '[' (s.stopOf base) with
  | none => none
  | some bracket =>
    if s.stopOf t ≤ bracket then none
    else if s.text.slice (bracket - 2) bracket = Text.marker then none
    else some (Edit.insertMarker bracket)

/-- What may be invoked optionally: a name or an access. -/
def isPlainCallee (callee : Tree) : Bool :=
  match callee.kind with
  | .identifier | .memberExpression | .subscriptExpression => true
  | _ => false

/-- The edit from `f()` to `f?.()`. -/
def guardInvocation? (s : Source) (f : Focus) (callee : Tree) : Option Edit :=
  if (f.parent?.any fun p => p.here.kind == .newExpression) then none
  else if !isPlainCallee callee then none
  else
    let pos := s.stopOf callee
    if Text.hasMarker (s.text.slice (pos - 2) (pos + 2)) then none
    else some (Edit.insertMarker pos)

/-! ## The edit for a node -/

/-- The edit that guards a node, unless the node is to be left alone. -/
def guard? (s : Source) (f : Focus) : Option Edit :=
  match f.here.base? with
  | none => none
  | some base =>
    if f.isWritten || base.asserts || base.kind == .superKeyword || f.isTemplateTag then none
    else
      match f.here.shape with
      | .memberAccess => s.guardMember? f.here base
      | .indexedAccess => s.guardIndexed? f.here base
      | .invocation => s.guardInvocation? f base
      | .other => none

/-- The edit for a diagnostic with the given code at the given position. -/
def fix? (s : Source) (code offset : Int) : Option Edit :=
  ((s.tokenAt? offset).bind (·.target? code)).bind s.guard?

end Source

end ChainGuard
