import ChainGuard.Text

/-!
# Patterns

A pattern is looked for in a text from left to right. Where several ways to match exist, the first
one counts: `either` tries its first pattern first, and a greedy repetition goes on as long as it
can, any other one as briefly as it can.

A pattern marks the parts of a text that matter. `Pattern.spans` gives the marked spans of all
matches, none of which overlaps another.
-/

namespace ChainGuard

/-- A part of a text: the positions from `start` up to `stop`. -/
structure Span where
  start : Nat
  stop : Nat
  deriving DecidableEq

/-- A pattern. -/
inductive Pattern where
  /-- Nothing. -/
  | nothing
  /-- One character of a kind. -/
  | one (kind : Char → Bool)
  /-- Two patterns, one after the other. -/
  | seq (first second : Pattern)
  /-- One of two patterns. -/
  | either (first second : Pattern)
  /-- A pattern `least` times, and then up to `more` times more, or any number of times. -/
  | repeated (greedy : Bool) (least : Nat) (more : Option Nat) (body : Pattern)
  /-- A pattern whose match is marked. -/
  | mark (body : Pattern)
  /-- A condition on the character before and the character behind. -/
  | between (condition : Option Char → Option Char → Bool)

namespace Pattern

/-! ## Matching -/

/-- A place in a text: the character before it, what follows it, its position, and the spans marked
so far. -/
structure Place where
  before : Option Char
  rest : Text
  position : Nat
  marked : List Span := []

abbrev Next := Place → Option Place

/-- Take a step `least` times, and then up to `more` times more. -/
def iterate (greedy : Bool) (step : Place → Next → Option Place) :
    (least more : Nat) → Place → Next → Option Place
  | least + 1, more, p, next => step p fun q => iterate greedy step least more q next
  | 0, 0, p, next => next p
  | 0, more + 1, p, next =>
    let again (_ : Unit) : Option Place := step p fun q => iterate greedy step 0 more q next
    if greedy then (again ()).orElse fun _ => next p else (next p).orElse again

/-- Match a pattern and what follows it. A step takes at least one character, so no repetition is
longer than the rest of the text. -/
def run : Pattern → Place → Next → Option Place
  | nothing, p, next => next p
  | one kind, p, next =>
    match p.rest with
    | [] => none
    | c :: rest =>
      if kind c then
        next { p with before := some c, rest := rest, position := p.position + 1 }
      else none
  | seq first second, p, next => first.run p fun q => second.run q next
  | either first second, p, next => (first.run p next).orElse fun _ => second.run p next
  | repeated greedy least more body, p, next =>
    iterate greedy body.run least (more.getD p.rest.length) p next
  | mark body, p, next =>
    body.run p fun q => next { q with marked := ⟨p.position, q.position⟩ :: q.marked }
  | between condition, p, next => if condition p.before p.rest.head? then next p else none

/-- The marked spans of the matches in a text, of which the first `skip` characters belong to a
match already. Empty spans do not count. -/
def spansFrom (pattern : Pattern) : (skip : Nat) → (before : Option Char) → (position : Nat) →
    Text → List Span
  | _, _, _, [] => []
  | skip + 1, _, position, c :: rest => spansFrom pattern skip (some c) (position + 1) rest
  | 0, before, position, c :: rest =>
    match pattern.run { before, rest := c :: rest, position } some with
    | none => spansFrom pattern 0 (some c) (position + 1) rest
    | some p =>
      p.marked.filter (fun span => span.start < span.stop) ++
        spansFrom pattern (p.position - position - 1) (some c) (position + 1) rest

def spans (pattern : Pattern) (t : Text) : List Span :=
  spansFrom pattern 0 none 0 t

/-! ## Composing -/

def all (patterns : List Pattern) : Pattern :=
  patterns.foldr seq nothing

def any : List Pattern → Pattern
  | [] => between fun _ _ => false
  | [pattern] => pattern
  | pattern :: rest => either pattern (any rest)

def char (c : Char) : Pattern :=
  one (· == c)

def text (s : String) : Pattern :=
  all (s.toList.map char)

def oneOf (s : String) : Pattern :=
  one s.toList.contains

def optional (body : Pattern) : Pattern :=
  repeated true 0 (some 1) body

/-- A pattern any number of times, as often as possible. -/
def star (body : Pattern) : Pattern :=
  repeated true 0 none body

/-- A pattern at least once, as often as possible. -/
def plus (body : Pattern) : Pattern :=
  repeated true 1 none body

/-- A pattern any number of times, as seldom as possible. -/
def lazyStar (body : Pattern) : Pattern :=
  repeated false 0 none body

/-- A pattern at least once, as seldom as possible. -/
def lazyPlus (body : Pattern) : Pattern :=
  repeated false 1 none body

/-- A pattern from `least` up to `most` times, as often as possible. -/
def times (least most : Nat) (body : Pattern) : Pattern :=
  repeated true least (some (most - least)) body

/-- A pattern exactly `n` times. -/
def exactly (n : Nat) (body : Pattern) : Pattern :=
  times n n body

end Pattern

end ChainGuard
