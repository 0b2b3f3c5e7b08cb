import ChainGuard.Text

/-!
# UTF-8

Texts as bytes. `encode` writes the shortest form of every character. `decode` reads that form back
and nothing else: no longer forms, no surrogates, nothing above the last code point.

A fault names the first byte of the broken form, how many bytes of it were sound so far, and what is
wrong with it.
-/

namespace ChainGuard

abbrev Bytes := List UInt8

/-- What breaks a form. -/
inductive Utf8Fault where
  /-- No form starts with this byte. -/
  | badStart
  /-- The form goes on with a wrong byte. -/
  | badContinuation
  /-- The bytes end within the form. -/
  | truncated
  deriving DecidableEq, Repr

/-- Why bytes are no text: the fault, its position, the number of bytes it spans, and its first
byte. -/
structure Utf8Error where
  fault : Utf8Fault
  position : Nat
  extent : Nat
  byte : UInt8
  deriving DecidableEq, Repr

namespace Utf8

/-! ## Encoding -/

/-- A continuation byte with the lowest six bits of `n`. -/
def continuation (n : Nat) : UInt8 :=
  UInt8.ofNat (0x80 + n % 0x40)

def encodePoint (n : Nat) : Bytes :=
  if n < 0x80 then [UInt8.ofNat n]
  else if n < 0x800 then [UInt8.ofNat (0xc0 + n / 0x40), continuation n]
  else if n < 0x10000 then
    [UInt8.ofNat (0xe0 + n / 0x1000), continuation (n / 0x40), continuation n]
  else
    [UInt8.ofNat (0xf0 + n / 0x40000), continuation (n / 0x1000), continuation (n / 0x40),
      continuation n]

def encode (t : Text) : Bytes :=
  t.flatMap fun c => encodePoint c.toNat

/-! ## Decoding -/

/-- How a form goes on after its first byte. -/
structure Lead where
  /-- The bits that the first byte holds. -/
  bits : Nat
  /-- The range of the second byte. -/
  low : Nat := 0x80
  high : Nat := 0xbf
  /-- The number of bytes after the first. -/
  more : Nat
  deriving DecidableEq

/-- The form that a first byte starts. -/
def lead? (b : Nat) : Option Lead :=
  if b < 0x80 then some { bits := b, more := 0 }
  else if b < 0xc2 then none
  else if b < 0xe0 then some { bits := b - 0xc0, more := 1 }
  else if b = 0xe0 then some { bits := 0, low := 0xa0, more := 2 }
  else if b = 0xed then some { bits := 0xd, high := 0x9f, more := 2 }
  else if b < 0xf0 then some { bits := b - 0xe0, more := 2 }
  else if b = 0xf0 then some { bits := 0, low := 0x90, more := 3 }
  else if b < 0xf4 then some { bits := b - 0xf0, more := 3 }
  else if b = 0xf4 then some { bits := 4, high := 0x8f, more := 3 }
  else none

/-- Read `more` further bytes of a form, the next of which lies between `low` and `high`. The result
is the code point and the bytes after it, or the number of sound bytes and the fault. -/
def follow : (more : Nat) → (low high : Nat) → (bits sound : Nat) → Bytes →
    Except (Utf8Fault × Nat) (Nat × Bytes)
  | 0, _, _, bits, _, rest => .ok (bits, rest)
  | _ + 1, _, _, _, sound, [] => .error (.truncated, sound)
  | more + 1, low, high, bits, sound, b :: rest =>
    if low ≤ b.toNat ∧ b.toNat ≤ high then
      follow more 0x80 0xbf (bits * 0x40 + (b.toNat - 0x80)) (sound + 1) rest
    else .error (.badContinuation, sound)

/-- Read the characters of at most `fuel` forms, the first of which stands at `position`. -/
def decodeFrom : (fuel : Nat) → (position : Nat) → Bytes → Except Utf8Error Text
  | _, _, [] => .ok []
  | 0, _, _ => .ok []
  | fuel + 1, position, b :: rest =>
    match lead? b.toNat with
    | none => .error ⟨.badStart, position, 1, b⟩
    | some lead =>
      match follow lead.more lead.low lead.high lead.bits 1 rest with
      | .error (fault, extent) => .error ⟨fault, position, extent, b⟩
      | .ok (n, tail) => (decodeFrom fuel (position + lead.more + 1) tail).map (Char.ofNat n :: ·)

/-- Read a text. Every form has at least one byte, so there are no more forms than bytes. -/
def decode (bytes : Bytes) : Except Utf8Error Text :=
  decodeFrom bytes.length 0 bytes

end Utf8

namespace Utf8Error

def reason : Utf8Fault → String
  | .badStart => "invalid start byte"
  | .badContinuation => "invalid continuation byte"
  | .truncated => "unexpected end of data"

def message (e : Utf8Error) : String :=
  let place :=
    if e.extent = 1 then
      s!"byte 0x{String.ofList (Nat.toDigits 16 e.byte.toNat)} in position {e.position}"
    else s!"bytes in position {e.position}-{e.position + e.extent - 1}"
  s!"'utf-8' codec can't decode {place}: {reason e.fault}"

end Utf8Error

end ChainGuard
