/-!
# UTF-8

Texts as bytes and back. The reader takes one byte at a time and holds the character it is in. It
tells of each character and of each run of bytes that is the start of none; a lossy reading puts
one replacement character for such a run, a strict reading refuses it.
-/

namespace ApiContract

/-- A sequence of bytes. -/
abbrev Bytes := List UInt8

namespace Utf8

/-- The bytes of a text. -/
def encode (cs : List Char) : Bytes := cs.flatMap String.utf8EncodeChar

/-- A character that is not complete: its bits so far, the bytes still owed, and the bounds of the
next one. -/
structure Pending where
  value : Nat
  owed : Nat
  low : Nat
  high : Nat
deriving DecidableEq, Repr

/-- Whether a byte lies between two bounds. -/
def within (low high : Nat) (b : UInt8) : Bool := low ≤ b.toNat && b.toNat ≤ high

/-- What the first byte of a longer character promises. -/
def lead? (b : UInt8) : Option Pending :=
  let n := b.toNat
  if within 0xC2 0xDF b then some ⟨n % 32, 1, 0x80, 0xBF⟩
  else if n = 0xE0 then some ⟨0, 2, 0xA0, 0xBF⟩
  else if n = 0xED then some ⟨13, 2, 0x80, 0x9F⟩
  else if within 0xE1 0xEF b then some ⟨n % 16, 2, 0x80, 0xBF⟩
  else if n = 0xF0 then some ⟨0, 3, 0x90, 0xBF⟩
  else if within 0xF1 0xF3 b then some ⟨n % 8, 3, 0x80, 0xBF⟩
  else if n = 0xF4 then some ⟨4, 3, 0x80, 0x8F⟩
  else none

/-- A byte between characters: what it completes, if anything, and what is then pending. -/
def start (b : UInt8) : List (Option Char) × Option Pending :=
  if b.toNat < 0x80 then ([some (Char.ofNat b.toNat)], none)
  else match lead? b with
    | some p => ([], some p)
    | none => ([none], none)

/-- A byte inside a character: one within the bounds continues it, any other ends an invalid run
and starts anew. -/
def continued (p : Pending) (b : UInt8) : List (Option Char) × Option Pending :=
  if within p.low p.high b then
    let value := 64 * p.value + b.toNat % 64
    if p.owed ≤ 1 then ([some (Char.ofNat value)], none)
    else ([], some ⟨value, p.owed - 1, 0x80, 0xBF⟩)
  else
    let (told, next) := start b
    (none :: told, next)

/-- The characters of a byte sequence, and `none` for each invalid run. -/
def read : Option Pending → Bytes → List (Option Char)
  | none, [] => []
  | some _, [] => [none]
  | none, b :: bs => (start b).1 ++ read (start b).2 bs
  | some p, b :: bs => (continued p b).1 ++ read (continued p b).2 bs

/-- The text of a byte sequence, with a replacement character for each invalid run. -/
def decodeLossy (bs : Bytes) : List Char := (read none bs).map (·.getD '\uFFFD')

/-- The text of a byte sequence, if it is valid. -/
def decode? (bs : Bytes) : Option (List Char) := (read none bs).mapM id

end Utf8

end ApiContract
