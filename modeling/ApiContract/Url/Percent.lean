import ApiContract.Text.Utf8
/-!
# Percent encoding

An escape is a percent sign and two hexadecimal digits and stands for a byte. A percent sign that
starts no escape stands for itself.
-/

namespace ApiContract

namespace Percent

/-- The value of a hexadecimal digit, given as a byte. -/
def hexValue? (b : UInt8) : Option Nat :=
  let n := b.toNat
  if 48 ≤ n && n ≤ 57 then some (n - 48)
  else if 65 ≤ n && n ≤ 70 then some (n - 55)
  else if 97 ≤ n && n ≤ 102 then some (n - 87)
  else none

/-- The byte of an escape, from the two bytes after the percent sign. -/
def escaped? (a b : UInt8) : Option UInt8 :=
  match hexValue? a, hexValue? b with
  | some x, some y => some (UInt8.ofNat (16 * x + y))
  | _, _ => none

/-- Undo the escapes. -/
def decode : Bytes → Bytes
  | [] => []
  | [a] => [a]
  | [a, b] => [a, b]
  | a :: b :: c :: rest =>
    if a = 37 then
      match escaped? b c with
      | some x => x :: decode rest
      | none => a :: decode (b :: c :: rest)
    else a :: decode (b :: c :: rest)

/-- A hexadecimal digit in upper case. -/
def hexDigit (n : Nat) : Char := (Nat.digitChar n).toUpper

/-- The escape of a byte. -/
def encodeByte (b : UInt8) : List Char := ['%', hexDigit (b.toNat / 16), hexDigit (b.toNat % 16)]

/-- Write a character as it is, or its bytes as escapes when it is in the set. -/
def encodeChar (set : Char → Bool) (c : Char) : List Char :=
  if set c then (String.utf8EncodeChar c).flatMap encodeByte else [c]

/-- Undo the escapes of a text; when the bytes are no valid text the escapes stay. -/
def decodeText (cs : List Char) : List Char := (Utf8.decode? (decode (Utf8.encode cs))).getD cs

end Percent

end ApiContract
