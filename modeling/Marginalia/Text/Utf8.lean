import Marginalia.Text

/-!
# UTF-8

Bytes of a file as text. Each longest stretch of bytes that begins a character but does not go on as
one, and each byte that begins none, becomes one replacement character. A byte order mark is a
character like any other.
-/

namespace Marginalia.Utf8

/-- A character of which some bytes are still missing. -/
structure Pending where
  /-- The bytes that are missing after the next one. -/
  further : Nat
  /-- The value of the bytes that were read. -/
  code : Nat
  /-- The least next byte. -/
  least : UInt8
  /-- The greatest next byte. -/
  greatest : UInt8
deriving DecidableEq, Repr

/-- What a byte at the start of a character leads to: a text at once, or a character with missing
bytes. The bounds on the second byte exclude long forms, surrogates and numbers beyond the last
character. -/
def lead (byte : UInt8) : Text ⊕ Pending :=
  let code := byte.toNat
  if byte < 0x80 then .inl [code.toUInt16]
  else if byte < 0xC2 then .inl [0xFFFD]
  else if byte < 0xE0 then .inr ⟨0, code - 0xC0, 0x80, 0xBF⟩
  else if byte < 0xF0 then
    .inr ⟨1, code - 0xE0, if byte = 0xE0 then 0xA0 else 0x80, if byte = 0xED then 0x9F else 0xBF⟩
  else if byte < 0xF5 then
    .inr ⟨2, code - 0xF0, if byte = 0xF0 then 0x90 else 0x80, if byte = 0xF4 then 0x8F else 0xBF⟩
  else .inl [0xFFFD]

/-- The text of the bytes that follow, given what a byte has led to. -/
def decodeAfter (state : Text ⊕ Pending) (bytes : List UInt8) : Text :=
  match state, bytes with
  | .inl units, [] => units
  | .inr _, [] => [0xFFFD]
  | .inl units, byte :: rest => units ++ decodeAfter (lead byte) rest
  | .inr pending, byte :: rest =>
    if pending.least ≤ byte ∧ byte ≤ pending.greatest then
      let code := 0x40 * pending.code + (byte.toNat - 0x80)
      match pending.further with
      | 0 => decodeAfter (.inl (Text.ofChar (Char.ofNat code))) rest
      | further + 1 => decodeAfter (.inr ⟨further, code, 0x80, 0xBF⟩) rest
    else
      0xFFFD :: decodeAfter (lead byte) rest

/-- The text of some bytes. -/
def decode (bytes : List UInt8) : Text := decodeAfter (.inl []) bytes

end Marginalia.Utf8
