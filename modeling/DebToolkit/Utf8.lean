import DebToolkit.Text

/-!
# UTF-8

`std::str::from_utf8`: a byte at a time, with the range that the next byte must lie in. The ranges behind
the first byte leave out the encodings that are too long, the surrogates and what lies above the last
character.
-/

namespace Text

/-- What has been read, and what is still needed of the character that is being read. -/
structure Utf8State where
  chars : Str
  needed : ℕ
  value : ℕ
  lower : ℕ
  upper : ℕ

def Utf8State.between (chars : Str) : Utf8State := ⟨chars, 0, 0, 0x80, 0xBF⟩

/-- The first byte of a character. -/
def utf8First (chars : Str) (b : ℕ) : Option Utf8State :=
  if b < 0x80 then some (.between (chars ++ [Char.ofNat b]))
  else if 0xC2 ≤ b ∧ b ≤ 0xDF then some ⟨chars, 1, b - 0xC0, 0x80, 0xBF⟩
  else if 0xE0 ≤ b ∧ b ≤ 0xEF then
    some ⟨chars, 2, b - 0xE0, if b = 0xE0 then 0xA0 else 0x80, if b = 0xED then 0x9F else 0xBF⟩
  else if 0xF0 ≤ b ∧ b ≤ 0xF4 then
    some ⟨chars, 3, b - 0xF0, if b = 0xF0 then 0x90 else 0x80, if b = 0xF4 then 0x8F else 0xBF⟩
  else none

def utf8Byte (st : Utf8State) (byte : UInt8) : Option Utf8State :=
  let b := byte.toNat
  if st.needed = 0 then utf8First st.chars b
  else if st.lower ≤ b ∧ b ≤ st.upper then
    let value := st.value * 64 + (b - 0x80)
    if st.needed = 1 then some (.between (st.chars ++ [Char.ofNat value]))
    else some ⟨st.chars, st.needed - 1, value, 0x80, 0xBF⟩
  else none

/-- `std::str::from_utf8`. -/
def fromUtf8 (bytes : List UInt8) : Option Str := do
  let st ← bytes.foldlM utf8Byte (.between [])
  if st.needed = 0 then some st.chars else none

example : fromUtf8 [0x61, 0xC3, 0xA9, 0xE2, 0x82, 0xAC, 0xF0, 0x9F, 0xA6, 0x80] = some "aé€🦀".toList := by
  decide

example : fromUtf8 [0xED, 0xA0, 0x80] = none ∧ fromUtf8 [0xC0, 0x80] = none ∧ fromUtf8 [0xE2, 0x82] = none := by
  decide

end Text
