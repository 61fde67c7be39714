import Mathlib

/-! # ASCII case folding and hexadecimal text

Text is a list of Unicode characters. Case folding touches the twenty-six ASCII letters only and
keeps every other character. Encoded bytes are two lower-case digits each, and decoding accepts
either case.
-/

namespace P2PoolBTC.Math

/-- A text as the sequence of its characters. -/
abbrev Text := List Char

instance : LawfulBEq Text := inferInstance

instance : LawfulBEq (Std.ExtTreeSet Text) := inferInstance

/-- The number of bytes of a text in UTF-8. -/
def byteLength (text : Text) : ℕ := (text.map Char.utf8Size).sum

/-- The bytes of a text in UTF-8. -/
def utf8Bytes (text : Text) : List UInt8 := text.flatMap String.utf8EncodeChar

/-- Lower-case the ASCII letters of a text. -/
def toAsciiLowercase (text : Text) : Text := text.map Char.toLower

/-- Upper-case the ASCII letters of a text. -/
def toAsciiUppercase (text : Text) : Text := text.map Char.toUpper

/-- Equality of texts up to the case of ASCII letters. -/
def EqIgnoreAsciiCase (left right : Text) : Prop := toAsciiLowercase left = toAsciiLowercase right

instance (left right : Text) : Decidable (EqIgnoreAsciiCase left right) :=
  inferInstanceAs (Decidable (toAsciiLowercase left = toAsciiLowercase right))

@[simp] theorem toAsciiLowercase_idem (text : Text) :
    toAsciiLowercase (toAsciiLowercase text) = toAsciiLowercase text := by
  simp [toAsciiLowercase, Function.comp_def]

@[simp] theorem toAsciiUppercase_idem (text : Text) :
    toAsciiUppercase (toAsciiUppercase text) = toAsciiUppercase text := by
  simp [toAsciiUppercase, Function.comp_def]

/-- A text with no upper-case ASCII letter. -/
def IsAsciiLowercase (text : Text) : Prop := toAsciiLowercase text = text

theorem isAsciiLowercase_toAsciiLowercase (text : Text) : IsAsciiLowercase (toAsciiLowercase text) :=
  toAsciiLowercase_idem text

theorem eqIgnoreAsciiCase_iff_eq {left right : Text} (leftLower : IsAsciiLowercase left)
    (rightLower : IsAsciiLowercase right) : EqIgnoreAsciiCase left right ↔ left = right := by
  unfold EqIgnoreAsciiCase
  rw [leftLower, rightLower]

/-- Decimal ASCII digits and the letters `a` to `f` in either case. -/
def isAsciiHexDigit (char : Char) : Bool :=
  ('0' ≤ char && char ≤ '9') || ('a' ≤ char && char ≤ 'f') || ('A' ≤ char && char ≤ 'F')

/-- Exactly the given number of hexadecimal digits, in either case. -/
def IsHexOfLength (text : Text) (length : ℕ) : Prop :=
  byteLength text = length ∧ text.all isAsciiHexDigit = true

instance (text : Text) (length : ℕ) : Decidable (IsHexOfLength text length) :=
  inferInstanceAs (Decidable (_ ∧ _))

/-- What follows a leading text. -/
def stripLeading? (leading text : Text) : Option Text :=
  if leading.isPrefixOf text then some (text.drop leading.length) else none

/-- The value of a list of decimal digits read most significant first. -/
def decimalValue (digits : Text) : ℕ :=
  digits.foldl (fun value digit => 10 * value + (digit.toNat - '0'.toNat)) 0

/-- A decimal number with an optional plus sign, when it fits the width. -/
def parseDecimal? (width : ℕ) (text : Text) : Option (BitVec width) :=
  let digits := (stripLeading? ['+'] text).getD text
  if digits ≠ [] ∧ digits.all Char.isDigit = true ∧ decimalValue digits < 2 ^ width then
    some (BitVec.ofNat width (decimalValue digits))
  else none

/-- The value of a hexadecimal digit. -/
def hexDigitValue? (char : Char) : Option ℕ :=
  if '0' ≤ char && char ≤ '9' then some (char.toNat - '0'.toNat)
  else if 'a' ≤ char && char ≤ 'f' then some (char.toNat - 'a'.toNat + 10)
  else if 'A' ≤ char && char ≤ 'F' then some (char.toNat - 'A'.toNat + 10)
  else none

/-- The lower-case digit of a value below sixteen. -/
def hexDigit (value : ℕ) : Char :=
  if value < 10 then Char.ofNat ('0'.toNat + value) else Char.ofNat ('a'.toNat + (value - 10))

/-- Lower-case hexadecimal text of a byte string, two digits per byte. -/
def hexEncode : List UInt8 → Text
  | [] => []
  | byte :: rest => hexDigit (byte.toNat / 16) :: hexDigit (byte.toNat % 16) :: hexEncode rest

/-- Decode hexadecimal text in either case. -/
def hexDecode? : Text → Option (List UInt8)
  | [] => some []
  | [_] => none
  | high :: low :: rest => do
    let highValue ← hexDigitValue? high
    let lowValue ← hexDigitValue? low
    let tail ← hexDecode? rest
    return UInt8.ofNat (16 * highValue + lowValue) :: tail

/-- The lower-case hexadecimal text of a number with a fixed count of digits. -/
def hexText (digits value : ℕ) : Text :=
  (List.range digits).map fun index => hexDigit (value / 16 ^ (digits - 1 - index) % 16)

private theorem hexDigit_toLower : ∀ value < 16, (hexDigit value).toLower = hexDigit value := by decide

private theorem hexDigitValue?_hexDigit : ∀ value < 16, hexDigitValue? (hexDigit value) = some value := by
  decide

private theorem byte_nibbles (byte : UInt8) : byte.toNat / 16 < 16 ∧ byte.toNat % 16 < 16 := by
  have bound := byte.toNat_lt
  omega

@[simp] theorem hexDecode?_hexEncode (bytes : List UInt8) : hexDecode? (hexEncode bytes) = some bytes := by
  induction bytes with
  | nil => rfl
  | cons byte rest ih =>
    obtain ⟨high, low⟩ := byte_nibbles byte
    have value : 16 * (byte.toNat / 16) + byte.toNat % 16 = byte.toNat := by omega
    simp only [hexEncode, hexDecode?, ih, hexDigitValue?_hexDigit _ high, hexDigitValue?_hexDigit _ low,
      Option.pure_def, Option.bind_eq_bind, Option.bind_some, value, UInt8.ofNat_toNat]

theorem hexEncode_injective : Function.Injective hexEncode := by
  intro left right equal
  have decoded := congrArg hexDecode? equal
  simpa using decoded

theorem hexEncode_lowercase (bytes : List UInt8) : IsAsciiLowercase (hexEncode bytes) := by
  unfold IsAsciiLowercase toAsciiLowercase
  induction bytes with
  | nil => rfl
  | cons byte rest ih =>
    obtain ⟨high, low⟩ := byte_nibbles byte
    simp [hexEncode, ih, hexDigit_toLower _ high, hexDigit_toLower _ low]

theorem hexEncode_all {keep : Char → Bool} (digits : ∀ value < 16, keep (hexDigit value) = true) (bytes : List UInt8) :
    (hexEncode bytes).all keep = true := by
  induction bytes with
  | nil => rfl
  | cons byte rest ih =>
    obtain ⟨high, low⟩ := byte_nibbles byte
    simp only [hexEncode, List.all_cons, digits _ high, digits _ low, ih, Bool.and_self]

end P2PoolBTC.Math
