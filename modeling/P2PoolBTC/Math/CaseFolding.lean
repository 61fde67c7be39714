import P2PoolBTC.Math.Ascii

/-! # What case folding keeps

Folding the case of ASCII letters changes neither the size of a text nor which characters are
hexadecimal digits, and a hexadecimal text decodes to the same bytes in either case.
-/

namespace P2PoolBTC.Math

/-- A relation between a character and its lower case holds if it does below 128 and is reflexive above: no other
character changes. -/
theorem toLower_relates {R : Char → Char → Prop} (same : ∀ char, 128 ≤ char.toNat → R char char)
    (table : ∀ value < 128, R (Char.ofNat value) (Char.ofNat value).toLower) (char : Char) :
    R char char.toLower := by
  by_cases ascii : char.toNat < 128
  · have entry := table char.toNat ascii
    rwa [Char.ofNat_toNat] at entry
  · have unchanged : char.toLower = char := by
      unfold Char.toLower
      rw [dif_neg]
      rintro ⟨-, upper⟩
      rw [UInt32.le_iff_toNat_le] at upper
      have last : ('Z' : Char).val.toNat = 90 := by decide
      have value : char.toNat = char.val.toNat := rfl
      omega
    rw [unchanged]
    exact same char (by omega)

@[simp] theorem utf8Size_toLower (char : Char) : char.toLower.utf8Size = char.utf8Size :=
  toLower_relates (R := fun char lower => lower.utf8Size = char.utf8Size) (fun _ _ => rfl) (by decide) char

@[simp] theorem isAsciiHexDigit_toLower_eq (char : Char) : isAsciiHexDigit char.toLower = isAsciiHexDigit char :=
  toLower_relates (R := fun char lower => isAsciiHexDigit lower = isAsciiHexDigit char) (fun _ _ => rfl)
    (by decide) char

@[simp] theorem hexDigitValue?_toLower (char : Char) : hexDigitValue? char.toLower = hexDigitValue? char :=
  toLower_relates (R := fun char lower => hexDigitValue? lower = hexDigitValue? char) (fun _ _ => rfl)
    (by decide) char

@[simp] theorem byteLength_toAsciiLowercase (text : Text) : byteLength (toAsciiLowercase text) = byteLength text := by
  simp [byteLength, toAsciiLowercase, Function.comp_def]

@[simp] theorem all_isAsciiHexDigit_toAsciiLowercase (text : Text) :
    (toAsciiLowercase text).all isAsciiHexDigit = text.all isAsciiHexDigit := by
  simp [toAsciiLowercase, Function.comp_def]

@[simp] theorem isHexOfLength_toAsciiLowercase (text : Text) (length : ℕ) :
    IsHexOfLength (toAsciiLowercase text) length ↔ IsHexOfLength text length := by
  simp [IsHexOfLength]

variable {text : Text}

@[simp] theorem toAsciiLowercase_eq_nil : toAsciiLowercase text = [] ↔ text = [] := by
  simp [toAsciiLowercase]

@[simp] theorem hexDecode?_toAsciiLowercase (text : Text) : hexDecode? (toAsciiLowercase text) = hexDecode? text := by
  fun_induction hexDecode? text with
  | case1 => rfl
  | case2 => rfl
  | case3 high low rest ih =>
    unfold toAsciiLowercase at ih ⊢
    simp only [List.map_cons, hexDecode?, hexDigitValue?_toLower, ih]

private theorem toLower_eq_zero (char : Char) : char.toLower = '0' ↔ char = '0' :=
  toLower_relates (R := fun char lower => lower = '0' ↔ char = '0') (fun _ _ => Iff.rfl) (by decide) char

private theorem toLower_eq_x (char : Char) : char.toLower = 'x' ↔ char = 'x' ∨ char = 'X' := by
  refine toLower_relates (R := fun char lower => lower = 'x' ↔ char = 'x' ∨ char = 'X') ?_ (by decide) char
  intro char large
  have upper : char ≠ 'X' := by
    rintro rfl
    exact absurd large (by decide)
  simp [upper]

private theorem toLower_ne_upper (char : Char) : char.toLower ≠ 'X' := by
  refine toLower_relates (R := fun _ lower => lower ≠ 'X') ?_ (by decide) char
  rintro _ large rfl
  exact absurd large (by decide)

theorem stripLeading?_pair (first second : Char) (text : Text) : stripLeading? [first, second] text =
    if text.take 2 = [first, second] then some (text.drop 2) else none := by
  simp only [stripLeading?, List.isPrefixOf_iff_prefix, List.prefix_iff_eq_take, List.length_cons, List.length_nil,
    Nat.zero_add, Nat.reduceAdd, eq_comm (a := [first, second])]

/-- Either spelling of the hexadecimal marker becomes the lower-case one. -/
theorem stripLeading?_toAsciiLowercase (text : Text) : stripLeading? ['0', 'x'] (toAsciiLowercase text) =
    ((stripLeading? ['0', 'x'] text).or (stripLeading? ['0', 'X'] text)).map toAsciiLowercase := by
  simp only [stripLeading?_pair, toAsciiLowercase]
  rcases text with _ | ⟨first, _ | ⟨second, rest⟩⟩
  · rfl
  · simp
  · simp only [List.map_cons, List.take_succ_cons, List.take_zero, List.cons.injEq, and_true, toLower_eq_zero,
      toLower_eq_x, List.drop_succ_cons, List.drop_zero]
    by_cases zero : first = '0' <;> by_cases lower : second = 'x' <;> by_cases upper : second = 'X' <;>
      simp [zero, lower, upper, toAsciiLowercase]

theorem stripLeading?_upper_toAsciiLowercase (text : Text) :
    stripLeading? ['0', 'X'] (toAsciiLowercase text) = none := by
  rw [stripLeading?_pair, toAsciiLowercase, if_neg]
  rcases text with _ | ⟨first, _ | ⟨second, rest⟩⟩
  · simp
  · simp
  · simp [toLower_ne_upper second]

theorem EqIgnoreAsciiCase.hexDecode?_eq {left right : Text} (same : EqIgnoreAsciiCase left right) :
    hexDecode? left = hexDecode? right := by
  rw [← hexDecode?_toAsciiLowercase left, same, hexDecode?_toAsciiLowercase]

variable {char : Char} {value : ℕ}

theorem ascii_of_hexDigitValue? (valued : hexDigitValue? char = some value) : char.toNat < 128 := by
  by_contra large
  have above (last : Char) (ascii : last.toNat < 128) : ¬ char ≤ last := by
    intro below
    have : char.toNat ≤ last.toNat := below
    omega
  simp [hexDigitValue?, above '9' (by decide), above 'f' (by decide), above 'F' (by decide)] at valued

theorem utf8Size_of_hexDigitValue? (valued : hexDigitValue? char = some value) : char.utf8Size = 1 := by
  have table : ∀ code < 128, (Char.ofNat code).utf8Size = 1 := by decide
  have entry := table char.toNat (ascii_of_hexDigitValue? valued)
  rwa [Char.ofNat_toNat] at entry

/-- The digit of a value is the lower-case digit that was read. -/
theorem hexDigit_of_hexDigitValue? (valued : hexDigitValue? char = some value) :
    value < 16 ∧ hexDigit value = char.toLower := by
  have table : ∀ code < 128, (hexDigitValue? (Char.ofNat code)).all
      (fun value => value < 16 ∧ hexDigit value = (Char.ofNat code).toLower) = true := by decide
  have entry := table char.toNat (ascii_of_hexDigitValue? valued)
  rw [Char.ofNat_toNat, valued, Option.all_some] at entry
  exact of_decide_eq_true entry

/-- Encoding what was decoded gives the text in lower case. -/
theorem hexEncode_of_hexDecode? {bytes : List UInt8} (decoded : hexDecode? text = some bytes) :
    hexEncode bytes = toAsciiLowercase text := by
  fun_induction hexDecode? text generalizing bytes with
  | case1 => cases decoded; rfl
  | case2 => cases decoded
  | case3 high low rest ih =>
    simp only [Option.pure_def, Option.bind_eq_bind, Option.bind_eq_some_iff, Option.some.injEq] at decoded
    obtain ⟨highValue, highDigit, lowValue, lowDigit, tail, following, rfl⟩ := decoded
    obtain ⟨highSmall, highSame⟩ := hexDigit_of_hexDigitValue? highDigit
    obtain ⟨lowSmall, lowSame⟩ := hexDigit_of_hexDigitValue? lowDigit
    have byte : (UInt8.ofNat (16 * highValue + lowValue)).toNat = 16 * highValue + lowValue :=
      UInt8.toNat_ofNat_of_lt' (by change _ < 256; omega)
    have quotient : (16 * highValue + lowValue) / 16 = highValue := by omega
    have rest : (16 * highValue + lowValue) % 16 = lowValue := by omega
    rw [hexEncode, byte, quotient, rest, highSame, lowSame, ih following]
    rfl

/-- A hexadecimal text has two digits per byte. -/
theorem byteLength_of_hexDecode? {bytes : List UInt8} (decoded : hexDecode? text = some bytes) :
    byteLength text = 2 * bytes.length := by
  unfold byteLength
  fun_induction hexDecode? text generalizing bytes with
  | case1 => cases decoded; rfl
  | case2 => cases decoded
  | case3 high low rest ih =>
    simp only [Option.pure_def, Option.bind_eq_bind, Option.bind_eq_some_iff, Option.some.injEq] at decoded
    obtain ⟨highValue, highDigit, lowValue, lowDigit, tail, following, rfl⟩ := decoded
    simp only [List.map_cons, List.sum_cons, List.length_cons, utf8Size_of_hexDigitValue? highDigit,
      utf8Size_of_hexDigitValue? lowDigit, ih following]
    omega

theorem isHexOfLength_hexEncode {bytes : List UInt8} {count : ℕ} (size : bytes.length = count) :
    IsHexOfLength (hexEncode bytes) (count * 2) := by
  have length := byteLength_of_hexDecode? (hexDecode?_hexEncode bytes)
  exact ⟨by omega, hexEncode_all (by decide) bytes⟩

private theorem exists_hexDigitValue? (digit : isAsciiHexDigit char = true) :
    ∃ value, hexDigitValue? char = some value := by
  simp only [isAsciiHexDigit, Bool.or_eq_true] at digit
  unfold hexDigitValue?
  split_ifs with decimal lower upper
  · exact ⟨_, rfl⟩
  · exact ⟨_, rfl⟩
  · exact ⟨_, rfl⟩
  · exact absurd digit (by simp [decimal, lower, upper])

theorem exists_hexDecode? (digits : text.all isAsciiHexDigit = true) (even : byteLength text % 2 = 0) :
    ∃ bytes, hexDecode? text = some bytes := by
  unfold byteLength at even
  fun_induction hexDecode? text with
  | case1 => exact ⟨[], rfl⟩
  | case2 char =>
    rw [List.all_cons, Bool.and_eq_true] at digits
    obtain ⟨value, valued⟩ := exists_hexDigitValue? digits.1
    simp [utf8Size_of_hexDigitValue? valued] at even
  | case3 high low rest ih =>
    simp only [List.all_cons, Bool.and_eq_true] at digits
    obtain ⟨highValue, highDigit⟩ := exists_hexDigitValue? digits.1
    obtain ⟨lowValue, lowDigit⟩ := exists_hexDigitValue? digits.2.1
    simp only [List.map_cons, List.sum_cons, utf8Size_of_hexDigitValue? highDigit,
      utf8Size_of_hexDigitValue? lowDigit] at even
    obtain ⟨tail, following⟩ := ih digits.2.2 (by omega)
    exact ⟨_, by rw [highDigit, lowDigit, following]; rfl⟩

end P2PoolBTC.Math
