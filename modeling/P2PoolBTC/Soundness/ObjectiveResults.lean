import P2PoolBTC.Model.Governance.ObjectiveResults
import P2PoolBTC.Soundness.AuthorizationEncoding

/-! # Objective results of the contract and of the engine

The engine accepts one byte string. The contract accepts every byte string of at most 64 bytes that decodes to the
same text. These are the spellings of the text: a letter may be written in up to four bytes, and what follows a zero
byte or a sequence that is cut off is not read.
-/

namespace P2PoolBTC.Soundness

open Math Model.Core Model.Governance Contract

section Spellings

/-- The number of bytes of the sequence that a first byte opens. A stray later byte opens one of four. -/
def sequenceLength (first : UInt8) : ℕ :=
  if first.toNat < 128 then 1 else if 192 ≤ first.toNat ∧ first.toNat < 224 then 2
  else if 224 ≤ first.toNat ∧ first.toNat < 240 then 3 else 4

/-- The byte sequences for a code, by its digits of six bits. Zeros may stand in front, and the two upper bits of a
later byte can be anything. So a letter of seven bits is its byte, `c0` or `c1` and one byte, `e0` and two, or three
bytes after one of `80`, `88` to `b8`, `f0` and `f8`. -/
inductive Spells (code : ℕ) : List UInt8 → Prop
  | one {first : UInt8} (size : sequenceLength first = 1) (nonzero : first ≠ 0) (same : first.toNat = code) :
      Spells code [first]
  | two {first second : UInt8} (size : sequenceLength first = 2) (high : first.toNat % 32 = code / 64)
      (low : second.toNat % 64 = code % 64) : Spells code [first, second]
  | three {first second third : UInt8} (size : sequenceLength first = 3) (high : first.toNat % 16 = code / 64 / 64)
      (middle : second.toNat % 64 = code / 64 % 64) (low : third.toNat % 64 = code % 64) :
      Spells code [first, second, third]
  | four {first second third fourth : UInt8} (size : sequenceLength first = 4)
      (high : first.toNat % 8 = code / 64 / 64 / 64) (upper : second.toNat % 64 = code / 64 / 64 % 64)
      (middle : third.toNat % 64 = code / 64 % 64) (low : fourth.toNat % 64 = code % 64) :
      Spells code [first, second, third, fourth]

/-- The byte strings for a text: a sequence for each letter, and then nothing, a zero byte and anything, or a
sequence that is cut off. -/
inductive Spelled : Text → List UInt8 → Prop
  | nothing : Spelled [] []
  | zero (rest : List UInt8) : Spelled [] (0 :: rest)
  | cutOff {first : UInt8} {rest : List UInt8} (short : rest.length + 1 < sequenceLength first) :
      Spelled [] (first :: rest)
  | letter {letter : Char} {text : Text} {front back : List UInt8} (first : Spells letter.toNat front)
      (rest : Spelled text back) : Spelled (letter :: text) (front ++ back)

variable {front bytes : List UInt8} {code : ℕ} {text : Text}

private theorem byte_bits (byte : UInt8) :
    (byte.toBitVec.setWidth 32 &&& 128 = (0 : U32) ↔ sequenceLength byte = 1) ∧
    (byte.toBitVec.setWidth 32 &&& 224 = (192 : U32) ↔ sequenceLength byte = 2) ∧
    (byte.toBitVec.setWidth 32 &&& 240 = (224 : U32) ↔ sequenceLength byte = 3) ∧
    (byte.toBitVec.setWidth 32 = (0 : U32) ↔ byte.toBitVec = 0) ∧
    (1 ≤ sequenceLength byte ∧ sequenceLength byte ≤ 4) ∧
    (byte.toBitVec.setWidth 32 : U32).setWidth 16 = (BitVec.ofNat 16 byte.toNat : U16) ∧
    (byte.toBitVec.setWidth 32 &&& 63 : U32) = BitVec.ofNat 32 (byte.toNat % 64) ∧
    (byte.toBitVec.setWidth 32 &&& 31 : U32) = BitVec.ofNat 32 (byte.toNat % 32) ∧
    (byte.toBitVec.setWidth 32 &&& 15 : U32) = BitVec.ofNat 32 (byte.toNat % 16) ∧
    (byte.toBitVec.setWidth 32 &&& 7 : U32) = BitVec.ofNat 32 (byte.toNat % 8) := by
  obtain ⟨bits⟩ := byte
  revert bits
  decide +kernel

/-- A digit of a code is appended by a shift. -/
private theorem or_digit {digit high : ℕ} (value : high = code / 64) (low : digit = code % 64) (width : ℕ) :
    BitVec.ofNat 32 high <<< (width + 6) ||| BitVec.ofNat 32 digit <<< width = BitVec.ofNat 32 code <<< width := by
  have small : digit < 64 := by omega
  have joined : high <<< 6 ||| digit = code := by
    rw [← Nat.shiftLeft_add_eq_or_of_lt small, Nat.shiftLeft_eq]
    omega
  have shift (value width : ℕ) : BitVec.ofNat 32 value <<< width = BitVec.ofNat 32 (value <<< width) := by
    apply BitVec.eq_of_toNat_eq
    simp [Nat.shiftLeft_eq]
  rw [shift, shift, shift, ← BitVec.ofNat_or, Nat.add_comm width, Nat.shiftLeft_add, ← Nat.shiftLeft_or_distrib, joined]

private theorem or_last {digit high : ℕ} (value : high = code / 64) (low : digit = code % 64) :
    BitVec.ofNat 32 high <<< 6 ||| BitVec.ofNat 32 digit = BitVec.ofNat 32 code := by
  simpa only [BitVec.shiftLeft_zero] using or_digit value low 0

private theorem bytesToString_of_end (ended : Spelled [] bytes) : bytesToString bytes = [] := by
  cases ended with
  | nothing => rfl
  | zero rest => rw [bytesToString.eq_def]; rfl
  | @cutOff first rest short =>
    obtain ⟨single, double, triple, -, ⟨-, most⟩, -⟩ := byte_bits first
    rw [bytesToString.eq_def]
    rcases rest with _ | ⟨second, _ | ⟨third, _ | ⟨fourth, rest⟩⟩⟩ <;> grind

theorem unitsOf_small (small : code < 65536) : unitsOf (BitVec.ofNat 32 code) = [BitVec.ofNat 16 code] := by
  have plane : BitVec.ofNat 32 code < 0x10000 := by
    rw [BitVec.lt_def, BitVec.toNat_ofNat]
    exact (Nat.mod_le _ _).trans_lt small
  rw [unitsOf, if_pos plane, BitVec.setWidth_ofNat_of_le (by decide)]

private theorem Spells.bytesToString_append (spells : Spells code front) (back : List UInt8) :
    bytesToString (front ++ back) = unitsOf (BitVec.ofNat 32 code) ++ bytesToString back := by
  have later (byte : UInt8) := (byte_bits byte).2.2.2.2.2.2.1
  cases spells with
  | @one first size nonzero same =>
    obtain ⟨single, -, -, zero, -, unit, -⟩ := byte_bits first
    have positive : first.toBitVec ≠ 0 := fun zero => nonzero (UInt8.toBitVec_inj.mp zero)
    have small := first.toNat_lt
    rw [unitsOf_small (by omega), List.singleton_append, List.singleton_append, bytesToString.eq_def]
    simp only [single, size, zero, positive, unit, same, if_true, if_false]
  | @two first second size high low =>
    obtain ⟨single, double, -, -, -, -, -, five, -⟩ := byte_bits first
    rw [unitsOf_small (by omega), ← BitVec.setWidth_ofNat_of_le (by decide : 16 ≤ 32), List.cons_append,
      List.singleton_append, List.singleton_append, bytesToString.eq_def]
    simp only [single, double, size, five, later, or_last high low, if_true, Nat.reduceEqDiff, if_false]
  | @three first second third size high middle low =>
    obtain ⟨single, double, triple, -, -, -, -, -, four, -⟩ := byte_bits first
    rw [List.cons_append, List.cons_append, List.singleton_append, bytesToString.eq_def]
    simp only [single, double, triple, size, four, later, or_digit high middle 6, or_last rfl low, if_true,
      Nat.reduceEqDiff, if_false]
  | @four first second third fourth size high upper middle low =>
    obtain ⟨single, double, triple, -, -, -, -, -, -, three⟩ := byte_bits first
    rw [List.cons_append, List.cons_append, List.cons_append, List.singleton_append, bytesToString.eq_def]
    simp only [single, double, triple, size, three, later, or_digit high upper 12, or_digit rfl middle 6,
      or_last rfl low, Nat.reduceEqDiff, if_false]

/-- Every byte string ends or starts with a sequence for a code. -/
private theorem ended_or_spells (bytes : List UInt8) :
    Spelled [] bytes ∨ ∃ front back code, bytes = front ++ back ∧ code < 2 ^ 21 ∧ Spells code front := by
  rcases bytes with _ | ⟨first, rest⟩
  · exact .inl .nothing
  by_cases short : rest.length + 1 < sequenceLength first
  · exact .inl (.cutOff short)
  by_cases zero : first = 0
  · exact .inl (zero ▸ .zero rest)
  right
  have small := first.toNat_lt
  obtain ⟨-, -, -, -, ⟨least, most⟩, -⟩ := byte_bits first
  by_cases one : sequenceLength first = 1
  · exact ⟨[first], rest, _, rfl, by omega, .one one zero rfl⟩
  obtain ⟨second, rest, rfl⟩ := List.exists_cons_of_length_pos (show 0 < rest.length by omega)
  by_cases two : sequenceLength first = 2
  · exact ⟨[first, second], rest, 64 * (first.toNat % 32) + second.toNat % 64, rfl, by omega,
      .two two (by omega) (by omega)⟩
  rw [List.length_cons] at short
  obtain ⟨third, rest, rfl⟩ := List.exists_cons_of_length_pos (show 0 < rest.length by omega)
  by_cases three : sequenceLength first = 3
  · exact ⟨[first, second, third], rest, 64 * (64 * (first.toNat % 16) + second.toNat % 64) + third.toNat % 64, rfl,
      by omega, .three three (by omega) (by omega) (by omega)⟩
  rw [List.length_cons] at short
  obtain ⟨fourth, rest, rfl⟩ := List.exists_cons_of_length_pos (show 0 < rest.length by omega)
  exact ⟨[first, second, third, fourth], rest, 64 * (64 * (64 * (first.toNat % 8) + second.toNat % 64) +
    third.toNat % 64) + fourth.toNat % 64, rfl, by omega,
    .four (by omega) (by omega) (by omega) (by omega) (by omega)⟩

/-- The first unit of a code is a letter of seven bits only when the code is. -/
private theorem unitsOf_letter {letter : ℕ} {later units : List U16} (bound : code < 2 ^ 21) (small : letter < 128)
    (same : unitsOf (BitVec.ofNat 32 code) ++ later = BitVec.ofNat 16 letter :: units) :
    code = letter ∧ later = units := by
  by_cases plane : code < 65536
  · rw [unitsOf_small plane] at same
    obtain ⟨unit, rest⟩ := List.cons.inj same
    have value := congrArg BitVec.toNat unit
    simp only [BitVec.toNat_ofNat] at value
    exact ⟨by omega, rest⟩
  · have above : ¬ BitVec.ofNat 32 code < 0x10000 := by
      rw [BitVec.lt_def, BitVec.toNat_ofNat, Nat.mod_eq_of_lt (by omega)]
      exact plane
    rw [unitsOf, if_neg above] at same
    -- The upper surrogate has its bit 15 set.
    have bit := congrArg (·.getLsbD 15) (List.cons.inj same).1
    simp only [BitVec.getLsbD_ofNat, Nat.testBit_lt_two_pow (show letter < 2 ^ 15 by omega)] at bit
    simp at bit

/-- The bytes that decode to a text of seven-bit letters are its spellings. -/
theorem bytesToString_eq_iff (letters : ∀ letter ∈ text, letter.toNat < 128) (bytes : List UInt8) :
    bytesToString bytes = text.map (fun letter => BitVec.ofNat 16 letter.toNat) ↔ Spelled text bytes := by
  induction text generalizing bytes with
  | nil =>
    refine ⟨fun decoded => ?_, bytesToString_of_end⟩
    rcases ended_or_spells bytes with ended | ⟨front, back, code, rfl, -, spells⟩
    · exact ended
    · rw [spells.bytesToString_append, unitsOf] at decoded
      split_ifs at decoded <;> cases decoded
  | cons letter text ih =>
    obtain ⟨small, later⟩ := List.forall_mem_cons.mp letters
    rw [List.map_cons]
    constructor
    · intro decoded
      rcases ended_or_spells bytes with ended | ⟨front, back, code, rfl, bound, spells⟩
      · rw [bytesToString_of_end ended] at decoded
        cases decoded
      · rw [spells.bytesToString_append] at decoded
        obtain ⟨rfl, rest⟩ := unitsOf_letter bound small decoded
        exact .letter spells ((ih later back).mp rest)
    · rintro (_ | _ | _ | @⟨_, _, front, back, first, rest⟩)
      rw [first.bytesToString_append, unitsOf_small (by omega), (ih later back).mpr rest, List.singleton_append]

/-- The bytes that stand for themselves in a decoded text. -/
def Plain (bytes : List UInt8) : Prop := ∀ byte ∈ bytes, byte ≠ 0 ∧ byte < 128

/-- Of the spellings of a text, only one is plain. -/
theorem Spelled.eq_of_plain (spelled : Spelled text bytes) (plain : Plain bytes) :
    bytes.map UInt8.toNat = text.map Char.toNat := by
  have single {first : UInt8} {rest : List UInt8} (plain : Plain (first :: rest)) : sequenceLength first = 1 :=
    if_pos (plain first List.mem_cons_self).2
  induction spelled with
  | nothing => rfl
  | zero rest => exact absurd rfl (plain 0 List.mem_cons_self).1
  | cutOff short =>
    have := single plain
    omega
  | letter first rest ih =>
    rw [List.map_append, ih (List.forall_mem_append.mp plain).2]
    cases first with
    | one _ _ same => rw [List.map_singleton, same, List.singleton_append, List.map_cons]
    | _ size =>
      have := single plain
      omega

end Spellings

private theorem utf16Length_hexEncode (bytes : List UInt8) : utf16Length (hexEncode bytes) = 2 * bytes.length := by
  have digit : ∀ value < 16, (hexDigit value).toNat < 0x10000 := by decide
  unfold utf16Length
  induction bytes with
  | nil => rfl
  | cons byte rest ih =>
    have bound := byte.toNat_lt
    simp only [hexEncode, List.map_cons, List.sum_cons, ih, List.length_cons,
      if_pos (digit (byte.toNat / 16) (by omega)), if_pos (digit (byte.toNat % 16) (by omega))]
    omega

/-- The contract's name of the result of a target. -/
def resultField : BondTarget → Text
  | .agent | .builder => "passed".toList
  | .availability => "available".toList

/-- The text of the result that a target was wrong. -/
def falseResult : BondTarget → String
  | .agent | .builder => "\x7b\"passed\":false\x7d"
  | .availability => "\x7b\"available\":false\x7d"

theorem verifiedFalseResult_eq_ok {sha256 : List UInt8 → Digest} {target : BondTarget} {evidence : List UInt8} :
    verifiedFalseResult sha256 (cidForRaw sha256 evidence) (hexEncode evidence) (resultField target) = .ok () ↔
      evidence.length ≤ 64 ∧ bytesToString evidence = units (falseResult target) := by
  have expected : units (if resultField target = "passed".toList then "\x7b\"passed\":false\x7d" else
      "\x7b\"available\":false\x7d") = units (falseResult target) := by cases target <;> rfl
  have known : resultField target = "passed".toList ∨ resultField target = "available".toList := by
    cases target <;> decide
  have filled : bytesToString evidence = units (falseResult target) → 0 < evidence.length := by
    rintro decoded
    cases evidence with
    | nil => cases target <;> cases decoded
    | cons byte rest => simp
  simp only [verifiedFalseResult, hexToBytes, expected, utf16Length_hexEncode, hexEncode_all_lowercaseHex,
    hexDecode?_hexEncode, except_bind_eq_ok, require_eq_ok, okOr_eq_ok, exists_const, Option.some.injEq]
  constructor
  · rintro ⟨-, -, _, ⟨-, -, rfl⟩, within, -, decoded⟩
    exact ⟨within, decoded⟩
  · rintro ⟨within, decoded⟩
    have nonempty := filled decoded
    have short : 2 * evidence.length ≤ 64 * 2 := by omega
    exact ⟨known, ⟨by omega, short⟩, evidence, ⟨by omega, trivial, rfl⟩, within, rfl, decoded⟩

/-- The contract accepts the spellings of the text that fit into 64 bytes, and the engine its plain one. -/
theorem objective_false_results_agree_iff (sha256 : List UInt8 → Digest) (target : BondTarget) (evidence : List UInt8) :
    ((verifiedFalseResult sha256 (cidForRaw sha256 evidence) (hexEncode evidence) (resultField target) = .ok () ↔
        verifyCanonicalFalseResult target evidence = .ok ()) ↔
      (evidence.length ≤ 64 → Spelled (falseResult target).toList evidence → Plain evidence)) ∧
    (verifiedFalseResult sha256 (cidForRaw sha256 evidence) (hexEncode evidence) (resultField target) = .ok () ↔
      evidence.length ≤ 64 ∧ Spelled (falseResult target).toList evidence) ∧
    (verifyCanonicalFalseResult target evidence = .ok () ↔ evidence = utf8Bytes (falseResult target).toList) := by
  have canonical : (∀ value ∈ (falseResult target).toList.map Char.toNat, value < 128) ∧
      Plain (utf8Bytes (falseResult target).toList) ∧ (utf8Bytes (falseResult target).toList).length ≤ 64 ∧
      (utf8Bytes (falseResult target).toList).map UInt8.toNat = (falseResult target).toList.map Char.toNat ∧
      bytesToString (utf8Bytes (falseResult target).toList) = units (falseResult target) := by
    unfold Plain
    cases target <;> decide +kernel
  obtain ⟨small, plain, short, values, decoded⟩ := canonical
  have letters := List.forall_mem_map.mp small
  have contract := (@verifiedFalseResult_eq_ok sha256 target evidence).trans
    (and_congr_right fun _ => bytesToString_eq_iff letters evidence)
  have engine : verifyCanonicalFalseResult target evidence = .ok () ↔
      evidence = utf8Bytes (falseResult target).toList := by
    cases target <;> exact require_eq_ok
  refine ⟨?_, contract, engine⟩
  rw [contract, engine]
  constructor
  · intro agree within spelled
    rw [agree.mp ⟨within, spelled⟩]
    exact plain
  · intro onlyPlain
    constructor
    · rintro ⟨within, spelled⟩
      apply List.map_injective_iff.mpr fun left right => UInt8.toNat_inj.mp
      rw [spelled.eq_of_plain (onlyPlain within spelled), values]
    · rintro rfl
      exact ⟨short, (bytesToString_eq_iff letters _).mp decoded⟩

/-- The contract accepts a zero byte after the text, the start of a sequence after it, and two bytes for its first
letter, whatever the hash is. -/
theorem contract_accepts_other_spellings : ∃ terminated cutOff overlong,
    terminated = utf8Bytes (falseResult .agent).toList ++ [0] ∧
    cutOff = utf8Bytes (falseResult .agent).toList ++ [0xe2, 0x82] ∧
    overlong = [0xc1, 0xbb] ++ (utf8Bytes (falseResult .agent).toList).tail ∧
    ∀ evidence ∈ [terminated, cutOff, overlong], (∀ sha256, verifiedFalseResult sha256 (cidForRaw sha256 evidence)
      (hexEncode evidence) "passed".toList = .ok ()) ∧ verifyCanonicalFalseResult .agent evidence ≠ .ok () := by
  refine ⟨_, _, _, rfl, rfl, rfl, fun evidence listed => ⟨fun sha256 => ?_, ?_⟩⟩
  · refine (verifiedFalseResult_eq_ok : verifiedFalseResult sha256 _ _ (resultField .agent) = _ ↔ _).mpr ?_
    revert evidence
    decide +kernel
  · revert evidence
    decide +kernel

end P2PoolBTC.Soundness
