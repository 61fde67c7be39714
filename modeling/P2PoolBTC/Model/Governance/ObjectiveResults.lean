import P2PoolBTC.Model.Core.ConsensusIdentity

/-! # Objective results

A result of two possible forms shows that an attestation was wrong. The governance engine compares its bytes, the
governance contract compares its identifier and the text that its bytes decode to.
-/

namespace P2PoolBTC.Model.Governance

open Math Model.Core

inductive BondTarget where
  | agent
  | builder
  | availability
deriving DecidableEq

inductive GovernanceError where
  | invalidChallenge
deriving DecidableEq

def verifyCanonicalFalseResult (target : BondTarget) (evidenceBytes : List UInt8) : Except GovernanceError Unit :=
  let expected := match target with
    | .agent | .builder => utf8Bytes "\x7b\"passed\":false\x7d".toList
    | .availability => utf8Bytes "\x7b\"available\":false\x7d".toList
  require (evidenceBytes = expected) .invalidChallenge

namespace Contract

def maxObjectiveResultBytes : ℕ := 64

/-- The number of UTF-16 code units of a text. -/
def utf16Length (text : Text) : ℕ := (text.map fun char => if char.toNat < 0x10000 then 1 else 2).sum

/-- The code units of a text of the basic plane. -/
def units (text : String) : List U16 := text.toList.map fun char => BitVec.ofNat 16 char.toNat

def hexToBytes (value : Text) : Except String (List UInt8) := do
  require (utf16Length value % 2 = 0) "hex value must have even length"
  require (value.all isLowercaseHexDigit = true) "hex value must be lowercase ASCII"
  okOr (hexDecode? value) "hex value must be lowercase ASCII"

/-- One code unit, or two surrogates. -/
def unitsOf (code : U32) : List U16 :=
  if code < 0x10000 then [code.setWidth 16]
  else [((code - 0x10000) >>> 10 ||| 0xd800).setWidth 16, ((code - 0x10000) &&& 0x3ff ||| 0xdc00).setWidth 16]

/-- The library's decoder of null-terminated UTF-8. It ends at a zero byte and at a sequence that is cut off, and
does not check the marker bits of the later bytes of a sequence or that a sequence is the shortest. -/
def bytesToString : List UInt8 → List U16
  | [] => []
  | first :: rest =>
    let u0 : U32 := first.toBitVec.setWidth 32
    if u0 &&& 128 = 0 then
      if u0 = 0 then [] else u0.setWidth 16 :: bytesToString rest
    else match rest with
      | [] => []
      | second :: rest =>
        let u1 : U32 := second.toBitVec.setWidth 32 &&& 63
        if u0 &&& 224 = 192 then ((u0 &&& 31) <<< 6 ||| u1).setWidth 16 :: bytesToString rest
        else match rest with
          | [] => []
          | third :: rest =>
            let u2 : U32 := third.toBitVec.setWidth 32 &&& 63
            if u0 &&& 240 = 224 then unitsOf ((u0 &&& 15) <<< 12 ||| u1 <<< 6 ||| u2) ++ bytesToString rest
            else match rest with
              | [] => []
              | fourth :: rest =>
                unitsOf ((u0 &&& 7) <<< 18 ||| u1 <<< 12 ||| u2 <<< 6 ||| fourth.toBitVec.setWidth 32 &&& 63) ++
                  bytesToString rest

def base32Digit (value : U32) : Text := "abcdefghijklmnopqrstuvwxyz234567".toList[(value &&& 31).toNat]?.toList

/-- The inner loop of the encoder: write digits while five bits are there. -/
def base32Digits : U32 → ℕ → Text → U32 × ℕ × Text
  | accumulator, bits + 5, output =>
    base32Digits (if bits = 0 then 0 else accumulator &&& ((1 <<< bits) - 1)) bits
      (output ++ base32Digit (accumulator >>> bits))
  | accumulator, bits, output => (accumulator, bits, output)

def base32Lower (bytes : List UInt8) : Text :=
  let (accumulator, bits, output) := bytes.foldl (fun (accumulator, bits, output) byte =>
    base32Digits (accumulator <<< 8 ||| byte.toBitVec.setWidth 32) (bits + 8) output) ((0 : U32), 0, [])
  if 0 < bits then output ++ base32Digit (accumulator <<< (5 - bits)) else output

variable (sha256 : List UInt8 → Digest)

def cidForRaw (bytes : List UInt8) : Text := 'b' :: base32Lower ([0x01, 0x55, 0x12, 0x20] ++ (sha256 bytes).bytes)

def verifiedFalseResult (cid hexBytes field : Text) : Except String Unit := do
  require (field = "passed".toList ∨ field = "available".toList) "unsupported objective-result field"
  require (0 < utf16Length hexBytes ∧ utf16Length hexBytes ≤ maxObjectiveResultBytes * 2)
    "objective result exceeds contract limit"
  let bytes ← hexToBytes hexBytes
  require (bytes.length ≤ maxObjectiveResultBytes) "objective result exceeds contract limit"
  require (cidForRaw sha256 bytes = cid) "objective result does not match its declared raw CID"
  let expected := units (if field = "passed".toList then "\x7b\"passed\":false\x7d" else "\x7b\"available\":false\x7d")
  require (bytesToString bytes = expected) "objective result is not the canonical false-result payload"

end Contract

end P2PoolBTC.Model.Governance
