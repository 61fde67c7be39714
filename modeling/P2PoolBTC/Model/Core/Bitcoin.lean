import P2PoolBTC.Model.Core.Hashing

/-! # Bitcoin blocks and transactions

Consensus data of the Bitcoin library as far as the fork chain reads it: transactions with their
witnesses, headers, blocks, the weight units of BIP-141 and the standard script patterns. Hashes are
byte strings in their internal order and are displayed with the bytes reversed.
-/

namespace P2PoolBTC.Model.Core

open Math Std

/-- Two-hundred-fifty-six-bit words: targets and amounts of work. -/
abbrev U256 := BitVec 256

instance : Ord Digest := ⟨fun left right => compare left.bytes right.bytes⟩

instance : TransOrd Digest := inferInstanceAs (TransCmp (compareOn Digest.bytes))

instance : LawfulEqOrd Digest where
  eq_of_compare {left right} equal := by
    have bytes : left.bytes = right.bytes := Std.compare_eq_iff_eq.mp equal
    cases left
    cases right
    congr

/-- The text of a hash: hexadecimal digits of its bytes in reverse. -/
def displayHash (digest : Digest) : Text := hexEncode digest.bytes.reverse

theorem displayHash_injective : Function.Injective displayHash := by
  intro left right equal
  have bytes : left.bytes = right.bytes := List.reverse_injective (hexEncode_injective equal)
  cases left
  cases right
  congr

/-- The number a byte string spells, least significant byte first. -/
def littleEndian : List UInt8 → ℕ
  | [] => 0
  | byte :: rest => byte.toNat + 256 * littleEndian rest

structure OutPoint where
  txid : Digest
  vout : U32
deriving DecidableEq

instance : Ord OutPoint := ⟨compareLex (compareOn OutPoint.txid) (compareOn OutPoint.vout)⟩

instance : TransOrd OutPoint :=
  inferInstanceAs (TransCmp (compareLex (compareOn OutPoint.txid) (compareOn OutPoint.vout)))

instance : LawfulEqOrd OutPoint where
  eq_of_compare {left right} equal := by
    obtain ⟨txid, vout⟩ := compareLex_eq_eq.mp equal
    cases left
    cases right
    rw [OutPoint.mk.injEq]
    exact ⟨Std.compare_eq_iff_eq.mp txid, Std.compare_eq_iff_eq.mp vout⟩

/-- The previous output of a coinbase input. -/
def OutPoint.null : OutPoint := ⟨Digest.zero, BitVec.allOnes 32⟩

structure TxIn where
  previousOutput : OutPoint
  scriptSig : List UInt8
  sequence : U32
  witness : List (List UInt8)
deriving DecidableEq

structure TxOut where
  value : U64
  scriptPubkey : List UInt8
deriving DecidableEq

structure Transaction where
  version : U32
  lockTime : U32
  input : List TxIn
  output : List TxOut
deriving DecidableEq

structure BlockHeader where
  version : U32
  prevBlockhash : Digest
  merkleRoot : Digest
  time : U32
  bits : U32
  nonce : U32
deriving DecidableEq

structure Block where
  header : BlockHeader
  txdata : List Transaction
deriving DecidableEq

variable (transaction : Transaction)

def Transaction.isCoinbase : Bool :=
  match transaction.input with
  | [only] => only.previousOutput = OutPoint.null
  | _ => false

/-- The transaction without its witnesses, which is what its identifier commits to. -/
def Transaction.stripped : Transaction :=
  { transaction with input := transaction.input.map fun input => { input with witness := [] } }

/-- The outputs that a transaction spends, in the order of its inputs. -/
def Transaction.spends : List OutPoint :=
  transaction.input.map TxIn.previousOutput

@[simp] theorem Transaction.stripped_output : transaction.stripped.output = transaction.output := rfl

@[simp] theorem Transaction.stripped_spends : transaction.stripped.spends = transaction.spends := by
  simp [Transaction.spends, Transaction.stripped]

@[simp] theorem Transaction.stripped_isCoinbase : transaction.stripped.isCoinbase = transaction.isCoinbase := by
  obtain ⟨version, lockTime, input, output⟩ := transaction
  rcases input with - | ⟨first, - | ⟨second, rest⟩⟩ <;> rfl

/-! ## Weight -/

/-- Bytes of a variable-length integer. -/
def varIntSize (value : ℕ) : ℕ :=
  if value < 0xfd then 1 else if value ≤ 0xffff then 3 else if value ≤ 0xffffffff then 5 else 9

def TxIn.baseSize (input : TxIn) : ℕ := 36 + (varIntSize input.scriptSig.length + input.scriptSig.length) + 4

def TxIn.witnessSize (input : TxIn) : ℕ :=
  varIntSize input.witness.length + (input.witness.map fun item => varIntSize item.length + item.length).sum

def TxOut.size (output : TxOut) : ℕ := 8 + (varIntSize output.scriptPubkey.length + output.scriptPubkey.length)

namespace Transaction

/-- Whether the transaction is serialized with witnesses. -/
def usesSegwitSerialization : Bool :=
  transaction.input.any (fun input => !input.witness.isEmpty) || transaction.input.isEmpty

def baseSize : ℕ :=
  4 + varIntSize transaction.input.length + (transaction.input.map TxIn.baseSize).sum +
    varIntSize transaction.output.length + (transaction.output.map TxOut.size).sum + 4

def totalSize : ℕ :=
  transaction.baseSize +
    if transaction.usesSegwitSerialization then 2 + (transaction.input.map TxIn.witnessSize).sum else 0

def weight : ℕ := 3 * transaction.baseSize + transaction.totalSize

end Transaction

namespace Block

def baseSize (block : Block) : ℕ :=
  80 + varIntSize block.txdata.length + (block.txdata.map Transaction.baseSize).sum

def totalSize (block : Block) : ℕ :=
  80 + varIntSize block.txdata.length + (block.txdata.map Transaction.totalSize).sum

def weight (block : Block) : ℕ := 3 * block.baseSize + block.totalSize

end Block

theorem TxOut.eight_le_size (output : TxOut) : 8 ≤ output.size := by
  unfold TxOut.size
  omega

/-- A transaction of a block has no more outputs than the block has weight units. -/
theorem Block.length_output_le_weight {block : Block} {transaction : Transaction}
    (member : transaction ∈ block.txdata) : transaction.output.length ≤ block.weight := by
  have outputs : transaction.output.length ≤ (transaction.output.map TxOut.size).sum := by
    have bound := List.card_nsmul_le_sum (transaction.output.map TxOut.size) 1 (by
      intro size listed
      obtain ⟨output, -, rfl⟩ := List.mem_map.mp listed
      exact Nat.le_trans (by decide) output.eight_le_size)
    simpa using bound
  have size : transaction.baseSize ≤ (block.txdata.map Transaction.baseSize).sum :=
    List.single_le_sum (fun _ _ => Nat.zero_le _) _ (List.mem_map_of_mem member)
  have transactionSize : (transaction.output.map TxOut.size).sum ≤ transaction.baseSize := by
    unfold Transaction.baseSize
    omega
  have blockSize : (block.txdata.map Transaction.baseSize).sum ≤ block.baseSize := by
    unfold Block.baseSize
    omega
  unfold Block.weight
  omega

/-! ## Scripts -/

namespace Script

variable (script : List UInt8)

/-- The version of a witness program, when the script is one. -/
def witnessVersion? : Option ℕ :=
  match script with
  | version :: push :: program =>
    if 2 ≤ program.length ∧ program.length ≤ 40 ∧ push.toNat = program.length then
      if version = 0 then some 0
      else if 0x51 ≤ version.toNat ∧ version.toNat ≤ 0x60 then some (version.toNat - 0x50)
      else none
    else none
  | _ => none

def isP2wpkh : Bool := script.length = 22 ∧ witnessVersion? script = some 0

def isP2wsh : Bool := script.length = 34 ∧ witnessVersion? script = some 0

def isP2tr : Bool := script.length = 34 ∧ witnessVersion? script = some 1

def isWitnessProgram : Bool := (witnessVersion? script).isSome

def isP2pkh : Bool :=
  script.length = 25 ∧ script.take 3 = [0x76, 0xa9, 0x14] ∧ script.drop 23 = [0x88, 0xac]

def isP2sh : Bool :=
  script.length = 23 ∧ script.take 2 = [0xa9, 0x14] ∧ script.drop 22 = [0x87]

def isP2pk : Bool :=
  (script.length = 67 ∧ script.take 1 = [0x41] ∧ script.drop 66 = [0xac]) ∨
    (script.length = 35 ∧ script.take 1 = [0x21] ∧ script.drop 34 = [0xac])

def isOpReturn : Bool := script.take 1 = [0x6a]

end Script

end P2PoolBTC.Model.Core
