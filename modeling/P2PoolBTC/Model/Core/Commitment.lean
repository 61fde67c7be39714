import P2PoolBTC.Model.Core.Snapshot

/-! # Proof-of-humanity commitments

A block commits to the snapshot, the sharechain tip and state, and the payout schedule it was
mined on. The fields are checked for their form before they are compared.
-/

namespace P2PoolBTC.Model.Core

open Math

def maxCommitmentSnapshotIdBytes : ℕ := 64

inductive CommitmentError where
  | unsupportedVersion (version : Text)
  | invalidField (field reason : String)
deriving DecidableEq

def isSnapshotIdChar (char : Char) : Bool :=
  char.isAlphanum || ['-', '_', '.', ':'].contains char

def PohwCommitment.validateSnapshotId (value : Text) : Except CommitmentError Unit := do
  require (value ≠ [] ∧ byteLength value ≤ maxCommitmentSnapshotIdBytes)
    (.invalidField "idena_snapshot_id"
      ("length must be 1..=" ++ toString maxCommitmentSnapshotIdBytes ++ " bytes"))
  require (value.all isSnapshotIdChar = true)
    (.invalidField "idena_snapshot_id" "contains unsupported characters")

def PohwCommitment.validateHashHex (field : String) (value : Text) : Except CommitmentError Unit :=
  require (IsHexOfLength value 64)
    (.invalidField field "must be exactly 32 bytes encoded as 64 hex characters")

def PohwCommitment.validateIdenaAddress (value : Text) : Except CommitmentError Unit := do
  let hex ← okOr ((stripLeading? ['0', 'x'] value).or (stripLeading? ['0', 'X'] value))
    (.invalidField "miner_idena_address" "must start with 0x")
  require (byteLength value = 42 ∧ IsHexOfLength hex 40)
    (.invalidField "miner_idena_address" "must contain 20 bytes encoded as 40 hex characters")

def PohwCommitment.validateFields (commitment : PohwCommitment) : Except CommitmentError Unit := do
  require (commitment.version = "POHW1".toList) (.unsupportedVersion commitment.version)
  PohwCommitment.validateSnapshotId commitment.idenaSnapshotId
  PohwCommitment.validateHashHex "idena_score_root" commitment.idenaScoreRoot
  PohwCommitment.validateIdenaAddress commitment.minerIdenaAddress
  PohwCommitment.validateHashHex "identity_proof_root" commitment.identityProofRoot
  PohwCommitment.validateHashHex "sharechain_tip" commitment.sharechainTip
  if let some root := commitment.sharechainStateRoot then
    PohwCommitment.validateHashHex "sharechain_state_root" root
  PohwCommitment.validateHashHex "payout_schedule_root" commitment.payoutScheduleRoot
  PohwCommitment.validateHashHex "frost_vault_key_xonly" commitment.frostVaultKeyXonly

end P2PoolBTC.Model.Core
