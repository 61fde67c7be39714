import P2PoolBTC.Math.Fault
import P2PoolBTC.Model.Core.Hashing

/-! # Identity snapshots

A snapshot commits to the scores of all identities on one day by the Merkle root of its leaves
in address order. Verification recomputes the root from the normal forms of the leaves.
-/

namespace P2PoolBTC.Model.Core

open Math Std

def formulaVersion : U16 := 2

inductive SnapshotError where
  | scoreOverflow (idenaAddress : Text)
  | formulaVersionMismatch (expected actual : U16)
  | leafFormulaVersionMismatch (idenaAddress : Text) (expected actual : U16)
  | duplicateAddress (idenaAddress : Text)
  | identityRootMismatch (idenaAddress expected actual : Text)
  | scoreRootMismatch (expected actual : Text)
  | invalidIdenaAddress (idenaAddress : Text) (reason : String)
deriving DecidableEq

def IdenaStatus.isBlockEligible : IdenaStatus → Bool
  | .newbie | .verified | .human => true
  | _ => false

def SnapshotLeaf.eligibleScore (leaf : SnapshotLeaf) : Except SnapshotError Score :=
  okOr ((checkedAdd leaf.validationRewardScore leaf.proposerRewardScore).bind
    fun score => checkedAdd score leaf.committeeRewardScore) (.scoreOverflow leaf.idenaAddress)

def SnapshotLeaf.isBlockEligible (leaf : SnapshotLeaf) : Bool :=
  leaf.formulaVersion == Core.formulaVersion && leaf.status.isBlockEligible

def compareLeaves : SnapshotLeaf → SnapshotLeaf → Ordering := compareOn SnapshotLeaf.idenaAddress

def Snapshot.validateIdenaAddress (value : Text) : Except SnapshotError Unit := do
  let hexPart ← okOr (stripLeading? ['0', 'x'] value)
    (.invalidIdenaAddress value "address must start with 0x")
  require (IsHexOfLength hexPart 40)
    (.invalidIdenaAddress value "address must contain 20 bytes encoded as 40 hex characters")

/-- Every leaf has its own address and the version and identity root of the snapshot. -/
def Snapshot.validateLeaves (formulaVersion : U16) (expectedIdentityRoot : Text) :
    Option Text → List SnapshotLeaf → Except SnapshotError Unit
  | _, [] => pure ()
  | previousAddress, leaf :: rest => do
    Snapshot.validateIdenaAddress leaf.idenaAddress
    require (leaf.formulaVersion = formulaVersion)
      (.leafFormulaVersionMismatch leaf.idenaAddress formulaVersion leaf.formulaVersion)
    require (previousAddress ≠ some leaf.idenaAddress) (.duplicateAddress leaf.idenaAddress)
    require (leaf.identityRoot = expectedIdentityRoot)
      (.identityRootMismatch leaf.idenaAddress expectedIdentityRoot leaf.identityRoot)
    Snapshot.validateLeaves formulaVersion expectedIdentityRoot (some leaf.idenaAddress) rest

def Snapshot.verifyScoreRoot (crypto : Crypto) (snapshot : Snapshot) : Except SnapshotError Unit := do
  require (snapshot.formulaVersion = Core.formulaVersion)
    (.formulaVersionMismatch Core.formulaVersion snapshot.formulaVersion)
  let leaves := sortBy compareLeaves (snapshot.leaves.map SnapshotLeaf.normalized)
  Snapshot.validateLeaves snapshot.formulaVersion (toAsciiLowercase snapshot.identityRoot) none leaves
  let expected := merkleRoot crypto (leaves.map .merkleSnapshotLeaf)
  require (snapshot.scoreRoot = expected) (.scoreRootMismatch expected snapshot.scoreRoot)

end P2PoolBTC.Model.Core
