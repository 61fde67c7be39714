import P2PoolBTC.Math.MerkleTree
import P2PoolBTC.Model.Core.ShareWork
import P2PoolBTC.Model.Node.ForkTypes

/-! # Work of a mining job

A job offers the hashes that the coinbase is joined with on its way up the Merkle tree. They are collected
before there is a coinbase, with zero bytes in its place; a submission hashes its own coinbase with them.
-/

namespace P2PoolBTC.Model.Node

open Math Model.Core

variable (crypto : Crypto)

def maxMerkleBranches : ℕ := 512

def maxCoinbaseHexBytes : ℕ := 512 * 1024

structure StratumJob where
  version : Text
  prevhash : Text
  coinbase1 : Text
  coinbase2 : Text
  merkleBranches : List Text
  nbits : Text
  ntime : Text
deriving DecidableEq

structure SubmitWork where
  extranonce2 : Text
  ntime : Text
  nonce : Text
deriving DecidableEq

def validateHexEven (label : String) (value : Text) (maxHexBytes : ℕ) : Outcome Unit := do
  require (byteLength value % 2 = 0) (.error (label ++ " must have an even hex length"))
  require (byteLength value ≤ maxHexBytes * 2) (.error (label ++ " exceeds " ++ toString maxHexBytes ++ " bytes"))
  require (value.all isAsciiHexDigit = true) (.error (label ++ " must be hex"))

def validateHexExact (label : String) (value : Text) (bytes : ℕ) : Outcome Unit :=
  require (IsHexOfLength value (bytes * 2))
    (.error (label ++ " must be exactly " ++ toString bytes ++ " bytes encoded as hex"))

def decodeHexExactBytes (label : String) (value : Text) (bytes : ℕ) : Outcome (List UInt8) := do
  validateHexExact label value bytes
  okOr (hexDecode? (toAsciiLowercase value)) (.error ("failed to decode " ++ label))

def displayHashToHeaderOrderBytes (hash : Text) : Outcome Digest := do
  validateHexExact "display hash" hash 32
  let bytes ← okOr (hexDecode? (toAsciiLowercase hash)) (.error (crypto.hexDecodeError (toAsciiLowercase hash)))
  if size : bytes.reverse.length = 32 then return ⟨bytes.reverse, size⟩
  else .error (.panicked "hash length checked")

/-! ## Collecting the branches -/

/-- The hash over two neighbours of the tree. -/
def hashPair (left right : Digest) : Digest := crypto.sha256d (left.bytes ++ right.bytes)

/-- The loop that goes up from a level; each step leaves fewer hashes. -/
def collectBranches : ℕ → List Digest → ℕ → Outcome (List Text)
  | 0, _, _ => .error .diverged
  | fuel + 1, level, coinbaseIndex =>
    if 1 < level.length then do
      let siblingIndex :=
        if coinbaseIndex % 2 = 0 then
          if coinbaseIndex + 1 < level.length then coinbaseIndex + 1 else coinbaseIndex
        else coinbaseIndex - 1
      let sibling ← okOr level[siblingIndex]? (.panicked "index out of bounds")
      let rest ← collectBranches fuel (MerkleTree.parents (hashPair crypto) level) (coinbaseIndex / 2)
      return hashHex sibling :: rest
    else return []

def coinbaseMerkleBranches (transactionHashes : List Text) : Outcome (List Text) := do
  let hashes ← transactionHashes.mapM (displayHashToHeaderOrderBytes crypto)
  let level := Digest.zero :: hashes
  let branch ← collectBranches crypto (level.length + 1) level 0
  require (branch.length ≤ maxMerkleBranches)
    (.error ("coinbase merkle branch contains " ++ toString branch.length ++ " entries; maximum supported is " ++
      toString maxMerkleBranches))
  return branch

/-! ## Submitted work -/

def coinbaseTxHexFromSubmit (job : StratumJob) (submit : SubmitWork) (extranonce1 : Text) : Outcome Text := do
  let coinbaseHex := toAsciiLowercase job.coinbase1 ++ toAsciiLowercase extranonce1 ++
    toAsciiLowercase submit.extranonce2 ++ toAsciiLowercase job.coinbase2
  validateHexEven "coinbase" coinbaseHex maxCoinbaseHexBytes
  return coinbaseHex

def decodeCoinbaseTransaction (bytes : List UInt8) : Outcome CoinbaseTransaction := do
  let tx ← (crypto.deserializeTransaction bytes).mapError fun _ =>
    .error "coinbase bytes are not a valid Bitcoin transaction"
  require (tx.isCoinbase = true) (.error "coinbase bytes do not decode to a coinbase transaction")
  return tx

/-- Hash up the branches of a job. -/
def foldMerkleBranches : Digest → List Text → Outcome Digest
  | merkle, [] => return merkle
  | merkle, branchHex :: rest => do
    let branch ← decodeHexExactBytes "merkle branch" branchHex 32
    foldMerkleBranches (crypto.sha256d (merkle.bytes ++ branch)) rest

/-- The Merkle root of a header, from its coinbase and the branches of its job. -/
def headerMerkleRoot (coinbaseTx : CoinbaseTransaction) (merkleBranches : List Text) : Outcome Digest := do
  let merkle ← displayHashToHeaderOrderBytes crypto (displayHash coinbaseTx.txid)
  foldMerkleBranches crypto merkle merkleBranches

def buildHeaderHexFromSubmit (job : StratumJob) (submit : SubmitWork) (extranonce1 : Text) : Outcome Text := do
  require (EqIgnoreAsciiCase submit.ntime job.ntime)
    (.error "submitted ntime does not match advertised job ntime; mutable time is not supported")
  let coinbaseHex ← coinbaseTxHexFromSubmit job submit extranonce1
  let coinbase ← okOr (hexDecode? coinbaseHex) (.error (crypto.hexDecodeError coinbaseHex))
  let coinbaseTx ← decodeCoinbaseTransaction crypto coinbase
  let merkle ← headerMerkleRoot crypto coinbaseTx job.merkleBranches
  let headerHex := toAsciiLowercase job.version ++ toAsciiLowercase job.prevhash ++ hashHex merkle ++
    toAsciiLowercase submit.ntime ++ toAsciiLowercase job.nbits ++ toAsciiLowercase submit.nonce
  validateHexExact "bitcoin header" headerHex 80
  return headerHex

end P2PoolBTC.Model.Node
