import P2PoolBTC.Math.TreeMap
import P2PoolBTC.Model.Node.ForkTypes

/-! # Authenticated peer requests

A mutating request carries a timestamp, a nonce and a keyed tag over the request. The verifier reads
its clock first and takes the lock of the nonce cache afterwards. Authentication only serialises the
method of a request, so the methods are a parameter.
-/

namespace P2PoolBTC.Model.Node

open Math Std Model.Core

def forkP2pAuthWindowSeconds : ℕ := 120

def maxP2pAuthNonces : ℕ := 65536

structure ForkWireAuth where
  timestampUnix : U64
  nonceHex : Text
  macHex : Text
deriving DecidableEq

variable {μ : Type}

structure ForkWireRequest (μ : Type) where
  protocolVersion : U16
  activationId : Text
  transactionUpgradeId : Option Text
  auth : Option ForkWireAuth
  method : μ
deriving DecidableEq

structure ForkWireAuthPayload (μ : Type) where
  protocolVersion : U16
  activationId : Text
  transactionUpgradeId : Option Text
  timestampUnix : U64
  nonceHex : Text
  method : μ
deriving DecidableEq

structure ForkPeerReplayState where
  nonces : ExtTreeMap Text U64 := ∅

/-- The keyed tag of a serialised payload under a capability. -/
abbrev PayloadHmac (μ : Type) := List UInt8 → ForkWireAuthPayload μ → Digest

def ForkWireRequest.authPayload (request : ForkWireRequest μ) (timestampUnix : U64) (nonceHex : Text) :
    ForkWireAuthPayload μ :=
  { protocolVersion := request.protocolVersion
    activationId := request.activationId
    transactionUpgradeId := request.transactionUpgradeId
    timestampUnix := timestampUnix
    nonceHex := nonceHex
    method := request.method }

def peerRequestMac (hmac : PayloadHmac μ) (request : ForkWireRequest μ) (timestampUnix : U64) (nonceHex : Text)
    (capability : List UInt8) : Text :=
  hashHex (hmac capability (request.authPayload timestampUnix nonceHex))

/-- Authentication for a request, from the sender's clock and sixteen random bytes. -/
def createPeerRequestAuth (hmac : PayloadHmac μ) (request : ForkWireRequest μ) (capability : List UInt8)
    (currentUnixTime : U64) (nonce : List UInt8) : ForkWireAuth :=
  { timestampUnix := currentUnixTime
    nonceHex := hexEncode nonce
    macHex := peerRequestMac hmac request currentUnixTime (hexEncode nonce) capability }

def absDiff (left right : U64) : ℕ := (left.toNat - right.toNat) + (right.toNat - left.toNat)

def isCanonicalHexChar (char : Char) : Bool := char.isDigit || ('a' ≤ char && char ≤ 'f')

def constantTimeBytesEq (left right : List UInt8) : Bool :=
  if left.length ≠ right.length then false
  else (left.zip right).foldl (fun difference pair => difference ||| (pair.1 ^^^ pair.2)) 0 == 0

/-- The checks made before the lock is taken. -/
def checkPeerRequestAuth (hmac : PayloadHmac μ) (request : ForkWireRequest μ) (capability : List UInt8)
    (nowUnix : U64) : Outcome ForkWireAuth := do
  let auth ← okOr request.auth (.error "fork peer mutation request omitted authentication")
  require (absDiff nowUnix auth.timestampUnix ≤ forkP2pAuthWindowSeconds)
    (.error "fork peer authentication timestamp is outside the allowed window")
  require (byteLength auth.nonceHex = 32 ∧ auth.nonceHex.all isCanonicalHexChar = true)
    (.error "fork peer authentication nonce must be canonical lowercase hex")
  let nonce ← okOr (hexDecode? auth.nonceHex) (.error "fork peer authentication nonce is invalid")
  require (nonce.length = 16) (.error "fork peer authentication nonce must be 16 bytes")
  require (byteLength auth.macHex = 64 ∧ auth.macHex.all isCanonicalHexChar = true)
    (.error "fork peer authentication MAC must be canonical lowercase hex")
  let providedMac ← okOr (hexDecode? auth.macHex) (.error "fork peer authentication MAC is invalid")
  let expectedMac ← okOr (hexDecode? (peerRequestMac hmac request auth.timestampUnix auth.nonceHex capability))
    (.panicked "generated HMAC is valid hex")
  require (constantTimeBytesEq providedMac expectedMac = true)
    (.error "fork peer authentication MAC does not match")
  return auth

/-- What happens under the lock: forget what the reading puts outside the window, then refuse or record
the nonce. -/
def recordNonce (nowUnix : U64) (auth : ForkWireAuth) : Routine ForkPeerReplayState String Unit := do
  let replay ← get
  let nonces := replay.nonces.filter fun _ timestamp => absDiff nowUnix timestamp ≤ forkP2pAuthWindowSeconds
  set ({ replay with nonces := nonces } : ForkPeerReplayState)
  attempt (require (auth.nonceHex ∉ nonces) "fork peer authentication nonce was already used")
  attempt (require (nonces.size < maxP2pAuthNonces) "fork peer authentication replay cache capacity exceeded")
  set ({ replay with nonces := nonces.insert auth.nonceHex auth.timestampUnix } : ForkPeerReplayState)

def verifyPeerRequestAuth (hmac : PayloadHmac μ) (request : ForkWireRequest μ) (capability : List UInt8)
    (nowUnix : U64) : Routine ForkPeerReplayState String Unit := do
  let auth ← settle (checkPeerRequestAuth hmac request capability nowUnix)
  recordNonce nowUnix auth

end P2PoolBTC.Model.Node
