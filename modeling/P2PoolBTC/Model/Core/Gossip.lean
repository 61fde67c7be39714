import P2PoolBTC.Math.Fault
import P2PoolBTC.Model.Core.Hashing

/-! # Gossip networks

A message is gossiped on a network that is named by thirty-two bytes of hexadecimal text.
-/

namespace P2PoolBTC.Model.Core

open Math

inductive GossipError where
  | invalidNetworkId (reason : String)
deriving DecidableEq

/-- The text an error is reported with. -/
def GossipError.message : GossipError → String
  | .invalidNetworkId reason => "invalid gossip network id: " ++ reason

/-- Strip an optional `0x`, fold case, and require thirty-two bytes of hexadecimal text. -/
def normalizeHex32 (value : Text) (failure : String → GossipError) : Except GossipError Text := do
  let folded := toAsciiLowercase ((stripLeading? ['0', 'x'] value).getD value)
  require (IsHexOfLength folded 64)
    (failure "value must be 32 bytes encoded as 64 hex characters")
  return folded

def normalizeGossipNetworkId (value : Text) : Except GossipError Text :=
  normalizeHex32 value .invalidNetworkId

end P2PoolBTC.Model.Core
