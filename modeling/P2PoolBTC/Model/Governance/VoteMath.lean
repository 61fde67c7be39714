import P2PoolBTC.Math.Checked
import P2PoolBTC.Math.Fault

/-! # Vote weights and ratio gates

The governance contract and the governance engine compute the weight of a stake and decide ratio gates, each
in its own way. The contract's words trap on overflow and on division by zero, which is `none`; so is an
overflow in the engine.
-/

namespace P2PoolBTC.Model.Governance

open Math

def stakeQuantumAtoms : U128 := 1000000000000

/-! ## The contract -/

namespace Contract

def flipTrustFloorBps : U16 := 4000

def flipTrustCeilingBps : U16 := 10000

def safeDiv (left right : U128) : Option U128 := if right = 0 then none else some (left / right)

/-- Newton's iteration. The estimate falls with every round, so there are fewer rounds than its first value. -/
def newtonLoop (value : U128) : ℕ → U128 → U128 → Option U128
  | 0, _, _ => none
  | fuel + 1, x, y =>
    if y < x then do
      let quotient ← safeDiv value y
      let sum ← checkedAdd y quotient
      newtonLoop value fuel y (sum >>> 1)
    else some x

def integerSqrt (value : U128) : Option U128 :=
  if value = 0 then some 0 else do
    let y ← checkedAdd (value >>> 1) 1
    newtonLoop value (value.toNat + 1) value y

def effectiveVoteWeight (stakeAtoms : U128) (identityStatusBps trustBps : U16) : Option U128 :=
  if identityStatusBps = 0 ∨ trustBps < flipTrustFloorBps ∨ flipTrustCeilingBps < trustBps then some 0 else do
    let quanta ← safeDiv stakeAtoms stakeQuantumAtoms
    let score ← integerSqrt quanta
    let scaled ← checkedMul score (identityStatusBps.setWidth 128)
    let weighted ← checkedMul scaled (trustBps.setWidth 128)
    safeDiv weighted 100000000

def ratioAtLeast (numerator denominator : U128) (requiredBps : U16) : Option Bool :=
  if denominator = 0 then some false else do
    let left ← checkedMul (numerator.setWidth 256 : BitVec 256) 10000
    let right ← checkedMul (denominator.setWidth 256 : BitVec 256) (requiredBps.setWidth 256)
    return decide (right ≤ left)

end Contract

/-! ## The engine -/

inductive MathError where
  | invalidBasisPoints
  | overflow
deriving DecidableEq

namespace Engine

/-- Bisection. The range is halved in every round and is not longer than `2 ^ 64` at first. -/
def bisect (value : U128) : ℕ → U128 → U128 → Option U128
  | 0, _, _ => none
  | fuel + 1, low, high =>
    if low < high then do
      let gap ← checkedSub high low
      let middle ← checkedAdd low (gap / 2 + gap % 2)
      if middle ≤ value / middle then bisect value fuel middle high
      else do
        let below ← checkedSub middle 1
        bisect value fuel low below
    else some low

def integerSqrt (value : U128) : Option U128 :=
  if value < 2 then some value
  else bisect value 128 1 ((1 : U128) <<< ((Nat.size value.toNat + 1) / 2))

def stakeScore (activeStakeAtoms : U128) : Option U128 := integerSqrt (activeStakeAtoms / stakeQuantumAtoms)

def effectiveVoteWeight (activeStakeAtoms : U128) (identityStatusBps flipTrustBps : U16) :
    Option (Except MathError U128) := do
  if 10000 < identityStatusBps ∨ 10000 < flipTrustBps then return .error .invalidBasisPoints
  else
    let score ← stakeScore activeStakeAtoms
    return okOr ((checkedMul score (identityStatusBps.setWidth 128)).bind fun value =>
      (checkedMul value (flipTrustBps.setWidth 128)).map (· / 100000000)) .overflow

/-- One digit step: the remainder grows by the addend, modulo the denominator. -/
def ratioStep (denominator addend : U128) (state : U128 × U16) : Option (U128 × U16) := do
  let complement ← checkedSub denominator addend
  if addend ≠ 0 ∧ complement ≤ state.1 then do
    let remainder ← checkedSub state.1 complement
    let fractional ← checkedAdd state.2 1
    return (remainder, fractional)
  else do
    let remainder ← checkedAdd state.1 addend
    return (remainder, state.2)

def ratioSteps (denominator addend : U128) : ℕ → U128 × U16 → Option (U128 × U16)
  | 0, state => some state
  | count + 1, state => do
    let next ← ratioStep denominator addend state
    ratioSteps denominator addend count next

/-- The share of the numerator, at most the denominator, in basis points. -/
def ratioDigits (numerator denominator : U128) : Option U16 :=
  if denominator = 0 then some 0 else do
    let part := if numerator ≤ denominator then numerator else denominator
    let (_, fractional) ← ratioSteps denominator (part % denominator) 10000 (0, 0)
    let whole ← checkedMul ((part / denominator).setWidth 16) (10000 : U16)
    let total ← checkedAdd whole fractional
    return if total ≤ 10000 then total else 10000

end Engine

/-- The ratio of the acceptance gates. -/
def Gates.ratioBps (numerator denominator : U128) : Option U16 := Engine.ratioDigits numerator denominator

/-- The ratio of the epoch votes, computed in the same way. -/
def EpochGovernance.ratioBps (numerator denominator : U128) : Option U16 := Engine.ratioDigits numerator denominator

end P2PoolBTC.Model.Governance
