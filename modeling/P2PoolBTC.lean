import P2PoolBTC.Soundness.AuthorizationProofs
import P2PoolBTC.Soundness.BatchReservation
import P2PoolBTC.Soundness.CreditAtomicity
import P2PoolBTC.Soundness.DifficultyBits
import P2PoolBTC.Soundness.ErrorAtomicity
import P2PoolBTC.Soundness.ExplorerMirror
import P2PoolBTC.Soundness.IdentityCommitments
import P2PoolBTC.Soundness.MerkleBranches
import P2PoolBTC.Soundness.NormalForms
import P2PoolBTC.Soundness.ObjectiveResults
import P2PoolBTC.Soundness.PayoutOrder
import P2PoolBTC.Soundness.PeerReplay
import P2PoolBTC.Soundness.PlanHashes
import P2PoolBTC.Soundness.RatioGates
import P2PoolBTC.Soundness.ShareRebuild
import P2PoolBTC.Soundness.SnapshotRoots
import P2PoolBTC.Soundness.TornAppends
import P2PoolBTC.Soundness.VaultTransactions
import P2PoolBTC.Soundness.VoteWeights
import P2PoolBTC.Soundness.WorkBinding
