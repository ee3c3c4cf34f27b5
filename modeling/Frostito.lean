import Frostito.Lib.Outcome
import Frostito.Lib.Calls
import Frostito.Lib.Horner
import Frostito.Lib.Interpolation
import Frostito.Lib.Framing
import Frostito.Lib.Schnorr
import Frostito.Lib.Slots
import Frostito.Lib.Sorted
import Frostito.Lib.Keyed
import Frostito.Lib.Batching
import Frostito.Lib.Chunks
import Frostito.Lib.Reduction
import Frostito.Lib.Lucas
import Frostito.Error
import Frostito.Curve
import Frostito.Reference.Sha2
import Frostito.Reference.Backend
import Frostito.Reference.Lines
import Frostito.Lagrange
import Frostito.DealerSet
import Frostito.Lib.Sharing
import Frostito.Index
import Frostito.Reshare.Commitment
import Frostito.Reference.Padded
import Frostito.Reshare.Batch
import Frostito.Reshare.Dealer
import Frostito.Reshare.Aggregator
import Frostito.Codec
import Frostito.Reshare.Combination
import Frostito.Reshare.Delivery
import Frostito.Reshare.Soundness
import Frostito.Reshare.Order
import Frostito.Reshare.Agreement
import Frostito.Reshare.Chain
import Frostito.Nested.Package
import Frostito.Zf
import Frostito.Identifiers
import Frostito.Nested.Commit
import Frostito.Nested.Reveal
import Frostito.Nested.Sign
import Frostito.Nested.Signature
import Frostito.Nested.Aggregate
import Frostito.Nested.Blame
import Frostito.Nested.Flat
import Frostito.Nested.Acceptable
import Frostito.Nested.Answer
import Frostito.Nested.Refusal
import Frostito.Reference.Suite
import Frostito.Dkg.Proof
import Frostito.Dkg.State
import Frostito.Dkg.Dealer
import Frostito.Dkg.Echo
import Frostito.Dkg.Complaint
import Frostito.Dkg.Binding
import Frostito.Dkg.Accusation
import Frostito.Dkg.Agreement
import Frostito.Dkg.Threshold
import Frostito.Dkg.Representation
import Frostito.Dkg.Tally
import Frostito.Dkg.Convergence
import Frostito.Dkg.Aggregator
import Frostito.Dkg.Correctness
import Frostito.Reshare.State
import Frostito.Reshare.GroupKey
import Frostito.Reshare.Rollover
import Frostito.Reshare.Finishing
import Frostito.Nested.Interleaved
import Frostito.Sharers
import Frostito.Lib.Layered
import Frostito.Nested.Secrecy
import Frostito.Nested.Hiding
import Frostito.Reshare.Proactive
import Frostito.Reshare.Split
import Frostito.Abort
import Frostito.Reshare.Batches
import Frostito.RoundTrip
import Frostito.WordSize
import Frostito.Backends.Secp256k1
import Frostito.Backends.Sampling
import Frostito.Signer.Context
import Frostito.Signer.Stack
import Frostito.Signer.Spent
import Frostito.Signer.Bound
import Frostito.Sealed.Roster
import Frostito.Reference.Snow
import Frostito.Sealed.Open
import Frostito.Sealed.Evidence
import Frostito.Sealed.Refusal
import Frostito.Sealed.Integrity
import Frostito.Ceremony.World
import Frostito.Ceremony.Completion
import Frostito.Ceremony.Agreement
import Frostito.Ceremony.Blame
import Frostito.Ceremony.Restarts
import Frostito.Ceremony.Reports
import Frostito.Ceremony.Lifetime
