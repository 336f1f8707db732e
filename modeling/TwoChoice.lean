import TwoChoice.Table.Builder
import TwoChoice.Proofs.Structure
import TwoChoice.Proofs.Refinement
import TwoChoice.Proofs.Atomic
import TwoChoice.Proofs.Widths
import TwoChoice.Proofs.Spells
import TwoChoice.Proofs.Guards
import TwoChoice.Proofs.HandOver
import TwoChoice.Proofs.Full
import TwoChoice.Proofs.Traffic
import TwoChoice.Proofs.Faults
import TwoChoice.Proofs.Chunks
import TwoChoice.Proofs.Crews
import TwoChoice.Proofs.Renewal
import TwoChoice.Proofs.Seats
import TwoChoice.Proofs.Inert
import TwoChoice.Proofs.Usage
import TwoChoice.Proofs.Probes
import TwoChoice.Proofs.Passes
import TwoChoice.Proofs.Murmur
import TwoChoice.Proofs.Picks
import TwoChoice.Proofs.Overflow
import TwoChoice.Proofs.Evictions
import TwoChoice.Proofs.Votes
import TwoChoice.Proofs.Matches
import TwoChoice.Proofs.Locality
import TwoChoice.Proofs.Costs
import TwoChoice.Proofs.Detached
import TwoChoice.Proofs.Reserved
import TwoChoice.Proofs.Twins
import TwoChoice.Proofs.Values
import TwoChoice.Proofs.Strides
import TwoChoice.Proofs.Packing
import TwoChoice.Proofs.LockSet
