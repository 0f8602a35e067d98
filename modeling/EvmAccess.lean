import EvmAccess.Access.DeadStore
import EvmAccess.Access.Ledger
import EvmAccess.Access.Offset
import EvmAccess.Access.Token
import EvmAccess.Domain.CellSet
import EvmAccess.Domain.Memory
import EvmAccess.Domain.OffsetSet
import EvmAccess.Domain.Offsets
import EvmAccess.Domain.Slots
import EvmAccess.Evm.BlockId
import EvmAccess.Evm.CodeGraph
import EvmAccess.Evm.Error
import EvmAccess.Evm.Instruction
import EvmAccess.Evm.Opcode
import EvmAccess.Evm.Stack
import EvmAccess.Flow.Domain
import EvmAccess.Flow.Fixpoint
import EvmAccess.Flow.Graph
import EvmAccess.Flow.Journal
import EvmAccess.Flow.Point
import EvmAccess.Journal
import EvmAccess.Ordered.Map
import EvmAccess.Ordered.Set
import EvmAccess.Pipeline
import EvmAccess.Proofs.Access.Certainty
import EvmAccess.Proofs.Access.Ledger
import EvmAccess.Proofs.Access.Locations
import EvmAccess.Proofs.Access.Observation
import EvmAccess.Proofs.Access.Relation
import EvmAccess.Proofs.Access.Verdicts
import EvmAccess.Proofs.Allocations
import EvmAccess.Proofs.Domain.AbstractMemory
import EvmAccess.Proofs.Domain.AddressArithmetic
import EvmAccess.Proofs.Domain.KeptOffsets
import EvmAccess.Proofs.Domain.MemoryBound
import EvmAccess.Proofs.Domain.MemoryReads
import EvmAccess.Proofs.Domain.OffsetBound
import EvmAccess.Proofs.Domain.OffsetMonotone
import EvmAccess.Proofs.Domain.OffsetOrder
import EvmAccess.Proofs.Domain.OffsetSoundness
import EvmAccess.Proofs.Domain.OpenAllocations
import EvmAccess.Proofs.Domain.Semilattices
import EvmAccess.Proofs.Domain.SlotBound
import EvmAccess.Proofs.Domain.StoredValues
import EvmAccess.Proofs.Domain.Sums
import EvmAccess.Proofs.Domain.UntrackedReads
import EvmAccess.Proofs.Evm.Building
import EvmAccess.Proofs.Evm.CodeGraph
import EvmAccess.Proofs.Evm.InstructionText
import EvmAccess.Proofs.Evm.Machine
import EvmAccess.Proofs.Evm.Opcode
import EvmAccess.Proofs.Evm.OpcodeNames
import EvmAccess.Proofs.Evm.PointText
import EvmAccess.Proofs.Flow.Agreement
import EvmAccess.Proofs.Flow.Context
import EvmAccess.Proofs.Flow.DanglingEdges
import EvmAccess.Proofs.Flow.Interrupted
import EvmAccess.Proofs.Flow.Invariant
import EvmAccess.Proofs.Flow.Landmarks
import EvmAccess.Proofs.Flow.NodeLimit
import EvmAccess.Proofs.Flow.Order
import EvmAccess.Proofs.Flow.PostFixpoint
import EvmAccess.Proofs.Flow.Reached
import EvmAccess.Proofs.Flow.Results
import EvmAccess.Proofs.Flow.Schedule
import EvmAccess.Proofs.Flow.Termination
import EvmAccess.Proofs.Flow.Turn
import EvmAccess.Proofs.FollowedConstants
import EvmAccess.Proofs.Heights
import EvmAccess.Proofs.Ordered
import EvmAccess.Proofs.Reachability
import EvmAccess.Proofs.Recording
import EvmAccess.Proofs.Replay
import EvmAccess.Proofs.Solution
import EvmAccess.Proofs.Summary.Addresses
import EvmAccess.Proofs.Summary.DeadWrites
import EvmAccess.Proofs.Summary.Entries
import EvmAccess.Proofs.Summary.Pairs
import EvmAccess.Proofs.Totality
import EvmAccess.Proofs.Unreachable
import EvmAccess.Summary
import EvmAccess.Text.Blank
import EvmAccess.Text.Hidden
import EvmAccess.Text.Listing
import EvmAccess.Text.Numeral
import EvmAccess.Text.Quoted
