import MipsOnArm.Guest.Execution
import MipsOnArm.Guest.Memory
import MipsOnArm.Session
import MipsOnArm.Lowering.Family
import MipsOnArm.Proofs.Guest.Execution
import MipsOnArm.Proofs.Guest.Extent
import MipsOnArm.Proofs.Guest.Memory
import MipsOnArm.Proofs.Guest.Destination
import MipsOnArm.Proofs.Host.Flags
import MipsOnArm.Proofs.Host.StraightLine
import MipsOnArm.Proofs.Host.Orderly
import MipsOnArm.Proofs.Host.Reserved
import MipsOnArm.Proofs.Host.Fixups
import MipsOnArm.Proofs.Residency.WellFormed
import MipsOnArm.Proofs.Residency.Represents
import MipsOnArm.Proofs.Residency.Mapping
import MipsOnArm.Proofs.Residency.Invariant
import MipsOnArm.Proofs.Residency.Recency
import MipsOnArm.Proofs.Residency.Requests
import MipsOnArm.Proofs.Residency.View
import MipsOnArm.Proofs.Lowering.Operation
import MipsOnArm.Proofs.Lowering.Comparison
import MipsOnArm.Proofs.Lowering.Actions
import MipsOnArm.Proofs.Lowering.Opening
import MipsOnArm.Proofs.Lowering.Slot
import MipsOnArm.Proofs.Lowering.Delayed
import MipsOnArm.Proofs.Lowering.Decision
import MipsOnArm.Proofs.Lowering.WholeBlock
import MipsOnArm.Proofs.Lowering.Fresh
import MipsOnArm.Proofs.Lowering.Ensures
import MipsOnArm.Proofs.Lowering.Faultless
import MipsOnArm.Proofs.Lowering.Nesting
import MipsOnArm.Proofs.Lowering.Calls
import MipsOnArm.Proofs.Lowering.History
import MipsOnArm.Proofs.Lowering.Outcome
import MipsOnArm.Proofs.Lowering.Counting
import MipsOnArm.Proofs.Lowering.Memories
import MipsOnArm.Proofs.Lowering.Reserved
import MipsOnArm.Proofs.Lowering.Family
import MipsOnArm.Proofs.Lowering.Inspection
import MipsOnArm.Proofs.Simulation
import MipsOnArm.Proofs.Preservation
import MipsOnArm.Proofs.Lowering.Orderly
import MipsOnArm.Proofs.Lowering.Exits
import MipsOnArm.Proofs.BlockTable
import MipsOnArm.Proofs.BlockTable.Links
import MipsOnArm.Proofs.Session.Steps
import MipsOnArm.Proofs.Session.Transparency
import MipsOnArm.Proofs.Session.Granularity
import MipsOnArm.Proofs.Session.Linking
import MipsOnArm.Proofs.Session.Runs
