import ScopeLowering.Main
import ScopeLowering.Proofs.Acceptance
import ScopeLowering.Proofs.Coherence
import ScopeLowering.Proofs.Conservation
import ScopeLowering.Proofs.Idempotence
import ScopeLowering.Proofs.Legality
import ScopeLowering.Proofs.OffsetOrder
import ScopeLowering.Proofs.Overlap
import ScopeLowering.Proofs.Reading
import ScopeLowering.Proofs.Rebinding
import ScopeLowering.Proofs.Rivals
import ScopeLowering.Proofs.Conversions
import ScopeLowering.Proofs.Budget
import ScopeLowering.Proofs.Completion
import ScopeLowering.Proofs.Ownership
import ScopeLowering.Proofs.Gathering
import ScopeLowering.Proofs.Marker
import ScopeLowering.Proofs.Lifetimes
import ScopeLowering.Proofs.Discretion
import ScopeLowering.Proofs.Conduct
import ScopeLowering.Proofs.Confinement
import ScopeLowering.Proofs.Orderliness
import ScopeLowering.Proofs.Constancy
import ScopeLowering.Proofs.Jumps
import ScopeLowering.Proofs.Changes
import ScopeLowering.Proofs.Exits
import ScopeLowering.Proofs.Landing
import ScopeLowering.Proofs.Boundaries
import ScopeLowering.Proofs.Contract
import ScopeLowering.Proofs.Verbosity
import ScopeLowering.Proofs.Isolation
import ScopeLowering.Proofs.Rendering
import ScopeLowering.Proofs.Handles
import ScopeLowering.Proofs.Standing
import ScopeLowering.Proofs.Carrying
import ScopeLowering.Proofs.Foresight
import ScopeLowering.Proofs.Substitution
import ScopeLowering.Proofs.Captures
import ScopeLowering.Proofs.Entries
import ScopeLowering.Proofs.Keywords
import ScopeLowering.Proofs.Handover
import ScopeLowering.Proofs.Equality
import ScopeLowering.Proofs.Assignment
import ScopeLowering.Proofs.OffsetStyles
import ScopeLowering.Proofs.Timers
import ScopeLowering.Proofs.Words
