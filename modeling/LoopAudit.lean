import LoopAudit.Main
import LoopAudit.Proofs.Affine
import LoopAudit.Proofs.NormalForm
import LoopAudit.Proofs.Constraint
import LoopAudit.Proofs.System
import LoopAudit.Proofs.Elimination
import LoopAudit.Proofs.Projection
import LoopAudit.Proofs.Conjunction
import LoopAudit.Proofs.Faults
import LoopAudit.Proofs.Candidates
import LoopAudit.Proofs.Enumeration
import LoopAudit.Proofs.Search
import LoopAudit.Proofs.SetAlgebra
import LoopAudit.Proofs.Reader
import LoopAudit.Proofs.Exactness
import LoopAudit.Proofs.Shadow
import LoopAudit.Proofs.AccessRange
import LoopAudit.Proofs.Bounds
import LoopAudit.Proofs.Image
import LoopAudit.Proofs.Coalescing
import LoopAudit.Proofs.Coverage
import LoopAudit.Proofs.Invariant
import LoopAudit.Proofs.Scanning
import LoopAudit.Proofs.Written
import LoopAudit.Proofs.Rereading
import LoopAudit.Proofs.RoundTrip
import LoopAudit.Proofs.Admission
import LoopAudit.Proofs.Formula
import LoopAudit.Proofs.Lexemes
import LoopAudit.Proofs.Meaning
import LoopAudit.Proofs.Reparsing
import LoopAudit.Proofs.Decoding
import LoopAudit.Proofs.JsonText
import LoopAudit.Proofs.Table
import LoopAudit.Proofs.Tag
import LoopAudit.Proofs.Respelling
import LoopAudit.Proofs.Numerals
import LoopAudit.Proofs.Snapshot
import LoopAudit.Proofs.Partition
import LoopAudit.Proofs.Irredundance
import LoopAudit.Proofs.NearestPoint
import LoopAudit.Proofs.ParentDomains
import LoopAudit.Proofs.LocalMemory
import LoopAudit.Proofs.FloorDivision
import LoopAudit.Proofs.Agreement
import LoopAudit.Proofs.Placement
import LoopAudit.Proofs.Unplaced
import LoopAudit.Proofs.Unsplit
import LoopAudit.Proofs.Differences
import LoopAudit.Proofs.DirectSearch
import LoopAudit.Proofs.Races
import LoopAudit.Proofs.Reordering
import LoopAudit.Proofs.DeviceLimits
import LoopAudit.Proofs.Layout
import LoopAudit.Proofs.Pointing
import LoopAudit.Proofs.Alignment
import LoopAudit.Proofs.Arithmetic
import LoopAudit.Proofs.SingleConstraint
