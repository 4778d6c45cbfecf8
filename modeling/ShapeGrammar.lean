import ShapeGrammar.Binary32
import ShapeGrammar.Derivation
import ShapeGrammar.Document.Reader
import ShapeGrammar.Document.Decode
import ShapeGrammar.Proofs.Failure
import ShapeGrammar.Proofs.Step
import ShapeGrammar.Proofs.Exec
import ShapeGrammar.Proofs.Ending
import ShapeGrammar.Proofs.Recursion
import ShapeGrammar.Proofs.Locality
import ShapeGrammar.Proofs.Composition
import ShapeGrammar.Proofs.Branches
import ShapeGrammar.Proofs.Linear
import ShapeGrammar.Proofs.Configuration
import ShapeGrammar.Proofs.Cause
import ShapeGrammar.Proofs.Inlining
import ShapeGrammar.Proofs.Dependence
import ShapeGrammar.Proofs.Limit
import ShapeGrammar.Proofs.Ranking
import ShapeGrammar.Proofs.Conservation
import ShapeGrammar.Proofs.Similar
import ShapeGrammar.Proofs.Exact
import ShapeGrammar.Proofs.Rigid
import ShapeGrammar.Proofs.Placement
import ShapeGrammar.Proofs.Inheritance
import ShapeGrammar.Proofs.Rigidity
import ShapeGrammar.Proofs.Equivariance
import ShapeGrammar.Proofs.Motion
import ShapeGrammar.Proofs.Sharing
import ShapeGrammar.Proofs.Allotment
import ShapeGrammar.Proofs.Preorder
import ShapeGrammar.Proofs.Tiling
import ShapeGrammar.Proofs.Volume
import ShapeGrammar.Proofs.Form
import ShapeGrammar.Proofs.Oblivious
import ShapeGrammar.Proofs.Substitution
import ShapeGrammar.Proofs.FirstMatch
import ShapeGrammar.Proofs.Application
import ShapeGrammar.Proofs.Numbers
import ShapeGrammar.Proofs.Parts
import ShapeGrammar.Proofs.RoundTrip
import ShapeGrammar.Proofs.Rewording
import ShapeGrammar.Proofs.Bits
import ShapeGrammar.Proofs.Positional
import ShapeGrammar.Proofs.Shortest
import ShapeGrammar.Proofs.Translation
import ShapeGrammar.Proofs.Canonical
import ShapeGrammar.Proofs.Phrase
import ShapeGrammar.Proofs.Legible
import ShapeGrammar.Proofs.Lines
import ShapeGrammar.Proofs.Overlap
import ShapeGrammar.Proofs.Turns
import ShapeGrammar.Proofs.Corners
import ShapeGrammar.Proofs.Directions
import ShapeGrammar.Proofs.Standing
import ShapeGrammar.Proofs.Fault
import ShapeGrammar.Proofs.Boundary
import ShapeGrammar.Proofs.Place
import ShapeGrammar.Proofs.Caret
import ShapeGrammar.Proofs.Euler
import ShapeGrammar.Proofs.SingleTurn
import ShapeGrammar.Proofs.YawPitchRoll
import ShapeGrammar.Proofs.Grouping
import ShapeGrammar.Proofs.Margin
