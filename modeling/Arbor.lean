import Arbor.Grammar.Description
import Arbor.Main
import Arbor.Proofs.Growth.Limit
import Arbor.Proofs.Skeleton.Annotation
import Arbor.Proofs.Walk.Arena
import Arbor.Proofs.Double
import Arbor.Proofs.Growth.Choice
import Arbor.Proofs.Growth.Reread
import Arbor.Proofs.Walk.Depth
import Arbor.Proofs.Growth.Kindred
import Arbor.Proofs.Walk.Shape
import Arbor.Proofs.Walk.Position
import Arbor.Proofs.Plan.Shape
import Arbor.Proofs.Branch.Topology
import Arbor.Proofs.Export.Merged
import Arbor.Proofs.Decimal.Reading
import Arbor.Proofs.Walk.Siblings
import Arbor.Proofs.Tree.Stats
import Arbor.Proofs.Tree.Leaves
import Arbor.Proofs.Growth.Balance
import Arbor.Proofs.Growth.Reachable
import Arbor.Proofs.Preset
import Arbor.Proofs.Tree.Numbering
import Arbor.Proofs.Rng.Period
import Arbor.Proofs.Grammar.Validity
import Arbor.Proofs.CommandLine.Agreement
import Arbor.Proofs.Definition.Defaults
import Arbor.Proofs.Walk.Topology
import Arbor.Proofs.Draw.Weighted
import Arbor.Proofs.Tree.RoundTrip
import Arbor.Proofs.Growth.Substitution
import Arbor.Proofs.Walk.Forks
import Arbor.Proofs.Leaf.Copies
import Arbor.Proofs.Branch.Texture
import Arbor.Proofs.Leaf.Outline
import Arbor.Proofs.Rng.Seed
import Arbor.Proofs.Growth.Dated
import Arbor.Proofs.Sentence.Jitter
import Arbor.Proofs.Plan.Lengths
import Arbor.Proofs.Draw.Even
import Arbor.Proofs.Space.Rotation
import Arbor.Proofs.Walk.Heading
import Arbor.Proofs.Branch.Circle
import Arbor.Proofs.CommandLine.Storage
