import ShapeGraph.Main
import ShapeGraph.Proofs.Growth
import ShapeGraph.Proofs.Inner
import ShapeGraph.Proofs.Membership
import ShapeGraph.Proofs.Outcomes
import ShapeGraph.Reference.Order
import ShapeGraph.Settings.Printer
import ShapeGraph.Proofs.Corpus
import ShapeGraph.Proofs.Descriptions
import ShapeGraph.Proofs.Invariant
import ShapeGraph.Proofs.Parts
import ShapeGraph.Proofs.Soundness
import ShapeGraph.Proofs.Runs
import ShapeGraph.Proofs.Frames
import ShapeGraph.Proofs.Vocabulary
import ShapeGraph.Proofs.Finiteness
import ShapeGraph.Proofs.Termination
import ShapeGraph.Proofs.Acceptance
import ShapeGraph.Proofs.Links
import ShapeGraph.Proofs.Effects
import ShapeGraph.Proofs.Sessions
import ShapeGraph.Proofs.Retries
import ShapeGraph.Proofs.Reachability
import ShapeGraph.Proofs.Yields
import ShapeGraph.Proofs.Completeness
import ShapeGraph.Proofs.Keys
import ShapeGraph.Proofs.Labels
import ShapeGraph.Proofs.Labelling
import ShapeGraph.Proofs.LabelledRuns
import ShapeGraph.Proofs.Isomorphism
import ShapeGraph.Proofs.Lockstep
import ShapeGraph.Proofs.PartsInStep
import ShapeGraph.Proofs.PlacesInStep
import ShapeGraph.Proofs.Limits
import ShapeGraph.Proofs.Noninterference
import ShapeGraph.Proofs.ReferenceCycles
import ShapeGraph.Proofs.Restoration
import ShapeGraph.Proofs.Lending
import ShapeGraph.Proofs.SingleDocument
import ShapeGraph.Proofs.DefinitionNames
import ShapeGraph.Proofs.Requests
import ShapeGraph.Proofs.Sharing
import ShapeGraph.Proofs.Mirroring
import ShapeGraph.Proofs.Escapes
import ShapeGraph.Proofs.RoundTrips
import ShapeGraph.Proofs.Fetching
import ShapeGraph.Proofs.Paths
import ShapeGraph.Proofs.SourcesInStep
import ShapeGraph.Proofs.Resolution
import ShapeGraph.Proofs.Discovery
import ShapeGraph.Proofs.Directories
import ShapeGraph.Proofs.Preloading
import ShapeGraph.Proofs.Handles
import ShapeGraph.Proofs.LookingThrough
import ShapeGraph.Proofs.Groups
import ShapeGraph.Proofs.Descent
import ShapeGraph.Proofs.Doubles
import ShapeGraph.Proofs.ShortestDigits
import ShapeGraph.Proofs.NumberTexts
import ShapeGraph.Proofs.JsonTexts
import ShapeGraph.Proofs.Brackets
import ShapeGraph.Proofs.ReadNumbers
import ShapeGraph.Proofs.Bundles
import ShapeGraph.Proofs.Merging
import ShapeGraph.Proofs.SharedNodes
import ShapeGraph.Proofs.Repetition
import ShapeGraph.Proofs.Addresses
import ShapeGraph.Proofs.Siblings
import ShapeGraph.Proofs.Singulars
import ShapeGraph.Proofs.DotTexts
import ShapeGraph.Proofs.Drawings
import ShapeGraph.Proofs.TomlTexts
import ShapeGraph.Proofs.SettingsTexts
import ShapeGraph.Proofs.Overlays
import ShapeGraph.Proofs.Writing
import ShapeGraph.Proofs.SavedSettings
