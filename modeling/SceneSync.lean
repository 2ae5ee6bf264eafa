import SceneSync.Cleaning
import SceneSync.CommandLine.Arguments
import SceneSync.CommandLine.Reach
import SceneSync.CommandLine.Run
import SceneSync.Descriptor
import SceneSync.Extensions
import SceneSync.Failure
import SceneSync.FileTree.Basic
import SceneSync.FileTree.Change
import SceneSync.FileTree.Difference
import SceneSync.Json.Read
import SceneSync.Json.Value
import SceneSync.Located
import SceneSync.Main
import SceneSync.Number.Binary64
import SceneSync.Number.Shortest
import SceneSync.ObjectKind
import SceneSync.Path
import SceneSync.Proofs.Cleaning.Confinement
import SceneSync.Proofs.Cleaning.DryRun
import SceneSync.Proofs.Cleaning.KeptFiles
import SceneSync.Proofs.Cleaning.Manifest
import SceneSync.Proofs.Cleaning.OtherFiles
import SceneSync.Proofs.Descriptor
import SceneSync.Proofs.Descriptor.Acceptance
import SceneSync.Proofs.Descriptor.Forest
import SceneSync.Proofs.Eligibility
import SceneSync.Proofs.Execution
import SceneSync.Proofs.Extensions
import SceneSync.Proofs.FileTree.Change
import SceneSync.Proofs.FileTree.Growth
import SceneSync.Proofs.FileTree.Listing
import SceneSync.Proofs.FileTree.Removal
import SceneSync.Proofs.FileTree.Sound
import SceneSync.Proofs.FileTree.Sweep
import SceneSync.Proofs.FileTree.Walk
import SceneSync.Proofs.Pairing
import SceneSync.Proofs.Path
import SceneSync.Proofs.Script.AliasRemoval
import SceneSync.Proofs.Script.FieldsAfter
import SceneSync.Proofs.Script.Forming.Scripts
import SceneSync.Proofs.Script.Layout
import SceneSync.Proofs.Script.MergedFields
import SceneSync.Proofs.Script.Nesting
import SceneSync.Proofs.Script.ParameterConflicts
import SceneSync.Proofs.Script.PlainConversion
import SceneSync.Proofs.Script.Publishing
import SceneSync.Proofs.Script.Regular
import SceneSync.Proofs.Script.Repetition
import SceneSync.Proofs.Script.Retelling
import SceneSync.Proofs.Script.Scoping
import SceneSync.Proofs.Script.SecondConversion
import SceneSync.Proofs.Script.TypedConversion
import SceneSync.Proofs.Splice
import SceneSync.Proofs.Synchronisation.Beside
import SceneSync.Proofs.Synchronisation.Coverage
import SceneSync.Proofs.Synchronisation.DescriptorEvent
import SceneSync.Proofs.Synchronisation.Filling
import SceneSync.Proofs.Synchronisation.FullPass
import SceneSync.Proofs.Synchronisation.Mirror
import SceneSync.Proofs.Synchronisation.Reading
import SceneSync.Proofs.Synchronisation.Report
import SceneSync.Proofs.Synchronisation.ScriptsOf
import SceneSync.Proofs.Synchronisation.SecondPass
import SceneSync.Proofs.Synchronisation.Separate
import SceneSync.Proofs.Synchronisation.Stopping
import SceneSync.Proofs.Synchronisation.Update
import SceneSync.Proofs.Text.Encoding
import SceneSync.Proofs.Text.Quoted
import SceneSync.Proofs.Watch.Convergence
import SceneSync.Proofs.Watch.FullPass
import SceneSync.Proofs.Watch.Tasks
import SceneSync.Proofs.Watch.Tracking
import SceneSync.Script.Conversion
import SceneSync.Script.Cursor
import SceneSync.Script.Dialect
import SceneSync.Script.Grammar.Class
import SceneSync.Script.Grammar.Declaration
import SceneSync.Script.Grammar.Expression
import SceneSync.Script.Grammar.Function
import SceneSync.Script.Grammar.Goal
import SceneSync.Script.Grammar.Literal
import SceneSync.Script.Grammar.Markup
import SceneSync.Script.Grammar.Module
import SceneSync.Script.Grammar.Operator
import SceneSync.Script.Grammar.Pattern
import SceneSync.Script.Grammar.Statement
import SceneSync.Script.Grammar.Type
import SceneSync.Script.Grammar.TypeOperator
import SceneSync.Script.Instantiation
import SceneSync.Script.Parse
import SceneSync.Script.Sites
import SceneSync.Script.Source
import SceneSync.Script.Token
import SceneSync.Script.Tree
import SceneSync.Settings
import SceneSync.Splice
import SceneSync.Synchronisation
import SceneSync.Text.Blank
import SceneSync.Text.Integer
import SceneSync.Text.Lines
import SceneSync.Text.Printable
import SceneSync.Text.Quoted
import SceneSync.Text.Utf8
import SceneSync.Transform
import SceneSync.Watch
import SceneSync.Work
import SceneSync.Yaml.Mark
import SceneSync.Yaml.Read
import SceneSync.Yaml.Scalar
import SceneSync.Yaml.Value
import SceneSync.Proofs.Script.Recasting
import SceneSync.Proofs.Script.Phrase
import SceneSync.Proofs.Script.Rebinding
import SceneSync.Proofs.Script.TreeConversion
import SceneSync.Proofs.Script.ConvertedSites
import SceneSync.Proofs.Path.NormalForm
import SceneSync.Proofs.Script.ConstructedType
import SceneSync.Proofs.Synchronisation.Addition
import SceneSync.Proofs.Synchronisation.Followers
import SceneSync.Proofs.Text.Decoding
import SceneSync.Proofs.Descriptor.Faults
import SceneSync.Proofs.Settings
import SceneSync.Proofs.Configuration
