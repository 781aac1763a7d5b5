import BlendGraph.Channel
import BlendGraph.Command.Arguments
import BlendGraph.Command.Disk
import BlendGraph.Command.Failure
import BlendGraph.Command.Invocation
import BlendGraph.Command.Run
import BlendGraph.Command.Shell
import BlendGraph.Compile
import BlendGraph.Curve
import BlendGraph.Decoder
import BlendGraph.Filter
import BlendGraph.Host.Basic
import BlendGraph.Host.Document
import BlendGraph.Host.References
import BlendGraph.Host.Summary
import BlendGraph.Json.Basic
import BlendGraph.Json.Number
import BlendGraph.Json.Reader
import BlendGraph.Json.Writer
import BlendGraph.Main
import BlendGraph.Namespace
import BlendGraph.Node.Basic
import BlendGraph.Node.Prune
import BlendGraph.Node.References
import BlendGraph.Node.Threshold
import BlendGraph.Number.Decimal
import BlendGraph.Number.Rounding
import BlendGraph.Parameter.Basic
import BlendGraph.Parameter.Document
import BlendGraph.Playback
import BlendGraph.Proofs.Compile.AbandonedChannels
import BlendGraph.Proofs.Compile.AdmittedLists
import BlendGraph.Proofs.Compile.Blueprint
import BlendGraph.Proofs.Compile.BuilderEdits
import BlendGraph.Proofs.Compile.Capacity
import BlendGraph.Proofs.Compile.ChainedFilters
import BlendGraph.Proofs.Compile.ChannelInventory
import BlendGraph.Proofs.Compile.ClosedLayers
import BlendGraph.Proofs.Compile.DroppedParameters
import BlendGraph.Proofs.Compile.GeneratedClips
import BlendGraph.Proofs.Compile.HostIndependence
import BlendGraph.Proofs.Compile.HostSelector
import BlendGraph.Proofs.Compile.LeafClips
import BlendGraph.Proofs.Compile.Outcome
import BlendGraph.Proofs.Compile.ParameterChannels
import BlendGraph.Proofs.Compile.Recompilation
import BlendGraph.Proofs.Compile.RejectedLists
import BlendGraph.Proofs.Compile.Reports
import BlendGraph.Proofs.Compile.RequestedChannels
import BlendGraph.Proofs.Compile.Runs
import BlendGraph.Proofs.Compile.SharedChannels
import BlendGraph.Proofs.Compile.Substitution
import BlendGraph.Proofs.Host.ChannelFlags
import BlendGraph.Proofs.Host.DocumentDepth
import BlendGraph.Proofs.Host.GraphDocuments
import BlendGraph.Proofs.Host.GraphRereading
import BlendGraph.Proofs.Host.ListedReferences
import BlendGraph.Proofs.Host.PrunedTrees
import BlendGraph.Proofs.Host.Redirection
import BlendGraph.Proofs.Host.Shapes
import BlendGraph.Proofs.Host.TableLaws
import BlendGraph.Proofs.Host.TreeOutlines
import BlendGraph.Proofs.Json.WrittenContainers
import BlendGraph.Proofs.Json.WrittenDocuments
import BlendGraph.Proofs.Json.WrittenStrings
import BlendGraph.Proofs.Naming.ClipOrigins
import BlendGraph.Proofs.Naming.ClipOwners
import BlendGraph.Proofs.Naming.ClipRecognition
import BlendGraph.Proofs.Naming.GeneratedNames
import BlendGraph.Proofs.Number.FloatOrder
import BlendGraph.Proofs.Number.FloatTexts
import BlendGraph.Proofs.Number.RoundedValues
import BlendGraph.Proofs.Number.ScalarLaws
import BlendGraph.Proofs.Playback.CurveSampling
import BlendGraph.Proofs.Playback.Decoding
import BlendGraph.Proofs.Playback.DriverTrees
import BlendGraph.Proofs.Playback.EdgeWeights
import BlendGraph.Proofs.Playback.FailingFrames
import BlendGraph.Proofs.Playback.InitialValues
import BlendGraph.Proofs.Playback.InstalledLayers
import BlendGraph.Proofs.Playback.Interpolation
import BlendGraph.Proofs.Playback.KeyLookup
import BlendGraph.Proofs.Playback.LeafSum
import BlendGraph.Proofs.Playback.LowPass
import BlendGraph.Proofs.Playback.RationalPlayback
import BlendGraph.Proofs.Playback.Simulations
import BlendGraph.Proofs.Playback.ThresholdOrder
import BlendGraph.Proofs.Registry.CommittedFlags
import BlendGraph.Proofs.Registry.LastFlag
import BlendGraph.Proofs.Registry.RegistryRuns
import BlendGraph.Proofs.Registry.Requests
import BlendGraph.Proofs.Removal.CleanHosts
import BlendGraph.Proofs.Removal.CleanReports
import BlendGraph.Proofs.Removal.CompiledHosts
import BlendGraph.Proofs.Removal.ReclaimedCapacity
import BlendGraph.Proofs.Removal.RemainingHost
import BlendGraph.Proofs.Removal.RemovalOrder
import BlendGraph.Proofs.Removal.RoundTrip
import BlendGraph.Proofs.Removal.SeveralRoots
import BlendGraph.Proofs.Removal.SurvivingLeaves
import BlendGraph.Proofs.Removal.SurvivingParameters
import BlendGraph.Proofs.Removal.UntouchedParts
import BlendGraph.Proofs.Setup.CompilationAgreement
import BlendGraph.Proofs.Setup.FaultRules
import BlendGraph.Proofs.Setup.GatheredFaults
import BlendGraph.Proofs.Setup.SavedSetups
import BlendGraph.Proofs.Text.Scanning
import BlendGraph.Proofs.Text.Shifts
import BlendGraph.Proofs.Toml.QuotedStrings
import BlendGraph.Proofs.Toml.ScalarTexts
import BlendGraph.Proofs.Toml.StatementTexts
import BlendGraph.Proofs.Toml.TablesFromStatements
import BlendGraph.Registry
import BlendGraph.Removal
import BlendGraph.Scalar
import BlendGraph.Setup.Basic
import BlendGraph.Setup.Document
import BlendGraph.Setup.Fault
import BlendGraph.Setup.Gathering
import BlendGraph.Setup.Template
import BlendGraph.Simulation
import BlendGraph.Synthesis
import BlendGraph.Table
import BlendGraph.Text.Basic
import BlendGraph.Text.Scan
import BlendGraph.Text.Shift
import BlendGraph.Toml.Basic
import BlendGraph.Toml.Quoted
import BlendGraph.Toml.Reader
import BlendGraph.Toml.Slot
import BlendGraph.Toml.Writer
