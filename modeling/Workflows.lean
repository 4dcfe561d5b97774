import Workflows.Yaml.Scalar
import Workflows.Data.Keyed
import Workflows.Definition.Basic
import Workflows.Definition.Check
import Workflows.Graph.Plan
import Workflows.Json.Text
import Workflows.NodeType.Builtin
import Workflows.NodeType.Scripted
import Workflows.Run.Event
import Workflows.Yaml.Token
import Workflows.Shape.ConformYaml
import Workflows.Config.Basic
import Workflows.Config.Override
import Workflows.Store.Basic
import Workflows.Catalog.Basic
import Workflows.Run.Coordinator
import Workflows.Engine.Basic
import Workflows.Engine.Calls
import Workflows.Tools.Scripted
import Workflows.Engine.Schedule
import Workflows.Web.Exchange
import Workflows.Tools.Connections
import Workflows.Tools.ScriptedPeer
import Workflows.Files.Definitions
import Workflows.Api.Answer
import Workflows.Api.Serve
import Workflows.CommandLine.Variables
import Workflows.Json.Pretty
import Workflows.CommandLine.Arguments
import Workflows.CommandLine.Execute
import Workflows.Main
import Workflows.Proofs.Keyed
import Workflows.Proofs.Plan.Graph
import Workflows.Proofs.Plan.Cycles
import Workflows.Proofs.Plan.Order
import Workflows.Proofs.Plan.Closure
import Workflows.Proofs.Plan.Circle
import Workflows.Proofs.Plan.Canonical
import Workflows.Proofs.Definition.Checked
import Workflows.Proofs.Run.Record
import Workflows.Proofs.Run.Turn
import Workflows.Proofs.Store.Kept
import Workflows.Proofs.Run.Sound
import Workflows.Proofs.Run.Advance
import Workflows.Proofs.Run.History
import Workflows.Proofs.Run.Validated
import Workflows.Proofs.Run.Tally
import Workflows.Proofs.Run.Recorded
import Workflows.Proofs.Run.Release
import Workflows.Proofs.Run.Effort
import Workflows.Proofs.Run.Ending
import Workflows.Proofs.Run.Results
import Workflows.Proofs.Run.Stopping
import Workflows.Proofs.Run.Blame
import Workflows.Proofs.Run.Sequential
import Workflows.Proofs.Run.Schedule
import Workflows.Proofs.Store.Stamps
import Workflows.Proofs.Engine.Strides
import Workflows.Proofs.Engine.Starts
import Workflows.Proofs.Time.Calendar
import Workflows.Proofs.Time.Column
import Workflows.Proofs.Json.Quote
import Workflows.Proofs.Store.Rows
import Workflows.Proofs.Store.Agreement
import Workflows.Proofs.Run.Clients
import Workflows.Proofs.Run.Durable
import Workflows.Proofs.Run.Told
import Workflows.Proofs.Engine.Retention
import Workflows.Proofs.Engine.Chains
import Workflows.Proofs.Engine.Office
import Workflows.Proofs.Engine.Phases
import Workflows.Proofs.Engine.Window
import Workflows.Proofs.Json.Roundtrip
import Workflows.Proofs.Store.Payloads
import Workflows.Proofs.Run.WellFormed
import Workflows.Proofs.Engine.Hosts
import Workflows.Proofs.Engine.Pruned
import Workflows.Proofs.Engine.Chronicle
import Workflows.Proofs.Engine.Protocol
import Workflows.Proofs.Engine.Records
import Workflows.Proofs.Engine.Guarded
import Workflows.Proofs.Run.Rejected
import Workflows.Proofs.Engine.Outcomes
import Workflows.Proofs.Fallible
import Workflows.Proofs.Time.Printed
import Workflows.Proofs.Shape.Plain
import Workflows.Proofs.Definition.Roundtrip
import Workflows.Proofs.Web.Percent
import Workflows.Proofs.Api.Addressing
import Workflows.Proofs.Engine.Onward
import Workflows.Proofs.Engine.Concluded
import Workflows.Proofs.Engine.Stream
import Workflows.Proofs.Engine.Requests
import Workflows.Proofs.Engine.Handlers
import Workflows.Proofs.Plan.Reported
import Workflows.Proofs.Plan.Clear
import Workflows.Proofs.Run.Serial
import Workflows.Proofs.Catalog.History
import Workflows.Proofs.Run.Documents
import Workflows.Proofs.Definition.WellFormed
import Workflows.Proofs.Run.Inputs
import Workflows.Proofs.Run.Culprit
import Workflows.Proofs.Run.Bare
import Workflows.Proofs.Store.Chronological
import Workflows.Proofs.Engine.Pruning
import Workflows.Proofs.Run.Invoked
import Workflows.Proofs.Engine.Tallied
import Workflows.Proofs.Engine.Furnished
import Workflows.Proofs.Engine.Unfolding
import Workflows.Proofs.Engine.Reachable
import Workflows.Proofs.Engine.Completions
import Workflows.Proofs.Tools.Slots
import Workflows.Proofs.Tools.Sessions
import Workflows.Proofs.Tools.Shared
import Workflows.Proofs.Run.Downstream
