import PiwcsPrw.Foundation.FiniteMap
import PiwcsPrw.Foundation.Wiring
import PiwcsPrw.Foundation.Journeys
import PiwcsPrw.Foundation.Edits
import PiwcsPrw.Foundation.Checked
import PiwcsPrw.Foundation.Asserting
import PiwcsPrw.Foundation.Machine
import PiwcsPrw.Foundation.Json
import PiwcsPrw.Foundation.Rearranged
import PiwcsPrw.Entities.Identifier
import PiwcsPrw.Entities.Metadata
import PiwcsPrw.Entities.Node
import PiwcsPrw.Entities.Section
import PiwcsPrw.Entities.Model
import PiwcsPrw.Entities.Window
import PiwcsPrw.Entities.Outcomes
import PiwcsPrw.Entities.Calls
import PiwcsPrw.Entities.Debug
import PiwcsPrw.Entities.Travel
import PiwcsPrw.Network.Basic
import PiwcsPrw.Network.Refinement
import PiwcsPrw.Network.Editing
import PiwcsPrw.Network.Simulation
import PiwcsPrw.Network.Linking
import PiwcsPrw.Network.Step
import PiwcsPrw.Network.Debugging
import PiwcsPrw.Network.Effects
import PiwcsPrw.Network.Travel
import PiwcsPrw.Network.Verdicts
import PiwcsPrw.Runs.Reachable
import PiwcsPrw.Runs.Consistent
import PiwcsPrw.Runs.Frame
import PiwcsPrw.Runs.Inverse
import PiwcsPrw.Runs.Teardown
import PiwcsPrw.Runs.BuildOrder
import PiwcsPrw.Runs.References
import PiwcsPrw.Runs.History
import PiwcsPrw.Runs.Exact
import PiwcsPrw.Runs.Assignments
import PiwcsPrw.Runs.Commute
import PiwcsPrw.Runs.Replay
import PiwcsPrw.Runs.Undo
import PiwcsPrw.Runs.Answers
import PiwcsPrw.Runs.Failures
import PiwcsPrw.Runs.Windows
import PiwcsPrw.Algorithms.Completeness
import PiwcsPrw.Runs.Journeys
import PiwcsPrw.Runs.Correct
import PiwcsPrw.Algorithms.ClosedOff
import PiwcsPrw.Algorithms.Completion
import PiwcsPrw.Runs.SlotRanges
import PiwcsPrw.Io.Minijson
import PiwcsPrw.Io.Read
import PiwcsPrw.Io.Document
import PiwcsPrw.Io.Entries
import PiwcsPrw.Io.Dispatchers
import PiwcsPrw.Io.Requests
import PiwcsPrw.Io.Loop
import PiwcsPrw.Io.Consistent
import PiwcsPrw.Io.Describe
import PiwcsPrw.Io.Accept
import PiwcsPrw.Io.NullLinks
import PiwcsPrw.Io.Errors
import PiwcsPrw.Io.Write
import PiwcsPrw.Io.MetadataStore
import PiwcsPrw.Io.Written
import PiwcsPrw.Io.WriteNetwork
import PiwcsPrw.Io.Assertions
import PiwcsPrw.Io.Range
import PiwcsPrw.Runs.Builds
import PiwcsPrw.Io.RoundTrip
import PiwcsPrw.Io.CutKeys
import PiwcsPrw.Io.WritesApart
import PiwcsPrw.Io.FieldOrder
import PiwcsPrw.Io.NormalForm
import PiwcsPrw.Io.Printing
