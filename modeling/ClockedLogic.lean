import ClockedLogic.Alu
import ClockedLogic.BitSpan
import ClockedLogic.Blueprint.Basic
import ClockedLogic.Blueprint.Build
import ClockedLogic.Blueprint.Joint
import ClockedLogic.Blueprint.Wires
import ClockedLogic.BusReference
import ClockedLogic.Chip.Basic
import ClockedLogic.Chip.Storage
import ClockedLogic.Circuit.Basic
import ClockedLogic.Circuit.Evaluation
import ClockedLogic.Circuit.Pins
import ClockedLogic.Circuit.State
import ClockedLogic.Component.Basic
import ClockedLogic.Component.Graph
import ClockedLogic.DesignError
import ClockedLogic.Digraph.Basic
import ClockedLogic.Digraph.Dot
import ClockedLogic.Digraph.Search
import ClockedLogic.Fault
import ClockedLogic.FlagSet
import ClockedLogic.Gate.Basic
import ClockedLogic.Gate.Placement
import ClockedLogic.Library
import ClockedLogic.Network.Basic
import ClockedLogic.Network.Cascade
import ClockedLogic.Network.Netlist
import ClockedLogic.Network.Signals
import ClockedLogic.Pin
import ClockedLogic.Primitive
import ClockedLogic.Proofs.Acceptance
import ClockedLogic.Proofs.AluFunctions
import ClockedLogic.Proofs.Assignments
import ClockedLogic.Proofs.BlueprintReading
import ClockedLogic.Proofs.BlueprintWiring
import ClockedLogic.Proofs.CascadeReach
import ClockedLogic.Proofs.CascadeRun
import ClockedLogic.Proofs.ClockAlgebra
import ClockedLogic.Proofs.ClockedPins
import ClockedLogic.Proofs.Commands
import ClockedLogic.Proofs.Companions
import ClockedLogic.Proofs.CycleCheck
import ClockedLogic.Proofs.DeclarationOrder
import ClockedLogic.Proofs.DepthFirst
import ClockedLogic.Proofs.DraftSteps
import ClockedLogic.Proofs.Drafting
import ClockedLogic.Proofs.Drawing
import ClockedLogic.Proofs.Drivers
import ClockedLogic.Proofs.Enduring
import ClockedLogic.Proofs.Escaping
import ClockedLogic.Proofs.Evaluating
import ClockedLogic.Proofs.Fabric
import ClockedLogic.Proofs.Falling
import ClockedLogic.Proofs.Feasibility
import ClockedLogic.Proofs.FlatDesign
import ClockedLogic.Proofs.Formation
import ClockedLogic.Proofs.GateLists
import ClockedLogic.Proofs.GateTree
import ClockedLogic.Proofs.GraphGrowth
import ClockedLogic.Proofs.Halting
import ClockedLogic.Proofs.HighBits
import ClockedLogic.Proofs.HonestFlags
import ClockedLogic.Proofs.Honesty
import ClockedLogic.Proofs.IndexSets
import ClockedLogic.Proofs.InsertionOrder
import ClockedLogic.Proofs.Layout
import ClockedLogic.Proofs.Legality
import ClockedLogic.Proofs.LinkOrder
import ClockedLogic.Proofs.Links
import ClockedLogic.Proofs.Listening
import ClockedLogic.Proofs.Logging
import ClockedLogic.Proofs.Loops
import ClockedLogic.Proofs.LowBits
import ClockedLogic.Proofs.Networks
import ClockedLogic.Proofs.PartLoops
import ClockedLogic.Proofs.PartOrder
import ClockedLogic.Proofs.PartPlacement
import ClockedLogic.Proofs.PassBounds
import ClockedLogic.Proofs.Passes
import ClockedLogic.Proofs.PinNames
import ClockedLogic.Proofs.PinPlacement
import ClockedLogic.Proofs.PinReading
import ClockedLogic.Proofs.PinRuns
import ClockedLogic.Proofs.PinSettling
import ClockedLogic.Proofs.Positions
import ClockedLogic.Proofs.ProbeRecords
import ClockedLogic.Proofs.Probing
import ClockedLogic.Proofs.RandomAccess
import ClockedLogic.Proofs.Reachability
import ClockedLogic.Proofs.Rearranging
import ClockedLogic.Proofs.Reevaluation
import ClockedLogic.Proofs.Reference
import ClockedLogic.Proofs.ReferencePrinting
import ClockedLogic.Proofs.ReferenceSyntax
import ClockedLogic.Proofs.Refreshing
import ClockedLogic.Proofs.ReorderedBuilds
import ClockedLogic.Proofs.ReorderedInterfaces
import ClockedLogic.Proofs.Reordering
import ClockedLogic.Proofs.Resting
import ClockedLogic.Proofs.Rising
import ClockedLogic.Proofs.SearchStack
import ClockedLogic.Proofs.Settling
import ClockedLogic.Proofs.Sharing
import ClockedLogic.Proofs.SignalOrder
import ClockedLogic.Proofs.SingleEdges
import ClockedLogic.Proofs.SoleDrivers
import ClockedLogic.Proofs.SpanLaws
import ClockedLogic.Proofs.Spread
import ClockedLogic.Proofs.StaleGates
import ClockedLogic.Proofs.Starting
import ClockedLogic.Proofs.Stillness
import ClockedLogic.Proofs.Storing
import ClockedLogic.Proofs.Sweeping
import ClockedLogic.Proofs.Tandem
import ClockedLogic.Proofs.Traversing
import ClockedLogic.Proofs.Trimming
import ClockedLogic.Proofs.TwoPhases
import ClockedLogic.Proofs.Unflagged
import ClockedLogic.Proofs.VisitTimes
import ClockedLogic.Proofs.Widths
import ClockedLogic.Proofs.WireAgreement
import ClockedLogic.Proofs.WireEnds
import ClockedLogic.Proofs.Wiring
import ClockedLogic.Proofs.Writing
import ClockedLogic.Record
import ClockedLogic.Text.Blank
import ClockedLogic.Text.CodeRanges
import ClockedLogic.Text.Extenders
import ClockedLogic.Text.Ignorable
import ClockedLogic.Text.Quoted
import ClockedLogic.Text.Unprintable
import ClockedLogic.Word
