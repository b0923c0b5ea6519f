import MatchingEngine.Lib.Word
import MatchingEngine.Lib.Linked
import MatchingEngine.Lib.Dense
import MatchingEngine.Lib.Priority
import MatchingEngine.Lib.Keyed
import MatchingEngine.Lib.Run
import MatchingEngine.Core.Types
import MatchingEngine.Core.Arena
import MatchingEngine.Core.Book
import MatchingEngine.Core.Engine
import MatchingEngine.Core.Ledger
import MatchingEngine.Risk.Model
import MatchingEngine.Ref.Model
import MatchingEngine.Ref.WellFormed
import MatchingEngine.Ref.Sweep
import MatchingEngine.Ref.Step
import MatchingEngine.Ref.Total
import MatchingEngine.Ref.Quantity
import MatchingEngine.Ref.Stamp
import MatchingEngine.Proof.Rep
import MatchingEngine.Proof.Unlink
import MatchingEngine.Proof.Rest
import MatchingEngine.Proof.Amend
import MatchingEngine.Proof.Abs
import MatchingEngine.Proof.Sim
import MatchingEngine.Proof.Sweep
import MatchingEngine.Proof.Walk
import MatchingEngine.Proof.Refine
import MatchingEngine.Main.Refinement
import MatchingEngine.Main.Uncrossed
import MatchingEngine.Main.Invariant
import MatchingEngine.Risk.Gate
import MatchingEngine.Risk.Limits
import MatchingEngine.Main.Cap
import MatchingEngine.Main.Aggregates
import MatchingEngine.Main.Priority
import MatchingEngine.Main.Reports
import MatchingEngine.Proof.Settle
import MatchingEngine.Main.Conservation
import MatchingEngine.Lib.Frames
import MatchingEngine.Lib.Outcome
import MatchingEngine.Wire.Codec
import MatchingEngine.Wire.Inbound
import MatchingEngine.Wire.Outbound
import MatchingEngine.Wire.Framer
import MatchingEngine.Gateway.Reader
import MatchingEngine.Bin.Replay
import MatchingEngine.Main.Decoding
import MatchingEngine.Main.Priced
import MatchingEngine.Main.Format
import MatchingEngine.Wire.RoundTrip
import MatchingEngine.Gateway.Matching
import MatchingEngine.Main.Recording
import MatchingEngine.Gateway.Routing
import MatchingEngine.Main.Routing
import MatchingEngine.Main.Resting
import MatchingEngine.Main.Band
import MatchingEngine.Main.Transactions
import MatchingEngine.Main.Drain
import MatchingEngine.Main.Gaps
import MatchingEngine.Main.MassCancel
import MatchingEngine.Main.Precheck
import MatchingEngine.Main.Amend
import MatchingEngine.Main.Rejection
import MatchingEngine.Main.Tape
import MatchingEngine.Main.Isolation
import MatchingEngine.Main.OpenOrders
import MatchingEngine.Ref.Symmetry
import MatchingEngine.Ref.Renaming
import MatchingEngine.Proof.Image
import MatchingEngine.Main.Mirror
import MatchingEngine.Main.Opaque
import MatchingEngine.Main.Oracle
import MatchingEngine.Main.BandEdge
import MatchingEngine.Main.Overflow
import MatchingEngine.Main.MarketBand
import MatchingEngine.Main.Termination
import MatchingEngine.Main.Snapshot
import MatchingEngine.Main.PushIndex
import MatchingEngine.Gateway.Dispatcher
import MatchingEngine.Main.Streams
import MatchingEngine.Main.Discard
import MatchingEngine.Core.Points
import MatchingEngine.Core.Emission
import MatchingEngine.Main.Slots
import MatchingEngine.Lib.Network
import MatchingEngine.Gateway.ReaderThread
import MatchingEngine.Gateway.MatchingThread
import MatchingEngine.Bin.Daemon
import MatchingEngine.Main.Interleaving
import MatchingEngine.Main.AtRest
import MatchingEngine.Main.Progress
import MatchingEngine.Bin.Program
import MatchingEngine.Main.LiveRecording
import MatchingEngine.Main.Aftermath
import MatchingEngine.Main.Representable
import MatchingEngine.Bench.Client
import MatchingEngine.Main.EndToEnd
import MatchingEngine.Bin.ReplayCli
import MatchingEngine.Main.ReplayOutput
import MatchingEngine.Main.ClientViews
import MatchingEngine.Main.Interference
import MatchingEngine.Ref.Touch
import MatchingEngine.Main.Subscribers
import MatchingEngine.Main.Composition
import MatchingEngine.Lib.Commuting
import MatchingEngine.Ref.Edits
import MatchingEngine.Main.OrderTypes
import MatchingEngine.Main.Commuting
import MatchingEngine.Main.Clearing
import MatchingEngine.Main.Traffic
import MatchingEngine.Main.Harness
