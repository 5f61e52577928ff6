import S6Reobs.Lib.Word
import S6Reobs.Lib.Period
import S6Reobs.Lib.Circular
import S6Reobs.Lib.Copy
import S6Reobs.Lib.Handoff
import S6Reobs.Lib.Lease
import S6Reobs.Lib.Simulation
import S6Reobs.Lib.Latch
import S6Reobs.Lib.FixedDigits
import S6Reobs.Lib.CString
import S6Reobs.Databuf
import S6Reobs.Layout
import S6Reobs.Header
import S6Reobs.Effect
import S6Reobs.Assembler
import S6Reobs.Window
import S6Reobs.Converge
import S6Reobs.Control
import S6Reobs.Evidence
import S6Reobs.Slots
import S6Reobs.Trace
import S6Reobs.Ledger
import S6Reobs.Wire
import S6Reobs.Noise
import S6Reobs.Contents
import S6Reobs.Fills
import S6Reobs.Rejected
import S6Reobs.Loss
import S6Reobs.Gather
import S6Reobs.Reorder
import S6Reobs.MainLoop
import S6Reobs.BlockStats
import S6Reobs.Frames
import S6Reobs.Overflow
import S6Reobs.PacketSizes
import S6Reobs.CornerTurn
import S6Reobs.Resync
import S6Reobs.Pipeline
import S6Reobs.Delivery
import S6Reobs.Ownership
import S6Reobs.Labels
import S6Reobs.System
import S6Reobs.Drain
import S6Reobs.Recorded
import S6Reobs.Stream
import S6Reobs.Overlay
import S6Reobs.NetThread
import S6Reobs.NetAgrees
import S6Reobs.NetBatch
import S6Reobs.Logger
import S6Reobs.FakeNet
import S6Reobs.FakeNetSystem
import S6Reobs.OutputThread
import S6Reobs.TestDat
import S6Reobs.NetBenchmark
import S6Reobs.NetLogging
import S6Reobs.NetOwnership
import S6Reobs.Divisions
import S6Reobs.Metadata
import S6Reobs.Pfb
import S6Reobs.PfbLaunch
import S6Reobs.Tallies
