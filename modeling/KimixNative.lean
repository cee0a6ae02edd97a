import KimixNative.GraphDb.KeyIndex
import KimixNative.GraphDb.Tombstones
import KimixNative.GraphDb.EdgePolicy
import KimixNative.Index.Flushes
import KimixNative.Index.HistoryIndex
import KimixNative.GraphDb.NoLostUpdate
import KimixNative.GraphDb.Batches
import KimixNative.GraphDb.IntegrityRuns
import KimixNative.GraphDb.Aggregate
import KimixNative.GraphDb.ConnectBulk
import KimixNative.GraphDb.Roots
import KimixNative.Codec.FrameWriter
import KimixNative.Codec.EventRing
import KimixNative.Soul.ElisionAddressing
import KimixNative.Soul.Kmb2RoundTrip
import KimixNative.Soul.HistoryRuns
import KimixNative.Soul.UserMerging
import KimixNative.Soul.ToolPairing
import KimixNative.Soul.SessionOffsets
import KimixNative.Stream.BlockDedup
import KimixNative.Tools.OutputRing
import KimixNative.Agent.ContextRuns
import KimixNative.Core.ColonCollapse
import KimixNative.Core.NumberRepair
import KimixNative.Core.FirstFit
import KimixNative.Core.SharedMutex
import KimixNative.Llm.StreamEvents
import KimixNative.Tools.CompactTool
import KimixNative.Tools.DiffScripts
import KimixNative.Tools.LineHashAgreement
import KimixNative.Tools.RepeatedLines
import KimixNative.Tools.ReadPaging
import KimixNative.Tools.SloppyEdits
import KimixNative.Tools.HashlineSafety
import KimixNative.Llm.HttpFailures
import KimixNative.Llm.HttpInterim
import KimixNative.Todo.Outcomes
import KimixNative.Todo.Regressions
import KimixNative.Todo.Reload
import KimixNative.Diff.FirstMatch
import KimixNative.Search.FuzzyComplete
import KimixNative.Diff.InlineRanges
import KimixNative.Glob.Below
import KimixNative.Tools.RootGuard
import KimixNative.Tools.CommandSegments
import KimixNative.Agent.LoopGuard
import KimixNative.Tools.FindStr
import KimixNative.Agent.JsonlMigration
import KimixNative.Text.Sanitize
import KimixNative.Agent.PruneChangePoint
