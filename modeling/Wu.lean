import Wu.SumTree.CursorRuns
import Wu.SumTree.TreeMapRefines
import Wu.Text.LocatorRuns
import Wu.Text.Delivery
import Wu.Text.PatchCompose
import Wu.AgentHarness.RpcAnswers
import Wu.AgentHarness.Approvals
import Wu.AgentHarness.Wedge
import Wu.AgentHarness.WildcardMatches
import Wu.AgentHarness.RedactRuns
import Wu.AgentHarness.FeedText
import Wu.AgentHarness.SubagentRuns
import Wu.AgentHarness.AccountRuns
import Wu.AgentHarness.ClaudeTurns
import Wu.AgentHarness.OpenCodeServer
import Wu.AgentChat.Order
import Wu.AgentChat.Holders
import Wu.AgentChat.Stopped
import Wu.AgentChat.MetadataRuns
import Wu.Remote.ChannelRest
import Wu.Remote.RemoteRuns
import Wu.Lsp.RequestEnds
import Wu.Language.Convergence
import Wu.Worktree.MirrorRuns
import Wu.Worktree.DecodeStream
import Wu.GitUi.GraphOverlaps
import Wu.Worktree.ScannerWorkers
import Wu.AgentChat.SaveEntries
import Wu.Text.InsertionOffsets
import Wu.Text.HistoryEdits
import Wu.Language.UnifiedHunks
import Wu.Keymap.Dispatch
import Wu.Keymap.ForAction
import Wu.Keymap.Printed
import Wu.BufferDiff.StagedIndex
import Wu.BufferDiff.WindowedPatches
import Wu.Text.FragmentSummary
import Wu.Util.PathWithPosition
import Wu.Util.PathOrder
import Wu.Util.WrappedRanges
import Wu.Rope.NthSetBit
import Wu.Git.OutputRead
import Wu.Gpui.BoundsTreeScan
import Wu.Gpui.LineWrapperRows
import Wu.Snippet.Meaning
import Wu.Editor.SortBlocks
import Wu.Text.EditedText
