import GoGit.AttributesFile
import GoGit.BuildTree
import GoGit.CommitLimit
import GoGit.CommitTopoRank
import GoGit.CommitTraversal
import GoGit.DumbFetch
import GoGit.Eol
import GoGit.GitIgnore
import GoGit.Grep
import GoGit.IdxReverse
import GoGit.IndexExtensions
import GoGit.IndexRoundtrip
import GoGit.InsteadOf
import GoGit.LinkedWorktree
import GoGit.LooseObject
import GoGit.Merge
import GoGit.MergeBaseExact
import GoGit.Negotiate
import GoGit.PackCycles
import GoGit.PktRead
import GoGit.PrefixSearch
import GoGit.PreloadStatus
import GoGit.Prune
import GoGit.PushLease
import GoGit.Repack
import GoGit.ReportStatus
import GoGit.RevListExact
import GoGit.ServerResponse
import GoGit.SetRef
import GoGit.SidebandExact
import GoGit.StorageFailure
import GoGit.SyncedReader
import GoGit.TransactionCommit
import GoGit.TreeFind
import GoGit.TrieIter
import GoGit.UploadPack
