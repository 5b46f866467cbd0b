import Burp.Backups.Bu
import Burp.Backups.Retention
import Burp.Backups.Keep
import Burp.Backups.Guarantee
import Burp.Crash.Prog
import Burp.FileSystem.Tree
import Burp.FileSystem.Ops
import Burp.FileSystem.Prune
import Burp.FileSystem.Local
import Burp.FileSystem.Relink
import Burp.FileSystem.Inodes
import Burp.FileSystem.Below
import Burp.Order.Comparison
import Burp.Order.SortedMerge
import Burp.Order.Runs
import Burp.Dialogue.Confluence
import Burp.Dialogue.Party
import Burp.Stream.Framing
import Burp.Stream.Rounds
import Burp.Stream.Transducer
import Burp.Store.Sbuf
import Burp.Store.Order
import Burp.Store.Subdir
import Burp.Store.StatRecord
import Burp.Store.StatSafe
import Burp.Store.StatText
import Burp.Store.Files
import Burp.Store.Recursive
import Burp.Store.Prune
import Burp.Store.Duplicate
import Burp.Store.RoundTrip
import Burp.Store.Torn
import Burp.Net.Async
import Burp.Net.Write
import Burp.Net.ReadBuffer
import Burp.Librsync.Buffers
import Burp.Librsync.Input
import Burp.Librsync.Output
import Burp.Store.Confined
import Burp.Store.Manifest
import Burp.Client.Vss
import Burp.Client.Extrameta
import Burp.Client.ExtrametaReads
import Burp.Phase2.Decide
import Burp.Phase2.Dpth
import Burp.Phase2.Paths
import Burp.Phase2.Server
import Burp.Phase2.Steps
import Burp.Phase2.WriteErrors
import Burp.Phase2.Inside
import Burp.Phase2.Client
import Burp.Phase2.ClientLoop
import Burp.Phase2.Accounts
import Burp.Phase2.Parties
import Burp.Phase2.Attributes
import Burp.Phase2.Resume
import Burp.Phase2.Deleted
import Burp.Phase2.Signature
import Burp.Phase2.Names
import Burp.Phase3.Server
import Burp.Phase3.Recovery
import Burp.Backups.Delete
import Burp.Backups.InProgress
import Burp.Shuffle.Jiggle
import Burp.Shuffle.CrashSafe
import Burp.Shuffle.Restart
import Burp.Restore.RestoreFile
import Burp.Restore.Session
import Burp.Restore.Encodings
import Burp.Restore.TransferStores
import Burp.Restore.Manifest
import Burp.Restore.Selected
import Burp.RestoreClient.Client
import Burp.RestoreClient.Effects
import Burp.RestoreClient.Steps
import Burp.RestoreClient.HardLinks
import Burp.RestoreClient.Untouched
import Burp.RestoreClient.Parties
import Burp.Server.ExtraComms
import Burp.Server.Child
import Burp.Server.Switch
import Burp.Server.Authorise
import Burp.Conf.InPlace
import Burp.Client.LongList
import Burp.Stream.ShortWrites
import Burp.Client.VssWrites
import Burp.Client.VssStrip
import Burp.Status.WriteStatus
import Burp.Server.Initiated
import Burp.Server.Interrupted
import Burp.Server.Children
import Burp.Server.Polling
import Burp.Server.Lock
import Burp.Text.Decimal
import Burp.Text.Tokens
import Burp.Text.Scan
import Burp.Text.Pointer
import Burp.Text.Memory
import Burp.Text.Pieces
import Burp.Status.Counters
import Burp.Status.Summaries
import Burp.Status.Requests
import Burp.Status.Browse
import Burp.Shuffle.Encoding
import Burp.Phase1.Extensions
import Burp.Phase1.Find
import Burp.Phase1.HardLinks
import Burp.Phase1.Scope
import Burp.Phase1.Specific
import Burp.Phase1.Lists
import Burp.Phase1.Jumps
import Burp.Phase1.Starts
import Burp.Phase1.Tree
import Burp.Phase1.InOrder
import Burp.Shuffle.Phase4
import Burp.Shuffle.Deletions
import Burp.Bedup.CheckFiles
import Burp.Bedup.Contents
import Burp.Bedup.Memory
import Burp.Conf.Pairs
import Burp.Conf.Load
import Burp.Conf.Incexc
import Burp.Conf.Rewrite
import Burp.Conf.Arguments
import Burp.Session.Transfer
import Burp.Session.CaServer
import Burp.Session.CaClient
import Burp.Session.Ca
import Burp.Phase1.Server
import Burp.Restore.Scanned
import Burp.FileSystem.Fresh
import Burp.Server.Rubble
import Burp.Dialogue.Answering
import Burp.Session.Serving
import Burp.Session.Client
import Burp.Session.Lists
import Burp.Session.Requests
import Burp.Session.Opening
import Burp.Session.Progress
