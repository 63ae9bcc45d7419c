import MiniSync.Agreement.RenamePayload
import MiniSync.Agreement.Upload
import MiniSync.Current.LocalTasks
import MiniSync.Files.AtomicCopy
import MiniSync.Files.CrossDevice
import MiniSync.Files.EnsureDir
import MiniSync.Hash.Corruption
import MiniSync.Hash.Streaming
import MiniSync.History.Displaced
import MiniSync.History.Rename
import MiniSync.History.Trash
import MiniSync.History.Version
import MiniSync.Monitor.FullScan
import MiniSync.Monitor.LivePaths
import MiniSync.Monitor.MovesReported
import MiniSync.Monitor.Walks
import MiniSync.Pipes.MonitorTasks
import MiniSync.Resume.Concurrent
import MiniSync.Resume.Resumption
import MiniSync.Server.Confinement
import MiniSync.Server.Framing
import MiniSync.Server.Integrity
import MiniSync.Server.Refusals
import MiniSync.Server.Returns
import MiniSync.Server.Serial
import MiniSync.Transfer.Debounce
import MiniSync.Transfer.NoEventLost
import MiniSync.Transfer.Order
import MiniSync.Transfer.VerifiedCopy
import MiniSync.Transfer.Wakeups
import MiniSync.UploadFrame
