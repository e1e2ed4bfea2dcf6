import Ssyncd.Library.Overlay
import Ssyncd.Http
import Ssyncd.Store.HttpStore
import Ssyncd.Codec.Base
import Ssyncd.Codec.HttpParser
import Ssyncd.Codec.PktParser
import Ssyncd.Library.Runs
import Ssyncd.Master.Nodes
import Ssyncd.Master.Stream
import Ssyncd.Backup.State
import Ssyncd.Master.Requests
import Ssyncd.Replication.Converge
import Ssyncd.Replication.Reconnect
import Ssyncd.Kernel.Entry
import Ssyncd.Library.Regex
import Ssyncd.Proc.Row
import Ssyncd.Proc.Show
import Ssyncd.Proc.Table
import Ssyncd.Listener.Diff
import Ssyncd.Listener.Host
import Ssyncd.Listener.Tracking
import Ssyncd.Codec.Extent
import Ssyncd.Codec.HttpLength
import Ssyncd.Kernel.Update
import Ssyncd.Listener.Patch
import Ssyncd.Connection.EndOfStream
import Ssyncd.Ctl.SyncController
import Ssyncd.Listener.FarmRemoval
import Ssyncd.Master.Removals
import Ssyncd.Kernel.LruOrder
import Ssyncd.Replication.Failover
import Ssyncd.Store.KernelCopies
import Ssyncd.Store.RecentNames
import Ssyncd.Proc.Faithful
import Ssyncd.Kernel.RingLaw
import Ssyncd.Kernel.NullLine
import Ssyncd.Kernel.StackTail
import Ssyncd.Connection.Send
import Ssyncd.Listener.WriteHttp
import Ssyncd.Master.RunLoop
import Ssyncd.Connection.TableFrame
import Ssyncd.Store.RecentShow
import Ssyncd.Ctl.TableCommands
import Ssyncd.Master.Counter
import Ssyncd.Kernel.AddressTexts
import Ssyncd.Replication.LineLimit
import Ssyncd.Kernel.Retention
import Ssyncd.Kernel.Visits
import Ssyncd.Kernel.SafeRuns
import Ssyncd.Kernel.RuleLife
import Ssyncd.Kernel.Listing
import Ssyncd.Proc.LiveFile
import Ssyncd.Replication.Takeover
import Ssyncd.Listener.ListenStream
import Ssyncd.Replication.EndToEnd
