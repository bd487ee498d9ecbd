import GlobusToolkit.Restart.Reverse
import GlobusToolkit.Restart.FromString
import GlobusToolkit.Path.ConcatPath
import GlobusToolkit.Path.FullPath
import GlobusToolkit.Path.Listing
import GlobusToolkit.Ipc.Unpack
import GlobusToolkit.Common.ContactString
import GlobusToolkit.Common.HandleTable
import GlobusToolkit.Url.Termination
import GlobusToolkit.Url.HostPort
import GlobusToolkit.Url.SchemeType
import GlobusToolkit.Gram.JobRequest
import GlobusToolkit.Gram.Extensions
import GlobusToolkit.Gram.Scanner
import GlobusToolkit.Gram.StatusRequest
import GlobusToolkit.Gram.Read
import GlobusToolkit.JobManager.ForkStarter
import GlobusToolkit.JobManager.EventLog
import GlobusToolkit.JobManager.Description
import GlobusToolkit.Rsl.Lexical
import GlobusToolkit.Rsl.Eval
import GlobusToolkit.Ftp.Ordered
import GlobusToolkit.Ftp.Reply
import GlobusToolkit.Gsi.Gridmap
import GlobusToolkit.Gsi.Lease
import GlobusToolkit.Gass.Mangle
import GlobusToolkit.Gsi.CompareName
import GlobusToolkit.Gsi.ProxyChain
import GlobusToolkit.MyProxy.Request
import GlobusToolkit.MyProxy.Storage
import GlobusToolkit.Xio.Ordering
import GlobusToolkit.Xio.ModeE
import GlobusToolkit.Xio.Http
