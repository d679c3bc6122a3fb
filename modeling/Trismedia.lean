import Trismedia.Sched.Pass
import Trismedia.Pbx.Includes
import Trismedia.Pbx.Removal
import Trismedia.Pbx.Order
import Trismedia.Ao2.IteratorRuns
import Trismedia.Jitter.History
import Trismedia.Jitter.Voice
import Trismedia.Udptl.Arrivals
import Trismedia.Udptl.FecRuns
import Trismedia.Event.CacheRuns
import Trismedia.Acl.Runs
import Trismedia.Lffifo.Calls
import Trismedia.Lffifo.Interleave
import Trismedia.Smoother.Model
import Trismedia.Translate.Least
import Trismedia.Mtp2.Timers
import Trismedia.Mtp2.Acks
import Trismedia.Mtp2.Startup
import Trismedia.Iax.RoundTrip
import Trismedia.Iax2.TrunkRuns
import Trismedia.Cluster.Model
import Trismedia.Isup.Dialled
import Trismedia.Linkedlists.Traverse
import Trismedia.Dlinkedlists.Runs
import Trismedia.Slinfactory.Runs
import Trismedia.Config.Comments
import Trismedia.Queue.Turns
import Trismedia.Callerid.RoundTrip
import Trismedia.Strings.Runs
import Trismedia.FixedJb.Reach
import Trismedia.Ao2.CallRuns
import Trismedia.Sched.Alloc
import Trismedia.Udptl.Touches
import Trismedia.Udptl.Limits
import Trismedia.Frame.Frisolate
import Trismedia.Translate.Register
import Trismedia.Translate.Available
import Trismedia.Uri.RoundTrip
import Trismedia.Base64.Decode
import Trismedia.Isup.Coding
import Trismedia.Mtp2.Changeover
import Trismedia.Mtp2.Sizes
import Trismedia.Pbx.Slices
import Trismedia.Isup.Overlap
import Trismedia.Isup.GroupAck
import Trismedia.Iax2.Signaling
import Trismedia.App.Filter
import Trismedia.App.Listfilter
import Trismedia.App.SeparateArgs
import Trismedia.Queue.Metric
import Trismedia.App.Ivr
import Trismedia.Callerid.InsideJp
import Trismedia.Dundi.Access
import Trismedia.Manager.Events
import Trismedia.Iax2.Deferred
import Trismedia.Cdr.Reset
import Trismedia.Pbx.Timing
