import DistRes.Lib.Machine
import DistRes.Lib.Pool
import DistRes.Lib.Utf8
import DistRes.RWLock
import DistRes.DataLayer
import DistRes.LockInvariant
import DistRes.Lib.AtomicLog
import DistRes.LogRefinement
import DistRes.Lib.Dict
import DistRes.Protocol
import DistRes.Surrogates
import DistRes.PubSub
import DistRes.Server
import DistRes.Announce
import DistRes.Sessions
import DistRes.SessionSafety
import DistRes.Channel
import DistRes.Connection
import DistRes.Correlation
import DistRes.Recovery
import DistRes.Service
import DistRes.System
import DistRes.ConnectionSteps
import DistRes.Wakeups
import DistRes.Lib.Backing
import DistRes.Admission
import DistRes.ServerSteps
import DistRes.Notification
import DistRes.Broker
import DistRes.ClientNode
import DistRes.Freshness
import DistRes.Restarts
import DistRes.Credentials
import DistRes.Replies
import DistRes.Cluster
import DistRes.Staleness
import DistRes.Agreement
import DistRes.Preference
import DistRes.Isolation
import DistRes.Transcript
import DistRes.Addressees
import DistRes.Survival
import DistRes.InFlight
import DistRes.Restoration
import DistRes.Closing
import DistRes.Lib.WaitGraph
import DistRes.Locking
import DistRes.Answering
import DistRes.Atomicity
import DistRes.ReadBack
import DistRes.Lib.Headers
import DistRes.ChangeLog
import DistRes.Snapshots
import DistRes.Advertised
import DistRes.FanOut
import DistRes.ReadMessage
import DistRes.Heartbeat
import DistRes.Logout
import DistRes.Messages
import DistRes.Wire
import DistRes.Linearizability
import DistRes.StatusDisplay
import DistRes.Dashboard
import DistRes.Startup
import DistRes.EventContents
import DistRes.Authorship
import DistRes.Terminal
import DistRes.TerminalSession
import DistRes.TypedTexts
