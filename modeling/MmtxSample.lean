import MmtxSample.RoundTrip
import MmtxSample.ByteStreams
import MmtxSample.ServerReplies
import MmtxSample.Exchange
import MmtxSample.Link
import MmtxSample.Heartbeat
import MmtxSample.Reconnect
import MmtxSample.Retries
import MmtxSample.Session
import MmtxSample.Registry.Invariant
import MmtxSample.Registry.PushAll
import MmtxSample.Broadcast
import MmtxSample.Registry.RemoveAll
import MmtxSample.Registry.VanishedChannel
import MmtxSample.Registry.Progress
import MmtxSample.Deployment
import MmtxSample.TimedLink
import MmtxSample.DistributedInsert
import MmtxSample.TestClientService
