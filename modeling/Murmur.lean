import Murmur.Raft.PeerView
import Murmur.Raft.Recovery
import Murmur.Raft.Lifetime
import Murmur.Raft.LeaderHint
import Murmur.Raft.PreVote
import Murmur.Raft.Repair
import Murmur.App.Restart
import Murmur.App.Protobuf
import Murmur.App.Linearizability
import Murmur.App.Server
import Murmur.Raft.Clock
import Murmur.Raft.Terms
import Murmur.Raft.LiveLeader
import Murmur.Raft.Availability
import Murmur.Raft.Broadcast
import Murmur.Raft.Permanence
import Murmur.Raft.Latency
import Murmur.Raft.OnDisk
import Murmur.App.Replicated
import Murmur.App.Wakeup
import Murmur.App.Retention
import Murmur.App.Hosted
import Murmur.App.Majority
import Murmur.App.Client
