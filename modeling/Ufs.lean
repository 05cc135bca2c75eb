import Ufs.Proof.AppCache.Pages
import Ufs.Proof.Buffer.Updates
import Ufs.Proof.Checkpoint.Bitmaps
import Ufs.Proof.Checkpoint.Failure
import Ufs.Proof.Checkpoint.Kept
import Ufs.Proof.Checkpoint.Managers
import Ufs.Proof.Entry.Replay
import Ufs.Proof.FileOps.Answers
import Ufs.Proof.FileOps.Offsets
import Ufs.Proof.Gate.Exclusive
import Ufs.Proof.Gate.Gate
import Ufs.Proof.Inodes.LinkCounts
import Ufs.Proof.Inodes.Numbers
import Ufs.Proof.Journal.Durable
import Ufs.Proof.Layout.Space
import Ufs.Proof.Layout.Visits
import Ufs.Proof.LoadManager.JoinAll
import Ufs.Proof.LoadManager.Messages
import Ufs.Proof.LoadManager.RoutingTables
import Ufs.Proof.Manager.Rounds
import Ufs.Proof.Messenger.Delivery
import Ufs.Proof.Ownership.Batch
import Ufs.Proof.Ownership.Descriptors
import Ufs.Proof.Ownership.LastClose
import Ufs.Proof.Ownership.Migration
import Ufs.Proof.Ownership.Unlink
import Ufs.Proof.ReadWaits.Wakes
import Ufs.Proof.Recovery.Replayed
import Ufs.Proof.Recovery.StartUp
import Ufs.Proof.Sync.Batches
import Ufs.Proof.Sync.Failures
import Ufs.Proof.LoadManager.Orders
import Ufs.Proof.Paths.Tokens
import Ufs.Proof.AppCache.Leases
