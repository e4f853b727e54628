import StrataKV.Mvcc.LockingRead
import StrataKV.Mvcc.CommitIntervals
import StrataKV.Mvcc.OneOutcome
import StrataKV.Mvcc.History
import StrataKV.Mvcc.Stability
import StrataKV.Txn.Atomicity
import StrataKV.Txn.Results
import StrataKV.Txn.CommitRounds
import StrataKV.Txn.RecoveryScan
import StrataKV.Txn.LimitedScan
import StrataKV.Raft.Persistence
import StrataKV.Raft.SnapshotTransfer
import StrataKV.Metadata.Reporter
import StrataKV.Metadata.Lifecycle
import StrataKV.Metadata.SplitRegion
import StrataKV.Region.Fencing
import StrataKV.Region.Bootstrap
import StrataKV.Region.Keyspaces
import StrataKV.Region.RangeDeletion
import StrataKV.Region.SplitKey
import StrataKV.Region.MembershipSafety
import StrataKV.Region.Identity
import StrataKV.Region.Retirement
import StrataKV.Region.Envelope
import StrataKV.Mvcc.Encodings
