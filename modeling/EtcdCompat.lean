import EtcdCompat.Proofs.ApplySafe
import EtcdCompat.Proofs.Determinism
import EtcdCompat.Proofs.LeaseExpiry
import EtcdCompat.Proofs.RevokeComplete
import EtcdCompat.Proofs.WalTorn
import EtcdCompat.Proofs.WatchRestore
import EtcdCompat.Proofs.Delivery
import EtcdCompat.Proofs.V2Scan
import EtcdCompat.Proofs.DiscoveryAgree
import EtcdCompat.Proofs.ElectionLeader
import EtcdCompat.Proofs.MutexExclude
import EtcdCompat.Proofs.StmCommit
import EtcdCompat.Proofs.TxnHeader
import EtcdCompat.Proofs.CreateInOrder
import EtcdCompat.Proofs.BackupsKept
import EtcdCompat.Proofs.Defrag
import EtcdCompat.Proofs.DupKeys
import EtcdCompat.Proofs.ProgressAhead
import EtcdCompat.Proofs.PendingConf
import EtcdCompat.Proofs.InflightRing
import EtcdCompat.Proofs.FifoOrder
import EtcdCompat.Proofs.SnapRead
import EtcdCompat.Proofs.JoinMembers
import EtcdCompat.Proofs.AuthSpelling
import EtcdCompat.Proofs.AuthPatterns
import EtcdCompat.Proofs.ResumeWatchers
import EtcdCompat.Proofs.Retention
import EtcdCompat.Proofs.RangeArranged
import EtcdCompat.Proofs.RequestIds
import EtcdCompat.Proofs.RevBytes
import EtcdCompat.Proofs.Applied
