import ChronicleDB.Backup.Export
import ChronicleDB.Fsm.Repeats
import ChronicleDB.Fsm.Transparency
import ChronicleDB.Node.Batch
import ChronicleDB.Node.Propose
import ChronicleDB.Node.Runs
import ChronicleDB.Raft.Locals
import ChronicleDB.Raft.Persistence
import ChronicleDB.Transactions.Isolation
import ChronicleDB.Transactions.Recovery
import ChronicleDB.Wal.Cuts
import ChronicleDB.Consensus.Quorum
import ChronicleDB.Sql.Retries
import ChronicleDB.Node.Generation
import ChronicleDB.Fsm.Passes
import ChronicleDB.Fsm.Controls
import ChronicleDB.Sql.Scans
import ChronicleDB.Raft.Transitions
import ChronicleDB.Wal.Scrub
import ChronicleDB.Audit.Chain
import ChronicleDB.Backup.Restore
import ChronicleDB.Node.Membership
import ChronicleDB.Raft.Matching
import ChronicleDB.Raft.Payloads
import ChronicleDB.Node.Payloads
import ChronicleDB.Sql.Layout
import ChronicleDB.Sql.Parsing
import ChronicleDB.Admission.Gate
