import NoeDB.RaftReadIndex
import NoeDB.RaftHistory
import NoeDB.RaftMembership
import NoeDB.LsmCrash
import NoeDB.LsmStalls
import NoeDB.LsmMap
import NoeDB.SstRoundTrip
import NoeDB.TxnSerial
import NoeDB.TxnAtomicity
import NoeDB.TxnReads
import NoeDB.DmlFailures
import NoeDB.AuditLog
import NoeDB.ParameterBinding
import NoeDB.RedactSecrets
import NoeDB.Precedence
import NoeDB.SchemaSnapshot
import NoeDB.JoinOperators
import NoeDB.RefusedDdl
import NoeDB.RecursiveCte
import NoeDB.ColumnReads
import NoeDB.ThreeValued
import NoeDB.TopKSort
import NoeDB.LikePatterns
import NoeDB.EpochDays
import NoeDB.ParallelScan
import NoeDB.RaftLogChanges
import NoeDB.RaftFiles
import NoeDB.Durable
import NoeDB.Xor
import NoeDB.AuthGuard
import NoeDB.KeywordLookup
