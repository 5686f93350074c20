import Xolu.Bal.Attended
import Xolu.Bal.Cascade
import Xolu.Bal.Certify
import Xolu.Bal.Close
import Xolu.Bal.Codec
import Xolu.Blob.GC
import Xolu.Cal.Check
import Xolu.Cal.Commit
import Xolu.Cal.Contention
import Xolu.Cal.Match
import Xolu.Cal.Seal
import Xolu.Chronicle.Recompute
import Xolu.Fsm.Like
import Xolu.Fsm.Sequence
import Xolu.Loc.Exit
import Xolu.Loc.Fence
import Xolu.Loc.Postable
import Xolu.Loc.Reports
import Xolu.Loc.Resolve
import Xolu.Obj.Counts
import Xolu.Obj.Positions
import Xolu.Obj.Verify
import Xolu.Oql.Grouping
import Xolu.Oql.Join
import Xolu.Oql.Mutation
import Xolu.Oql.Statement
import Xolu.Server.Dispatch
import Xolu.Server.Outcome
import Xolu.Storage.LockOrder
import Xolu.Timeseries.BatchWrite
import Xolu.Timeseries.CoalescerLive
import Xolu.Timeseries.Latest
import Xolu.Timeseries.RollupRun
import Xolu.Timeseries.Teardown
import Xolu.Timeseries.Worker
