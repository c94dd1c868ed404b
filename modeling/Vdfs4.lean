import Vdfs4.Fsm.HandOut
import Vdfs4.File.DelayedServed
import Vdfs4.Fsm.Discard
import Vdfs4.File.ReservationRun
import Vdfs4.Xattr.MapSpec
import Vdfs4.Catalog.RenameAtomic
import Vdfs4.Catalog.FileCount
import Vdfs4.Btree.SplitAtomic
import Vdfs4.Snapshot.ExsbRecovery
import Vdfs4.Mkfs.HashSlots
import Vdfs4.Btree.BnodeIds
import Vdfs4.File.RuntimeExtentSet
import Vdfs4.Fsm.FreeRuns
import Vdfs4.Fsm.AlignedAllocation
import Vdfs4.Snapshot.TableGrowth
import Vdfs4.Snapshot.TablesArea
import Vdfs4.File.FileBasedBlock
import Vdfs4.Catalog.FailedUnlink
import Vdfs4.Compress.ReaderBounds
import Vdfs4.File.LoadedFork
import Vdfs4.Mkfs.ChunkEntries
import Vdfs4.Btree.KeyOrders
