import Fscq.Log.Direct
import Fscq.Txn.ArrayRun
import Fscq.Fuse.Truncate
import Fscq.Fuse.OpQueue
import Fscq.Dir.Ownership
import Fscq.Afs.Rename
import Fscq.Cache.Run
import Fscq.Log.Apply
import Fscq.Fuse.WordShift
import Fscq.Afs.Failed
import Fscq.Afs.TwoAllocs
import Fscq.Fs.BallocRun
import Fscq.Fs.BlockRefine
import Fscq.Dir.Success
import Fscq.Txn.Finishes
import Fscq.Fs.BFileReset
import Fscq.Dir.DirRun
import Fscq.Dir.DirCacheRun
import Fscq.Afs.CrashRun
import Fscq.Afs.Layout
import Fscq.Dir.NameRun
import Fscq.Fuse.Name
import Fscq.Fuse.Checksum
import Fscq.Crash.Images
import Fscq.Fuse.CrashLog
import Fscq.Afs.ByteFile
import Fscq.Rec.ByteSets
import Fscq.Afs.Durable
import Fscq.Afs.AtomicCp
import Fscq.Afs.Umount
import Fscq.Afs.FuseFile
