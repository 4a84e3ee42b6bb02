import Fscq.Fs.InodeSpec
import Std.Data.ExtTreeSet

/-!
# Block-based files

A file is the list of its blocks, with attributes, on top of the inode layer. There are two block allocators: `msAlloc`
selects the one to allocate from, and blocks are freed to the other one. Everything here runs inside a transaction;
`Memstate` has the caches of the file layer, and the state of the log is threaded by the transaction itself.
-/

namespace Fscq

open TxnLogic
open BmapAlloc (size)

abbrev AddrSet : Type := Std.ExtTreeSet Nat compare

/-- A file name: a string of bytes. -/
abbrev Sname : Type := List (BitVec 8)

/-- The cached entries of a directory. -/
abbrev DcacheType : Type := Std.ExtTreeMap Sname (Nat × Bool) compare

abbrev BFcacheType : Type := AddrMap (DcacheType × Nat)

abbrev DBlocksType : Type := AddrMap AddrSet

namespace BFILE

open INODE (ICache Iattr IattrupdArg)

structure Memstate where
  /-- Which block allocator to use. -/
  msAlloc : Bool
  msAllocC : BmapCacheType × BmapCacheType
  msIAllocC : BmapCacheType
  msICache : ICache
  msCache : BFcacheType
  msDBlocks : DBlocksType

def msEmpty : Memstate :=
  ⟨true, (BmapAllocCache.freelist0, BmapAllocCache.freelist0), BmapAllocCache.freelist0, LogRecArrayCache.cache0 _, ∅, ∅⟩

variable (xp : FsXparams) (inum : Nat)

def getlen (fms : Memstate) : TBody (Memstate × Nat) := do
  let (icache, n) ← INODE.getlen xp.fsxpInode inum fms.msICache
  pure ({ fms with msICache := icache }, n)

def getattrs (fms : Memstate) : TBody (Memstate × Iattr) := do
  let (icache, n) ← INODE.getattrs xp.fsxpInode inum fms.msICache
  pure ({ fms with msICache := icache }, n)

def setattrs (a : Iattr) (fms : Memstate) : TBody Memstate := do
  let icache ← INODE.setattrs xp.fsxpInode inum a fms.msICache
  pure { fms with msICache := icache }

def updattr (kv : IattrupdArg) (fms : Memstate) : TBody Memstate := do
  let icache ← INODE.updattr xp.fsxpInode inum kv fms.msICache
  pure { fms with msICache := icache }

def read (off : Nat) (fms : Memstate) : TBody (Memstate × Valu) := do
  let (icache, bn) ← INODE.getbnum xp.fsxpInode inum off fms.msICache
  let v ← .readAt bn.toNat
  pure ({ fms with msICache := icache }, v)

/-! ### Dirty blocks -/

def getDirty (dblocks : DBlocksType) : AddrSet := (dblocks[inum]?).getD ∅

def putDirty (bn : Nat) (dblocks : DBlocksType) : DBlocksType := dblocks.insert inum ((getDirty inum dblocks).insert bn)

def removeDirtyVec (bns : List Nat) (dblocks : DBlocksType) : DBlocksType :=
  match dblocks[inum]? with
  | none => dblocks
  | some dirty => dblocks.insert inum (bns.foldr (fun bn dirty => dirty.erase bn) dirty)

def clearDirty (dblocks : DBlocksType) : DBlocksType := dblocks.erase inum

def write (off : Nat) (v : Valu) (fms : Memstate) : TBody Memstate := do
  let (icache, bn) ← INODE.getbnum xp.fsxpInode inum off fms.msICache
  .writeAt bn.toNat v
  pure { fms with msICache := icache }

def readArray (a i : Nat) (ms : Memstate) : TBody (Memstate × Valu) := read xp inum (a + i) ms

def writeArray (a i : Nat) (v : Valu) (ms : Memstate) : TBody Memstate := write xp inum (a + i) v ms

def readRange {A : Type} (a nr : Nat) (vfold : A → Valu → A) (v0 : A) (ms0 : Memstate) : TBody (Memstate × A) :=
  .forN (fun i (p : Memstate × A) => do
    let (ms, v) ← readArray xp inum a i p.1
    pure (ms, vfold p.2 v)) 0 nr (ms0, v0)

/-! ### Growing and shrinking -/

def pickBalloc {A : Type} (a : A × A) (flag : Bool) : A := if flag then a.1 else a.2

def updBalloc {A : Type} (a : A × A) (new : A) (flag : Bool) : A × A :=
  (if flag then new else a.1, if flag then a.2 else new)

def grow (v : Valu) (fms : Memstate) : TBody (Memstate × Except Errno Unit) := do
  let al := fms.msAlloc
  let (icache, len) ← INODE.getlen xp.fsxpInode inum fms.msICache
  if len < BlockPtr.nBlocks then do
    let (cms, r) ← BmapAllocCache.alloc (xp.balloc al) (pickBalloc fms.msAllocC al)
    match r with
    | none => pure ({ fms with msAllocC := updBalloc fms.msAllocC cms al, msICache := icache }, .error .ENOSPCBLOCK)
    | some bn => do
      let (icache, cms, succ) ← INODE.grow xp.fsxpInode (xp.balloc al) inum bn icache cms
      match succ with
      | .error e => pure ({ fms with msAllocC := updBalloc fms.msAllocC cms al, msICache := icache }, .error e)
      | .ok _ => do
        .writeAt bn v
        pure ({ fms with msAllocC := updBalloc fms.msAllocC cms al, msICache := icache,
                         msDBlocks := putDirty inum bn fms.msDBlocks }, .ok ())
  else pure ({ fms with msICache := icache }, .error .EFBIG)

def shrink (nr : Nat) (fms : Memstate) : TBody Memstate := do
  let al := fms.msAlloc
  let (icache, bns) ← INODE.getallbnum xp.fsxpInode inum fms.msICache
  let l := (bns.drop (bns.length - nr)).map BitVec.toNat
  let cms ← BmapAllocCache.freevec (xp.balloc !al) l (pickBalloc fms.msAllocC !al)
  let (icache, cms) ← INODE.shrink xp.fsxpInode (xp.balloc !al) inum nr icache cms
  pure { fms with msAllocC := updBalloc fms.msAllocC cms !al, msICache := icache,
                  msDBlocks := removeDirtyVec inum l fms.msDBlocks }

def grown (l : List Valu) (ms0 : Memstate) : TBody (Memstate × Except Errno Unit) :=
  .forN (fun i (ms, ret) =>
    match ret with
    | .error e => pure (ms, .error e)
    | .ok _ => grow xp inum (l.getD i 0) ms) 0 l.length (ms0, .ok ())

def truncate (newsz : Nat) (ms : Memstate) : TBody (Memstate × Except Errno Unit) := do
  let (ms, sz) ← getlen xp inum ms
  if newsz < sz then do
    let ms ← shrink xp inum (sz - newsz) ms
    pure (ms, .ok ())
  else grown xp inum (List.replicate (newsz - sz) 0) ms

/-- Inlined version of `reset'` that calls `INODE.reset`. -/
def reset (ms : Memstate) : TBody Memstate := do
  let (fms, sz) ← getlen xp inum ms
  let al := fms.msAlloc
  let (icache, bns) ← INODE.getallbnum xp.fsxpInode inum fms.msICache
  let l := bns.map BitVec.toNat
  let cms ← BmapAllocCache.freevec (xp.balloc !al) l (pickBalloc fms.msAllocC !al)
  let (icache, cms) ← INODE.reset xp.fsxpInode (xp.balloc !al) inum sz INODE.iattr0 icache cms
  pure { fms with msAllocC := updBalloc fms.msAllocC cms !al, msICache := icache, msCache := fms.msCache.erase inum,
                  msDBlocks := clearDirty inum fms.msDBlocks }

/-- `reset` from the operations above. -/
def reset' (ms : Memstate) : TBody Memstate := do
  let (ms, sz) ← getlen xp inum ms
  let ms ← shrink xp inum sz ms
  let ms ← setattrs xp inum INODE.iattr0 ms
  pure { ms with msCache := ms.msCache.erase inum }

/-! ### Formatting and recovery -/

/-- Half of the data blocks go to the second allocator. -/
def shuffleAllocs (cms : BmapCacheType × BmapCacheType) : TBody (BmapCacheType × BmapCacheType) :=
  .forN (fun i cms => do
    let fcms ← BmapAllocCache.steal xp.fsxpBlockAlloc1 i cms.1
    let scms ← BmapAllocCache.free xp.fsxpBlockAlloc2 i cms.2
    pure (fcms, scms)) 1 (size xp.fsxpBlockAlloc1 / 2 - 1) cms

def init : TBody Memstate := do
  let fcms ← BmapAllocCache.initNofree xp.fsxpBlockAlloc2
  let scms ← BmapAllocCache.init xp.fsxpBlockAlloc1
  let ialc ← BmapAllocCache.init xp.fsxpInodeAlloc
  INODE.init xp.fsxpInode
  let cms ← shuffleAllocs xp (scms, fcms)
  pure ⟨true, cms, ialc, LogRecArrayCache.cache0 _, ∅, ∅⟩

def cacheGet (fms : Memstate) : Option (DcacheType × Nat) := fms.msCache[inum]?

def cachePut (dc : DcacheType × Nat) (fms : Memstate) : Memstate := { fms with msCache := fms.msCache.insert inum dc }

end BFILE

/-! ## Inode allocation -/

namespace IAlloc

def alloc (xp : FsXparams) (cache : BmapCacheType) : TBody (BmapCacheType × Option Nat) :=
  BmapAllocCache.alloc xp.fsxpInodeAlloc cache

def free (xp : FsXparams) (inum : Nat) (cache : BmapCacheType) : TBody BmapCacheType :=
  BmapAllocCache.free xp.fsxpInodeAlloc inum cache

end IAlloc

end Fscq
