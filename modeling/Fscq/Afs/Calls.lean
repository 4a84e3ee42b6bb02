import Fscq.Dir.TreeSpec
import Fscq.Txn.Exec

/-!
# The calls of the file system

Each call is one transaction on the log: it begins, runs a body of the layers below, and commits or aborts. Most of them
have one shape (`transact`, and `transactRo` for those that only read); the calls that put their memory state together in
another way keep their own bodies. `updateFblockD` and `fileSync` bypass the transaction, and `treeSync` flushes the log.
-/

namespace Fscq

open TxnLogic CrashLogic
open INODE (Iattr IattrupdArg)

namespace AFS

/-- The state in memory: the log, and the caches of the file layer. -/
structure Memstate where
  msLL : LOG.Memstate
  fms : BFILE.Memstate

variable {α : Type}

section Shapes

variable (shouldFlushall : Bool) (xp : FsXparams)

/-- A call that keeps the caches from before if its body fails, or if the log does not take the transaction. -/
def transact (body : BFILE.Memstate → TBody (BFILE.Memstate × Except Errno α)) (ams : Memstate) :
    FProg (Memstate × Except Errno α) := do
  let ms ← LOG.begin xp.fsxpLog ams.msLL
  let (ms, fms', r) ← LOG.exec xp.fsxpLog (body ams.fms) ms
  match r with
  | .error e => do
    let ms ← LOG.abort xp.fsxpLog ms
    pure (⟨ms, ams.fms⟩, .error e)
  | .ok a => do
    let (ms, ok) ← LOG.commit shouldFlushall xp.fsxpLog ms
    if ok = true then pure (⟨ms, fms'⟩, .ok a)
    else pure (⟨ms, ams.fms⟩, .error .ELOGOVERFLOW)

/-- A call that rebinds its memory state: also a failed one returns the new caches. -/
def transactRebind (body : BFILE.Memstate → TBody (BFILE.Memstate × Except Errno α)) (ams : Memstate) :
    FProg (Memstate × Except Errno α) := do
  let ms ← LOG.begin xp.fsxpLog ams.msLL
  let (ms, fms, r) ← LOG.exec xp.fsxpLog (body ams.fms) ms
  match r with
  | .error e => do
    let ms ← LOG.abort xp.fsxpLog ms
    pure (⟨ms, fms⟩, .error e)
  | .ok a => do
    let (ms, ok) ← LOG.commit shouldFlushall xp.fsxpLog ms
    if ok = true then pure (⟨ms, fms⟩, .ok a)
    else pure (⟨ms, fms⟩, .error .ELOGOVERFLOW)

/-- A call that only reads. -/
def transactRo (body : BFILE.Memstate → TBody (BFILE.Memstate × α)) (ams : Memstate) : FProg (Memstate × α) := do
  let ms ← LOG.begin xp.fsxpLog ams.msLL
  let (ms, fms, r) ← LOG.exec xp.fsxpLog (body ams.fms) ms
  let ms ← LOG.commitRo xp.fsxpLog ms
  pure (⟨ms, fms⟩, r)

end Shapes

section Calls

variable (shouldFlushall : Bool) (xp : FsXparams) (inum : Nat)

/-! ## Attributes and blocks -/

def fileGetAttr : Memstate → FProg (Memstate × Iattr) := transactRo xp (BFILE.getattrs xp inum)

def fileGetSz (ams : Memstate) : FProg (Memstate × BitVec 64) := do
  let (ams, attr) ← fileGetAttr xp inum ams
  pure (ams, INODE.ABytes attr)

def fileSetAttr (attr : Iattr) : Memstate → FProg (Memstate × Except Errno Unit) :=
  transact shouldFlushall xp fun fms => do
    let fms ← BFILE.setattrs xp inum attr fms
    pure (fms, .ok ())

/-- Sets the size in the inode, in bytes; no block is allocated. If the log overflows, the state of the transaction is
returned, and not the one after the commit. -/
def fileSetSz (sz : BitVec 64) (ams : Memstate) : FProg (Memstate × Except Errno Unit) := do
  let ms ← LOG.begin xp.fsxpLog ams.msLL
  let (ms, fms) ← LOG.exec xp.fsxpLog (BFILE.updattr xp inum (.UBytes sz) ams.fms) ms
  let (ms', ok) ← LOG.commit shouldFlushall xp.fsxpLog ms
  if ok = true then pure (⟨ms', fms⟩, .ok ())
  else pure (⟨ms, fms⟩, .error .ELOGOVERFLOW)

def readFblock (off : Nat) : Memstate → FProg (Memstate × Valu) := transactRo xp (BFILE.read xp inum off)

/-- Takes the size in blocks. -/
def fileTruncate (sz : Nat) : Memstate → FProg (Memstate × Except Errno Unit) :=
  transact shouldFlushall xp (BFILE.truncate xp inum sz)

/-- Takes the size in bytes. `updattr` runs on the state of the log before `truncate`, with the caches after it. -/
def ftruncate (sz : Nat) (ams : Memstate) : FProg (Memstate × Except Errno Unit) := do
  let ms ← LOG.begin xp.fsxpLog ams.msLL
  let szBlocks := (sz + valulen - 1) / valulen
  let (ms', fms', r) ← LOG.exec xp.fsxpLog (BFILE.truncate xp inum szBlocks ams.fms) ms
  match r with
  | .error e => do
    let ms ← LOG.abort xp.fsxpLog ms'
    pure (⟨ms, ams.fms⟩, .error e)
  | .ok _ => do
    let (ms, fms') ← LOG.exec xp.fsxpLog (BFILE.updattr xp inum (.UBytes (BitVec.ofNat 64 sz)) fms') ms
    let (ms, ok) ← LOG.commit shouldFlushall xp.fsxpLog ms
    if ok = true then pure (⟨ms, fms'⟩, .ok ())
    else pure (⟨ms, ams.fms⟩, .error .ELOGOVERFLOW)

/-- Writes a block of a file, bypassing the log. -/
def updateFblockD (off : Nat) (v : Valu) (ams : Memstate) : FProg Memstate := do
  let ms ← LOG.begin xp.fsxpLog ams.msLL
  let (ms, icache, bn) ← LOG.exec xp.fsxpLog (INODE.getbnum xp.fsxpInode inum off ams.fms.msICache) ms
  let ms ← LOG.dwrite xp.fsxpLog bn.toNat v ms
  let fms := { ams.fms with msICache := icache, msDBlocks := BFILE.putDirty inum bn.toNat ams.fms.msDBlocks }
  let ms ← LOG.commitRo xp.fsxpLog ms
  pure ⟨ms, fms⟩

def updateFblock (off : Nat) (v : Valu) (ams : Memstate) : FProg (Memstate × Bool) := do
  let ms ← LOG.begin xp.fsxpLog ams.msLL
  let (ms, fms) ← LOG.exec xp.fsxpLog (BFILE.write xp inum off v ams.fms) ms
  let (ms, ok) ← LOG.commit shouldFlushall xp.fsxpLog ms
  pure (⟨ms, fms⟩, ok)

/-- Syncs the data blocks of a file, and nothing else. -/
def fileSync (ams : Memstate) : FProg Memstate := do
  let ms ← LOG.begin xp.fsxpLog ams.msLL
  let bns := (BFILE.getDirty inum ams.fms.msDBlocks).toList
  let ms ← LOG.dsyncVecs xp.fsxpLog bns ms
  let fms := { ams.fms with msDBlocks := BFILE.clearDirty inum ams.fms.msDBlocks }
  let ms ← LOG.commitRo xp.fsxpLog ms
  pure ⟨ms, fms⟩

/-! ## Directories -/

variable (dnum : Nat) (name : Sname)

def readdir : Memstate → FProg (Memstate × List (Sname × (Nat × Bool))) := transactRo xp (CacheOneDir.readdir xp dnum)

def create : Memstate → FProg (Memstate × Except Errno Nat) := transact shouldFlushall xp (DIRTREE.mkfile xp dnum name)

def mksock : Memstate → FProg (Memstate × Except Errno Nat) :=
  transactRebind shouldFlushall xp fun fms => do
    let (fms, oi) ← DIRTREE.mkfile xp dnum name fms
    match oi with
    | .error e => pure (fms, .error e)
    | .ok inum => do
      let fms ← BFILE.updattr xp inum (.UType 1) fms
      pure (fms, .ok inum)

def mkdir : Memstate → FProg (Memstate × Except Errno Nat) :=
  transactRebind shouldFlushall xp (DIRTREE.mkdir xp dnum name)

def delete : Memstate → FProg (Memstate × Except Errno Unit) := transact shouldFlushall xp (DIRTREE.delete xp dnum name)

def lookup (names : List Sname) : Memstate → FProg (Memstate × Except Errno (Nat × Bool)) :=
  transactRo xp (DIRTREE.namei xp dnum names)

def rename (srcpath : List Sname) (srcname : Sname) (dstpath : List Sname) (dstname : Sname) :
    Memstate → FProg (Memstate × Except Errno Unit) :=
  transact shouldFlushall xp (DIRTREE.rename xp dnum srcpath srcname dstpath dstname)

/-- Flushes the committed transactions. From now on the blocks that were freed before may be allocated again. -/
def treeSync (ams : Memstate) : FProg Memstate := do
  let ms ← LOG.flushall xp.fsxpLog ams.msLL
  pure ⟨ms, { ams.fms with msAlloc := !ams.fms.msAlloc }⟩

def treeSyncNoop (ams : Memstate) : FProg Memstate := treeSync xp ams

def umount (ams : Memstate) : FProg Memstate := do
  let ams ← treeSync xp ams
  let ms ← LOG.syncCache xp.fsxpLog ams.msLL
  pure ⟨ms, ams.fms⟩

/-- The counts of free blocks and of free inodes are commented out. -/
def statfs (ams : Memstate) : FProg (Memstate × (Nat × Nat)) := do
  let ms ← LOG.begin xp.fsxpLog ams.msLL
  let ms ← LOG.commitRo xp.fsxpLog ms
  pure (⟨ms, ams.fms⟩, 0, 0)

end Calls

end AFS

end Fscq
