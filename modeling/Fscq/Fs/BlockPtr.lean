import Fscq.Fs.Balloc

/-!
# Block pointers of an inode

An inode record has its first block numbers in itself and the others in trees of indirect blocks: one of height 0, one of
height 1 and one of height 2, each node with `nIndirect` entries. A pointer that is zero stands for a tree of zeros.
Nodes are allocated when a block number is stored below them and freed when all their entries are zero.
-/

namespace Fscq

open TxnLogic

inductive Errno
  | ELOGOVERFLOW | ENOTDIR | EISDIR | ENOENT | EFBIG | ENAMETOOLONG | EEXIST | ENOSPCBLOCK | ENOSPCINODE | ENOTEMPTY
  | EINVAL
deriving DecidableEq, Repr

/-! ## Inode records -/

namespace INODE

abbrev iattrtype : Rec.Typ := .RecF
  [("bytes", .WordF 64), ("uid", .WordF 32), ("gid", .WordF 32), ("dev", .WordF 64), ("mtime", .WordF 32),
    ("atime", .WordF 32), ("ctime", .WordF 32), ("itype", .WordF 8), ("unused", .WordF 24)]

abbrev NDirect : Nat := 7

abbrev irectype : Rec.Typ := .RecF
  [("len", .WordF 64), ("attrs", iattrtype), ("indptr", .WordF 64), ("dindptr", .WordF 64), ("tindptr", .WordF 64),
    ("blocks", .ArrayF (.WordF 64) NDirect)]

abbrev Iattr : Type := Rec.data iattrtype

abbrev Irec : Type := Rec.data irectype

def irLen (x : Irec) : Nat := x.1.toNat

def irAttrs (x : Irec) : Iattr := x.2.1

def irIndPtr (x : Irec) : Nat := x.2.2.1.toNat

def irDindPtr (x : Irec) : Nat := x.2.2.2.1.toNat

def irTindPtr (x : Irec) : Nat := x.2.2.2.2.1.toNat

def irBlocks (x : Irec) : List Waddr := x.2.2.2.2.2.1

def updLen (x : Irec) (v : Nat) : Irec := (BitVec.ofNat 64 v, x.2)

def updIrec (x : Irec) (len ibptr dibptr tibptr : Nat) (dbns : List Waddr) : Irec :=
  (BitVec.ofNat 64 len, x.2.1, BitVec.ofNat 64 ibptr, BitVec.ofNat 64 dibptr, BitVec.ofNat 64 tibptr, dbns, ())

def setAttrs (x : Irec) (a : Iattr) : Irec := (x.1, a, x.2.2)

end INODE

/-! ## The programs -/

def updRange {A : Type} (l : List A) (start : Nat) : Nat → A → List A
  | 0, _ => l
  | len + 1, v => (updRange l (start + 1) len v).set start v

def updRangeFast {A : Type} : List A → Nat → Nat → A → List A
  | [], _, _, _ => []
  | v' :: vs, start + 1, len, v => v' :: updRangeFast vs start len v
  | v' :: vs, 0, 0, _ => v' :: vs
  | _ :: vs, 0, len + 1, v => v :: updRangeFast vs 0 len v

namespace BlockPtr

open INODE

abbrev indSig : RASig := ⟨.WordF 64, 512, rfl⟩

abbrev nIndirect : Nat := 512

/-- The most blocks an inode can hold. -/
def nBlocks : Nat := NDirect + nIndirect + nIndirect ^ 2 + nIndirect ^ 3

def indget : Nat → Nat → Nat → TBody Waddr
  | 0, bn, off => if bn = 0 then pure 0 else LogRecArray.get indSig bn (off / nIndirect ^ 0)
  | lvl + 1, bn, off => if bn = 0 then pure 0 else do
    let v ← LogRecArray.get indSig bn (off / nIndirect ^ (lvl + 1))
    indget lvl v.toNat (off % nIndirect ^ (lvl + 1))

def indread : Nat → Nat → TBody (List Waddr)
  | 0, ir => if ir = 0 then pure (List.replicate (nIndirect ^ 1) 0) else LogRecArray.read indSig ir 1
  | lvl + 1, ir => if ir = 0 then pure (List.replicate (nIndirect ^ (lvl + 2)) 0) else do
    let indbns ← LogRecArray.read indSig ir 1
    .forEach (fun b r => do
      let v ← indread lvl b.toNat
      pure (v ++ r)) indbns.reverse []

def indclearAll (bxp : BallocXparams) : Nat → Nat → BmapCacheType → TBody BmapCacheType
  | 0, root, ms => if root = 0 then pure ms else BmapAllocCache.free bxp root ms
  | lvl + 1, root, ms => if root = 0 then pure ms else do
    let indbns ← LogRecArray.read indSig root 1
    let ms ← .forEach (fun bn msn => indclearAll bxp lvl bn.toNat msn) indbns ms
    BmapAllocCache.free bxp root ms

def indclearAligned (bxp : BallocXparams) (lvl : Nat) (indbns : List Waddr) (start len : Nat) (ms : BmapCacheType) :
    TBody BmapCacheType :=
  let N := nIndirect ^ (lvl + 1)
  .forEach (fun bn ms => indclearAll bxp lvl bn.toNat ms) ((indbns.drop (start / N)).take (len / N)) ms

/-- Write back an indirect block; a block of zeros is freed instead. -/
def updateBlock (bxp : BallocXparams) (bn : Nat) (contents new : List Waddr) (ms : BmapCacheType) :
    TBody (BmapCacheType × Nat) :=
  if new = List.replicate nIndirect 0 then do
    let ms ← BmapAllocCache.free bxp bn ms
    pure (ms, 0)
  else if contents = new then pure (ms, bn)
  else do
    LogRecArray.write indSig bn new
    pure (ms, bn)

/-- Clear `len` entries from `start` on, the start of a child. -/
def indclearFromAligned (bxp : BallocXparams) : Nat → List Waddr → Nat → Nat → BmapCacheType →
    TBody (BmapCacheType × List Waddr)
  | 0, iblocks, start, len, ms => if len = 0 then pure (ms, iblocks) else do
    let N := nIndirect ^ 1
    let raggedBn := (iblocks.getD (start / N) 0).toNat
    if raggedBn = 0 then pure (ms, iblocks) else do
      let indbns ← LogRecArray.read indSig raggedBn 1
      let indbns' := updRange indbns 0 len 0
      let (ms, v) ← updateBlock bxp raggedBn indbns indbns' ms
      pure (ms, iblocks.set (start / N) (BitVec.ofNat 64 v))
  | lvl + 1, iblocks, start, len, ms => if len = 0 then pure (ms, iblocks) else do
    let N := nIndirect ^ (lvl + 2)
    let raggedBn := (iblocks.getD (start / N) 0).toNat
    if raggedBn = 0 then pure (ms, iblocks) else do
      let indbns ← LogRecArray.read indSig raggedBn 1
      let N' := nIndirect ^ (lvl + 1)
      let ms ← indclearAligned bxp lvl indbns 0 (len / N' * N') ms
      let indbns' := updRange indbns 0 (len / N') 0
      let (ms, indbns'') ← indclearFromAligned bxp lvl indbns' (len / N' * N') (len % N') ms
      let (ms, v) ← updateBlock bxp raggedBn indbns indbns'' ms
      pure (ms, iblocks.set (start / N) (BitVec.ofNat 64 v))

/-- Clear the entries from `start` on up to the end of a child. -/
def indclearToAligned (bxp : BallocXparams) : Nat → List Waddr → Nat → BmapCacheType →
    TBody (BmapCacheType × List Waddr)
  | 0, iblocks, start, ms =>
    let N := nIndirect ^ 1
    if start % N = 0 then pure (ms, iblocks) else do
      let raggedBn := (iblocks.getD (start / N) 0).toNat
      if raggedBn = 0 then pure (ms, iblocks) else do
        let indbns ← LogRecArray.read indSig raggedBn 1
        let indbns' := updRange indbns (start % nIndirect) (nIndirect - start % nIndirect) 0
        let (ms, v) ← updateBlock bxp raggedBn indbns indbns' ms
        pure (ms, iblocks.set (start / N) (BitVec.ofNat 64 v))
  | lvl + 1, iblocks, start, ms =>
    let N := nIndirect ^ (lvl + 2)
    if start % N = 0 then pure (ms, iblocks) else do
      let raggedBn := (iblocks.getD (start / N) 0).toNat
      if raggedBn = 0 then pure (ms, iblocks) else do
        let indbns ← LogRecArray.read indSig raggedBn 1
        let N' := nIndirect ^ (lvl + 1)
        let start' := start % N
        let (ms, indbns') ← indclearToAligned bxp lvl indbns start' ms
        let ms ← indclearAligned bxp lvl indbns' (roundup start' N') (N - roundup start' N') ms
        let indbns'' := updRange indbns' (divup start' N') (nIndirect - divup start' N') 0
        let (ms, v) ← updateBlock bxp raggedBn indbns indbns'' ms
        pure (ms, iblocks.set (start / N) (BitVec.ofNat 64 v))

def indclearMultipleBlocks (bxp : BallocXparams) (lvl : Nat) (indbns : List Waddr) (start len : Nat)
    (ms : BmapCacheType) : TBody (BmapCacheType × List Waddr) := do
  let N := nIndirect ^ (lvl + 1)
  let (ms, indbns') ← indclearToAligned bxp lvl indbns start ms
  let len' := len - (roundup start N - start)
  let start' := start + (roundup start N - start)
  let ms ← indclearAligned bxp lvl indbns' start' (len' / N * N) ms
  let indbns'' := updRange indbns' (start' / N) (len' / N) 0
  indclearFromAligned bxp lvl indbns'' (start' + len' / N * N) (len' % N) ms

def indclear (bxp : BallocXparams) : Nat → Nat → Nat → Nat → BmapCacheType → TBody (BmapCacheType × Nat)
  | 0, root, start, len, ms => if root = 0 then pure (ms, 0) else if len = 0 then pure (ms, root) else do
    let indbns ← LogRecArray.read indSig root 1
    updateBlock bxp root indbns (updRange indbns start len 0) ms
  | lvl + 1, root, start, len, ms => if root = 0 then pure (ms, 0) else if len = 0 then pure (ms, root) else do
    let N := nIndirect ^ (lvl + 1)
    let indbns ← LogRecArray.read indSig root 1
    let (ms, indbns') ← (if len ≤ N - start % N then do
        let (ms, v) ← indclear bxp lvl (indbns.getD (start / N) 0).toNat (start % N) len ms
        pure (ms, indbns.set (start / N) (BitVec.ofNat 64 v))
      else indclearMultipleBlocks bxp lvl indbns start len ms)
    updateBlock bxp root indbns indbns' ms

def indputGetBlocks (isAlloc : Bool) (ir : Nat) : TBody (List Waddr) :=
  if isAlloc then pure (List.replicate nIndirect 0) else LogRecArray.read indSig ir 1

def indrecWriteBlind (xp : Nat) (items : List Waddr) : TBody Unit := LogRecArray.write indSig xp items

def indputUpdIfNecessary (ir v : Nat) (indbns : List Waddr) (toGrow : Nat) : TBody Unit :=
  if v = (indbns.getD toGrow 0).toNat then pure ()
  else indrecWriteBlind ir (indbns.set toGrow (BitVec.ofNat 64 v))

/-- The node to write to: the root, or a new one. -/
def indputRoot (bxp : BallocXparams) (root : Nat) (ms : BmapCacheType) : TBody (BmapCacheType × Option Nat) :=
  if root = 0 then BmapAllocCache.alloc bxp ms else pure (ms, some root)

/-- Store `bn` at `off`. The result is the new root, or 0 if there was no block for a node. -/
def indput (bxp : BallocXparams) : Nat → Nat → Nat → Waddr → BmapCacheType → TBody (BmapCacheType × Nat)
  | 0, root, off, bn, ms => do
    let (ms, ir) ← indputRoot bxp root ms
    match ir with
    | none => pure (ms, 0)
    | some ir => do
      if root = 0 then indrecWriteBlind ir ((List.replicate nIndirect 0).set off bn)
      else LogRecArray.put indSig ir off bn
      pure (ms, ir)
  | lvl + 1, root, off, bn, ms => do
    let N := nIndirect ^ (lvl + 1)
    let (ms, ir) ← indputRoot bxp root ms
    match ir with
    | none => pure (ms, 0)
    | some ir => do
      let toGrow := off / N
      let indbns ← indputGetBlocks (root == 0) ir
      let irToGrow := (indbns.getD toGrow 0).toNat
      let (ms, v) ← indput bxp lvl irToGrow (off % N) bn ms
      if v = 0 then pure (ms, 0)
      else do
        indputUpdIfNecessary ir v indbns toGrow
        pure (ms, ir)

def get (ir : Irec) (off : Nat) : TBody Waddr :=
  if off < NDirect then pure ((irBlocks ir).getD off 0)
  else
    let off := off - NDirect
    if off < nIndirect then indget 0 (irIndPtr ir) off
    else
      let off := off - nIndirect
      if off < nIndirect ^ 2 then indget 1 (irDindPtr ir) off
      else
        let off := off - nIndirect ^ 2
        indget 2 (irTindPtr ir) off

def read (ir : Irec) : TBody (List Waddr) :=
  if irLen ir ≤ NDirect then pure ((irBlocks ir).take (irLen ir))
  else do
    let indbns ← indread 0 (irIndPtr ir)
    let dindbns ← indread 1 (irDindPtr ir)
    let tindbns ← indread 2 (irTindPtr ir)
    pure ((irBlocks ir ++ (indbns ++ (dindbns ++ tindbns))).take (irLen ir))

/-- The offset of the first entry of the tree of height `lvl`. -/
def localStart (lvl : Nat) : Nat := ((List.range lvl).map fun i => nIndirect ^ (i + 1)).foldl (· + ·) 0

def indshrinkHelper (bxp : BallocXparams) (lvl bn nl : Nat) (ms : BmapCacheType) : TBody (BmapCacheType × Nat) :=
  let start := localStart lvl
  let len := nIndirect ^ (lvl + 1)
  if nl < start + len then indclear bxp lvl bn (nl - start) (len - (nl - start)) ms
  else pure (ms, bn)

def indshrink (bxp : BallocXparams) (ir : Irec) (nl : Nat) (ms : BmapCacheType) :
    TBody (BmapCacheType × Nat × Nat × Nat) := do
  let (ms, indptr) ← indshrinkHelper bxp 0 (irIndPtr ir) nl ms
  let (ms, dindptr) ← indshrinkHelper bxp 1 (irDindPtr ir) nl ms
  let (ms, tindptr) ← indshrinkHelper bxp 2 (irTindPtr ir) nl ms
  pure (ms, indptr, dindptr, tindptr)

def shrink (bxp : BallocXparams) (ir : Irec) (nr : Nat) (ms : BmapCacheType) : TBody (BmapCacheType × Irec) :=
  let ol := irLen ir
  let nl := ol - nr
  if ol ≤ NDirect then
    pure (ms, updIrec ir nl (irIndPtr ir) (irDindPtr ir) (irTindPtr ir)
      (updRangeFast (irBlocks ir) nl (NDirect - nl) 0))
  else do
    let nl' := nl - NDirect
    let (ms, indptr, dindptr, tindptr) ← indshrink bxp ir nl' ms
    pure (ms, updIrec ir nl indptr dindptr tindptr (updRangeFast (irBlocks ir) nl (NDirect - nl) 0))

def indgrow (bxp : BallocXparams) (ir : Irec) (off : Nat) (bn : Waddr) (ms : BmapCacheType) :
    TBody (BmapCacheType × Nat × Nat × Nat × Nat) :=
  if off < nIndirect then do
    let (ms, v) ← indput bxp 0 (irIndPtr ir) off bn ms
    pure (ms, v, v, irDindPtr ir, irTindPtr ir)
  else
    let off := off - nIndirect
    if off < nIndirect ^ 2 then do
      let (ms, v) ← indput bxp 1 (irDindPtr ir) off bn ms
      pure (ms, v, irIndPtr ir, v, irTindPtr ir)
    else do
      let off := off - nIndirect ^ 2
      let (ms, v) ← indput bxp 2 (irTindPtr ir) off bn ms
      pure (ms, v, irIndPtr ir, irDindPtr ir, v)

def grow (bxp : BallocXparams) (ir : Irec) (bn : Waddr) (ms : BmapCacheType) :
    TBody (BmapCacheType × Except Errno Irec) :=
  let len := irLen ir
  if len < NDirect then
    pure (ms, .ok (updIrec ir (len + 1) (irIndPtr ir) (irDindPtr ir) (irTindPtr ir) ((irBlocks ir).set len bn)))
  else
    let off := len - NDirect
    if bn = 0 then pure (ms, .ok (updLen ir (len + 1)))
    else do
      let (ms, v, indptr, dindptr, tindptr) ← indgrow bxp ir off bn ms
      if v = 0 then pure (ms, .error .ENOSPCBLOCK)
      else pure (ms, .ok (updIrec ir (len + 1) indptr dindptr tindptr (irBlocks ir)))

end BlockPtr

end Fscq
