import Fscq.Fs.BlockPtr

/-!
# Reads and writes of the FUSE server

The FUSE server turns byte ranges into operations on whole blocks: `fscqRead` cuts the range into pieces, `fscqWrite`
grows the file, writes each piece (with a read of the old block where it needs one) and then sets the size, and
`fscqOpen` may truncate. They are written over any monad with the calls of the file system that they make on one open
file (`FileCalls`).

Numbers follow the types of the server: `Integer` where the source computes with integers, `FileOffset` a signed and
`ByteCount` an unsigned 64-bit number, with the wrap-around of `fromIntegral`.
-/

namespace Fscq

namespace Fuse

/-- The error numbers of the host system that the server returns. -/
inductive PosixErrno
  | eIo | eNOTDIR | eISDIR | eNOENT | eFBIG | eNAMETOOLONG | eEXIST | eNOSPC | eNOTEMPTY | eINVAL
deriving DecidableEq, Repr

def errnoToPosix : Errno → PosixErrno
  | .ELOGOVERFLOW => .eIo
  | .ENOTDIR => .eNOTDIR
  | .EISDIR => .eISDIR
  | .ENOENT => .eNOENT
  | .EFBIG => .eFBIG
  | .ENAMETOOLONG => .eNAMETOOLONG
  | .EEXIST => .eEXIST
  | .ENOSPCBLOCK => .eNOSPC
  | .ENOSPCINODE => .eNOSPC
  | .ENOTEMPTY => .eNOTEMPTY
  | .EINVAL => .eINVAL

abbrev Bytes := List UInt8

/-- `fromIntegral` to a signed 64-bit offset. -/
def toFileOffset (x : Int) : Int := (BitVec.ofInt 64 x).toInt

/-- `fromIntegral` to an unsigned 64-bit count. -/
def toByteCount (x : Int) : Int := x % 2 ^ 64

/-! ## Cutting ranges into blocks -/

def blocksize : Int := valulen / 8

/-- Block number, offset in the block, count from the offset. -/
structure BlockRange where
  blk : Int
  off : Int
  count : Int
deriving DecidableEq, Repr

/-- The list `[a .. b]`. -/
def enumFromTo (a b : Int) : List Int := (List.range (b - a + 1).toNat).map fun (i : Nat) => a + (i : Int)

def computeRangesInt (off count : Int) : List BlockRange :=
  let blocknums := enumFromTo (off / blocksize) ((off + count - 1) / blocksize)
  let startoffs := [off % blocksize] ++ List.replicate (blocknums.length - 1) 0
  let endoffs := List.replicate (blocknums.length - 1) blocksize ++ [(off + count - 1) % blocksize + 1]
  (blocknums.zip (startoffs.zip endoffs)).map fun (blk, startoff, endoff) => ⟨blk, startoff, endoff - startoff⟩

def computeRangePieces (off : Int) (buf : Bytes) : List (BlockRange × Bytes) :=
  let ranges := computeRangesInt off buf.length
  ranges.zip (ranges.map fun r => (buf.drop (r.blk * blocksize + r.off - off).toNat).take r.count.toNat)

/-! ## The calls on an open file -/

/-- The calls of the file system on the inode of one open file. -/
structure FileCalls (M : Type → Type) where
  fileGetSz : M (BitVec 64)
  fileTruncate : Int → M (Except Errno Unit)
  fileSetSz : BitVec 64 → M (Except Errno Unit)
  readFblock : Int → M Bytes
  updateFblock : Int → Bytes → M Unit
  updateFblockD : Int → Bytes → M Unit

variable {M : Type → Type} [Monad M]

def readPiece (fs : FileCalls M) (r : BlockRange) : M Bytes := do
  let wbuf ← fs.readFblock r.blk
  pure ((wbuf.drop r.off.toNat).take r.count.toNat)

def fscqRead (fs : FileCalls M) (byteCount offset : Int) : M Bytes := do
  let wlen ← fs.fileGetSz
  let len := toFileOffset wlen.toNat
  let offset' := min offset len
  let byteCount' := min byteCount (toByteCount (toByteCount len - toByteCount offset'))
  let pieces ← (computeRangesInt offset' byteCount').mapM (readPiece fs)
  pure pieces.flatten

/-- A read by path: `/stats` is not a file, and gives the statistics of the disk. -/
def fscqReadPath (getStats : M Bytes) (fs : FileCalls M) (path : List Char) (byteCount offset : Int) :
    M (Except PosixErrno Bytes) :=
  match path with
  | [] => pure (.error .eIo)
  | _ :: path =>
    if path = "stats".toList then do
      let statbuf ← getStats
      pure (.ok statbuf)
    else do
      let bs ← fscqRead fs byteCount offset
      pure (.ok bs)

inductive WriteState
  | writeOK (c : Int)
  | writeErr (c : Int)

/-- The block to write for one piece. -/
def newBlock (fs : FileCalls M) (initLen : Int) (r : BlockRange) (pieceBs : Bytes) : M Bytes :=
  if r.count = blocksize then
    -- whole block writes need no read-modify-write
    pure pieceBs
  else do
    let oldBs ← (if initLen ≤ r.blk * blocksize ∨ (r.off = 0 ∧ initLen ≤ r.blk * blocksize + r.count) then
        -- nothing of the old file is in this block, or the piece covers all of it
        pure (List.replicate blocksize.toNat 0)
      else fs.readFblock r.blk)
    pure (oldBs.take r.off.toNat ++ (pieceBs ++ oldBs.drop (r.off + r.count).toNat))

def writePiece (fs : FileCalls M) (doLog : Bool) (initLen : Int) (st : WriteState) (p : BlockRange × Bytes) :
    M WriteState :=
  match st with
  | .writeErr c => pure (.writeErr c)
  | .writeOK c => do
    let newBs ← newBlock fs initLen p.1 p.2
    if doLog then fs.updateFblock p.1.blk newBs else fs.updateFblockD p.1.blk newBs
    pure (.writeOK (toByteCount (c + p.1.count)))

/-- Make room for a write that ends at `endpos`, and choose between logged and direct writes. -/
def writeRoom (fs : FileCalls M) (len endpos offset : Int) (bs : Bytes) : M (Except Errno Unit × Bool) :=
  if len < endpos then do
    let ok ← fs.fileTruncate ((endpos + 4095) / 4096)
    pure (ok, true)
  else
    let bslen : Int := bs.length
    if offset % 4096 = 0 ∧ bslen % 4096 = 0 ∧ bslen > 4096 * 5 then pure (.ok (), false)
    else pure (.ok (), false)

def fscqWrite (fs : FileCalls M) (bs : Bytes) (offset : Int) : M (Except PosixErrno Int) := do
  let wlen ← fs.fileGetSz
  let len : Int := wlen.toNat
  let endpos : Int := offset + bs.length
  let (okspc, doLog) ← writeRoom fs len endpos offset bs
  match okspc with
  | .error e => pure (.error (errnoToPosix e))
  | .ok _ => do
    let r ← (computeRangePieces offset bs).foldlM (writePiece fs doLog len) (.writeOK 0)
    match r with
    | .writeOK c => do
      let okspc2 ← (if len < endpos then fs.fileSetSz (BitVec.ofInt 64 endpos) else pure (.ok ()))
      match okspc2 with
      | .ok _ => pure (.ok c)
      | .error _ => pure (.error .eNOSPC)
    | .writeErr c => if c = 0 then pure (.error .eIo) else pure (.ok c)

/-- Opening a regular file, once it is found. -/
def fscqOpen (fs : FileCalls M) (trunc : Bool) : M (Except PosixErrno Unit) :=
  if trunc then do
    let _ ← fs.fileTruncate 0
    let ok ← fs.fileSetSz 0
    match ok with
    | .ok _ => pure (.ok ())
    | .error e => pure (.error (errnoToPosix e))
  else pure (.ok ())

/-! ## Files as blocks -/

/-- A file: its blocks and its size in bytes. -/
structure File where
  blocks : List Bytes
  size : BitVec 64

def zeroBlock : Bytes := List.replicate 4096 0

/-- Truncation to `n` blocks. It fails with the error `fail`, if there is one, and for a file that is too big. -/
def File.truncate (fail : Option Errno) (n : Int) : StateT File Option (Except Errno Unit) := fun f =>
  if fail = none ∧ 0 ≤ n ∧ n ≤ BlockPtr.nBlocks then
    some (.ok (), { f with blocks := (f.blocks ++ List.replicate (n.toNat - f.blocks.length) zeroBlock).take n.toNat })
  else some (.error (fail.getD .EFBIG), f)

def File.read (blk : Int) : StateT File Option Bytes := fun f =>
  if 0 ≤ blk then f.blocks[blk.toNat]?.map (·, f) else none

def File.update (blk : Int) (bs : Bytes) : StateT File Option Unit := fun f =>
  if 0 ≤ blk ∧ blk.toNat < f.blocks.length ∧ bs.length = 4096 then
    some ((), { f with blocks := f.blocks.set blk.toNat bs })
  else none

/-- The calls on a file of its own. A call outside the file, or with a buffer that is not a block, is stuck. -/
def fileCalls (fail : Option Errno) : FileCalls (StateT File Option) where
  fileGetSz := fun f => some (f.size, f)
  fileTruncate := File.truncate fail
  fileSetSz := fun sz f => some (.ok (), { f with size := sz })
  readFblock := File.read
  updateFblock := File.update
  updateFblockD := File.update

end Fuse

end Fscq
