import Fscq.Rec.Array
import Fscq.Cache.Batch

/-!
# The checksummed log on disk

The log occupies a header block, a region of descriptor blocks (the addresses of the entries, 512 to a block) and a
region of data blocks. The header holds the lengths of both regions, before and after the last change, and a checksum
chained over the blocks of each. Appending (`extend`) writes descriptors, data and header without any barrier between
them and then syncs once; after a crash `recover` compares the checksums and falls back to the previous lengths if
they do not match. Entries with address 0 are padding.

The hash is a parameter of the semantics only: programs name the keys they hash.
-/

namespace Fscq

open CrashLogic

structure LogXparams where
  /-- Where the actual data section starts. -/
  dataStart : Nat
  logHeader : Nat
  /-- Start of the descriptor region, and its number of blocks. -/
  logDescriptor : Nat
  logDescLen : Nat
  /-- Start of the data region of the log, and the maximum number of entries. -/
  logData : Nat
  logLen : Nat

/-- What is hashed: a word of any length. -/
abbrev HashKey := (sz : Nat) × BitVec sz

abbrev HashVal := BitVec hashlen

/-- Programs over blocks with the hash of the log. -/
abbrev FProg (α : Type) := Prog Valu HashKey HashVal α

abbrev CacheSt := Cachestate Valu

def defaultValu : Valu := 0

/-- The key of `Hash buf`. -/
def hashKey {sz : Nat} (buf : BitVec sz) : HashKey := ⟨sz, buf⟩

/-- The key of `Hash2 buf1 buf2`. -/
def hash2Key {sz₁ sz₂ : Nat} (buf₁ : BitVec sz₁) (buf₂ : BitVec sz₂) : HashKey := ⟨sz₁ + sz₂, combine buf₁ buf₂⟩

def hashList (h : HashVal) (values : List Valu) : FProg HashVal :=
  Prog.forEach (fun item hash => Prog.hashOf (hash2Key item hash)) values h

/-! ## Arrays of records on the asynchronous disk -/

namespace AsyncRecArray

/-- Read `count` blocks from the start of the array. -/
def readAll (R : RASig) (raStart count : Nat) (cs : CacheSt) : FProg (CacheSt × List R.Item) :=
  Bufcache.readRange raStart count R.iunpack [] cs

/-- Write items from a given block index; slots following the items are cleared. -/
def writeAligned (R : RASig) (raStart start : Nat) (items : List R.Item) (cs : CacheSt) : FProg CacheSt :=
  Bufcache.writeRange (raStart + start) (R.nopadIpack items) cs

def syncAligned (raStart start count : Nat) (cs : CacheSt) : FProg CacheSt :=
  Bufcache.syncRange (raStart + start) count cs

end AsyncRecArray

namespace PaddedLog

abbrev DescSig : RASig := ⟨.WordF 64, 512, rfl⟩

abbrev DataSig : RASig := ⟨.WordF valulen, 1, rfl⟩

end PaddedLog

/-! ## The header -/

structure Hdr where
  previousLength : Nat × Nat
  currentLength : Nat × Nat
  checksum : HashVal × HashVal

namespace Hdr

def headerType : Rec.Typ := .RecF [("previous_ndesc", .WordF 64), ("previous_ndata", .WordF 64), ("ndesc", .WordF 64),
  ("ndata", .WordF 64), ("addr_checksum", .WordF hashlen), ("valu_checksum", .WordF hashlen)]

abbrev Header : Type := Rec.data headerType

def mkHeader (h : Hdr) : Header :=
  (BitVec.ofNat 64 h.previousLength.1, BitVec.ofNat 64 h.previousLength.2, BitVec.ofNat 64 h.currentLength.1,
    BitVec.ofNat 64 h.currentLength.2, h.checksum.1, h.checksum.2, ())

theorem plus_minus_header : Rec.len headerType + (valulen - Rec.len headerType) = valulen := rfl

def hdr2val (h : Header) : Valu :=
  (zext (Rec.toWord headerType h) (valulen - Rec.len headerType)).cast plus_minus_header

def val2hdr (v : Valu) : Header :=
  Rec.ofWord headerType (split1 (Rec.len headerType) (valulen - Rec.len headerType) (v.cast plus_minus_header.symm))

/-- The header record read as numbers. -/
def ofHeader (h : Header) : Hdr :=
  let (prevNdesc, prevNdata, ndesc, ndata, addrChecksum, valuChecksum, ()) :=
    (h : BitVec 64 × BitVec 64 × BitVec 64 × BitVec 64 × HashVal × HashVal × Unit)
  ⟨(prevNdesc.toNat, prevNdata.toNat), (ndesc.toNat, ndata.toNat), (addrChecksum, valuChecksum)⟩

def read (xp : LogXparams) (cs : CacheSt) : FProg (CacheSt × Hdr) := do
  let (cs, v) ← Bufcache.read xp.logHeader cs
  pure (cs, ofHeader (val2hdr v))

def write (xp : LogXparams) (n : Hdr) (cs : CacheSt) : FProg CacheSt :=
  Bufcache.write xp.logHeader (hdr2val (mkHeader n)) cs

def sync (xp : LogXparams) (cs : CacheSt) : FProg CacheSt := Bufcache.sync xp.logHeader cs

def syncNow (xp : LogXparams) (cs : CacheSt) : FProg CacheSt := do
  let cs ← Bufcache.beginSync cs
  let cs ← Bufcache.sync xp.logHeader cs
  Bufcache.endSync cs

def init (xp : LogXparams) (cs : CacheSt) : FProg CacheSt := do
  let h ← Prog.hashOf (hashKey defaultValu)
  let cs ← Bufcache.write xp.logHeader (hdr2val (mkHeader ⟨(0, 0), (0, 0), (h, h)⟩)) cs
  let cs ← Bufcache.beginSync cs
  let cs ← Bufcache.sync xp.logHeader cs
  Bufcache.endSync cs

end Hdr

/-! ## The log -/

namespace PaddedLog

abbrev Entry := Nat × Valu

abbrev Contents := List Entry

def entAddr (e : Entry) : Waddr := BitVec.ofNat 64 e.1

def entValu (e : Entry) : Valu := e.2

def ndescLog (log : Contents) : Nat := divup log.length DescSig.itemsPerVal

def logNonzero : Contents → List Entry
  | [] => []
  | (0, _) :: rest => logNonzero rest
  | (a + 1, v) :: rest => (a + 1, v) :: logNonzero rest

def valsNonzero (log : Contents) : List Valu := (logNonzero log).map entValu

def nonzeroAddrs : List Nat → Nat
  | [] => 0
  | 0 :: rest => nonzeroAddrs rest
  | (_ + 1) :: rest => nonzeroAddrs rest + 1

def combineNonzero : List Nat → List Valu → Contents
  | 0 :: al', v :: vl' => combineNonzero al' (v :: vl')
  | (a + 1) :: al', v :: vl' => (a + 1, v) :: combineNonzero al' vl'
  | _, _ => []

def ndataLog (log : Contents) : Nat := nonzeroAddrs (log.map Prod.fst)

/-- The address fits in 64 bits. -/
def AddrValid (e : Entry) : Prop := e.1 < 2 ^ 64

def EntryValid (e : Entry) : Prop := e.1 ≠ 0 ∧ AddrValid e

def LoglenValid (xp : LogXparams) (ndesc ndata : Nat) : Prop := ndesc ≤ xp.logDescLen ∧ ndata ≤ xp.logLen

instance (xp : LogXparams) (ndesc ndata : Nat) : Decidable (LoglenValid xp ndesc ndata) :=
  inferInstanceAs (Decidable (_ ∧ _))

def avail (xp : LogXparams) (cs : CacheSt) : FProg (CacheSt × Nat) := do
  let (cs, nr) ← Hdr.read xp cs
  pure (cs, xp.logLen - nr.currentLength.1 * DescSig.itemsPerVal)

def read (xp : LogXparams) (cs : CacheSt) : FProg (CacheSt × Contents) := do
  let (cs, nr) ← Hdr.read xp cs
  let (ndesc, ndata) := nr.currentLength
  let (cs, wal) ← AsyncRecArray.readAll DescSig xp.logDescriptor ndesc cs
  let al := wal.map BitVec.toNat
  let (cs, vl) ← AsyncRecArray.readAll DataSig xp.logData ndata cs
  pure (cs, combineNonzero al vl)

def init (xp : LogXparams) (cs : CacheSt) : FProg CacheSt := Hdr.init xp cs

def trunc (xp : LogXparams) (cs : CacheSt) : FProg CacheSt := do
  let (cs, nr) ← Hdr.read xp cs
  let h ← Prog.hashOf (hashKey defaultValu)
  let cs ← Hdr.write xp ⟨nr.currentLength, (0, 0), (h, h)⟩ cs
  Hdr.syncNow xp cs

def extend (xp : LogXparams) (log : Contents) (cs : CacheSt) : FProg (CacheSt × Bool) := do
  let (cs, nr) ← Hdr.read xp cs
  let (ndesc, ndata) := nr.currentLength
  let (hAddr, hValu) := nr.checksum
  let (nndesc, nndata) := (ndescLog log, ndataLog log)
  if LoglenValid xp (ndesc + nndesc) (ndata + nndata) then do
    let hAddr ← hashList hAddr (DescSig.nopadIpack (log.map entAddr))
    let hValu ← hashList hValu (valsNonzero log)
    let cs ← AsyncRecArray.writeAligned DescSig xp.logDescriptor ndesc (log.map entAddr) cs
    let cs ← AsyncRecArray.writeAligned DataSig xp.logData ndata (log.map entValu) cs
    let cs ← Hdr.write xp ⟨(ndesc, ndata), (ndesc + nndesc, ndata + nndata), (hAddr, hValu)⟩ cs
    let cs ← Bufcache.beginSync cs
    let cs ← AsyncRecArray.syncAligned xp.logDescriptor ndesc nndesc cs
    let cs ← AsyncRecArray.syncAligned xp.logData ndata nndata cs
    let cs ← Hdr.sync xp cs
    let cs ← Bufcache.endSync cs
    pure (cs, true)
  else pure (cs, false)

def recover (xp : LogXparams) (cs : CacheSt) : FProg CacheSt := do
  let (cs, header) ← Hdr.read xp cs
  let (prevNdesc, prevNdata) := header.previousLength
  let (ndesc, ndata) := header.currentLength
  let (addrChecksum, valuChecksum) := header.checksum
  let (cs, wal) ← AsyncRecArray.readAll DescSig xp.logDescriptor ndesc cs
  let (cs, vl) ← AsyncRecArray.readAll DataSig xp.logData ndata cs
  let defaultHash ← Prog.hashOf (hashKey defaultValu)
  let hAddr ← hashList defaultHash (DescSig.ipack wal)
  let hValu ← hashList defaultHash vl
  if addrChecksum = hAddr ∧ valuChecksum = hValu then pure cs
  else do
    let (cs, wal) ← AsyncRecArray.readAll DescSig xp.logDescriptor prevNdesc cs
    let (cs, vl) ← AsyncRecArray.readAll DataSig xp.logData prevNdata cs
    let addrChecksum ← hashList defaultHash (DescSig.ipack wal)
    let valuChecksum ← hashList defaultHash vl
    let cs ← Hdr.write xp ⟨(prevNdesc, prevNdata), (prevNdesc, prevNdata), (addrChecksum, valuChecksum)⟩ cs
    Hdr.syncNow xp cs

end PaddedLog

end Fscq
