import Fscq.Fs.BlockList
import Fscq.DiskLog.Defs
import Mathlib.Data.List.Nodup
import Mathlib.Data.List.Pairwise

/-!
# Inodes

The inode table is an array of records with a cache. `used` are the blocks an inode has, its file's blocks and the nodes
of its trees, and `BRep` says that every data block is in exactly one place: it is free in one of the two allocators, used
by one inode, or in the list `extra` of blocks that were allocated and are not stored yet.
-/

namespace Fscq

open TxnLogic
open BmapAlloc (freeList size DataOk)

/-! ## The layout -/

structure InodeXparams where
  ixStart : Nat
  ixLen : Nat

structure FsXparams where
  fsxpLog : LogXparams
  fsxpInode : InodeXparams
  fsxpBlockAlloc1 : BallocXparams
  fsxpBlockAlloc2 : BallocXparams
  fsxpInodeAlloc : BallocXparams
  fsxpRootInum : Nat
  fsxpMaxBlock : Nat
  fsxpMagic : Nat

namespace FsXparams

variable (xp : FsXparams)

/-- The allocator selected by a flag. -/
def balloc (al : Bool) : BallocXparams := if al then xp.fsxpBlockAlloc1 else xp.fsxpBlockAlloc2

/-- The number of data blocks, block 0 included. -/
def dataSize : Nat := size xp.fsxpBlockAlloc1

def nInodes : Nat := xp.fsxpInode.ixLen * 32

/-- The blocks of the inode table. -/
def InTable (a : Nat) : Prop := xp.fsxpInode.ixStart ≤ a ∧ a < xp.fsxpInode.ixStart + xp.fsxpInode.ixLen

/-- The regions of a disk of `n` blocks, one after the other. -/
structure Ok (n : Nat) : Prop where
  same : xp.fsxpBlockAlloc2.bmapNBlocks = xp.fsxpBlockAlloc1.bmapNBlocks
  pos : 0 < xp.fsxpBlockAlloc1.bmapNBlocks
  table : xp.dataSize ≤ xp.fsxpInode.ixStart
  ialloc : xp.fsxpInode.ixStart + xp.fsxpInode.ixLen ≤ xp.fsxpInodeAlloc.bmapStart
  balloc1 : xp.fsxpInodeAlloc.bmapStart + xp.fsxpInodeAlloc.bmapNBlocks ≤ xp.fsxpBlockAlloc1.bmapStart
  balloc2 : xp.fsxpBlockAlloc1.bmapStart + xp.fsxpBlockAlloc1.bmapNBlocks ≤ xp.fsxpBlockAlloc2.bmapStart
  disk : xp.fsxpBlockAlloc2.bmapStart + xp.fsxpBlockAlloc2.bmapNBlocks ≤ n
  inodes : xp.nInodes = size xp.fsxpInodeAlloc
  bound : n < 2 ^ 64

variable {xp} {n : Nat}

theorem inTable_of_lt {inum : Nat} (h : inum < xp.nInodes) : xp.InTable (xp.fsxpInode.ixStart + inum / 32) := by
  have hdiv : inum / 32 < xp.fsxpInode.ixLen := by
    rw [nInodes] at h
    omega
  exact ⟨Nat.le_add_right _ _, Nat.add_lt_add_left hdiv _⟩

namespace Ok

variable (hxp : xp.Ok n)
include hxp

theorem size_balloc (al : Bool) : size (xp.balloc al) = xp.dataSize := by
  cases al with
  | true => rfl
  | false => simp only [balloc, dataSize, size, hxp.same, Bool.false_eq_true, if_false]

theorem dataSize_pos : 1 < xp.dataSize := by
  have := hxp.pos
  simp only [dataSize, size, valulen]
  omega

theorem table_ne_zero : xp.fsxpInode.ixStart ≠ 0 := by
  have := hxp.dataSize_pos
  have := hxp.table
  omega

theorem dataOk (al : Bool) : DataOk (xp.balloc al) n := by
  have hsize := hxp.size_balloc al
  have hpos := hxp.dataSize_pos
  have h₁ := hxp.same
  have h₂ := hxp.table
  have h₃ := hxp.ialloc
  have h₄ := hxp.balloc1
  have h₅ := hxp.balloc2
  have h₆ := hxp.disk
  have h₇ := hxp.bound
  cases al with
  | true =>
    have hb : xp.balloc true = xp.fsxpBlockAlloc1 := rfl
    rw [hb] at hsize ⊢
    exact { inDisk := by omega, nonzero := by omega, below := by omega, bound := by omega }
  | false =>
    have hb : xp.balloc false = xp.fsxpBlockAlloc2 := rfl
    rw [hb] at hsize ⊢
    exact { inDisk := by omega, nonzero := by omega, below := by omega, bound := by omega }

theorem iallocOk : xp.fsxpInodeAlloc.Ok n := by
  have hpos := hxp.dataSize_pos
  have h₂ := hxp.table
  have h₃ := hxp.ialloc
  have h₄ := hxp.balloc1
  have h₅ := hxp.balloc2
  have h₆ := hxp.disk
  exact ⟨by omega, by omega⟩

/-- The regions are disjoint. -/
theorem not_inTable {a : Nat} (ha : a < xp.dataSize) : ¬ xp.InTable a := by
  have := hxp.table
  rintro ⟨h, _⟩
  omega

theorem not_inIalloc {a : Nat} (ha : a < xp.dataSize) : ¬ xp.fsxpInodeAlloc.InBitmap a := by
  have := hxp.table
  have := hxp.ialloc
  rintro ⟨h, _⟩
  omega

theorem not_inBalloc (al : Bool) {a : Nat} (ha : a < xp.dataSize) : ¬ (xp.balloc al).InBitmap a :=
  (hxp.dataOk al).not_inBitmap (by rw [hxp.size_balloc]; exact ha)

theorem table_not_inBalloc (al : Bool) {a : Nat} (ha : xp.InTable a) : ¬ (xp.balloc al).InBitmap a := by
  have h₃ := hxp.ialloc
  have h₄ := hxp.balloc1
  have h₅ := hxp.balloc2
  obtain ⟨_, h⟩ := ha
  cases al with
  | true =>
    rintro ⟨h', _⟩
    simp only [balloc, if_true] at h'
    omega
  | false =>
    rintro ⟨h', _⟩
    simp only [balloc, Bool.false_eq_true, if_false] at h'
    omega

theorem ialloc_not_inBalloc (al : Bool) {a : Nat} (ha : xp.fsxpInodeAlloc.InBitmap a) : ¬ (xp.balloc al).InBitmap a := by
  have h₄ := hxp.balloc1
  have h₅ := hxp.balloc2
  obtain ⟨_, h⟩ := ha
  cases al with
  | true =>
    rintro ⟨h', _⟩
    simp only [balloc, if_true] at h'
    omega
  | false =>
    rintro ⟨h', _⟩
    simp only [balloc, Bool.false_eq_true, if_false] at h'
    omega

theorem ialloc_not_inTable {a : Nat} (ha : xp.fsxpInodeAlloc.InBitmap a) : ¬ xp.InTable a := by
  have h₃ := hxp.ialloc
  obtain ⟨h, _⟩ := ha
  rintro ⟨_, h'⟩
  omega

theorem balloc_not_inBalloc (al : Bool) {a : Nat} (ha : (xp.balloc al).InBitmap a) : ¬ (xp.balloc !al).InBitmap a := by
  have h₅ := hxp.balloc2
  obtain ⟨h, h'⟩ := ha
  cases al with
  | true =>
    rintro ⟨h₁, _⟩
    simp only [balloc, Bool.not_true, Bool.false_eq_true, if_true, if_false] at h' h₁
    omega
  | false =>
    rintro ⟨_, h₁⟩
    simp only [balloc, Bool.not_false, Bool.false_eq_true, if_true, if_false] at h h₁
    omega

theorem table_lt {a : Nat} (ha : xp.InTable a) : a < n := by
  have h₃ := hxp.ialloc
  have h₄ := hxp.balloc1
  have h₅ := hxp.balloc2
  have h₆ := hxp.disk
  obtain ⟨_, h⟩ := ha
  omega

theorem data_lt {a : Nat} (ha : a < xp.dataSize) : a < n := (hxp.dataOk true).lt_disk ha

end Ok

end FsXparams

/-! ## Programs -/

namespace INODE

abbrev irecSig : RASig := ⟨irectype, 32, rfl⟩

abbrev ICache : Type := LogRecArrayCache.Cache irecSig

def ABytes (a : Iattr) : BitVec 64 := a.1

def AMTime (a : Iattr) : BitVec 32 := a.2.2.2.2.1

def AType (a : Iattr) : BitVec 8 := a.2.2.2.2.2.2.2.1

def ADev (a : Iattr) : BitVec 64 := a.2.2.2.1

inductive IattrupdArg
  | UBytes (v : BitVec 64)
  | UMTime (v : BitVec 32)
  | UType (v : BitVec 8)
  | UDev (v : BitVec 64)

def iattrUpd : Iattr → IattrupdArg → Iattr
  | (_, rest), .UBytes v => (v, rest)
  | (bytes, uid, gid, dev, _, rest), .UMTime v => (bytes, uid, gid, dev, v, rest)
  | (bytes, uid, gid, dev, mtime, atime, ctime, _, rest), .UType v => (bytes, uid, gid, dev, mtime, atime, ctime, v, rest)
  | (bytes, uid, gid, _, rest), .UDev v => (bytes, uid, gid, v, rest)

def iattr0 : Iattr := Rec.ofWord iattrtype 0

variable (ixp : InodeXparams) (bxp : BallocXparams) (inum : Nat)

def init : TBody Unit := LogRecArray.init ixp.ixStart ixp.ixLen

def getlen (cache : ICache) : TBody (ICache × Nat) := do
  let (cache, ir) ← LogRecArrayCache.getArray ixp.ixStart inum cache
  pure (cache, irLen ir)

def getattrs (cache : ICache) : TBody (ICache × Iattr) := do
  let (cache, i) ← LogRecArrayCache.getArray ixp.ixStart inum cache
  pure (cache, irAttrs i)

def setattrs (attr : Iattr) (cache : ICache) : TBody ICache := do
  let (cache, i) ← LogRecArrayCache.getArray ixp.ixStart inum cache
  LogRecArrayCache.putArray ixp.ixStart inum (setAttrs i attr) cache

def updattr (a : IattrupdArg) (cache : ICache) : TBody ICache := do
  let (cache, i) ← LogRecArrayCache.getArray ixp.ixStart inum cache
  LogRecArrayCache.putArray ixp.ixStart inum (setAttrs i (iattrUpd (irAttrs i) a)) cache

def getbnum (off : Nat) (cache : ICache) : TBody (ICache × Waddr) := do
  let (cache, ir) ← LogRecArrayCache.getArray ixp.ixStart inum cache
  let r ← BlockPtr.get ir off
  pure (cache, r)

def getallbnum (cache : ICache) : TBody (ICache × List Waddr) := do
  let (cache, ir) ← LogRecArrayCache.getArray ixp.ixStart inum cache
  let r ← BlockPtr.read ir
  pure (cache, r)

def shrink (nr : Nat) (cache : ICache) (ms : BmapCacheType) : TBody (ICache × BmapCacheType) := do
  let (cache, ir) ← LogRecArrayCache.getArray ixp.ixStart inum cache
  let (ms, ir') ← BlockPtr.shrink bxp ir nr ms
  let cache ← LogRecArrayCache.putArray ixp.ixStart inum ir' cache
  pure (cache, ms)

/-- `shrink` and `setattrs` with one write of the record. -/
def reset (nr : Nat) (attr : Iattr) (cache : ICache) (ms : BmapCacheType) : TBody (ICache × BmapCacheType) := do
  let (cache, ir) ← LogRecArrayCache.getArray ixp.ixStart inum cache
  let (ms, ir') ← BlockPtr.shrink bxp ir nr ms
  let cache ← LogRecArrayCache.putArray ixp.ixStart inum (setAttrs ir' attr) cache
  pure (cache, ms)

def grow (bn : Nat) (cache : ICache) (ms : BmapCacheType) : TBody (ICache × BmapCacheType × Except Errno Unit) := do
  let (cache, ir) ← LogRecArrayCache.getArray ixp.ixStart inum cache
  let (ms, r) ← BlockPtr.grow bxp ir (BitVec.ofNat 64 bn) ms
  match r with
  | .error e => pure (cache, ms, .error e)
  | .ok ir' => do
    let cache ← LogRecArrayCache.putArray ixp.ixStart inum ir' cache
    pure (cache, ms, .ok ())

end INODE

/-! ## Ownership of the data blocks -/

section View

open INODE BlockPtr

variable (xp : FsXparams) (d : LDisk)

def irec (i : Nat) : Irec := LogRecArray.item irecSig xp.fsxpInode.ixStart d i

/-- The blocks of a file. -/
def blks (i : Nat) : List Nat := (blockList d (irec xp d i)).map BitVec.toNat

/-- The nodes of the trees of an inode. -/
def inds (i : Nat) : List Nat := indNodes d (irec xp d i)

def used (i : Nat) : List Nat := blks xp d i ++ inds xp d i

def owned : List Nat := (List.range xp.nInodes).flatMap (used xp d)

/-- The free blocks of an allocator. -/
def freeOf (al : Bool) : List Nat := freeList (xp.balloc al) d

/-- Every data block is in exactly one place. Nodes are only written through the log, so they are plain. -/
structure BRep (extra : List Nat) : Prop where
  own : (freeOf xp d true ++ (freeOf xp d false ++ (extra ++ owned xp d))).Perm (List.range' 1 (xp.dataSize - 1))
  irep : ∀ i, i < xp.nInodes → IrecRep d (irec xp d i)
  plain : ∀ i, i < xp.nInodes → ∀ a ∈ inds xp d i, d.plain a

end View

section Owned

open INODE BlockPtr

variable {xp : FsXparams} {n : Nat} {d d' : LDisk} {al : Bool} {inum : Nat} {extra : List Nat}

theorem irec_congr (h : ∀ a, xp.InTable a → d' a = d a) {i : Nat} (hi : i < xp.nInodes) : irec xp d' i = irec xp d i :=
  LogRecArray.item_congr (R := irecSig) (h _ (FsXparams.inTable_of_lt hi))

theorem used_congr {i : Nat} (hr : irec xp d' i = irec xp d i) (h : ∀ a ∈ inds xp d i, d' a = d a) :
    blks xp d' i = blks xp d i ∧ inds xp d' i = inds xp d i := by
  rw [blks, blks, inds, inds, hr]
  exact ⟨by rw [blockList_congr h], indNodes_congr h⟩

/-- What the other inodes use stays where it is. -/
theorem owned_split (hi : inum < xp.nInodes) (h : ∀ i, i < xp.nInodes → i ≠ inum → used xp d' i = used xp d i) :
    ∃ K L, owned xp d = K ++ (used xp d inum ++ L) ∧ owned xp d' = K ++ (used xp d' inum ++ L) := by
  have hrange : List.range xp.nInodes =
      List.range inum ++ inum :: (List.range (xp.nInodes - inum - 1)).map fun i => inum + 1 + i := by
    have hsplit : xp.nInodes = inum + 1 + (xp.nInodes - inum - 1) := by omega
    conv_lhs => rw [hsplit, List.range_add, List.range_succ, List.append_assoc, List.singleton_append]
  have hleft : (List.range inum).flatMap (used xp d') = (List.range inum).flatMap (used xp d) :=
    List.flatMap_congr fun i hi' => h i (by have := List.mem_range.1 hi'; omega) (by have := List.mem_range.1 hi'; omega)
  have hright : ((List.range (xp.nInodes - inum - 1)).map fun i => inum + 1 + i).flatMap (used xp d') =
      ((List.range (xp.nInodes - inum - 1)).map fun i => inum + 1 + i).flatMap (used xp d) := by
    refine List.flatMap_congr fun i hi' => ?_
    obtain ⟨j, hj, rfl⟩ := List.mem_map.1 hi'
    have := List.mem_range.1 hj
    exact h _ (by omega) (by omega)
  refine ⟨(List.range inum).flatMap (used xp d),
    ((List.range (xp.nInodes - inum - 1)).map fun i => inum + 1 + i).flatMap (used xp d), ?_, ?_⟩
  · rw [owned, hrange, List.flatMap_append, List.flatMap_cons]
  · rw [owned, hrange, List.flatMap_append, List.flatMap_cons, hleft, hright]

theorem used_sub_owned {i a : Nat} (hi : i < xp.nInodes) (ha : a ∈ used xp d i) : a ∈ owned xp d :=
  List.mem_flatMap.2 ⟨i, List.mem_range.2 hi, ha⟩

namespace BRep

variable (hb : BRep xp d extra)
include hb

theorem mem_iff (a : Nat) : (a ∈ freeOf xp d true ∨ a ∈ freeOf xp d false ∨ a ∈ extra ∨ a ∈ owned xp d) ↔
    0 < a ∧ a < xp.dataSize := by
  have h := hb.own.mem_iff (a := a)
  simp only [List.mem_append, List.mem_range'_1] at h
  rw [h]
  omega

theorem nodup : (freeOf xp d true ++ (freeOf xp d false ++ (extra ++ owned xp d))).Nodup :=
  hb.own.nodup_iff.2 (List.nodup_range')

theorem owned_pos {a : Nat} (ha : a ∈ owned xp d) : a ≠ 0 ∧ a < xp.dataSize := by
  obtain ⟨h₁, h₂⟩ := (hb.mem_iff a).1 (.inr (.inr (.inr ha)))
  exact ⟨by omega, h₂⟩

theorem extra_pos {a : Nat} (ha : a ∈ extra) : a ≠ 0 ∧ a < xp.dataSize := by
  obtain ⟨h₁, h₂⟩ := (hb.mem_iff a).1 (.inr (.inr (.inl ha)))
  exact ⟨by omega, h₂⟩

theorem not_free {a : Nat} (al : Bool) (ha : a ∈ extra ∨ a ∈ owned xp d) : a ∉ freeOf xp d al := fun hf => by
  have hmem : a ∈ extra ++ owned xp d := List.mem_append.2 ha
  have hnd := hb.nodup
  rw [List.nodup_append] at hnd
  cases al with
  | true => exact hnd.2.2 a hf a (List.mem_append_right _ hmem) rfl
  | false =>
    rw [List.nodup_append] at hnd
    exact hnd.2.1.2.2 a hf a hmem rfl

theorem owned_nodup : (owned xp d).Nodup := by
  have hnd := hb.nodup
  rw [List.nodup_append, List.nodup_append, List.nodup_append] at hnd
  exact hnd.2.1.2.1.2.1

/-- A block is used by one inode. -/
theorem used_disjoint {i j a : Nat} (hi : i < xp.nInodes) (hj : j < xp.nInodes) (hai : a ∈ used xp d i)
    (haj : a ∈ used xp d j) : i = j := by
  by_contra hne
  have hpair := (List.nodup_flatMap.1 hb.owned_nodup).2
  have hsymm : Std.Symm (Function.onFun List.Disjoint (used xp d)) := ⟨fun _ _ h _ ha hb => h hb ha⟩
  exact hpair.forall (List.mem_range.2 hi) (List.mem_range.2 hj) hne hai haj

theorem used_nodup {i : Nat} (hi : i < xp.nInodes) : (used xp d i).Nodup :=
  (List.nodup_flatMap.1 hb.owned_nodup).1 i (List.mem_range.2 hi)

theorem indsOwned (hxp : xp.Ok n) (al : Bool) {i : Nat} (hi : i < xp.nInodes) : Owned (xp.balloc al) d (inds xp d i) := by
  have hsub : ∀ a ∈ inds xp d i, a ∈ owned xp d := fun a ha => used_sub_owned hi (List.mem_append_right _ ha)
  refine ⟨List.nodup_append.2 ⟨(List.nodup_append.1 (hb.used_nodup hi)).2.1, BmapAlloc.nodup_freeList _ _, ?_⟩, fun a ha => ?_⟩
  · rintro a ha b hbf rfl
    exact hb.not_free al (.inr (hsub a ha)) hbf
  · rw [hxp.size_balloc]
    exact (hb.owned_pos (hsub a ha)).2

end BRep

/-! ### Changes of one inode -/

/-- Only the inode `inum` changes, and blocks that were its nodes or free in the allocator `al`. -/
structure FileChange (xp : FsXparams) (al : Bool) (inum : Nat) (d d' : LDisk) : Prop where
  frame : ∀ a, a ∉ inds xp d inum → a ∉ freeOf xp d al → ¬ (xp.balloc al).InBitmap a → ¬ xp.InTable a → d' a = d a
  other : ∀ i, i < xp.nInodes → i ≠ inum → irec xp d' i = irec xp d i
  mono : ∀ a, d.plain a → d'.plain a

namespace FileChange

variable (hch : FileChange xp al inum d d')
include hch

/-- What is not a data block of the inode or of the allocator stays. -/
theorem data_eq (hxp : xp.Ok n) {a : Nat} (ha : a < xp.dataSize) (hn : a ∉ inds xp d inum) (hf : a ∉ freeOf xp d al) :
    d' a = d a :=
  hch.frame a hn hf (hxp.not_inBalloc al ha) (hxp.not_inTable ha)

theorem meta_eq (hxp : xp.Ok n) (hb : BRep xp d extra) (hi : inum < xp.nInodes) {a : Nat} (ha : xp.dataSize ≤ a)
    (hba : ¬ (xp.balloc al).InBitmap a) (hta : ¬ xp.InTable a) : d' a = d a := by
  refine hch.frame a (fun h => ?_) (fun h => ?_) hba hta
  · have := (hb.owned_pos (used_sub_owned hi (List.mem_append_right _ h))).2
    omega
  · have := (BmapAlloc.mem_freeList.1 h).1
    rw [hxp.size_balloc] at this
    omega

theorem used_other (hxp : xp.Ok n) (hb : BRep xp d extra) (hi : inum < xp.nInodes) {i : Nat} (hi' : i < xp.nInodes)
    (hne : i ≠ inum) : blks xp d' i = blks xp d i ∧ inds xp d' i = inds xp d i := by
  refine used_congr (hch.other i hi' hne) fun a ha => ?_
  have hmem : a ∈ used xp d i := List.mem_append_right _ ha
  have hown := used_sub_owned hi' hmem
  exact hch.data_eq hxp (hb.owned_pos hown).2
    (fun h => hne (hb.used_disjoint hi' hi hmem (List.mem_append_right _ h))) (hb.not_free al (.inr hown))

/-- No file's data changes. -/
theorem blks_data (hxp : xp.Ok n) (hb : BRep xp d extra) (hi : inum < xp.nInodes) {i a : Nat} (hi' : i < xp.nInodes)
    (ha : a ∈ blks xp d i) : d' a = d a := by
  have hmem : a ∈ used xp d i := List.mem_append_left _ ha
  have hown := used_sub_owned hi' hmem
  refine hch.data_eq hxp (hb.owned_pos hown).2 (fun h => ?_) (hb.not_free al (.inr hown))
  obtain rfl := hb.used_disjoint hi' hi hmem (List.mem_append_right _ h)
  exact (List.nodup_append.1 (hb.used_nodup hi')).2.2 a ha a h rfl

theorem freeOf_not (hxp : xp.Ok n) (hb : BRep xp d extra) (hi : inum < xp.nInodes) :
    freeOf xp d' (!al) = freeOf xp d (!al) := by
  refine BmapAlloc.freeList_congr fun a ha => ?_
  have hnot := hxp.balloc_not_inBalloc (!al) ha
  rw [Bool.not_not] at hnot
  refine hch.meta_eq hxp hb hi ?_ hnot fun h => hxp.table_not_inBalloc (!al) h ha
  exact Nat.le_of_not_lt fun h => hxp.not_inBalloc (!al) h ha

theorem ialloc_eq (hxp : xp.Ok n) (hb : BRep xp d extra) (hi : inum < xp.nInodes) {a : Nat}
    (ha : xp.fsxpInodeAlloc.InBitmap a) : d' a = d a := by
  refine hch.meta_eq hxp hb hi ?_ (hxp.ialloc_not_inBalloc al ha) (hxp.ialloc_not_inTable ha)
  exact Nat.le_of_not_lt fun h => hxp.not_inIalloc h ha

/-- Blocks move between the inode, the allocator and the list of blocks in hand. -/
theorem brep (hxp : xp.Ok n) (hb : BRep xp d extra) (hi : inum < xp.nInodes) {extra' : List Nat}
    (hperm : (used xp d' inum ++ (extra' ++ freeOf xp d' al)).Perm (used xp d inum ++ (extra ++ freeOf xp d al)))
    (hrec : IrecRep d' (irec xp d' inum)) (hnew : ∀ a ∈ inds xp d' inum, a ∈ inds xp d inum ∨ d'.plain a) :
    BRep xp d' extra' := by
  have hother : ∀ i, i < xp.nInodes → i ≠ inum → blks xp d' i = blks xp d i ∧ inds xp d' i = inds xp d i :=
    fun i hi' hne => hch.used_other hxp hb hi hi' hne
  refine ⟨?_, fun i hi' => ?_, fun i hi' a ha => ?_⟩
  · have hused : ∀ i, i < xp.nInodes → i ≠ inum → used xp d' i = used xp d i := fun i hi' hne => by
      rw [used, used, (hother i hi' hne).1, (hother i hi' hne).2]
    obtain ⟨K, L, hown, hown'⟩ := owned_split hi hused
    have hfree := hch.freeOf_not hxp hb hi
    refine List.Perm.trans ?_ hb.own
    have hp := List.perm_iff_count.1 hperm
    rw [List.perm_iff_count]
    intro a
    have hpa := hp a
    rw [hown, hown']
    simp only [List.count_append] at hpa ⊢
    cases al with
    | true =>
      rw [show freeOf xp d' false = freeOf xp d false from hfree]
      omega
    | false =>
      rw [show freeOf xp d' true = freeOf xp d true from hfree]
      omega
  · by_cases hne : i = inum
    · rw [hne]
      exact hrec
    · rw [hch.other i hi' hne]
      refine (hb.irep i hi').congr fun a ha => ?_
      have hmem : a ∈ used xp d i := List.mem_append_right _ ha
      have hown := used_sub_owned hi' hmem
      exact hch.data_eq hxp (hb.owned_pos hown).2
        (fun h => hne (hb.used_disjoint hi' hi hmem (List.mem_append_right _ h))) (hb.not_free al (.inr hown))
  · by_cases hne : i = inum
    · subst hne
      exact (hnew a ha).elim (fun h => hch.mono a (hb.plain i hi a h)) id
    · rw [(hother i hi' hne).2] at ha
      exact hch.mono a (hb.plain i hi' a ha)

end FileChange

end Owned

end Fscq
