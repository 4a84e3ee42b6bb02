import Fscq.Dir.TreeSpec

/-!
# Formatting

`computeXparams` lays out the disk and `mkfsBody` is the transaction of `mkfs`: everything is free, and the first inode is
the root directory, which is empty.
-/

namespace Fscq

open TxnLogic BFILE
open BmapAlloc (freeList size)
open INODE (irecSig)
open Dirtree (Rep view)

namespace SB

def magicNumber : Nat := 3932

end SB

namespace AFS

/-- Block 0 stores the superblock. The other block numbers, except for the log, are relative to the data area of the log,
which starts at 1: data blocks, inodes, inode bitmap, the two data bitmaps; then the log. -/
def computeXparams (dataBitmaps inodeBitmaps logDescrBlocks magic : Nat) : FsXparams :=
  let dataBlocks := dataBitmaps * valulen
  let inodeBlocks := inodeBitmaps * valulen / irecSig.itemsPerVal
  let inodeBase := dataBlocks
  let ballocBase1 := inodeBase + inodeBlocks + inodeBitmaps
  let ballocBase2 := ballocBase1 + dataBitmaps
  let logHdr := 1 + ballocBase2 + dataBitmaps
  let logDescr := logHdr + 1
  let logData := logDescr + logDescrBlocks
  let logDataSize := logDescrBlocks * PaddedLog.DescSig.itemsPerVal
  let maxAddr := logData + logDataSize
  ⟨⟨1, logHdr, logDescr, logDescrBlocks, logData, logDataSize⟩, ⟨inodeBase, inodeBlocks⟩, ⟨ballocBase1, dataBitmaps⟩,
    ⟨ballocBase2, dataBitmaps⟩, ⟨inodeBase + inodeBlocks, inodeBitmaps⟩, 1, maxAddr, magic⟩

/-- The transaction of `mkfs`. -/
def mkfsBody (xp : FsXparams) : TBody (Except Errno Memstate) := do
  let ms ← BFILE.init xp
  let (ialc, r) ← IAlloc.alloc xp ms.msIAllocC
  match r with
  | none => pure (.error .ENOSPCINODE)
  | some inum =>
    if inum = xp.fsxpRootInum then pure (.ok { ms with msIAllocC := ialc })
    else pure (.error .ELOGOVERFLOW)

/-! ## The layout -/

/-- The size of the logical disk: everything between the superblock and the log. -/
def diskSize (dataBitmaps inodeBitmaps : Nat) : Nat :=
  dataBitmaps * valulen + inodeBitmaps * valulen / irecSig.itemsPerVal + inodeBitmaps + dataBitmaps + dataBitmaps

theorem computeXparams_ok {dataBitmaps inodeBitmaps : Nat} (logDescrBlocks magic : Nat) (hd : dataBitmaps ≠ 0)
    (hsize : diskSize dataBitmaps inodeBitmaps < 2 ^ 64) :
    (computeXparams dataBitmaps inodeBitmaps logDescrBlocks magic).Ok (diskSize dataBitmaps inodeBitmaps) := by
  refine ⟨rfl, Nat.pos_of_ne_zero hd, Nat.le_refl _, Nat.le_refl _, Nat.le_refl _, Nat.le_refl _, Nat.le_refl _, ?_, hsize⟩
  simp only [FsXparams.nInodes, computeXparams, size, valulen]
  omega

theorem nInodes_computeXparams {dataBitmaps inodeBitmaps : Nat} (logDescrBlocks magic : Nat)
    (hi : inodeBitmaps ≤ valulen * valulen) :
    (computeXparams dataBitmaps inodeBitmaps logDescrBlocks magic).nInodes ≤ 2 ^ 64 := by
  simp only [FsXparams.nInodes, computeXparams]
  simp only [valulen] at *
  omega

/-! ## The empty tree -/

variable {xp : FsXparams} {n : Nat} {d : LDisk} {ms : Memstate}

theorem nodeRep_init (h : InitDone xp ms d) : NodeRep xp d ms (fun _ => none) where
  brep := h.brep
  msrep := h.msrep
  valid _ _ hc := nomatch hc
  node _ _ hc := nomatch hc
  free i h0 hlt := by
    rw [h.ialloc]
    exact ⟨fun _ => rfl, fun _ => ⟨hlt, h0⟩⟩
  empty i hlt _ := by
    rw [file, h.table.blks_eq hlt, INODE.attrs, h.table i hlt]
    rfl
  dcache i dc hint hget := by
    rw [h.cache_eq] at hget
    cases hget
  cached i hne := by
    rw [h.cache_eq] at hne
    exact absurd rfl hne

/-- The first free number, when all are free. -/
theorem head_freeList {bxp : BallocXparams} (hpos : 1 < size bxp) (h : ∀ i, i ∈ freeList bxp d ↔ i < size bxp ∧ i ≠ 0) :
    (freeList bxp d).head? = some 1 := by
  obtain ⟨k, hk⟩ : ∃ k, size bxp = k + 2 := ⟨size bxp - 2, by omega⟩
  have hbit := (BmapAlloc.mem_freeList.mp ((h 1).mpr ⟨hpos, by decide⟩)).2.2
  rw [BmapAlloc.freeList, hk, List.range_eq_range', List.range'_succ, List.range'_succ, List.filter_cons_of_neg (by simp),
    List.filter_cons_of_pos (by simpa using hbit)]
  rfl

/-- Without a cached list, the first free number is taken. -/
theorem alloc_first {bxp : BallocXparams} (hx : bxp.Ok n) : twp n (BmapAllocCache.alloc bxp BmapAllocCache.freelist0)
    (fun r _ => r.2 = (freeList bxp d).head?) d := by
  have hget : twp n (BmapAllocCache.getFreeBlocks bxp BmapAllocCache.freelist0)
      (fun r d' => d' = d ∧ r.2 = freeList bxp d) d := twp_bind _ (BmapAlloc.getFreeBlocks_spec hx ⟨rfl, rfl⟩)
  refine twp_seq hget fun ⟨c, fl⟩ d₁ ⟨hd, hfl⟩ => ?_
  subst hd
  obtain rfl : fl = freeList bxp d₁ := hfl
  simp only
  cases hl : freeList bxp d₁ with
  | nil => exact rfl
  | cons bn l =>
    have hlt := (BmapAlloc.mem_freeList.mp (hl ▸ List.mem_cons_self : bn ∈ freeList bxp d₁)).1
    exact twp_bind _ (BmapAlloc.steal_spec hx hlt rfl)

/-- After `mkfs` the tree is the empty root directory, and one half of the blocks is free in the selected allocator. -/
structure MkfsDone (xp : FsXparams) (ms : Memstate) (d : LDisk) : Prop where
  tree : TreeRep xp d ms (.dir 1 [])
  alloc_eq : ms.msAlloc = true
  root : file xp d 1 = dirfile0
  free : ∀ bn, xp.dataSize / 2 ≤ bn → bn < xp.dataSize → bn ∈ freeOf xp d true

theorem mkfsBody_spec (hxp : xp.Ok n) (hroot : xp.fsxpRootInum = 1) (hino : 1 < xp.nInodes) :
    twp n (mkfsBody xp) (fun r d' => ∃ ms, r = .ok ms ∧ MkfsDone xp ms d') d := by
  refine twp_seq (BFILE.init_spec hxp) fun ms d₁ hinit => ?_
  have hfirst : twp n (IAlloc.alloc xp ms.msIAllocC) (fun r _ => r.2 = some 1) d₁ := by
    have hhead : (freeList xp.fsxpInodeAlloc d₁).head? = some 1 := by
      refine head_freeList (by rwa [← hxp.inodes]) fun i => ?_
      rw [hinit.ialloc, hxp.inodes]
    rw [hinit.iallocC_eq, ← hhead]
    exact alloc_first hxp.iallocOk
  refine twp_seq (twp_and (NodeRep.ialloc_spec hxp (nodeRep_init hinit)) hfirst) fun ⟨ialc, r⟩ d₂ ⟨halloc, hr⟩ => ?_
  obtain rfl : r = some 1 := hr
  obtain ⟨_, _, _, hio, hdone⟩ := halloc 1 rfl
  have hd := hdone (.dir []) (.inr rfl)
  simp only [if_pos hroot.symm]
  refine ⟨_, rfl, ⟨⟨_, hd.rep, Rep.single (s := .dir 1 []) (fun _ => rfl) rfl⟩, hroot.symm⟩, hinit.alloc_eq, ?_,
    fun bn h₁ h₂ => ?_⟩
  · exact (hdone (.file dirfile0) (.inl rfl)).rep.node 1 _ (Function.update_self _ _ _)
  · rw [hio.freeOf_eq hxp]
    exact hinit.free bn h₁ h₂

end AFS

end Fscq
