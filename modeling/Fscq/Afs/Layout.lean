import Fscq.Afs.Mkfs
import Fscq.Fs.BallocRun

/-!
# The layout of the disk

The regions of `computeXparams` lie one after the other from the superblock to the end of the log (`regions_contiguous`), so
that each block is in exactly one of them. The allocators hand out numbers inside their regions, and `mkfs` gets the inode
that it expects: it fails only when the log cannot take its transaction (`layout_disjoint_complete`).
-/

namespace Fscq

open TxnLogic CrashLogic

/-! ## Regions in a row -/

structure Region where
  start : Nat
  len : Nat

namespace Region

def stop (r : Region) : Nat := r.start + r.len

instance : Membership Nat Region := ⟨fun r a => r.start ≤ a ∧ a < r.stop⟩

theorem mem_iff {r : Region} {a : Nat} : a ∈ r ↔ r.start ≤ a ∧ a < r.stop := Iff.rfl

def Disjoint (r r' : Region) : Prop := ∀ a, ¬ (a ∈ r ∧ a ∈ r')

/-- Each region starts where the one before it stops; the row is from `a` to `b`. -/
def Contiguous : Nat → List Region → Nat → Prop
  | a, [], b => a = b
  | a, r :: rs, b => r.start = a ∧ Contiguous r.stop rs b

variable {a b : Nat} {rs : List Region}

theorem Contiguous.le : ∀ {a : Nat} {rs : List Region}, Contiguous a rs b → a ≤ b
  | _, [], h => Nat.le_of_eq h
  | a, r :: rs, ⟨hr, h⟩ => by
    have hle := Contiguous.le h
    rw [stop] at hle
    omega

theorem Contiguous.mem_iff : ∀ {a : Nat} {rs : List Region}, Contiguous a rs b → ∀ x, (∃ r ∈ rs, x ∈ r) ↔ a ≤ x ∧ x < b
  | a, [], h, x => by
    have hab : a = b := h
    simp only [List.not_mem_nil, false_and, exists_false, false_iff]
    omega
  | a, r :: rs, ⟨hr, h⟩, x => by
    have ih := Contiguous.mem_iff h x
    have hle := Contiguous.le h
    have hstop : r.stop = r.start + r.len := rfl
    rw [List.exists_mem_cons_iff, ih, Region.mem_iff]
    omega

theorem Contiguous.pairwise : ∀ {a : Nat} {rs : List Region}, Contiguous a rs b → rs.Pairwise Disjoint
  | _, [], _ => .nil
  | a, r :: rs, ⟨_, h⟩ => .cons (fun r' hr' x ⟨hx, hx'⟩ => by
      have hlt := hx.2
      have hle := ((Contiguous.mem_iff h x).1 ⟨r', hr', hx'⟩).1
      omega) (Contiguous.pairwise h)

end Region

/-! ## The regions of a file system -/

namespace FsXparams

variable (xp : FsXparams)

/-- A region of the data area of the log. -/
def shifted (start len : Nat) : Region := ⟨xp.fsxpLog.dataStart + start, len⟩

def dataRegion : Region := xp.shifted 0 xp.dataSize

def inodeTable : Region := xp.shifted xp.fsxpInode.ixStart xp.fsxpInode.ixLen

def bitmap (bxp : BallocXparams) : Region := xp.shifted bxp.bmapStart bxp.bmapNBlocks

/-- From the superblock to the data of the log. -/
def regions : List Region :=
  [⟨0, 1⟩, xp.dataRegion, xp.inodeTable, xp.bitmap xp.fsxpInodeAlloc, xp.bitmap xp.fsxpBlockAlloc1, xp.bitmap xp.fsxpBlockAlloc2,
    ⟨xp.fsxpLog.logHeader, 1⟩, ⟨xp.fsxpLog.logDescriptor, xp.fsxpLog.logDescLen⟩, ⟨xp.fsxpLog.logData, xp.fsxpLog.logLen⟩]

end FsXparams

namespace AFS

theorem regions_contiguous (dataBitmaps inodeBitmaps logDescrBlocks magic : Nat) :
    Region.Contiguous 0 (computeXparams dataBitmaps inodeBitmaps logDescrBlocks magic).regions
      (computeXparams dataBitmaps inodeBitmaps logDescrBlocks magic).fsxpMaxBlock := by
  simp only [FsXparams.regions, FsXparams.dataRegion, FsXparams.inodeTable, FsXparams.bitmap, FsXparams.shifted,
    FsXparams.dataSize, BmapAlloc.size, computeXparams, Region.Contiguous, Region.stop, Nat.add_assoc,
    Nat.zero_add, and_self]

variable {xp : FsXparams} {n : Nat}

theorem alloc_mem_region (hxp : xp.Ok n) (al : Bool) {s : BmapAllocCache.RunState} (hs : BmapAllocCache.Reach (xp.balloc al) s)
    {bn : Nat} (hbn : ((BmapAllocCache.alloc (xp.balloc al) s.cache).run s.disk).1.2 = some bn) :
    xp.fsxpLog.dataStart + bn ∈ xp.dataRegion := by
  have hlt := (((BmapAllocCache.InStep.reach (hxp.dataOk al).toOk hs).allocates (hxp.dataOk al).toOk).free bn hbn).1
  rw [hxp.size_balloc al] at hlt
  exact ⟨Nat.add_le_add_left (Nat.zero_le _) _, by rw [Region.stop]; exact Nat.add_lt_add_left hlt _⟩

theorem ialloc_mem_table (hxp : xp.Ok n) {s : BmapAllocCache.RunState} (hs : BmapAllocCache.Reach xp.fsxpInodeAlloc s)
    {inum : Nat} (hi : ((BmapAllocCache.alloc xp.fsxpInodeAlloc s.cache).run s.disk).1.2 = some inum) :
    inum < xp.nInodes ∧ xp.fsxpLog.dataStart + (xp.fsxpInode.ixStart + inum / INODE.irecSig.itemsPerVal) ∈ xp.inodeTable := by
  have hlt := (((BmapAllocCache.InStep.reach hxp.iallocOk hs).allocates hxp.iallocOk).free inum hi).1
  rw [← hxp.inodes] at hlt
  have hin := FsXparams.inTable_of_lt hlt
  refine ⟨hlt, Nat.add_le_add_left hin.1 _, ?_⟩
  show _ < xp.fsxpLog.dataStart + xp.fsxpInode.ixStart + xp.fsxpInode.ixLen
  rw [Nat.add_assoc]
  exact Nat.add_lt_add_left hin.2 _

end AFS

open AFS in
theorem layout_disjoint_complete {dataBitmaps inodeBitmaps logDescrBlocks : Nat} (hd : dataBitmaps ≠ 0) (hi : inodeBitmaps ≠ 0)
    (hsize : rawSize dataBitmaps inodeBitmaps logDescrBlocks < 2 ^ 64) {xp : FsXparams}
    (hxp : xp = computeXparams dataBitmaps inodeBitmaps logDescrBlocks SB.magicNumber) :
    Region.Contiguous 0 xp.regions xp.fsxpMaxBlock ∧ xp.fsxpMaxBlock = rawSize dataBitmaps inodeBitmaps logDescrBlocks ∧
    xp.regions.Pairwise Region.Disjoint ∧
    (∀ al s, BmapAllocCache.Reach (xp.balloc al) s → ∀ bn,
      ((BmapAllocCache.alloc (xp.balloc al) s.cache).run s.disk).1.2 = some bn → xp.fsxpLog.dataStart + bn ∈ xp.dataRegion) ∧
    (∀ s, BmapAllocCache.Reach xp.fsxpInodeAlloc s → ∀ inum,
      ((IAlloc.alloc xp s.cache).run s.disk).1.2 = some inum →
        inum < xp.nInodes ∧ xp.fsxpLog.dataStart + (xp.fsxpInode.ixStart + inum / INODE.irecSig.itemsPerVal) ∈ xp.inodeTable) ∧
    (∀ d, twp (diskSize dataBitmaps inodeBitmaps) (mkfsBody xp) (fun r _ => ∃ fms, r = .ok fms) d) ∧
    ∀ (h : HashKey → HashVal) s fl cachesize, cachesize ≠ 0 →
      (∀ a < rawSize dataBitmaps inodeBitmaps logDescrBlocks, s.disk a ≠ none) →
      wp h (mkfs fl cachesize dataBitmaps inodeBitmaps logDescrBlocks) (fun r _ => ∀ e, r = .error e →
        e = .ELOGOVERFLOW ∧ xp.fsxpLog.logLen < diskSize dataBitmaps inodeBitmaps) (fun _ => True) s := by
  have hok : xp.Ok (diskSize dataBitmaps inodeBitmaps) := hxp ▸ computeXparams_ok logDescrBlocks SB.magicNumber hd (diskSize_lt hsize)
  have hrow : Region.Contiguous 0 xp.regions xp.fsxpMaxBlock := hxp ▸ regions_contiguous ..
  refine ⟨hrow, ?_, hrow.pairwise, fun al s hs bn => alloc_mem_region hok al hs, fun s hs inum => ialloc_mem_table hok hs,
    fun d => ?_, fun h s fl cachesize hn hdisk => ?_⟩
  · subst hxp
    simp only [computeXparams, rawSize, diskSize]
    omega
  · refine twp_mono ?_ _ (mkfsBody_spec hok (by rw [hxp]; rfl) ?_)
    · rintro _ _ ⟨fms, hr, _⟩
      exact ⟨fms, hr⟩
    · rw [hok.inodes, hxp]
      simp only [computeXparams, BmapAlloc.size, valulen]
      omega
  · subst hxp
    exact wp_mono (fun _ _ hr => hr.1) (fun _ hc => hc) _ (mkfs_spec hn hd hi hsize fl hdisk)

open AFS in
theorem layout_disjoint_complete_small : smallFs.regions.Pairwise Region.Disjoint ∧
    (∀ d, twp (diskSize 1 1) (mkfsBody smallFs) (fun r _ => ∃ fms, r = .ok fms) d) :=
  have h := @layout_disjoint_complete 1 1 256 (by decide) (by decide) (by decide) smallFs rfl
  ⟨h.2.2.1, h.2.2.2.2.2.1⟩

end Fscq
