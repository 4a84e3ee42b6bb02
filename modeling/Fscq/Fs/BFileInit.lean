import Fscq.Fs.BFileResize

/-!
# Formatting the file layer

After `BFILE.init` all files are empty, the data blocks are split between the two allocators, and all inodes but inode 0
are free.
-/

namespace Fscq

open TxnLogic INODE BlockPtr
open BmapAlloc (freeList size)

/-! ## Empty inodes -/

theorem INODE.irec0_eq : (Rec.ofWord irectype 0 : Irec) = (0, iattr0, 0, 0, 0, List.replicate 7 0, ()) := by
  refine (Rec.wordToRec_zero _ _ _).trans (Prod.ext rfl ?_)
  refine (Rec.wordToRec_zero _ _ _).trans (Prod.ext rfl ?_)
  refine (Rec.wordToRec_zero _ _ _).trans (Prod.ext rfl ?_)
  refine (Rec.wordToRec_zero _ _ _).trans (Prod.ext rfl ?_)
  refine (Rec.wordToRec_zero _ _ _).trans (Prod.ext rfl ?_)
  refine (Rec.wordToRec_zero _ _ _).trans (Prod.ext ?_ rfl)
  exact Rec.wordToArray_zero _ 7

theorem RASig.item_zero (R : RASig) {start ix : Nat} {d : LDisk} (h : d (start + ix / R.itemsPerVal) = 0) :
    LogRecArray.item R start d ix = Rec.ofWord R.itemtype 0 := by
  rw [LogRecArray.item, h, R.getD_val2block _ (Nat.mod_lt _ R.itemsPerVal_pos)]
  congr 1
  exact BitVec.eq_of_getLsbD_eq fun i hi => by simp [RASig.val2word]

variable {xp : FsXparams} {n : Nat} {d d' : LDisk}

/-- The record of an empty file. -/
def irec0 : Irec := (0, iattr0, 0, 0, 0, List.replicate 7 0, ())

theorem irecRep_irec0 (d : LDisk) : IrecRep d irec0 := by
  refine ⟨⟨rfl, Nat.zero_le _, fun off _ => ?_⟩, fun _ => rfl, fun _ => rfl, fun _ => rfl⟩
  rw [slot_eq]
  have htrees : treesSlot d 0 0 0 (off - NDirect) = 0 := by simp only [treesSlot, walk_zero, ite_self]
  by_cases h : off < NDirect
  · rw [if_pos h]
    exact getD_zeros 7 off
  · rw [if_neg h]
    exact htrees

/-- All inodes have the empty record. -/
def TableEmpty (xp : FsXparams) (d : LDisk) : Prop := ∀ i, i < xp.nInodes → irec xp d i = irec0

namespace TableEmpty

variable (ht : TableEmpty xp d) {i : Nat} (hi : i < xp.nInodes)
include ht hi

theorem blks_eq : blks xp d i = [] := by
  rw [blks, ht i hi]
  rfl

theorem inds_eq : inds xp d i = [] := by
  rw [inds, ht i hi, indNodes]
  have h₀ : irIndPtr irec0 = 0 := rfl
  have h₁ : irDindPtr irec0 = 0 := rfl
  have h₂ : irTindPtr irec0 = 0 := rfl
  rw [h₀, h₁, h₂, nodes_zero, nodes_zero, nodes_zero]
  rfl

theorem file_eq : file xp d i = ⟨[], iattr0⟩ := by
  rw [file, ht.blks_eq hi, attrs, ht i hi]
  rfl

end TableEmpty

theorem TableEmpty.owned_eq (ht : TableEmpty xp d) : owned xp d = [] := by
  rw [owned, List.flatMap_eq_nil_iff]
  intro i hi
  rw [used, ht.blks_eq (List.mem_range.1 hi), ht.inds_eq (List.mem_range.1 hi)]
  rfl

namespace INODE

theorem init_spec (hxp : xp.Ok n) : twp n (init xp.fsxpInode) (fun _ d' => TableEmpty xp d' ∧
    ∀ a, ¬ xp.InTable a → d' a = d a) d := by
  have hin : xp.fsxpInode.ixStart + xp.fsxpInode.ixLen ≤ n := by
    have h₃ := hxp.ialloc
    have h₄ := hxp.balloc1
    have h₅ := hxp.balloc2
    have h₆ := hxp.disk
    omega
  refine twp_mono (fun _ d' hd => ⟨fun i hi => ?_, fun a ha => ?_⟩) _ (LogRecArray.init_spec hin hxp.table_ne_zero)
  · have hblock : d' (xp.fsxpInode.ixStart + i / 32) = 0 := by rw [hd]; exact if_pos (FsXparams.inTable_of_lt hi)
    exact (RASig.item_zero irecSig hblock).trans irec0_eq
  · rw [hd]
    exact if_neg ha

end INODE

/-! ## The two allocators -/

namespace BFILE

/-- The free blocks are all blocks but 0. -/
structure AllFree (xp : FsXparams) (d : LDisk) : Prop where
  own : (freeOf xp d true ++ freeOf xp d false).Perm (List.range' 1 (xp.dataSize - 1))

theorem shuffleStep_spec (hxp : xp.Ok n) {i : Nat} {cms : BmapCacheType × BmapCacheType} (hf : AllFree xp d)
    (hi : i ∈ freeOf xp d true)
    (hc₂ : BmapAllocCache.CacheRep (xp.balloc false) d cms.2) :
    twp n (do
      let fcms ← BmapAllocCache.steal xp.fsxpBlockAlloc1 i cms.1
      let scms ← BmapAllocCache.free xp.fsxpBlockAlloc2 i cms.2
      pure (fcms, scms)) (fun cms' d' => AllFree xp d' ∧ (freeOf xp d true).Perm (i :: freeOf xp d' true) ∧
        (∀ al, BmapAllocCache.CacheRep (xp.balloc al) d' (pickBalloc cms' al)) ∧
        ∀ a, ¬ (xp.balloc true).InBitmap a → ¬ (xp.balloc false).InBitmap a → d' a = d a) d := by
  obtain ⟨hlt, h0, _⟩ := BmapAlloc.mem_freeList.1 hi
  refine twp_bind _ (twp_bind _ (BmapAlloc.steal_spec (hxp.dataOk true).toOk hlt ?_))
  have hsteal : (freeOf xp d true).Perm (i :: freeOf xp (BmapAlloc.putBit (xp.balloc true) d i BmapAlloc.inuse) true) :=
    BmapAlloc.freeList_steal hi
  have hframe₁ : ∀ a, ¬ (xp.balloc true).InBitmap a → BmapAlloc.putBit (xp.balloc true) d i BmapAlloc.inuse a = d a :=
    fun a ha => BmapAlloc.putBit_frame hlt _ ha
  change twp n _ _ (BmapAlloc.putBit (xp.balloc true) d i BmapAlloc.inuse)
  generalize BmapAlloc.putBit (xp.balloc true) d i BmapAlloc.inuse = d₁ at hsteal hframe₁ ⊢
  have hfree₁ : freeOf xp d₁ false = freeOf xp d false := BmapAlloc.freeList_congr fun a ha =>
    hframe₁ a (hxp.balloc_not_inBalloc false ha)
  have hnot : i ∉ freeOf xp d₁ false := fun h => by
    rw [hfree₁] at h
    exact (List.nodup_append.1 (hf.own.nodup_iff.2 (List.nodup_range'))).2.2 i hi i h rfl
  have hsize : size (xp.balloc true) = size (xp.balloc false) := by rw [hxp.size_balloc, hxp.size_balloc]
  have hlt' : i < size (xp.balloc false) := hsize ▸ hlt
  have hfreeing := BmapAllocCache.free_spec (hxp.dataOk false).toOk (cacheRep_of_freeOf hc₂ hfree₁) hnot hlt' h0
  refine twp_seq hfreeing fun c' d₂ ⟨hperm, hc', hframe₂⟩ => ?_
  have hfree₂ : freeOf xp d₂ true = freeOf xp d₁ true := BmapAlloc.freeList_congr fun a ha =>
    hframe₂ a (hxp.balloc_not_inBalloc true ha)
  refine ⟨⟨?_⟩, by rw [hfree₂]; exact hsteal, fun al => ?_, fun a h₁ h₂ => (hframe₂ a h₂).trans (hframe₁ a h₁)⟩
  · refine List.Perm.trans ?_ hf.own
    have h₁ := List.perm_iff_count.1 hsteal
    have h₂ := List.perm_iff_count.1 hperm
    rw [List.perm_iff_count]
    intro a
    have ha₁ := h₁ a
    have ha₂ : (freeOf xp d₂ false).count a = (i :: freeOf xp d₁ false).count a := h₂ a
    rw [hfree₂]
    rw [hfree₁] at ha₂
    simp only [List.count_append, List.count_cons] at ha₁ ha₂ ⊢
    omega
  · cases al with
    | true => exact BmapAllocCache.cacheRep_freelist0 _ _
    | false => exact hc'

theorem shuffleAllocs_spec (hxp : xp.Ok n) (cms : BmapCacheType × BmapCacheType) (hf : AllFree xp d)
    (hall : ∀ bn, 1 ≤ bn → bn < xp.dataSize → bn ∈ freeOf xp d true)
    (hc : ∀ al, BmapAllocCache.CacheRep (xp.balloc al) d (pickBalloc cms al)) :
    twp n (shuffleAllocs xp cms) (fun cms' d' => AllFree xp d' ∧
      (∀ bn, xp.dataSize / 2 ≤ bn → bn < xp.dataSize → bn ∈ freeOf xp d' true) ∧
      (∀ al, BmapAllocCache.CacheRep (xp.balloc al) d' (pickBalloc cms' al)) ∧
      ∀ a, ¬ (xp.balloc true).InBitmap a → ¬ (xp.balloc false).InBitmap a → d' a = d a) d := by
  refine twp_mono (fun cms' d' ⟨hf', hall', hc', hframe⟩ => ⟨hf', fun bn h₁ h₂ => hall' bn ?_ h₂, hc', hframe⟩) _
    (twp_forN (I := fun i cms' d' => AllFree xp d' ∧ (∀ bn, i ≤ bn → bn < xp.dataSize → bn ∈ freeOf xp d' true) ∧
      (∀ al, BmapAllocCache.CacheRep (xp.balloc al) d' (pickBalloc cms' al)) ∧
      ∀ a, ¬ (xp.balloc true).InBitmap a → ¬ (xp.balloc false).InBitmap a → d' a = d a)
      (size xp.fsxpBlockAlloc1 / 2 - 1) 1 ?_ ⟨hf, hall, hc, fun _ _ _ => rfl⟩)
  swap
  · have hsize : size xp.fsxpBlockAlloc1 = xp.dataSize := rfl
    have hpos := hxp.dataSize_pos
    omega
  rintro i cms' d₁ hi₁ hi₂ ⟨hf₁, hall₁, hc₁, hframe₁⟩
  have hlt : i < xp.dataSize := by
    have hsize : size xp.fsxpBlockAlloc1 = xp.dataSize := rfl
    omega
  refine twp_mono (fun cms'' d₂ ⟨hf₂, hperm, hc₂, hframe₂⟩ => ⟨hf₂, fun bn hbn hbnlt => ?_, hc₂, fun a h₁ h₂ =>
    (hframe₂ a h₁ h₂).trans (hframe₁ a h₁ h₂)⟩) _ (shuffleStep_spec hxp hf₁ (hall₁ i (Nat.le_refl _) hlt) (hc₁ false))
  rcases List.mem_cons.1 (hperm.mem_iff.1 (hall₁ bn (by omega) hbnlt)) with h | h
  · omega
  · exact h

/-- What formatting leaves. -/
structure InitDone (xp : FsXparams) (ms : Memstate) (d : LDisk) : Prop where
  brep : BRep xp d []
  table : TableEmpty xp d
  ialloc : ∀ i, i ∈ freeList xp.fsxpInodeAlloc d ↔ i < xp.nInodes ∧ i ≠ 0
  free : ∀ bn, xp.dataSize / 2 ≤ bn → bn < xp.dataSize → bn ∈ freeOf xp d true
  msrep : MsRep xp d ms
  alloc_eq : ms.msAlloc = true
  iallocC_eq : ms.msIAllocC = BmapAllocCache.freelist0
  cache_eq : ms.msCache = ∅
  dblocks_eq : ms.msDBlocks = ∅

theorem init_spec (hxp : xp.Ok n) : twp n (init xp) (InitDone xp) d := by
  -- the bitmaps and the table are written one after the other, each beside the others
  refine twp_seq (BmapAllocCache.initNofree_spec (hxp.dataOk false).toOk) fun c₂ d₁ ⟨hc₂, hno, hframe₁⟩ => ?_
  refine twp_seq (BmapAllocCache.init_spec (hxp.dataOk true).toOk) fun c₁ d₂ ⟨hc₁, hall, hframe₂⟩ => ?_
  refine twp_seq (BmapAllocCache.init_spec hxp.iallocOk) fun c₃ d₃ ⟨hc₃, hiall, hframe₃⟩ => ?_
  refine twp_seq (INODE.init_spec hxp) fun _ d₄ ⟨htable, hframe₄⟩ => ?_
  have hkeep : ∀ al a, (xp.balloc al).InBitmap a → d₄ a = d₂ a := fun al a ha => by
    rw [hframe₄ a fun h => hxp.table_not_inBalloc al h ha, hframe₃ a fun h => hxp.ialloc_not_inBalloc al h ha]
  have hfree₁ : ∀ bn, bn ∈ freeOf xp d₄ true ↔ bn < xp.dataSize ∧ bn ≠ 0 := fun bn => by
    have he : freeOf xp d₄ true = freeOf xp d₂ true := BmapAlloc.freeList_congr (hkeep true)
    rw [he]
    exact hall bn
  have hfree₂ : freeOf xp d₄ false = [] := by
    have he : freeOf xp d₄ false = freeOf xp d₁ false := BmapAlloc.freeList_congr fun a ha => by
      rw [hkeep false a ha, hframe₂ a (hxp.balloc_not_inBalloc false ha)]
    rw [he]
    exact hno
  have hf₄ : AllFree xp d₄ := by
    refine ⟨?_⟩
    have hnd : (freeOf xp d₄ true).Nodup := BmapAlloc.nodup_freeList _ _
    rw [hfree₂, List.append_nil, List.perm_ext_iff_of_nodup hnd List.nodup_range']
    intro bn
    have hpos := hxp.dataSize_pos
    rw [hfree₁, List.mem_range'_1]
    omega
  refine twp_seq (shuffleAllocs_spec hxp (c₁, c₂) hf₄ (fun bn h₁ h₂ => (hfree₁ bn).2 ⟨h₂, by omega⟩) fun al => ?_)
    fun cms d₅ ⟨hf₅, hfirst, hc₅, hframe₅⟩ => ?_
  · cases al with
    | true => rw [hc₁]; exact BmapAllocCache.cacheRep_freelist0 _ _
    | false => rw [hc₂]; exact BmapAllocCache.cacheRep_freelist0 _ _
  have htable₅ : TableEmpty xp d₅ := fun i hi => by
    rw [irec_congr (fun a ha => hframe₅ a (hxp.table_not_inBalloc _ ha) (hxp.table_not_inBalloc _ ha)) hi]
    exact htable i hi
  refine ⟨⟨?_, fun i hi => ?_, fun i hi a ha => ?_⟩, htable₅, fun i => ?_, hfirst, ?_, rfl, hc₃, rfl, rfl⟩
  · rw [htable₅.owned_eq, List.nil_append, List.append_nil]
    exact hf₅.own
  · rw [htable₅ i hi]
    exact irecRep_irec0 d₅
  · rw [htable₅.inds_eq hi] at ha
    exact absurd ha List.not_mem_nil
  · have he : freeList xp.fsxpInodeAlloc d₅ = freeList xp.fsxpInodeAlloc d₃ := BmapAlloc.freeList_congr fun a ha => by
      rw [hframe₅ a (hxp.ialloc_not_inBalloc _ ha) (hxp.ialloc_not_inBalloc _ ha), hframe₄ a (hxp.ialloc_not_inTable ha)]
    rw [he, hiall, hxp.inodes]
  · refine ⟨hc₅, ?_, LogRecArrayCache.cacheRep_cache0 _ _ _, fun i bn h => ?_, fun i hi bn hbn => ?_⟩
    · rw [hc₃]
      exact BmapAllocCache.cacheRep_freelist0 _ _
    · rw [getDirty_empty] at h
      exact absurd h Std.ExtTreeSet.not_mem_empty
    · rw [htable₅.blks_eq hi] at hbn
      exact absurd hbn List.not_mem_nil

/-! ### A small file system -/

/-- One bitmap for the data blocks, with as many inodes. -/
def smallXp : FsXparams :=
  ⟨⟨1, 33796, 33797, 1, 33798, 512⟩, ⟨32768, 1024⟩, ⟨33793, 1⟩, ⟨33794, 1⟩, ⟨33792, 1⟩, 1, 34310, 0⟩

theorem smallXp_ok : smallXp.Ok 33795 :=
  ⟨rfl, by decide, by decide, by decide, by decide, by decide, by decide, by decide, by decide⟩

/-- What formatting makes of a disk of zeros. -/
def formatted : Memstate × LDisk := (init smallXp).run ⟨fun _ => 0, fun _ => True⟩

theorem formatted_done : InitDone smallXp formatted.1 formatted.2 := twp_run (init_spec smallXp_ok)

end BFILE

end Fscq
