import Fscq.Fs.BFileSpec

/-!
# Growing, shrinking and truncating files

A block that is taken from the allocator is in hand (`InHand`) until it is the last block of the file. When a file does not
grow, no file has changed, and what was taken for it is in no place (`GrowFail`); the caller aborts the transaction.
Shrinking frees the blocks behind the new length and the nodes that are not needed for the others (`ShrinkDone`).
-/

namespace Fscq

open TxnLogic INODE

/-! ## Blocks in hand -/

section InHand

variable {xp : FsXparams} {n : Nat} {al : Bool} {inum bn : Nat} {d d' : LDisk} {extra : List Nat}

/-- The block `bn` is taken from the allocator. -/
structure InHand (xp : FsXparams) (al : Bool) (bn : Nat) (d d' : LDisk) : Prop extends BitmapOnly xp al d d' where
  own : (freeOf xp d al).Perm (bn :: freeOf xp d' al)

namespace BitmapOnly

variable (hbm : BitmapOnly xp al d d') (hxp : xp.Ok n) (hb : BRep xp d extra)
include hbm hxp hb

theorem file_eq {i : Nat} (hi : i < xp.nInodes) : file xp d' i = file xp d i :=
  Fscq.file_eq (hbm.irec_eq hxp hi) (hbm.used_eq hxp hb hi).1 fun _ ha =>
    hbm.data_eq hxp (hb.owned_pos (used_sub_owned hi (List.mem_append_left _ ha))).2

/-- Blocks move between the allocator and the list of blocks in hand. -/
theorem brep {extra' : List Nat} (hi : inum < xp.nInodes)
    (hperm : (extra' ++ freeOf xp d' al).Perm (extra ++ freeOf xp d al)) : BRep xp d' extra' := by
  obtain ⟨hblks, hinds⟩ := hbm.used_eq hxp hb hi
  refine (hbm.fileChange hxp inum).brep hxp hb hi ?_ (hbm.irep hxp hb hi) fun a ha => .inl (hinds ▸ ha)
  rw [used, used, hblks, hinds]
  exact hperm.append_left _

end BitmapOnly

namespace InHand

variable (h : InHand xp al bn d d')
include h

theorem mem : bn ∈ freeOf xp d al := h.own.mem_iff.2 List.mem_cons_self

theorem free {a : Nat} (ha : a ∈ freeOf xp d' al) : a ∈ freeOf xp d al := h.own.mem_iff.2 (List.mem_cons_of_mem _ ha)

theorem brep (hxp : xp.Ok n) (hb : BRep xp d extra) (hi : inum < xp.nInodes) : BRep xp d' (bn :: extra) := by
  refine h.toBitmapOnly.brep hxp hb hi ?_
  have hown := List.perm_iff_count.1 h.own
  rw [List.perm_iff_count]
  intro a
  have := hown a
  simp only [List.count_append, List.count_cons] at this ⊢
  omega

end InHand

end InHand

namespace BFILE

variable {xp : FsXparams} {n : Nat} {d d₁ d' : LDisk} {inum : Nat} {ms : Memstate} {extra : List Nat}

/-! ## Growing -/

section Grow

variable {bn : Nat} {al : Bool}

/-- A block in hand becomes the next block of the file. -/
theorem growStep_done (hxp : xp.Ok n) (hb : BRep xp d (bn :: extra)) (hi : inum < xp.nInodes)
    (hg : GrowStep xp al inum bn d d') :
    BRep xp d' extra ∧ file xp d' inum = ⟨(file xp d inum).data ++ [d' bn], (file xp d inum).attr⟩ := by
  have hch := hg.toFileChange
  refine ⟨hch.brep hxp hb hi ?_ hg.irep hg.new, ?_⟩
  · have hown := List.perm_iff_count.1 hg.own
    rw [used, used, hg.blks_eq, List.perm_iff_count]
    intro a
    have := hown a
    simp only [List.count_append, List.count_cons, List.count_nil] at this ⊢
    omega
  · rw [file, hg.blks_eq, hg.attrs_eq, List.map_append, List.map_singleton,
      List.map_congr_left fun a ha => hch.blks_data hxp hb hi hi ha]
    rfl

/-- Taking a block and appending it to the file. -/
structure Appended (xp : FsXparams) (al : Bool) (inum bn : Nat) (d d' : LDisk) : Prop
    extends FileStep xp al inum ⟨(file xp d inum).data ++ [d' bn], (file xp d inum).attr⟩ d d' where
  blks_eq : blks xp d' inum = blks xp d inum ++ [bn]
  lt : bn < xp.dataSize
  nonzero : bn ≠ 0
  freeNot : freeOf xp d' (!al) = freeOf xp d (!al)
  mono : ∀ a, d.plain a → d'.plain a

theorem InHand.appended (h : InHand xp al bn d d₁) (hg : GrowStep xp al inum bn d₁ d') (hxp : xp.Ok n) (hb : BRep xp d extra)
    (hi : inum < xp.nInodes) : Appended xp al inum bn d d' := by
  have hbm := h.toBitmapOnly
  have hch₁ := hbm.fileChange hxp inum
  have hch₂ := hg.toFileChange
  have hb₁ := h.brep hxp hb hi
  have hused : ∀ i, i < xp.nInodes → blks xp d₁ i = blks xp d i ∧ inds xp d₁ i = inds xp d i := fun i hi' =>
    hbm.used_eq hxp hb hi'
  have hblks : blks xp d' inum = blks xp d inum ++ [bn] := by rw [hg.blks_eq, (hused inum hi).1]
  have hother : ∀ i, i < xp.nInodes → i ≠ inum → blks xp d' i = blks xp d i := fun i hi' hne => by
    rw [(hch₂.used_other hxp hb₁ hi hi' hne).1, (hused i hi').1]
  have hsafe : Safe xp al d d' := by
    refine ⟨fun a ha => h.free (hg.free a ha), fun i hi' off b hbn => ?_, fun i hi' b hbn => ?_⟩
    · by_cases hne : i = inum
      · subst hne
        rw [hblks, List.getElem?_append] at hbn
        split at hbn
        · exact .inl hbn
        · obtain ⟨_, hb'⟩ := List.getElem?_eq_some_iff.1 hbn
          rw [List.getElem_singleton] at hb'
          exact .inr (hb' ▸ h.mem)
      · rw [hother i hi' hne] at hbn
        exact .inl hbn
    · by_cases hne : i = inum
      · subst hne
        rcases List.mem_append.1 (hg.own.mem_iff.1 (List.mem_append_left _ hbn)) with hin | hin
        · rw [(hused i hi').2] at hin
          exact .inl hin
        · exact .inr (h.free hin)
      · rw [(hch₂.used_other hxp hb₁ hi hi' hne).2, (hused i hi').2] at hbn
        exact .inl hbn
  obtain ⟨h0, hlt⟩ := hb₁.extra_pos List.mem_cons_self
  refine { brep := fun hb => (growStep_done hxp (h.brep hxp hb hi) hi hg).1, self := ?_, other := fun i hi' hne => ⟨?_, hother i hi' hne⟩,
           ialloc := fun a ha => ?_, safe := hsafe, blks_eq := hblks, lt := hlt, nonzero := h0, freeNot := ?_,
           mono := fun a ha => hch₂.mono a (hbm.mono a ha) }
  · rw [(growStep_done hxp hb₁ hi hg).2, hbm.file_eq hxp hb hi]
  · rw [file_eq (hch₂.other i hi' hne) (hch₂.used_other hxp hb₁ hi hi' hne).1 fun a ha => hch₂.blks_data hxp hb₁ hi hi' ha,
      hbm.file_eq hxp hb hi']
  · rw [hch₂.ialloc_eq hxp hb₁ hi ha, hch₁.ialloc_eq hxp hb hi ha]
  · rw [hch₂.freeOf_not hxp hb₁ hi, hch₁.freeOf_not hxp hb hi]

/-- The file has the block `v` at the end. Nothing is freed. -/
structure GrowDone (xp : FsXparams) (inum : Nat) (l : List Valu) (ms : Memstate) (d : LDisk) (ms' : Memstate) (d' : LDisk) :
    Prop extends FileDone xp inum ⟨(file xp d inum).data ++ l, (file xp d inum).attr⟩ ms d ms' d' where
  freeNot : freeOf xp d' (!ms.msAlloc) = freeOf xp d (!ms.msAlloc)

/-- The contents are written to the new block, which is dirty. -/
theorem Appended.growDone (h : Appended xp ms.msAlloc inum bn d d₁) (hxp : xp.Ok n) (hb : BRep xp d extra) (hm : MsRep xp d ms)
    (hi : inum < xp.nInodes) {c : BmapCacheType} {ic : ICache} (hc : BmapAllocCache.CacheRep (xp.balloc ms.msAlloc) d₁ c)
    (hic : IcacheRep xp d₁ ic) (v : Valu) :
    GrowDone xp inum [v] ms d { ms with msAllocC := updBalloc ms.msAllocC c ms.msAlloc, msICache := ic,
                                        msDBlocks := putDirty inum bn ms.msDBlocks } (d₁.set bn v) := by
  have hb₁ := h.brep hb
  have hoff : (blks xp d₁ inum)[(blks xp d inum).length]? = some bn := by rw [h.blks_eq]; simp
  have hframe : ∀ a, a ≠ bn → d₁.set bn v a = d₁ a := fun a ha => Disk.set_of_ne ha _ _
  have hstep := h.toFileStep.trans (fileStep_write hxp hb₁ hi hoff (Disk.set_self d₁ bn v) hframe fun a _ ha => .inr ha)
  have hw : DataOnly xp bn d₁ (d₁.set bn v) :=
    ⟨h.lt, fun j hj => hb₁.notNode hi (List.mem_of_getElem? hoff) hj, hframe, fun a _ ha => .inr ha⟩
  have hself : (⟨(file xp d₁ inum).data.set (blks xp d inum).length v, (file xp d₁ inum).attr⟩ : File) =
      ⟨(file xp d inum).data ++ [v], (file xp d inum).attr⟩ := by
    rw [h.self]
    simp
  rw [hself] at hstep
  have hblks : ∀ i, i < xp.nInodes → ∀ b, b ∈ blks xp (d₁.set bn v) i ↔ b ∈ blks xp d i ∨ i = inum ∧ b = bn := by
    intro i hi' b
    rw [(hw.used_eq hxp hi').1]
    by_cases hne : i = inum
    · subst hne
      rw [h.blks_eq, List.mem_append, List.mem_singleton]
      simp
    · rw [(h.other i hi' hne).2]
      simp [hne]
  refine { toFileStep := hstep, msrep := ?_, alloc_eq := rfl, iallocC_eq := rfl, cache_eq := rfl,
           freeNot := (hw.freeOf_eq hxp _).trans h.freeNot, clean := fun i hi' b hb' hnot => ?_ }
  swap
  · have hnot' : ¬ ((i = inum ∧ b = bn) ∨ b ∈ getDirty i ms.msDBlocks) := fun hd => hnot (mem_getDirty_putDirty.2 hd)
    exact ⟨((hblks i hi' b).1 hb').resolve_right fun he => hnot' (.inl he), fun hd => hnot' (.inr hd)⟩
  refine ⟨allocC_updBalloc (cacheRep_of_freeOf (hm.alloc _) ((hw.freeOf_eq hxp _).trans h.freeNot))
    (cacheRep_of_freeOf hc (hw.freeOf_eq hxp _)), hm.ialloc.congr fun a ha => ?_, ?_, fun i b hdirty => ?_, fun i hi' b hb' => ?_⟩
  · rw [hw.ialloc_eq hxp ha, h.ialloc a ha]
  · exact hic.congr_table fun a ha => hframe a fun he => hxp.not_inTable h.lt (he ▸ ha)
  · rcases mem_getDirty_putDirty.1 hdirty with ⟨rfl, rfl⟩ | hold
    · exact ⟨hi, (hblks i hi b).2 (.inr ⟨rfl, rfl⟩)⟩
    · obtain ⟨hi', hb'⟩ := hm.dirty i b hold
      exact ⟨hi', (hblks i hi' b).2 (.inl hb')⟩
  · rcases (hblks i hi' b).1 hb' with hold | ⟨_, rfl⟩
    · refine (hm.clean i hi' b hold).imp (fun hp => .inr (h.mono b hp)) fun hd => mem_getDirty_putDirty.2 (.inr hd)
    · exact .inl (.inl rfl)

/-- The file did not grow, because it is as large as it can be or because no block was left. Only the bitmap is written. -/
structure GrowFail (xp : FsXparams) (inum : Nat) (ms : Memstate) (d : LDisk) (ms' : Memstate) (d' : LDisk) : Prop
    extends BitmapOnly xp ms.msAlloc d d' where
  why : BlockPtr.nBlocks ≤ (file xp d inum).data.length ∧ d' = d ∨ freeOf xp d' ms.msAlloc = []
  msrep : MsRep xp d' ms'
  alloc_eq : ms'.msAlloc = ms.msAlloc
  iallocC_eq : ms'.msIAllocC = ms.msIAllocC
  cache_eq : ms'.msCache = ms.msCache
  dirty_eq : ms'.msDBlocks = ms.msDBlocks

/-- What was taken is in no place. -/
theorem GrowFail.brep {ms' : Memstate} (h : GrowFail xp inum ms d ms' d') (hxp : xp.Ok n) (hb : BRep xp d extra)
    (hi : inum < xp.nInodes) : ∃ lost, BRep xp d' (lost ++ extra) := by
  rcases h.why with ⟨_, rfl⟩ | hfree
  · exact ⟨[], hb⟩
  · refine ⟨freeOf xp d ms.msAlloc, h.toBitmapOnly.brep hxp hb hi ?_⟩
    rw [hfree, List.append_nil]
    exact List.perm_append_comm

theorem GrowFail.after {ms₁ ms' : Memstate} (h : GrowFail xp inum ms₁ d ms' d') (hic : IcacheOnly ms ms₁) :
    GrowFail xp inum ms d ms' d' := by
  obtain ⟨ic, rfl⟩ := hic
  exact ⟨h.toBitmapOnly, h.why, h.msrep, h.alloc_eq, h.iallocC_eq, h.cache_eq, h.dirty_eq⟩

/-- The caches after the allocator ran out of blocks. -/
theorem BitmapOnly.msRep (hbm : BitmapOnly xp ms.msAlloc d d') (hxp : xp.Ok n) (hb : BRep xp d extra) (hm : MsRep xp d ms)
    (hi : inum < xp.nInodes) {c : BmapCacheType} {ic : ICache} (hc : BmapAllocCache.CacheRep (xp.balloc ms.msAlloc) d' c)
    (hic : IcacheRep xp d' ic) :
    MsRep xp d' { ms with msAllocC := updBalloc ms.msAllocC c ms.msAlloc, msICache := ic } := by
  have hch := hbm.fileChange hxp inum
  refine ⟨allocC_updBalloc (cacheRep_of_freeOf (hm.alloc _) (hch.freeOf_not hxp hb hi)) hc,
    hm.ialloc.congr fun a ha => hch.ialloc_eq hxp hb hi ha, hic, fun i b hdirty => ?_, fun i hi' b hb' => ?_⟩
  · obtain ⟨hi', hb'⟩ := hm.dirty i b hdirty
    exact ⟨hi', by rw [(hbm.used_eq hxp hb hi').1]; exact hb'⟩
  · rw [(hbm.used_eq hxp hb hi').1] at hb'
    exact (hm.clean i hi' b hb').imp (hbm.mono b) id

theorem growDone_refl (hm : MsRep xp d ms) : GrowDone xp inum [] ms d ms d where
  toFileDone := by
    rw [List.append_nil]
    exact fileDone_icacheOnly ⟨ms.msICache, rfl⟩ hm
  freeNot := rfl

theorem GrowDone.trans {l l' : List Valu} {ms₁ ms' : Memstate} (h₁ : GrowDone xp inum l ms d ms₁ d₁)
    (h₂ : GrowDone xp inum l' ms₁ d₁ ms' d') : GrowDone xp inum (l ++ l') ms d ms' d' where
  toFileDone := by
    have h := h₁.toFileDone.trans h₂.toFileDone
    rw [h₁.self] at h
    rw [← List.append_assoc]
    exact h
  freeNot := by
    have h := h₂.freeNot
    rw [h₁.alloc_eq] at h
    exact h.trans h₁.freeNot

theorem grow_spec (hxp : xp.Ok n) (hb : BRep xp d extra) (hm : MsRep xp d ms) (hi : inum < xp.nInodes) (v : Valu) :
    twp n (grow xp inum v ms) (fun r d' => (r.2 = .ok () → GrowDone xp inum [v] ms d r.1 d') ∧
      ∀ e, r.2 = .error e → GrowFail xp inum ms d r.1 d') d := by
  refine twp_seq (INODE.getlen_spec hxp hm.icache hi) fun ⟨ic, len⟩ d₀ ⟨hd, hlen, hic⟩ => ?_
  subst hd
  have hm₀ := hm.setIcache hic
  by_cases hlt : len < BlockPtr.nBlocks
  swap
  · simp only [if_neg hlt]
    refine ⟨fun h => (nomatch h), fun _ _ =>
      ⟨⟨fun _ _ => rfl, fun _ h => h⟩, .inl ⟨?_, rfl⟩, hm₀, rfl, rfl, rfl, rfl⟩⟩
    rw [length_file_data, ← hlen]
    exact Nat.le_of_not_lt hlt
  simp only [if_pos hlt]
  refine twp_seq (twp_plain (BmapAllocCache.alloc_spec (hxp.dataOk ms.msAlloc).toOk (hm.alloc ms.msAlloc)))
    fun ⟨c₁, r⟩ d₁ ⟨halloc, hplain₁⟩ => ?_
  rcases halloc with ⟨hnone, hd, hfree, hc₁⟩ | ⟨bn, l, hr, hmem, hperm, hl, hframe⟩
  · simp only at hnone
    subst hnone
    subst hd
    have hbm : BitmapOnly xp ms.msAlloc d₁ d₁ := ⟨fun _ _ => rfl, fun _ h => h⟩
    exact ⟨fun h => (nomatch h), fun _ _ =>
      ⟨hbm, .inr hfree, BitmapOnly.msRep hbm hxp hb hm hi hc₁ hic, rfl, rfl, rfl, rfl⟩⟩
  simp only [Prod.mk.injEq] at hr
  obtain ⟨rfl, rfl⟩ := hr
  have hhand : InHand xp ms.msAlloc bn d₀ d₁ := ⟨⟨hframe, fun a ha => hplain₁ a (.inl ha)⟩, hperm⟩
  have hb₁ := hhand.brep hxp hb hi
  have hic₁ : IcacheRep xp d₁ ic := hic.congr_table fun a ha => hframe a (hxp.table_not_inBalloc _ ha)
  have hlen₁ : (blks xp d₁ inum).length < BlockPtr.nBlocks := by
    rw [(hhand.used_eq hxp hb hi).1, ← hlen]
    exact hlt
  have hac₁ : BmapAllocCache.CacheRep (xp.balloc ms.msAlloc) d₁ (some l) := fun l' hl' => by
    cases hl'
    exact hl
  refine twp_seq (twp_plain (INODE.grow_spec hxp hic₁ (BRep.inodeRep hb₁ hi) (hb₁.indsOwned hxp _ hi) hac₁
    (hb₁.extra_pos List.mem_cons_self).2 hlen₁)) fun ⟨ic₂, c₂, succ⟩ d₂ ⟨⟨hic₂, hc₂, hok, herr⟩, hplain₂⟩ => ?_
  cases succ with
  | error e =>
    have hf := herr e rfl
    have hbm : BitmapOnly xp ms.msAlloc d₀ d₂ :=
      ⟨fun a ha => (hf.frame a ha).trans (hframe a ha), fun a ha => hplain₂ a (.inl (hhand.mono a ha))⟩
    exact ⟨fun h => (nomatch h), fun _ _ =>
      ⟨hbm, .inr hf.free, BitmapOnly.msRep hbm hxp hb hm hi hc₂ hic₂, rfl, rfl, rfl, rfl⟩⟩
  | ok _ =>
    have happ := InHand.appended hhand (hok rfl) hxp hb hi
    refine twp_bind _ (twp_writeAt (hxp.data_lt happ.lt) happ.nonzero ?_)
    exact ⟨fun _ => happ.growDone hxp hb hm hi hc₂ hic₂ v, fun e h => (nomatch h)⟩

end Grow

/-! ## Shrinking -/

section Shrink

variable {b : Bool} {l : List Nat} {d₂ : LDisk}

/-- The blocks `l` of the file are free in the allocator `b`, and still in the file. -/
structure Freed (xp : FsXparams) (b : Bool) (l : List Nat) (d d₁ : LDisk) : Prop extends BitmapOnly xp b d d₁ where
  own : (freeOf xp d₁ b).Perm (l ++ freeOf xp d b)

theorem freevec_spec (hxp : xp.Ok n) (hb : BRep xp d extra) (hi : inum < xp.nInodes) (hl : l.Sublist (blks xp d inum))
    {c : BmapCacheType} (hc : BmapAllocCache.CacheRep (xp.balloc b) d c) :
    twp n (BmapAllocCache.freevec (xp.balloc b) l c)
      (fun c' d₁ => Freed xp b l d d₁ ∧ BmapAllocCache.CacheRep (xp.balloc b) d₁ c') d := by
  have hown : ∀ a ∈ l, a ∈ owned xp d := fun a ha => used_sub_owned hi (List.mem_append_left _ (hl.subset ha))
  refine twp_mono (fun c' d₁ ⟨⟨hp, hc', hframe⟩, hplain⟩ => ⟨⟨⟨hframe, fun a ha => hplain a (.inl ha)⟩, hp⟩, hc'⟩) _
    (twp_plain (BmapAllocCache.freevec_spec (hxp.dataOk b).toOk hc
      (List.nodup_append.2 ⟨?_, BmapAlloc.nodup_freeList _ _, ?_⟩) ?_))
  · exact hl.nodup (hb.blks_nodup hi)
  · rintro a ha a' ha' rfl
    exact hb.not_free b (.inr (hown a ha)) ha'
  · intro a ha
    obtain ⟨h0, hlt⟩ := hb.owned_pos (hown a ha)
    exact ⟨by rw [hxp.size_balloc]; exact hlt, h0⟩

/-- The nodes of the file are not among the blocks just freed. -/
theorem Freed.owned (hf : Freed xp b l d d₁) (hxp : xp.Ok n) (hb : BRep xp d extra) (hi : inum < xp.nInodes)
    (hl : l.Sublist (blks xp d inum)) : BlockPtr.Owned (xp.balloc b) d₁ (inds xp d₁ inum) := by
  have ho := hb.indsOwned hxp b hi
  rw [(hf.used_eq hxp hb hi).2]
  refine ⟨List.nodup_append.2 ⟨(List.nodup_append.1 ho.nodup).1, BmapAlloc.nodup_freeList _ _, ?_⟩, ho.lt⟩
  rintro a ha a' ha' rfl
  rcases List.mem_append.1 (hf.own.mem_iff.1 ha') with h | h
  · exact hb.notNode hi (hl.subset h) hi ha
  · exact ho.not_free ha h

theorem Freed.inodeRep (hf : Freed xp b l d d₁) (hxp : xp.Ok n) (hb : BRep xp d extra) (hi : inum < xp.nInodes) :
    InodeRep xp d₁ inum :=
  ⟨hi, hf.irep hxp hb hi, fun a ha => by
    rw [(hf.used_eq hxp hb hi).2] at ha
    exact (BRep.inodeRep hb hi).inds_lt a ha⟩

/-- The nodes that are not needed for the first `k` blocks. -/
def emptied (xp : FsXparams) (d : LDisk) (inum k : Nat) : List Nat :=
  (inds xp d inum).filter fun a => decide (∀ off < k, a ∉ BlockPtr.slotPath d (irec xp d inum) off)

/-- What freeing the last blocks of a file does. -/
structure Shrunk (xp : FsXparams) (b : Bool) (inum k : Nat) (a : Iattr) (d d' : LDisk) : Prop
    extends FileStep xp (!b) inum ⟨(file xp d inum).data.take k, a⟩ d d' where
  change : FileChange xp b inum d d'
  blks_eq : blks xp d' inum = (blks xp d inum).take k
  freed : (freeOf xp d' b).Perm ((blks xp d inum).drop k ++ (emptied xp d inum k ++ freeOf xp d b))

/-- The nodes of a file that shrinks are kept or freed. -/
theorem ShrinkStep.inds_perm {nr : Nat} {a : Iattr} (hs : ShrinkStep xp b inum nr a d₁ d₂) (hxp : xp.Ok n)
    (hb : BRep xp d extra) (hi : inum < xp.nInodes) (hf : Freed xp b l d d₁) (hl : l.Sublist (blks xp d inum)) :
    (inds xp d inum).Perm (emptied xp d inum ((blks xp d inum).length - nr) ++ inds xp d₂ inum) := by
  obtain ⟨hblks₁, hinds₁⟩ := hf.used_eq hxp hb hi
  have hnd : (inds xp d inum).Nodup := (List.nodup_append.1 (hb.used_nodup hi)).2.1
  have hnd₂ : (inds xp d₂ inum).Nodup :=
    (List.nodup_append.1 (hs.own.nodup_iff.2 (hf.owned hxp hb hi hl).nodup)).1
  have hpath : BlockPtr.slotPath d₁ (irec xp d₁ inum) = BlockPtr.slotPath d (irec xp d inum) := by
    rw [hf.irec_eq hxp hi]
    exact BlockPtr.slotPath_congr fun a ha =>
      hf.data_eq hxp (hb.owned_pos (used_sub_owned hi (List.mem_append_right _ ha))).2
  have hmem : ∀ a, a ∈ inds xp d₂ inum ↔
      ∃ off < (blks xp d inum).length - nr, a ∈ BlockPtr.slotPath d (irec xp d inum) off := fun a => by
    rw [hs.mem_inds (fun bn hbn => ?_), hblks₁, hpath]
    rw [hblks₁] at hbn
    exact (hb.owned_pos (used_sub_owned hi (List.mem_append_left _ hbn))).1
  have hempty : ∀ a, a ∈ emptied xp d inum ((blks xp d inum).length - nr) ↔ a ∈ inds xp d inum ∧ a ∉ inds xp d₂ inum :=
    fun a => by
      rw [emptied, List.mem_filter, decide_eq_true_iff, hmem]
      simp
  rw [List.perm_ext_iff_of_nodup hnd]
  · intro a
    rw [List.mem_append, hempty]
    constructor
    · intro h
      by_cases ha : a ∈ inds xp d₂ inum
      · exact .inr ha
      · exact .inl ⟨h, ha⟩
    · rintro (h | h)
      · exact h.1
      · exact hinds₁ ▸ hs.sub a h
  · exact List.nodup_append.2 ⟨hnd.filter _, hnd₂, fun a ha a' ha' hab => ((hempty a).1 ha).2 (hab ▸ ha')⟩

theorem ShrinkStep.shrunk {nr : Nat} {a : Iattr} (hs : ShrinkStep xp b inum nr a d₁ d₂) (hxp : xp.Ok n)
    (hb : BRep xp d extra) (hi : inum < xp.nInodes)
    (hf : Freed xp b ((blks xp d inum).drop ((blks xp d inum).length - nr)) d d₁) :
    Shrunk xp b inum ((blks xp d inum).length - nr) a d d₂ := by
  obtain ⟨hblks₁, hinds₁⟩ := hf.used_eq hxp hb hi
  have hblks : blks xp d₂ inum = (blks xp d inum).take ((blks xp d inum).length - nr) := by rw [hs.blks_eq, hblks₁]
  have hinds := ShrinkStep.inds_perm hs hxp hb hi hf (List.drop_sublist _ _)
  generalize (blks xp d inum).length - nr = k at hblks hf hinds ⊢
  have hch : FileChange xp b inum d d₂ := by
    refine ⟨fun a hn _ hbm ht => ?_, fun i hi' hne => ?_, fun a ha => hs.mono a (hf.mono a ha)⟩
    · rw [hs.frame' a (by rw [hinds₁]; exact hn) hbm ht, hf.frame a hbm]
    · rw [hs.other i hi' hne, hf.irec_eq hxp hi']
  have hown := List.perm_iff_count.1 hs.own
  have hown₁ := List.perm_iff_count.1 hf.own
  rw [hinds₁] at hown
  have hb₂ : ∀ {extra}, BRep xp d extra → BRep xp d₂ extra := fun hb => by
    refine hch.brep hxp hb hi ?_ hs.irep fun a ha => .inl (hinds₁ ▸ hs.sub a ha)
    have hsplit : ∀ x, (blks xp d inum).count x = ((blks xp d inum).take k).count x + ((blks xp d inum).drop k).count x :=
      fun x => by rw [← List.count_append, List.take_append_drop]
    rw [used, used, hblks, List.perm_iff_count]
    intro x
    have := hown x
    have := hown₁ x
    have := hsplit x
    simp only [List.count_append] at *
    omega
  refine { toFileStep := FileChange.fileStep hch hxp hb hi hb₂ ?_
             ⟨fun x hx => ?_, fun i hi' off bn hbn => .inl ?_, fun i hi' bn hbn => .inl ?_⟩,
           change := hch, blks_eq := hblks, freed := ?_ }
  · rw [file, hblks, hs.attrs_eq, file, ← List.map_take]
    congr 1
    exact List.map_congr_left fun x hx => hch.blks_data hxp hb hi hi (List.mem_of_mem_take hx)
  · rwa [hch.freeOf_not hxp hb hi] at hx
  · by_cases hne : i = inum
    · subst hne
      rw [hblks, List.getElem?_take] at hbn
      split at hbn
      · exact hbn
      · cases hbn
    · rwa [(hch.used_other hxp hb hi hi' hne).1] at hbn
  · by_cases hne : i = inum
    · subst hne
      rw [← hinds₁]
      exact hs.sub bn hbn
    · rwa [(hch.used_other hxp hb hi hi' hne).2] at hbn
  · have hempty := List.perm_iff_count.1 hinds
    rw [List.perm_iff_count]
    intro x
    have := hown x
    have := hown₁ x
    have := hempty x
    simp only [List.count_append] at *
    omega

/-- The caches after shrinking. -/
theorem Shrunk.msRep {k : Nat} {a : Iattr} (hs : Shrunk xp (!ms.msAlloc) inum k a d d₂) (hxp : xp.Ok n) (hb : BRep xp d extra)
    (hm : MsRep xp d ms) (hi : inum < xp.nInodes) {c : BmapCacheType} {ic : ICache} (bf : BFcacheType)
    (db : DBlocksType) (hc : BmapAllocCache.CacheRep (xp.balloc !ms.msAlloc) d₂ c) (hic : IcacheRep xp d₂ ic)
    (hdb : ∀ i bn, bn ∈ getDirty i db ↔ (i = inum → bn ∉ (blks xp d inum).drop k) ∧ bn ∈ getDirty i ms.msDBlocks) :
    MsRep xp d₂ { ms with msAllocC := updBalloc ms.msAllocC c !ms.msAlloc, msICache := ic, msCache := bf, msDBlocks := db } := by
  refine ⟨allocC_updBalloc (cacheRep_of_freeOf (hm.alloc _) (hs.change.freeOf_not hxp hb hi)) hc,
    hm.ialloc.congr fun a ha => hs.change.ialloc_eq hxp hb hi ha, hic, fun i bn hbn => ?_, fun i hi' bn hbn => ?_⟩
  · obtain ⟨hnot, hold⟩ := (hdb i bn).1 hbn
    obtain ⟨hi', hmem⟩ := hm.dirty i bn hold
    refine ⟨hi', ?_⟩
    by_cases hne : i = inum
    · subst hne
      rw [hs.blks_eq]
      rw [← List.take_append_drop k (blks xp d i), List.mem_append] at hmem
      exact hmem.resolve_right (hnot rfl)
    · rw [(hs.other i hi' hne).2]
      exact hmem
  · by_cases hne : i = inum
    · subst hne
      rw [hs.blks_eq] at hbn
      exact (hm.clean i hi' bn (List.mem_of_mem_take hbn)).imp (hs.change.mono bn) fun h =>
        (hdb i bn).2 ⟨fun _ => hb.not_mem_drop hi hbn, h⟩
    · rw [(hs.other i hi' hne).2] at hbn
      exact (hm.clean i hi' bn hbn).imp (hs.change.mono bn) fun h => (hdb i bn).2 ⟨fun h => absurd h hne, h⟩

theorem Shrunk.clean {k : Nat} {a : Iattr} (hs : Shrunk xp (!ms.msAlloc) inum k a d d₂) (hb : BRep xp d extra)
    (hi : inum < xp.nInodes) {ms' : Memstate} (hdb : ∀ i bn, bn ∈ getDirty i ms'.msDBlocks ↔
      (i = inum → bn ∉ (blks xp d inum).drop k) ∧ bn ∈ getDirty i ms.msDBlocks) : CleanBefore xp ms d ms' d₂ := by
  intro i hi' bn hbn hnot
  by_cases hne : i = inum
  · subst hne
    rw [hs.blks_eq] at hbn
    refine ⟨List.mem_of_mem_take hbn, fun h => hnot ((hdb i bn).2 ⟨fun _ => ?_, h⟩)⟩
    exact hb.not_mem_drop hi hbn
  · rw [(hs.other i hi' hne).2] at hbn
    exact ⟨hbn, fun h => hnot ((hdb i bn).2 ⟨fun he => absurd he hne, h⟩)⟩

/-- The file keeps its first `k` blocks, and the others are free and not dirty any more. -/
structure ShrinkDone (xp : FsXparams) (inum k : Nat) (ms : Memstate) (d : LDisk) (ms' : Memstate) (d' : LDisk) : Prop
    extends FileDone xp inum ⟨(file xp d inum).data.take k, (file xp d inum).attr⟩ ms d ms' d' where
  blks_eq : blks xp d' inum = (blks xp d inum).take k
  dirty_iff : ∀ i bn, bn ∈ getDirty i ms'.msDBlocks ↔
    (i = inum → bn ∉ (blks xp d inum).drop k) ∧ bn ∈ getDirty i ms.msDBlocks
  freeSame : freeOf xp d' ms.msAlloc = freeOf xp d ms.msAlloc
  freed : (freeOf xp d' !ms.msAlloc).Perm ((blks xp d inum).drop k ++ (emptied xp d inum k ++ freeOf xp d !ms.msAlloc))

theorem shrink_spec (hxp : xp.Ok n) (hb : BRep xp d extra) (hm : MsRep xp d ms) (hi : inum < xp.nInodes) (nr : Nat) :
    twp n (shrink xp inum nr ms)
      (fun ms' d' => ShrinkDone xp inum ((file xp d inum).data.length - nr) ms d ms' d') d := by
  refine twp_seq (INODE.getallbnum_spec hxp hm.icache (BRep.inodeRep hb hi)) fun ⟨ic, bns⟩ d₀ ⟨hd, hbns, hic⟩ => ?_
  subst hd
  have hlen : bns.length = (blks xp d₀ inum).length := by rw [← hbns, List.length_map]
  have hl : (bns.drop (bns.length - nr)).map BitVec.toNat =
      (blks xp d₀ inum).drop ((blks xp d₀ inum).length - nr) := by rw [List.map_drop, hbns, hlen]
  have hsub := List.drop_sublist ((blks xp d₀ inum).length - nr) (blks xp d₀ inum)
  rw [length_file_data]
  simp only [hl]
  refine twp_seq (freevec_spec hxp hb hi hsub (hm.alloc _)) fun c₁ d₁ ⟨hf, hc₁⟩ => ?_
  have hic₁ : IcacheRep xp d₁ ic := hic.congr_table fun a ha => hf.frame a (hxp.table_not_inBalloc _ ha)
  refine twp_seq (INODE.shrink_spec hxp hic₁ (hf.inodeRep hxp hb hi) (hf.owned hxp hb hi hsub) hc₁ nr)
    fun ⟨ic₂, c₂⟩ d₂ ⟨hs, hic₂, hc₂⟩ => ?_
  have hattrs : attrs xp d₁ inum = (file xp d₀ inum).attr := by rw [attrs, hf.irec_eq hxp hi]; rfl
  rw [hattrs] at hs
  have hsh := ShrinkStep.shrunk hs hxp hb hi hf
  have hstep := hsh.toFileStep
  rw [Bool.not_not] at hstep
  exact { toFileStep := hstep, msrep := hsh.msRep hxp hb hm hi _ _ hc₂ hic₂ fun i bn => mem_getDirty_removeDirtyVec,
          alloc_eq := rfl, iallocC_eq := rfl, cache_eq := rfl, blks_eq := hsh.blks_eq,
          dirty_iff := fun i bn => mem_getDirty_removeDirtyVec, clean := hsh.clean hb hi fun i bn => mem_getDirty_removeDirtyVec,
          freeSame := Bool.not_not ms.msAlloc ▸ hsh.change.freeOf_not hxp hb hi, freed := hsh.freed }

/-- `reset` empties the file; the cached directory entries go with it. -/
structure ResetDone (xp : FsXparams) (inum : Nat) (ms : Memstate) (d : LDisk) (ms' : Memstate) (d' : LDisk) : Prop
    extends FileStep xp ms.msAlloc inum ⟨[], iattr0⟩ d d' where
  msrep : MsRep xp d' ms'
  alloc_eq : ms'.msAlloc = ms.msAlloc
  iallocC_eq : ms'.msIAllocC = ms.msIAllocC
  cache_eq : ms'.msCache = ms.msCache.erase inum
  clean : CleanBefore xp ms d ms' d'

theorem reset_spec (hxp : xp.Ok n) (hb : BRep xp d extra) (hm : MsRep xp d ms) (hi : inum < xp.nInodes) :
    twp n (reset xp inum ms) (fun ms' d' => ResetDone xp inum ms d ms' d') d := by
  refine twp_seq (getlen_spec hxp hm hi) fun ⟨ms₀, sz⟩ d₀ ⟨hd, hsz, ⟨ic₀, hms₀⟩, hm₀⟩ => ?_
  subst hd
  subst hms₀
  refine twp_seq (INODE.getallbnum_spec hxp hm₀.icache (BRep.inodeRep hb hi)) fun ⟨ic, bns⟩ d₀' ⟨hd, hbns, hic⟩ => ?_
  subst hd
  simp only [length_file_data] at hsz
  simp only at hbns
  simp only [hbns, hsz]
  have hall : (blks xp d₀' inum).drop ((blks xp d₀' inum).length - (blks xp d₀' inum).length) = blks xp d₀' inum := by
    rw [Nat.sub_self, List.drop_zero]
  refine twp_seq (freevec_spec hxp hb hi (List.Sublist.refl _) (hm.alloc _)) fun c₁ d₁ ⟨hf, hc₁⟩ => ?_
  have hic₁ : IcacheRep xp d₁ ic := hic.congr_table fun a ha => hf.frame a (hxp.table_not_inBalloc _ ha)
  refine twp_seq (INODE.reset_spec hxp hic₁ (hf.inodeRep hxp hb hi) (hf.owned hxp hb hi (List.Sublist.refl _)) hc₁ _ iattr0)
    fun ⟨ic₂, c₂⟩ d₂ ⟨hs, hic₂, hc₂⟩ => ?_
  have hsh := ShrinkStep.shrunk hs hxp hb hi (hall.symm ▸ hf)
  have hstep := hsh.toFileStep
  rw [Bool.not_not, Nat.sub_self, List.take_zero] at hstep
  have hdirty : ∀ i bn, bn ∈ getDirty i (clearDirty inum ms.msDBlocks) ↔
      (i = inum → bn ∉ (blks xp d₀' inum).drop ((blks xp d₀' inum).length - (blks xp d₀' inum).length)) ∧
        bn ∈ getDirty i ms.msDBlocks := fun i bn => by
    refine mem_getDirty_clearDirty.trans (and_congr_left fun h => ?_)
    -- all dirty blocks of the file go
    rw [hall]
    exact ⟨fun hne he => absurd he hne, fun hnot he => hnot he (he ▸ (hm.dirty i bn h).2)⟩
  have hmr := hsh.msRep hxp hb hm hi (ms.msCache.erase inum) (clearDirty inum ms.msDBlocks) hc₂ hic₂ hdirty
  exact { toFileStep := hstep, msrep := hmr, alloc_eq := rfl, iallocC_eq := rfl, cache_eq := rfl,
          clean := hsh.clean hb hi hdirty }

end Shrink

/-! ## Truncating -/

/-- What `grown` returns: a step that fails leaves the blocks before it. -/
structure Grew (xp : FsXparams) (inum : Nat) (l : List Valu) (ms : Memstate) (d : LDisk) (r : Memstate × Except Errno Unit)
    (d' : LDisk) : Prop where
  ok : r.2 = .ok () → GrowDone xp inum l ms d r.1 d'
  error : ∀ e, r.2 = .error e →
    ∃ k ms₁ d₁, k < l.length ∧ GrowDone xp inum (l.take k) ms d ms₁ d₁ ∧ GrowFail xp inum ms₁ d₁ r.1 d'

theorem grown_spec (hxp : xp.Ok n) (hb : BRep xp d extra) (hm : MsRep xp d ms) (hi : inum < xp.nInodes) (l : List Valu) :
    twp n (grown xp inum l ms) (Grew xp inum l ms d) d := by
  suffices hloop : twp n (grown xp inum l ms) (fun r d' =>
      (r.2 = .ok () → GrowDone xp inum (l.take (0 + l.length)) ms d r.1 d') ∧ ∀ e, r.2 = .error e →
        ∃ k ms₁ d₁, k < 0 + l.length ∧ GrowDone xp inum (l.take k) ms d ms₁ d₁ ∧ GrowFail xp inum ms₁ d₁ r.1 d') d by
    rw [Nat.zero_add, List.take_length] at hloop
    exact twp_mono (fun _ _ h => ⟨h.1, h.2⟩) _ hloop
  refine twp_forN (I := fun i (r : Memstate × Except Errno Unit) d' => (r.2 = .ok () → GrowDone xp inum (l.take i) ms d r.1 d') ∧
    ∀ e, r.2 = .error e → ∃ k ms₁ d₁, k < i ∧ GrowDone xp inum (l.take k) ms d ms₁ d₁ ∧ GrowFail xp inum ms₁ d₁ r.1 d')
    l.length 0 ?_ ?_
  · rintro i ⟨ms₁, r⟩ d₁ _ hlt ⟨hok, herr⟩
    cases r with
    | error e =>
      obtain ⟨k, ms₂, d₂, hk, hfail⟩ := herr e rfl
      exact ⟨fun h => (by cases h), fun _ _ => ⟨k, ms₂, d₂, Nat.lt_succ_of_lt hk, hfail⟩⟩
    | ok _ =>
      have hdone := hok rfl
      refine twp_mono (fun r' d₂ hgrow => ⟨fun hok' => ?_, fun e h => ?_⟩) _
        (grow_spec hxp (hdone.brep hb) hdone.msrep hi (l.getD i 0))
      · have hstep := hdone.trans (hgrow.1 hok')
        have htake : l.take i ++ [l.getD i 0] = l.take (i + 1) := by
          rw [List.take_add_one, List.getD_eq_getElem?_getD, List.getElem?_eq_getElem (by omega : i < l.length)]
          rfl
        rwa [htake] at hstep
      · exact ⟨i, ms₁, d₁, Nat.lt_succ_self i, hdone, hgrow.2 e h⟩
  · refine ⟨fun _ => ?_, fun e h => by cases h⟩
    rw [List.take_zero]
    exact growDone_refl hm

/-- The contents of a file after it is truncated or extended to `sz` blocks. -/
def resize (l : List Valu) (sz : Nat) : List Valu := l.take sz ++ List.replicate (sz - l.length) 0

/-- What truncating to `newsz` blocks does to the free blocks: those behind the new length and the nodes for them alone
are freed, to the allocator that is not selected. -/
structure Frees (xp : FsXparams) (al : Bool) (inum newsz : Nat) (d d' : LDisk) : Prop where
  shorter : newsz < (blks xp d inum).length → freeOf xp d' al = freeOf xp d al ∧
    (freeOf xp d' !al).Perm ((blks xp d inum).drop newsz ++ (emptied xp d inum newsz ++ freeOf xp d !al))
  longer : (blks xp d inum).length ≤ newsz → (∀ a ∈ freeOf xp d' al, a ∈ freeOf xp d al) ∧
    freeOf xp d' (!al) = freeOf xp d (!al)

/-- What `truncate` returns. -/
structure TruncateDone (xp : FsXparams) (inum newsz : Nat) (ms : Memstate) (d : LDisk) (r : Memstate × Except Errno Unit)
    (d' : LDisk) : Prop where
  ok : r.2 = .ok () → FileDone xp inum ⟨resize (file xp d inum).data newsz, (file xp d inum).attr⟩ ms d r.1 d' ∧
    Frees xp ms.msAlloc inum newsz d d'
  error : ∀ e, r.2 = .error e → ∃ sz ms₁ d₁, sz < newsz ∧
    FileDone xp inum ⟨resize (file xp d inum).data sz, (file xp d inum).attr⟩ ms d ms₁ d₁ ∧ GrowFail xp inum ms₁ d₁ r.1 d'

theorem resize_of_le {l : List Valu} {sz : Nat} (h : sz ≤ l.length) : resize l sz = l.take sz := by
  rw [resize, Nat.sub_eq_zero_of_le h, List.replicate_zero, List.append_nil]

theorem resize_add (l : List Valu) (k : Nat) : resize l (l.length + k) = l ++ List.replicate k 0 := by
  rw [resize, List.take_of_length_le (Nat.le_add_right _ _), Nat.add_sub_cancel_left]

theorem length_resize (l : List Valu) (k : Nat) : (resize l k).length = k := by
  rw [resize, List.length_append, List.length_take, List.length_replicate]
  omega

theorem truncate_spec (hxp : xp.Ok n) (hb : BRep xp d extra) (hm : MsRep xp d ms) (hi : inum < xp.nInodes) (newsz : Nat) :
    twp n (truncate xp inum newsz ms) (TruncateDone xp inum newsz ms d) d := by
  refine twp_seq (getlen_spec hxp hm hi) fun ⟨ms₀, sz⟩ d₀ ⟨hd, hsz, hic, hm₀⟩ => ?_
  subst hd
  have hdone₀ : FileDone xp inum (file xp d₀ inum) ms d₀ ms₀ d₀ := fileDone_icacheOnly hic hm₀
  have hal := hdone₀.alloc_eq
  have hlen := length_file_data xp d₀ inum
  simp only at hsz
  by_cases hlt : newsz < sz
  · simp only [if_pos hlt]
    refine twp_seq (shrink_spec hxp hb hm₀ hi (sz - newsz)) fun ms₁ d₁ hdone => ?_
    have hk : (file xp d₀ inum).data.length - (sz - newsz) = newsz := by omega
    rw [hk] at hdone
    refine ⟨fun _ => ⟨?_, fun _ => ⟨?_, ?_⟩, fun h => by omega⟩, fun e h => (nomatch h)⟩
    · rw [resize_of_le (by omega)]
      exact hdone₀.trans hdone.toFileDone
    · have := hdone.freeSame
      rwa [hal] at this
    · have := hdone.freed
      rwa [hal] at this
  · simp only [if_neg hlt]
    refine twp_mono (fun r d₁ hgrown => ⟨fun hok => ?_, fun e h => ?_⟩) _
      (grown_spec hxp hb hm₀ hi (List.replicate (newsz - sz) 0))
    · have hdone := hgrown.ok hok
      have hall := hdone₀.trans hdone.toFileDone
      refine ⟨?_, fun h => by omega, fun _ => ⟨fun a ha => hall.safe.free a ha, ?_⟩⟩
      · rwa [← resize_add, ← hsz, Nat.add_sub_of_le (by omega)] at hall
      · have := hdone.freeNot
        rwa [hal] at this
    · obtain ⟨k, ms₁, d₂, hk, hdone, hfail⟩ := hgrown.error e h
      rw [List.length_replicate] at hk
      refine ⟨sz + k, ms₁, d₂, by omega, ?_, hfail⟩
      have hall := hdone₀.trans hdone.toFileDone
      rwa [List.take_replicate, Nat.min_eq_left (by omega), ← resize_add, ← hsz] at hall

end BFILE

end Fscq
