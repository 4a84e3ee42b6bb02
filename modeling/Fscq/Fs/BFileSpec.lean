import Fscq.Fs.BFile

/-!
# What the file programs do

`file` is the file of an inode as a function of the disk. `FileStep` is what a program on the file `inum` does: this file
becomes `f`, the other files stay, no block is lost or shared (`BRep`), and it is safe for direct writes (`Safe`): a block
that a file has now was at the same place of the same file, or free in the selected allocator, before. `MsRep` says that
the caches agree with the disk.
-/

namespace Fscq

open TxnLogic INODE

/-! ## Files -/

structure File where
  data : List Valu
  attr : Iattr

def file (xp : FsXparams) (d : LDisk) (i : Nat) : File := ⟨(blks xp d i).map d, attrs xp d i⟩

/-- The blocks of the files of `d'` were at the same place in `d`, or free in the allocator `al`; the nodes of the inodes
were nodes of the same inode, or free. -/
structure Safe (xp : FsXparams) (al : Bool) (d d' : LDisk) : Prop where
  free : ∀ a ∈ freeOf xp d' al, a ∈ freeOf xp d al
  blk : ∀ i, i < xp.nInodes → ∀ off bn : Nat, (blks xp d' i)[off]? = some bn →
    (blks xp d i)[off]? = some bn ∨ bn ∈ freeOf xp d al
  ind : ∀ i, i < xp.nInodes → ∀ bn ∈ inds xp d' i, bn ∈ inds xp d i ∨ bn ∈ freeOf xp d al

namespace Safe

variable {xp : FsXparams} {al : Bool} {d d₁ d' : LDisk}

theorem refl (xp : FsXparams) (al : Bool) (d : LDisk) : Safe xp al d d :=
  ⟨fun _ h => h, fun _ _ _ _ h => .inl h, fun _ _ _ h => .inl h⟩

theorem trans (h₁ : Safe xp al d d₁) (h₂ : Safe xp al d₁ d') : Safe xp al d d' := by
  refine ⟨fun a ha => h₁.free a (h₂.free a ha), fun i hi off bn hbn => ?_, fun i hi bn hbn => ?_⟩
  · rcases h₂.blk i hi off bn hbn with h | h
    · exact h₁.blk i hi off bn h
    · exact .inr (h₁.free bn h)
  · rcases h₂.ind i hi bn hbn with h | h
    · exact h₁.ind i hi bn h
    · exact .inr (h₁.free bn h)

end Safe

structure FileStep (xp : FsXparams) (al : Bool) (inum : Nat) (f : File) (d d' : LDisk) : Prop where
  brep : ∀ {extra : List Nat}, BRep xp d extra → BRep xp d' extra
  self : file xp d' inum = f
  other : ∀ i, i < xp.nInodes → i ≠ inum → file xp d' i = file xp d i ∧ blks xp d' i = blks xp d i
  ialloc : ∀ a, xp.fsxpInodeAlloc.InBitmap a → d' a = d a
  safe : Safe xp al d d'

namespace FileStep

variable {xp : FsXparams} {al : Bool} {inum : Nat} {f f₁ : File} {d d₁ d' : LDisk}

theorem trans (h₁ : FileStep xp al inum f₁ d d₁) (h₂ : FileStep xp al inum f d₁ d') : FileStep xp al inum f d d' where
  brep hb := h₂.brep (h₁.brep hb)
  self := h₂.self
  other i hi hne := ⟨(h₂.other i hi hne).1.trans (h₁.other i hi hne).1, (h₂.other i hi hne).2.trans (h₁.other i hi hne).2⟩
  ialloc a ha := (h₂.ialloc a ha).trans (h₁.ialloc a ha)
  safe := h₁.safe.trans h₂.safe

end FileStep

/-! ## Small changes of the disk -/

section Changes

variable {xp : FsXparams} {n : Nat} {al : Bool} {inum bn : Nat} {d d' : LDisk} {extra : List Nat}

theorem file_eq {i : Nat} (hr : irec xp d' i = irec xp d i) (hb : blks xp d' i = blks xp d i)
    (hd : ∀ a ∈ blks xp d i, d' a = d a) : file xp d' i = file xp d i := by
  rw [file, file, attrs, attrs, hr, hb, List.map_congr_left hd]

/-- The values are the same, and some older ones are gone. -/
structure Synced (d d' : LDisk) : Prop where
  val : ∀ a, d' a = d a
  mono : ∀ a, d.plain a → d'.plain a

namespace Synced

variable (hs : Synced d d')
include hs

theorem irec_eq {i : Nat} (hi : i < xp.nInodes) : irec xp d' i = irec xp d i := irec_congr (fun a _ => hs.val a) hi

theorem used_eq {i : Nat} (hi : i < xp.nInodes) : blks xp d' i = blks xp d i ∧ inds xp d' i = inds xp d i :=
  used_congr (hs.irec_eq hi) fun a _ => hs.val a

theorem freeOf_eq (al : Bool) : freeOf xp d' al = freeOf xp d al := BmapAlloc.freeList_congr fun a _ => hs.val a

theorem brep (hb : BRep xp d extra) : BRep xp d' extra where
  own := by
    have howned : owned xp d' = owned xp d := List.flatMap_congr fun i hi => by
      have h := hs.used_eq (List.mem_range.1 hi)
      rw [used, used, h.1, h.2]
    rw [hs.freeOf_eq, hs.freeOf_eq, howned]
    exact hb.own
  irep i hi := by
    rw [hs.irec_eq hi]
    exact (hb.irep i hi).congr fun a _ => hs.val a
  plain i hi a ha := by
    rw [(hs.used_eq hi).2] at ha
    exact hs.mono a (hb.plain i hi a ha)

theorem file_eq {i : Nat} (hi : i < xp.nInodes) : file xp d' i = file xp d i :=
  Fscq.file_eq (hs.irec_eq hi) (hs.used_eq hi).1 fun a _ => hs.val a

end Synced

/-- Only the bitmap of an allocator changes. -/
structure BitmapOnly (xp : FsXparams) (al : Bool) (d d' : LDisk) : Prop where
  frame : ∀ a, ¬ (xp.balloc al).InBitmap a → d' a = d a
  mono : ∀ a, d.plain a → d'.plain a

namespace BitmapOnly

variable (hbm : BitmapOnly xp al d d')
include hbm

theorem fileChange (hxp : xp.Ok n) (inum : Nat) : FileChange xp al inum d d' :=
  ⟨fun a _ _ hb _ => hbm.frame a hb, fun _ hi _ => irec_congr (fun a ha => hbm.frame a (hxp.table_not_inBalloc al ha)) hi,
    hbm.mono⟩

theorem irec_eq (hxp : xp.Ok n) {i : Nat} (hi : i < xp.nInodes) : irec xp d' i = irec xp d i :=
  irec_congr (fun a ha => hbm.frame a (hxp.table_not_inBalloc al ha)) hi

theorem data_eq (hxp : xp.Ok n) {a : Nat} (ha : a < xp.dataSize) : d' a = d a := hbm.frame a (hxp.not_inBalloc al ha)

theorem used_eq (hxp : xp.Ok n) (hb : BRep xp d extra) {i : Nat} (hi : i < xp.nInodes) :
    blks xp d' i = blks xp d i ∧ inds xp d' i = inds xp d i :=
  used_congr (hbm.irec_eq hxp hi) fun _ ha =>
    hbm.data_eq hxp (hb.owned_pos (used_sub_owned hi (List.mem_append_right _ ha))).2

theorem irep (hxp : xp.Ok n) (hb : BRep xp d extra) {i : Nat} (hi : i < xp.nInodes) :
    BlockPtr.IrecRep d' (irec xp d' i) := by
  rw [hbm.irec_eq hxp hi]
  exact (hb.irep i hi).congr fun _ ha =>
    hbm.data_eq hxp (hb.owned_pos (used_sub_owned hi (List.mem_append_right _ ha))).2

end BitmapOnly

/-- Data blocks in a set change, and none of them is a node. -/
structure DataIn (xp : FsXparams) (S : Nat → Prop) (d d' : LDisk) : Prop where
  lt : ∀ a, S a → a < xp.dataSize
  notNode : ∀ a, S a → ∀ i, i < xp.nInodes → a ∉ inds xp d i
  frame : ∀ a, ¬ S a → d' a = d a
  mono : ∀ a, ¬ S a → d.plain a → d'.plain a

namespace DataIn

variable {S : Nat → Prop} (hw : DataIn xp S d d')
include hw

theorem irec_eq (hxp : xp.Ok n) {i : Nat} (hi : i < xp.nInodes) : irec xp d' i = irec xp d i :=
  irec_congr (fun a ha => hw.frame a fun h => hxp.not_inTable (hw.lt a h) ha) hi

theorem used_eq (hxp : xp.Ok n) {i : Nat} (hi : i < xp.nInodes) :
    blks xp d' i = blks xp d i ∧ inds xp d' i = inds xp d i :=
  used_congr (hw.irec_eq hxp hi) fun a ha => hw.frame a fun h => hw.notNode a h i hi ha

theorem freeOf_eq (hxp : xp.Ok n) (al : Bool) : freeOf xp d' al = freeOf xp d al :=
  BmapAlloc.freeList_congr fun a ha => hw.frame a fun h => hxp.not_inBalloc al (hw.lt a h) ha

theorem ialloc_eq (hxp : xp.Ok n) {a : Nat} (ha : xp.fsxpInodeAlloc.InBitmap a) : d' a = d a :=
  hw.frame a fun h => hxp.not_inIalloc (hw.lt a h) ha

theorem owned_eq (hxp : xp.Ok n) : owned xp d' = owned xp d :=
  List.flatMap_congr fun i hi => by
    have h := hw.used_eq hxp (List.mem_range.1 hi)
    rw [used, used, h.1, h.2]

theorem brep (hxp : xp.Ok n) (hb : BRep xp d extra) : BRep xp d' extra where
  own := by
    rw [hw.freeOf_eq hxp, hw.freeOf_eq hxp, hw.owned_eq hxp]
    exact hb.own
  irep i hi := by
    rw [hw.irec_eq hxp hi]
    exact (hb.irep i hi).congr fun a ha => hw.frame a fun h => hw.notNode a h i hi ha
  plain i hi a ha := by
    rw [(hw.used_eq hxp hi).2] at ha
    exact hw.mono a (fun h => hw.notNode a h i hi ha) (hb.plain i hi a ha)

theorem safe (hxp : xp.Ok n) (al : Bool) : Safe xp al d d' where
  free a ha := by rwa [hw.freeOf_eq hxp] at ha
  blk i hi off b hb := by
    rw [(hw.used_eq hxp hi).1] at hb
    exact .inl hb
  ind i hi b hb := by
    rw [(hw.used_eq hxp hi).2] at hb
    exact .inl hb

/-- A file without blocks in the set stays. -/
theorem file_eq_of_not_mem (hxp : xp.Ok n) {i : Nat} (hi : i < xp.nInodes) (hn : ∀ a ∈ blks xp d i, ¬ S a) :
    file xp d' i = file xp d i :=
  Fscq.file_eq (hw.irec_eq hxp hi) (hw.used_eq hxp hi).1 fun a ha => hw.frame a (hn a ha)

end DataIn

/-- One data block that is not a node changes. -/
structure DataOnly (xp : FsXparams) (bn : Nat) (d d' : LDisk) : Prop where
  lt : bn < xp.dataSize
  notNode : ∀ i, i < xp.nInodes → bn ∉ inds xp d i
  frame : ∀ a, a ≠ bn → d' a = d a
  mono : ∀ a, a ≠ bn → d.plain a → d'.plain a

namespace DataOnly

variable (hw : DataOnly xp bn d d')
include hw

theorem dataIn : DataIn xp (· = bn) d d' :=
  ⟨fun _ h => h ▸ hw.lt, fun _ h i hi => h ▸ hw.notNode i hi, hw.frame, hw.mono⟩

theorem irec_eq (hxp : xp.Ok n) {i : Nat} (hi : i < xp.nInodes) : irec xp d' i = irec xp d i := hw.dataIn.irec_eq hxp hi

theorem used_eq (hxp : xp.Ok n) {i : Nat} (hi : i < xp.nInodes) :
    blks xp d' i = blks xp d i ∧ inds xp d' i = inds xp d i := hw.dataIn.used_eq hxp hi

theorem freeOf_eq (hxp : xp.Ok n) (al : Bool) : freeOf xp d' al = freeOf xp d al := hw.dataIn.freeOf_eq hxp al

theorem ialloc_eq (hxp : xp.Ok n) {a : Nat} (ha : xp.fsxpInodeAlloc.InBitmap a) : d' a = d a := hw.dataIn.ialloc_eq hxp ha

theorem brep (hxp : xp.Ok n) (hb : BRep xp d extra) : BRep xp d' extra := hw.dataIn.brep hxp hb

theorem safe (hxp : xp.Ok n) (al : Bool) : Safe xp al d d' := hw.dataIn.safe hxp al

/-- A file that does not have the block stays. -/
theorem file_eq_of_not_mem (hxp : xp.Ok n) {i : Nat} (hi : i < xp.nInodes) (hn : bn ∉ blks xp d i) :
    file xp d' i = file xp d i := hw.dataIn.file_eq_of_not_mem hxp hi fun _ ha h => hn (h ▸ ha)

end DataOnly

/-- The blocks of files are not nodes. -/
theorem BRep.notNode (hb : BRep xp d extra) {i : Nat} (hi : i < xp.nInodes) (ha : bn ∈ blks xp d i) {j : Nat}
    (hj : j < xp.nInodes) : bn ∉ inds xp d j := fun h => by
  have hmem : bn ∈ used xp d i := List.mem_append_left _ ha
  obtain rfl := hb.used_disjoint hi hj hmem (List.mem_append_right _ h)
  exact (List.nodup_append.1 (hb.used_nodup hi)).2.2 bn ha bn h rfl

theorem BRep.blks_nodup (hb : BRep xp d extra) {i : Nat} (hi : i < xp.nInodes) : (blks xp d i).Nodup :=
  (List.nodup_append.1 (hb.used_nodup hi)).1

theorem BRep.not_mem_drop (hb : BRep xp d extra) (hi : inum < xp.nInodes) {k : Nat} (h : bn ∈ (blks xp d inum).take k) :
    bn ∉ (blks xp d inum).drop k := fun hd => by
  have hnd := hb.blks_nodup hi
  rw [← List.take_append_drop k (blks xp d inum)] at hnd
  exact (List.nodup_append.1 hnd).2.2 bn h bn hd rfl

theorem map_update_of_getElem? {l : List Nat} {off : Nat} {v : Valu} (hnd : l.Nodup) (ho : l[off]? = some bn)
    (hself : d' bn = v) (hframe : ∀ a, a ≠ bn → d' a = d a) : l.map d' = (l.map d).set off v := by
  obtain ⟨hlt, hbn⟩ := List.getElem?_eq_some_iff.1 ho
  refine List.ext_getElem (by simp) fun i h₁ h₂ => ?_
  rw [List.length_map] at h₁
  rw [List.getElem_map, List.getElem_set]
  by_cases hi : off = i
  · subst hi
    rw [if_pos rfl, hbn, hself]
  · rw [if_neg hi, List.getElem_map]
    refine hframe _ fun h => hi ?_
    exact (List.Nodup.getElem_inj_iff hnd).1 (hbn.trans h.symm)

/-- Writing block `off` of a file. -/
theorem fileStep_write (hxp : xp.Ok n) (hb : BRep xp d extra) (hi : inum < xp.nInodes) {off : Nat} {v : Valu}
    (ho : (blks xp d inum)[off]? = some bn) (hself : d' bn = v) (hframe : ∀ a, a ≠ bn → d' a = d a)
    (hmono : ∀ a, a ≠ bn → d.plain a → d'.plain a) :
    FileStep xp al inum ⟨(file xp d inum).data.set off v, (file xp d inum).attr⟩ d d' := by
  have hmem : bn ∈ blks xp d inum := List.mem_of_getElem? ho
  have hlt := (hb.owned_pos (used_sub_owned hi (List.mem_append_left _ hmem))).2
  have hw : DataOnly xp bn d d' := ⟨hlt, fun j hj => hb.notNode hi hmem hj, hframe, hmono⟩
  refine ⟨hw.brep hxp, ?_, fun i hi' hne => ⟨hw.file_eq_of_not_mem hxp hi' fun h => ?_, (hw.used_eq hxp hi').1⟩,
    fun a ha => hw.ialloc_eq hxp ha, hw.safe hxp al⟩
  · rw [file, attrs, hw.irec_eq hxp hi, (hw.used_eq hxp hi).1, map_update_of_getElem? (hb.blks_nodup hi) ho hself hframe]
    rfl
  · exact hne (hb.used_disjoint hi' hi (List.mem_append_left _ h) (List.mem_append_left _ hmem))

end Changes

/-! ## The caches -/

namespace BFILE

variable {xp : FsXparams} {n : Nat} {d d' : LDisk} {inum : Nat} {ms : Memstate} {extra : List Nat}

structure MsRep (xp : FsXparams) (d : LDisk) (ms : Memstate) : Prop where
  alloc : ∀ al, BmapAllocCache.CacheRep (xp.balloc al) d (pickBalloc ms.msAllocC al)
  ialloc : BmapAllocCache.CacheRep xp.fsxpInodeAlloc d ms.msIAllocC
  icache : IcacheRep xp d ms.msICache
  /-- Dirty blocks belong to their file. -/
  dirty : ∀ i, ∀ bn ∈ getDirty i ms.msDBlocks, i < xp.nInodes ∧ bn ∈ blks xp d i
  /-- Blocks that are not dirty have no older value. -/
  clean : ∀ i, i < xp.nInodes → ∀ bn ∈ blks xp d i, d.plain bn ∨ bn ∈ getDirty i ms.msDBlocks

theorem getDirty_empty (i : Nat) : getDirty i (∅ : DBlocksType) = ∅ := by simp [getDirty]

theorem msRep_empty (xp : FsXparams) {d : LDisk} (h : ∀ a, d.plain a) : MsRep xp d msEmpty where
  alloc al := by
    cases al <;> exact BmapAllocCache.cacheRep_freelist0 _ _
  ialloc := BmapAllocCache.cacheRep_freelist0 _ _
  icache := LogRecArrayCache.cacheRep_cache0 _ _ _
  dirty i bn h := by
    have hempty : getDirty i msEmpty.msDBlocks = ∅ := getDirty_empty i
    rw [hempty] at h
    exact absurd h Std.ExtTreeSet.not_mem_empty
  clean _ _ bn _ := .inl (h bn)

theorem cacheRep_of_freeOf {al : Bool} {c : BmapCacheType} (hc : BmapAllocCache.CacheRep (xp.balloc al) d c)
    (h : freeOf xp d' al = freeOf xp d al) : BmapAllocCache.CacheRep (xp.balloc al) d' c := fun l hl => by
  have hperm := hc l hl
  rw [freeOf, freeOf] at h
  rwa [h]

section Balloc

variable {A : Type} (p : A × A) (new : A) (flag : Bool)

@[simp] theorem pickBalloc_updBalloc_self : pickBalloc (updBalloc p new flag) flag = new := by cases flag <;> rfl

@[simp] theorem pickBalloc_updBalloc_not : pickBalloc (updBalloc p new flag) (!flag) = pickBalloc p (!flag) := by
  cases flag <;> rfl

end Balloc

/-- The caches of the allocators after one of them changed. -/
theorem allocC_updBalloc {b : Bool} {c : BmapCacheType} (hold : BmapAllocCache.CacheRep (xp.balloc !b) d' (pickBalloc ms.msAllocC !b))
    (hc : BmapAllocCache.CacheRep (xp.balloc b) d' c) (al : Bool) :
    BmapAllocCache.CacheRep (xp.balloc al) d' (pickBalloc (updBalloc ms.msAllocC c b) al) := by
  by_cases hal : al = b
  · rw [hal, pickBalloc_updBalloc_self]
    exact hc
  · rw [Bool.eq_not_of_ne hal, pickBalloc_updBalloc_not]
    exact hold

/-! ### Dirty sets -/

theorem mem_getDirty_putDirty {i bn b : Nat} {db : DBlocksType} :
    b ∈ getDirty i (putDirty inum bn db) ↔ (i = inum ∧ b = bn) ∨ b ∈ getDirty i db := by
  rw [getDirty, putDirty, Bufcache.getElem?_insert']
  by_cases hi : inum = i
  · subst hi
    rw [if_pos rfl, Option.getD_some, Std.ExtTreeSet.mem_insert, Nat.compare_eq_eq]
    constructor
    · rintro (h | h)
      · exact .inl ⟨rfl, h.symm⟩
      · exact .inr h
    · rintro (⟨_, h⟩ | h)
      · exact .inl h.symm
      · exact .inr h
  · rw [if_neg hi]
    constructor
    · exact fun h => .inr h
    · rintro (⟨h, _⟩ | h)
      · exact absurd h.symm hi
      · exact h

theorem mem_foldr_erase {b : Nat} {s : AddrSet} : ∀ {l : List Nat},
    b ∈ l.foldr (fun bn s => s.erase bn) s ↔ b ∉ l ∧ b ∈ s
  | [] => by simp
  | a :: l => by
    rw [List.foldr_cons, Std.ExtTreeSet.mem_erase, mem_foldr_erase, List.mem_cons, not_or, ne_eq, Nat.compare_eq_eq]
    constructor
    · rintro ⟨h₁, h₂, h₃⟩
      exact ⟨⟨fun h => h₁ h.symm, h₂⟩, h₃⟩
    · rintro ⟨⟨h₁, h₂⟩, h₃⟩
      exact ⟨fun h => h₁ h.symm, h₂, h₃⟩

theorem mem_getDirty_removeDirtyVec {i b : Nat} {l : List Nat} {db : DBlocksType} :
    b ∈ getDirty i (removeDirtyVec inum l db) ↔ (i = inum → b ∉ l) ∧ b ∈ getDirty i db := by
  rw [removeDirtyVec]
  cases hdb : db[inum]? with
  | none =>
    constructor
    · refine fun h => ⟨?_, h⟩
      rintro rfl
      rw [getDirty, hdb] at h
      exact absurd h Std.ExtTreeSet.not_mem_empty
    · exact fun h => h.2
  | some dirty =>
    simp only [getDirty, Bufcache.getElem?_insert']
    by_cases hi : inum = i
    · subst hi
      rw [if_pos rfl, Option.getD_some, mem_foldr_erase, hdb, Option.getD_some]
      simp
    · rw [if_neg hi]
      constructor
      · exact fun h => ⟨fun he => absurd he.symm hi, h⟩
      · exact fun h => h.2

theorem mem_getDirty_clearDirty {i b : Nat} {db : DBlocksType} :
    b ∈ getDirty i (clearDirty inum db) ↔ i ≠ inum ∧ b ∈ getDirty i db := by
  rw [getDirty, clearDirty, Bufcache.getElem?_erase']
  by_cases hi : inum = i
  · subst hi
    rw [if_pos rfl]
    constructor
    · exact fun h => absurd h Std.ExtTreeSet.not_mem_empty
    · exact fun h => absurd rfl h.1
  · rw [if_neg hi]
    constructor
    · exact fun h => ⟨fun he => hi he.symm, h⟩
    · exact fun h => h.2

/-! ## Reading -/

theorem MsRep.setIcache (hm : MsRep xp d ms) {ic : ICache} (hc : IcacheRep xp d ic) : MsRep xp d { ms with msICache := ic } :=
  ⟨hm.alloc, hm.ialloc, hc, hm.dirty, hm.clean⟩

/-- Only the inode cache changes. -/
def IcacheOnly (ms ms' : Memstate) : Prop := ∃ ic, ms' = { ms with msICache := ic }

@[simp] theorem length_file_data (xp : FsXparams) (d : LDisk) (i : Nat) :
    (file xp d i).data.length = (blks xp d i).length := by simp [file]

theorem getlen_spec (hxp : xp.Ok n) (hm : MsRep xp d ms) (hi : inum < xp.nInodes) :
    twp n (getlen xp inum ms) (fun r d' => d' = d ∧ r.2 = (file xp d inum).data.length ∧ IcacheOnly ms r.1 ∧
      MsRep xp d r.1) d :=
  twp_seq (INODE.getlen_spec hxp hm.icache hi) fun ⟨ic, _⟩ _ ⟨hd, hr, hc⟩ =>
    ⟨hd, by rw [length_file_data]; exact hr, ⟨ic, rfl⟩, hm.setIcache hc⟩

theorem getattrs_spec (hxp : xp.Ok n) (hm : MsRep xp d ms) (hi : inum < xp.nInodes) :
    twp n (getattrs xp inum ms) (fun r d' => d' = d ∧ r.2 = (file xp d inum).attr ∧ IcacheOnly ms r.1 ∧ MsRep xp d r.1) d :=
  twp_seq (INODE.getattrs_spec hxp hm.icache hi) fun ⟨ic, _⟩ _ ⟨hd, hr, hc⟩ => ⟨hd, hr, ⟨ic, rfl⟩, hm.setIcache hc⟩

theorem read_spec (hxp : xp.Ok n) (hb : BRep xp d extra) (hm : MsRep xp d ms) (hi : inum < xp.nInodes) {off : Nat}
    (hoff : off < (file xp d inum).data.length) :
    twp n (read xp inum off ms) (fun r d' => d' = d ∧ (file xp d inum).data[off]? = some r.2 ∧ IcacheOnly ms r.1 ∧
      MsRep xp d r.1) d := by
  rw [length_file_data] at hoff
  refine twp_seq (INODE.getbnum_spec hxp hm.icache (BRep.inodeRep hb hi) hoff) fun ⟨ic, bn⟩ d' ⟨hd, hbn, hc⟩ => ?_
  subst hd
  have hmem := List.mem_of_getElem? hbn
  have hlt := (hb.owned_pos (used_sub_owned hi (List.mem_append_left _ hmem))).2
  refine twp_bind _ (twp_readAt (hxp.data_lt hlt) ⟨rfl, ?_, ⟨ic, rfl⟩, hm.setIcache hc⟩)
  rw [file, List.getElem?_map, hbn]
  rfl

/-! ## Writing -/

/-- A block that is not dirty was a block of the same file before, and not dirty. -/
def CleanBefore (xp : FsXparams) (ms : Memstate) (d : LDisk) (ms' : Memstate) (d' : LDisk) : Prop :=
  ∀ i, i < xp.nInodes → ∀ bn ∈ blks xp d' i, bn ∉ getDirty i ms'.msDBlocks →
    bn ∈ blks xp d i ∧ bn ∉ getDirty i ms.msDBlocks

theorem CleanBefore.trans {ms₁ ms' : Memstate} {d₁ : LDisk} (h₁ : CleanBefore xp ms d ms₁ d₁)
    (h₂ : CleanBefore xp ms₁ d₁ ms' d') : CleanBefore xp ms d ms' d' := fun i hi bn hbn hnot =>
  have h := h₂ i hi bn hbn hnot
  h₁ i hi bn h.1 h.2

/-- Neither the blocks nor the dirty sets change. -/
theorem cleanBefore_of_eq {ms' : Memstate} (hblks : ∀ i, i < xp.nInodes → blks xp d' i = blks xp d i)
    (hdirty : ms'.msDBlocks = ms.msDBlocks) : CleanBefore xp ms d ms' d' := fun i hi bn hbn hnot => by
  rw [hblks i hi] at hbn
  rw [hdirty] at hnot
  exact ⟨hbn, hnot⟩

/-- The state that a program on the file `inum` leaves. -/
structure FileDone (xp : FsXparams) (inum : Nat) (f : File) (ms : Memstate) (d : LDisk) (ms' : Memstate) (d' : LDisk) :
    Prop extends FileStep xp ms.msAlloc inum f d d' where
  msrep : MsRep xp d' ms'
  alloc_eq : ms'.msAlloc = ms.msAlloc
  iallocC_eq : ms'.msIAllocC = ms.msIAllocC
  cache_eq : ms'.msCache = ms.msCache
  clean : CleanBefore xp ms d ms' d'

theorem FileDone.trans {f f₁ : File} {ms₁ ms' : Memstate} {d₁ : LDisk} (h₁ : FileDone xp inum f₁ ms d ms₁ d₁)
    (h₂ : FileDone xp inum f ms₁ d₁ ms' d') : FileDone xp inum f ms d ms' d' where
  toFileStep := h₁.toFileStep.trans (h₁.alloc_eq ▸ h₂.toFileStep)
  msrep := h₂.msrep
  alloc_eq := h₂.alloc_eq.trans h₁.alloc_eq
  iallocC_eq := h₂.iallocC_eq.trans h₁.iallocC_eq
  cache_eq := h₂.cache_eq.trans h₁.cache_eq
  clean := h₁.clean.trans h₂.clean

theorem fileStep_refl (al : Bool) : FileStep xp al inum (file xp d inum) d d :=
  ⟨id, rfl, fun _ _ _ => ⟨rfl, rfl⟩, fun _ _ => rfl, .refl xp al d⟩

theorem fileDone_icacheOnly {ms' : Memstate} (ho : IcacheOnly ms ms') (hm : MsRep xp d ms') :
    FileDone xp inum (file xp d inum) ms d ms' d := by
  obtain ⟨ic, rfl⟩ := ho
  exact { toFileStep := fileStep_refl _, msrep := hm, alloc_eq := rfl, iallocC_eq := rfl, cache_eq := rfl,
          clean := cleanBefore_of_eq (fun _ _ => rfl) rfl }

theorem write_spec (hxp : xp.Ok n) (hb : BRep xp d extra) (hm : MsRep xp d ms) (hi : inum < xp.nInodes) {off : Nat} {v : Valu}
    (hoff : off < (file xp d inum).data.length) :
    twp n (write xp inum off v ms) (fun ms' d' =>
      FileDone xp inum ⟨(file xp d inum).data.set off v, (file xp d inum).attr⟩ ms d ms' d' ∧
      (∀ i, i < xp.nInodes → blks xp d' i = blks xp d i)) d := by
  rw [length_file_data] at hoff
  refine twp_seq (INODE.getbnum_spec hxp hm.icache (BRep.inodeRep hb hi) hoff) fun ⟨ic, bn⟩ d' ⟨hd, hbn, hc⟩ => ?_
  subst hd
  have hmem := List.mem_of_getElem? hbn
  obtain ⟨hne, hlt⟩ := hb.owned_pos (used_sub_owned hi (List.mem_append_left _ hmem))
  refine twp_bind _ (twp_writeAt (hxp.data_lt hlt) hne ?_)
  have hframe : ∀ a, a ≠ bn.toNat → d'.set bn.toNat v a = d' a := fun a ha => Disk.set_of_ne ha _ _
  have hmono : ∀ a, d'.plain a → (d'.set bn.toNat v).plain a := fun _ ha => .inr ha
  have hw : DataOnly xp bn.toNat d' (d'.set bn.toNat v) :=
    ⟨hlt, fun j hj => hb.notNode hi hmem hj, hframe, fun a _ => hmono a⟩
  refine ⟨{ toFileStep := fileStep_write hxp hb hi hbn (Disk.set_self _ _ _) hframe fun a _ => hmono a, msrep := ?_, alloc_eq := rfl,
            iallocC_eq := rfl, cache_eq := rfl, clean := cleanBefore_of_eq (fun _ hi' => (hw.used_eq hxp hi').1) rfl },
    fun i hi' => (hw.used_eq hxp hi').1⟩
  refine ⟨fun al => (hm.alloc al).congr fun a ha => hframe a ?_, hm.ialloc.congr fun a ha => hw.ialloc_eq hxp ha,
    hc.congr_table fun a ha => hframe a ?_, fun i b hdirty => ?_, fun i hi' b hb' => ?_⟩
  · rintro rfl
    exact hxp.not_inBalloc al hlt ha
  · rintro rfl
    exact hxp.not_inTable hlt ha
  · obtain ⟨hi', hb'⟩ := hm.dirty i b hdirty
    exact ⟨hi', by rw [(hw.used_eq hxp hi').1]; exact hb'⟩
  · rw [(hw.used_eq hxp hi').1] at hb'
    exact (hm.clean i hi' b hb').imp (hmono b) id

/-! ## Attributes -/

/-- The other files, when only the inode `inum` changes. -/
theorem FileChange.fileStep {al b : Bool} {f : File} (hch : FileChange xp b inum d d') (hxp : xp.Ok n)
    (hb : BRep xp d extra) (hi : inum < xp.nInodes) (hb' : ∀ {extra}, BRep xp d extra → BRep xp d' extra) (hself : file xp d' inum = f)
    (hsafe : Safe xp al d d') : FileStep xp al inum f d d' where
  brep := hb'
  self := hself
  other i hi' hne := by
    have hu := hch.used_other hxp hb hi hi' hne
    exact ⟨file_eq (hch.other i hi' hne) hu.1 fun a ha => hch.blks_data hxp hb hi hi' ha, hu.1⟩
  ialloc a ha := hch.ialloc_eq hxp hb hi ha
  safe := hsafe

theorem putAttrs_done {a : Iattr} {ic : ICache} (hxp : xp.Ok n) (hb : BRep xp d extra) (hm : MsRep xp d ms)
    (hi : inum < xp.nInodes) (hs : InodeStep xp ms.msAlloc inum d d') (hblks : blks xp d' inum = blks xp d inum)
    (hinds : inds xp d' inum = inds xp d inum) (hattrs : attrs xp d' inum = a) (hframe : ∀ a, ¬ xp.InTable a → d' a = d a)
    (hc : IcacheRep xp d' ic) :
    FileDone xp inum ⟨(file xp d inum).data, a⟩ ms d { ms with msICache := ic } d' := by
  have hch := hs.toFileChange
  have hfree : ∀ al, freeOf xp d' al = freeOf xp d al := fun al =>
    BmapAlloc.freeList_congr fun b hb => hframe b fun h => hxp.table_not_inBalloc al h hb
  have hblks' : ∀ i, i < xp.nInodes → blks xp d' i = blks xp d i := fun i hi' => by
    by_cases hne : i = inum
    · rw [hne, hblks]
    · exact (hch.used_other hxp hb hi hi' hne).1
  have hb' : ∀ {extra}, BRep xp d extra → BRep xp d' extra := fun hb =>
    hch.brep hxp hb hi (by rw [used, used, hblks, hinds, hfree]) hs.irep hs.new
  have hself : file xp d' inum = ⟨(file xp d inum).data, a⟩ := by
    rw [file, hblks, hattrs, List.map_congr_left fun b hb' => hch.blks_data hxp hb hi hi hb']
    rfl
  have hinds' : ∀ i, i < xp.nInodes → inds xp d' i = inds xp d i := fun i hi' => by
    by_cases hne : i = inum
    · rw [hne, hinds]
    · exact (hch.used_other hxp hb hi hi' hne).2
  have hsafe : Safe xp ms.msAlloc d d' := by
    refine ⟨fun b hb => by rwa [hfree] at hb, fun i hi' off b hbn => .inl ?_, fun i hi' b hbn => .inl ?_⟩
    · rwa [hblks' i hi'] at hbn
    · rwa [hinds' i hi'] at hbn
  refine { toFileStep := FileChange.fileStep hch hxp hb hi hb' hself hsafe, msrep := ?_, alloc_eq := rfl, iallocC_eq := rfl,
           cache_eq := rfl, clean := cleanBefore_of_eq hblks' rfl }
  refine ⟨fun al => (hm.alloc al).congr fun b hb => hframe b fun h => hxp.table_not_inBalloc al h hb,
    hm.ialloc.congr fun b hb => hframe b (hxp.ialloc_not_inTable hb), hc, fun i b hdirty => ?_, fun i hi' b hb' => ?_⟩
  · obtain ⟨hi', hb'⟩ := hm.dirty i b hdirty
    exact ⟨hi', by rw [hblks' i hi']; exact hb'⟩
  · rw [hblks' i hi'] at hb'
    exact (hm.clean i hi' b hb').imp (hch.mono b) id

/-- The caches after a write are right for the disk before it, too. -/
theorem write_caches (hxp : xp.Ok n) (hb : BRep xp d extra) (hm : MsRep xp d ms) (hi : inum < xp.nInodes) {off : Nat} {v : Valu}
    (hoff : off < (file xp d inum).data.length) :
    twp n (write xp inum off v ms) (fun ms' _ => IcacheOnly ms ms' ∧ MsRep xp d ms') d := by
  rw [length_file_data] at hoff
  refine twp_seq (INODE.getbnum_spec hxp hm.icache (BRep.inodeRep hb hi) hoff) fun ⟨ic, bn⟩ d' ⟨hd, hbn, hc⟩ => ?_
  subst hd
  obtain ⟨hne, hlt⟩ := hb.owned_pos (used_sub_owned hi (List.mem_append_left _ (List.mem_of_getElem? hbn)))
  exact twp_bind _ (twp_writeAt (hxp.data_lt hlt) hne ⟨⟨ic, rfl⟩, hm.setIcache hc⟩)

theorem setattrs_spec (hxp : xp.Ok n) (hb : BRep xp d extra) (hm : MsRep xp d ms) (hi : inum < xp.nInodes) (a : Iattr) :
    twp n (setattrs xp inum a ms) (fun ms' d' => FileDone xp inum ⟨(file xp d inum).data, a⟩ ms d ms' d') d :=
  twp_seq (INODE.setattrs_spec hxp ms.msAlloc hm.icache (BRep.inodeRep hb hi) a)
    fun _ _ ⟨hs, hblks, hinds, hattrs, hframe, hc⟩ => putAttrs_done hxp hb hm hi hs hblks hinds hattrs hframe hc

theorem updattr_spec (hxp : xp.Ok n) (hb : BRep xp d extra) (hm : MsRep xp d ms) (hi : inum < xp.nInodes) (kv : IattrupdArg) :
    twp n (updattr xp inum kv ms)
      (fun ms' d' => FileDone xp inum ⟨(file xp d inum).data, iattrUpd (file xp d inum).attr kv⟩ ms d ms' d') d :=
  twp_seq (INODE.updattr_spec hxp ms.msAlloc hm.icache (BRep.inodeRep hb hi) kv)
    fun _ _ ⟨hs, hblks, hinds, hattrs, hframe, hc⟩ => putAttrs_done hxp hb hm hi hs hblks hinds hattrs hframe hc

end BFILE

end Fscq
