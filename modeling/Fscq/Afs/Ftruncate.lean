import Fscq.Fs.CacheFrame
import Fscq.Afs.Mkfs
import Fscq.Txn.Finishes
import Fscq.Txn.Stale
import Fscq.Rec.Bytes

/-!
# Truncating to a number of bytes

`ftruncate` computes the number of blocks with the size of a block in bits, and it stores the new size with the state of
the log from before `truncate`: what `truncate` wrote is not in the transaction that commits, only its caches and the
record of the inode survive. `Truncated` is what the call is for, and `TruncateOk` is when it does this
(`ftruncate_bytes_iff`).
-/

namespace Fscq

open TxnLogic CrashLogic LogReplay INODE
open MLog (MCrash)

/-! ## What truncating does -/

namespace BFILE

variable {xp : FsXparams} {n inum B : Nat} {d : LDisk} {ms : Memstate}

theorem grown_frame (l : List Valu) (hin : ms.msICache[inum]? ≠ none) : Always (fun r => Frame inum ms r.1 ∧
    (l ≠ [] → r.2 = .ok () → Loaded true (pickBalloc r.1.msAllocC ms.msAlloc))) (grown xp inum l ms) := by
  cases l with
  | nil => exact ⟨⟨rfl, rfl, hin, fun _ _ => rfl⟩, fun h => absurd rfl h⟩
  | cons v l =>
    have hall : Always (fun r => Frame inum ms r.1 ∧ (r.2 = .ok () → Loaded true (pickBalloc r.1.msAllocC ms.msAlloc)))
        (grown xp inum (v :: l) ms) := by
      refine always_seq (@grow_frame xp inum ms v) fun r hr => always_forN ?_ l.length 1 hr
      rintro i ⟨ms₁, r⟩ ⟨hf, hl⟩
      cases r with
      | error e => exact ⟨hf, fun h => by cases h⟩
      | ok _ =>
        refine always_mono (fun r hr => ⟨hf.trans hr.1, ?_⟩) (grow_frame ((v :: l).getD i 0))
        rw [← hf.alloc]
        exact hr.2
    exact always_mono (fun r h => ⟨h.1, fun _ => h.2⟩) hall

/-- What `truncate` to `B` blocks does to the disk, and to every cache. -/
structure Truncates (xp : FsXparams) (inum B : Nat) (ms : Memstate) (d : LDisk) (ms' : Memstate) (d' : LDisk) : Prop where
  done : FileDone xp inum ⟨resize (file xp d inum).data B, (file xp d inum).attr⟩ ms d ms' d'
  frame : Frame inum ms ms'
  blks_eq : B ≤ (blks xp d inum).length → blks xp d' inum = (blks xp d inum).take B
  dirty_iff : B ≤ (blks xp d inum).length → ∀ i bn, bn ∈ getDirty i ms'.msDBlocks ↔
    (i = inum → bn ∉ (blks xp d inum).drop B) ∧ bn ∈ getDirty i ms.msDBlocks
  allocC_eq : B ≤ (blks xp d inum).length → pickBalloc ms'.msAllocC ms.msAlloc = pickBalloc ms.msAllocC ms.msAlloc
  freed : B ≤ (blks xp d inum).length →
    Loaded (pickBalloc ms.msAllocC !ms.msAlloc).isSome (pickBalloc ms'.msAllocC !ms.msAlloc)
  same : B = (blks xp d inum).length → ms'.msAllocC = ms.msAllocC
  grew : (blks xp d inum).length < B → Loaded true (pickBalloc ms'.msAllocC ms.msAlloc)

theorem truncate_truncates (hxp : xp.Ok n) (hb : BRep xp d []) (hm : MsRep xp d ms) (hi : inum < xp.nInodes) (B : Nat) :
    twp n (truncate xp inum B ms) (fun r d' => r.2 = .ok () → Truncates xp inum B ms d r.1 d') d := by
  refine twp_seq (twp_always (getlen_spec hxp hm hi) getlen_frame) ?_
  rintro ⟨ms₀, sz⟩ d₀ ⟨⟨hd, hsz, hic, hm₀⟩, hf, hac⟩
  subst hd
  have hdone₀ : FileDone xp inum (file xp d₀ inum) ms d₀ ms₀ d₀ := fileDone_icacheOnly hic hm₀
  obtain ⟨ic, rfl⟩ := hic
  have hlen := length_file_data xp d₀ inum
  rw [show (file xp d₀ inum).data.length = sz from hsz.symm] at hlen
  by_cases hlt : B < sz
  · simp only [if_pos hlt]
    refine twp_seq (twp_always (shrink_spec hxp hb hm₀ hi (sz - B)) (shrink_frame (sz - B) rfl)) ?_
    rintro ms₁ d₁ ⟨hdone, hf₁, hload, hsame⟩ _
    have hk : (file xp d₀ inum).data.length - (sz - B) = B := by rw [length_file_data]; omega
    rw [hk] at hdone
    refine ⟨?_, hf.trans hf₁, fun _ => hdone.blks_eq, fun _ => hdone.dirty_iff, fun _ => hsame, fun _ => hload,
      fun h => ?_, fun h => ?_⟩
    · rw [resize_of_le (by rw [length_file_data]; omega)]
      exact hdone₀.trans hdone.toFileDone
    · omega
    · omega
  · simp only [if_neg hlt]
    have hgrown := twp_always (grown_spec hxp hb hm₀ hi (List.replicate (B - sz) 0))
      (@grown_frame xp inum _ (List.replicate (B - sz) 0) hf.icache.self)
    by_cases heq : B = sz
    · have hnil : List.replicate (B - sz) (0 : Valu) = [] := by rw [heq, Nat.sub_self, List.replicate_zero]
      have htake : resize (file xp d₀ inum).data B = (file xp d₀ inum).data := by
        rw [resize, List.take_of_length_le (by rw [length_file_data]; omega), length_file_data, ← hlen, hnil, List.append_nil]
      rw [hnil]
      refine fun _ => ⟨?_, hf, fun _ => ?_, fun _ i bn => ?_, fun _ => rfl, fun _ => rfl, fun _ => rfl, fun h => ?_⟩
      · rw [htake]
        exact hdone₀
      · rw [List.take_of_length_le (by omega)]
      · rw [List.drop_of_length_le (by omega)]
        simp
      · omega
    · refine twp_mono ?_ _ hgrown
      rintro r d₁ ⟨hdone, hf₁, hload⟩ hok
      have hne : List.replicate (B - sz) (0 : Valu) ≠ [] := by
        intro h
        rw [List.replicate_eq_nil_iff] at h
        omega
      have hsize : resize (file xp d₀ inum).data B = (file xp d₀ inum).data ++ List.replicate (B - sz) 0 := by
        rw [resize, List.take_of_length_le (by rw [length_file_data]; omega), length_file_data, ← hlen]
      refine ⟨?_, hf.trans hf₁, fun h => ?_, fun h => ?_, fun h => ?_, fun h => ?_, fun h => ?_, fun _ => hload hne hok⟩
      · rw [hsize]
        exact hdone₀.trans (hdone.ok hok).toFileDone
      all_goals omega

end BFILE

/-! ## The purpose, and when it is met -/

/-- The file has the blocks for `sz` bytes: the first ones stay and what is added is zero. Its size is `sz`, the other
files stay, and the caches agree with the disk. -/
structure Truncated (xp : FsXparams) (inum sz : Nat) (d d' : LDisk) (ms' : BFILE.Memstate) : Prop where
  data : (file xp d' inum).data = BFILE.resize (file xp d inum).data (divup sz valubytes)
  size : (ABytes (file xp d' inum).attr).toNat = sz
  other : ∀ i, i < xp.nInodes → i ≠ inum → file xp d' i = file xp d i
  caches : BFILE.MsRep xp d' ms'

/-- At most one block is asked for, and the file has that many blocks already, or it has more and the free list that they
go to is not in memory. -/
def TruncateOk (xp : FsXparams) (inum sz : Nat) (d : LDisk) (ms : BFILE.Memstate) : Prop :=
  sz ≤ valubytes ∧ ((file xp d inum).data.length = divup sz valubytes ∨
    divup sz valubytes < (file xp d inum).data.length ∧ BFILE.pickBalloc ms.msAllocC (!ms.msAlloc) = none)

/-- The number of blocks that is asked for is right for at most one block. -/
theorem divup_valulen_iff (sz : Nat) : divup sz valulen = divup sz valubytes ↔ sz ≤ valubytes := by
  simp only [divup, valubytes, valulen]
  omega

section TruncateOk

variable {xp : FsXparams} {inum sz : Nat} {d : LDisk} {ms : BFILE.Memstate} (hok : TruncateOk xp inum sz d ms)
include hok

theorem TruncateOk.blocks : (blks xp d inum).length = divup sz valulen ∨
    divup sz valulen < (blks xp d inum).length ∧ BFILE.pickBalloc ms.msAllocC (!ms.msAlloc) = none := by
  obtain ⟨hsz, hcase⟩ := hok
  rwa [← (divup_valulen_iff sz).mpr hsz, BFILE.length_file_data] at hcase

theorem TruncateOk.le : divup sz valulen ≤ (blks xp d inum).length := by
  rcases hok.blocks with h | ⟨h, _⟩
  · omega
  · omega

theorem TruncateOk.direct : divup sz valulen ≤ NDirect := by
  have hsz := hok.1
  show (sz + 32768 - 1) / 32768 ≤ 7
  simp only [valubytes, valulen] at hsz
  omega

end TruncateOk

/-- A record with direct blocks only has these on every disk. -/
theorem blockList_direct {x : Irec} (h : irLen x ≤ NDirect) (d d' : LDisk) :
    BlockPtr.blockList d' x = BlockPtr.blockList d x := by
  refine List.map_congr_left fun off hoff => ?_
  have hlt : off < NDirect := by have := List.mem_range.mp hoff; omega
  rw [BlockPtr.slot, BlockPtr.slot, if_pos hlt, if_pos hlt]

/-- The record of the truncated file with the new size goes to the disk from before. -/
structure SizeStored (xp : FsXparams) (inum sz : Nat) (ms₁ : BFILE.Memstate) (d₁ d : LDisk) (x : Irec) (ms' : BFILE.Memstate)
    (d' : LDisk) : Prop where
  record : x = setAttrs (irec xp d₁ inum) (iattrUpd (attrs xp d₁ inum) (.UBytes (BitVec.ofNat 64 sz)))
  put : RecordPut xp inum x d d'
  mem : ms' = { ms₁ with msICache := ms₁.msICache.insert inum x }

section Exact

open BFILE (Truncates MsRep Memstate FileDone)

variable {xp : FsXparams} {n inum sz : Nat} {d d₁ d' : LDisk} {ms ms₁ ms' : Memstate} {x : Irec}

/-- A block that a file had and has no longer is free in the other allocator. -/
theorem FileStep.freed {al : Bool} {f : File} {bn : Nat} (hs : FileStep xp al inum f d d₁) (hb : BRep xp d [])
    (hi : inum < xp.nInodes) (hold : bn ∈ blks xp d inum) (hnew : bn ∉ blks xp d₁ inum) : bn ∈ freeOf xp d₁ (!al) := by
  have hown : bn ∈ owned xp d := used_sub_owned hi (List.mem_append_left _ hold)
  have hnot := hb.not_free al (.inr hown)
  obtain ⟨h0, hlt⟩ := hb.owned_pos hown
  have hnotOwned : bn ∉ owned xp d₁ := fun h => by
    obtain ⟨j, hj, hused⟩ := List.mem_flatMap.mp h
    have hjlt := List.mem_range.mp hj
    rcases List.mem_append.mp hused with hblk | hind
    · obtain ⟨off, hoff⟩ := List.mem_iff_getElem?.mp hblk
      have hmem := List.mem_of_getElem? ((hs.safe.blk j hjlt off bn hoff).resolve_right hnot)
      obtain rfl := hb.used_disjoint hjlt hi (List.mem_append_left _ hmem) (List.mem_append_left _ hold)
      exact hnew hblk
    · exact hb.notNode hi hold hjlt ((hs.safe.ind j hjlt bn hind).resolve_right hnot)
  have hsel : bn ∉ freeOf xp d₁ al := fun h => hnot (hs.safe.free bn h)
  rcases ((hs.brep hb).mem_iff bn).mpr ⟨Nat.pos_of_ne_zero h0, hlt⟩ with h | h | h | h
  · cases al with
    | true => exact absurd h hsel
    | false => exact h
  · cases al with
    | true => exact h
    | false => exact absurd h hsel
  · cases h
  · exact absurd h hnotOwned

/-- The free list in memory is that of one disk only. -/
theorem loaded_free {al : Bool} {c : BmapCacheType} (hl : Loaded true c) (hc₁ : BmapAllocCache.CacheRep (xp.balloc al) d₁ c)
    (hc : BmapAllocCache.CacheRep (xp.balloc al) d c) (bn : Nat) : bn ∈ freeOf xp d₁ al ↔ bn ∈ freeOf xp d al := by
  obtain ⟨l, rfl⟩ := Option.isSome_iff_exists.mp hl
  exact (hc₁ l rfl).mem_iff.symm.trans (hc l rfl).mem_iff

section Stored

variable (ht : Truncates xp inum (divup sz valulen) ms d ms₁ d₁) (hp : SizeStored xp inum sz ms₁ d₁ d x ms' d')
include ht hp

theorem SizeStored.length : (file xp d' inum).data.length = divup sz valulen := by
  have hlen : irLen x = irLen (irec xp d₁ inum) := by rw [hp.record]; rfl
  rw [BFILE.length_file_data, length_blks, hp.put.self, hlen, ← length_blks, ← BFILE.length_file_data, ht.done.self,
    BFILE.length_resize]

variable (hxp : xp.Ok n) (hb : BRep xp d []) (hi : inum < xp.nInodes)
include hxp hb hi

omit hxp hp in
/-- The caches of the truncated file agree with the disk from before only under the condition. -/
theorem SizeStored.truncateOk (hlen : divup sz valubytes = divup sz valulen)
    (hcaches : ∀ al, BmapAllocCache.CacheRep (xp.balloc al) d (BFILE.pickBalloc ms₁.msAllocC al)) :
    TruncateOk xp inum sz d ms := by
  have hsz : sz ≤ valubytes := (divup_valulen_iff sz).mp hlen.symm
  refine ⟨hsz, ?_⟩
  rw [hlen, BFILE.length_file_data]
  have hlen₁ : (blks xp d₁ inum).length = divup sz valulen := by
    rw [← BFILE.length_file_data, ht.done.self, BFILE.length_resize]
  rcases Nat.lt_trichotomy (blks xp d inum).length (divup sz valulen) with hlt | heq | hgt
  · -- the block that was added is still free on the disk, but not in memory
    exfalso
    obtain ⟨bn, hbn⟩ : ∃ bn, (blks xp d₁ inum)[(blks xp d inum).length]? = some bn :=
      ⟨_, List.getElem?_eq_getElem (by omega)⟩
    have hfree : bn ∈ freeOf xp d ms.msAlloc := by
      refine (ht.done.safe.blk inum hi _ bn hbn).resolve_left fun h => ?_
      rw [List.getElem?_eq_none (Nat.le_refl _)] at h
      cases h
    have hfree₁ := (loaded_free (ht.grew hlt) (ht.done.msrep.alloc _) (hcaches _) bn).mpr hfree
    have hown : bn ∈ owned xp d₁ := used_sub_owned hi (List.mem_append_left _ (List.mem_of_getElem? hbn))
    exact (ht.done.brep hb).not_free _ (.inr hown) hfree₁
  · exact .inl heq
  · refine .inr ⟨hgt, ?_⟩
    -- the blocks that were freed are free in memory, but not on the disk
    by_contra hne
    have hload := ht.freed (Nat.le_of_lt hgt)
    rw [Option.isSome_iff_ne_none.mpr hne] at hload
    obtain ⟨bn, hbn⟩ : ∃ bn, (blks xp d inum)[divup sz valulen]? = some bn := ⟨_, List.getElem?_eq_getElem hgt⟩
    have hmem := List.mem_of_getElem? hbn
    have hnew : bn ∉ blks xp d₁ inum := fun h => by
      rw [ht.blks_eq (Nat.le_of_lt hgt)] at h
      obtain ⟨j, hj, hjeq⟩ := List.mem_take_iff_getElem.mp h
      obtain ⟨_, hat⟩ := List.getElem?_eq_some_iff.mp hbn
      have := (List.Nodup.getElem_inj_iff (hb.blks_nodup hi)).mp (hjeq.trans hat.symm)
      omega
    have hfree₁ := FileStep.freed ht.done.toFileStep hb hi hmem hnew
    have hfree := (loaded_free hload (ht.done.msrep.alloc _) (hcaches _) bn).mp hfree₁
    exact hb.not_free _ (.inr (used_sub_owned hi (List.mem_append_left _ hmem))) hfree

omit ht hi in
/-- The files of the other inodes, and which blocks they have. -/
theorem SizeStored.other {i : Nat} (hi' : i < xp.nInodes) (hne : i ≠ inum) :
    file xp d' i = file xp d i ∧ blks xp d' i = blks xp d i := by
  have hrec := hp.put.other i hne
  have hused := used_congr hrec fun a ha =>
    hp.put.data_eq hxp (hb.owned_pos (used_sub_owned hi' (List.mem_append_right _ ha))).2
  refine ⟨file_eq hrec hused.1 fun a ha => hp.put.data_eq hxp ?_, hused.1⟩
  exact (hb.owned_pos (used_sub_owned hi' (List.mem_append_left _ ha))).2

variable (hm : MsRep xp d ms) (hok : TruncateOk xp inum sz d ms)
include hok

omit hxp hb hi in
/-- With at most one block the record alone says which blocks the file has. -/
theorem SizeStored.blks_eq : blks xp d' inum = (blks xp d inum).take (divup sz valulen) := by
  have hle := hok.le
  have hdirect : irLen (irec xp d₁ inum) ≤ NDirect := by
    rw [← length_blks, ht.blks_eq hle, List.length_take, Nat.min_eq_left hle]
    exact hok.direct
  have hlist : BlockPtr.blockList d' x = BlockPtr.blockList d₁ (irec xp d₁ inum) := by
    rw [hp.record]
    exact blockList_direct hdirect d₁ d'
  rw [blks, hp.put.self, hlist]
  exact ht.blks_eq hle

include hm

theorem SizeStored.msRep : MsRep xp d' ms' := by
  have hblks := hp.blks_eq ht hok
  have hother := fun i => hp.other hxp hb (i := i)
  have hle := hok.le
  rw [hp.mem]
  refine ⟨fun al => BFILE.cacheRep_of_freeOf ?_ (hp.put.freeOf_eq hxp al), ?_, ?_, fun i bn hbn => ?_, fun i hi' bn hbn => ?_⟩
  · by_cases hal : al = ms.msAlloc
    · subst hal
      have hsame := ht.allocC_eq hle
      simp only at hsame ⊢
      rw [hsame]
      exact hm.alloc _
    · have hal' : al = !ms.msAlloc := by cases al <;> cases hms : ms.msAlloc <;> simp_all
      subst hal'
      rcases hok.blocks with heq | ⟨_, hnone⟩
      · simp only [ht.same heq.symm]
        exact hm.alloc _
      · have hfreed := ht.freed hle
        rw [hnone] at hfreed
        intro l hl
        simp only at hl
        rw [hl] at hfreed
        cases hfreed
  · simp only [ht.frame.ialloc]
    exact hm.ialloc.congr fun a ha => hp.put.frame a (hxp.ialloc_not_inTable ha)
  · refine LogRecArrayCache.CacheRep.insert (fun j y hj hy => ?_) hi hp.put.self.symm
    rw [ht.frame.icache.other j hj] at hy
    obtain ⟨hlt, hrec⟩ := hm.icache j y hy
    exact ⟨hlt, hrec.trans (hp.put.other j hj).symm⟩
  · obtain ⟨hnot, hold⟩ := (ht.dirty_iff hle i bn).mp hbn
    obtain ⟨hi', hmem⟩ := hm.dirty i bn hold
    refine ⟨hi', ?_⟩
    by_cases hne : i = inum
    · subst hne
      rw [hblks]
      rw [← List.take_append_drop (divup sz valulen) (blks xp d i), List.mem_append] at hmem
      exact hmem.resolve_right (hnot rfl)
    · rw [(hother i hi' hne).2]
      exact hmem
  · by_cases hne : i = inum
    · subst hne
      rw [hblks] at hbn
      refine (hm.clean i hi' bn (List.mem_of_mem_take hbn)).imp (hp.put.mono bn)
        fun h => (ht.dirty_iff hle i bn).mpr ⟨fun _ hdrop => ?_, h⟩
      have hnd := hb.blks_nodup hi
      rw [← List.take_append_drop (divup sz valulen) (blks xp d i)] at hnd
      exact (List.nodup_append.1 hnd).2.2 bn hbn bn hdrop rfl
    · rw [(hother i hi' hne).2] at hbn
      exact (hm.clean i hi' bn hbn).imp (hp.put.mono bn) fun h => (ht.dirty_iff hle i bn).mpr ⟨fun h => absurd h hne, h⟩

theorem SizeStored.truncated : Truncated xp inum sz d d' ms' := by
  have hblks := hp.blks_eq ht hok
  refine ⟨?_, ?_, fun i hi' hne => (hp.other hxp hb hi' hne).1, hp.msRep ht hxp hb hi hm hok⟩
  · have hle : divup sz valulen - (file xp d inum).data.length = 0 := by
      rw [BFILE.length_file_data]
      exact Nat.sub_eq_zero_of_le hok.le
    rw [← (divup_valulen_iff sz).mpr hok.1, BFILE.resize, hle, List.replicate_zero, List.append_nil, file, hblks, file, ← List.map_take]
    refine List.map_congr_left fun a ha => hp.put.data_eq hxp ?_
    exact (hb.owned_pos (used_sub_owned hi (List.mem_append_left _ (List.mem_of_mem_take ha)))).2
  · have hattr : (file xp d' inum).attr = iattrUpd (attrs xp d₁ inum) (.UBytes (BitVec.ofNat 64 sz)) := by
      rw [file, attrs, hp.put.self, hp.record]
      rfl
    have hsz := hok.1
    rw [hattr]
    show sz % 2 ^ 64 = sz
    simp only [valubytes, valulen] at hsz
    omega

end Stored

end Exact

/-! ## The call -/

namespace AFS

open LOG (LRep setCur)
open LogState (settled_refl)
open BFILE (Truncates)

variable {h : HashKey → HashVal} {xp : FsXparams} {n inum sz : Nat} {st : LogState} {ams : Memstate} {s : St Valu HashKey}
  {T : FsTree}

/-- The record that `updattr` finds in the cache is the one that `truncate` left. -/
theorem sizeStored_spec {ms₁ : BFILE.Memstate} {d d₁ : LDisk} (hxp : xp.Ok n) (hb : BRep xp d []) (hi : inum < xp.nInodes)
    (ht : Truncates xp inum (divup sz valulen) ams.fms d ms₁ d₁) :
    twp n (BFILE.updattr xp inum (.UBytes (BitVec.ofNat 64 sz)) ms₁)
      (fun ms' d' => ∃ x, SizeStored xp inum sz ms₁ d₁ d x ms' d') d := by
  obtain ⟨x, hx⟩ := Option.ne_none_iff_exists'.mp ht.frame.icache.self
  have hrec := (ht.done.msrep.icache inum x hx).2
  have hblocks : (irBlocks x).length = NDirect := by
    rw [hrec]
    exact ((ht.done.brep hb).irep inum hi).blocks
  refine twp_seq (INODE.updattr_cached hxp hi hx hblocks _) fun ic d' ⟨hput, hic⟩ => ⟨_, ?_, hput, ?_⟩
  · rw [hrec]
    rfl
  · rw [hic]

/-- The call fails only as `truncate` does, or if the transaction is too large for the log. -/
theorem ftruncate_spec (hl : FsLayout xp n) (fl : Bool) (hm : Mounted h xp n st T ams s) (hi : inum < xp.nInodes) (sz : Nat)
    {P : Except Errno Unit → Prop}
    (hP : twp n (BFILE.truncate xp inum (divup sz valulen) ams.fms) (fun r _ => P r.2) (ldisk st.newest)) :
    wp h (ftruncate fl xp inum sz ams) (fun r s' => (∀ e, r.2 = .error e → Unchanged h xp n st ams r.1 s' ∧
        (P (.error e) ∨ xp.fsxpLog.logLen < n)) ∧
      (r.2 = .ok () → ∃ st' ms₁ d₁ x, LRep h xp.fsxpLog n st' r.1.msLL s' ∧ st'.cur = vmap0 ∧
        Truncates xp inum (divup sz valulen) ams.fms (ldisk st.newest) ms₁ d₁ ∧
        SizeStored xp inum sz ms₁ d₁ (ldisk st.newest) x r.1.fms (ldisk st'.newest))) (fun _ => True) s := by
  obtain ⟨hb, hms⟩ := TreeRep.brep hm.tree
  have htrunc := twp_and (BFILE.truncate_truncates hl.ok hb hms hi (divup sz valulen)) hP
  rw [← LogState.view_of_idle hm.idle] at htrunc
  refine LOG.wp_begin (wp_seq (LOG.exec_stale hl.log hm.log htrunc) (fun _ _ => trivial)
    fun ⟨ms₁, fms₁, r⟩ s₁ ⟨hold, cur, hr₁, hT, hPr⟩ => ?_)
  cases r with
  | error e =>
    refine ⟨fun e' he => ⟨⟨⟨st, hr₁.setIdle hm.idle, settled_refl hm.idle⟩, rfl⟩, .inl ?_⟩, fun h => nomatch h⟩
    cases he
    exact hPr
  | ok _ =>
    have ht := hT rfl
    rw [LogState.view_of_idle hm.idle] at ht
    -- the size is stored with the memory state from before
    refine wp_seq (LOG.exec_idle hl.log hold hm.idle (sizeStored_spec hl.ok hb hi ht)) (fun _ _ => trivial)
      fun ⟨ms₂, fms₂⟩ s₂ ⟨cur₂, hr₂, x, hp⟩ => ?_
    refine wp_seq (LOG.commit_settles hl.log fl hr₂) (fun _ _ => trivial) fun ⟨ms₃, ok⟩ s₃ ⟨hok, st', hr₃, hset⟩ => ?_
    cases ok with
    | true =>
      refine ⟨fun e he => (nomatch he), fun _ => ⟨st', fms₁, _, x, hr₃, hset.idle, ht, ?_⟩⟩
      rw [hset.newest]
      exact hp
    | false =>
      refine ⟨fun _ _ => ⟨⟨⟨st', hr₃, hset⟩, rfl⟩, .inr ?_⟩, fun h => nomatch h⟩
      have hlen : ¬ cur₂.toList.length ≤ xp.fsxpLog.logLen := of_decide_eq_false hok.symm
      exact Nat.lt_of_lt_of_le (Nat.lt_of_not_le hlen) hr₂.txnIn.length_le

/-- What a successful call leaves. -/
theorem ftruncate_stores (hl : FsLayout xp n) (hm : Mounted h xp n st T ams s) (hi : inum < xp.nInodes) {fl : Bool}
    {ams' : Memstate} {s' : St Valu HashKey}
    (hrun : Exec h s (ftruncate fl xp inum sz ams) (.finished s' (ams', .ok ()))) :
    ∃ st' ms₁ d₁ x, LRep h xp.fsxpLog n st' ams'.msLL s' ∧ st'.cur = vmap0 ∧
      Truncates xp inum (divup sz valulen) ams.fms (ldisk st.newest) ms₁ d₁ ∧
      SizeStored xp inum sz ms₁ d₁ (ldisk st.newest) x ams'.fms (ldisk st'.newest) := by
  obtain ⟨hb, hms⟩ := TreeRep.brep hm.tree
  have hP : twp n (BFILE.truncate xp inum (divup sz valulen) ams.fms) (fun _ _ => True) (ldisk st.newest) :=
    twp_mono (fun _ _ _ => trivial) _ (BFILE.truncate_truncates hl.ok hb hms hi _)
  exact (wp_exec hrun (ftruncate_spec (P := fun _ => True) hl fl hm hi sz hP)).2 rfl

/-- The purpose is met only under the condition. -/
theorem truncated_ok (hl : FsLayout xp n) (hm : Mounted h xp n st T ams s) (hi : inum < xp.nInodes) {fl : Bool}
    {ams' : Memstate} {s' : St Valu HashKey} (hrun : Exec h s (ftruncate fl xp inum sz ams) (.finished s' (ams', .ok ())))
    {st'' : LogState} (hr' : LRep h xp.fsxpLog n st'' ams'.msLL s')
    (htr : Truncated xp inum sz (ldisk st.newest) (ldisk st''.newest) ams'.fms) :
    TruncateOk xp inum sz (ldisk st.newest) ams.fms := by
  obtain ⟨hb, hms⟩ := TreeRep.brep hm.tree
  obtain ⟨st', ms₁, d₁, x, hr, hidle, ht, hp⟩ := ftruncate_stores hl hm hi hrun
  have hvals : ∀ a, ldisk st''.newest a = ldisk st'.newest a := hr'.newest_vals hr
  refine SizeStored.truncateOk ht hb hi ?_ fun al => ?_
  · have hfile : file xp (ldisk st''.newest) inum = file xp (ldisk st'.newest) inum := by
      have hrec := irec_congr (fun a _ => hvals a) hi
      exact file_eq hrec (used_congr hrec fun a _ => hvals a).1 fun a _ => hvals a
    have hlen := hp.length ht
    rwa [← hfile, htr.data, BFILE.length_resize] at hlen
  · have hal := htr.caches.alloc al
    rw [hp.mem] at hal
    refine BFILE.cacheRep_of_freeOf hal ?_
    rw [← hp.put.freeOf_eq hl.ok al]
    exact BmapAlloc.freeList_congr fun a _ => (hvals a).symm

/-- What a call left shows the purpose exactly under the condition. -/
theorem ftruncate_bytes_iff (hl : FsLayout xp n) (hm : Mounted h xp n st T ams s) (hi : inum < xp.nInodes) {fl : Bool}
    {ams' : Memstate} {s' : St Valu HashKey}
    (hrun : Exec h s (ftruncate fl xp inum sz ams) (.finished s' (ams', .ok ()))) :
    (∃ st', LRep h xp.fsxpLog n st' ams'.msLL s' ∧ st'.cur = vmap0 ∧
      Truncated xp inum sz (ldisk st.newest) (ldisk st'.newest) ams'.fms) ↔
    TruncateOk xp inum sz (ldisk st.newest) ams.fms := by
  constructor
  · rintro ⟨st'', hr', _, htr⟩
    exact truncated_ok hl hm hi hrun hr' htr
  · intro hok
    obtain ⟨hb, hms⟩ := TreeRep.brep hm.tree
    obtain ⟨st', ms₁, d₁, x, hr, hidle, ht, hp⟩ := ftruncate_stores hl hm hi hrun
    exact ⟨st', hr, hidle, hp.truncated ht hl.ok hb hi hms hok⟩

/-! ### Calls on a new file -/

theorem hashFree_ftruncate (xp : FsXparams) (inum sz : Nat) (ams : Memstate) : (ftruncate false xp inum sz ams).HashFree := by
  refine (LOG.hashFree_exec (BFILE.truncate xp inum _ ams.fms) ams.msLL).bind fun ⟨ms₁, fms₁, r⟩ => ?_
  cases r with
  | error e => exact trivial
  | ok _ =>
    refine (LOG.hashFree_exec _ ams.msLL).bind fun ⟨ms₂, fms₂⟩ => ?_
    refine (LOG.hashFree_commit ms₂).bind fun ⟨ms₃, ok⟩ => ?_
    cases ok <;> exact trivial

/-- On a file system whose log takes every transaction the call succeeds when `truncate` does. -/
theorem ftruncate_finishes (hl : FsLayout xp n) (hm : Mounted h xp n st T ams s) (hi : inum < xp.nInodes)
    (hlog : n ≤ xp.fsxpLog.logLen)
    (hok : twp n (BFILE.truncate xp inum (divup sz valulen) ams.fms) (fun r _ => r.2 = .ok ()) (ldisk st.newest)) :
    ∃ s' ams', Exec h s (ftruncate false xp inum sz ams) (.finished s' (ams', .ok ())) := by
  have hspec := ftruncate_spec (P := (· = .ok ())) hl false hm hi sz hok
  obtain ⟨s', ⟨ams', r⟩, hexec, herr, _⟩ := Exec.finishes (hashFree_ftruncate xp inum sz ams) hspec
  cases r with
  | ok _ => exact ⟨s', ams', hexec⟩
  | error e =>
    rcases (herr e rfl).2 with h | h
    · cases h
    · omega

/-- One byte is asked for and the call succeeds, but the file has no block, or the caches do not agree with the disk. -/
theorem ftruncate_grows_nothing : ∃ st ams s inum s' ams',
    Mounted PaddedLog.smallHash smallFs (diskSize 1 1) st (.dir 1 [([97], .file inum dirfile0)]) ams s ∧
    Exec PaddedLog.smallHash s (ftruncate false smallFs inum 1 ams) (.finished s' (ams', .ok ())) ∧
    ¬ ∃ st', LRep PaddedLog.smallHash smallFs.fsxpLog (diskSize 1 1) st' ams'.msLL s' ∧ st'.cur = vmap0 ∧
      Truncated smallFs inum 1 (ldisk st.newest) (ldisk st'.newest) ams'.fms := by
  obtain ⟨st, ams, s, inum, hm, hal, hfree, _, _⟩ := mounted_file PaddedLog.smallHash
  obtain ⟨hi, hfile⟩ := DIRTREE.file_eq (p := [[97]]) hm.tree rfl
  obtain ⟨hb, hms⟩ := TreeRep.brep hm.tree
  have hempty : (file smallFs (ldisk st.newest) inum).data = [] := by rw [hfile]; rfl
  have hone : divup 1 valulen = 1 := by decide
  have hok := BFILE.truncate_one_ok fsLayout_small.ok hb hms hi hempty (by rw [hal]; exact hfree)
  rw [← hone] at hok
  have hlog : diskSize 1 1 ≤ smallFs.fsxpLog.logLen := by decide
  obtain ⟨s', ams', hexec⟩ := ftruncate_finishes fsLayout_small hm hi hlog hok
  refine ⟨st, ams, s, inum, s', ams', hm, hexec, fun ⟨st', hr', _, htr⟩ => ?_⟩
  obtain ⟨_, hlen⟩ := truncated_ok fsLayout_small hm hi hexec hr' htr
  rw [hempty] at hlen
  rcases hlen with h | ⟨h, _⟩
  · exact absurd h (by decide)
  · exact absurd h (by decide)

/-- A file of one block keeps it when it gets 4096 bytes. -/
theorem ftruncate_bytes_iff_small : ∃ st ams s inum s' ams',
    Mounted PaddedLog.smallHash smallFs (diskSize 1 1) st (.dir 1 [([97], .file inum ⟨[0], iattr0⟩)]) ams s ∧
    Exec PaddedLog.smallHash s (ftruncate false smallFs inum 4096 ams) (.finished s' (ams', .ok ())) ∧
    ∃ st', LRep PaddedLog.smallHash smallFs.fsxpLog (diskSize 1 1) st' ams'.msLL s' ∧ st'.cur = vmap0 ∧
      Truncated smallFs inum 4096 (ldisk st.newest) (ldisk st'.newest) ams'.fms := by
  obtain ⟨st, ams, s, inum, hm⟩ := mounted_oneBlock PaddedLog.smallHash
  obtain ⟨hi, hfile⟩ := DIRTREE.file_eq (p := [[97]]) hm.tree rfl
  obtain ⟨hb, hms⟩ := TreeRep.brep hm.tree
  have hlen : (file smallFs (ldisk st.newest) inum).data.length = 1 := by rw [hfile]; rfl
  have hone : divup 4096 valulen = 1 := by decide
  have hok := BFILE.truncate_same_ok fsLayout_small.ok hms hi
  rw [hlen, ← hone] at hok
  have hlog : diskSize 1 1 ≤ smallFs.fsxpLog.logLen := by decide
  obtain ⟨s', ams', hexec⟩ := ftruncate_finishes fsLayout_small hm hi hlog hok
  refine ⟨st, ams, s, inum, s', ams', hm, hexec, (ftruncate_bytes_iff fsLayout_small hm hi hexec).2 ⟨by decide, .inl ?_⟩⟩
  rw [hlen]
  decide

end AFS

end Fscq
