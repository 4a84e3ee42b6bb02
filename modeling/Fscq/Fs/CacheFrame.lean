import Fscq.Fs.BFileResize

/-!
# What the programs do to the caches, whatever they read

The specifications say that the caches agree with the disk after a program that succeeds. A failed transaction drops the
disk but its caller may keep the caches, and then it matters how a program changes them on every path: a free list that is
in memory stays there (`Loaded`), allocating loads it, and the programs on one inode touch the record of this inode only
(`OnlyAt`).
-/

namespace Fscq

open TxnLogic

/-! ## Free lists -/

/-- Is the free list in memory? -/
def Loaded (b : Bool) (c : BmapCacheType) : Prop := c.isSome = b

section Loaded

variable {bxp : BallocXparams} {b : Bool} {c : BmapCacheType}

namespace BmapAllocCache

theorem free_loaded (hc : Loaded b c) (bn : Nat) : Always (Loaded b) (free bxp bn c) := by
  refine always_after _ fun _ => ?_
  cases c with
  | none => exact hc
  | some l => exact hc

theorem freevec_loaded (hc : Loaded b c) (l : List Nat) : Always (Loaded b) (freevec bxp l c) :=
  always_forN (fun _ _ hc' => free_loaded hc' _) _ _ hc

theorem alloc_loaded (bxp : BallocXparams) (c : BmapCacheType) : Always (fun r => Loaded true r.1) (alloc bxp c) := by
  have hget : Always (fun r : BmapCacheType × List Nat => Loaded true r.1) (getFreeBlocks bxp c) := by
    cases c with
    | none => exact always_after _ fun _ => rfl
    | some l => exact rfl
  refine always_seq hget fun ⟨c', fl⟩ hc' => ?_
  cases fl with
  | nil => exact hc'
  | cons bn fl => exact always_after _ fun _ => rfl

end BmapAllocCache

namespace BlockPtr

open BmapAllocCache (free_loaded alloc_loaded)

theorem indclearAll_loaded : ∀ (lvl root : Nat) {c : BmapCacheType}, Loaded b c → Always (Loaded b) (indclearAll bxp lvl root c)
  | 0, _, _, hc => always_ite (fun _ => hc) fun _ => free_loaded hc _
  | lvl + 1, _, _, hc => always_ite (fun _ => hc) fun _ => always_after _ fun _ =>
    always_seq (always_forEach (fun _ _ hc' => indclearAll_loaded lvl _ hc') _ hc) fun _ hc' => free_loaded hc' _

theorem indclearAligned_loaded (lvl : Nat) (indbns : List Waddr) (start len : Nat) (hc : Loaded b c) :
    Always (Loaded b) (indclearAligned bxp lvl indbns start len c) :=
  always_forEach (fun _ _ hc' => indclearAll_loaded lvl _ hc') _ hc

theorem updateBlock_loaded (bn : Nat) (contents new : List Waddr) (hc : Loaded b c) :
    Always (fun r => Loaded b r.1) (updateBlock bxp bn contents new c) :=
  always_ite (fun _ => always_seq (free_loaded hc _) fun _ hc' => hc') fun _ =>
    always_ite (fun _ => hc) fun _ => always_after _ fun _ => hc

theorem indclearFromAligned_loaded : ∀ (lvl : Nat) (iblocks : List Waddr) (start len : Nat) {c : BmapCacheType}, Loaded b c →
    Always (fun r => Loaded b r.1) (indclearFromAligned bxp lvl iblocks start len c)
  | 0, _, _, _, _, hc => always_ite (fun _ => hc) fun _ => always_ite (fun _ => hc) fun _ => always_after _ fun _ =>
    always_seq (updateBlock_loaded _ _ _ hc) fun _ hc' => hc'
  | lvl + 1, _, _, _, _, hc => always_ite (fun _ => hc) fun _ => always_ite (fun _ => hc) fun _ => always_after _ fun _ =>
    always_seq (indclearAligned_loaded lvl _ _ _ hc) fun _ hc₁ =>
      always_seq (indclearFromAligned_loaded lvl _ _ _ hc₁) fun _ hc₂ =>
        always_seq (updateBlock_loaded _ _ _ hc₂) fun _ hc' => hc'

theorem indclearToAligned_loaded : ∀ (lvl : Nat) (iblocks : List Waddr) (start : Nat) {c : BmapCacheType}, Loaded b c →
    Always (fun r => Loaded b r.1) (indclearToAligned bxp lvl iblocks start c)
  | 0, _, _, _, hc => always_ite (fun _ => hc) fun _ => always_ite (fun _ => hc) fun _ => always_after _ fun _ =>
    always_seq (updateBlock_loaded _ _ _ hc) fun _ hc' => hc'
  | lvl + 1, _, _, _, hc => always_ite (fun _ => hc) fun _ => always_ite (fun _ => hc) fun _ => always_after _ fun _ =>
    always_seq (indclearToAligned_loaded lvl _ _ hc) fun _ hc₁ =>
      always_seq (indclearAligned_loaded lvl _ _ _ hc₁) fun _ hc₂ =>
        always_seq (updateBlock_loaded _ _ _ hc₂) fun _ hc' => hc'

theorem indclearMultipleBlocks_loaded (lvl : Nat) (indbns : List Waddr) (start len : Nat) (hc : Loaded b c) :
    Always (fun r => Loaded b r.1) (indclearMultipleBlocks bxp lvl indbns start len c) :=
  always_seq (indclearToAligned_loaded lvl _ _ hc) fun _ hc₁ =>
    always_seq (indclearAligned_loaded lvl _ _ _ hc₁) fun _ hc₂ => indclearFromAligned_loaded lvl _ _ _ hc₂

theorem indclear_loaded : ∀ (lvl root start len : Nat) {c : BmapCacheType}, Loaded b c →
    Always (fun r => Loaded b r.1) (indclear bxp lvl root start len c)
  | 0, _, _, _, _, hc => always_ite (fun _ => hc) fun _ => always_ite (fun _ => hc) fun _ => always_after _ fun _ =>
    updateBlock_loaded _ _ _ hc
  | lvl + 1, _, start, len, c, hc => by
    refine always_ite (fun _ => hc) fun _ => always_ite (fun _ => hc) fun _ => always_after _ fun indbns => ?_
    refine always_seq (P := fun r => Loaded b r.1) ?_ fun _ hc₁ => updateBlock_loaded _ _ _ hc₁
    split
    · exact always_seq (indclear_loaded lvl _ _ _ hc) fun _ hc' => hc'
    · exact indclearMultipleBlocks_loaded lvl _ _ _ hc

theorem indshrinkHelper_loaded (lvl bn nl : Nat) (hc : Loaded b c) :
    Always (fun r => Loaded b r.1) (indshrinkHelper bxp lvl bn nl c) :=
  always_ite (fun _ => indclear_loaded lvl _ _ _ hc) fun _ => hc

theorem shrink_loaded (ir : INODE.Irec) (nr : Nat) (hc : Loaded b c) :
    Always (fun r => Loaded b r.1) (shrink bxp ir nr c) := by
  have hind : ∀ nl, Always (fun r => Loaded b r.1) (indshrink bxp ir nl c) := fun nl =>
    always_seq (indshrinkHelper_loaded 0 _ _ hc) fun _ hc₁ => always_seq (indshrinkHelper_loaded 1 _ _ hc₁) fun _ hc₂ =>
      always_seq (indshrinkHelper_loaded 2 _ _ hc₂) fun _ hc₃ => hc₃
  unfold shrink
  simp only
  split
  · exact hc
  · exact always_seq (hind _) fun _ hc' => hc'

/-! A node is allocated on the way, so growing keeps a free list that is loaded. -/

theorem indputRoot_loaded (root : Nat) (hc : Loaded true c) : Always (fun r => Loaded true r.1) (indputRoot bxp root c) :=
  always_ite (fun _ => alloc_loaded bxp c) fun _ => hc

theorem indput_loaded : ∀ (lvl root off : Nat) (bn : Waddr) {c : BmapCacheType}, Loaded true c →
    Always (fun r => Loaded true r.1) (indput bxp lvl root off bn c)
  | 0, _, _, _, _, hc => always_seq (indputRoot_loaded _ hc) fun ⟨_, ir⟩ hc₁ => by
    cases ir with
    | none => exact hc₁
    | some ir => exact always_ite (fun _ => always_after _ fun _ => hc₁) fun _ => always_after _ fun _ => hc₁
  | lvl + 1, _, _, _, _, hc => always_seq (indputRoot_loaded _ hc) fun ⟨_, ir⟩ hc₁ => by
    cases ir with
    | none => exact hc₁
    | some ir =>
      refine always_after _ fun indbns => always_seq (indput_loaded lvl _ _ _ hc₁) fun r hc₂ => ?_
      exact always_ite (fun _ => hc₂) fun _ => always_after _ fun _ => hc₂

theorem indgrow_loaded (ir : INODE.Irec) (off : Nat) (bn : Waddr) (hc : Loaded true c) :
    Always (fun r => Loaded true r.1) (indgrow bxp ir off bn c) := by
  simp only [indgrow]
  generalize nIndirect ^ 2 = S
  refine always_ite (fun _ => ?_) fun _ => always_ite (fun _ => ?_) fun _ => ?_
  · exact always_seq (indput_loaded 0 _ _ _ hc) fun _ hc' => hc'
  · exact always_seq (indput_loaded 1 _ _ _ hc) fun _ hc' => hc'
  · exact always_seq (indput_loaded 2 _ _ _ hc) fun _ hc' => hc'

theorem grow_loaded (ir : INODE.Irec) (bn : Waddr) (hc : Loaded true c) :
    Always (fun r => Loaded true r.1) (grow bxp ir bn c) :=
  always_ite (fun _ => hc) fun _ => always_ite (fun _ => hc) fun _ =>
    always_seq (indgrow_loaded _ _ _ hc) fun _ hc' => always_ite (fun _ => hc') fun _ => hc'

end BlockPtr

end Loaded

/-! ## Records of inodes -/

namespace INODE

/-- The record of `inum` is cached now, and the others are cached as before. -/
structure OnlyAt (inum : Nat) (ic ic' : ICache) : Prop where
  self : ic'[inum]? ≠ none
  other : ∀ j, j ≠ inum → ic'[j]? = ic[j]?

theorem OnlyAt.trans {inum : Nat} {ic ic₁ ic' : ICache} (h₁ : OnlyAt inum ic ic₁) (h₂ : OnlyAt inum ic₁ ic') :
    OnlyAt inum ic ic' :=
  ⟨h₂.self, fun j hj => (h₂.other j hj).trans (h₁.other j hj)⟩

theorem onlyAt_insert (inum : Nat) (x : Irec) (ic : ICache) : OnlyAt inum ic (ic.insert inum x) := by
  refine ⟨?_, fun j hj => ?_⟩
  · rw [Bufcache.getElem?_insert', if_pos rfl]
    exact Option.some_ne_none x
  · rw [Bufcache.getElem?_insert', if_neg fun h => hj h.symm]

variable {ixp : InodeXparams} {bxp : BallocXparams} {inum : Nat} {ic : ICache} {b : Bool} {c : BmapCacheType}

theorem getArray_onlyAt : Always (fun r => OnlyAt inum ic r.1) (LogRecArrayCache.getArray ixp.ixStart inum ic) := by
  unfold LogRecArrayCache.getArray
  split
  · rename_i x hx
    exact ⟨by rw [hx]; exact Option.some_ne_none x, fun _ _ => rfl⟩
  · exact always_after _ fun x => onlyAt_insert inum x ic

theorem putArray_onlyAt (x : Irec) : Always (OnlyAt inum ic) (LogRecArrayCache.putArray ixp.ixStart inum x ic) :=
  always_after _ fun _ => onlyAt_insert inum x ic

theorem getlen_onlyAt : Always (fun r => OnlyAt inum ic r.1) (getlen ixp inum ic) :=
  always_seq getArray_onlyAt fun _ ho => ho

theorem getallbnum_onlyAt : Always (fun r => OnlyAt inum ic r.1) (getallbnum ixp inum ic) :=
  always_seq getArray_onlyAt fun _ ho => always_after _ fun _ => ho

theorem shrink_frame (nr : Nat) (hc : Loaded b c) :
    Always (fun r => OnlyAt inum ic r.1 ∧ Loaded b r.2) (shrink ixp bxp inum nr ic c) :=
  always_seq getArray_onlyAt fun _ ho => always_seq (BlockPtr.shrink_loaded _ _ hc) fun _ hc' =>
    always_seq (putArray_onlyAt _) fun _ ho' => ⟨ho.trans ho', hc'⟩

theorem grow_frame (bn : Nat) (hc : Loaded true c) :
    Always (fun r => OnlyAt inum ic r.1 ∧ Loaded true r.2.1) (grow ixp bxp inum bn ic c) := by
  refine always_seq getArray_onlyAt fun _ ho => always_seq (BlockPtr.grow_loaded _ _ hc) fun ⟨c', r⟩ hc' => ?_
  cases r with
  | error e => exact ⟨ho, hc'⟩
  | ok ir => exact always_seq (putArray_onlyAt _) fun _ ho' => ⟨ho.trans ho', hc'⟩

end INODE

/-! ## The caches of the file layer -/

namespace BFILE

open INODE (OnlyAt)

variable {xp : FsXparams} {inum : Nat} {ms : Memstate}

/-- What the programs on the file `inum` do to the caches: the selected allocator, the inode allocator and what is cached
of the other inodes stay. -/
structure Frame (inum : Nat) (ms ms' : Memstate) : Prop where
  alloc : ms'.msAlloc = ms.msAlloc
  ialloc : ms'.msIAllocC = ms.msIAllocC
  icache : OnlyAt inum ms.msICache ms'.msICache

theorem Frame.trans {ms₁ ms' : Memstate} (h₁ : Frame inum ms ms₁) (h₂ : Frame inum ms₁ ms') : Frame inum ms ms' :=
  ⟨h₂.alloc.trans h₁.alloc, h₂.ialloc.trans h₁.ialloc, h₁.icache.trans h₂.icache⟩

theorem getlen_frame : Always (fun r => Frame inum ms r.1 ∧ r.1.msAllocC = ms.msAllocC) (getlen xp inum ms) :=
  always_seq INODE.getlen_onlyAt fun _ ho => ⟨⟨rfl, rfl, ho⟩, rfl⟩

/-- A file that grew took a block from the free list in memory. -/
theorem grow_frame (v : Valu) : Always (fun r => Frame inum ms r.1 ∧
    (r.2 = .ok () → Loaded true (pickBalloc r.1.msAllocC ms.msAlloc))) (grow xp inum v ms) := by
  refine always_seq INODE.getlen_onlyAt fun ⟨ic, len⟩ ho =>
    always_ite (fun _ => ?_) fun _ => ⟨⟨rfl, rfl, ho⟩, fun h => nomatch h⟩
  refine always_seq (BmapAllocCache.alloc_loaded _ _) fun ⟨c, r⟩ hc => ?_
  cases r with
  | none => exact ⟨⟨rfl, rfl, ho⟩, fun h => nomatch h⟩
  | some bn =>
    refine always_seq (INODE.grow_frame bn hc) fun ⟨ic', c', r⟩ ⟨ho', hc'⟩ => ?_
    cases r with
    | error e => exact ⟨⟨rfl, rfl, ho.trans ho'⟩, fun h => nomatch h⟩
    | ok _ =>
      refine always_after _ fun _ => ⟨⟨rfl, rfl, ho.trans ho'⟩, fun _ => ?_⟩
      rw [pickBalloc_updBalloc_self]
      exact hc'

theorem shrink_frame (nr : Nat) {b : Bool} (hb : Loaded b (pickBalloc ms.msAllocC !ms.msAlloc)) :
    Always (fun ms' => Frame inum ms ms' ∧ Loaded b (pickBalloc ms'.msAllocC !ms.msAlloc) ∧
      pickBalloc ms'.msAllocC ms.msAlloc = pickBalloc ms.msAllocC ms.msAlloc) (shrink xp inum nr ms) := by
  refine always_seq INODE.getallbnum_onlyAt fun ⟨ic, bns⟩ ho =>
    always_seq (BmapAllocCache.freevec_loaded hb _) fun c hc => ?_
  refine always_seq (INODE.shrink_frame nr hc) fun ⟨ic', c'⟩ ⟨ho', hc'⟩ => ⟨⟨rfl, rfl, ho.trans ho'⟩, ?_, ?_⟩
  · rw [pickBalloc_updBalloc_self]
    exact hc'
  · have hsame := pickBalloc_updBalloc_not ms.msAllocC c' (!ms.msAlloc)
    rwa [Bool.not_not] at hsame

end BFILE

end Fscq
