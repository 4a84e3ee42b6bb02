import Fscq.Fs.BFileInit

/-!
# Truncating and resetting files

`reset` writes the record of the inode once where `reset'` writes it twice, and it drops the dirty set of the file where
`reset'` takes the blocks of the file out of it. They leave the same disk and the same caches (`reset_agrees`): the second
write of a record finds the first one in the cache, and the dirty blocks of a file are among its blocks.
-/

namespace Fscq

open TxnLogic INODE

namespace INODE

variable (ixp : InodeXparams) (bxp : BallocXparams) (inum : Nat)

/-- Shrinking and setting the attributes is one write of the record. -/
theorem shrink_setattrs (nr : Nat) (a : Iattr) (ic : ICache) (c : BmapCacheType) (d : LDisk) :
    Agree (fun r r' _ => r = r') (do
      let (ic, c) ← shrink ixp bxp inum nr ic c
      let ic ← setattrs ixp inum a ic
      pure (ic, c)) (reset ixp bxp inum nr a ic c) d := by
  simp only [shrink, reset, setattrs, Body.bind_assoc]
  refine agree_seq (agree_refl _ d) fun r r' d₁ hr => ?_
  subst hr
  refine agree_seq (agree_refl _ d₁) fun r₁ r₁' d₂ hr₁ => ?_
  subst hr₁
  have hput := LogRecArrayCache.putArray_again d₂ ixp.ixStart inum r₁.2 (fun ir => setAttrs ir a) r.1
  have hpair := agree_seq (f := fun ic => pure (ic, r₁.1)) (g := fun ic => pure (ic, r₁.1)) hput fun ic ic' d₃ h =>
    agree_ret (R := fun r r' _ => r = r') (congrArg (·, r₁.1) h)
  simp only [Body.bind_assoc] at hpair
  exact hpair

end INODE

namespace BFILE

variable {xp : FsXparams} {n inum : Nat} {d : LDisk} {ms : Memstate} {extra : List Nat}

/-- The memory states are equal, and so are the dirty sets that they give. -/
structure SameCaches (ms ms' : Memstate) : Prop where
  alloc : ms'.msAlloc = ms.msAlloc
  allocC : ms'.msAllocC = ms.msAllocC
  iallocC : ms'.msIAllocC = ms.msIAllocC
  icache : ms'.msICache = ms.msICache
  cache : ms'.msCache = ms.msCache
  dirty : ∀ i, getDirty i ms'.msDBlocks = getDirty i ms.msDBlocks

/-- Taking out all blocks of a file clears its dirty set. -/
theorem MsRep.clearDirty_eq (hm : MsRep xp d ms) (inum i : Nat) :
    getDirty i (clearDirty inum ms.msDBlocks) = getDirty i (removeDirtyVec inum (blks xp d inum) ms.msDBlocks) := by
  refine Std.ExtTreeSet.ext_mem fun bn => ?_
  rw [mem_getDirty_clearDirty, mem_getDirty_removeDirtyVec]
  refine and_congr_left fun h => ⟨fun hne he => absurd he hne, ?_⟩
  rintro hnot rfl
  exact hnot rfl (hm.dirty i bn h).2

theorem reset_agrees (hxp : xp.Ok n) (hb : BRep xp d extra) (hm : MsRep xp d ms) (hi : inum < xp.nInodes) :
    Agree (fun ms ms' _ => SameCaches ms ms') (reset' xp inum ms) (reset xp inum ms) d := by
  unfold reset' reset
  refine agree_seq (agree_twp (agree_refl _ d) (getlen_spec hxp hm hi)) ?_
  rintro ⟨ms₀, sz⟩ _ d₀ ⟨rfl, hd, hsz, ⟨ic₀, hms₀⟩, hm₀⟩
  subst hd hms₀
  simp only [shrink, setattrs, Body.bind_assoc]
  refine agree_seq (agree_twp (agree_refl _ d₀) (INODE.getallbnum_spec hxp hm₀.icache (BRep.inodeRep hb hi))) ?_
  rintro ⟨ic, bns⟩ _ d₀' ⟨rfl, hd, hbns, _⟩
  subst hd
  have hlen : bns.length = sz := by
    simp only [length_file_data] at hsz hbns
    rw [hsz, ← hbns, List.length_map]
  simp only at hbns
  simp only [hlen, Nat.sub_self, List.drop_zero, hbns]
  refine agree_seq (agree_refl _ d₀') fun c c' d₁ hc => ?_
  subst hc
  have hrec := shrink_setattrs xp.fsxpInode (xp.balloc !ms.msAlloc) inum sz iattr0 ic c d₁
  have hms := agree_seq (f := fun r => pure { ms with msAllocC := updBalloc ms.msAllocC r.2 !ms.msAlloc, msICache := r.1,
                                                      msCache := ms.msCache.erase inum,
                                                      msDBlocks := removeDirtyVec inum (blks xp d₀' inum) ms.msDBlocks })
    (g := fun r => pure { ms with msAllocC := updBalloc ms.msAllocC r.2 !ms.msAlloc, msICache := r.1,
                                  msCache := ms.msCache.erase inum, msDBlocks := clearDirty inum ms.msDBlocks })
    hrec fun r r' d₂ hr => by
      subst hr
      exact agree_ret (R := fun ms ms' _ => SameCaches ms ms') ⟨rfl, rfl, rfl, rfl, rfl, hm.clearDirty_eq inum⟩
  simp only [Body.bind_assoc] at hms
  exact hms

/-- Truncating makes the file as long as asked and frees what it has no more, or the new length is not possible; and both
versions of `reset` do the same. -/
theorem truncate_reset (hxp : xp.Ok n) (hb : BRep xp d extra) (hm : MsRep xp d ms) (hi : inum < xp.nInodes) (newsz : Nat) :
    twp n (truncate xp inum newsz ms) (fun r d' =>
      (r.2 = .ok () → FileDone xp inum ⟨resize (file xp d inum).data newsz, (file xp d inum).attr⟩ ms d r.1 d' ∧
        Frees xp ms.msAlloc inum newsz d d') ∧
      ∀ e, r.2 = .error e → BlockPtr.nBlocks < newsz ∨ freeOf xp d' ms.msAlloc = []) d ∧
    Agree (fun ms ms' _ => SameCaches ms ms') (reset' xp inum ms) (reset xp inum ms) d := by
  refine ⟨twp_mono (fun r d' hdone => ⟨hdone.ok, fun e he => ?_⟩) _ (truncate_spec hxp hb hm hi newsz),
    reset_agrees hxp hb hm hi⟩
  obtain ⟨sz, ms₁, d₁, hsz, hdone₁, hfail⟩ := hdone.error e he
  rcases hfail.why with ⟨hmax, _⟩ | hfree
  · rw [hdone₁.self, length_resize] at hmax
    exact .inl (Nat.lt_of_le_of_lt hmax hsz)
  · rw [hdone₁.alloc_eq] at hfree
    exact .inr hfree

end BFILE

end Fscq
