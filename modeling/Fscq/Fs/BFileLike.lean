import Fscq.Fs.BFileResize

/-!
# Cached records do not show

Two memory states may differ in the records of inodes and the directory entries that they have cached (`Like`). If both
agree with the disk, a program on a file does the same from both: the results and the disk are equal, and the memory
states are alike again.
-/

namespace Fscq

open TxnLogic INODE

namespace BFILE

/-- The memory states are equal, except for what is cached of inodes and directories. -/
def Like (ms ms' : Memstate) : Prop := ∃ ic bf, ms' = { ms with msICache := ic, msCache := bf }

/-- One result, from memory states that are alike. -/
def SameRes {α : Type} (r r' : Memstate × α) (_ : LDisk) : Prop := r'.2 = r.2 ∧ Like r.1 r'.1

variable {xp : FsXparams} {n inum : Nat} {d : LDisk} {ms ms' : Memstate} {extra : List Nat} {α : Type}

theorem Like.refl (ms : Memstate) : Like ms ms := ⟨ms.msICache, ms.msCache, rfl⟩

theorem Like.symm (hl : Like ms ms') : Like ms' ms := by
  obtain ⟨ic, bf, rfl⟩ := hl
  exact ⟨ms.msICache, ms.msCache, rfl⟩

theorem Like.trans {ms₁ : Memstate} (hl : Like ms ms₁) (hl' : Like ms₁ ms') : Like ms ms' := by
  obtain ⟨ic, bf, rfl⟩ := hl
  obtain ⟨ic', bf', rfl⟩ := hl'
  exact ⟨ic', bf', rfl⟩

theorem IcacheOnly.like (h : IcacheOnly ms ms') : Like ms ms' := by
  obtain ⟨ic, rfl⟩ := h
  exact ⟨ic, ms.msCache, rfl⟩

theorem like_cachePut (inum : Nat) (dc : DcacheType × Nat) (ms : Memstate) : Like ms (cachePut inum dc ms) :=
  ⟨ms.msICache, ms.msCache.insert inum dc, rfl⟩

theorem Like.icacheOnly (hl : Like ms ms') {ms₁ ms₁' : Memstate} (h : IcacheOnly ms ms₁) (h' : IcacheOnly ms' ms₁') :
    Like ms₁ ms₁' := by
  obtain ⟨ic, bf, rfl⟩ := hl
  obtain ⟨ic₁, rfl⟩ := h
  obtain ⟨ic₁', rfl⟩ := h'
  exact ⟨ic₁', bf, rfl⟩

/-- Two programs that read one value. -/
theorem sameRes_read {p q : TBody (Memstate × α)} {v : α} (hl : Like ms ms')
    (hp : twp n p (fun r d' => d' = d ∧ r.2 = v ∧ IcacheOnly ms r.1) d)
    (hq : twp n q (fun r d' => d' = d ∧ r.2 = v ∧ IcacheOnly ms' r.1) d) : Agree SameRes p q d :=
  agree_mono (fun _ _ _ ⟨_, ⟨hv, hic⟩, hv', hic'⟩ => ⟨hv'.trans hv.symm, hl.icacheOnly hic hic'⟩) (agree_read hp hq)

/-! ## Inodes -/

section Inodes

variable {ic ic' : ICache} (hxp : xp.Ok n) (hic : IcacheRep xp d ic) (hic' : IcacheRep xp d ic') (hi : inum < xp.nInodes)

/-- Writing a record does the same to the disk, whatever is cached. -/
theorem putIrec_agrees {start : Nat} (x : Irec) (ic ic' : ICache) :
    Agree (fun _ _ _ => True) (LogRecArrayCache.putArray start inum x ic) (LogRecArrayCache.putArray start inum x ic') d :=
  ⟨trivial, rfl⟩

include hxp hic hic' hi

theorem getIrec_agrees : Agree (fun r r' d' => d' = d ∧ r.2 = r'.2)
    (LogRecArrayCache.getArray xp.fsxpInode.ixStart inum ic) (LogRecArrayCache.getArray xp.fsxpInode.ixStart inum ic') d :=
  agree_mono (fun _ _ _ ⟨hd, ⟨hr, _⟩, hr', _⟩ => ⟨hd, hr.trans hr'.symm⟩)
    (agree_read (getIrec_spec hxp hic hi) (getIrec_spec hxp hic' hi))

theorem growIrec_agrees (bxp : BallocXparams) (bn : Nat) (c : BmapCacheType) :
    Agree (fun r r' _ => r'.2 = r.2) (INODE.grow xp.fsxpInode bxp inum bn ic c) (INODE.grow xp.fsxpInode bxp inum bn ic' c) d := by
  refine agree_seq (getIrec_agrees hxp hic hic' hi) ?_
  rintro ⟨ic₁, ir⟩ ⟨ic₁', ir'⟩ d₁ ⟨_, rfl⟩
  refine agree_seq (agree_refl _ d₁) ?_
  rintro ⟨c₁, r⟩ _ d₂ rfl
  cases r with
  | error e => exact agree_ret rfl
  | ok x => exact agree_seq (putIrec_agrees x ic₁ ic₁') fun _ _ _ _ => agree_ret rfl

theorem resetIrec_agrees (bxp : BallocXparams) (nr : Nat) (a : Iattr) (c : BmapCacheType) :
    Agree (fun r r' _ => r'.2 = r.2) (INODE.reset xp.fsxpInode bxp inum nr a ic c)
      (INODE.reset xp.fsxpInode bxp inum nr a ic' c) d := by
  refine agree_seq (getIrec_agrees hxp hic hic' hi) ?_
  rintro ⟨ic₁, ir⟩ ⟨ic₁', ir'⟩ d₁ ⟨_, rfl⟩
  refine agree_seq (agree_refl _ d₁) ?_
  rintro ⟨c₁, x⟩ _ d₂ rfl
  exact agree_seq (putIrec_agrees _ ic₁ ic₁') fun _ _ _ _ => agree_ret rfl

end Inodes

/-! ## Files -/

section Files

variable (hxp : xp.Ok n) (hb : BRep xp d extra) (hm : MsRep xp d ms) (hm' : MsRep xp d ms') (hl : Like ms ms')
  (hi : inum < xp.nInodes)
include hxp hm hm' hl hi

theorem getlen_like : Agree SameRes (getlen xp inum ms) (getlen xp inum ms') d :=
  sameRes_read hl (twp_mono (fun _ _ h => ⟨h.1, h.2.1, h.2.2.1⟩) _ (getlen_spec hxp hm hi))
    (twp_mono (fun _ _ h => ⟨h.1, h.2.1, h.2.2.1⟩) _ (getlen_spec hxp hm' hi))

theorem grow_like (v : Valu) : Agree SameRes (grow xp inum v ms) (grow xp inum v ms') d := by
  obtain ⟨ic₀, bf, rfl⟩ := hl
  unfold grow
  refine agree_seq (agree_read (INODE.getlen_spec hxp hm.icache hi) (INODE.getlen_spec hxp hm'.icache hi)) ?_
  rintro ⟨ic, len⟩ ⟨ic', len'⟩ d' ⟨rfl, ⟨hlen, hic⟩, hlen', hic'⟩
  obtain rfl : len = len' := hlen.trans hlen'.symm
  by_cases hlt : len < BlockPtr.nBlocks
  swap
  · simp only [if_neg hlt]
    exact agree_ret ⟨rfl, _, _, rfl⟩
  simp only [if_pos hlt]
  refine agree_seq (agree_twp (agree_refl _ d')
    (BmapAllocCache.alloc_spec (hxp.dataOk ms.msAlloc).toOk (hm.alloc ms.msAlloc))) ?_
  rintro ⟨c, r⟩ _ d₁ ⟨rfl, halloc⟩
  rcases halloc with ⟨hnone, _⟩ | ⟨bn, l, hr, _, _, _, hframe⟩
  · simp only at hnone
    subst hnone
    exact agree_ret ⟨rfl, _, _, rfl⟩
  cases hr
  have htable : ∀ a, xp.InTable a → d₁ a = d' a := fun a ha => hframe a (hxp.table_not_inBalloc _ ha)
  refine agree_seq (growIrec_agrees hxp (hic.congr_table htable) (hic'.congr_table htable) hi _ bn (some l)) ?_
  rintro ⟨ic₁, c₁, succ⟩ ⟨ic₁', _⟩ d₂ hsucc
  simp only at hsucc
  subst hsucc
  cases succ with
  | error e => exact agree_ret ⟨rfl, _, _, rfl⟩
  | ok _ => exact agree_seq (agree_refl _ d₂) fun _ _ _ _ => agree_ret ⟨rfl, _, _, rfl⟩

include hb

theorem write_like {off : Nat} (hoff : off < (file xp d inum).data.length) (v : Valu) :
    Agree (fun ms ms' _ => Like ms ms') (write xp inum off v ms) (write xp inum off v ms') d := by
  obtain ⟨ic₀, bf, rfl⟩ := hl
  rw [length_file_data] at hoff
  refine agree_seq (agree_read (getbnum_spec hxp hm.icache (BRep.inodeRep hb hi) hoff)
    (getbnum_spec hxp hm'.icache (BRep.inodeRep hb hi) hoff)) ?_
  rintro ⟨ic, bn⟩ ⟨ic', bn'⟩ d' ⟨rfl, ⟨hbn, _⟩, hbn', _⟩
  rw [hbn, Option.some_inj] at hbn'
  simp only [hbn']
  exact agree_seq (agree_refl _ d') fun _ _ _ _ => agree_ret ⟨_, _, rfl⟩

theorem reset_like : Agree (fun ms ms' _ => Like ms ms') (reset xp inum ms) (reset xp inum ms') d := by
  unfold reset
  refine agree_seq (agree_twp₂ (getlen_like hxp hm hm' hl hi) (getlen_spec hxp hm hi) (getlen_spec hxp hm' hi)) ?_
  rintro ⟨ms₁, sz⟩ ⟨ms₁', sz'⟩ d' ⟨⟨hsz, hl₁⟩, ⟨rfl, _, _, hm₁⟩, _, _, _, hm₁'⟩
  simp only at hsz hl₁
  subst hsz
  obtain ⟨ic₁, bf₁, rfl⟩ := hl₁
  refine agree_seq (agree_read (INODE.getallbnum_spec hxp hm₁.icache (BRep.inodeRep hb hi))
    (INODE.getallbnum_spec hxp hm₁'.icache (BRep.inodeRep hb hi))) ?_
  rintro ⟨ic, bns⟩ ⟨ic', bns'⟩ d₁ ⟨rfl, ⟨hbns, hic⟩, hbns', hic'⟩
  simp only at hbns hbns'
  simp only [hbns, hbns']
  refine agree_seq (agree_twp (agree_refl _ d₁) (freevec_spec hxp hb hi (List.Sublist.refl _) (hm₁.alloc _))) ?_
  rintro c _ d₂ ⟨rfl, hf, _⟩
  have htable : ∀ a, xp.InTable a → d₂ a = d₁ a := fun a ha => hf.frame a (hxp.table_not_inBalloc _ ha)
  refine agree_seq (resetIrec_agrees hxp (hic.congr_table htable) (hic'.congr_table htable) hi _ sz' iattr0 c) ?_
  rintro ⟨ic₂, c₂⟩ ⟨ic₂', _⟩ d₃ hc₂
  simp only at hc₂
  subst hc₂
  exact agree_ret ⟨_, _, rfl⟩

end Files

end BFILE

end Fscq
