import Fscq.Fs.Inode

/-!
# What the inode programs do

Each program reads or replaces one record. `InodeStep` collects what a program that replaces the record of `inum` keeps:
the other records, and every block that was neither a node of this inode nor free.
-/

namespace Fscq.INODE

open TxnLogic BlockPtr
open BmapAlloc (freeList size)

variable {xp : FsXparams} {n : Nat} {d d₁ d' : LDisk} {al : Bool} {inum : Nat} {ic : ICache} {c : BmapCacheType} {x : Irec}

/-- The inode cache agrees with the table. -/
abbrev IcacheRep (xp : FsXparams) (d : LDisk) (ic : ICache) : Prop :=
  LogRecArrayCache.CacheRep xp.fsxpInode.ixStart xp.nInodes d ic

theorem IcacheRep.congr_table (hc : IcacheRep xp d ic) (h : ∀ a, xp.InTable a → d' a = d a) : IcacheRep xp d' ic :=
  LogRecArrayCache.CacheRep.congr hc fun _ hi => irec_congr h hi

theorem getIrec_spec (hxp : xp.Ok n) (hc : IcacheRep xp d ic) (hi : inum < xp.nInodes) :
    twp n (LogRecArrayCache.getArray xp.fsxpInode.ixStart inum ic)
      (fun r d' => d' = d ∧ r.2 = irec xp d inum ∧ IcacheRep xp d r.1) d :=
  LogRecArrayCache.getArray_spec hc hi (hxp.table_lt (FsXparams.inTable_of_lt hi))

@[simp] theorem length_blks (xp : FsXparams) (d : LDisk) (i : Nat) : (blks xp d i).length = irLen (irec xp d i) := by
  rw [blks, List.length_map, length_blockList]

theorem getlen_spec (hxp : xp.Ok n) (hc : IcacheRep xp d ic) (hi : inum < xp.nInodes) :
    twp n (getlen xp.fsxpInode inum ic) (fun r d' => d' = d ∧ r.2 = (blks xp d inum).length ∧ IcacheRep xp d r.1) d :=
  twp_seq (getIrec_spec hxp hc hi) fun ⟨_, _⟩ _ ⟨hd, hr, hc'⟩ => ⟨hd, by rw [length_blks, ← hr], hc'⟩

/-- The attributes of an inode. -/
def attrs (xp : FsXparams) (d : LDisk) (i : Nat) : Iattr := irAttrs (irec xp d i)

theorem getattrs_spec (hxp : xp.Ok n) (hc : IcacheRep xp d ic) (hi : inum < xp.nInodes) :
    twp n (getattrs xp.fsxpInode inum ic) (fun r d' => d' = d ∧ r.2 = attrs xp d inum ∧ IcacheRep xp d r.1) d :=
  twp_seq (getIrec_spec hxp hc hi) fun ⟨_, _⟩ _ ⟨hd, hr, hc'⟩ => ⟨hd, by rw [attrs, ← hr], hc'⟩

/-- The record of `inum` is on the disk as the programs keep it, and its nodes are data blocks. -/
structure InodeRep (xp : FsXparams) (d : LDisk) (inum : Nat) : Prop where
  lt : inum < xp.nInodes
  irep : IrecRep d (irec xp d inum)
  inds_lt : ∀ a ∈ inds xp d inum, a < xp.dataSize

theorem BRep.inodeRep {extra : List Nat} (hb : BRep xp d extra) (hi : inum < xp.nInodes) : InodeRep xp d inum :=
  ⟨hi, hb.irep inum hi, fun _ ha => (hb.owned_pos (used_sub_owned hi (List.mem_append_right _ ha))).2⟩

theorem getbnum_spec (hxp : xp.Ok n) (hc : IcacheRep xp d ic) (hr : InodeRep xp d inum) {off : Nat}
    (hoff : off < (blks xp d inum).length) :
    twp n (getbnum xp.fsxpInode inum off ic)
      (fun r d' => d' = d ∧ (blks xp d inum)[off]? = some r.2.toNat ∧ IcacheRep xp d r.1) d := by
  rw [length_blks] at hoff
  refine twp_seq (getIrec_spec hxp hc hr.lt) fun ⟨ic', ir⟩ d' ⟨hd, hir, hc'⟩ => ?_
  subst hd
  subst hir
  refine twp_bind _ (BlockPtr.get_spec (fun a ha => hxp.data_lt (hr.inds_lt a ha)) (Nat.lt_of_lt_of_le hoff hr.irep.len)
    ⟨rfl, ?_, hc'⟩)
  rw [blks, blockList, List.map_map, getElem?_map_range _ hoff]
  rfl

theorem getallbnum_spec (hxp : xp.Ok n) (hc : IcacheRep xp d ic) (hr : InodeRep xp d inum) :
    twp n (getallbnum xp.fsxpInode inum ic)
      (fun r d' => d' = d ∧ r.2.map BitVec.toNat = blks xp d inum ∧ IcacheRep xp d r.1) d := by
  refine twp_seq (getIrec_spec hxp hc hr.lt) fun ⟨ic', ir⟩ d' ⟨hd, hir, hc'⟩ => ?_
  subst hd
  subst hir
  exact twp_bind _ (BlockPtr.read_spec hr.irep (fun a ha => hxp.data_lt (hr.inds_lt a ha)) ⟨rfl, rfl, hc'⟩)

/-! ## Replacing a record -/

theorem wellFormed_irec (h : (irBlocks x).length = NDirect) : Rec.WellFormed irectype x := by
  have hattrs : Rec.WellFormed iattrtype x.2.1 :=
    ⟨trivial, trivial, trivial, trivial, trivial, trivial, trivial, trivial, trivial, trivial⟩
  exact ⟨trivial, hattrs, trivial, trivial, trivial, ⟨h, fun _ _ => trivial⟩, trivial⟩

/-- Only the table changes, in the record of `inum`. -/
structure RecordPut (xp : FsXparams) (inum : Nat) (x : Irec) (d d' : LDisk) : Prop where
  self : irec xp d' inum = x
  other : ∀ i, i ≠ inum → irec xp d' i = irec xp d i
  frame : ∀ a, ¬ xp.InTable a → d' a = d a
  mono : ∀ a, d.plain a → d'.plain a

theorem recordPut_putItem (hi : inum < xp.nInodes) (hx : (irBlocks x).length = NDirect) :
    RecordPut xp inum x d (LogRecArray.putItem (R := irecSig) d xp.fsxpInode.ixStart inum x) := by
  have hwf := wellFormed_irec hx
  have hin := FsXparams.inTable_of_lt hi
  refine ⟨?_, fun i hne => ?_, fun a ha => ?_, fun a ha => .inr ha⟩
  · rw [irec, LogRecArray.item_putItem (R := irecSig) hwf, if_pos rfl]
  · rw [irec, LogRecArray.item_putItem (R := irecSig) hwf, if_neg hne]
    rfl
  · exact LogRecArray.putItem_of_ne fun h => ha (h ▸ hin)

theorem putIrec_spec (hxp : xp.Ok n) (hc : IcacheRep xp d ic) (hi : inum < xp.nInodes) (hx : (irBlocks x).length = NDirect) :
    twp n (LogRecArrayCache.putArray xp.fsxpInode.ixStart inum x ic)
      (fun ic' d' => RecordPut xp inum x d d' ∧ IcacheRep xp d' ic') d := by
  refine twp_mono (fun ic' d' ⟨hd, hc'⟩ => ⟨?_, hc'⟩) _
    (LogRecArrayCache.putArray_spec (R := irecSig) hc hi (wellFormed_irec hx) (hxp.table_lt (FsXparams.inTable_of_lt hi))
      hxp.table_ne_zero)
  rw [hd]
  exact recordPut_putItem hi hx

/-- The record comes from the cache, and goes to the table whatever this has. -/
theorem updattr_cached (hxp : xp.Ok n) (hi : inum < xp.nInodes) (hget : ic[inum]? = some x)
    (hx : (irBlocks x).length = NDirect) (kv : IattrupdArg) :
    twp n (updattr xp.fsxpInode inum kv ic) (fun ic' d' => RecordPut xp inum (setAttrs x (iattrUpd (irAttrs x) kv)) d d' ∧
      ic' = ic.insert inum (setAttrs x (iattrUpd (irAttrs x) kv))) d := by
  have hlt := hxp.table_lt (FsXparams.inTable_of_lt hi)
  rw [updattr, LogRecArrayCache.getArray, hget]
  refine twp_bind _ (twp_bind _ (LogRecArray.put_spec (R := irecSig) hlt hxp.table_ne_zero ⟨?_, rfl⟩))
  exact recordPut_putItem hi hx

namespace RecordPut

variable (hp : RecordPut xp inum x d d')
include hp

theorem freeOf_eq (hxp : xp.Ok n) (al : Bool) : freeOf xp d' al = freeOf xp d al :=
  BmapAlloc.freeList_congr fun a ha => hp.frame a fun h => hxp.table_not_inBalloc al h ha

theorem data_eq (hxp : xp.Ok n) {a : Nat} (ha : a < xp.dataSize) : d' a = d a := hp.frame a (hxp.not_inTable ha)

theorem inds_eq (hxp : xp.Ok n) (h : ∀ a ∈ indNodes d x, a < xp.dataSize) : inds xp d' inum = indNodes d x := by
  rw [inds, hp.self]
  exact indNodes_congr fun a ha => hp.data_eq hxp (h a ha)

theorem blks_eq (hxp : xp.Ok n) (h : ∀ a ∈ indNodes d x, a < xp.dataSize) :
    blks xp d' inum = (blockList d x).map BitVec.toNat := by
  rw [blks, hp.self, blockList_congr fun a ha => hp.data_eq hxp (h a ha)]

theorem irep (hxp : xp.Ok n) (h : ∀ a ∈ indNodes d x, a < xp.dataSize) (hr : IrecRep d x) :
    IrecRep d' (irec xp d' inum) := by
  rw [hp.self]
  exact hr.congr fun a ha => hp.data_eq hxp (h a ha)

end RecordPut

/-- What the programs that replace the record of `inum` keep. -/
structure InodeStep (xp : FsXparams) (al : Bool) (inum : Nat) (d d' : LDisk) : Prop extends FileChange xp al inum d d' where
  own : (inds xp d' inum ++ freeOf xp d' al).Perm (inds xp d inum ++ freeOf xp d al)
  irep : IrecRep d' (irec xp d' inum)
  new : ∀ a ∈ inds xp d' inum, a ∈ inds xp d inum ∨ d'.plain a

theorem IrecRep.setAttrs (hr : IrecRep d x) (a : Iattr) : IrecRep d (setAttrs x a) :=
  ⟨⟨hr.blocks, hr.len, hr.zero⟩, hr.ind, hr.dind, hr.tind⟩

/-- Replacing the attributes only. -/
theorem putAttrs_spec (hxp : xp.Ok n) (al : Bool) (hc : IcacheRep xp d ic) (hr : InodeRep xp d inum) (a : Iattr) :
    twp n (LogRecArrayCache.putArray xp.fsxpInode.ixStart inum (setAttrs (irec xp d inum) a) ic)
      (fun ic' d' => InodeStep xp al inum d d' ∧ blks xp d' inum = blks xp d inum ∧ inds xp d' inum = inds xp d inum ∧
        attrs xp d' inum = a ∧ (∀ a, ¬ xp.InTable a → d' a = d a) ∧ IcacheRep xp d' ic') d := by
  refine twp_mono (fun ic' d' ⟨hp, hc'⟩ => ?_) _ (putIrec_spec hxp hc hr.lt hr.irep.blocks)
  have hinds : inds xp d' inum = inds xp d inum := hp.inds_eq hxp hr.inds_lt
  refine ⟨⟨⟨fun b _ _ _ ht => hp.frame b ht, fun i _ hne => hp.other i hne, hp.mono⟩, ?_, ?_, fun b hb => .inl (hinds ▸ hb)⟩,
    hp.blks_eq hxp hr.inds_lt, hinds, ?_, hp.frame, hc'⟩
  · rw [hinds, hp.freeOf_eq hxp]
  · exact hp.irep hxp hr.inds_lt (IrecRep.setAttrs hr.irep a)
  · rw [attrs, hp.self]
    rfl

theorem setattrs_spec (hxp : xp.Ok n) (al : Bool) (hc : IcacheRep xp d ic) (hr : InodeRep xp d inum) (a : Iattr) :
    twp n (setattrs xp.fsxpInode inum a ic)
      (fun ic' d' => InodeStep xp al inum d d' ∧ blks xp d' inum = blks xp d inum ∧ inds xp d' inum = inds xp d inum ∧
        attrs xp d' inum = a ∧ (∀ a, ¬ xp.InTable a → d' a = d a) ∧ IcacheRep xp d' ic') d := by
  refine twp_seq (getIrec_spec hxp hc hr.lt) fun ⟨ic', ir⟩ d' ⟨hd, hir, hc'⟩ => ?_
  subst hd
  subst hir
  exact putAttrs_spec hxp al hc' hr a

theorem updattr_spec (hxp : xp.Ok n) (al : Bool) (hc : IcacheRep xp d ic) (hr : InodeRep xp d inum) (a : IattrupdArg) :
    twp n (updattr xp.fsxpInode inum a ic)
      (fun ic' d' => InodeStep xp al inum d d' ∧ blks xp d' inum = blks xp d inum ∧ inds xp d' inum = inds xp d inum ∧
        attrs xp d' inum = iattrUpd (attrs xp d inum) a ∧ (∀ a, ¬ xp.InTable a → d' a = d a) ∧ IcacheRep xp d' ic') d := by
  refine twp_seq (getIrec_spec hxp hc hr.lt) fun ⟨ic', ir⟩ d' ⟨hd, hir, hc'⟩ => ?_
  subst hd
  subst hir
  exact putAttrs_spec hxp al hc' hr _

/-! ## Shrinking and growing -/

/-- The table is behind the blocks that a tree program touches. -/
theorem table_eq_of_frame (hxp : xp.Ok n) (hr : InodeRep xp d inum)
    (hframe : ∀ a, a ∉ inds xp d inum → a ∉ freeOf xp d al → ¬ (xp.balloc al).InBitmap a → d' a = d a) {a : Nat}
    (ha : xp.InTable a) : d' a = d a := by
  have hle : ¬ a < xp.dataSize := fun h => hxp.not_inTable h ha
  refine hframe a (fun h => hle (hr.inds_lt a h)) (fun h => hle ?_) (hxp.table_not_inBalloc al ha)
  have := (BmapAlloc.mem_freeList.1 h).1
  rwa [hxp.size_balloc] at this

/-- A tree program followed by writing the record. -/
theorem RecordPut.fileChange (hxp : xp.Ok n) (hr : InodeRep xp d inum) (hp : RecordPut xp inum x d₁ d')
    (hframe : ∀ a, a ∉ inds xp d inum → a ∉ freeOf xp d al → ¬ (xp.balloc al).InBitmap a → d₁ a = d a)
    (hmono : ∀ a, d.plain a → d₁.plain a) : FileChange xp al inum d d' := by
  refine ⟨fun a hn hf hb ht => (hp.frame a ht).trans (hframe a hn hf hb), fun i hi hne => ?_,
    fun a ha => hp.mono a (hmono a ha)⟩
  rw [hp.other i hne]
  exact irec_congr (fun a ha => table_eq_of_frame hxp hr hframe ha) hi

/-- What `shrink` and `reset` do, with the new attributes `a`. -/
structure ShrinkStep (xp : FsXparams) (al : Bool) (inum nr : Nat) (a : Iattr) (d d' : LDisk) : Prop
    extends InodeStep xp al inum d d' where
  blks_eq : blks xp d' inum = (blks xp d inum).take ((blks xp d inum).length - nr)
  attrs_eq : attrs xp d' inum = a
  sub : ∀ b ∈ inds xp d' inum, b ∈ inds xp d inum
  /-- The nodes that are left are those on the way to the blocks that are left. -/
  mem_inds : (∀ b ∈ blks xp d inum, b ≠ 0) → ∀ b, b ∈ inds xp d' inum ↔
    ∃ off < (blks xp d inum).length - nr, b ∈ slotPath d (irec xp d inum) off
  frame' : ∀ b, b ∉ inds xp d inum → ¬ (xp.balloc al).InBitmap b → ¬ xp.InTable b → d' b = d b

theorem shrinkStep_of_put {nr : Nat} {a : Iattr} (hxp : xp.Ok n) (hr : InodeRep xp d inum)
    (hs : Shrinks (xp.balloc al) d d₁ (irec xp d inum) x (irLen (irec xp d inum) - nr))
    (hp : RecordPut xp inum (setAttrs x a) d₁ d') (hmono : ∀ a, d.plain a → d₁.plain a) :
    ShrinkStep xp al inum nr a d d' := by
  have hlt : ∀ b ∈ indNodes d₁ (setAttrs x a), b < xp.dataSize := fun b hb => hr.inds_lt b (hs.sub b hb)
  have hinds : inds xp d' inum = indNodes d₁ x := hp.inds_eq hxp hlt
  have hch : FileChange xp al inum d d' := hp.fileChange hxp hr (fun b hn _ hb => hs.frame b hn hb) hmono
  refine { toFileChange := hch, own := ?_, irep := hp.irep hxp hlt (IrecRep.setAttrs (hs.rep hr.irep) a), blks_eq := ?_, attrs_eq := ?_,
           new := fun b hb => .inl (hs.sub b (hinds ▸ hb)), sub := fun b hb => hs.sub b (hinds ▸ hb), mem_inds := fun hne b => ?_,
           frame' := fun b hn hb ht => (hp.frame b ht).trans (hs.frame b hn hb) }
  · rw [hinds, hp.freeOf_eq hxp]
    exact hs.own
  · rw [hp.blks_eq hxp hlt, length_blks]
    have hlist : blockList d₁ (setAttrs x a) = blockList d₁ x := rfl
    rw [hlist, hs.blockList_eq (Nat.sub_le _ _), List.map_take]
    rfl
  · rw [attrs, hp.self]
    rfl
  · rw [hinds, length_blks]
    refine hs.mem_nodes hr.irep fun off hlt h0 => hne 0 ?_ rfl
    rw [blks, blockList, List.map_map]
    exact List.mem_map.2 ⟨off, List.mem_range.2 (by omega), by rw [Function.comp_apply, h0]; rfl⟩

theorem shrink_spec (hxp : xp.Ok n) (hc : IcacheRep xp d ic) (hr : InodeRep xp d inum)
    (ho : Owned (xp.balloc al) d (inds xp d inum)) (hac : BmapAllocCache.CacheRep (xp.balloc al) d c) (nr : Nat) :
    twp n (shrink xp.fsxpInode (xp.balloc al) inum nr ic c) (fun r d' =>
      ShrinkStep xp al inum nr (attrs xp d inum) d d' ∧ IcacheRep xp d' r.1 ∧
      BmapAllocCache.CacheRep (xp.balloc al) d' r.2) d := by
  refine twp_seq (getIrec_spec hxp hc hr.lt) fun ⟨ic', ir⟩ d' ⟨hd, hir, hc'⟩ => ?_
  subst hd
  subst hir
  refine twp_seq (twp_plain (BlockPtr.shrink_spec (hxp.dataOk al) hac hr.irep.toZeroPast ho nr))
    fun ⟨c₁, x⟩ d₁ ⟨⟨hs, hac₁⟩, hplain⟩ => ?_
  have htable : ∀ a, xp.InTable a → d₁ a = d' a := fun a ha =>
    table_eq_of_frame hxp hr (fun a hn _ hb => hs.frame a hn hb) ha
  refine twp_seq (putIrec_spec hxp (hc'.congr_table htable) hr.lt hs.past.blocks) fun ic₂ d₂ ⟨hp, hc₂⟩ => ?_
  refine ⟨shrinkStep_of_put hxp hr hs ?_ fun a ha => hplain a (.inl ha), hc₂, hac₁.congr fun a ha => hp.frame a fun h => hxp.table_not_inBalloc al h ha⟩
  have hx : setAttrs x (attrs xp d' inum) = x := by
    have := hs.attrs
    rw [attrs, ← this]
    rfl
  rw [hx]
  exact hp

theorem reset_spec (hxp : xp.Ok n) (hc : IcacheRep xp d ic) (hr : InodeRep xp d inum)
    (ho : Owned (xp.balloc al) d (inds xp d inum)) (hac : BmapAllocCache.CacheRep (xp.balloc al) d c) (nr : Nat) (a : Iattr) :
    twp n (reset xp.fsxpInode (xp.balloc al) inum nr a ic c) (fun r d' =>
      ShrinkStep xp al inum nr a d d' ∧ IcacheRep xp d' r.1 ∧ BmapAllocCache.CacheRep (xp.balloc al) d' r.2) d := by
  refine twp_seq (getIrec_spec hxp hc hr.lt) fun ⟨ic', ir⟩ d' ⟨hd, hir, hc'⟩ => ?_
  subst hd
  subst hir
  refine twp_seq (twp_plain (BlockPtr.shrink_spec (hxp.dataOk al) hac hr.irep.toZeroPast ho nr))
    fun ⟨c₁, x⟩ d₁ ⟨⟨hs, hac₁⟩, hplain⟩ => ?_
  have htable : ∀ a, xp.InTable a → d₁ a = d' a := fun a ha =>
    table_eq_of_frame hxp hr (fun a hn _ hb => hs.frame a hn hb) ha
  refine twp_seq (putIrec_spec (x := setAttrs x a) hxp (hc'.congr_table htable) hr.lt hs.past.blocks)
    fun ic₂ d₂ ⟨hp, hc₂⟩ => ?_
  exact ⟨shrinkStep_of_put hxp hr hs hp fun a ha => hplain a (.inl ha), hc₂, hac₁.congr fun a ha => hp.frame a fun h => hxp.table_not_inBalloc al h ha⟩

/-- What `grow` does. -/
structure GrowStep (xp : FsXparams) (al : Bool) (inum bn : Nat) (d d' : LDisk) : Prop
    extends InodeStep xp al inum d d' where
  blks_eq : blks xp d' inum = blks xp d inum ++ [bn]
  attrs_eq : attrs xp d' inum = attrs xp d inum
  free : ∀ b ∈ freeOf xp d' al, b ∈ freeOf xp d al

theorem grow_spec (hxp : xp.Ok n) (hc : IcacheRep xp d ic) (hr : InodeRep xp d inum)
    (ho : Owned (xp.balloc al) d (inds xp d inum)) (hac : BmapAllocCache.CacheRep (xp.balloc al) d c) {bn : Nat}
    (hbn : bn < xp.dataSize) (hlen : (blks xp d inum).length < nBlocks) :
    twp n (grow xp.fsxpInode (xp.balloc al) inum bn ic c) (fun r d' => IcacheRep xp d' r.1 ∧
      BmapAllocCache.CacheRep (xp.balloc al) d' r.2.1 ∧ (r.2.2 = .ok () → GrowStep xp al inum bn d d') ∧
      ∀ e, r.2.2 = .error e → Fails (xp.balloc al) d r.2.1 d') d := by
  rw [length_blks] at hlen
  refine twp_seq (getIrec_spec hxp hc hr.lt) fun ⟨ic', ir⟩ d' ⟨hd, hir, hc'⟩ => ?_
  subst hd
  subst hir
  refine twp_seq (twp_plain (BlockPtr.grow_spec (hxp.dataOk al) hac hr.irep.toZeroPast ho hlen)) fun ⟨c₁, r⟩ d₁ ⟨hgrow, hplain⟩ => ?_
  cases r with
  | error e =>
    obtain ⟨_, hf⟩ := hgrow.2 e rfl
    exact ⟨hc'.congr_table fun a ha => hf.frame a (hxp.table_not_inBalloc al ha), hf.cache, fun h => (nomatch h), fun _ _ => hf⟩
  | ok x =>
    obtain ⟨hg, hac₁⟩ := hgrow.1 x rfl
    have htable : ∀ a, xp.InTable a → d₁ a = d' a := fun a ha => table_eq_of_frame hxp hr hg.frame ha
    refine twp_seq (putIrec_spec hxp (hc'.congr_table htable) hr.lt hg.past.blocks) fun ic₂ d₂ ⟨hp, hc₂⟩ => ?_
    have hlt : ∀ b ∈ indNodes d₁ x, b < xp.dataSize := fun b hb => by
      rcases List.mem_append.1 (hg.own.mem_iff.1 (List.mem_append_left _ hb)) with h | h
      · exact hr.inds_lt b h
      · have := (BmapAlloc.mem_freeList.1 h).1
        rwa [hxp.size_balloc] at this
    have hinds : inds xp d₂ inum = indNodes d₁ x := hp.inds_eq hxp hlt
    have hch : FileChange xp al inum d' d₂ := hp.fileChange hxp hr hg.frame fun a ha => hplain a (.inl ha)
    refine ⟨hc₂, hac₁.congr fun a ha => hp.frame a fun h => hxp.table_not_inBalloc al h ha, fun _ =>
      { toFileChange := hch, own := ?_, irep := hp.irep hxp hlt (hg.rep hr.irep), new := ?_, blks_eq := ?_, attrs_eq := ?_,
        free := ?_ }, fun e h => (nomatch h)⟩
    · rw [hinds, hp.freeOf_eq hxp]
      exact hg.own
    · intro b hb
      rw [hinds] at hb
      exact (hg.new b hb).imp id (hp.mono b)
    · have hbound := (hxp.dataOk al).bound
      rw [hxp.size_balloc] at hbound
      have hmod : bn % 2 ^ 64 = bn := Nat.mod_eq_of_lt (Nat.lt_trans hbn hbound)
      rw [hp.blks_eq hxp hlt, hg.blockList_eq, List.map_append, List.map_singleton, BitVec.toNat_ofNat, hmod]
      rfl
    · rw [attrs, hp.self, hg.attrs]
      rfl
    · rw [hp.freeOf_eq hxp]
      exact hg.free

end Fscq.INODE
