import Fscq.Dir.Mkfs

/-!
# Calls that succeed

The specifications say what a call that succeeds has done. Here are the conditions under which the calls on a small file
do succeed: a file with direct blocks only grows if a block is free, and a new entry goes to an empty directory if one
block and one inode are free. Each takes one block.
-/

namespace Fscq

open TxnLogic
open BmapAlloc (freeList)

namespace INODE

variable {xp : FsXparams} {n inum : Nat} {d : LDisk} {ic : ICache}

/-- With a direct slot left no node is allocated. -/
theorem grow_direct (hxp : xp.Ok n) (hc : IcacheRep xp d ic) (hi : inum < xp.nInodes)
    (hblocks : (irBlocks (irec xp d inum)).length = NDirect) (hlen : irLen (irec xp d inum) < NDirect) (bxp : BallocXparams)
    (bn : Nat) (c : BmapCacheType) : twp n (grow xp.fsxpInode bxp inum bn ic c)
      (fun r d' => r.2.2 = .ok () ∧ ∀ a, ¬ xp.InTable a → d' a = d a) d := by
  refine twp_seq (getIrec_spec hxp hc hi) ?_
  rintro ⟨ic', ir⟩ d₁ ⟨hd, hir, hc'⟩
  subst hd
  subst hir
  simp only [BlockPtr.grow, if_pos hlen]
  refine twp_bind _ (twp_pure.mpr (twp_seq (putIrec_spec hxp hc' hi ?_) fun _ _ h => ⟨rfl, h.1.frame⟩))
  exact (List.length_set).trans hblocks

end INODE

namespace BFILE

variable {xp : FsXparams} {n inum : Nat} {d d' : LDisk} {ms : Memstate}

/-- One block of the selected allocator is taken. -/
def TakesBlock (xp : FsXparams) (al : Bool) (d d' : LDisk) : Prop :=
  (freeOf xp d al).length = (freeOf xp d' al).length + 1

theorem grow_ok (hxp : xp.Ok n) (hb : BRep xp d []) (hm : MsRep xp d ms) (hi : inum < xp.nInodes) (v : Valu)
    (hlen : (blks xp d inum).length < INODE.NDirect) (hfree : freeOf xp d ms.msAlloc ≠ []) :
    twp n (grow xp inum v ms) (fun r d' => r.2 = .ok () ∧ TakesBlock xp ms.msAlloc d d') d := by
  refine twp_seq (INODE.getlen_spec hxp hm.icache hi) ?_
  rintro ⟨ic, len⟩ d₀ ⟨hd, hl, hic⟩
  subst hd
  obtain rfl : len = _ := hl
  have hlt : (blks xp d₀ inum).length < BlockPtr.nBlocks := by
    refine Nat.lt_of_lt_of_le hlen ?_
    rw [BlockPtr.nBlocks]
    omega
  simp only [if_pos hlt]
  refine twp_seq (BmapAllocCache.alloc_spec (hxp.dataOk ms.msAlloc).toOk (hm.alloc ms.msAlloc)) ?_
  rintro ⟨c₁, r⟩ d₁ halloc
  rcases halloc with ⟨_, _, hnil, _⟩ | ⟨bn, l, hr, hmem, hperm, _, hframe⟩
  · exact absurd hnil hfree
  simp only [Prod.mk.injEq] at hr
  obtain ⟨rfl, rfl⟩ := hr
  have htable : ∀ a, xp.InTable a → d₁ a = d₀ a := fun a ha => hframe a (hxp.table_not_inBalloc _ ha)
  have hrec := irec_congr htable hi
  rw [INODE.length_blks, ← hrec] at hlen
  obtain ⟨hsize, h0, _⟩ := BmapAlloc.mem_freeList.mp hmem
  rw [hxp.size_balloc] at hsize
  refine twp_seq (INODE.grow_direct hxp (hic.congr_table htable) hi (by rw [hrec]; exact (hb.irep inum hi).blocks) hlen _ _ _) ?_
  rintro ⟨ic₂, c₂, succ⟩ d₂ ⟨hok, hframe₂⟩
  obtain rfl : succ = .ok () := hok
  refine twp_bind _ (twp_writeAt (hxp.data_lt hsize) h0 ⟨rfl, ?_⟩)
  have hfree₂ : freeOf xp (d₂.set bn v) ms.msAlloc = freeOf xp d₁ ms.msAlloc := BmapAlloc.freeList_congr fun a ha => by
    rw [Disk.set_of_ne fun h => hxp.not_inBalloc _ hsize (h ▸ ha), hframe₂ a fun h => hxp.table_not_inBalloc _ h ha]
  rw [TakesBlock, hfree₂, freeOf, hperm.length_eq, List.length_cons]
  rfl

/-- A file with direct blocks only gets another one. -/
theorem truncate_succ_ok (hxp : xp.Ok n) (hb : BRep xp d []) (hm : MsRep xp d ms) (hi : inum < xp.nInodes)
    (hlen : (file xp d inum).data.length < INODE.NDirect) (hfree : freeOf xp d ms.msAlloc ≠ []) :
    twp n (truncate xp inum ((file xp d inum).data.length + 1) ms)
      (fun r d' => r.2 = .ok () ∧ TakesBlock xp ms.msAlloc d d') d := by
  refine twp_seq (getlen_spec hxp hm hi) fun ⟨ms₀, sz⟩ d₀ ⟨hd, hsz, ⟨ic, hms⟩, hm₀⟩ => ?_
  subst hd
  simp only at hms hsz
  subst hms
  subst hsz
  have hnot : ¬ (file xp d₀ inum).data.length + 1 < (file xp d₀ inum).data.length := by omega
  simp only [if_neg hnot, Nat.add_sub_cancel_left]
  rw [length_file_data] at hlen
  exact twp_seq (grow_ok hxp hb hm₀ hi 0 hlen hfree) fun _ _ h => h

/-- An empty file gets its first block. -/
theorem truncate_one_ok (hxp : xp.Ok n) (hb : BRep xp d []) (hm : MsRep xp d ms) (hi : inum < xp.nInodes)
    (hempty : (file xp d inum).data = []) (hfree : freeOf xp d ms.msAlloc ≠ []) :
    twp n (truncate xp inum 1 ms) (fun r _ => r.2 = .ok ()) d := by
  have hgrow := truncate_succ_ok hxp hb hm hi (by rw [hempty]; decide) hfree
  rw [hempty] at hgrow
  exact twp_mono (fun _ _ h => h.1) _ hgrow

/-- Truncating to the blocks that a file has. -/
theorem truncate_same_ok (hxp : xp.Ok n) (hm : MsRep xp d ms) (hi : inum < xp.nInodes) :
    twp n (truncate xp inum (file xp d inum).data.length ms) (fun r _ => r.2 = .ok ()) d := by
  refine twp_seq (getlen_spec hxp hm hi) fun ⟨ms₀, sz⟩ d₀ ⟨hd, hsz, _, _⟩ => ?_
  subst hd
  simp only at hsz
  subst hsz
  simp only [if_neg (Nat.lt_irrefl _), Nat.sub_self, List.replicate_zero]
  exact rfl

end BFILE

/-! ## A new entry in an empty directory -/

open BFILE (Memstate MsRep TakesBlock)
open SDIR (isValidSname)

section Link

variable {xp : FsXparams} {n dnum : Nat} {d : LDisk} {ms : Memstate} (hxp : xp.Ok n) (hb : BRep xp d []) (hm : MsRep xp d ms)
  (hi : dnum < xp.nInodes) (hempty : (file xp d dnum).data = []) (hfree : freeOf xp d ms.msAlloc ≠ [])
include hxp hb hm hi hempty hfree

theorem DIR.link'_ok (name : DIR.Filename) (inum : Nat) (isdir : Bool) : twp n (DIR.link' xp dnum name inum isdir ms)
    (fun r d' => r.2.2 = .ok () ∧ TakesBlock xp ms.msAlloc d d') d := by
  refine twp_seq (FileRecArray.ifind_spec (R := DIR.dentSig) hxp hb hm hi _) fun ⟨ms₁, r⟩ d₁ ⟨hread, hr⟩ => ?_
  obtain ⟨hd, ⟨ic, hms⟩, hm₁⟩ := hread
  subst hd
  simp only at hms
  subst hms
  simp only [hempty, FileRecArray.items, List.flatMap_nil, ifindList] at hr
  subst hr
  have hlen : (blks xp d₁ dnum).length < INODE.NDirect := by
    rw [← BFILE.length_file_data, hempty]
    decide
  exact twp_seq (BFILE.grow_ok hxp hb hm₁ hi _ hlen hfree) fun _ _ h => h

theorem SDIR.link_ok {name : Sname} (hs : isValidSname name = true) (inum : Nat) (isdir : Bool) (ix0 : Nat) :
    twp n (SDIR.link xp dnum name inum isdir ix0 ms) (fun r d' => r.2.2 = .ok () ∧ TakesBlock xp ms.msAlloc d d') d := by
  rw [SDIR.link, if_pos hs]
  refine twp_seq (BFILE.getlen_spec hxp hm hi) fun ⟨ms₁, len⟩ d₁ ⟨hd, hlen, ⟨ic, hms⟩, hm₁⟩ => ?_
  subst hd
  simp only at hms hlen
  subst hms
  rw [hempty] at hlen
  subst hlen
  have hnot : ¬ ix0 < ([] : List Valu).length * DIR.dentSig.itemsPerVal := by simp
  simp only [if_neg hnot]
  exact DIR.link'_ok hxp hb hm₁ hi hempty hfree _ _ _

theorem CacheOneDir.link_ok (hok : DIR.DirOk (DIR.dents xp d dnum)) (hc : CacheOneDir.DcacheAt xp d dnum ms) {name : Sname}
    (hs : isValidSname name = true) (inum : Nat) (isdir : Bool) : twp n (CacheOneDir.link xp dnum name inum isdir ms)
      (fun r d' => r.2 = .ok () ∧ TakesBlock xp ms.msAlloc d d') d := by
  refine twp_seq (CacheOneDir.lookup_spec hxp hb hm hi hok hc name) ?_
  rintro ⟨ms₁, res⟩ d₁ ⟨hd, hkept₁, hres⟩
  subst hd
  have hnone : DIR.dirMap (DIR.dents xp d₁ dnum) name = none := by
    rw [DIR.dirMap, DIR.dents, hempty]
    rfl
  obtain rfl : res = none := hres.trans hnone
  refine twp_seq (CacheOneDir.getDcache_spec hxp hb hkept₁.msrep hi hok hkept₁.dcache) ?_
  rintro ⟨ms₂, dc, hint⟩ d₂ ⟨hd, hkept₂, _⟩
  subst hd
  have hal : ms₂.msAlloc = ms.msAlloc := hkept₂.alloc_eq.trans hkept₁.alloc_eq
  refine twp_seq (SDIR.link_ok hxp hb hkept₂.msrep hi hempty (by rw [hal]; exact hfree) hs inum isdir hint) ?_
  rintro ⟨ms₃, ix, r⟩ d₃ ⟨hr, htake⟩
  obtain rfl : r = .ok () := hr
  refine ⟨rfl, ?_⟩
  rwa [hal] at htake

end Link

namespace DIRTREE

variable {xp : FsXparams} {n dnum : Nat} {d : LDisk} {ms : Memstate} {Z : FsNodes}

theorem mknode_ok (hxp : xp.Ok n) (hr : NodeRep xp d ms Z) (hi : Z dnum = some (.dir []))
    (hempty : (file xp d dnum).data = []) (hfree : freeOf xp d ms.msAlloc ≠ []) (hino : freeList xp.fsxpInodeAlloc d ≠ [])
    (isdir : Bool) {name : Sname} (hs : isValidSname name = true) : twp n (mknode xp dnum isdir name ms)
      (fun r d' => (∃ inum, r.2 = .ok inum) ∧ TakesBlock xp ms.msAlloc d d') d := by
  have hsome : twp n (IAlloc.alloc xp ms.msIAllocC) (fun r _ => ∃ i, r.2 = some i) d := by
    refine twp_mono (fun r d' halloc => ?_) _ (BmapAllocCache.alloc_spec hxp.iallocOk hr.msrep.ialloc)
    rcases halloc with ⟨_, _, hnil, _⟩ | ⟨i, l, hrl, _⟩
    · exact absurd hnil hino
    · exact ⟨i, by rw [hrl]⟩
  refine twp_seq (twp_and (NodeRep.ialloc_spec hxp hr) hsome) fun ⟨ialc, oi⟩ d₁ ⟨halloc, i, hoi⟩ => ?_
  obtain rfl : oi = some i := hoi
  obtain ⟨hz, h0, hlt, hio, hdone⟩ := halloc i rfl
  have hdone₁ := hdone (newKind isdir) (newKind_or isdir)
  have hne : dnum ≠ i := by
    rintro rfl
    rw [hz] at hi
    cases hi
  have hi₁ : Function.update Z i (some (newKind isdir)) dnum = some (.dir []) := by rw [Function.update_of_ne hne, hi]
  obtain ⟨_, hdlt⟩ := hr.valid dnum _ hi
  have hfile : file xp d₁ dnum = file xp d dnum := hio.file_eq hxp hr.brep hdlt
  refine twp_seq (CacheOneDir.link_ok hxp hdone₁.rep.brep hdone₁.rep.msrep hdlt (by rw [hfile]; exact hempty)
    (by rw [hio.freeOf_eq hxp]; exact hfree) (hdone₁.rep.node dnum _ hi₁).1 (hdone₁.rep.dcache dnum) hs i isdir)
    fun ⟨ms₂, ok⟩ d₂ ⟨hok, htake⟩ => ?_
  obtain rfl : ok = .ok () := hok
  refine ⟨⟨i, rfl⟩, ?_⟩
  rw [TakesBlock, hio.freeOf_eq hxp] at htake
  exact htake

end DIRTREE

/-! ## A longer file -/

/-- A file of the tree with direct blocks only gets another one. -/
theorem DIRTREE.addBlock_tree {xp : FsXparams} {n i : Nat} {d : LDisk} {ms : Memstate} {T : FsTree} {p : List Sname} {f : File}
    (hxp : xp.Ok n) (ht : TreeRep xp d ms T) (hp : Dirtree.findSubtree p T = some (.file i f))
    (hlen : f.data.length < INODE.NDirect) (hfree : freeOf xp d ms.msAlloc ≠ []) :
    twp n (BFILE.truncate xp i (f.data.length + 1) ms) (fun r d' =>
      TreeRep xp d' r.1 (Dirtree.updateSubtree p (.file i ⟨f.data ++ [0], f.attr⟩) T) ∧ r.1.msAlloc = ms.msAlloc ∧
      TakesBlock xp ms.msAlloc d d') d := by
  obtain ⟨Z, hr, _⟩ := ht.nodes
  obtain ⟨hi, rfl⟩ := DIRTREE.file_eq ht hp
  refine twp_mono (fun r d' ⟨⟨hok, htake⟩, hdone⟩ => ?_) _ (twp_and (BFILE.truncate_succ_ok hxp hr.brep hr.msrep hi hlen hfree)
    (BFILE.truncate_spec hxp hr.brep hr.msrep hi _))
  have hfile := (hdone.ok hok).1
  rw [BFILE.resize_add] at hfile
  have htree := DIRTREE.fileDone_tree ht hp hfile
  exact ⟨htree.rep, htree.alloc_eq, htake⟩

/-! ## A rename within a directory

The place of the old name is free when the new name is linked, so no block is needed. -/

namespace DIR

open BFILE (Memstate)
open FileRecArray (ReadDone)

/-- The directory has a free place. -/
def Room (xp : FsXparams) (dnum : Nat) (d : LDisk) : Prop := ∃ de ∈ dents xp d dnum, isValid de = false

section Room

variable {xp : FsXparams} {n dnum : Nat} {d : LDisk} {ms : Memstate} {extra : List Nat} (hxp : xp.Ok n)
  (hb : BRep xp d extra) (hm : MsRep xp d ms) (hi : dnum < xp.nInodes)
include hxp hb hm hi

theorem unlink_room (hok : EntriesOk (entries (dents xp d dnum))) {name : Filename} {v : Nat × Bool}
    (hv : (entries (dents xp d dnum)).lookup name = some v) :
    twp n (unlink xp dnum name ms) (fun _ d' => Room xp dnum d') d := by
  refine twp_seq (ifindLookupF_spec hxp hb hm hi name) fun ⟨ms₁, r⟩ d₁ ⟨⟨hd, _, hm₁⟩, hr⟩ => ?_
  subst hd
  have hmap := hok.ifindList_lookupF name
  obtain rfl : r = _ := hr
  cases hf : ifindList (lookupF name) (dents xp d₁ dnum) 0 with
  | none =>
    rw [hf, hv] at hmap
    cases hmap
  | some r =>
    obtain ⟨ix, de⟩ := r
    obtain ⟨j, hix, hj, _⟩ := ifindList_some hf
    obtain rfl : ix = j := by omega
    have hlt := (List.getElem?_eq_some_iff.mp hj).1
    refine twp_seq (put_spec hxp hb hm₁ hi hlt dentSig.wellFormed_item0) fun ms₂ d₂ ⟨_, hdents⟩ => ?_
    refine ⟨dent0, ?_, isValid_dent0⟩
    rw [hdents]
    exact List.mem_set hlt _

theorem link_room (hroom : Room xp dnum d) {inum : Nat} (hlt : inum < 2 ^ 64) (name : Filename) (isdir : Bool) (ix0 : Nat) :
    twp n (link xp dnum name inum isdir ix0 ms) (fun r _ => r.2.2 = .ok ()) d := by
  refine twp_mono (fun r d' hlink => ?_) _ (link_spec hxp hb hm hi hlt name isdir ix0)
  cases hr : r.2.2 with
  | ok _ => rfl
  | error e =>
    obtain ⟨de, hmem, hinv⟩ := hroom
    have hvalid := (hlink.error e hr).2 de hmem
    rw [hinv] at hvalid
    cases hvalid

end Room

end DIR

open DIR (dents DirOk dirMap Room)

section Room

variable {xp : FsXparams} {n dnum : Nat} {d : LDisk} {ms : Memstate} {extra : List Nat} (hxp : xp.Ok n)
  (hb : BRep xp d extra) (hm : MsRep xp d ms) (hi : dnum < xp.nInodes) (hok : DirOk (dents xp d dnum))
include hxp hb hm hi hok

theorem SDIR.unlink_room {name : Sname} {v : Nat × Bool} (hv : dirMap (dents xp d dnum) name = some v) :
    twp n (SDIR.unlink xp dnum name ms) (fun _ d' => Room xp dnum d') d := by
  have hs : isValidSname name = true := by
    by_contra hs
    rw [hok.dirMap_of_invalid hs] at hv
    cases hv
  rw [SDIR.unlink, if_pos hs]
  rw [hok.dirMap_valid hs] at hv
  exact DIR.unlink_room hxp hb hm hi hok.entriesOk hv

variable (hc : CacheOneDir.DcacheAt xp d dnum ms)
include hc

theorem CacheOneDir.unlink_room {name : Sname} {v : Nat × Bool} (hv : dirMap (dents xp d dnum) name = some v) :
    twp n (CacheOneDir.unlink xp dnum name ms) (fun _ d' => Room xp dnum d') d := by
  refine twp_seq (CacheOneDir.getDcache_spec hxp hb hm hi hok hc) fun ⟨ms₁, dc, hint⟩ d₁ ⟨hd, hkept, hdc⟩ => ?_
  subst hd
  simp only at hdc ⊢
  rw [hdc name, hv]
  exact twp_seq (SDIR.unlink_room hxp hb hkept.msrep hi hok hv) fun _ _ h => h

theorem CacheOneDir.link_room (hroom : Room xp dnum d) {name : Sname} (hs : isValidSname name = true)
    (hno : dirMap (dents xp d dnum) name = none) {inum : Nat} (hlt : inum < 2 ^ 64) (isdir : Bool) :
    twp n (CacheOneDir.link xp dnum name inum isdir ms) (fun r _ => r.2 = .ok ()) d := by
  refine twp_seq (CacheOneDir.lookup_spec hxp hb hm hi hok hc name) fun ⟨ms₁, res⟩ d₁ ⟨hd, hkept₁, hres⟩ => ?_
  subst hd
  obtain rfl : res = none := hres.trans hno
  refine twp_seq (CacheOneDir.getDcache_spec hxp hb hkept₁.msrep hi hok hkept₁.dcache)
    fun ⟨ms₂, dc, hint⟩ d₂ ⟨hd, hkept₂, _⟩ => ?_
  subst hd
  have hlink : twp n (SDIR.link xp dnum name inum isdir hint ms₂) (fun r _ => r.2.2 = .ok ()) d₂ := by
    rw [SDIR.link, if_pos hs]
    exact DIR.link_room hxp hb hkept₂.msrep hi hroom hlt _ _ _
  refine twp_seq hlink fun ⟨ms₃, ix, r⟩ d₃ hr => ?_
  obtain rfl : r = .ok () := hr
  rfl

end Room

namespace DIRTREE

theorem namei_nil {xp : FsXparams} {n : Nat} (dnum : Nat) (ms : Memstate) (d : LDisk) :
    twp n (namei xp dnum [] ms) (fun r d' => d' = d ∧ r = (ms, .ok (dnum, true))) d := ⟨rfl, rfl⟩

/-- A rename to a name that is free once the old name is gone, which may be the old name, succeeds. -/
theorem rename_ok {xp : FsXparams} {n dnum : Nat} {d : LDisk} {ms : Memstate} {Z : FsNodes}
    {ents ents' : List (Sname × (Nat × Bool))} {srcname dstname : Sname} {v : Nat × Bool} (hxp : xp.Ok n)
    (hr : NodeRep xp d ms Z) (hi : Z dnum = some (.dir ents)) (hsrc : ents.lookup srcname = some v) (hlt : v.1 < 2 ^ 64)
    (hents : ents.Perm ((srcname, v) :: ents')) (hdst : ents'.lookup dstname = none) (hs : isValidSname dstname = true) :
    twp n (rename xp dnum [] srcname [] dstname ms) (fun r _ => r.2 = .ok ()) d := by
  refine twp_seq (namei_nil dnum ms d) ?_
  rintro _ _ ⟨rfl, rfl⟩
  refine twp_seq (NodeRep.lookup_spec hxp hr hi srcname) fun ⟨ms₁, osrc⟩ d₁ ⟨hd, hdone₁, hlook⟩ => ?_
  subst hd
  obtain rfl : osrc = some v := hlook.trans hsrc
  have hr₁ := hdone₁.rep
  have hok := (hr₁.node dnum _ hi).1
  have hroom := CacheOneDir.unlink_room hxp hr₁.brep hr₁.msrep (hr.valid dnum _ hi).2 hok (hr₁.dcache dnum)
    ((hr₁.dirMap_eq hi srcname).trans hsrc)
  refine twp_seq (twp_and (NodeRep.unlink_spec hxp hr₁ hi hsrc) hroom) fun ⟨ms₂, _⟩ d₂ ⟨⟨_, hun⟩, hroom₂⟩ => ?_
  have hr₂ := (hun ents' hents).rep
  have hi₂ : Function.update Z dnum (some (.dir ents')) dnum = some (.dir ents') := Function.update_self ..
  refine twp_seq (namei_nil dnum ms₂ d₂) ?_
  rintro _ _ ⟨rfl, rfl⟩
  refine twp_seq (NodeRep.lookup_spec hxp hr₂ hi₂ dstname) fun ⟨ms₃, odst⟩ d₃ ⟨hd, hdone₃, hlook⟩ => ?_
  subst hd
  obtain rfl : odst = none := hlook.trans hdst
  have hr₃ := hdone₃.rep
  exact CacheOneDir.link_room hxp hr₃.brep hr₃.msrep (hr₃.valid dnum _ hi₂).2 (hr₃.node dnum _ hi₂).1 (hr₃.dcache dnum)
    hroom₂ hs ((hr₃.dirMap_eq hi₂ dstname).trans hdst) hlt v.2

end DIRTREE

end Fscq
