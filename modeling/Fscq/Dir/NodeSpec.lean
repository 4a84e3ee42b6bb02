import Fscq.Dir.DirCache
import Fscq.Dir.TreeNodes

/-!
# Inodes as nodes

`NodeRep xp d ms Z` says that the allocated inodes of the disk are the nodes `Z`: every node is a file or a directory as it
says, every other inode is free and empty, and what is cached for a directory is the directory. The operations of the
directory layer and of the inode allocator are changes of `Z` at one number.
-/

namespace Fscq

open TxnLogic BFILE
open INODE (iattr0)
open BmapAlloc (freeList)

/-! ## The bitmap of the inodes -/

section Ialloc

variable {xp : FsXparams} {n : Nat} {d d' : LDisk} {extra : List Nat}

/-- Only the bitmap of the inode allocator changes. -/
structure IallocOnly (xp : FsXparams) (d d' : LDisk) : Prop where
  frame : ∀ a, ¬ xp.fsxpInodeAlloc.InBitmap a → d' a = d a
  mono : ∀ a, d.plain a → d'.plain a

namespace IallocOnly

variable (hio : IallocOnly xp d d') (hxp : xp.Ok n)
include hio hxp

theorem irec_eq {i : Nat} (hi : i < xp.nInodes) : irec xp d' i = irec xp d i :=
  irec_congr (fun a ha => hio.frame a fun h => hxp.ialloc_not_inTable h ha) hi

theorem data_eq {a : Nat} (ha : a < xp.dataSize) : d' a = d a := hio.frame a (hxp.not_inIalloc ha)

theorem freeOf_eq (al : Bool) : freeOf xp d' al = freeOf xp d al :=
  BmapAlloc.freeList_congr fun a ha => hio.frame a fun h => hxp.ialloc_not_inBalloc al h ha

variable (hb : BRep xp d extra)
include hb

theorem used_eq {i : Nat} (hi : i < xp.nInodes) : blks xp d' i = blks xp d i ∧ inds xp d' i = inds xp d i :=
  used_congr (hio.irec_eq hxp hi) fun _ ha =>
    hio.data_eq hxp (hb.owned_pos (used_sub_owned hi (List.mem_append_right _ ha))).2

theorem owned_eq : owned xp d' = owned xp d :=
  List.flatMap_congr fun i hi => by
    have h := hio.used_eq hxp hb (List.mem_range.1 hi)
    rw [used, used, h.1, h.2]

theorem brep : BRep xp d' extra where
  own := by
    rw [hio.freeOf_eq hxp, hio.freeOf_eq hxp, hio.owned_eq hxp hb]
    exact hb.own
  irep i hi := by
    rw [hio.irec_eq hxp hi]
    exact (hb.irep i hi).congr fun _ ha =>
      hio.data_eq hxp (hb.owned_pos (used_sub_owned hi (List.mem_append_right _ ha))).2
  plain i hi a ha := by
    rw [(hio.used_eq hxp hb hi).2] at ha
    exact hio.mono a (hb.plain i hi a ha)

theorem file_eq {i : Nat} (hi : i < xp.nInodes) : file xp d' i = file xp d i :=
  Fscq.file_eq (hio.irec_eq hxp hi) (hio.used_eq hxp hb hi).1 fun _ ha =>
    hio.data_eq hxp (hb.owned_pos (used_sub_owned hi (List.mem_append_left _ ha))).2

theorem safe (al : Bool) : Safe xp al d d' where
  free a ha := by rwa [hio.freeOf_eq hxp] at ha
  blk i hi off b hbn := by
    rw [(hio.used_eq hxp hb hi).1] at hbn
    exact .inl hbn
  ind i hi b hbn := by
    rw [(hio.used_eq hxp hb hi).2] at hbn
    exact .inl hbn

theorem msRep {ms : Memstate} {c : BmapCacheType} (hm : MsRep xp d ms)
    (hc : BmapAllocCache.CacheRep xp.fsxpInodeAlloc d' c) : MsRep xp d' { ms with msIAllocC := c } where
  alloc al := (hm.alloc al).congr fun a ha => hio.frame a fun h => hxp.ialloc_not_inBalloc al h ha
  ialloc := hc
  icache := hm.icache.congr_table fun a ha => hio.frame a fun h => hxp.ialloc_not_inTable h ha
  dirty i bn h := by
    obtain ⟨hi, hmem⟩ := hm.dirty i bn h
    exact ⟨hi, by rw [(hio.used_eq hxp hb hi).1]; exact hmem⟩
  clean i hi bn hbn := by
    rw [(hio.used_eq hxp hb hi).1] at hbn
    exact (hm.clean i hi bn hbn).imp (hio.mono bn) id

end IallocOnly

end Ialloc

/-! ## Nodes -/

open DIR (dents DirOk dirMap dirents)
open CacheOneDir (DcacheAt DirKept)
open Dirtree (Kind Nodes)

abbrev FsKind : Type := Kind Sname File

abbrev FsNodes : Type := Nodes Sname File

/-- An empty file without attributes. -/
def dirfile0 : File := ⟨[], iattr0⟩

def NodeOk (xp : FsXparams) (d : LDisk) (i : Nat) : FsKind → Prop
  | .file f => file xp d i = f
  | .dir ents => DirOk (dents xp d i) ∧ (dirents (dents xp d i)).Perm ents

theorem NodeOk.congr {xp : FsXparams} {d d' : LDisk} {i : Nat} {c : FsKind} (h : NodeOk xp d i c)
    (hf : file xp d' i = file xp d i) : NodeOk xp d' i c := by
  have hdents : dents xp d' i = dents xp d i := by rw [dents, dents, hf]
  cases c with
  | file f => exact hf.trans h
  | dir ents =>
    rw [NodeOk, hdents]
    exact h

/-- An empty file is an empty directory, too. -/
theorem nodeOk_empty {xp : FsXparams} {d : LDisk} {i : Nat} {c : FsKind} (hf : file xp d i = dirfile0)
    (hc : c = .file dirfile0 ∨ c = .dir []) : NodeOk xp d i c := by
  have hdents : dents xp d i = [] := by
    rw [dents, hf]
    rfl
  rcases hc with rfl | rfl
  · exact hf
  · rw [NodeOk, hdents]
    exact ⟨⟨by simp, by simp, by simp [dirents]⟩, .refl _⟩

structure NodeRep (xp : FsXparams) (d : LDisk) (ms : Memstate) (Z : FsNodes) : Prop where
  brep : BRep xp d []
  msrep : MsRep xp d ms
  valid : ∀ i c, Z i = some c → i ≠ 0 ∧ i < xp.nInodes
  node : ∀ i c, Z i = some c → NodeOk xp d i c
  free : ∀ i, i ≠ 0 → i < xp.nInodes → (i ∈ freeList xp.fsxpInodeAlloc d ↔ Z i = none)
  empty : ∀ i, i < xp.nInodes → i ∈ freeList xp.fsxpInodeAlloc d → file xp d i = dirfile0
  dcache : ∀ i, DcacheAt xp d i ms
  cached : ∀ i, ms.msCache[i]? ≠ none → ∃ ents, Z i = some (.dir ents)

/-- The nodes after a program, with what direct writes rely on. -/
structure NodeDone (xp : FsXparams) (Z : FsNodes) (ms : Memstate) (d : LDisk) (ms' : Memstate) (d' : LDisk) : Prop where
  rep : NodeRep xp d' ms' Z
  alloc_eq : ms'.msAlloc = ms.msAlloc
  safe : Safe xp ms.msAlloc d d'

namespace NodeDone

variable {xp : FsXparams} {d d₁ d' : LDisk} {ms ms₁ ms' : Memstate} {Z Z₁ : FsNodes}

theorem trans (h₁ : NodeDone xp Z₁ ms d ms₁ d₁) (h₂ : NodeDone xp Z ms₁ d₁ ms' d') : NodeDone xp Z ms d ms' d' :=
  ⟨h₂.rep, h₂.alloc_eq.trans h₁.alloc_eq, h₁.safe.trans (h₁.alloc_eq ▸ h₂.safe)⟩

theorem refl (hr : NodeRep xp d ms Z) : NodeDone xp Z ms d ms d := ⟨hr, rfl, .refl xp _ d⟩

end NodeDone

namespace NodeRep

variable {xp : FsXparams} {n dnum inum : Nat} {d d' : LDisk} {ms ms' : Memstate} {Z : FsNodes}
  {ents : List (Sname × (Nat × Bool))}

/-- Other caches of inodes and free blocks. -/
theorem setCaches (hr : NodeRep xp d ms Z) (hm : MsRep xp d ms') (hc : ms'.msCache = ms.msCache) : NodeRep xp d ms' Z := by
  refine ⟨hr.brep, hm, hr.valid, hr.node, hr.free, hr.empty, fun i dc hint hi => ?_, fun i hi => ?_⟩
  · rw [hc] at hi
    exact hr.dcache i dc hint hi
  · rw [hc] at hi
    exact hr.cached i hi

/-- A sync changes the allocator for new blocks. -/
theorem switch (hr : NodeRep xp d ms Z) : NodeRep xp d { ms with msAlloc := !ms.msAlloc } Z :=
  hr.setCaches { hr.msrep with } rfl

/-- The caches are empty after a crash. -/
theorem recovered (hr : NodeRep xp d ms Z) (hp : ∀ a, d.plain a) : NodeRep xp d msEmpty Z := by
  refine ⟨hr.brep, msRep_empty xp hp, hr.valid, hr.node, hr.free, hr.empty, fun i dc hint hi => ?_, fun i hi => ?_⟩
  · simp [msEmpty] at hi
  · simp [msEmpty] at hi

theorem names_nodup (hr : NodeRep xp d ms Z) {i : Nat} (hi : Z i = some (.dir ents)) : (ents.map Prod.fst).Nodup := by
  obtain ⟨hok, hperm⟩ := hr.node i _ hi
  exact (hperm.map Prod.fst).nodup_iff.mp hok.nodup

theorem not_free (hr : NodeRep xp d ms Z) {i : Nat} {c : FsKind} (hi : Z i = some c) :
    i ∉ freeList xp.fsxpInodeAlloc d := by
  obtain ⟨h0, hlt⟩ := hr.valid i c hi
  rw [hr.free i h0 hlt, hi]
  exact Option.some_ne_none c

theorem dirMap_eq (hr : NodeRep xp d ms Z) {i : Nat} (hi : Z i = some (.dir ents)) (name : Sname) :
    dirMap (dents xp d i) name = ents.lookup name := by
  obtain ⟨hok, hperm⟩ := hr.node i _ hi
  exact lookup_perm hok.nodup hperm name

/-- One file changes. The others, and what is cached for them, stay. -/
theorem change {f : File} {c : FsKind} (hr : NodeRep xp d ms Z) (hi : Z inum ≠ none)
    (hs : FileStep xp ms.msAlloc inum f d d') (hm : MsRep xp d' ms') (hnode : NodeOk xp d' inum c)
    (hother : ∀ j, j ≠ inum → ms'.msCache[j]? = ms.msCache[j]?) (hdc : DcacheAt xp d' inum ms')
    (hcached : ms'.msCache[inum]? ≠ none → ∃ ents, c = .dir ents) : NodeRep xp d' ms' (Function.update Z inum (some c)) := by
  obtain ⟨c₀, hc₀⟩ := Option.ne_none_iff_exists'.mp hi
  obtain ⟨h0, hlt⟩ := hr.valid inum c₀ hc₀
  have hfree : freeList xp.fsxpInodeAlloc d' = freeList xp.fsxpInodeAlloc d := BmapAlloc.freeList_congr hs.ialloc
  refine ⟨hs.brep hr.brep, hm, fun i c' hc' => ?_, fun i c' hc' => ?_, fun i h0' hlt' => ?_, fun i hlt' hif => ?_, fun i => ?_,
    fun i hne => ?_⟩
  · by_cases hii : i = inum
    · rw [hii]
      exact ⟨h0, hlt⟩
    · rw [Function.update_of_ne hii] at hc'
      exact hr.valid i c' hc'
  · by_cases hii : i = inum
    · subst hii
      rw [Function.update_self] at hc'
      cases hc'
      exact hnode
    · rw [Function.update_of_ne hii] at hc'
      exact (hr.node i c' hc').congr (hs.other i (hr.valid i c' hc').2 hii).1
  · rw [hfree]
    by_cases hii : i = inum
    · subst hii
      rw [Function.update_self]
      simp [hr.not_free hc₀]
    · rw [Function.update_of_ne hii]
      exact hr.free i h0' hlt'
  · rw [hfree] at hif
    have hii : i ≠ inum := by
      rintro rfl
      exact hr.not_free hc₀ hif
    rw [(hs.other i hlt' hii).1]
    exact hr.empty i hlt' hif
  · by_cases hii : i = inum
    · rw [hii]
      exact hdc
    · intro dc hint hget
      rw [hother i hii] at hget
      obtain ⟨ents, hz⟩ := hr.cached i (by rw [hget]; exact Option.some_ne_none _)
      have hfile := (hs.other i (hr.valid i _ hz).2 hii).1
      have hdents : dents xp d' i = dents xp d i := by rw [dents, dents, hfile]
      rw [hdents]
      exact hr.dcache i dc hint hget
  · by_cases hii : i = inum
    · subst hii
      obtain ⟨ents, rfl⟩ := hcached hne
      exact ⟨ents, Function.update_self _ _ _⟩
    · rw [hother i hii] at hne
      rw [Function.update_of_ne hii]
      exact hr.cached i hne

/-- A directory changes. -/
theorem dirKept {ents' : List (Sname × (Nat × Bool))} (hr : NodeRep xp d ms Z) (hi : Z dnum = some (.dir ents))
    (hk : DirKept xp dnum ms d ms' d') (hperm : (dirents (dents xp d' dnum)).Perm ents') :
    NodeDone xp (Function.update Z dnum (some (.dir ents'))) ms d ms' d' :=
  ⟨hr.change (by rw [hi]; exact Option.some_ne_none _) hk.toFileStep hk.msrep ⟨hk.dirOk, hperm⟩ hk.cache_other hk.dcache
    fun _ => ⟨ents', rfl⟩, hk.alloc_eq, hk.safe⟩

/-- A directory is read. -/
theorem dirRead (hr : NodeRep xp d ms Z) (hi : Z dnum = some (.dir ents)) (hk : DirKept xp dnum ms d ms' d) :
    NodeDone xp Z ms d ms' d := by
  have hdone := hr.dirKept hi hk (hr.node dnum _ hi).2
  rwa [← hi, Function.update_eq_self] at hdone

/-! ## Directories -/

section Specs

variable (hxp : xp.Ok n) (hr : NodeRep xp d ms Z) (hi : Z dnum = some (.dir ents))
include hxp hr hi

theorem lookup_spec (name : Sname) : twp n (CacheOneDir.lookup xp dnum name ms)
    (fun r d' => d' = d ∧ NodeDone xp Z ms d r.1 d ∧ r.2 = ents.lookup name) d := by
  refine twp_mono (fun r d' ⟨hd, hk, hres⟩ => ⟨hd, hr.dirRead hi hk, ?_⟩) _
    (CacheOneDir.lookup_spec hxp hr.brep hr.msrep (hr.valid dnum _ hi).2 (hr.node dnum _ hi).1 (hr.dcache dnum) name)
  rw [hres]
  exact hr.dirMap_eq hi name

theorem readdir_spec : twp n (CacheOneDir.readdir xp dnum ms)
    (fun r d' => d' = d ∧ NodeDone xp Z ms d r.1 d ∧ r.2.Perm ents) d := by
  refine twp_mono (fun r d' ⟨hd, hk, hres⟩ => ⟨hd, hr.dirRead hi hk, ?_⟩) _
    (CacheOneDir.readdir_spec hxp hr.brep hr.msrep (hr.valid dnum _ hi).2 (hr.node dnum _ hi).1 (hr.dcache dnum))
  rw [hres]
  exact (hr.node dnum _ hi).2

theorem unlink_spec {name : Sname} {v : Nat × Bool} (hv : ents.lookup name = some v) :
    twp n (CacheOneDir.unlink xp dnum name ms) (fun r d' => r.2 = .ok () ∧ ∀ ents', ents.Perm ((name, v) :: ents') →
      NodeDone xp (Function.update Z dnum (some (.dir ents'))) ms d r.1 d') d := by
  refine twp_mono (fun r d' ⟨hsome, _⟩ => ?_) _
    (CacheOneDir.unlink_spec hxp hr.brep hr.msrep (hr.valid dnum _ hi).2 (hr.node dnum _ hi).1 (hr.dcache dnum) name)
  obtain ⟨hok, hk, hperm⟩ := hsome v ((hr.dirMap_eq hi name).trans hv)
  refine ⟨hok, fun ents' hents => hr.dirKept hi hk ?_⟩
  exact (List.perm_cons (name, v)).mp (hperm.symm.trans ((hr.node dnum _ hi).2.trans hents))

theorem link_spec {name : Sname} {isdir : Bool} (h0 : inum ≠ 0) (hlt : inum < 2 ^ 64) :
    twp n (CacheOneDir.link xp dnum name inum isdir ms) (fun r d' => r.2 = .ok () → ents.lookup name = none ∧
      ∀ ents', ents'.Perm ((name, (inum, isdir)) :: ents) →
        NodeDone xp (Function.update Z dnum (some (.dir ents'))) ms d r.1 d') d := by
  refine twp_mono (fun r d' hlink hres => ?_) _
    (CacheOneDir.link_spec hxp hr.brep hr.msrep (hr.valid dnum _ hi).2 (hr.node dnum _ hi).1 (hr.dcache dnum) h0 hlt)
  obtain ⟨hno, hk, hperm⟩ := hlink.ok hres
  refine ⟨(hr.dirMap_eq hi name).symm.trans hno, fun ents' hents => hr.dirKept hi hk ?_⟩
  exact hperm.trans (((hr.node dnum _ hi).2.cons _).trans hents.symm)

end Specs

/-! ## The inode allocator -/

/-- An empty inode becomes a node, or a node becomes a free inode. -/
theorem iallocChange {o : Option FsKind} {c : BmapCacheType} (hxp : xp.Ok n) (hr : NodeRep xp d ms Z) (hio : IallocOnly xp d d')
    (hc : BmapAllocCache.CacheRep xp.fsxpInodeAlloc d' c) (h0 : inum ≠ 0) (hlt : inum < xp.nInodes)
    (hempty : file xp d inum = dirfile0) (hcache : ms.msCache[inum]? = none)
    (ho : ∀ c, o = some c → c = .file dirfile0 ∨ c = .dir [])
    (hself : inum ∈ freeList xp.fsxpInodeAlloc d' ↔ o = none)
    (hother : ∀ j, j ≠ inum → (j ∈ freeList xp.fsxpInodeAlloc d' ↔ j ∈ freeList xp.fsxpInodeAlloc d)) :
    NodeDone xp (Function.update Z inum o) ms d { ms with msIAllocC := c } d' := by
  have hfile : ∀ {i}, i < xp.nInodes → file xp d' i = file xp d i := fun hi => hio.file_eq hxp hr.brep hi
  refine ⟨⟨hio.brep hxp hr.brep, hio.msRep hxp hr.brep hr.msrep hc, fun i c' hc' => ?_, fun i c' hc' => ?_, fun i h0' hlt' => ?_,
    fun i hlt' hif => ?_, fun i => ?_, fun i hne => ?_⟩, rfl, hio.safe hxp hr.brep _⟩
  · by_cases hii : i = inum
    · rw [hii]
      exact ⟨h0, hlt⟩
    · rw [Function.update_of_ne hii] at hc'
      exact hr.valid i c' hc'
  · by_cases hii : i = inum
    · subst hii
      rw [Function.update_self] at hc'
      exact nodeOk_empty ((hfile hlt).trans hempty) (ho c' hc')
    · rw [Function.update_of_ne hii] at hc'
      exact (hr.node i c' hc').congr (hfile (hr.valid i c' hc').2)
  · by_cases hii : i = inum
    · subst hii
      rw [Function.update_self]
      exact hself
    · rw [Function.update_of_ne hii, hother i hii]
      exact hr.free i h0' hlt'
  · rw [hfile hlt']
    by_cases hii : i = inum
    · rw [hii]
      exact hempty
    · exact hr.empty i hlt' ((hother i hii).mp hif)
  · intro dc hint hget
    obtain ⟨ents, hz⟩ := hr.cached i (by rw [hget]; exact Option.some_ne_none _)
    have hdents : dents xp d' i = dents xp d i := by rw [dents, dents, hfile (hr.valid i _ hz).2]
    rw [hdents]
    exact hr.dcache i dc hint hget
  · have hii : i ≠ inum := by
      rintro rfl
      exact hne hcache
    rw [Function.update_of_ne hii]
    exact hr.cached i hne

theorem ialloc_spec (hxp : xp.Ok n) (hr : NodeRep xp d ms Z) : twp n (IAlloc.alloc xp ms.msIAllocC) (fun r d' =>
    ∀ i, r.2 = some i → Z i = none ∧ i ≠ 0 ∧ i < xp.nInodes ∧ IallocOnly xp d d' ∧ ∀ c, c = .file dirfile0 ∨ c = .dir [] →
      NodeDone xp (Function.update Z i (some c)) ms d { ms with msIAllocC := r.1 } d') d := by
  refine twp_mono (fun r d' ⟨halloc, hplain⟩ i hi => ?_) _
    (twp_plain (BmapAllocCache.alloc_spec hxp.iallocOk hr.msrep.ialloc))
  rcases halloc with ⟨hnone, _⟩ | ⟨bn, l, hrl, hmem, hperm, hl, hframe⟩
  · rw [hnone] at hi
    cases hi
  subst hrl
  cases hi
  obtain ⟨hsize, h0, _⟩ := BmapAlloc.mem_freeList.mp hmem
  have hlt : i < xp.nInodes := by rwa [hxp.inodes]
  have hz : Z i = none := (hr.free i h0 hlt).mp hmem
  have hio : IallocOnly xp d d' := ⟨hframe, fun a ha => hplain a (.inl ha)⟩
  refine ⟨hz, h0, hlt, hio, fun c hc => ?_⟩
  have hnd := hperm.nodup_iff.mp (BmapAlloc.nodup_freeList _ _)
  rw [List.nodup_cons] at hnd
  have hcache : ms.msCache[i]? = none := by
    by_contra hne
    obtain ⟨ents, hents⟩ := hr.cached i hne
    rw [hz] at hents
    cases hents
  refine hr.iallocChange hxp hio ?_ h0 hlt (hr.empty i hlt hmem) hcache ?_ ?_ ?_
  · intro l' hl'
    cases hl'
    exact hl
  · intro c' hc'
    cases hc'
    exact hc
  · simp [hnd.1]
  · intro j hj
    rw [hperm.mem_iff, List.mem_cons]
    exact ⟨.inr, fun h => h.resolve_left hj⟩

/-- A node is emptied and its inode is free. -/
theorem resetFree_spec {c : FsKind} (hxp : xp.Ok n) (hr : NodeRep xp d ms Z) (hi : Z inum = some c) :
    twp n (do
      let ms ← BFILE.reset xp inum ms
      let ialc ← IAlloc.free xp inum ms.msIAllocC
      pure { ms with msIAllocC := ialc }) (fun ms' d' => NodeDone xp (Function.update Z inum none) ms d ms' d') d := by
  obtain ⟨h0, hlt⟩ := hr.valid inum c hi
  refine twp_seq (BFILE.reset_spec hxp hr.brep hr.msrep hlt) fun ms₁ d₁ hreset => ?_
  have hempty : file xp d₁ inum = dirfile0 := hreset.self
  have hnone : ms₁.msCache[inum]? = none := by rw [hreset.cache_eq, Bufcache.getElem?_erase', if_pos rfl]
  have hr₁ : NodeRep xp d₁ ms₁ (Function.update Z inum (some (.file dirfile0))) := by
    refine hr.change (by rw [hi]; exact Option.some_ne_none _) hreset.toFileStep hreset.msrep hempty (fun j hj => ?_) ?_ ?_
    · rw [hreset.cache_eq, Bufcache.getElem?_erase', if_neg fun h => hj h.symm]
    · intro dc hint hget
      rw [hnone] at hget
      cases hget
    · exact fun h => absurd hnone h
  have hdone₁ : NodeDone xp (Function.update Z inum (some (.file dirfile0))) ms d ms₁ d₁ :=
    ⟨hr₁, hreset.alloc_eq, hreset.safe⟩
  have hnot := hr₁.not_free (i := inum) (Function.update_self _ _ _)
  refine twp_seq (twp_plain (BmapAllocCache.free_spec hxp.iallocOk hr₁.msrep.ialloc hnot (by rwa [← hxp.inodes]) h0))
    fun ialc d₂ ⟨⟨hperm, hc, hframe⟩, hplain⟩ => ?_
  have hdone₂ := hr₁.iallocChange (o := none) hxp ⟨hframe, fun a ha => hplain a (.inl ha)⟩ hc h0 hlt hempty hnone
    (fun c hc => nomatch hc) ?_ ?_
  · rw [Function.update_idem] at hdone₂
    exact hdone₁.trans hdone₂
  · rw [hperm.mem_iff]
    simp
  · intro j hj
    rw [hperm.mem_iff, List.mem_cons]
    exact ⟨fun h => h.resolve_left hj, .inr⟩

end NodeRep

/-! ## What is free -/

section Released

variable {xp : FsXparams} {d d' : LDisk} {ms ms' : Memstate} {Z Z' : FsNodes} {extra : List Nat} {i : Nat}

/-- An empty file has no block and no node. -/
theorem used_eq_nil (hb : BRep xp d extra) (hi : i < xp.nInodes) (he : file xp d i = dirfile0) : used xp d i = [] := by
  have hblks : blks xp d i = [] := List.map_eq_nil_iff.mp (congrArg File.data he)
  have hlen : INODE.irLen (irec xp d i) = 0 := by
    rw [← BlockPtr.length_blockList d, ← List.length_map (f := BitVec.toNat)]
    exact List.length_eq_zero_iff.mpr hblks
  have hr := hb.irep i hi
  rw [used, hblks, inds, BlockPtr.indNodes, hr.ind (by omega), hr.dind (by omega), hr.tind (by omega)]
  simp

/-- The inode is free and empty, and the blocks that it had in `d` are free, too. -/
structure Released (xp : FsXparams) (d d' : LDisk) (i : Nat) : Prop where
  inode : i ∈ freeList xp.fsxpInodeAlloc d'
  empty : file xp d' i = dirfile0
  blocks : ∀ a ∈ used xp d i, a ∈ freeOf xp d' true ∨ a ∈ freeOf xp d' false

theorem NodeDone.released (hr : NodeRep xp d ms Z) (hd : NodeDone xp Z' ms d ms' d') (h0 : i ≠ 0) (hlt : i < xp.nInodes)
    (hz : Z' i = none) : Released xp d d' i := by
  have hfree := (hd.rep.free i h0 hlt).mpr hz
  have hempty := hd.rep.empty i hlt hfree
  refine ⟨hfree, hempty, fun a ha => ?_⟩
  have hpos := hr.brep.owned_pos (used_sub_owned hlt ha)
  have hnot : a ∉ freeOf xp d ms.msAlloc := hr.brep.not_free _ (.inr (used_sub_owned hlt ha))
  rcases (hd.rep.brep.mem_iff a).mpr ⟨Nat.pos_of_ne_zero hpos.1, hpos.2⟩ with h | h | h | h
  · exact .inl h
  · exact .inr h
  · cases h
  · -- a block that an inode has now was its own before, and this inode has none now
    obtain ⟨j, hj, haj⟩ := List.mem_flatMap.mp h
    have hjlt := List.mem_range.mp hj
    have hbefore : a ∈ used xp d j := by
      rcases List.mem_append.mp haj with hblk | hind
      · obtain ⟨off, hoff⟩ := List.mem_iff_getElem?.mp hblk
        have hmem := (hd.safe.blk j hjlt off a hoff).resolve_right hnot
        exact List.mem_append_left _ (List.mem_of_getElem? hmem)
      · exact List.mem_append_right _ ((hd.safe.ind j hjlt a hind).resolve_right hnot)
    obtain rfl := hr.brep.used_disjoint hjlt hlt hbefore ha
    rw [used_eq_nil hd.rep.brep hlt hempty] at haj
    cases haj

end Released

end Fscq
