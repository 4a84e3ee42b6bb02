import Fscq.Afs.TreeSeq

/-!
# Disks of a tree sequence

Each disk that a crash may fall back to holds the tree of a version, and only blocks of its files have older values, those
that the version allows (`Image`). A block of a file that the newest disk has was at the same place of the older disk if the
file has kept it, and free there otherwise (`Since`): so a direct write changes the older disks as it changes the versions.
-/

namespace Fscq

open TxnLogic CrashLogic BFILE LogReplay
open Bufcache (updVs updVs_of_ne syncAddrs)
open Dirtree (findSubtree mapFiles HasNode InodesDistinct)
open BmapAlloc (freeList)

namespace TreeSeq

variable {xp : FsXparams} {n : Nat} {e r : RawDisk Valu} {V : Version} {T T' : FsTree}

/-! ## Disks without older values -/

theorem ldisk_syncMem (e : RawDisk Valu) (a : Nat) : ldisk (syncMem e) a = ldisk e a := by
  simp only [ldisk, syncMem, Option.map_map]
  rfl

theorem plain_syncMem (e : RawDisk Valu) (a : Nat) : (ldisk (syncMem e)).plain a := by
  intro vs hvs
  obtain ⟨_, _, rfl⟩ := Option.map_eq_some_iff.1 hvs
  rfl

theorem synced_syncMem (e : RawDisk Valu) : Synced (ldisk e) (ldisk (syncMem e)) :=
  ⟨ldisk_syncMem e, fun a _ => plain_syncMem e a⟩

/-- The value of a block after a crash. -/
theorem crash_value (hc : PossibleCrash e r) (a : Nat) : ldisk r a = ldisk e a ∨ ∃ vs, e a = some vs ∧ ldisk r a ∈ vs.2 := by
  rcases hc a with ⟨he, hr⟩ | ⟨vs, v, he, hr, hv⟩
  · exact .inl (by simp [ldisk, he, hr])
  · have hval : ldisk r a = v := ldisk_apply hr
    rw [hval]
    rcases List.mem_cons.1 hv with rfl | hv
    · exact .inl (ldisk_apply he).symm
    · exact .inr ⟨vs, he, hv⟩

/-! ## Images -/

structure Image (xp : FsXparams) (V : Version) (e : RawDisk Valu) : Prop where
  tree : TreeRep xp (ldisk (syncMem e)) msEmpty V.tree
  data : ∀ a, ¬ (ldisk e).plain a → a < xp.dataSize ∧ ∀ i, i < xp.nInodes → a ∉ inds xp (ldisk e) i
  files : ∀ a, ¬ (ldisk e).plain a → ∀ i, i ≠ 0 → i < xp.nInodes → a ∈ blks xp (ldisk e) i → HasNode V.tree i false
  old : ∀ {i off bn vs w}, HasNode V.tree i false → (blks xp (ldisk e) i)[off]? = some bn → e bn = some vs → w ∈ vs.2 →
    V.old i off w

theorem image_settled {fms : BFILE.Memstate} (hxp : xp.Ok n) (hp : Plain e) (ht : TreeRep xp (ldisk e) fms T) :
    Image xp (.settled T) e := by
  have hplain : ∀ a, (ldisk e).plain a := fun a => hp a
  refine ⟨ht.synced hxp (synced_syncMem e) (BFILE.msRep_empty xp (plain_syncMem e)) (cacheLess_msEmpty _),
    fun a ha => absurd (hplain a) ha, fun a ha => absurd (hplain a) ha, fun {i off bn vs w} _ _ hvs hw => ?_⟩
  rw [hp bn vs hvs] at hw
  cases hw

theorem getElem?_file_data (xp : FsXparams) (d : LDisk) (i off : Nat) :
    (file xp d i).data[off]? = (blks xp d i)[off]?.map d := List.getElem?_map

theorem Image.falls (hxp : xp.Ok n) (hi : Image xp V e) (hc : PossibleCrash e r) :
    ∃ T', V.Falls T' ∧ TreeRep xp (ldisk r) msEmpty T' := by
  have hplain : ∀ a, (ldisk r).plain a := fun a => LOG.plain_of_crash hc a
  have hs := synced_syncMem e
  have hw : DataIn xp (fun a => ¬ (ldisk e).plain a) (ldisk (syncMem e)) (ldisk r) := by
    refine ⟨fun a ha => (hi.data a ha).1, fun a ha i hlt hind => ?_, fun a ha => ?_, fun a _ _ => hplain a⟩
    · rw [(hs.used_eq hlt).2] at hind
      exact (hi.data a ha).2 i hlt hind
    · rw [ldisk_syncMem]
      refine (crash_value hc a).resolve_right ?_
      rintro ⟨vs, hvs, hmem⟩
      rw [not_not.1 ha vs hvs] at hmem
      cases hmem
  refine ⟨mapFiles (fun i _ => file xp (ldisk r) i) V.tree, ⟨_, rfl, fun p i f hp => ?_⟩,
    hi.tree.fill hxp hw (fun i h0 hlt a ha hS => ?_) (msRep_empty xp hplain) (cacheLess_msEmpty _) fun _ _ _ _ => rfl⟩
  · obtain ⟨hlt, rfl⟩ := DIRTREE.file_eq hi.tree hp
    have hblks : blks xp (ldisk r) i = blks xp (ldisk e) i := (hw.used_eq hxp hlt).1.trans (hs.used_eq hlt).1
    refine ⟨by rw [file, file, INODE.attrs, INODE.attrs, hw.irec_eq hxp hlt], ?_, fun off v hv => ?_⟩
    · rw [length_file_data, length_file_data, (hw.used_eq hxp hlt).1]
    · rw [getElem?_file_data, hblks] at hv
      rw [getElem?_file_data, (hs.used_eq hlt).1]
      obtain ⟨bn, hbn, rfl⟩ := Option.map_eq_some_iff.1 hv
      rcases crash_value hc bn with hval | ⟨vs, hvs, hmem⟩
      · left
        rw [hbn, Option.map_some, ldisk_syncMem, hval]
      · right
        exact hi.old ⟨p, _, hp, rfl, rfl⟩ hbn hvs hmem
  · rw [(hs.used_eq hlt).1] at ha
    exact hi.files a hS i h0 hlt ha

/-! ## Blocks across a call -/

section Carries

variable {ms ms' : Memstate} {d d' : LDisk}

/-- What a call through the log does to the blocks of files: a block that the file has before and after it is the same block,
and still dirty if it was; a block that is new was free, and has no older value. -/
structure Carries (xp : FsXparams) (T : FsTree) (ms : Memstate) (d : LDisk) (T' : FsTree) (ms' : Memstate) (d' : LDisk) :
    Prop where
  alloc_eq : ms'.msAlloc = ms.msAlloc
  free : ∀ a ∈ freeOf xp d' ms.msAlloc, a ∈ freeOf xp d ms.msAlloc
  kept : ∀ {i off bn}, HasBlock T i off → HasBlock T' i off → (blks xp d' i)[off]? = some bn →
    (blks xp d i)[off]? = some bn ∧ (bn ∈ getDirty i ms.msDBlocks → bn ∈ getDirty i ms'.msDBlocks)
  fresh : ∀ {i off bn}, ¬ HasBlock T i off → HasBlock T' i off → (blks xp d' i)[off]? = some bn →
    bn ∈ freeOf xp d ms.msAlloc ∧ d'.plain bn
  grown : ∀ i, i < xp.nInodes → ∀ a ∈ blks xp d' i, a ∈ blks xp d i ∨ d'.plain a

/-- An inode without a node has no blocks. -/
theorem blks_eq_nil (ht : TreeRep xp d ms T) {i : Nat} (h0 : i ≠ 0) (hlt : i < xp.nInodes) (hno : ∀ b, ¬ HasNode T i b) :
    blks xp d i = [] := by
  obtain ⟨Z, hr, hrep⟩ := ht.nodes
  have hz : Z i = none := by
    by_contra hne
    obtain ⟨c, hc⟩ := Option.ne_none_iff_exists'.1 hne
    obtain ⟨p, hp⟩ := hrep.surj hc
    obtain ⟨u, hu, hl⟩ := Option.map_eq_some_iff.1 hp
    refine hno u.isdir ⟨p, u, hu, ?_, rfl⟩
    rw [← Dirtree.label_fst, hl]
  exact List.map_eq_nil_iff.mp (congrArg File.data (hr.empty i hlt ((hr.free i h0 hlt).mpr hz)))

theorem node_valid (ht : TreeRep xp d ms T) {i : Nat} {b : Bool} (h : HasNode T i b) :
    i ≠ 0 ∧ i < xp.nInodes ∧ i ∉ freeList xp.fsxpInodeAlloc d := by
  obtain ⟨Z, hr, hrep⟩ := ht.nodes
  obtain ⟨p, u, hu, rfl, _⟩ := h
  have hz := (DIRTREE.holds_tree hrep).node hu
  exact ⟨(hr.valid _ _ hz).1, (hr.valid _ _ hz).2, hr.not_free hz⟩

variable (ht : TreeRep xp d ms T) (ht' : TreeRep xp d' ms' T')
  (hnodes : ∀ i, HasNode T' i false → HasNode T i false ∨ ∀ b, ¬ HasNode T i b)
include ht ht' hnodes

/-- A block that the file did not have before is behind its end. -/
theorem length_le_of_new {i off : Nat} (hno : ¬ HasBlock T i off) (hb : HasBlock T' i off) : (blks xp d i).length ≤ off := by
  rcases hnodes i hb.node with h | h
  · rw [ht.hasBlock h] at hno
    exact Nat.le_of_not_lt hno
  · obtain ⟨h0, hlt, _⟩ := node_valid ht' hb.node
    rw [blks_eq_nil ht h0 hlt h]
    exact Nat.zero_le _

/-- The files outside `X` keep their blocks; for the others there is another reason. -/
theorem carries_of_apart {X : Nat → Prop} (hal : ms'.msAlloc = ms.msAlloc) (hs : Safe xp ms.msAlloc d d')
    (ha : Apart xp X ms d ms' d')
    (hX : ∀ i, X i → HasNode T' i false → ∀ off bn : Nat, (blks xp d' i)[off]? = some bn →
      (off < (blks xp d i).length → (blks xp d i)[off]? = some bn ∧
        (bn ∈ getDirty i ms.msDBlocks → bn ∈ getDirty i ms'.msDBlocks)) ∧
      ((blks xp d i).length ≤ off → bn ∈ freeOf xp d ms.msAlloc ∧ d'.plain bn)) :
    Carries xp T ms d T' ms' d' := by
  refine ⟨hal, hs.free, fun {i off bn} hb hb' hbn => ?_, fun {i off bn} hno hb' hbn => ?_, ha.fresh⟩
  · have hoff : off < (blks xp d i).length := (ht.hasBlock hb.node).1 hb
    by_cases hxi : X i
    · exact (hX i hxi hb'.node off bn hbn).1 hoff
    · have hlt := (node_valid ht' hb'.node).2.1
      refine ⟨?_, ha.dirty i hlt hxi bn (List.mem_of_getElem? hbn)⟩
      rwa [ha.blks_eq i hlt hxi] at hbn
  · have hlen := length_le_of_new ht ht' hnodes hno hb'
    by_cases hxi : X i
    · exact (hX i hxi hb'.node off bn hbn).2 hlen
    · rw [ha.blks_eq i (node_valid ht' hb'.node).2.1 hxi, List.getElem?_eq_none hlen] at hbn
      cases hbn

/-- An operation on directories. -/
theorem carries_of_loose (hal : ms'.msAlloc = ms.msAlloc) (hs : Safe xp ms.msAlloc d d')
    (ha : Apart xp (DIRTREE.Loose xp T d') ms d ms' d') : Carries xp T ms d T' ms' d' := by
  refine carries_of_apart ht ht' hnodes hal hs ha fun i hX hi => ?_
  exfalso
  rcases hX with hdir | hfree
  · rcases hnodes i hi with h | h
    · have heq := hdir.unique (FsRun.TreeRep.inodesDistinct ht) h
      cases heq
    · exact h true hdir
  · exact (node_valid ht' hi).2.2 hfree

end Carries

section Truncate

variable {ms ms' : Memstate} {d d' : LDisk} {inum newsz : Nat}

/-- A block stays where it is, or it is freed to the allocator that is not selected. -/
theorem stays_or_freed {al : Bool} (hb : BRep xp d []) (hb' : BRep xp d' []) (hs : Safe xp al d d') {i off bn : Nat}
    (hi : i < xp.nInodes) (hbn : (blks xp d i)[off]? = some bn) :
    (blks xp d' i)[off]? = some bn ∨ bn ∈ freeOf xp d' !al := by
  have hmem := List.mem_of_getElem? hbn
  have hown : bn ∈ owned xp d := used_sub_owned hi (List.mem_append_left _ hmem)
  obtain ⟨hne, hlt⟩ := hb.owned_pos hown
  have hnot : ∀ al, bn ∉ freeOf xp d al := fun al => hb.not_free al (.inr hown)
  have hfree : bn ∈ freeOf xp d' true ∨ bn ∈ freeOf xp d' false → bn ∈ freeOf xp d' !al := by
    intro h
    cases al with
    | true => exact h.resolve_left fun h => hnot true (hs.free bn h)
    | false => exact h.resolve_right fun h => hnot false (hs.free bn h)
  rcases (hb'.mem_iff bn).mpr ⟨Nat.pos_of_ne_zero hne, hlt⟩ with h | h | h | h
  · exact .inr (hfree (.inl h))
  · exact .inr (hfree (.inr h))
  · cases h
  · obtain ⟨j, hj, hbj⟩ := List.mem_flatMap.mp h
    have hjlt := List.mem_range.mp hj
    rcases List.mem_append.mp hbj with hblk | hind
    · obtain ⟨off', hoff'⟩ := List.mem_iff_getElem?.mp hblk
      have hold := (hs.blk j hjlt off' bn hoff').resolve_right (hnot al)
      obtain rfl := hb.used_disjoint hjlt hi (List.mem_append_left _ (List.mem_of_getElem? hold)) (List.mem_append_left _ hmem)
      have hoff : off' = off := by
        have hnd := hb.blks_nodup hjlt
        obtain ⟨h₁, h₁'⟩ := List.getElem?_eq_some_iff.1 hold
        obtain ⟨h₂, h₂'⟩ := List.getElem?_eq_some_iff.1 hbn
        exact (List.Nodup.getElem_inj_iff hnd).1 (h₁'.trans h₂'.symm)
      rw [hoff] at hoff'
      exact .inl hoff'
    · exact absurd ((hs.ind j hjlt bn hind).resolve_right (hnot al)) (hb.notNode hi hmem hjlt)

/-- A file that is resized keeps its blocks up to the new length, and its new blocks were written. -/
theorem carries_truncate {p : List Sname} {f : File} (ht : TreeRep xp d ms T) (hp : findSubtree p T = some (.file inum f))
    (hd : FileDone xp inum ⟨resize f.data newsz, f.attr⟩ ms d ms' d')
    (hf : BFILE.Frees xp ms.msAlloc inum newsz d d') (ha : Apart xp (· = inum) ms d ms' d') :
    Carries xp T ms d (Dirtree.updateSubtree p (.file inum ⟨resize f.data newsz, f.attr⟩) T) ms' d' := by
  have ht' := (DIRTREE.fileDone_tree ht hp hd).rep
  obtain ⟨Z, hr, hrep⟩ := ht.nodes
  obtain ⟨_, hr', _⟩ := ht'.nodes
  obtain ⟨hi, rfl⟩ := DIRTREE.file_eq ht hp
  have hb := hr.brep
  have hlen : (blks xp d' inum).length = newsz := by
    have h := congrArg (fun f => f.data.length) hd.self
    simpa only [length_file_data, length_resize] using h
  refine carries_of_apart ht ht' (fun i h => .inl (hasNode_setFile hp h)) hd.alloc_eq hd.safe ha ?_
  intro i hii _ off bn hbn
  rw [hii] at hbn ⊢
  have hoff' : off < newsz := by
    rw [← hlen]
    exact (List.getElem?_eq_some_iff.1 hbn).1
  refine ⟨fun hoff => ?_, fun hoff => ?_⟩
  · obtain ⟨b, hbo⟩ : ∃ b, (blks xp d inum)[off]? = some b := ⟨_, List.getElem?_eq_getElem hoff⟩
    have hmem := List.mem_of_getElem? hbo
    have hown : b ∈ owned xp d := used_sub_owned hi (List.mem_append_left _ hmem)
    have hstay : (blks xp d' inum)[off]? = some b := by
      refine (stays_or_freed hb hr'.brep hd.safe hi hbo).resolve_right fun hfree => ?_
      by_cases hshort : newsz < (blks xp d inum).length
      · have hfreed := (hf.shorter hshort).2.mem_iff.mp hfree
        rw [List.mem_append, List.mem_append] at hfreed
        rcases hfreed with h | h | h
        · refine hb.not_mem_drop hi (k := newsz) ?_ h
          refine List.mem_of_getElem? (i := off) ?_
          rwa [List.getElem?_take_of_lt hoff']
        · exact hb.notNode hi hmem hi (List.mem_filter.1 h).1
        · exact hb.not_free _ (.inr hown) h
      · rw [(hf.longer (Nat.le_of_not_lt hshort)).2] at hfree
        exact hb.not_free _ (.inr hown) hfree
    rw [hbn] at hstay
    cases hstay
    refine ⟨hbo, fun hdb => ?_⟩
    by_contra hnot
    exact (hd.clean inum hi bn (List.mem_of_getElem? hbn) hnot).2 hdb
  · have hfree : bn ∈ freeOf xp d ms.msAlloc := by
      refine (hd.safe.blk inum hi off bn hbn).resolve_left fun h => ?_
      rw [List.getElem?_eq_none hoff] at h
      cases h
    refine ⟨hfree, (ha.fresh inum hi bn (List.mem_of_getElem? hbn)).resolve_left fun h => ?_⟩
    exact hb.not_free _ (.inr (used_sub_owned hi (List.mem_append_left _ h))) hfree

end Truncate

/-! ## Images across a call -/

section Next

variable {ms ms' : Memstate} {cur : Valumap} {c : Call}

/-- An older value in the new disk is one in the old disk. -/
theorem overlay_old {a : Nat} {vs : ValuSet Valu} {w : Valu} (h : overlay cur e a = some vs) (hw : w ∈ vs.2) :
    e a = some vs := by
  cases hm : cur[a]? with
  | none => rwa [overlay_none hm] at h
  | some v =>
    rw [overlay_some hm] at h
    obtain ⟨_, _, rfl⟩ := Option.map_eq_some_iff.1 h
    cases hw

theorem Image.next (hxp : xp.Ok n) (hi : Image xp V e) (ht : TreeRep xp (ldisk e) ms V.tree)
    (ht' : TreeRep xp (ldisk (overlay cur e)) ms' T')
    (hnodes : ∀ i b, HasNode T' i b → HasNode V.tree i b ∨ ∀ b', ¬ HasNode V.tree i b')
    (hc : Carries xp V.tree ms (ldisk e) T' ms' (ldisk (overlay cur e)))
    (hover : ∀ i off bn, c.Overwrites i off → (blks xp (ldisk (overlay cur e)) i)[off]? = some bn →
      (ldisk (overlay cur e)).plain bn) : Image xp (V.next c T') (overlay cur e) where
  tree := ht'.synced hxp (synced_syncMem _) (msRep_empty xp (plain_syncMem _)) (cacheLess_msEmpty _)
  data a ha := by
    obtain ⟨_, hr', _⟩ := ht'.nodes
    exact ⟨(hi.data a fun h => ha (plain_overlay cur h)).1, fun i hlt h => ha (hr'.brep.plain i hlt a h)⟩
  files a ha i h0 hlt hmem := by
    have hfile := hi.files a (fun h => ha (plain_overlay cur h)) i h0 hlt ((hc.grown i hlt a hmem).resolve_right ha)
    -- the inode has blocks, so it is a node, and of the same kind as before
    by_contra hno
    by_cases hdir : HasNode T' i true
    · rcases hnodes i true hdir with h | h
      · have heq := h.unique (FsRun.TreeRep.inodesDistinct ht) hfile
        cases heq
      · exact h false hfile
    · have hnil := blks_eq_nil ht' h0 hlt (i := i) (by rintro (_ | _) <;> assumption)
      rw [hnil] at hmem
      cases hmem
  old {i off bn vs w} hnode hbn hvs hw := by
    have hnot : ¬ (ldisk (overlay cur e)).plain bn := fun h => by
      rw [h vs hvs] at hw
      cases hw
    have hb' : HasBlock T' i off := (ht'.hasBlock hnode).2 (List.getElem?_eq_some_iff.1 hbn).1
    have hb : HasBlock V.tree i off := by
      by_contra hno
      exact hnot (hc.fresh hno hb' hbn).2
    exact ⟨hi.old hb.node (hc.kept hb hb' hbn).1 (overlay_old hvs hw) hw, hb, hb', fun ho => hnot (hover i off bn ho hbn)⟩

end Next

/-! ## Older disks -/

/-- A disk from before: the blocks of the files now were at the same place if `K` holds, and free otherwise; what has an
older value there is dirty now. -/
structure Since (xp : FsXparams) (ms : Memstate) (K : Nat → Nat → Prop) (e : RawDisk Valu) (T : FsTree) (d : LDisk) : Prop where
  free : ∀ a ∈ freeOf xp d ms.msAlloc, a ∈ freeOf xp (ldisk e) ms.msAlloc
  kept : ∀ {i off bn}, HasNode T i false → (blks xp d i)[off]? = some bn → K i off →
    (blks xp (ldisk e) i)[off]? = some bn ∧ ((ldisk e).plain bn ∨ bn ∈ getDirty i ms.msDBlocks)
  fresh : ∀ {i off bn}, HasNode T i false → (blks xp d i)[off]? = some bn → ¬ K i off →
    bn ∈ freeOf xp (ldisk e) ms.msAlloc

section Since

variable {ms ms' : Memstate} {K K' : Nat → Nat → Prop} {d d' : LDisk}

theorem since_newest (ht : TreeRep xp (ldisk e) ms T) (hK : ∀ i off, HasBlock T i off → K i off) :
    Since xp ms K e T (ldisk e) := by
  obtain ⟨Z, hr, hrep⟩ := ht.nodes
  refine ⟨fun _ h => h, fun {i off bn} hi hbn _ => ⟨hbn, ?_⟩, fun {i off bn} hi hbn hno => ?_⟩
  · exact hr.msrep.clean i (node_valid ht hi).2.1 bn (List.mem_of_getElem? hbn)
  · exact absurd (hK i off ((ht.hasBlock hi).2 (List.getElem?_eq_some_iff.1 hbn).1)) hno

theorem Since.carry (hs : Since xp ms K e T d) (hc : Carries xp T ms d T' ms' d') (ht' : TreeRep xp d' ms' T')
    (hKT : ∀ i off, K i off → HasBlock T i off) (hK : ∀ i off, K' i off ↔ HasBlock T' i off ∧ K i off) :
    Since xp ms' K' e T' d' := by
  refine ⟨fun a ha => ?_, fun {i off bn} hi hbn hk => ?_, fun {i off bn} hi hbn hno => ?_⟩
  · rw [hc.alloc_eq] at ha ⊢
    exact hs.free a (hc.free a ha)
  · obtain ⟨hb', hk⟩ := (hK i off).1 hk
    obtain ⟨hbn, hdirty⟩ := hc.kept (hKT i off hk) hb' hbn
    obtain ⟨hold, hor⟩ := hs.kept (hKT i off hk).node hbn hk
    exact ⟨hold, hor.imp id hdirty⟩
  · have hb' : HasBlock T' i off := (ht'.hasBlock hi).2 (List.getElem?_eq_some_iff.1 hbn).1
    have hnk : ¬ K i off := fun hk => hno ((hK i off).2 ⟨hb', hk⟩)
    rw [hc.alloc_eq]
    by_cases hb : HasBlock T i off
    · exact hs.fresh hb.node (hc.kept hb hb' hbn).1 hnk
    · exact hs.free bn (hc.fresh hb hb' hbn).1

/-- Other caches. -/
theorem Since.setCaches (hs : Since xp ms K e T d) (hal : ms'.msAlloc = ms.msAlloc) (hdb : ms'.msDBlocks = ms.msDBlocks) :
    Since xp ms' K e T d := by
  refine ⟨?_, fun hi hbn hk => ?_, fun hi hbn hk => ?_⟩
  · rw [hal]
    exact hs.free
  · rw [hdb]
    exact hs.kept hi hbn hk
  · rw [hal]
    exact hs.fresh hi hbn hk

end Since

/-! ## Direct writes -/

section Write

variable {inum off bn : Nat} {v : Valu} {ms : Memstate}

theorem hasNode_setBlock {i : Nat} {b : Bool} : HasNode (setBlock inum off v T) i b ↔ HasNode T i b :=
  Dirtree.hasNode_mapFiles _

theorem hasBlock_setBlock {i o : Nat} : HasBlock (setBlock inum off v T) i o ↔ HasBlock T i o := by
  have hlen : ∀ f : File, (if i = inum then (⟨f.data.set off v, f.attr⟩ : File) else f).data.length = f.data.length := by
    intro f
    split
    · exact List.length_set
    · rfl
  constructor
  · rintro ⟨p, f, hp, ho⟩
    obtain ⟨f₀, hf₀, rfl⟩ := (Dirtree.findSubtree_mapFiles_file _).1 hp
    exact ⟨p, f₀, hf₀, by rwa [hlen] at ho⟩
  · rintro ⟨p, f, hp, ho⟩
    exact ⟨p, _, (Dirtree.findSubtree_mapFiles_file _).2 ⟨f, hp, rfl⟩, by rwa [hlen]⟩

theorem dataOnly_updVs (hlt : bn < xp.dataSize) (hnot : ∀ i, i < xp.nInodes → bn ∉ inds xp (ldisk e) i) (v : Valu) :
    DataOnly xp bn (ldisk e) (ldisk (updVs e bn v)) :=
  ⟨hlt, hnot, fun _ ha => ldisk_updVs_of_ne ha, fun _ ha => (plain_updVs_of_ne ha).2⟩

/-- The same for the disks without older values. -/
theorem dataOnly_syncMem (hw : DataOnly xp bn (ldisk e) (ldisk (updVs e bn v))) :
    DataOnly xp bn (ldisk (syncMem e)) (ldisk (syncMem (updVs e bn v))) := by
  refine ⟨hw.lt, fun i hi h => ?_, fun a ha => ?_, fun a _ _ => plain_syncMem _ a⟩
  · rw [((synced_syncMem e).used_eq hi).2] at h
    exact hw.notNode i hi h
  · rw [ldisk_syncMem, ldisk_syncMem, hw.frame a ha]

theorem Image.brep (hxp : xp.Ok n) (hi : Image xp V e) : BRep xp (ldisk e) [] := by
  obtain ⟨Z, hr, _⟩ := hi.tree.nodes
  have hw : DataIn xp (fun a => ¬ (ldisk e).plain a) (ldisk (syncMem e)) (ldisk e) := by
    refine ⟨fun a ha => (hi.data a ha).1, fun a ha i hlt hind => ?_, fun a _ => (ldisk_syncMem e a).symm,
      fun a ha _ => not_not.1 ha⟩
    rw [((synced_syncMem e).used_eq hlt).2] at hind
    exact (hi.data a ha).2 i hlt hind
  exact hw.brep hxp hr.brep

/-- One data block is written, and only files have it. -/
theorem Image.update {V' : Version} (hxp : xp.Ok n) (hi : Image xp V e) (hw : DataOnly xp bn (ldisk e) (ldisk (updVs e bn v)))
    (htree : TreeRep xp (ldisk (syncMem (updVs e bn v))) msEmpty V'.tree)
    (hnode : ∀ i, HasNode V'.tree i false ↔ HasNode V.tree i false)
    (hfile : ∀ i, i < xp.nInodes → bn ∈ blks xp (ldisk e) i → HasNode V.tree i false)
    (hold : ∀ {i o w}, V.old i o w → V'.old i o w)
    (hself : ∀ {i o vs w}, HasNode V.tree i false → (blks xp (ldisk e) i)[o]? = some bn → e bn = some vs → w ∈ vsmerge vs →
      V'.old i o w) : Image xp V' (updVs e bn v) := by
  refine ⟨htree, fun a ha => ?_, fun a ha i h0 hlt hmem => (hnode i).2 ?_, fun {i o b vs w} hn hbo hvs hw' => ?_⟩
  · by_cases hab : a = bn
    · subst hab
      refine ⟨hw.lt, fun i hlt h => hw.notNode i hlt ?_⟩
      rwa [(hw.used_eq hxp hlt).2] at h
    · rw [plain_updVs_of_ne hab] at ha
      refine ⟨(hi.data a ha).1, fun i hlt h => (hi.data a ha).2 i hlt ?_⟩
      rwa [(hw.used_eq hxp hlt).2] at h
  · rw [(hw.used_eq hxp hlt).1] at hmem
    by_cases hab : a = bn
    · exact hfile i hlt (hab ▸ hmem)
    · rw [plain_updVs_of_ne hab] at ha
      exact hi.files a ha i h0 hlt hmem
  · rw [hnode] at hn
    rw [(hw.used_eq hxp (node_valid hi.tree hn).2.1).1] at hbo
    by_cases hab : b = bn
    · subst hab
      rw [updVs, Function.update_self] at hvs
      obtain ⟨vs₀, hvs₀, rfl⟩ := Option.map_eq_some_iff.1 hvs
      exact hself hn hbo hvs₀ hw'
    · rw [updVs_of_ne hab] at hvs
      exact hold (hi.old hn hbo hvs hw')

theorem blks_syncMem (e : RawDisk Valu) {i : Nat} (hi : i < xp.nInodes) :
    blks xp (ldisk (syncMem e)) i = blks xp (ldisk e) i := ((synced_syncMem e).used_eq hi).1

/-- A block of a file is written. -/
theorem Image.write (hxp : xp.Ok n) (hi : Image xp V e) (hnode : HasNode V.tree inum false)
    (hbn : (blks xp (ldisk e) inum)[off]? = some bn) (hne : e bn ≠ none) (v : Valu) :
    Image xp (V.write inum off v) (updVs e bn v) := by
  have hb := hi.brep hxp
  have hmem := List.mem_of_getElem? hbn
  obtain ⟨h0, hlt, _⟩ := node_valid hi.tree hnode
  have hself : ∀ i, i < xp.nInodes → bn ∈ blks xp (ldisk e) i → i = inum := fun i hi' h =>
    hb.used_disjoint hi' hlt (List.mem_append_left _ h) (List.mem_append_left _ hmem)
  have hw := BFILE.dataOnly_updVs hb hlt hmem v
  refine hi.update hxp hw ?_ (fun i => hasNode_setBlock) (fun i hi' h => by rwa [hself i hi' h]) .inl ?_
  · obtain ⟨Z, hr, _⟩ := hi.tree.nodes
    have hval : ldisk (syncMem (updVs e bn v)) bn = v := by
      rw [ldisk_syncMem]
      exact ldisk_updVs_self hne
    have hstep : FileStep xp true inum _ _ _ :=
      fileStep_write hxp hr.brep hlt (by rwa [blks_syncMem e hlt]) hval (dataOnly_syncMem hw).frame fun a _ _ => plain_syncMem _ a
    refine hi.tree.fill hxp (dataOnly_syncMem hw).dataIn (fun i _ hi' a ha hS => ?_) (msRep_empty xp (plain_syncMem _))
      (cacheLess_msEmpty _) fun p i f hp => ?_
    · subst hS
      rw [blks_syncMem e hi'] at ha
      rwa [hself i hi' ha]
    · obtain ⟨hi', rfl⟩ := DIRTREE.file_eq hi.tree hp
      by_cases hii : i = inum
      · rw [if_pos hii, hii]
        exact hstep.self.symm
      · rw [if_neg hii]
        exact (hstep.other i hi' hii).1.symm
  · intro i o vs w hn hbo hvs hw'
    obtain rfl := hself i (node_valid hi.tree hn).2.1 (List.mem_of_getElem? hbo)
    have hoff : o = off := by
      obtain ⟨_, h₁⟩ := List.getElem?_eq_some_iff.1 hbo
      obtain ⟨_, h₂⟩ := List.getElem?_eq_some_iff.1 hbn
      exact (List.Nodup.getElem_inj_iff (hb.blks_nodup hlt)).1 (h₁.trans h₂.symm)
    rcases List.mem_cons.1 hw' with rfl | hw'
    · obtain ⟨p, f, hp⟩ := find_of_hasNode hn
      obtain ⟨_, rfl⟩ := DIRTREE.file_eq hi.tree hp
      refine .inr ⟨rfl, hoff, p, _, hp, ?_⟩
      rw [getElem?_file_data, blks_syncMem e hlt, hbo, Option.map_some, ldisk_syncMem, ldisk_apply hvs]
    · exact .inl (hi.old hn hbo hvs hw')

/-- A free block is no block of a file. -/
theorem dataOnly_free {extra : List Nat} (hb : BRep xp (ldisk e) extra) {al : Bool} (hfree : bn ∈ freeOf xp (ldisk e) al) (v : Valu) :
    DataOnly xp bn (ldisk e) (ldisk (updVs e bn v)) := by
  refine dataOnly_updVs ((hb.mem_iff bn).mp ?_).2 (fun i hi h => ?_) v
  · cases al
    · exact .inr (.inl hfree)
    · exact .inl hfree
  · exact hb.not_free al (.inr (used_sub_owned hi (List.mem_append_right _ h))) hfree

/-- A block that no file has is written. -/
theorem Image.unwritten (hxp : xp.Ok n) (hi : Image xp V e) {al : Bool} (hfree : bn ∈ freeOf xp (ldisk e) al) (v : Valu) :
    Image xp V (updVs e bn v) := by
  have hb := hi.brep hxp
  have hnot : ∀ i, i < xp.nInodes → bn ∉ blks xp (ldisk e) i := fun i hi' h =>
    hb.not_free al (.inr (used_sub_owned hi' (List.mem_append_left _ h))) hfree
  have hw := dataOnly_free hb hfree v
  refine hi.update hxp hw ?_ (fun _ => Iff.rfl) (fun i hi' h => absurd h (hnot i hi')) id ?_
  · have hfill := hi.tree.fill (g := fun _ f => f) hxp (dataOnly_syncMem hw).dataIn (fun i _ hi' a ha hS => ?_)
      (msRep_empty xp (plain_syncMem _)) (cacheLess_msEmpty _) fun p i f hp => ?_
    · rwa [Dirtree.mapFiles_id] at hfill
    · subst hS
      rw [blks_syncMem e hi'] at ha
      exact absurd ha (hnot i hi')
    · obtain ⟨hi', rfl⟩ := DIRTREE.file_eq hi.tree hp
      refine ((dataOnly_syncMem hw).file_eq_of_not_mem hxp hi' ?_).symm
      rw [blks_syncMem e hi']
      exact hnot i hi'
  · intro i o vs w hn hbo _ _
    exact absurd (List.mem_of_getElem? hbo) (hnot i (node_valid hi.tree hn).2.1)

/-- The tree on the newest disk, after a block of a file is written. -/
theorem tree_write {ms' : Memstate} {f : File} {p : List Sname} (hxp : xp.Ok n) (ht : TreeRep xp (ldisk e) ms T)
    (hp : findSubtree p T = some (.file inum f)) (hbn : (blks xp (ldisk e) inum)[off]? = some bn) (hne : e bn ≠ none)
    (hm : MsRep xp (ldisk (updVs e bn v)) ms') (hc : ms'.msCache = ms.msCache) :
    TreeRep xp (ldisk (updVs e bn v)) ms' (setBlock inum off v T) := by
  obtain ⟨Z, hr, _⟩ := ht.nodes
  have hlt := (DIRTREE.file_eq ht hp).1
  have hmem := List.mem_of_getElem? hbn
  have hw := BFILE.dataOnly_updVs hr.brep hlt hmem v
  have hstep : FileStep xp true inum _ _ _ := fileStep_write hxp hr.brep hlt hbn (ldisk_updVs_self hne) hw.frame hw.mono
  refine ht.fill hxp hw.dataIn (fun i _ hi a ha hS => ?_) hm (cacheLess_of_eq hc) fun q i f' hq => ?_
  · subst hS
    obtain rfl := hr.brep.used_disjoint hi hlt (List.mem_append_left _ ha) (List.mem_append_left _ hmem)
    exact ⟨p, _, hp, rfl, rfl⟩
  · obtain ⟨hi, rfl⟩ := DIRTREE.file_eq ht hq
    by_cases hii : i = inum
    · rw [if_pos hii, hii]
      exact hstep.self.symm
    · rw [if_neg hii]
      exact (hstep.other i hi hii).1.symm

theorem Since.write {ms' : Memstate} {K : Nat → Nat → Prop} {d : RawDisk Valu} (hxp : xp.Ok n)
    (hs : Since xp ms K e T (ldisk d)) (hT : ∀ i, HasNode T i false → i < xp.nInodes)
    (hwe : DataOnly xp bn (ldisk e) (ldisk (updVs e bn v))) (hwd : DataOnly xp bn (ldisk d) (ldisk (updVs d bn v)))
    (hal : ms'.msAlloc = ms.msAlloc) (hdb : ∀ i b, b ∈ getDirty i ms.msDBlocks → b ∈ getDirty i ms'.msDBlocks)
    (hself : ∀ i, i < xp.nInodes → bn ∈ blks xp (ldisk d) i → bn ∈ getDirty i ms'.msDBlocks) :
    Since xp ms' K (updVs e bn v) (setBlock inum off v T) (ldisk (updVs d bn v)) := by
  refine ⟨fun a ha => ?_, fun {i o b} hi hbo hk => ?_, fun {i o b} hi hbo hk => ?_⟩
  · rw [hal] at ha ⊢
    rw [hwe.freeOf_eq hxp]
    rw [hwd.freeOf_eq hxp] at ha
    exact hs.free a ha
  · have hi' := hasNode_setBlock.1 hi
    rw [(hwd.used_eq hxp (hT i hi')).1] at hbo
    rw [(hwe.used_eq hxp (hT i hi')).1]
    obtain ⟨hold, hor⟩ := hs.kept hi' hbo hk
    refine ⟨hold, ?_⟩
    by_cases hab : b = bn
    · subst hab
      exact .inr (hself i (hT i hi') (List.mem_of_getElem? hbo))
    · exact hor.imp (plain_updVs_of_ne hab).2 (hdb i b)
  · have hi' := hasNode_setBlock.1 hi
    rw [(hwd.used_eq hxp (hT i hi')).1] at hbo
    rw [hal, hwe.freeOf_eq hxp]
    exact hs.fresh hi' hbo hk

end Write

/-! ## Syncing a file -/

section Sync

variable {inum : Nat} {ms : Memstate} {K : Nat → Nat → Prop} {l : List Nat}

theorem Image.sync {P : Nat → Prop} (hxp : xp.Ok n) (hi : Image xp V e)
    (hall : HasNode V.tree inum false → ∀ off bn, P off → (blks xp (ldisk e) inum)[off]? = some bn →
      bn ∈ l ∨ (ldisk e).plain bn) : Image xp (V.sync inum P) (syncAddrs e l) := by
  have hs := BFILE.synced_syncAddrs e l
  have hval : Synced (ldisk (syncMem e)) (ldisk (syncMem (syncAddrs e l))) := by
    refine ⟨fun a => ?_, fun a _ => plain_syncMem _ a⟩
    rw [ldisk_syncMem, ldisk_syncMem, hs.val]
  refine ⟨hi.tree.synced hxp hval (msRep_empty xp (plain_syncMem _)) (cacheLess_msEmpty _), fun a ha => ?_,
    fun a ha i h0 hlt hmem => ?_, fun {i off bn vs w} hn hbn hvs hw => ?_⟩
  · refine ⟨(hi.data a fun h => ha (hs.mono a h)).1, fun i hlt h => (hi.data a fun h => ha (hs.mono a h)).2 i hlt ?_⟩
    rwa [(hs.used_eq hlt).2] at h
  · rw [(hs.used_eq hlt).1] at hmem
    exact hi.files a (fun h => ha (hs.mono a h)) i h0 hlt hmem
  · have hnode : HasNode V.tree i false := hn
    rw [(hs.used_eq (node_valid hi.tree hnode).2.1).1] at hbn
    have hnot : bn ∉ l := fun h => by
      rw [plain_syncAddrs (d := e) (.inl h) vs hvs] at hw
      cases hw
    rw [syncAddrs, if_neg hnot] at hvs
    refine ⟨hi.old hnode hbn hvs hw, ?_⟩
    rintro ⟨rfl, hP⟩
    rcases hall hnode off bn hP hbn with h | h
    · exact hnot h
    · rw [h vs hvs] at hw
      cases hw

theorem Since.sync {d : RawDisk Valu} (hs : Since xp ms K e T (ldisk d)) (hT : ∀ i, HasNode T i false → i < xp.nInodes) :
    Since xp { ms with msDBlocks := clearDirty inum ms.msDBlocks } K (syncAddrs e (getDirty inum ms.msDBlocks).toList) T
      (ldisk (syncAddrs d (getDirty inum ms.msDBlocks).toList)) := by
  have hse := BFILE.synced_syncAddrs e (getDirty inum ms.msDBlocks).toList
  have hsd := BFILE.synced_syncAddrs d (getDirty inum ms.msDBlocks).toList
  refine ⟨fun a ha => ?_, fun {i o b} hi hbo hk => ?_, fun {i o b} hi hbo hk => ?_⟩
  · rw [hse.freeOf_eq]
    rw [hsd.freeOf_eq] at ha
    exact hs.free a ha
  · rw [(hsd.used_eq (hT i hi)).1] at hbo
    rw [(hse.used_eq (hT i hi)).1]
    obtain ⟨hold, hor⟩ := hs.kept hi hbo hk
    refine ⟨hold, ?_⟩
    rcases hor with h | h
    · exact .inl (hse.mono b h)
    · by_cases hii : i = inum
      · subst hii
        exact .inl (plain_syncAddrs (.inl (Std.ExtTreeSet.mem_toList.2 h)))
      · exact .inr (mem_getDirty_clearDirty.2 ⟨hii, h⟩)
  · rw [(hsd.used_eq (hT i hi)).1] at hbo
    rw [hse.freeOf_eq]
    exact hs.fresh hi hbo hk

end Sync

end TreeSeq

end Fscq
