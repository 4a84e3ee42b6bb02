import Fscq.Afs.TreeSeqRun

/-!
# The calls on a tree sequence

What the body of each call makes of the newest disk (`Made`). A direct write changes each disk that has the block in the
file, and in the others the block is free; `fileSync` syncs the blocks that are dirty now, on all disks.
-/

namespace Fscq

open TxnLogic CrashLogic LogReplay BFILE
open MLog (MCrash)
open LOG (setCur)
open Bufcache (updVs syncAddrs)
open Dirtree (findSubtree findDirlist updateSubtree treeGraft HasNode)
open INODE (iattrUpd iattr0)
open FsRun (Result)

namespace TreeSeq

section Made

variable {xp : FsXparams} {n : Nat} {V : Version} {c : Call} {r : Result} {T' : FsTree} {ms ms' : BFILE.Memstate} {d d' : LDisk}

/-- An operation on directories. -/
theorem made_of_loose (ht : TreeRep xp d ms V.tree) (hu : Updates V.tree c r T') (hc : ∀ i off, ¬ c.Overwrites i off)
    (hdone : TreeDone xp T' ms d ms' d') (ha : Apart xp (DIRTREE.Loose xp V.tree d') ms d ms' d') :
    Made xp V c r ms d T' ms' d' := by
  obtain ⟨Z, hr, hrep⟩ := ht.nodes
  have hn := (DIRTREE.holds_tree hrep).namesDistinct hr
  exact ⟨hu, hdone.rep, carries_of_loose ht hdone.rep (fun i hi => hu.nodes hn hi) hdone.alloc_eq hdone.safe ha,
    fun i off _ h => absurd h (hc i off)⟩

/-- An operation on a file that keeps its blocks. -/
theorem made_of_attr {p : List Sname} {inum : Nat} {f f' : File} (ht : TreeRep xp d ms V.tree)
    (hp : findSubtree p V.tree = some (.file inum f)) (hu : Updates V.tree c r (updateSubtree p (.file inum f') V.tree))
    (hc : ∀ i off bn, c.Overwrites i off → (blks xp d' i)[off]? = some bn → d'.plain bn)
    (hdone : FileDone xp inum f' ms d ms' d') (ha : Apart xp (fun _ => False) ms d ms' d') :
    Made xp V c r ms d (updateSubtree p (.file inum f') V.tree) ms' d' := by
  have htree := DIRTREE.fileDone_tree ht hp hdone
  exact ⟨hu, htree.rep, carries_of_apart ht htree.rep (fun i hi => .inl (hasNode_setFile hp hi)) htree.alloc_eq htree.safe ha
    fun _ h => h.elim, hc⟩

/-- Only inodes were cached. -/
theorem treeRep_icacheOnly {T : FsTree} (ht : TreeRep xp d ms T) (ho : IcacheOnly ms ms') (hm : MsRep xp d ms') :
    TreeRep xp d ms' T ∧ ms'.msAlloc = ms.msAlloc ∧ ms'.msDBlocks = ms.msDBlocks := by
  obtain ⟨ic, rfl⟩ := ho
  exact ⟨ht.icacheOnly ⟨ic, rfl⟩ hm, rfl, rfl⟩

end Made

/-! ## Calls through the log -/

section Calls

variable {h : HashKey → HashVal} {xp : FsXparams} {n : Nat} {st : LogState} {V : Version} {Vs : Treeseq} {ams : AFS.Memstate}
  {s : St Valu HashKey} {p : List Sname} {dnum inum : Nat} {ents : List (Sname × FsTree)} {f : File}
  (hl : FsLayout xp n) (hs : Serves h xp n st V Vs ams s) (fl : Bool)
include hl hs

theorem create_call (hp : findSubtree p V.tree = some (.dir dnum ents)) (name : Sname) :
    wp h ((Call.basic (.create dnum name)).run fl xp ams) (Done h xp n (V :: Vs) (.basic (.create dnum name)))
      (MCrash h xp.fsxpLog n (Left xp (V :: Vs) (some (.basic (.create dnum name))))) s := by
  have ht := hs.mounted.tree
  refine transact_call hl hs fl (twp_mono (fun x d' hx inum hok => ?_) _
    (twp_and (DIRTREE.mknode_tree hl.ok ht hp hl.inodes false name)
      (DIRTREE.mknode_tree_apart hl.ok hl.inodes ht hp false name))) fun _ _ => .failed .create
  obtain ⟨hno, hfresh, hdone⟩ := hx.1 inum hok
  exact ⟨_, made_of_loose ht (.basic (.create hp hno hfresh)) (fun _ _ => id) hdone (hx.2 inum hok)⟩

theorem mkdir_call (hp : findSubtree p V.tree = some (.dir dnum ents)) (name : Sname) :
    wp h ((Call.basic (.mkdir dnum name)).run fl xp ams) (Done h xp n (V :: Vs) (.basic (.mkdir dnum name)))
      (MCrash h xp.fsxpLog n (Left xp (V :: Vs) (some (.basic (.mkdir dnum name))))) s := by
  have ht := hs.mounted.tree
  refine transactRebind_call hl hs fl (twp_mono (fun x d' hx inum hok => ?_) _
    (twp_and (DIRTREE.mknode_tree hl.ok ht hp hl.inodes true name)
      (DIRTREE.mknode_tree_apart hl.ok hl.inodes ht hp true name))) fun _ => .mkdir
  obtain ⟨hno, hfresh, hdone⟩ := hx.1 inum hok
  exact ⟨_, made_of_loose ht (.basic (.mkdir hp hno hfresh)) (fun _ _ => id) hdone (hx.2 inum hok)⟩

theorem delete_call (hp : findSubtree p V.tree = some (.dir dnum ents)) (name : Sname) :
    wp h ((Call.basic (.delete dnum name)).run fl xp ams) (Done h xp n (V :: Vs) (.basic (.delete dnum name)))
      (MCrash h xp.fsxpLog n (Left xp (V :: Vs) (some (.basic (.delete dnum name))))) s := by
  have ht := hs.mounted.tree
  refine transact_call hl hs fl (twp_mono (fun x d' hx _ hok => ?_) _
    (twp_and (DIRTREE.delete_tree hl.ok ht hp name) (DIRTREE.delete_tree_apart hl.ok ht hp name))) fun _ _ => .failed .delete
  obtain ⟨c, hfind, hleaf, hdone⟩ := hx.1 hok
  exact ⟨_, made_of_loose ht (.basic (.delete hp hfind hleaf)) (fun _ _ => id) hdone (hx.2 hok)⟩

theorem rename_call (hp : findSubtree p V.tree = some (.dir dnum ents)) (srcpath : List Sname) (srcname : Sname)
    (dstpath : List Sname) (dstname : Sname) :
    wp h ((Call.basic (.rename dnum srcpath srcname dstpath dstname)).run fl xp ams)
      (Done h xp n (V :: Vs) (.basic (.rename dnum srcpath srcname dstpath dstname)))
      (MCrash h xp.fsxpLog n (Left xp (V :: Vs) (some (.basic (.rename dnum srcpath srcname dstpath dstname))))) s := by
  have ht := hs.mounted.tree
  refine transact_call hl hs fl (twp_mono (fun x d' hx _ hok => ?_) _
    (twp_and (DIRTREE.rename_tree hl.ok hl.inodes ht hp srcpath srcname dstpath dstname)
      (DIRTREE.rename_tree_apart hl.ok hl.inodes ht hp srcpath srcname dstpath dstname))) fun _ _ => .failed .rename
  obtain ⟨T', snum, sents, S, ddst, dents, hren, hdone, _⟩ := hx.1 hok
  exact ⟨T', made_of_loose ht (.basic (.rename hp hren)) (fun _ _ => id) hdone (hx.2 hok)⟩

/-- The new file gets its type in the same transaction. -/
theorem mksock_call (hp : findSubtree p V.tree = some (.dir dnum ents)) (name : Sname) :
    wp h ((Call.mksock dnum name).run fl xp ams) (Done h xp n (V :: Vs) (.mksock dnum name))
      (MCrash h xp.fsxpLog n (Left xp (V :: Vs) (some (.mksock dnum name)))) s := by
  have ht := hs.mounted.tree
  refine transactRebind_call hl hs fl (twp_seq (twp_and (DIRTREE.mknode_tree hl.ok ht hp hl.inodes false name)
    (DIRTREE.mknode_tree_apart hl.ok hl.inodes ht hp false name)) ?_) fun _ => .mksock
  rintro ⟨ms₁, _ | inum⟩ d₁ ⟨hnode, hapart⟩
  · intro inum h
    cases h
  obtain ⟨hno, hfresh, hdone⟩ := hnode inum rfl
  have hloose := hapart inum rfl
  have ht₁ := hdone.rep
  obtain ⟨Z, hr₁, _⟩ := ht₁.nodes
  have hnew := Dirtree.findSubtree_treeGraft hp name (DIRTREE.newTree false inum)
  obtain ⟨hi, hfile⟩ := DIRTREE.file_eq ht₁ hnew
  refine twp_seq (BFILE.updattr_apart hl.ok hr₁.brep hr₁.msrep hi (.UType 1)) ?_
  rintro ms₂ d₂ ⟨hattr, hapart₂⟩ _ h
  cases h
  have hdone₂ := DIRTREE.fileDone_tree ht₁ hnew hattr
  rw [Dirtree.updateSubtree_treeGraft _ _ hno, hfile] at hdone₂
  have hfree : BmapAlloc.freeList xp.fsxpInodeAlloc d₂ = BmapAlloc.freeList xp.fsxpInodeAlloc d₁ :=
    BmapAlloc.freeList_congr hattr.ialloc
  have hloose' : DIRTREE.Loose xp V.tree d₂ = DIRTREE.Loose xp V.tree d₁ := by
    funext i
    rw [DIRTREE.Loose, DIRTREE.Loose, hfree]
  refine ⟨_, made_of_loose ht (.mksock hp hno hfresh) (fun _ _ => id)
    ⟨hdone₂.rep, hdone₂.alloc_eq.trans hdone.alloc_eq, hdone.safe.trans (hdone.alloc_eq ▸ hdone₂.safe)⟩ ?_⟩
  rw [hloose']
  exact hloose.trans (hapart₂.weaken fun _ => False.elim)

theorem fileTruncate_call (hp : findSubtree p V.tree = some (.file inum f)) (sz : Nat) :
    wp h ((Call.basic (.fileTruncate inum sz)).run fl xp ams) (Done h xp n (V :: Vs) (.basic (.fileTruncate inum sz)))
      (MCrash h xp.fsxpLog n (Left xp (V :: Vs) (some (.basic (.fileTruncate inum sz))))) s := by
  have ht := hs.mounted.tree
  obtain ⟨Z, hr, _⟩ := ht.nodes
  obtain ⟨hi, rfl⟩ := DIRTREE.file_eq ht hp
  refine transact_call hl hs fl (twp_mono ?_ _ (twp_dirtyOnly (BFILE.truncate_spec hl.ok hr.brep hr.msrep hi sz)
    (truncate_dirty (dirtyRule ams.fms.msDBlocks inum) (dirtyOnly_refl _ _ _) sz))) fun _ _ => .failed .fileTruncate
  rintro ⟨fms, r⟩ d' ⟨hres, hmono, W, hdb, hW⟩ _ hok
  obtain ⟨hdone, hfrees⟩ := hres.ok hok
  have hapart := apart_of_step hr.msrep hdone.msrep hdone.toFileStep hdb hW hmono
  exact ⟨_, .basic (.fileTruncate hp), (DIRTREE.fileDone_tree ht hp hdone).rep, carries_truncate ht hp hdone hfrees hapart,
    fun _ _ _ => False.elim⟩

theorem fileSetAttr_call (hp : findSubtree p V.tree = some (.file inum f)) (attr : INODE.Iattr) :
    wp h ((Call.basic (.fileSetAttr inum attr)).run fl xp ams) (Done h xp n (V :: Vs) (.basic (.fileSetAttr inum attr)))
      (MCrash h xp.fsxpLog n (Left xp (V :: Vs) (some (.basic (.fileSetAttr inum attr))))) s := by
  have ht := hs.mounted.tree
  obtain ⟨Z, hr, _⟩ := ht.nodes
  obtain ⟨hi, rfl⟩ := DIRTREE.file_eq ht hp
  refine transact_call hl hs fl (twp_seq (BFILE.setattrs_apart hl.ok hr.brep hr.msrep hi attr) ?_) fun _ _ => .failed .fileSetAttr
  rintro fms d' ⟨hdone, hapart⟩ _ _
  exact ⟨_, made_of_attr ht hp (.basic (.fileSetAttr hp)) (fun _ _ _ => False.elim) hdone hapart⟩

/-- If the log does not take the transaction, the state that is returned still has it. -/
theorem fileSetSz_call (hp : findSubtree p V.tree = some (.file inum f)) (sz : BitVec 64) :
    wp h ((Call.fileSetSz inum sz).run fl xp ams) (Done h xp n (V :: Vs) (.fileSetSz inum sz))
      (MCrash h xp.fsxpLog n (Left xp (V :: Vs) (some (.fileSetSz inum sz)))) s := by
  have ht := hs.mounted.tree
  obtain ⟨Z, hr, _⟩ := ht.nodes
  obtain ⟨hi, rfl⟩ := DIRTREE.file_eq ht hp
  refine wp_map (LOG.wp_begin (wp_seq (LOG.exec_idle hl.log hs.mounted.log hs.mounted.idle
    (BFILE.updattr_apart hl.ok hr.brep hr.msrep hi (.UBytes sz))) (fun _ hm => hm.mono fun _ he => hs.left he) ?_))
  rintro ⟨ms, fms⟩ s₁ ⟨cur, hr₁, hdone, hapart⟩
  have hmade := made_of_attr ht hp (.fileSetSz hp) (fun _ _ _ => False.elim) hdone hapart
  refine wp_seq (LOG.commit_settles hl.log fl hr₁) (fun _ hm => hm.mono ?_) ?_
  · rintro e (he | rfl)
    · exact hs.left he
    · exact hmade.left hl.ok hs
  · rintro ⟨ms', ok⟩ s₂ ⟨_, st', hr₂, hset⟩
    cases ok with
    | true => exact .inr ⟨_, _, st', .update hmade.updates, hmade.serves hl.ok hs hr₂ hset⟩
    | false => exact .inl ⟨.fileSetSz, hs.mcrash hl.log hr₂ hset _⟩

/-- If the log does not take the write, the caches are those after the write, and right for the disk before it. -/
theorem updateFblock_call {off : Nat} (hp : findSubtree p V.tree = some (.file inum f)) (hoff : off < f.data.length) (v : Valu) :
    wp h ((Call.basic (.updateFblock inum off v)).run fl xp ams) (Done h xp n (V :: Vs) (.basic (.updateFblock inum off v)))
      (MCrash h xp.fsxpLog n (Left xp (V :: Vs) (some (.basic (.updateFblock inum off v))))) s := by
  have ht := hs.mounted.tree
  obtain ⟨Z, hr, _⟩ := ht.nodes
  obtain ⟨hi, rfl⟩ := DIRTREE.file_eq ht hp
  refine wp_map (LOG.wp_begin (wp_seq (LOG.exec_idle hl.log hs.mounted.log hs.mounted.idle
    (twp_and (BFILE.write_apart (v := v) hl.ok hr.brep hr.msrep hi hoff)
      (BFILE.write_caches (v := v) hl.ok hr.brep hr.msrep hi hoff))) (fun _ hm => hm.mono fun _ he => hs.left he) ?_))
  rintro ⟨ms, fms⟩ s₁ ⟨cur, hr₁, ⟨⟨hdone, hapart⟩, hplain⟩, hcaches, hms⟩
  have hmade := made_of_attr ht hp (.basic (.updateFblock hp hoff)) (fun i o bn ho hbn => ?_) hdone hapart
  swap
  · obtain ⟨rfl, rfl⟩ : i = inum ∧ o = off := ho
    exact hplain bn hbn
  refine wp_seq (LOG.commit_settles hl.log fl hr₁) (fun _ hm => hm.mono ?_) ?_
  · rintro e (he | rfl)
    · exact hs.left he
    · exact hmade.left hl.ok hs
  · rintro ⟨ms', ok⟩ s₂ ⟨_, st', hr₂, hset⟩
    cases ok with
    | true => exact .inr ⟨_, _, st', .update hmade.updates, hmade.serves hl.ok hs hr₂ hset⟩
    | false =>
      obtain ⟨ht', hal, hdb⟩ := treeRep_icacheOnly ht hcaches hms
      refine .inr ⟨V, Vs, st', .failed .updateFblock, hs.kept hset ⟨hr₂, hset.idle, ?_⟩ hal hdb⟩
      rw [hset.newest]
      exact ht'

/-! ## Calls that only read -/

theorem readOnly_call {c : FsRun.Call} (hro : c.ReadOnly) (hc : c.Valid V.tree) :
    wp h ((Call.basic c).run fl xp ams) (Done h xp n (V :: Vs) (.basic c))
      (MCrash h xp.fsxpLog n (Left xp (V :: Vs) (some (.basic c)))) s := by
  have ht := hs.mounted.tree
  obtain ⟨Z, hr, hrep⟩ := ht.nodes
  cases c with
  | lookup dnum names =>
    obtain ⟨p, ents, hp⟩ := hc
    exact transactRo_call hl hs (twp_mono (fun x d' ⟨⟨_, hdone, hres⟩, hdb⟩ => ⟨.lookup hp hres, hdone.rep, hdone.alloc_eq, hdb⟩) _
      (twp_same (DIRTREE.namei_tree hl.ok ht hp names) (DIRTREE.namei_dirty (growing_same _) rfl names)))
  | readdir dnum =>
    obtain ⟨p, ents, hp⟩ := hc
    exact transactRo_call hl hs (twp_mono (fun x d' ⟨⟨_, hdone, hres⟩, hdb⟩ => ⟨.readdir hp hres, hdone.rep, hdone.alloc_eq, hdb⟩) _
      (twp_same (DIRTREE.readdir_tree hl.ok ht hp) (CacheOneDir.readdir_dirty (growing_same _) rfl)))
  | readFblock inum off =>
    obtain ⟨p, f, hp, hoff⟩ := hc
    obtain ⟨hi, rfl⟩ := DIRTREE.file_eq ht hp
    exact transactRo_call hl hs (twp_mono (fun x d' ⟨_, hv, ho, hm⟩ => ⟨.readFblock hp hv, treeRep_icacheOnly ht ho hm⟩) _
      (BFILE.read_spec hl.ok hr.brep hr.msrep hi hoff))
  | fileGetAttr inum =>
    obtain ⟨p, u, hp, rfl⟩ := hc
    have hi := (hr.valid u.inum _ ((DIRTREE.holds_tree hrep).node hp)).2
    refine transactRo_call hl hs (twp_mono (fun x d' ⟨_, ha, ho, hm⟩ => ⟨.fileGetAttr fun q f hq => ?_,
      treeRep_icacheOnly ht ho hm⟩) _
      (BFILE.getattrs_spec hl.ok hr.msrep hi))
    rw [ha, (DIRTREE.file_eq ht hq).2]
  | _ => exact hro.elim

end Calls

/-! ## Direct writes -/

section WriteBlock

variable {Ws : Treeseq} {V : Version} {k inum off : Nat} {v : Valu}

theorem getElem?_writeBlock (inum off : Nat) (v : Valu) (Ws : Treeseq) (k : Nat) :
    (writeBlock inum off v Ws)[k]? = Ws[k]?.map fun U =>
      open Classical in if Kept Ws k inum off then U.write inum off v else U := List.getElem?_mapIdx

theorem kept_writeBlock (inum off : Nat) (v : Valu) (Ws : Treeseq) (k : Nat) : Kept (writeBlock inum off v Ws) k = Kept Ws k := by
  funext i o
  refine propext (kept_congr fun j U => ?_)
  split
  · exact hasBlock_setBlock
  · exact Iff.rfl

theorem writeBlock_cons (hb : HasBlock V.tree inum off) (v : Valu) (Ws : Treeseq) :
    ∃ Ws', writeBlock inum off v (V :: Ws) = V.write inum off v :: Ws' := by
  rw [writeBlock, List.mapIdx_cons, if_pos (kept_zero.2 hb)]
  exact ⟨_, rfl⟩

theorem getElem?_syncFile (inum : Nat) (Ws : Treeseq) (k : Nat) :
    (syncFile inum Ws)[k]? = Ws[k]?.map fun U => U.sync inum (Kept Ws k inum) := List.getElem?_mapIdx

theorem kept_syncFile (inum : Nat) (Ws : Treeseq) (k : Nat) : Kept (syncFile inum Ws) k = Kept Ws k := by
  funext i o
  exact propext (kept_congr fun _ _ => Iff.rfl)

end WriteBlock

section Behind

variable {xp : FsXparams} {n : Nat} {V V' : Version} {Vs Vs' : Treeseq} {ms ms' : Memstate} {d e : RawDisk Valu} {inum off bn : Nat}

/-- The block is written on every disk: where the file has kept it, it is the same block of the file, and elsewhere it is
free. -/
theorem Behind.write (hxp : xp.Ok n) (h : Behind xp ms V Vs d e) (ht : TreeRep xp (ldisk d) ms V.tree)
    (hb : HasBlock V.tree inum off) (hbn : (blks xp (ldisk d) inum)[off]? = some bn) (hne : e bn ≠ none) (v : Valu)
    (hal : ms'.msAlloc = ms.msAlloc) (hdb : ms'.msDBlocks = putDirty inum bn ms.msDBlocks)
    (hV : writeBlock inum off v (V :: Vs) = V.write inum off v :: Vs') :
    Behind xp ms' (V.write inum off v) Vs' (updVs d bn v) (updVs e bn v) := by
  obtain ⟨k, U, hk, hi, hsince⟩ := h
  obtain ⟨Z, hr, _⟩ := ht.nodes
  have hlt := (node_valid ht hb.node).2.1
  have hmem := List.mem_of_getElem? hbn
  have hwd := BFILE.dataOnly_updVs hr.brep hlt hmem v
  have hget := getElem?_writeBlock inum off v (V :: Vs) k
  rw [hk, hV, Option.map_some] at hget
  refine ⟨k, _, hget, ?_⟩
  rw [← hV, kept_writeBlock]
  have hold : ∀ hwe : DataOnly xp bn (ldisk e) (ldisk (updVs e bn v)),
      Since xp ms' (Kept (V :: Vs) k) (updVs e bn v) (V.write inum off v).tree (ldisk (updVs d bn v)) := fun hwe => by
    refine hsince.write hxp (fun i hi => (node_valid ht hi).2.1) hwe hwd hal (fun i b h => ?_) fun i hi h => ?_
    · rw [hdb]
      exact mem_getDirty_putDirty.2 (.inr h)
    · rw [hdb, hr.brep.used_disjoint hi hlt (List.mem_append_left _ h) (List.mem_append_left _ hmem)]
      exact mem_getDirty_putDirty.2 (.inl ⟨rfl, rfl⟩)
  split
  · rename_i hK
    have hnode : HasNode U.tree inum false := (hK k (Nat.le_refl _) U hk).node
    have hbn' := (hsince.kept hb.node hbn hK).1
    exact ⟨hi.write hxp hnode hbn' hne v,
      hold (BFILE.dataOnly_updVs (hi.brep hxp) (node_valid hi.tree hnode).2.1 (List.mem_of_getElem? hbn') v)⟩
  · rename_i hK
    have hfree := hsince.fresh hb.node hbn hK
    exact ⟨hi.unwritten hxp hfree v, hold (dataOnly_free (hi.brep hxp) hfree v)⟩

/-- The blocks of a file that are dirty now are synced on every disk. -/
theorem Behind.sync (hxp : xp.Ok n) (h : Behind xp ms V Vs d e) (ht : TreeRep xp (ldisk d) ms V.tree)
    (hV : syncFile inum (V :: Vs) = V' :: Vs') (htree : V'.tree = V.tree) :
    Behind xp { ms with msDBlocks := clearDirty inum ms.msDBlocks } V' Vs' (syncAddrs d (getDirty inum ms.msDBlocks).toList)
      (syncAddrs e (getDirty inum ms.msDBlocks).toList) := by
  obtain ⟨k, U, hk, hi, hsince⟩ := h
  have hget := getElem?_syncFile inum (V :: Vs) k
  rw [hk, hV, Option.map_some] at hget
  refine ⟨k, _, hget, hi.sync hxp fun _ off bn hK hbn => ?_, ?_⟩
  · have hb := hK.head
    have hoff := (ht.hasBlock hb.node).1 hb
    obtain ⟨hold, hor⟩ := hsince.kept hb.node (List.getElem?_eq_getElem hoff) hK
    rw [hbn, Option.some_inj] at hold
    rw [hold]
    exact hor.symm.imp Std.ExtTreeSet.mem_toList.2 id
  · rw [← hV, kept_syncFile, htree]
    exact hsince.sync fun i hi => (node_valid ht hi).2.1

end Behind

section Direct

variable {h : HashKey → HashVal} {xp : FsXparams} {n : Nat} {st : LogState} {V : Version} {Vs : Treeseq} {ams : AFS.Memstate}
  {s : St Valu HashKey} {inum off : Nat} (hl : FsLayout xp n) (hs : Serves h xp n st V Vs ams s) (fl : Bool)
include hl hs

theorem updateFblockD_call (hb : HasBlock V.tree inum off) (v : Valu) :
    wp h ((Call.updateFblockD inum off v).run fl xp ams) (Done h xp n (V :: Vs) (.updateFblockD inum off v))
      (MCrash h xp.fsxpLog n (Left xp (V :: Vs) (some (.updateFblockD inum off v)))) s := by
  have ht := hs.mounted.tree
  obtain ⟨Z, hr, _⟩ := ht.nodes
  obtain ⟨p, f, hp, hoff⟩ := id hb
  obtain ⟨hi, rfl⟩ := DIRTREE.file_eq ht hp
  rw [length_file_data] at hoff
  obtain ⟨Vs', hV⟩ := writeBlock_cons hb v Vs
  have hstep : Step (V :: Vs) (.updateFblockD inum off v) (.written true) (writeBlock inum off v (V :: Vs)) :=
    .updateFblockD (kept_zero.2 hb)
  refine wp_map (LOG.wp_begin (wp_seq (LOG.exec_idle hl.log hs.mounted.log hs.mounted.idle
    (INODE.getbnum_spec hl.ok hr.msrep.icache (INODE.BRep.inodeRep hr.brep hi) hoff))
    (fun _ hm => hm.mono fun _ he => hs.left he) ?_))
  rintro ⟨ms, ic, bn⟩ s₁ ⟨cur, hr₁, _, hbn, hic⟩
  simp only at hr₁ hbn hic
  have hmem := List.mem_of_getElem? hbn
  have hlt := hl.ok.data_lt (hr.brep.owned_pos (used_sub_owned hi (List.mem_append_left _ hmem))).2
  have hne : ∀ e, st.Pending e → e bn.toNat ≠ none := fun e he => he.ne_none (hs.mounted.log.base_ne_none hlt)
  have hbehind : ∀ (fms : Memstate) (e : RawDisk Valu), fms.msAlloc = ams.fms.msAlloc →
      fms.msDBlocks = putDirty inum bn.toNat ams.fms.msDBlocks →
      (setCur ((setCur st cur).step fl xp.fsxpLog (.dwrite bn.toNat v)) vmap0).Pending e →
      Behind xp fms (V.write inum off v) Vs' (updVs st.newest bn.toNat v) e := by
    intro fms e hal hdb he
    obtain ⟨e', he', rfl⟩ := BFILE.pending_dwrite fl xp.fsxpLog (setCur st cur) he
    exact (hs.behind e' he').write hl.ok ht hb hbn (hne e' he') v hal hdb hV
  refine wp_seq (LOG.dwrite_spec hl.log fl hr₁ hlt v) (fun _ hm => hm.mono ?_) ?_
  · rintro e (he | he)
    · exact hs.left he
    · obtain ⟨k, U, hk, hU, _⟩ :=
        hbehind { ams.fms with msDBlocks := putDirty inum bn.toNat ams.fms.msDBlocks } e rfl rfl he
      rw [← hV] at hk
      exact ⟨_, .inr ⟨_, _, rfl, hstep⟩, U, List.mem_of_getElem? hk, hU⟩
  · intro ms' s₂ hr₂
    have hnew : (setCur ((setCur st cur).step fl xp.fsxpLog (.dwrite bn.toNat v)) vmap0).newest = updVs st.newest bn.toNat v :=
      BFILE.newest_dwrite fl xp.fsxpLog (setCur st cur) bn.toNat v vmap0
    have hw := BFILE.dataOnly_updVs hr.brep hi hmem v
    have hcaches := hr.msrep.dwrite hl.ok hr.brep hi hic hmem hw
    have hnewne := hne _ (LogState.pending_newest st)
    refine .inr ⟨V.write inum off v, Vs', _, hV ▸ hstep, ⟨BFILE.lrep_commitRo hr₂, rfl, ?_⟩, ?_, fun e he => ?_⟩
    · rw [hnew]
      exact tree_write hl.ok ht hp hbn hnewne hcaches rfl
    · rw [hnew]
      exact hs.newest.write hl.ok hb.node hbn hnewne v
    · rw [hnew]
      exact hbehind _ e rfl rfl he

theorem fileSync_call (inum : Nat) :
    wp h ((Call.fileSync inum).run fl xp ams) (Done h xp n (V :: Vs) (.fileSync inum))
      (MCrash h xp.fsxpLog n (Left xp (V :: Vs) (some (.fileSync inum)))) s := by
  have ht := hs.mounted.tree
  obtain ⟨Z, hr, _⟩ := ht.nodes
  obtain ⟨Vs', hV⟩ : ∃ Vs', syncFile inum (V :: Vs) = V.sync inum (Kept (V :: Vs) 0 inum) :: Vs' := by
    rw [syncFile, List.mapIdx_cons]
    exact ⟨_, rfl⟩
  have hsynced := BFILE.synced_syncAddrs st.newest (getDirty inum ams.fms.msDBlocks).toList
  refine wp_map (LOG.wp_begin (wp_seq (LOG.dsyncVecs_spec hl.log fl hs.mounted.log fun a ha => ?_)
    (fun _ hm => hm.mono fun _ he => hs.left he) ?_))
  · obtain ⟨hi, hmem⟩ := hr.msrep.dirty inum a (Std.ExtTreeSet.mem_toList.1 ha)
    exact hl.ok.data_lt (hr.brep.owned_pos (used_sub_owned hi (List.mem_append_left _ hmem))).2
  intro ms s₁ hr₁
  have hnew := BFILE.newest_dsyncVecs fl xp.fsxpLog st (getDirty inum ams.fms.msDBlocks).toList vmap0
  have hcaches := hr.msrep.datasync hsynced fun bn hbn => plain_syncAddrs (.inl (Std.ExtTreeSet.mem_toList.2 hbn))
  have hbehind := fun e he => (hs.behind e he).sync hl.ok ht hV rfl
  have hstep : Step (V :: Vs) (.fileSync inum) .synced (syncFile inum (V :: Vs)) := .fileSync
  rw [hV] at hstep
  refine .inr ⟨_, Vs', _, hstep, ⟨BFILE.lrep_commitRo hr₁, rfl, ?_⟩, ?_, fun e he => ?_⟩
  · rw [hnew]
    exact ht.synced hl.ok hsynced hcaches (cacheLess_of_eq rfl)
  · rw [hnew]
    refine hs.newest.sync hl.ok fun hnode off bn _ hbn => ?_
    have hor := hr.msrep.clean inum (node_valid ht hnode).2.1 bn (List.mem_of_getElem? hbn)
    exact hor.symm.imp Std.ExtTreeSet.mem_toList.2 id
  · rw [hnew]
    obtain ⟨e', he', rfl⟩ := (BFILE.pending_dsyncVecs fl xp.fsxpLog st vmap0 _ e).1 he
    exact hbehind e' he'

theorem treeSync_call : wp h ((Call.basic .treeSync).run fl xp ams) (Done h xp n (V :: Vs) (.basic .treeSync))
    (MCrash h xp.fsxpLog n (Left xp (V :: Vs) (some (.basic .treeSync)))) s := by
  refine wp_map (wp_seq (LOG.flushall_spec hl.log hs.mounted.log) (fun _ hm => hm.mono fun _ he => hs.left he) ?_)
  intro ms s₁ hr₁
  have hnew : st.flush.newest = st.newest := rfl
  have ht := hs.mounted.tree.switch
  rw [← hnew] at ht
  refine .inr ⟨V, [], _, .treeSync, ⟨hr₁, hs.mounted.idle, ht⟩, ?_, fun e he => ?_⟩
  · rw [hnew]
    exact hs.newest
  · obtain rfl := LogState.pending_flush he
    exact behind_newest ht hs.newest

theorem umount_call : wp h (Call.umount.run fl xp ams) (Done h xp n (V :: Vs) .umount)
    (MCrash h xp.fsxpLog n (Left xp (V :: Vs) (some .umount))) s := by
  have hflush : wp h (AFS.treeSync xp ams) (fun ams₁ s₁ => LOG.LRep h xp.fsxpLog n st.flush ams₁.msLL s₁ ∧
      TreeRep xp (ldisk st.newest) ams₁.fms V.tree) (MCrash h xp.fsxpLog n st.Pending) s :=
    wp_seq (LOG.flushall_spec hl.log hs.mounted.log) (fun _ hm => hm) fun _ _ hr₁ => ⟨hr₁, hs.mounted.tree.switch⟩
  refine wp_map (wp_seq hflush (fun _ hm => hm.mono fun _ he => hs.left he) ?_)
  rintro ams₁ s₁ ⟨hr₁, ht⟩
  refine wp_seq (LOG.syncCache_spec hl.log hr₁) (fun _ hm => hm.mono fun e he => ?_) fun ms s₂ hr₂ => ?_
  · obtain rfl := LogState.pending_flush he
    exact hs.left (LogState.pending_newest st)
  obtain ⟨Z, hr, _⟩ := ht.nodes
  have hcaches := hr.msrep.synced (synced_syncMem st.newest) (plain_syncMem st.newest)
  have ht' := ht.synced hl.ok (synced_syncMem st.newest) hcaches (cacheLess_of_eq rfl)
  have himg : Image xp (.settled V.tree) (syncMem st.newest) := image_settled hl.ok (plain_syncMem _) ht'
  refine .inr ⟨.settled V.tree, [], _, .umount, ⟨hr₂, hs.mounted.idle, ht'⟩, himg, fun e he => ?_⟩
  have hflushed : LogState.Pending (LogState.flush ⟨syncMem st.newest, [], st.cur⟩) e := he
  obtain rfl := LogState.pending_flush hflushed
  exact behind_newest ht' himg

end Direct

/-! ## Every call -/

theorem call_spec {h : HashKey → HashVal} {xp : FsXparams} {n : Nat} {st : LogState} {V : Version} {Vs : Treeseq}
    {ams : AFS.Memstate} {s : St Valu HashKey} (hl : FsLayout xp n) (hs : Serves h xp n st V Vs ams s) (fl : Bool) {c : Call}
    (hc : c.Valid V.tree) :
    wp h (c.run fl xp ams) (Done h xp n (V :: Vs) c) (MCrash h xp.fsxpLog n (Left xp (V :: Vs) (some c))) s := by
  cases c with
  | basic c =>
    cases c with
    | create dnum name =>
      obtain ⟨p, ents, hp⟩ := hc
      exact create_call hl hs fl hp name
    | mkdir dnum name =>
      obtain ⟨p, ents, hp⟩ := hc
      exact mkdir_call hl hs fl hp name
    | delete dnum name =>
      obtain ⟨p, ents, hp⟩ := hc
      exact delete_call hl hs fl hp name
    | rename dnum srcpath srcname dstpath dstname =>
      obtain ⟨p, ents, hp⟩ := hc
      exact rename_call hl hs fl hp srcpath srcname dstpath dstname
    | fileTruncate inum sz =>
      obtain ⟨p, f, hp⟩ := hc
      exact fileTruncate_call hl hs fl hp sz
    | fileSetAttr inum attr =>
      obtain ⟨p, f, hp⟩ := hc
      exact fileSetAttr_call hl hs fl hp attr
    | updateFblock inum off v =>
      obtain ⟨p, f, hp, hoff⟩ := hc
      exact updateFblock_call hl hs fl hp hoff v
    | lookup | readdir | readFblock | fileGetAttr => exact readOnly_call hl hs fl trivial hc
    | treeSync => exact treeSync_call hl hs fl
  | mksock dnum name =>
    obtain ⟨p, ents, hp⟩ := hc
    exact mksock_call hl hs fl hp name
  | fileSetSz inum sz =>
    obtain ⟨p, f, hp⟩ := hc
    exact fileSetSz_call hl hs fl hp sz
  | updateFblockD inum off v => exact updateFblockD_call hl hs fl hc v
  | fileSync inum => exact fileSync_call hl hs fl inum
  | umount => exact umount_call hl hs fl

end TreeSeq

end Fscq
