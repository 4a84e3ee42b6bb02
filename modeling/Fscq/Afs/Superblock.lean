import Fscq.Afs.Finishes
import Fscq.Log.Avoids
import Fscq.Log.Direct

/-!
# The superblock and the log header

Both are records in one block, padded with zeros, and are read back as they were written. `mkfs` writes the superblock
first, and no call writes block 0 again (`Op.run_avoids`), so that `recover` reads back the layout that `mkfs` computed after
any run with any number of crashes (`parameter_blocks_round_trip`).
-/

namespace Fscq

open TxnLogic CrashLogic Bufcache
open INODE (Iattr)

/-! ## Padding -/

theorem Hdr.getLsbD_hdr2val (x : Header) {i : Nat} (hi : Rec.len headerType ≤ i) : (hdr2val x).getLsbD i = false := by
  rw [hdr2val, BitVec.getLsbD_cast, zext, Rec.getLsbD_combine, if_neg (by omega)]
  exact BitVec.getLsbD_zero

theorem SB.getLsbD_vPickle (xp : FsXparams) {i : Nat} (hi : Rec.len superblockType ≤ i) :
    (vPickleSuperblock xp).getLsbD i = false := by
  rw [vPickleSuperblock, BitVec.getLsbD_cast]
  exact Rec.getLsbD_padded superblockType (pickleSuperblock xp) _ _ _ hi

/-! ## The layout fits in 64 bits -/

def goodSize (a : Nat) : Prop := a < 2 ^ addrlen

def LogXparams.Fits (xp : LogXparams) : Prop :=
  goodSize xp.dataStart ∧ goodSize xp.logHeader ∧ goodSize (xp.logDescriptor + xp.logDescLen) ∧ goodSize (xp.logData + xp.logLen)

/-- The condition of the source on a layout. -/
structure FsXparamsOk (xp : FsXparams) : Prop where
  log : xp.fsxpLog.Fits
  inode : goodSize (xp.fsxpInode.ixStart + xp.fsxpInode.ixLen)
  balloc1 : goodSize (xp.fsxpBlockAlloc1.bmapStart + xp.fsxpBlockAlloc1.bmapNBlocks)
  balloc2 : goodSize (xp.fsxpBlockAlloc2.bmapStart + xp.fsxpBlockAlloc2.bmapNBlocks)
  ialloc : goodSize (xp.fsxpInodeAlloc.bmapStart + xp.fsxpInodeAlloc.bmapNBlocks)
  root : goodSize xp.fsxpRootInum
  maxBlock : goodSize xp.fsxpMaxBlock
  magic : goodSize xp.fsxpMagic

namespace AFS

theorem fsXparamsOk_computeXparams {dataBitmaps inodeBitmaps logDescrBlocks : Nat}
    (hsize : rawSize dataBitmaps inodeBitmaps logDescrBlocks < 2 ^ 64) :
    FsXparamsOk (computeXparams dataBitmaps inodeBitmaps logDescrBlocks SB.magicNumber) := by
  simp only [rawSize, diskSize] at hsize
  constructor <;> simp only [LogXparams.Fits, goodSize, addrlen, computeXparams, SB.magicNumber] <;> omega

theorem aboveZero_computeXparams (dataBitmaps inodeBitmaps logDescrBlocks magic : Nat) :
    (computeXparams dataBitmaps inodeBitmaps logDescrBlocks magic).fsxpLog.AboveZero := by
  constructor <;> simp only [computeXparams] <;> omega

/-! ## Every call leaves block 0 alone -/

inductive Op
  | fileGetAttr (inum : Nat)
  | fileGetSz (inum : Nat)
  | fileSetAttr (inum : Nat) (attr : Iattr)
  | fileSetSz (inum : Nat) (sz : BitVec 64)
  | readFblock (inum off : Nat)
  | fileTruncate (inum sz : Nat)
  | ftruncate (inum sz : Nat)
  | updateFblockD (inum off : Nat) (v : Valu)
  | updateFblock (inum off : Nat) (v : Valu)
  | fileSync (inum : Nat)
  | readdir (dnum : Nat)
  | create (dnum : Nat) (name : Sname)
  | mksock (dnum : Nat) (name : Sname)
  | mkdir (dnum : Nat) (name : Sname)
  | delete (dnum : Nat) (name : Sname)
  | lookup (dnum : Nat) (names : List Sname)
  | rename (dnum : Nat) (srcpath : List Sname) (srcname : Sname) (dstpath : List Sname) (dstname : Sname)
  | treeSync
  | treeSyncNoop
  | umount
  | statfs

/-- The memory state after a call. -/
def Op.run (fl : Bool) (xp : FsXparams) : Op → Memstate → FProg Memstate
  | .fileGetAttr inum, ams => Prod.fst <$> AFS.fileGetAttr xp inum ams
  | .fileGetSz inum, ams => Prod.fst <$> AFS.fileGetSz xp inum ams
  | .fileSetAttr inum attr, ams => Prod.fst <$> AFS.fileSetAttr fl xp inum attr ams
  | .fileSetSz inum sz, ams => Prod.fst <$> AFS.fileSetSz fl xp inum sz ams
  | .readFblock inum off, ams => Prod.fst <$> AFS.readFblock xp inum off ams
  | .fileTruncate inum sz, ams => Prod.fst <$> AFS.fileTruncate fl xp inum sz ams
  | .ftruncate inum sz, ams => Prod.fst <$> AFS.ftruncate fl xp inum sz ams
  | .updateFblockD inum off v, ams => AFS.updateFblockD xp inum off v ams
  | .updateFblock inum off v, ams => Prod.fst <$> AFS.updateFblock fl xp inum off v ams
  | .fileSync inum, ams => AFS.fileSync xp inum ams
  | .readdir dnum, ams => Prod.fst <$> AFS.readdir xp dnum ams
  | .create dnum name, ams => Prod.fst <$> AFS.create fl xp dnum name ams
  | .mksock dnum name, ams => Prod.fst <$> AFS.mksock fl xp dnum name ams
  | .mkdir dnum name, ams => Prod.fst <$> AFS.mkdir fl xp dnum name ams
  | .delete dnum name, ams => Prod.fst <$> AFS.delete fl xp dnum name ams
  | .lookup dnum names, ams => Prod.fst <$> AFS.lookup xp dnum names ams
  | .rename dnum srcpath srcname dstpath dstname, ams =>
    Prod.fst <$> AFS.rename fl xp dnum srcpath srcname dstpath dstname ams
  | .treeSync, ams => AFS.treeSync xp ams
  | .treeSyncNoop, ams => AFS.treeSyncNoop xp ams
  | .umount, ams => AFS.umount xp ams
  | .statfs, ams => Prod.fst <$> AFS.statfs xp ams

section Avoids

variable {α : Type} {xp : FsXparams} {ams : Memstate} {b : Valu} (hx : xp.fsxpLog.AboveZero) (hs : LOG.Spares ams.msLL)
include hs

theorem transactRo_avoids (body : BFILE.Memstate → TBody (BFILE.Memstate × α)) :
    (transactRo xp body ams).Avoids 0 b (LOG.Spares ·.1.msLL) :=
  LOG.avoids_begin ((LOG.exec_avoids (body ams.fms) hs).seq fun _ hs₁ => by exact hs₁)

include hx

theorem transact_avoids (fl : Bool) (body : BFILE.Memstate → TBody (BFILE.Memstate × Except Errno α)) :
    (transact fl xp body ams).Avoids 0 b (LOG.Spares ·.1.msLL) := by
  refine LOG.avoids_begin ((LOG.exec_avoids (body ams.fms) hs).seq fun ⟨ms₁, fms₁, r⟩ hs₁ => ?_)
  cases r with
  | error e => exact hs₁
  | ok a =>
    refine (LOG.commit_avoids hx hs₁ fl).seq fun ⟨ms₂, ok⟩ hs₂ => ?_
    cases ok <;> exact hs₂

theorem transactRebind_avoids (fl : Bool) (body : BFILE.Memstate → TBody (BFILE.Memstate × Except Errno α)) :
    (transactRebind fl xp body ams).Avoids 0 b (LOG.Spares ·.1.msLL) := by
  refine LOG.avoids_begin ((LOG.exec_avoids (body ams.fms) hs).seq fun ⟨ms₁, fms₁, r⟩ hs₁ => ?_)
  cases r with
  | error e => exact hs₁
  | ok a =>
    refine (LOG.commit_avoids hx hs₁ fl).seq fun ⟨ms₂, ok⟩ hs₂ => ?_
    cases ok <;> exact hs₂

theorem fileSetSz_avoids (fl : Bool) (inum : Nat) (sz : BitVec 64) :
    (fileSetSz fl xp inum sz ams).Avoids 0 b (LOG.Spares ·.1.msLL) := by
  refine LOG.avoids_begin ((LOG.exec_avoids (BFILE.updattr xp inum (.UBytes sz) ams.fms) hs).seq fun ⟨ms₁, fms₁⟩ hs₁ => ?_)
  refine (LOG.commit_avoids hx hs₁ fl).seq fun ⟨ms₂, ok⟩ hs₂ => ?_
  cases ok
  · exact hs₁
  · exact hs₂

theorem ftruncate_avoids (fl : Bool) (inum sz : Nat) : (ftruncate fl xp inum sz ams).Avoids 0 b (LOG.Spares ·.1.msLL) := by
  refine LOG.avoids_begin ((LOG.exec_avoids (BFILE.truncate xp inum _ ams.fms) hs).seq fun ⟨ms₁, fms₁, r⟩ hs₁ => ?_)
  cases r with
  | error e => exact hs₁
  | ok _ =>
    refine (LOG.exec_avoids (BFILE.updattr xp inum _ fms₁) hs).seq fun ⟨ms₂, fms₂⟩ hs₂ => ?_
    refine (LOG.commit_avoids hx hs₂ fl).seq fun ⟨ms₃, ok⟩ hs₃ => ?_
    cases ok <;> exact hs₃

theorem updateFblockD_avoids (inum off : Nat) (v : Valu) :
    (updateFblockD xp inum off v ams).Avoids 0 b (LOG.Spares ·.msLL) := by
  refine LOG.avoids_begin ((LOG.exec_avoids (INODE.getbnum xp.fsxpInode inum off ams.fms.msICache) hs).seq fun r hs₁ => ?_)
  exact (LOG.dwrite_avoids hx hs₁ _ v).seq fun _ hs₂ => by exact hs₂

theorem updateFblock_avoids (fl : Bool) (inum off : Nat) (v : Valu) :
    (updateFblock fl xp inum off v ams).Avoids 0 b (LOG.Spares ·.1.msLL) := by
  refine LOG.avoids_begin ((LOG.exec_avoids (BFILE.write xp inum off v ams.fms) hs).seq fun _ hs₁ => ?_)
  exact (LOG.commit_avoids hx hs₁ fl).seq fun _ hs₂ => by exact hs₂

omit hx in
theorem fileSync_avoids (inum : Nat) : (fileSync xp inum ams).Avoids 0 b (LOG.Spares ·.msLL) :=
  LOG.avoids_begin ((LOG.dsyncVecs_avoids hs _).seq fun _ hs₁ => by exact hs₁)

theorem treeSync_avoids : (treeSync xp ams).Avoids 0 b (LOG.Spares ·.msLL) :=
  (LOG.flushall_avoids hx hs).seq fun _ hs₁ => by exact hs₁

theorem umount_avoids : (umount xp ams).Avoids 0 b (LOG.Spares ·.msLL) :=
  (treeSync_avoids hx hs).seq fun _ hs₁ => (LOG.syncCache_avoids hs₁).seq fun _ hs₂ => by exact hs₂

theorem Op.run_avoids (fl : Bool) (op : Op) : (op.run fl xp ams).Avoids 0 b (LOG.Spares ·.msLL) := by
  have hfst : ∀ {β : Type} {p : FProg (Memstate × β)}, p.Avoids 0 b (LOG.Spares ·.1.msLL) →
      (Prod.fst <$> p).Avoids 0 b (LOG.Spares ·.msLL) := fun hp => hp.seq fun _ hr => by exact hr
  cases op with
  | fileGetAttr => exact hfst (transactRo_avoids hs _)
  | fileGetSz => exact hfst ((transactRo_avoids hs _).seq fun _ hs₁ => by exact hs₁)
  | fileSetAttr => exact hfst (transact_avoids hx hs fl _)
  | fileSetSz => exact hfst (fileSetSz_avoids hx hs fl _ _)
  | readFblock => exact hfst (transactRo_avoids hs _)
  | fileTruncate => exact hfst (transact_avoids hx hs fl _)
  | ftruncate => exact hfst (ftruncate_avoids hx hs fl _ _)
  | updateFblockD => exact updateFblockD_avoids hx hs _ _ _
  | updateFblock => exact hfst (updateFblock_avoids hx hs fl _ _ _)
  | fileSync => exact fileSync_avoids hs _
  | readdir => exact hfst (transactRo_avoids hs _)
  | create => exact hfst (transact_avoids hx hs fl _)
  | mksock => exact hfst (transactRebind_avoids hx hs fl _)
  | mkdir => exact hfst (transactRebind_avoids hx hs fl _)
  | delete => exact hfst (transact_avoids hx hs fl _)
  | lookup => exact hfst (transactRo_avoids hs _)
  | rename => exact hfst (transact_avoids hx hs fl _)
  | treeSync | treeSyncNoop => exact treeSync_avoids hx hs
  | umount => exact umount_avoids hx hs
  | statfs => exact hfst (LOG.avoids_begin (by exact hs))

end Avoids

/-! ## Recovery -/

theorem read_cache0_avoids {cachesize : Nat} {b : Valu} (hn : cachesize ≠ 0) :
    (Bufcache.read (K := HashKey) (H := HashVal) 0 (cache0 cachesize)).Avoids 0 b fun r => Clean r.1 0 ∧ r.2 = b := by
  refine Prog.Avoids.seq (P := (· = cache0 cachesize)) ?_ fun cs hcs => ?_
  · have hlt : (cache0 cachesize : CacheSt).csCount < (cache0 cachesize : CacheSt).csMaxCount := Nat.pos_of_ne_zero hn
    rw [maybeEvict, if_pos hlt]
    exact rfl
  · subst hcs
    exact fun v hv => ⟨(clean_cache0 cachesize).insert fun _ => rfl, hv rfl⟩

theorem load_spec {h : HashKey → HashVal} {s : St Valu HashKey} {xp : FsXparams} {cs : CacheSt} {D : RawDisk Valu}
    {seen : List HashKey} {old : List Valu} (hr : CacheAt cs D seen s) (h0 : D 0 = some (SB.vPickleSuperblock xp, old))
    (hg : SB.GoodSize xp) :
    wp h (SB.load cs) (fun r s' => CacheAt r.1 D seen s' ∧ r.2 = xp) (CrashAt D seen) s := by
  refine wp_seq (Bufcache.read_spec hr h0) (fun _ hc => hc) fun r s' ⟨hr', hv⟩ => ⟨hr', ?_⟩
  show SB.vUnpickleSuperblock r.2 = xp
  rw [hv, SB.vUnpickle_vPickle hg]

/-- `recover` mounts the disk that the log recovers to, with empty caches. -/
theorem recover_spec {h : HashKey → HashVal} {s : St Valu HashKey} {xp : FsXparams} {n cachesize : Nat} {r : RawDisk Valu}
    (hl : Layout xp.fsxpLog n) (hn : cachesize ≠ 0) (hg : SB.GoodSize xp) (hmagic : xp.fsxpMagic = SB.magicNumber)
    (hR : MLog.RecTo h xp.fsxpLog n r s.disk s.seen) (hz : CrashLogic.OnlyAt s.disk 0 (SB.vPickleSuperblock xp)) :
    wp h (recover cachesize)
      (fun x s' => ∃ ms, x = .ok (⟨ms, BFILE.msEmpty⟩, xp) ∧ LOG.LRep h xp.fsxpLog n ⟨r, [], vmap0⟩ ms s')
      (fun s' => ∀ m, PossibleCrash s'.disk m → MLog.RecTo h xp.fsxpLog n r m s'.seen) s := by
  refine wp_seq (Bufcache.init_spec hn s) (fun s' hc m hm => ?_) fun cs s₁ hr₁ => ?_
  · rw [hc.2]
    exact hR.crash (hc.1.possibleCrash hm)
  have hR₁ : MLog.RecTo h xp.fsxpLog n r (syncMem s.disk) s.seen := hR.crash (possibleCrash_syncMem _)
  obtain ⟨old, h0, _⟩ := hz
  have h0' : syncMem s.disk 0 = some (SB.vPickleSuperblock xp, []) := by rw [syncMem, h0]; rfl
  refine wp_seq (load_spec hr₁ h0' hg) (fun s' hc m hm => ?_) ?_
  · rw [hc.2]
    exact hR₁.crash (hc.1.possibleCrash hm)
  rintro ⟨cs₂, xp'⟩ s₂ ⟨hr₂, hxp⟩
  obtain rfl : xp' = xp := hxp
  simp only [if_pos hmagic]
  rw [← hr₂.2] at hR₁
  exact wp_seq (LOG.recover_spec hl hr₂.1 hR₁) (fun _ hc => hc) fun ms s' hr => ⟨ms, rfl, hr⟩

/-- If block 0 holds a layout, `recover` finds it. -/
theorem recover_avoids {xp : FsXparams} {cachesize : Nat} (hn : cachesize ≠ 0) (hx : xp.fsxpLog.AboveZero) (hg : SB.GoodSize xp)
    (hmagic : xp.fsxpMagic = SB.magicNumber) : (recover cachesize).Avoids 0 (SB.vPickleSuperblock xp) fun r =>
      ∃ ams, r = .ok (ams, xp) ∧ LOG.Spares ams.msLL := by
  refine Prog.Avoids.seq (P := (· = cache0 cachesize)) rfl fun cs hcs => ?_
  subst hcs
  refine Prog.Avoids.seq (P := fun r => Clean r.1 0 ∧ r.2 = xp) ?_ fun ⟨cs, xp'⟩ ⟨hc, hxp⟩ => ?_
  · refine (read_cache0_avoids hn).seq fun r ⟨hc, hr⟩ => ⟨hc, ?_⟩
    show SB.vUnpickleSuperblock r.2 = xp
    rw [hr, SB.vUnpickle_vPickle hg]
  · obtain rfl : xp' = xp := hxp
    simp only [if_pos hmagic]
    exact (LOG.recover_avoids hx hc).seq fun ms hs => ⟨_, rfl, by exact hs⟩

/-! ## Formatting -/

section Format

variable {h : HashKey → HashVal} {s s' : St Valu HashKey} {fl : Bool}
  {cachesize dataBitmaps inodeBitmaps logDescrBlocks : Nat}

theorem onlyAt_of_cacheAt {cs : CacheSt} {D : RawDisk Valu} {seen : List HashKey} {a : Nat} {v : Valu}
    (hr : CacheAt cs D seen s) (ha : D a = some (v, [])) : CrashLogic.OnlyAt s.disk a v := by
  rcases hr.1.covers a with ⟨_, hn⟩ | ⟨vs, vs', hp, hd, hsub⟩
  · cases ha.symm.trans hn
  · cases ha.symm.trans hd
    have hone : ∀ w ∈ vsmerge vs, w = v := fun w hw => List.mem_singleton.1 (hsub hw)
    refine ⟨vs.2, ?_, fun w hw => hone w (List.mem_cons_of_mem _ hw)⟩
    rw [hp, ← hone vs.1 List.mem_cons_self]

/-- After `mkfs`, block 0 holds the layout. -/
theorem mkfs_superblock (hn : cachesize ≠ 0) (hdisk : s.disk 0 ≠ none) {ams : Memstate} {xp : FsXparams}
    (he : Exec h s (mkfs fl cachesize dataBitmaps inodeBitmaps logDescrBlocks) (.finished s' (.ok (ams, xp)))) :
    xp = computeXparams dataBitmaps inodeBitmaps logDescrBlocks SB.magicNumber ∧
      CrashLogic.OnlyAt s'.disk 0 (SB.vPickleSuperblock xp) ∧ LOG.Spares ams.msLL := by
  have hx := aboveZero_computeXparams dataBitmaps inodeBitmaps logDescrBlocks SB.magicNumber
  unfold mkfs at he
  generalize computeXparams dataBitmaps inodeBitmaps logDescrBlocks SB.magicNumber = xp₀ at *
  obtain ⟨s₁, cs, hinit, he⟩ := Exec.of_bind he
  obtain ⟨s₂, cs₂, hsb, he⟩ := Exec.of_bind he
  obtain ⟨vs, hvs⟩ := Option.ne_none_iff_exists'.mp hdisk
  have hr₁ : CacheAt cs (syncMem s.disk) s.seen s₁ := wp_exec hinit (Bufcache.init_spec hn s)
  have h0 : syncMem s.disk 0 = some (vs.1, []) := by rw [syncMem, hvs]; rfl
  have hr₂ : CacheAt cs₂ (Function.update (syncMem s.disk) 0 (some (SB.vPickleSuperblock xp₀, []))) s.seen s₂ ∧ Clean cs₂ 0 :=
    wp_exec hsb (SB.init_spec hr₁ h0)
  have hz : CrashLogic.OnlyAt s₂.disk 0 (SB.vPickleSuperblock xp₀) := onlyAt_of_cacheAt hr₂.1 (Function.update_self ..)
  have hfin := Prog.Avoids.exec (P := fun r => ∀ ams xp, r = .ok (ams, xp) → xp = xp₀ ∧ LOG.Spares ams.msLL) ?_ he hz
  · obtain ⟨rfl, hs⟩ := hfin.2 ams xp rfl
    exact ⟨rfl, hfin.1, hs⟩
  refine (LOG.init_avoids hx hr₂.2).seq fun ms hs => LOG.avoids_begin ?_
  refine (LOG.exec_avoids (mkfsBody xp₀) hs).seq ?_
  rintro ⟨ms₁, r⟩ hs₁
  cases r with
  | error e => exact fun _ _ h => by cases h
  | ok fms =>
    refine (LOG.commit_avoids hx hs₁ fl).seq ?_
    rintro ⟨ms₂, ok⟩ hs₂
    cases ok with
    | false => exact fun _ _ h => by cases h
    | true =>
      refine (LOG.flushsync_avoids hx hs₂).seq fun ms₃ hs₃ => ?_
      rintro ams xp ⟨⟩
      exact ⟨rfl, hs₃⟩

/-- The states of a machine whose disk was formatted: mounted with a memory state and a layout, or after a crash. -/
inductive Formatted (h : HashKey → HashVal) (dataBitmaps inodeBitmaps logDescrBlocks : Nat) :
    Option (Memstate × FsXparams) → St Valu HashKey → Prop
  | mkfs {fl : Bool} {cachesize : Nat} {s s' : St Valu HashKey} {m : Memstate × FsXparams} : cachesize ≠ 0 →
      (∀ a < rawSize dataBitmaps inodeBitmaps logDescrBlocks, s.disk a ≠ none) →
      Exec h s (mkfs fl cachesize dataBitmaps inodeBitmaps logDescrBlocks) (.finished s' (.ok m)) →
      Formatted h dataBitmaps inodeBitmaps logDescrBlocks (some m) s'
  | call {fl : Bool} {op : Op} {ams ams' : Memstate} {xp : FsXparams} {s s' : St Valu HashKey} :
      Formatted h dataBitmaps inodeBitmaps logDescrBlocks (some (ams, xp)) s →
      Exec h s (op.run fl xp ams) (.finished s' ams') →
      Formatted h dataBitmaps inodeBitmaps logDescrBlocks (some (ams', xp)) s'
  | crash {m : Option (Memstate × FsXparams)} {s : St Valu HashKey} {d : RawDisk Valu} :
      Formatted h dataBitmaps inodeBitmaps logDescrBlocks m s → PossibleCrash s.disk d →
      Formatted h dataBitmaps inodeBitmaps logDescrBlocks none ⟨d, s.seen⟩
  | crashCall {fl : Bool} {op : Op} {ams : Memstate} {xp : FsXparams} {s s' : St Valu HashKey} {d : RawDisk Valu} :
      Formatted h dataBitmaps inodeBitmaps logDescrBlocks (some (ams, xp)) s →
      Exec h s (op.run fl xp ams) (.crashed s') → PossibleCrash s'.disk d →
      Formatted h dataBitmaps inodeBitmaps logDescrBlocks none ⟨d, s'.seen⟩
  | crashRecover {cachesize : Nat} {s s' : St Valu HashKey} {d : RawDisk Valu} : cachesize ≠ 0 →
      Formatted h dataBitmaps inodeBitmaps logDescrBlocks none s →
      Exec h s (recover cachesize) (.crashed s') → PossibleCrash s'.disk d →
      Formatted h dataBitmaps inodeBitmaps logDescrBlocks none ⟨d, s'.seen⟩
  | recover {cachesize : Nat} {s s' : St Valu HashKey} {m : Memstate × FsXparams} : cachesize ≠ 0 →
      Formatted h dataBitmaps inodeBitmaps logDescrBlocks none s →
      Exec h s (recover cachesize) (.finished s' (.ok m)) →
      Formatted h dataBitmaps inodeBitmaps logDescrBlocks (some m) s'

/-- Block 0 holds the layout `xp`, and a machine that runs knows it. -/
def Keeps (xp : FsXparams) (m : Option (Memstate × FsXparams)) (s : St Valu HashKey) : Prop :=
  CrashLogic.OnlyAt s.disk 0 (SB.vPickleSuperblock xp) ∧ ∀ ams xp', m = some (ams, xp') → xp' = xp ∧ LOG.Spares ams.msLL

variable (hsize : rawSize dataBitmaps inodeBitmaps logDescrBlocks < 2 ^ 64)
include hsize

theorem recover_layout (hn : cachesize ≠ 0) {o : Outcome Valu HashKey (Except Errno (Memstate × FsXparams))}
    (hz : CrashLogic.OnlyAt s.disk 0 (SB.vPickleSuperblock (computeXparams dataBitmaps inodeBitmaps logDescrBlocks SB.magicNumber)))
    (he : Exec h s (AFS.recover cachesize) o) :
    Only 0 (SB.vPickleSuperblock (computeXparams dataBitmaps inodeBitmaps logDescrBlocks SB.magicNumber)) (fun r =>
      ∃ ams, r = .ok (ams, computeXparams dataBitmaps inodeBitmaps logDescrBlocks SB.magicNumber) ∧ LOG.Spares ams.msLL) o :=
  (recover_avoids hn (aboveZero_computeXparams ..) (goodSize_computeXparams hsize) rfl).exec he hz

theorem Formatted.keeps {m : Option (Memstate × FsXparams)} (hf : Formatted h dataBitmaps inodeBitmaps logDescrBlocks m s) :
    Keeps (computeXparams dataBitmaps inodeBitmaps logDescrBlocks SB.magicNumber) m s := by
  have hx := aboveZero_computeXparams dataBitmaps inodeBitmaps logDescrBlocks SB.magicNumber
  induction hf with
  | @mkfs fl cachesize s s' m hn hdisk he =>
    obtain ⟨ams, xp⟩ := m
    obtain ⟨rfl, hz, hs⟩ := mkfs_superblock hn (hdisk 0 (by rw [rawSize]; omega)) he
    exact ⟨hz, by rintro _ _ ⟨⟩; exact ⟨rfl, hs⟩⟩
  | call _ he ih =>
    obtain ⟨rfl, hs⟩ := ih.2 _ _ rfl
    obtain ⟨hz, hs'⟩ := (Op.run_avoids hx hs _ _).exec he ih.1
    exact ⟨hz, by rintro _ _ ⟨⟩; exact ⟨rfl, hs'⟩⟩
  | crash _ hd ih => exact ⟨hd.only ih.1, fun _ _ h => by cases h⟩
  | crashCall _ he hd ih =>
    obtain ⟨rfl, hs⟩ := ih.2 _ _ rfl
    have hz : CrashLogic.OnlyAt _ 0 _ := (Op.run_avoids hx hs _ _).exec he ih.1
    exact ⟨hd.only hz, fun _ _ h => by cases h⟩
  | crashRecover hn _ he hd ih =>
    have hz : CrashLogic.OnlyAt _ 0 _ := recover_layout hsize hn ih.1 he
    exact ⟨hd.only hz, fun _ _ h => by cases h⟩
  | recover hn _ he ih =>
    obtain ⟨hz, ams, hr, hs⟩ := recover_layout hsize hn ih.1 he
    cases hr
    exact ⟨hz, by rintro _ _ ⟨⟩; exact ⟨rfl, hs⟩⟩

end Format

end AFS

open AFS in
/-- That `recover` does not fail takes a log as a crash leaves it: the calls here may be on inodes that do not exist, and
write over the log. -/
theorem parameter_blocks_round_trip :
    (∀ xp, SB.GoodSize xp → SB.vUnpickleSuperblock (SB.vPickleSuperblock xp) = xp) ∧
    (∀ H : Hdr, H.GoodSize → Hdr.ofHeader (Hdr.val2hdr (Hdr.hdr2val (Hdr.mkHeader H))) = H) ∧
    (∀ x, Hdr.val2hdr (Hdr.hdr2val x) = x) ∧
    (∀ xp i, Rec.len SB.superblockType ≤ i → (SB.vPickleSuperblock xp).getLsbD i = false) ∧
    (∀ x i, Rec.len Hdr.headerType ≤ i → (Hdr.hdr2val x).getLsbD i = false) ∧
    ∀ dataBitmaps inodeBitmaps logDescrBlocks, rawSize dataBitmaps inodeBitmaps logDescrBlocks < 2 ^ 64 →
      FsXparamsOk (computeXparams dataBitmaps inodeBitmaps logDescrBlocks SB.magicNumber) ∧
      ∀ (h : HashKey → HashVal) s, Formatted h dataBitmaps inodeBitmaps logDescrBlocks none s → ∀ cachesize ≠ 0,
        (∀ s' r, Exec h s (AFS.recover cachesize) (.finished s' r) →
          ∃ ams, r = .ok (ams, computeXparams dataBitmaps inodeBitmaps logDescrBlocks SB.magicNumber)) ∧
        ∀ n r, Layout (computeXparams dataBitmaps inodeBitmaps logDescrBlocks SB.magicNumber).fsxpLog n →
          MLog.RecTo h (computeXparams dataBitmaps inodeBitmaps logDescrBlocks SB.magicNumber).fsxpLog n r s.disk s.seen →
          ¬ Exec h s (AFS.recover cachesize) .failed := by
  refine ⟨fun xp => SB.vUnpickle_vPickle, fun H hg => ?_, Hdr.val2hdr_hdr2val, fun xp i => SB.getLsbD_vPickle xp,
    fun x i => Hdr.getLsbD_hdr2val x, fun db ib ld hsize => ⟨fsXparamsOk_computeXparams hsize, ?_⟩⟩
  · rw [Hdr.val2hdr_hdr2val, Hdr.ofHeader_mkHeader hg]
  · intro h s hf cachesize hn
    have hz := (hf.keeps hsize).1
    refine ⟨fun s' r he => ?_, fun n r hl hR he => ?_⟩
    · obtain ⟨_, ams, hr, _⟩ := recover_layout hsize hn hz he
      exact ⟨ams, hr⟩
    · exact wp_exec he (AFS.recover_spec hl hn (goodSize_computeXparams hsize) rfl hR hz)

open AFS in
/-- A file is made, and the power fails in a sync. -/
theorem parameter_blocks_round_trip_small : ∃ h s, Formatted h 1 1 256 none s ∧
    (∀ s' r, Exec h s (AFS.recover 10) (.finished s' r) → ∃ ams, r = .ok (ams, smallFs)) ∧
    ¬ Exec h s (AFS.recover 10) .failed := by
  obtain ⟨h, s₀, ams, s, ams₁, s₁, i, hdisk, hexec, hcreate, _, _, st, hm, _⟩ := create_small
  have hl := fsLayout_small
  have hcall : Exec h s ((Op.create 1 [97]).run false smallFs ams) (.finished s₁ ams₁) := hcreate.map
  have hsync : Exec h s₁ ((Op.fileSync i).run false smallFs ams₁) (.crashed s₁) := crash_fileSync _ i ams₁
  have hcrash := possibleCrash_syncMem s₁.disk
  obtain ⟨r, _, _, _, hR⟩ := hm.log.mcrash hl.log _ hcrash
  have hf : Formatted h 1 1 256 none ⟨syncMem s₁.disk, s₁.seen⟩ :=
    .crashCall (.call (.mkfs (by decide) (fun a _ => hdisk a) hexec) hcall) hsync hcrash
  obtain ⟨hlayout, hfail⟩ := (parameter_blocks_round_trip.2.2.2.2.2 1 1 256 (by decide)).2 h _ hf 10 (by decide)
  exact ⟨h, _, hf, hlayout, hfail _ _ hl.log hR⟩

end Fscq
