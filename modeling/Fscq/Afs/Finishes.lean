import Fscq.Afs.MkfsRuns

/-!
# Calls that finish

A call that does not flush has a run to the end (`transact_finishes`), and what a call may hash is bounded. The power may fail
in a sync before it does anything, and in a flush if there is something to flush (`crash_treeSync`).
-/

namespace Fscq

open TxnLogic CrashLogic CrashLogic.Prog LogReplay
open AFS (Memstate)
open LOG (LRep)
open PaddedLog (logBlocks)

/-! ## A flush that is interrupted -/

section Flush

variable {h : HashKey → HashVal} {xp : LogXparams} {s s' : St Valu HashKey}

/-- The power may fail before an append is synced. -/
theorem PaddedLog.crash_extend {log : PaddedLog.Contents} {cs cs' : CacheSt}
    (he : Exec h s (extend xp log cs) (.finished s' (cs', true))) : ∃ s₁, Exec h s (extend xp log cs) (.crashed s₁) := by
  unfold extend at he ⊢
  obtain ⟨s₁, ⟨cs₁, nr⟩, hread, he⟩ := he.of_bind
  dsimp only at he
  split at he
  · rename_i hvalid
    obtain ⟨s₂, hAddr, haddr, he⟩ := he.of_bind
    obtain ⟨s₃, hValu, hvalu, _⟩ := he.of_bind
    refine ⟨s₃, hread.bind rfl ?_⟩
    dsimp only
    rw [if_pos hvalid]
    refine haddr.bind rfl (hvalu.bind rfl ?_)
    refine crash_here (fun cs₁ => crash_here (fun cs₂ => ?_) (Bufcache.hashFree_writeRange _ _ _)) (Bufcache.hashFree_writeRange _ _ _)
    refine crash_here (fun cs₃ => crash_here (fun cs₄ => ?_) (Bufcache.hashFree_syncRange _ _ _)) (Bufcache.hashFree_write _ _ _)
    refine crash_here (fun cs₅ => crash_here (fun cs₆ => ?_) (Bufcache.hashFree_writeback _ _)) (Bufcache.hashFree_syncRange _ _ _)
    exact .syncCrash _ _
  · cases he

theorem MLog.crash_flush {ents : PaddedLog.Contents} {ms ms' : MLog.Memstate} (hne : ents ≠ [])
    (he : Exec h s (flush xp ents ms) (.finished s' (ms', true))) : ∃ s₁, Exec h s (flush xp ents ms) (.crashed s₁) := by
  rw [flush, if_neg fun hlen => hne (List.length_eq_zero_iff.1 hlen)] at he ⊢
  obtain ⟨s₁, ⟨cs, na⟩, havail, he⟩ := he.of_bind
  obtain ⟨s₂, ms₂, happly, he⟩ := he.of_bind
  obtain ⟨s₃, ⟨cs₃, ok⟩, hext, he⟩ := he.of_bind
  cases ok with
  | true =>
    obtain ⟨s₄, hcrash⟩ := PaddedLog.crash_extend hext
    exact ⟨s₄, havail.bind rfl (happly.bind rfl (hcrash.crash_bind rfl))⟩
  | false => cases he

theorem GLog.crash_flushall {n : Nat} {base : RawDisk Valu} {txns : List PaddedLog.Contents} {ms ms' : GLog.Memstate} (hl : Layout xp n)
    (hr : GRep h xp n base txns ms s) (hsize : ms.msVMap.size ≤ xp.logLen) (hne : applyTxns txns base ≠ base)
    (he : Exec h s (flushall xp ms) (.finished s' ms')) : ∃ s₁, Exec h s (flushall xp ms) (.crashed s₁) := by
  have hents : LogReplay.EntsIn n ms.msVMap.toList := by
    rw [hr.vmap]
    exact (mapIn_txnMap hr.ents).toList
  rw [flushall_eq, if_pos hsize] at he ⊢
  obtain ⟨s₁, ⟨mm, ok⟩, hflush, he⟩ := he.of_bind
  obtain ⟨_, hok⟩ := wp_exec hflush (MLog.flush_spec hl hr.low hents (by rw [Std.ExtTreeMap.length_toList]; exact hsize))
  cases (show ok = true from hok)
  have hmap : ms.msVMap.toList ≠ [] := fun hnil => hne <| by
    rw [← overlay_txnMap, ← hr.vmap, ← LogReplay.replayDisk_toList, hnil]
    rfl
  obtain ⟨s₂, hcrash⟩ := MLog.crash_flush hmap hflush
  exact ⟨s₂, hcrash.crash_bind rfl⟩

end Flush

/-! ## Calls that succeed -/

namespace AFS

section Transact

variable {h : HashKey → HashVal} {xp : FsXparams} {n : Nat} {st : LogState} {ams : Memstate} {s : St Valu HashKey} {α : Type}
  {body : BFILE.Memstate → TBody (BFILE.Memstate × Except Errno α)} {P : α → BFILE.Memstate → LDisk → Prop}

theorem hashFree_transact (xp : FsXparams) (body : BFILE.Memstate → TBody (BFILE.Memstate × Except Errno α))
    (ams : Memstate) : (transact false xp body ams).HashFree := by
  refine (LOG.hashFree_exec (body ams.fms) ams.msLL).bind fun ⟨ms₁, fms₁, r⟩ => ?_
  cases r with
  | error e => exact trivial
  | ok _ =>
    refine (LOG.hashFree_commit ms₁).bind fun ⟨ms₂, ok⟩ => ?_
    cases ok <;> exact trivial

variable (hl : Layout xp.fsxpLog n) (hlog : n ≤ xp.fsxpLog.logLen) (hr : LRep h xp.fsxpLog n st ams.msLL s) (hi : st.cur = vmap0)
  (hbody : twp n (body ams.fms) (fun r d' => ∃ a, r.2 = .ok a ∧ P a r.1 d') (ldisk st.newest))
include hl hlog hr hi hbody

/-- A transaction succeeds if its body does, and if the log takes as many blocks as there are. It stays in memory. -/
theorem transact_ok : wp h (transact false xp body ams) (fun r s' => ∃ a, r.2 = .ok a ∧ ∃ st', LRep h xp.fsxpLog n st' r.1.msLL s' ∧
    st'.cur = vmap0 ∧ st'.base = st.base ∧ P a r.1.fms (ldisk st'.newest)) (fun _ => True) s := by
  refine LOG.wp_begin (wp_seq (LOG.exec_idle hl hr hi hbody) (fun _ _ => trivial) ?_)
  rintro ⟨ms, fms, r⟩ s₁ ⟨cur, hr₁, a, hok, hP⟩
  obtain rfl : r = .ok a := hok
  refine wp_seq (LOG.commit_spec hl false hr₁) (fun _ _ => trivial) ?_
  rintro ⟨ms', ok⟩ s₂ ⟨hr₂, hfit⟩
  have hlen : cur.toList.length ≤ xp.fsxpLog.logLen := hr₁.txnIn.length_le.trans hlog
  obtain rfl : ok = true := hfit.trans (decide_eq_true hlen)
  have hset := LogState.settled_commit st cur false xp.fsxpLog
  rw [if_pos hlen] at hset
  refine ⟨a, rfl, _, hr₂, hset.idle, ?_, ?_⟩
  · rw [LogState.commit, LOG.setCur, if_pos hlen]
    rfl
  · rw [hset.newest]
    exact hP

theorem transact_finishes : ∃ s' ams' a, Exec h s (transact false xp body ams) (.finished s' (ams', .ok a)) ∧ s'.seen = s.seen ∧
    ∃ st', LRep h xp.fsxpLog n st' ams'.msLL s' ∧ st'.cur = vmap0 ∧ st'.base = st.base ∧ P a ams'.fms (ldisk st'.newest) := by
  have hfree := hashFree_transact xp body ams
  obtain ⟨s', ⟨ams', r⟩, hexec, a, hok, hst⟩ := Exec.finishes hfree (transact_ok hl hlog hr hi hbody)
  obtain rfl : r = .ok a := hok
  exact ⟨s', ams', a, hexec, hfree.seen_eq hexec rfl, hst⟩

end Transact

/-- A file is created in the smallest file system. -/
theorem create_small : ∃ h s₀ ams s ams₁ s₁ i, (∀ a, s₀.disk a ≠ none) ∧
    Exec h s₀ (mkfs false 10 1 1 256) (.finished s (.ok (ams, smallFs))) ∧
    Exec h s (create false smallFs 1 [97] ams) (.finished s₁ (ams₁, .ok i)) ∧ NoCollision h s₁.seen ∧ s₁.seen.length ≤ 2 ^ 18 ∧
    ∃ st, Mounted h smallFs (diskSize 1 1) st (.dir 1 [([97], .file i dirfile0)]) ams₁ s₁ ∧ ams₁.fms.msAlloc = true ∧
      1 ≤ (freeOf smallFs (ldisk st.newest) true).length := by
  obtain ⟨h, ams, s₀, s, hdisk, hexec, ha, hlen, d, hr, hdone⟩ := mkfs_small
  have hl := fsLayout_small
  have hname : SDIR.isValidSname [97] = true := by decide
  have hroom : smallFs.dataSize / 2 + (1 + 1) ≤ smallFs.dataSize := by decide
  have hspec := fileImage_spec hdone hl.ok hl.inodes hroom (by decide) hname
  obtain ⟨s₁, ams₁, i, hcreate, hseen, st, hr₁, hi, _, ht, halloc, hfree⟩ := transact_finishes
    (P := fun i fms d' => TreeRep smallFs d' fms (.dir 1 [([97], .file i dirfile0)]) ∧ fms.msAlloc = true ∧
      1 ≤ (freeOf smallFs d' true).length) hl.log (by decide) hr rfl hspec
  rw [← hseen] at ha hlen
  exact ⟨h, s₀, ams, s, ams₁, s₁, i, hdisk, hexec, hcreate, ha, hlen, st, ⟨hr₁, hi, ht⟩, halloc, hfree⟩

theorem hashFree_fileSetAttr (xp : FsXparams) (inum : Nat) (attr : INODE.Iattr) (ams : Memstate) :
    (fileSetAttr false xp inum attr ams).HashFree :=
  hashFree_transact xp _ ams

def tenBytes : INODE.Iattr := INODE.iattrUpd INODE.iattr0 (.UBytes 10)

theorem bytes_iattr0 : INODE.ABytes INODE.iattr0 = 0 := congrArg Prod.fst (Rec.wordToRec_zero _ _ _)

theorem bytes_tenBytes : INODE.ABytes tenBytes = 10 := by
  rw [tenBytes, INODE.iattrUpd, INODE.ABytes]

theorem hashFree_fileSync (xp : FsXparams) (inum : Nat) (ams : Memstate) : (fileSync xp inum ams).HashFree := by
  have hsync : (LOG.dsyncVecs xp.fsxpLog (BFILE.getDirty inum ams.fms.msDBlocks).toList ams.msLL).HashFree :=
    HashFree.bind (fun _ => by exact trivial) (HashFree.bind (fun _ => by exact trivial)
      (HashFree.bind (fun _ => by exact trivial) (Bufcache.hashFree_syncVecsNow _ _ _)))
  exact hsync.bind fun _ => by exact trivial

/-- The power may fail in a sync before it does anything. -/
theorem crash_fileSync {h : HashKey → HashVal} {s : St Valu HashKey} (xp : FsXparams) (inum : Nat) (ams : Memstate) :
    Exec h s (fileSync xp inum ams) (.crashed s) := by
  have hnow : ∀ l cs, Exec h s (Bufcache.syncVecsNow xp.fsxpLog.dataStart l cs) (.crashed s) := fun l cs =>
    crash_here (fun _ => .syncCrash s _) (hashFree_forEach (fun _ _ => Bufcache.hashFree_writeback _ _) l cs)
  exact (((hnow _ _).crash_bind rfl).crash_bind rfl |>.crash_bind rfl).crash_bind rfl

theorem hashFree_readFblock (xp : FsXparams) (inum off : Nat) (ams : Memstate) : (readFblock xp inum off ams).HashFree :=
  (LOG.hashFree_exec _ _).bind fun _ => by exact trivial

theorem hashes_updateFblockD {xp : FsXparams} {ams : Memstate} (hsize : ams.msLL.msLL.msVMap.size ≤ xp.fsxpLog.logLen)
    (inum off : Nat) (v : Valu) : (updateFblockD xp inum off v ams).Hashes (1 + logBlocks xp.fsxpLog + 1) := by
  refine HashFree.hashes_of (p := LOG.exec xp.fsxpLog (INODE.getbnum xp.fsxpInode inum off ams.fms.msICache) ams.msLL)
    (R := fun r => r.1.msLL.msVMap = ams.msLL.msLL.msVMap) ?_ (LOG.hashFree_exec _ _) (LOG.returns_exec _ _ _)
  rintro ⟨ms, ic, bn⟩ hms
  refine (LOG.hashes_dwrite ?_ _ _).bind_free fun _ => by exact trivial
  rw [show ms.msLL.msVMap = ams.msLL.msLL.msVMap from hms]
  exact hsize

theorem hashes_treeSync {xp : FsXparams} {ams : Memstate} (hsize : ams.msLL.msLL.msVMap.size ≤ xp.fsxpLog.logLen) :
    (treeSync xp ams).Hashes (1 + logBlocks xp.fsxpLog) := by
  have hflush : (LOG.flushall xp.fsxpLog ams.msLL).Hashes (1 + logBlocks xp.fsxpLog) :=
    (GLog.hashes_flushall hsize).bind_free fun _ => by exact trivial
  exact hflush.bind_free fun _ => by exact trivial

/-- The power may fail in a sync of the tree, if the newest disk is not on the disk yet. -/
theorem crash_treeSync {h : HashKey → HashVal} {xp : FsXparams} {n : Nat} {st : LogState} {ams ams' : Memstate} {s s' : St Valu HashKey}
    (hl : Layout xp.fsxpLog n) (hlog : n ≤ xp.fsxpLog.logLen) (hr : LRep h xp.fsxpLog n st ams.msLL s) (hne : st.newest ≠ st.base)
    (he : Exec h s (treeSync xp ams) (.finished s' ams')) : ∃ s₁, Exec h s (treeSync xp ams) (.crashed s₁) := by
  obtain ⟨_, _, hflush, _⟩ := he.of_bind
  obtain ⟨_, _, hflushall, _⟩ := hflush.of_bind
  obtain ⟨s₁, hcrash⟩ := GLog.crash_flushall hl hr.low (hr.size_le.trans hlog) hne hflushall
  exact ⟨s₁, (hcrash.crash_bind rfl).crash_bind rfl⟩

theorem hashes_umount {xp : FsXparams} {ams : Memstate} (hsize : ams.msLL.msLL.msVMap.size ≤ xp.fsxpLog.logLen) :
    (umount xp ams).Hashes (1 + logBlocks xp.fsxpLog) := by
  refine (hashes_treeSync hsize).bind_free fun ams₁ => ?_
  have hcache : (LOG.syncCache xp.fsxpLog ams₁.msLL).HashFree :=
    HashFree.bind (fun _ => by exact trivial) (HashFree.bind (fun _ => by exact trivial)
      (HashFree.bind (fun _ => by exact trivial) (Bufcache.hashFree_syncVecsNow _ _ _)))
  exact hcache.bind fun _ => by exact trivial

end AFS

end Fscq
