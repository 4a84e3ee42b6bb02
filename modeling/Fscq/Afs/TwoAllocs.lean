import Fscq.Afs.Dirty

/-!
# Direct writes are safe with two allocators

Blocks are freed to the allocator that is not selected, and the selection flips when the log is flushed. So a block that a
file has in the newest disk was, in every pending disk, at the same place of the same file or free in the selected allocator
(`TwoAllocs`), and a direct write to it changes at most this block of this file in whatever tree a crash exposes
(`two_allocator_safety`).
-/

namespace Fscq

open TxnLogic CrashLogic MLog LogReplay
open Bufcache (updVs updVs_of_ne syncAddrs)

/-! ## Disks that use the blocks in the same way -/

structure SameUse (xp : FsXparams) (d d' : LDisk) : Prop where
  used : ∀ i, i < xp.nInodes → blks xp d' i = blks xp d i ∧ inds xp d' i = inds xp d i
  free : ∀ al, freeOf xp d' al = freeOf xp d al

section Use

variable {xp : FsXparams} {n : Nat} {al : Bool} {d d' d₁ d₁' : LDisk} {bn inum off : Nat} {extra : List Nat}

theorem Safe.congr (h : SameUse xp d d₁) (h' : SameUse xp d' d₁') (hs : Safe xp al d d') : Safe xp al d₁ d₁' := by
  refine ⟨fun a ha => ?_, fun i hi off bn hbn => ?_, fun i hi bn hbn => ?_⟩
  · rw [h'.free] at ha
    rw [h.free]
    exact hs.free a ha
  · rw [(h'.used i hi).1] at hbn
    rw [(h.used i hi).1, h.free]
    exact hs.blk i hi off bn hbn
  · rw [(h'.used i hi).2] at hbn
    rw [(h.used i hi).2, h.free]
    exact hs.ind i hi bn hbn

theorem DataOnly.sameUse (hw : DataOnly xp bn d d') (hxp : xp.Ok n) : SameUse xp d d' :=
  ⟨fun _ hi => hw.used_eq hxp hi, fun al => hw.freeOf_eq hxp al⟩

theorem Synced.sameUse (hs : Synced d d') : SameUse xp d d' := ⟨fun _ hi => hs.used_eq hi, fun al => hs.freeOf_eq al⟩

/-- The block is in no other place than block `off` of the file `inum`. -/
structure OnlyAt (xp : FsXparams) (inum off bn : Nat) (d : LDisk) : Prop where
  notNode : ∀ i, i < xp.nInodes → bn ∉ inds xp d i
  place : ∀ i, i < xp.nInodes → ∀ o : Nat, (blks xp d i)[o]? = some bn → i = inum ∧ o = off

/-- A block of the newer disk is at the same place of the older one, or in none. -/
theorem Safe.onlyAt (hs : Safe xp al d d') (hb : BRep xp d extra) (hi : inum < xp.nInodes)
    (hbn : (blks xp d' inum)[off]? = some bn) : OnlyAt xp inum off bn d := by
  rcases hs.blk inum hi off bn hbn with hold | hfree
  · have hmem := List.mem_of_getElem? hold
    refine ⟨fun i hi' => hb.notNode hi hmem hi', fun i hi' o ho => ?_⟩
    have hmem' := List.mem_of_getElem? ho
    obtain rfl := hb.used_disjoint hi' hi (List.mem_append_left _ hmem') (List.mem_append_left _ hmem)
    obtain ⟨h₁, hget⟩ := List.getElem?_eq_some_iff.1 ho
    obtain ⟨h₂, hget'⟩ := List.getElem?_eq_some_iff.1 hold
    exact ⟨rfl, (List.Nodup.getElem_inj_iff (hb.blks_nodup hi)).1 (hget.trans hget'.symm)⟩
  · have hnot : ∀ i, i < xp.nInodes → bn ∉ used xp d i := fun i hi' h =>
      hb.not_free al (.inr (used_sub_owned hi' h)) hfree
    refine ⟨fun i hi' h => hnot i hi' (List.mem_append_right _ h), fun i hi' o ho => ?_⟩
    exact absurd (List.mem_append_left _ (List.mem_of_getElem? ho)) (hnot i hi')

/-- The files are the same but for the contents of block `off` of `inum`. -/
structure OnlyBlock (xp : FsXparams) (inum off : Nat) (d d' : LDisk) : Prop where
  other : ∀ i, i < xp.nInodes → i ≠ inum → file xp d' i = file xp d i
  attr : (file xp d' inum).attr = (file xp d inum).attr
  length : (file xp d' inum).data.length = (file xp d inum).data.length
  data : ∀ o : Nat, o ≠ off → (file xp d' inum).data[o]? = (file xp d inum).data[o]?
  ialloc : ∀ a, xp.fsxpInodeAlloc.InBitmap a → d' a = d a

theorem OnlyBlock.refl (xp : FsXparams) (inum off : Nat) (d : LDisk) : OnlyBlock xp inum off d d :=
  ⟨fun _ _ _ => rfl, rfl, rfl, fun _ _ => rfl, fun _ _ => rfl⟩

theorem DataOnly.onlyBlock (hw : DataOnly xp bn d d') (hxp : xp.Ok n) (hi : inum < xp.nInodes)
    (hat : OnlyAt xp inum off bn d) : OnlyBlock xp inum off d d' where
  other i hi' hne := hw.file_eq_of_not_mem hxp hi' fun h => by
    obtain ⟨o, ho⟩ := List.getElem?_of_mem h
    exact hne (hat.place i hi' o ho).1
  attr := by rw [file, file, INODE.attrs, INODE.attrs, hw.irec_eq hxp hi]
  length := by rw [BFILE.length_file_data, BFILE.length_file_data, (hw.used_eq hxp hi).1]
  data o ho := by
    rw [file, file, (hw.used_eq hxp hi).1, List.getElem?_map, List.getElem?_map]
    cases hb : (blks xp d inum)[o]? with
    | none => rfl
    | some b =>
      have hne : b ≠ bn := by
        rintro rfl
        exact ho (hat.place inum hi o hb).2
      rw [Option.map_some, Option.map_some, hw.frame b hne]
  ialloc a ha := hw.ialloc_eq hxp ha

end Use

/-! ## A crash after a direct write -/

section Crash

variable {xp : FsXparams} {n : Nat} {d r r' : RawDisk Valu} {bn inum off : Nat} {v : Valu} {extra : List Nat}

theorem crash_plain {a : Nat} (hc : PossibleCrash d r) (h : (ldisk d).plain a) : ldisk r a = ldisk d a := by
  rcases hc a with ⟨hd, hr⟩ | ⟨⟨w, old⟩, w', hd, hr, hmem⟩
  · simp only [ldisk, hd, hr]
  · have hold : old = [] := h _ hd
    subst hold
    rw [List.mem_singleton.1 hmem] at hr
    rw [ldisk_apply hd, ldisk_apply hr]

/-- Inode records and nodes are synced, so a crash leaves every block in its place. -/
theorem crash_used (hc : PossibleCrash d r) (htable : ∀ a, xp.InTable a → (ldisk d).plain a) (hb : BRep xp (ldisk d) extra)
    {i : Nat} (hi : i < xp.nInodes) :
    blks xp (ldisk r) i = blks xp (ldisk d) i ∧ inds xp (ldisk r) i = inds xp (ldisk d) i :=
  used_congr (irec_congr (fun a ha => crash_plain hc (htable a ha)) hi) fun a ha => crash_plain hc (hb.plain i hi a ha)

/-- A disk after a direct write and a crash differs from one that only crashed in one block. -/
theorem crash_dwrite (hxp : xp.Ok n) (htable : ∀ a, xp.InTable a → (ldisk d).plain a) (hb : BRep xp (ldisk d) extra)
    (hi : inum < xp.nInodes) (hlt : bn < xp.dataSize) (hat : OnlyAt xp inum off bn (ldisk d))
    (hc : PossibleCrash (updVs d bn v) r') :
    ∃ r, PossibleCrash d r ∧ ldisk r bn = ldisk d bn ∧ OnlyBlock xp inum off (ldisk r) (ldisk r') := by
  let r : RawDisk Valu := Function.update r' bn ((d bn).map fun vs => (vs.1, []))
  have hne : ∀ a, a ≠ bn → r a = r' a := fun a ha => Function.update_of_ne ha _ _
  have hcr : PossibleCrash d r := fun a => by
    by_cases ha : a = bn
    · subst ha
      have hself : r a = (d a).map fun vs => (vs.1, []) := Function.update_self _ _ _
      cases hd : d a with
      | none => exact .inl ⟨rfl, by rw [hself, hd]; rfl⟩
      | some vs => exact .inr ⟨vs, vs.1, rfl, by rw [hself, hd]; rfl, List.mem_cons_self⟩
    · have hca := hc a
      rwa [updVs_of_ne ha, ← hne a ha] at hca
  have huse : ∀ i, i < xp.nInodes → _ := fun i hi => crash_used hcr htable hb hi
  have hw : DataOnly xp bn (ldisk r) (ldisk r') := by
    refine ⟨hlt, fun i hi => ?_, fun a ha => ?_, fun a ha hp => ?_⟩
    · rw [(huse i hi).2]
      exact hat.notNode i hi
    · simp only [ldisk, hne a ha]
    · simp only [ldisk, hne a ha] at hp ⊢
      exact hp
  have hlatest : ldisk r bn = ldisk d bn := by
    have hself : r bn = (d bn).map fun vs => (vs.1, []) := Function.update_self _ _ _
    simp only [ldisk, hself, Option.map_map]
    rfl
  refine ⟨r, hcr, hlatest, hw.onlyBlock hxp hi ⟨hw.notNode, fun i hi o ho => ?_⟩⟩
  rw [(huse i hi).1] at ho
  exact hat.place i hi o ho

end Crash

namespace BFILE

open INODE
open LOG (LRep setCur)

/-! ## The invariant -/

/-- Every pending disk uses each data block once, and the newest disk is safe for direct writes over all of them. -/
structure TwoAllocs (xp : FsXparams) (x : Files) : Prop where
  table : ∀ a, xp.InTable a → (ldisk x.log.base).plain a
  brep : ∀ d, x.log.Pending d → ∃ extra, BRep xp (ldisk d) extra
  safe : ∀ d, x.log.Pending d → Safe xp x.mem.msAlloc (ldisk d) (ldisk x.log.newest)

section Step

variable {fl : Bool} {xp : FsXparams} {n : Nat} {x : Files}

theorem Started.twoAllocs (hst : Started xp n x) : TwoAllocs xp x := by
  have hpend : ∀ d, x.log.Pending d → d = x.log.base := by
    rintro d ⟨ts, hsuf, rfl⟩
    rw [hst.txns, List.suffix_nil] at hsuf
    rw [hsuf]
    rfl
  have hnew : x.log.newest = x.log.base := hpend _ (LogState.pending_newest x.log)
  refine ⟨fun a _ => hst.plain a, fun d hd => ?_, fun d hd => ?_⟩
  · rw [hpend d hd]
    exact hst.good.brep
  · rw [hpend d hd, hnew]
    exact .refl _ _ _

/-- The allocator stays selected during a transaction. -/
theorem Inv.alloc_committed (hv : Inv xp n x) : x.committed.msAlloc = x.mem.msAlloc := by
  cases hs : x.saved with
  | none => rw [Files.committed, hs, Option.getD_none]
  | some ms =>
    rw [Files.committed, hs, Option.getD_some]
    exact (hv.start ms hs).2.alloc_eq.symm

theorem TwoAllocs.commit (hv : Inv xp n x) (ht : TwoAllocs xp x) (hs : x.saved ≠ none) :
    TwoAllocs xp (step fl xp x .commit) := by
  obtain ⟨ms, hms⟩ := Option.ne_none_iff_exists'.1 hs
  have hset := LogState.settled_commit x.log x.log.cur fl xp.fsxpLog
  have hnew : (x.log.commit fl xp.fsxpLog).newest = _ := hset.newest
  have hpend : ∀ d, (x.log.commit fl xp.fsxpLog).Pending d → _ := hset.pending
  have hdone := (hv.start ms hms).2
  have hal : (step fl xp x .commit).mem.msAlloc = x.mem.msAlloc := by
    have hcomm := hv.alloc_committed
    rw [Files.committed, hms, Option.getD_some] at hcomm
    rw [step, hms]
    split
    · rfl
    · exact hcomm
  -- from a disk pending before to the newest disk after
  have hsafe : Safe xp x.mem.msAlloc (ldisk x.log.newest) (ldisk (x.log.commit fl xp.fsxpLog).newest) := by
    rw [hnew]
    split
    · rw [hdone.alloc_eq]
      exact hdone.safe
    · exact .refl _ _ _
  refine ⟨fun a ha => ?_, fun d hd => ?_, fun d hd => ?_⟩
  · rcases hpend _ (LOG.pending_base _) with hp | hp
    · exact hp.plain (ht.table a ha)
    · have hnewest := (LogState.pending_newest x.log).plain (ht.table a ha)
      have hbase : (x.log.commit fl xp.fsxpLog).base = _ := hp
      show (ldisk (x.log.commit fl xp.fsxpLog).base).plain a
      rw [hbase]
      split
      · exact plain_overlay _ hnewest
      · exact hnewest
  · rcases hpend d hd with hp | rfl
    · exact ht.brep d hp
    · split
      · exact hv.now.brep
      · exact ht.brep _ (LogState.pending_newest x.log)
  · rw [hal]
    rcases hpend d hd with hp | hp
    · exact (ht.safe d hp).trans hsafe
    · rw [hp, ← hnew]
      exact .refl _ _ _

theorem TwoAllocs.dwrite (hxp : xp.Ok n) (hv : Inv xp n x) (ht : TwoAllocs xp x) {inum off : Nat} (hs : x.saved = none)
    (hi : inum < xp.nInodes) (hoff : off < (file xp (ldisk x.log.newest) inum).data.length) (v : Valu) :
    TwoAllocs xp (step fl xp x (.dwrite inum off v)) := by
  obtain ⟨ic, bn, hbn, hlt, hic, hstep⟩ := step_dwrite fl hxp hv hs hi hoff v
  have hw : ∀ d, x.log.Pending d → DataOnly xp bn (ldisk d) (ldisk (updVs d bn v)) := fun d hd => by
    obtain ⟨extra, hb⟩ := ht.brep d hd
    exact ⟨hlt, ((ht.safe d hd).onlyAt hb hi hbn).notNode, fun _ ha => ldisk_updVs_of_ne ha, fun _ ha => (plain_updVs_of_ne ha).2⟩
  rw [hstep]
  refine ⟨fun a ha => ?_, fun d hd => ?_, fun d hd => ?_⟩
  · have hne : a ≠ bn := by
      rintro rfl
      exact hxp.not_inTable hlt ha
    have hflush : (ldisk (x.log.flushFor [bn]).base).plain a :=
      (LogState.pending_flushFor (LOG.pending_base _)).plain (ht.table a ha)
    exact (plain_updVs_of_ne hne).2 hflush
  · obtain ⟨d', hd', rfl⟩ := pending_dwrite fl _ _ hd
    obtain ⟨extra, hb⟩ := ht.brep d' hd'
    exact ⟨extra, (hw d' hd').brep hxp hb⟩
  · obtain ⟨d', hd', rfl⟩ := pending_dwrite fl _ _ hd
    rw [newest_dwrite]
    exact (ht.safe d' hd').congr ((hw d' hd').sameUse hxp) ((hw _ (LogState.pending_newest x.log)).sameUse hxp)

theorem TwoAllocs.datasync (ht : TwoAllocs xp x) (hs : x.saved = none) (inum : Nat) :
    TwoAllocs xp (step fl xp x (.datasync inum)) := by
  rw [step_datasync fl hs]
  refine ⟨fun a ha => plain_syncAddrs (.inr (ht.table a ha)), fun d hd => ?_, fun d hd => ?_⟩
  · obtain ⟨d', hd', rfl⟩ := (pending_dsyncVecs _ _ _ _ _ _).1 hd
    obtain ⟨extra, hb⟩ := ht.brep d' hd'
    exact ⟨extra, (synced_syncAddrs d' _).brep hb⟩
  · obtain ⟨d', hd', rfl⟩ := (pending_dsyncVecs _ _ _ _ _ _).1 hd
    rw [newest_dsyncVecs]
    exact (ht.safe d' hd').congr (synced_syncAddrs d' _).sameUse (synced_syncAddrs _ _).sameUse

theorem twoAllocs_step (hxp : xp.Ok n) (hv : Inv xp n x) (ht : TwoAllocs xp x) {e : Event} (he : e.Legal xp x) :
    TwoAllocs xp (step fl xp x e) := by
  cases e with
  | begin => exact ⟨ht.table, ht.brep, ht.safe⟩
  | op o =>
    obtain ⟨cur, hlog⟩ := log_op fl xp x o
    have hal : (step fl xp x (.op o)).mem.msAlloc = x.mem.msAlloc := (hv.exec hxp he.2).2.alloc_eq
    refine ⟨fun a ha => ?_, fun d hd => ?_, fun d hd => ?_⟩
    · rw [hlog]
      exact ht.table a ha
    · rw [hlog] at hd
      exact ht.brep d hd
    · rw [hlog] at hd ⊢
      rw [hal]
      exact ht.safe d hd
  | commit => exact ht.commit hv he
  | abort =>
    have hal : (step fl xp x .abort).mem.msAlloc = x.mem.msAlloc := hv.alloc_committed
    refine ⟨ht.table, ht.brep, fun d hd => ?_⟩
    rw [hal]
    exact ht.safe d hd
  | dwrite inum off v => exact ht.dwrite hxp hv he.1 he.2.1 he.2.2 v
  | datasync inum => exact ht.datasync he.1 inum
  | sync =>
    -- nothing is pending any more, so either allocator may be selected
    refine ⟨fun a ha => (LogState.pending_newest x.log).plain (ht.table a ha), fun d hd => ?_, fun d hd => ?_⟩
    · rw [LogState.pending_flush hd]
      exact ht.brep _ (LogState.pending_newest x.log)
    · rw [LogState.pending_flush hd]
      exact .refl _ _ _

theorem twoAllocs_run (hxp : xp.Ok n) {es : List Event} (hv : Inv xp n x) (ht : TwoAllocs xp x)
    (hes : LegalRun fl xp x es) : TwoAllocs xp (run fl xp x es) := by
  induction es generalizing x with
  | nil => exact ht
  | cons e es ih => exact ih (inv_step hxp hv hes.1) (twoAllocs_step hxp hv ht hes.1) hes.2

end Step

/-! ## Direct writes -/

section Safety

variable {fl : Bool} {xp : FsXparams} {n : Nat} {x : Files}

/-- What a direct write changes in each pending disk, and in what a crash leaves of it. -/
theorem TwoAllocs.changes (hxp : xp.Ok n) (hv : Inv xp n x) (ht : TwoAllocs xp x) {inum off : Nat} {v : Valu}
    (he : Event.Legal xp x (.dwrite inum off v)) {d' : RawDisk Valu}
    (hd' : (step fl xp x (.dwrite inum off v)).log.Pending d') :
    ∃ d, x.log.Pending d ∧ OnlyBlock xp inum off (ldisk d) (ldisk d') ∧
      ∀ r', PossibleCrash d' r' → ∃ r, PossibleCrash d r ∧ OnlyBlock xp inum off (ldisk r) (ldisk r') := by
  obtain ⟨hs, hi, hoff⟩ := he
  obtain ⟨ic, bn, hbn, hlt, hic, hstep⟩ := step_dwrite fl hxp hv hs hi hoff v
  rw [hstep] at hd'
  obtain ⟨d, hd, rfl⟩ := pending_dwrite fl _ _ hd'
  obtain ⟨extra, hb⟩ := ht.brep d hd
  have hat := (ht.safe d hd).onlyAt hb hi hbn
  have hw : DataOnly xp bn (ldisk d) (ldisk (updVs d bn v)) :=
    ⟨hlt, hat.notNode, fun _ ha => ldisk_updVs_of_ne ha, fun _ ha => (plain_updVs_of_ne ha).2⟩
  refine ⟨d, hd, hw.onlyBlock hxp hi hat, fun r' hc => ?_⟩
  obtain ⟨r, hcr, -, honly⟩ := crash_dwrite hxp (fun a ha => hd.plain (ht.table a ha)) hb hi hlt hat hc
  exact ⟨r, hcr, honly⟩

/-- Over every run that starts after formatting or recovery, the newest disk is safe for direct writes over all pending
disks. A direct write changes at most its block of its file in each of them, and also in the disk that recovery exposes after
a crash during the write or behind it. -/
theorem two_allocator_safety {h : HashKey → HashVal} (hl : FsLayout xp n) {cachesize : Nat} (hn : cachesize ≠ 0) (fl : Bool)
    {y : Session} {s : St Valu HashKey} (hst : Started xp n x) (hr : Runs h xp n x y s) {es : List Event}
    (hes : LegalRun fl xp x es) :
    (∀ d, (run fl xp x es).log.Pending d →
      Safe xp (run fl xp x es).mem.msAlloc (ldisk d) (ldisk (run fl xp x es).log.newest)) ∧
    ∀ inum off v, Event.Legal xp (run fl xp x es) (.dwrite inum off v) →
      (∀ d', (step fl xp (run fl xp x es) (.dwrite inum off v)).log.Pending d' →
        ∃ d, (run fl xp x es).log.Pending d ∧ OnlyBlock xp inum off (ldisk d) (ldisk d')) ∧
      ∀ s₁ y₁, Exec h s (runEvents fl xp es y) (.finished s₁ y₁) → ∀ s₂,
        (Exec h s₁ (runEvent fl xp (.dwrite inum off v) y₁) (.crashed s₂) ∨
          ∃ y₂, Exec h s₁ (runEvent fl xp (.dwrite inum off v) y₁) (.finished s₂ y₂)) →
        LOG.CrashExposes h xp.fsxpLog n cachesize (fun r' => ∃ d r, (run fl xp x es).log.Pending d ∧ PossibleCrash d r ∧
          OnlyBlock xp inum off (ldisk r) (ldisk r')) s₂ := by
  have hv := inv_run hl.ok hst.inv hes
  have ht := twoAllocs_run hl.ok hst.inv hst.twoAllocs hes
  refine ⟨ht.safe, fun inum off v he => ⟨fun d' hd' => ?_, fun s₁ y₁ hrun s₂ hend => ?_⟩⟩
  · obtain ⟨d, hd, honly, _⟩ := ht.changes hl.ok hv he hd'
    exact ⟨d, hd, honly⟩
  · have hr₁ : Runs h xp n (run fl xp x es) y₁ s₁ := wp_exec hrun (runEvents_spec hl fl hst.inv hes hr)
    have hspec := runEvent_spec hl fl hv he hr₁
    generalize run fl xp x es = x₁ at *
    have hcrash : MCrash h xp.fsxpLog n (fun d => x₁.log.Pending d ∨ (step fl xp x₁ (.dwrite inum off v)).log.Pending d) s₂ := by
      rcases hend with hcr | ⟨y₂, hfin⟩
      · exact wp_exec hcr hspec
      · have hr₂ : Runs h xp n (step fl xp x₁ (.dwrite inum off v)) y₂ s₂ := wp_exec hfin hspec
        exact (hr₂.log.mcrash hl.log).mono fun d hd => .inr hd
    refine LOG.mcrash_exposes hl.log hn hcrash fun d' r' hd' hc _ => ?_
    rcases hd' with hd' | hd'
    · exact ⟨d', r', hd', hc, .refl _ _ _ _⟩
    · obtain ⟨d, hd, _, hexp⟩ := ht.changes hl.ok hv he hd'
      obtain ⟨r, hcr, honly⟩ := hexp r' hc
      exact ⟨d, r, hd, hcr, honly⟩

/-- The file of two blocks grows, and shrinks again. -/
def growShrink (i : Nat) : List Event := [.begin, .op (.grow i 7), .commit] ++ [.begin, .op (.shrink i 1), .commit]

/-- Its first block is written directly after that. -/
theorem two_allocator_safety_small : ∃ x y s i, Runs PaddedLog.smallHash AFS.smallFs (AFS.diskSize 1 1) x y s ∧
    (∀ d, (run false AFS.smallFs x (growShrink i)).log.Pending d →
      Safe AFS.smallFs (run false AFS.smallFs x (growShrink i)).mem.msAlloc (ldisk d)
        (ldisk (run false AFS.smallFs x (growShrink i)).log.newest)) ∧
    (∀ d', (step false AFS.smallFs (run false AFS.smallFs x (growShrink i)) (.dwrite i 0 9)).log.Pending d' →
      ∃ d, (run false AFS.smallFs x (growShrink i)).log.Pending d ∧ OnlyBlock AFS.smallFs i 0 (ldisk d) (ldisk d')) ∧
    ∀ s₁ y₁, Exec PaddedLog.smallHash s (runEvents false AFS.smallFs (growShrink i) y) (.finished s₁ y₁) → ∀ s₂,
      (Exec PaddedLog.smallHash s₁ (runEvent false AFS.smallFs (.dwrite i 0 9) y₁) (.crashed s₂) ∨
        ∃ y₂, Exec PaddedLog.smallHash s₁ (runEvent false AFS.smallFs (.dwrite i 0 9) y₁) (.finished s₂ y₂)) →
      LOG.CrashExposes PaddedLog.smallHash AFS.smallFs.fsxpLog (AFS.diskSize 1 1) 10
        (fun r' => ∃ d r, (run false AFS.smallFs x (growShrink i)).log.Pending d ∧ PossibleCrash d r ∧
          OnlyBlock AFS.smallFs i 0 (ldisk r) (ldisk r')) s₂ := by
  obtain ⟨st, ams, s, i, hm, hplain, htxns⟩ := AFS.mounted_twoBlocks PaddedLog.smallHash
  obtain ⟨hst, hr⟩ := started_mounted hm hplain htxns
  have hxp := AFS.fsLayout_small.ok
  obtain ⟨hi, hfile⟩ := DIRTREE.file_eq (p := [[97]]) hm.tree rfl
  have hes₁ : LegalRun false AFS.smallFs ⟨st, ams.fms, none⟩ [.begin, .op (.grow i 7), .commit] :=
    ⟨rfl, ⟨Option.some_ne_none _, hi⟩, Option.some_ne_none _, trivial⟩
  have hes : LegalRun false AFS.smallFs ⟨st, ams.fms, none⟩ (growShrink i) :=
    ⟨rfl, ⟨Option.some_ne_none _, hi⟩, Option.some_ne_none _, rfl, ⟨Option.some_ne_none _, hi⟩, Option.some_ne_none _, trivial⟩
  have hgrown := newest_grow (l := [0] ++ [0]) hxp hst.inv rfl false hi (by rw [hfile]; exact List.prefix_refl _) 7
  have hshrunk := newest_shrink hxp (inv_run hxp hst.inv hes₁) rfl false hi hgrown (Nat.le_refl 1)
  have hlegal : Event.Legal AFS.smallFs (run false AFS.smallFs ⟨st, ams.fms, none⟩ (growShrink i)) (.dwrite i 0 9) := by
    rw [growShrink, run, List.foldl_append]
    exact ⟨rfl, hi, hshrunk.length_le⟩
  have hten : 10 ≠ 0 := by decide
  obtain ⟨hsafe, hwrite⟩ := two_allocator_safety AFS.fsLayout_small hten false hst hr hes
  exact ⟨_, _, s, i, hr, hsafe, hwrite i 0 9 hlegal⟩

end Safety

end BFILE

end Fscq
