import Fscq.Afs.FileRun
import Fscq.Afs.Mkfs

/-!
# The dirty blocks are complete

A block is possibly unsynced when a crash may leave another value than its current one at its home location, in the disk
below the log or in one of the pending disks. In every run the possibly unsynced blocks of a file are in its dirty set, so
`datasync` leaves one surviving value for each block of the file (`dirty_blocks_complete`). What carries it is `Tracked`: the
blocks of files that are not dirty are synced in the disk below the log.
-/

namespace Fscq

open TxnLogic CrashLogic MLog LogReplay
open Bufcache (updVs updVs_of_ne syncAddrs)

/-! ## Surviving values -/

/-- A crash may leave `w` at `a`. -/
def Survives (d : RawDisk Valu) (a : Nat) (w : Valu) : Prop := ∃ r, PossibleCrash d r ∧ r a = some (w, [])

/-- A value other than the current one may survive. -/
def Unsynced (d : RawDisk Valu) (a : Nat) : Prop := ∃ w, Survives d a w ∧ (d a).map Prod.fst ≠ some w

section Survives

variable {d d' : RawDisk Valu} {a : Nat} {w : Valu}

theorem survives_iff : Survives d a w ↔ ∃ vs, d a = some vs ∧ w ∈ vsmerge vs := by
  constructor
  · rintro ⟨r, hr, hw⟩
    rcases hr a with ⟨_, hnone⟩ | ⟨vs, v, hd, hv, hmem⟩
    · rw [hw] at hnone
      cases hnone
    · rw [hw] at hv
      cases hv
      exact ⟨vs, hd, hmem⟩
  · rintro ⟨vs, hd, hmem⟩
    refine ⟨fun b => if b = a then some (w, []) else (d b).map fun vs => (vs.1, []), fun b => ?_, if_pos rfl⟩
    by_cases hb : b = a
    · subst hb
      exact .inr ⟨vs, w, hd, if_pos rfl, hmem⟩
    · cases hdb : d b with
      | none => exact .inl ⟨rfl, by simp [hb, hdb]⟩
      | some ws => exact .inr ⟨ws, ws.1, rfl, by simp [hb, hdb], List.mem_cons_self⟩

theorem survives_congr (h : d a = d' a) : Survives d a w ↔ Survives d' a w := by rw [survives_iff, survives_iff, h]

theorem not_unsynced (h : (ldisk d).plain a) : ¬ Unsynced d a := by
  rintro ⟨w, hw, hne⟩
  obtain ⟨⟨v, old⟩, hd, hmem⟩ := survives_iff.1 hw
  have hold : old = [] := h _ hd
  subst hold
  rw [List.mem_singleton.1 hmem, hd] at hne
  exact hne rfl

theorem survives_unique (h : (ldisk d).plain a) (hne : d a ≠ none) : ∃! w, Survives d a w := by
  obtain ⟨⟨v, old⟩, hd⟩ := Option.ne_none_iff_exists'.1 hne
  have hold : old = [] := h _ hd
  subst hold
  refine ⟨v, survives_iff.2 ⟨_, hd, List.mem_cons_self⟩, fun w hw => ?_⟩
  obtain ⟨vs, hvs, hmem⟩ := survives_iff.1 hw
  rw [hd] at hvs
  cases hvs
  exact List.mem_singleton.1 hmem

end Survives

namespace BFILE

open INODE
open LOG (LRep setCur)

/-! ## The start of a run -/

/-- Formatting and recovery end with nothing pending and every block synced. -/
structure Started (xp : FsXparams) (n : Nat) (x : Files) : Prop where
  data : ∀ a < n, x.log.base a ≠ none
  plain : Plain x.log.base
  txns : x.log.txns = []
  cur : x.log.cur = vmap0
  saved : x.saved = none
  good : Good xp (ldisk x.log.base) x.mem

section Start

variable {h : HashKey → HashVal} {xp : FsXparams} {n : Nat} {x : Files} {s : St Valu HashKey}

theorem Started.inv (hst : Started xp n x) : Inv xp n x := by
  obtain ⟨⟨base, txns, cur⟩, mem, saved⟩ := x
  obtain ⟨hdata, -, rfl, hcur, rfl, hgood⟩ := hst
  exact inv_idle hdata hcur hgood

/-- After formatting, with the caches that it leaves. -/
theorem started_init {d : RawDisk Valu} {lms : LOG.Memstate} {ms : Memstate} (hr : LRep h xp.fsxpLog n ⟨d, [], vmap0⟩ lms s)
    (hplain : Plain d) (hgood : Good xp (ldisk d) ms) :
    Started xp n ⟨⟨d, [], vmap0⟩, ms, none⟩ ∧ Runs h xp n ⟨⟨d, [], vmap0⟩, ms, none⟩ ⟨⟨lms, ms⟩, none⟩ s :=
  ⟨⟨fun _ ha => hr.base_ne_none ha, hplain, rfl, rfl, rfl, hgood⟩, hr, rfl, rfl⟩

theorem started_mounted {st : LogState} {T : FsTree} {ams : AFS.Memstate} (hm : AFS.Mounted h xp n st T ams s)
    (hplain : Plain st.base) (htxns : st.txns = []) :
    Started xp n ⟨st, ams.fms, none⟩ ∧ Runs h xp n ⟨st, ams.fms, none⟩ ⟨ams, none⟩ s := by
  obtain ⟨base, txns, cur⟩ := st
  obtain ⟨hlog, rfl, htree⟩ := hm
  obtain rfl := htxns
  obtain ⟨Z, hZ, _⟩ := htree.nodes
  exact started_init hlog hplain ⟨⟨[], hZ.brep⟩, hZ.msrep⟩

end Start

/-! ## Clean blocks are synced -/

/-- The caches that an abort keeps. -/
def Files.committed (x : Files) : Memstate := x.saved.getD x.mem

def Tracked (xp : FsXparams) (x : Files) : Prop :=
  ∀ i, i < xp.nInodes → ∀ bn ∈ blks xp (ldisk x.log.newest) i, bn ∉ getDirty i x.committed.msDBlocks →
    (ldisk x.log.base).plain bn

section Tracked

variable {fl : Bool} {xp : FsXparams} {n : Nat} {x : Files}

theorem Started.tracked (hst : Started xp n x) : Tracked xp x := fun _ _ bn _ _ => hst.plain bn

/-- It holds of what the transaction shows, with its own caches. -/
theorem Tracked.now (hv : Inv xp n x) (ht : Tracked xp x) {i bn : Nat} (hi : i < xp.nInodes)
    (hbn : bn ∈ blks xp (ldisk x.log.view) i) (hnot : bn ∉ getDirty i x.mem.msDBlocks) : (ldisk x.log.base).plain bn := by
  cases hs : x.saved with
  | none =>
    rw [LogState.view_of_idle (hv.idle hs)] at hbn
    refine ht i hi bn hbn ?_
    rwa [Files.committed, hs]
  | some ms =>
    obtain ⟨hold, hnot'⟩ := (hv.start ms hs).2.clean i hi bn hbn hnot
    refine ht i hi bn hold ?_
    rwa [Files.committed, hs]

theorem Tracked.commit (hv : Inv xp n x) (ht : Tracked xp x) (hs : x.saved ≠ none) : Tracked xp (step fl xp x .commit) := by
  obtain ⟨ms, hms⟩ := Option.ne_none_iff_exists'.1 hs
  have hset := LogState.settled_commit x.log x.log.cur fl xp.fsxpLog
  have hnew : (x.log.commit fl xp.fsxpLog).newest = _ := hset.newest
  have hplain : ∀ bn, (ldisk x.log.base).plain bn → (ldisk (x.log.commit fl xp.fsxpLog).base).plain bn := by
    intro bn h
    rcases hset.pending _ (LOG.pending_base _) with hp | hp
    · exact hp.plain h
    · have hbase : (x.log.commit fl xp.fsxpLog).base = _ := hp
      have hnewest := (LogState.pending_newest x.log).plain h
      rw [hbase]
      split
      · exact plain_overlay _ hnewest
      · exact hnewest
  intro i hi bn hbn hnot
  refine hplain bn ?_
  simp only [step, Files.committed, Option.getD_none, hms, Option.getD_some] at hbn hnot
  rw [hnew] at hbn
  split at hbn
  · rename_i hlen
    rw [if_pos hlen] at hnot
    exact ht.now hv hi hbn hnot
  · rename_i hlen
    rw [if_neg hlen] at hnot
    refine ht i hi bn hbn ?_
    rwa [Files.committed, hms]

/-- The block that is written becomes dirty, so the others are as they were. -/
theorem Tracked.dwrite (hxp : xp.Ok n) (hv : Inv xp n x) (ht : Tracked xp x) {inum off : Nat} (hs : x.saved = none)
    (hi : inum < xp.nInodes) (hoff : off < (file xp (ldisk x.log.newest) inum).data.length) (v : Valu) :
    Tracked xp (step fl xp x (.dwrite inum off v)) := by
  obtain ⟨ic, bn, hbn, hlt, hic, hstep⟩ := step_dwrite fl hxp hv hs hi hoff v
  obtain ⟨extra, hb⟩ := (hv.newest hs).brep
  have hmem := List.mem_of_getElem? hbn
  have hw := dataOnly_updVs hb hi hmem v
  rw [hstep]
  intro i hi' b hb' hnot
  have hnot' : ¬ ((i = inum ∧ b = bn) ∨ b ∈ getDirty i x.mem.msDBlocks) := fun h => hnot (mem_getDirty_putDirty.2 h)
  rw [newest_dwrite, (hw.used_eq hxp hi').1] at hb'
  have hne : b ≠ bn := by
    rintro rfl
    obtain rfl := hb.used_disjoint hi' hi (List.mem_append_left _ hb') (List.mem_append_left _ hmem)
    exact hnot' (.inl ⟨rfl, rfl⟩)
  have hold : (ldisk x.log.base).plain b := by
    refine ht i hi' b hb' ?_
    rw [Files.committed, hs]
    exact fun h => hnot' (.inr h)
  have hflush : (ldisk (x.log.flushFor [bn]).base).plain b := (LogState.pending_flushFor (LOG.pending_base _)).plain hold
  exact (plain_updVs_of_ne hne).2 hflush

theorem Tracked.datasync (ht : Tracked xp x) (hs : x.saved = none) (inum : Nat) :
    Tracked xp (step fl xp x (.datasync inum)) := by
  rw [step_datasync fl hs]
  intro i hi bn hbn hnot
  have hsync := synced_syncAddrs x.log.newest (getDirty inum x.mem.msDBlocks).toList
  have hnot' : ¬ (i ≠ inum ∧ bn ∈ getDirty i x.mem.msDBlocks) := fun h => hnot (mem_getDirty_clearDirty.2 h)
  rw [newest_dsyncVecs, (hsync.used_eq hi).1] at hbn
  refine plain_syncAddrs ?_
  by_cases hdirty : bn ∈ getDirty i x.mem.msDBlocks
  · -- a dirty block that is not dirty any more is one of the file
    have hi' : i = inum := by
      by_contra hne
      exact hnot' ⟨hne, hdirty⟩
    subst hi'
    exact .inl (Std.ExtTreeSet.mem_toList.2 hdirty)
  · refine .inr (ht i hi bn hbn ?_)
    rwa [Files.committed, hs]

theorem tracked_step (hxp : xp.Ok n) (hv : Inv xp n x) (ht : Tracked xp x) {e : Event} (he : e.Legal xp x) :
    Tracked xp (step fl xp x e) := by
  cases e with
  | begin =>
    have hs : x.saved = none := he
    intro i hi bn hbn hnot
    refine ht i hi bn hbn ?_
    rwa [Files.committed, hs]
  | op o =>
    obtain ⟨cur, hlog⟩ := log_op fl xp x o
    obtain ⟨ms, hms⟩ := Option.ne_none_iff_exists'.1 he.1
    have hcomm : (step fl xp x (.op o)).committed = x.committed := by
      rw [Files.committed, Files.committed, hms, step, hms]
      rfl
    intro i hi bn hbn hnot
    rw [hcomm] at hnot
    rw [hlog] at hbn ⊢
    exact ht i hi bn hbn hnot
  | commit => exact ht.commit hv he
  | abort => exact ht
  | dwrite inum off v => exact ht.dwrite hxp hv he.1 he.2.1 he.2.2 v
  | datasync inum => exact ht.datasync he.1 inum
  | sync =>
    have hs : x.saved = none := he
    intro i hi bn hbn hnot
    refine (LogState.pending_newest x.log).plain (ht i hi bn hbn ?_)
    simp only [step, Files.committed, hs, Option.getD_none] at hnot
    rwa [Files.committed, hs]

theorem tracked_run (hxp : xp.Ok n) {es : List Event} (hv : Inv xp n x) (ht : Tracked xp x) (hes : LegalRun fl xp x es) :
    Tracked xp (run fl xp x es) := by
  induction es generalizing x with
  | nil => exact ht
  | cons e es ih => exact ih (inv_step hxp hv hes.1) (tracked_step hxp hv ht hes.1) hes.2

end Tracked

/-! ## What the dirty sets are for -/

/-- Each dirty set has the possibly unsynced blocks of its file, and only blocks of its file. -/
structure DirtyComplete (xp : FsXparams) (x : Files) : Prop where
  complete : ∀ i, i < xp.nInodes → ∀ bn ∈ blks xp (ldisk x.log.view) i, ∀ d, x.log.Pending d → Unsynced d bn →
    bn ∈ getDirty i x.mem.msDBlocks
  owned : ∀ i, ∀ bn ∈ getDirty i x.mem.msDBlocks, i < xp.nInodes ∧ bn ∈ blks xp (ldisk x.log.view) i
  disjoint : ∀ i j bn, bn ∈ getDirty i x.mem.msDBlocks → bn ∈ getDirty j x.mem.msDBlocks → i = j

/-- `datasync` leaves one value for each block of the file, and the blocks of the other files as they are. -/
structure SyncedFile (xp : FsXparams) (inum : Nat) (x x' : Files) : Prop where
  files : ∀ i, i < xp.nInodes → file xp (ldisk x'.log.view) i = file xp (ldisk x.log.view) i ∧
    blks xp (ldisk x'.log.view) i = blks xp (ldisk x.log.view) i
  single : ∀ bn ∈ blks xp (ldisk x'.log.view) inum, ∀ d, x'.log.Pending d → ∃! w, Survives d bn w
  others : ∀ i, i < xp.nInodes → i ≠ inum → ∀ bn ∈ blks xp (ldisk x'.log.view) i, ∀ w,
    (Survives x'.log.base bn w ↔ Survives x.log.base bn w) ∧
    ((∃ d, x'.log.Pending d ∧ Survives d bn w) ↔ ∃ d, x.log.Pending d ∧ Survives d bn w)

section Complete

variable {fl : Bool} {xp : FsXparams} {n : Nat} {x : Files}

theorem dirtyComplete (hv : Inv xp n x) (ht : Tracked xp x) : DirtyComplete xp x where
  complete i hi bn hbn d hd hun := by
    by_contra hnot
    exact not_unsynced (hd.plain (ht.now hv hi hbn hnot)) hun
  owned := hv.now.msrep.dirty
  disjoint i j bn h₁ h₂ := by
    obtain ⟨extra, hb⟩ := hv.now.brep
    obtain ⟨hi, hmem₁⟩ := hv.now.msrep.dirty i bn h₁
    obtain ⟨hj, hmem₂⟩ := hv.now.msrep.dirty j bn h₂
    exact hb.used_disjoint hi hj (List.mem_append_left _ hmem₁) (List.mem_append_left _ hmem₂)

theorem syncedFile (hxp : xp.Ok n) (hv : Inv xp n x) (ht : Tracked xp x) {inum : Nat} (hs : x.saved = none)
    (hi : inum < xp.nInodes) : SyncedFile xp inum x (step fl xp x (.datasync inum)) := by
  have hv' : Inv xp n (step fl xp x (.datasync inum)) := Inv.datasync hv hs inum
  have ht' : Tracked xp (step fl xp x (.datasync inum)) := Tracked.datasync ht hs inum
  have hmem : ∀ bn, bn ∈ (getDirty inum x.mem.msDBlocks).toList ↔ bn ∈ getDirty inum x.mem.msDBlocks := fun bn =>
    Std.ExtTreeSet.mem_toList
  have hview : (step fl xp x (.datasync inum)).log.view = syncAddrs x.log.view (getDirty inum x.mem.msDBlocks).toList := by
    rw [step_datasync fl hs, LogState.view_of_idle (hv.idle hs), LogState.view_of_idle rfl, newest_dsyncVecs]
  have hsync := synced_syncAddrs x.log.view (getDirty inum x.mem.msDBlocks).toList
  refine ⟨fun i hi' => ?_, fun bn hbn d hd => ?_, fun i hi' hne bn hbn w => ?_⟩
  · rw [hview]
    exact ⟨hsync.file_eq hi', (hsync.used_eq hi').1⟩
  · -- nothing of the file is dirty now
    obtain ⟨extra, hb⟩ := hv'.now.brep
    have hlt := hxp.data_lt (hb.owned_pos (used_sub_owned hi (List.mem_append_left _ hbn))).2
    refine survives_unique (hd.plain (ht'.now hv' hi hbn fun h => ?_)) (hd.ne_none (hv'.data bn hlt))
    exact (mem_getDirty_clearDirty.1 h).1 rfl
  · obtain ⟨extra, hb⟩ := hv.now.brep
    rw [hview, (hsync.used_eq hi').1] at hbn
    have hnot : bn ∉ (getDirty inum x.mem.msDBlocks).toList := fun h => by
      obtain ⟨_, hmem'⟩ := hv.now.msrep.dirty inum bn ((hmem bn).1 h)
      exact hne (hb.used_disjoint hi' hi (List.mem_append_left _ hbn) (List.mem_append_left _ hmem'))
    have hkeep : ∀ d : RawDisk Valu, syncAddrs d (getDirty inum x.mem.msDBlocks).toList bn = d bn := fun d => if_neg hnot
    rw [step_datasync fl hs]
    refine ⟨survives_congr (hkeep _), ?_⟩
    simp only [pending_dsyncVecs]
    constructor
    · rintro ⟨_, ⟨d, hd, rfl⟩, hw⟩
      exact ⟨d, hd, (survives_congr (hkeep d)).1 hw⟩
    · rintro ⟨d, hd, hw⟩
      exact ⟨_, ⟨d, hd, rfl⟩, (survives_congr (hkeep d)).2 hw⟩

/-- Over every run that starts after formatting or recovery the dirty sets are complete, and after `datasync` a crash finds
the blocks of the file as they are. The programs run as the machine, and a crash exposes a crash of one of its pending
disks. -/
theorem dirty_blocks_complete {h : HashKey → HashVal} (hl : FsLayout xp n) {cachesize : Nat} (hn : cachesize ≠ 0) (fl : Bool)
    {y : Session} {s : St Valu HashKey} (hst : Started xp n x) (hr : Runs h xp n x y s) {es : List Event}
    (hes : LegalRun fl xp x es) :
    DirtyComplete xp (run fl xp x es) ∧
    (∀ inum, Event.Legal xp (run fl xp x es) (.datasync inum) →
      SyncedFile xp inum (run fl xp x es) (step fl xp (run fl xp x es) (.datasync inum))) ∧
    ∀ s' y', Exec h s (runEvents fl xp es y) (.finished s' y') → Runs h xp n (run fl xp x es) y' s' ∧
      LOG.CrashExposes h xp.fsxpLog n cachesize (fun r => ∃ d, (run fl xp x es).log.Pending d ∧ PossibleCrash d r) s' := by
  have hv := inv_run hl.ok hst.inv hes
  have ht := tracked_run hl.ok hst.inv hst.tracked hes
  refine ⟨dirtyComplete hv ht, fun inum he => syncedFile hl.ok hv ht he.1 he.2, fun s' y' hexec => ?_⟩
  have hr' : Runs h xp n (run fl xp x es) y' s' := wp_exec hexec (runEvents_spec hl fl hst.inv hes hr)
  exact ⟨hr', LOG.mcrash_exposes hl.log hn (hr'.log.mcrash hl.log) fun d r hd hcr _ => ⟨d, hd, hcr⟩⟩

/-! ### A file that grows -/

/-- A transaction of one operation is seen as a whole, or not at all. -/
theorem newest_transaction (hv : Inv xp n x) (hs : x.saved = none) (fl : Bool) {o : FileOp} {P : LDisk → Prop}
    (h₀ : P (ldisk x.log.newest)) (hbody : twp n (o.body xp x.mem) (fun _ d' => P d') (ldisk x.log.newest)) :
    P (ldisk (run fl xp x [.begin, .op o, .commit]).log.newest) := by
  have hset := LogState.settled_commit x.log (x.log.exec (o.body xp x.mem)).2.cur fl xp.fsxpLog
  rw [← LogState.exec_setCur] at hset
  show P (ldisk ((x.log.exec (o.body xp x.mem)).2.commit fl xp.fsxpLog).newest)
  rw [hset.newest]
  split
  · rw [← LogState.view_of_idle (hv.idle hs)] at hbody
    have hdone := twp_run hbody
    rw [LogState.run_exec (fun a ha => hv.newest_ne_none ha) hbody, LogState.exec_setCur] at hdone
    exact hdone
  · exact h₀

/-- A transaction that grows a file keeps its blocks. -/
theorem newest_grow (hxp : xp.Ok n) (hv : Inv xp n x) (hs : x.saved = none) (fl : Bool) {inum : Nat} (hi : inum < xp.nInodes)
    {l : List Valu} (hl : l <+: (file xp (ldisk x.log.newest) inum).data) (v : Valu) :
    l <+: (file xp (ldisk (run fl xp x [.begin, .op (.grow inum v), .commit]).log.newest) inum).data := by
  obtain ⟨extra, hb⟩ := (hv.newest hs).brep
  refine newest_transaction (P := fun d => l <+: (file xp d inum).data) hv hs fl hl
    (twp_mono (fun ⟨ms', r⟩ d' ⟨hok, herr⟩ => ?_) _ (grow_spec hxp hb (hv.newest hs).msrep hi v))
  cases r with
  | ok _ =>
    rw [(hok rfl).self]
    exact hl.trans (List.prefix_append _ _)
  | error e =>
    have hbm := (herr e rfl).toBitmapOnly
    have hdata : (file xp d' inum).data = (file xp (ldisk x.log.newest) inum).data := by
      rw [file, file, (hbm.used_eq hxp hb hi).1]
      exact List.map_congr_left fun a ha => hbm.data_eq hxp (hb.owned_pos (used_sub_owned hi (List.mem_append_left _ ha))).2
    rwa [hdata]

/-- A transaction that shrinks a file keeps its first blocks. -/
theorem newest_shrink (hxp : xp.Ok n) (hv : Inv xp n x) (hs : x.saved = none) (fl : Bool) {inum nr : Nat} (hi : inum < xp.nInodes)
    {l l' : List Valu} (hl : l ++ l' <+: (file xp (ldisk x.log.newest) inum).data) (hnr : nr ≤ l'.length) :
    l <+: (file xp (ldisk (run fl xp x [.begin, .op (.shrink inum nr), .commit]).log.newest) inum).data := by
  obtain ⟨extra, hb⟩ := (hv.newest hs).brep
  have hpre := (List.prefix_append _ _).trans hl
  refine newest_transaction (P := fun d => l <+: (file xp d inum).data) hv hs fl hpre
    (twp_seq (shrink_spec hxp hb (hv.newest hs).msrep hi nr) fun ms' d' h => ?_)
  show l <+: (file xp d' inum).data
  rw [h.self]
  have hlen := hl.length_le
  rw [List.length_append] at hlen
  exact List.prefix_take_iff.2 ⟨hpre, by omega⟩

/-- A direct write of another value leaves the block possibly unsynced. -/
theorem unsynced_dwrite (hxp : xp.Ok n) (hv : Inv xp n x) (hs : x.saved = none) (fl : Bool) {inum off : Nat}
    (hi : inum < xp.nInodes) {v w : Valu} (hw : (file xp (ldisk x.log.newest) inum).data[off]? = some w) (hne : v ≠ w) :
    ∃ bn ∈ blks xp (ldisk (step fl xp x (.dwrite inum off v)).log.newest) inum,
      Unsynced (step fl xp x (.dwrite inum off v)).log.newest bn := by
  obtain ⟨ic, bn, hbn, hlt, _, hstep⟩ := step_dwrite fl hxp hv hs hi (List.getElem?_eq_some_iff.1 hw).1 v
  obtain ⟨extra, hb⟩ := (hv.newest hs).brep
  have hmem := List.mem_of_getElem? hbn
  have hnew : (step fl xp x (.dwrite inum off v)).log.newest = updVs x.log.newest bn v := by
    rw [hstep]
    exact newest_dwrite fl xp.fsxpLog x.log bn v vmap0
  obtain ⟨⟨w', old⟩, hvs⟩ := Option.ne_none_iff_exists'.1 (hv.newest_ne_none (hxp.data_lt hlt))
  have hold : w' = w := by
    rw [file, List.getElem?_map, hbn, Option.map_some, ldisk_apply hvs] at hw
    exact Option.some_inj.1 hw
  rw [hnew]
  refine ⟨bn, ?_, w, survives_iff.2 ⟨_, Bufcache.updVs_some hvs, ?_⟩, ?_⟩
  · rwa [((dataOnly_updVs hb hi hmem v).used_eq hxp hi).1]
  · rw [← hold]
    exact List.mem_cons_of_mem _ List.mem_cons_self
  · rw [Bufcache.updVs_some hvs, Option.map_some]
    exact fun heq => hne (Option.some_inj.1 heq)

/-- The file of two blocks has grown, and is written directly. -/
theorem dirty_blocks_complete_small : ∃ x y s i, Runs PaddedLog.smallHash AFS.smallFs (AFS.diskSize 1 1) x y s ∧
    DirtyComplete AFS.smallFs (run false AFS.smallFs x [.begin, .op (.grow i 7), .commit, .dwrite i 0 9]) ∧
    (∃ bn ∈ blks AFS.smallFs (ldisk (run false AFS.smallFs x [.begin, .op (.grow i 7), .commit, .dwrite i 0 9]).log.newest) i,
      Unsynced (run false AFS.smallFs x [.begin, .op (.grow i 7), .commit, .dwrite i 0 9]).log.newest bn) ∧
    SyncedFile AFS.smallFs i (run false AFS.smallFs x [.begin, .op (.grow i 7), .commit, .dwrite i 0 9])
      (run false AFS.smallFs x [.begin, .op (.grow i 7), .commit, .dwrite i 0 9, .datasync i]) := by
  obtain ⟨st, ams, s, i, hm, hplain, htxns⟩ := AFS.mounted_twoBlocks PaddedLog.smallHash
  obtain ⟨hst, hr⟩ := started_mounted hm hplain htxns
  have hxp := AFS.fsLayout_small.ok
  obtain ⟨hi, hfile⟩ := DIRTREE.file_eq (p := [[97]]) hm.tree rfl
  have hgrown := newest_grow (l := [0, 0]) hxp hst.inv rfl false hi (by rw [hfile]; exact List.prefix_refl _) 7
  have hfirst := List.prefix_iff_getElem?.1 hgrown 0 (by decide)
  have hes₁ : LegalRun false AFS.smallFs ⟨st, ams.fms, none⟩ [.begin, .op (.grow i 7), .commit] :=
    ⟨rfl, ⟨Option.some_ne_none _, hi⟩, Option.some_ne_none _, trivial⟩
  have hes : LegalRun false AFS.smallFs ⟨st, ams.fms, none⟩ [.begin, .op (.grow i 7), .commit, .dwrite i 0 9] :=
    ⟨rfl, ⟨Option.some_ne_none _, hi⟩, Option.some_ne_none _, ⟨rfl, hi, (List.getElem?_eq_some_iff.1 hfirst).1⟩, trivial⟩
  have hten : 10 ≠ 0 := by decide
  obtain ⟨hcomplete, hsync, _⟩ := dirty_blocks_complete AFS.fsLayout_small hten false hst hr hes
  exact ⟨_, _, s, i, hr, hcomplete, unsynced_dwrite hxp (inv_run hxp hst.inv hes₁) rfl false hi hfirst (by decide +kernel),
    hsync i ⟨rfl, hi⟩⟩

end Complete

end BFILE

end Fscq
