import Fscq.Afs.Spec
import Fscq.Log.Direct

/-!
# Runs of file operations on the log

`BFILE.dwrite`, `datasync` and `sync` work on the log itself, between transactions; the other operations on files are bodies
of transactions. `Files` is the state of the log with the caches of the file layer, and inside a transaction also the caches
from its start, which an abort brings back. `step` is what an event does to it, the programs refine it (`runEvents_spec`),
and in every state of a run the caches agree with the disk (`Inv`).
-/

namespace Fscq

open TxnLogic CrashLogic MLog LogReplay
open Bufcache (updVs updVs_of_ne syncAddrs)

/-! ## Disks of the log -/

section Disks

variable {d : RawDisk Valu} {a b : Nat} {v : Valu}

theorem plain_overlay (m : Valumap) (h : (ldisk d).plain a) : (ldisk (overlay m d)).plain a := fun vs hvs => by
  cases hm : m[a]? with
  | none =>
    rw [overlay_none hm] at hvs
    exact h vs hvs
  | some w =>
    rw [overlay_some hm] at hvs
    obtain ⟨_, _, rfl⟩ := Option.map_eq_some_iff.1 hvs
    rfl

theorem LogState.Pending.plain {st : LogState} (hd : st.Pending d) (h : (ldisk st.base).plain a) : (ldisk d).plain a := by
  obtain ⟨ts, _, rfl⟩ := hd
  rw [← GLog.overlay_txnMap]
  exact plain_overlay _ h

theorem LogState.Pending.ne_none {st : LogState} (hd : st.Pending d) (h : st.base a ≠ none) : d a ≠ none := by
  obtain ⟨ts, _, rfl⟩ := hd
  rw [← GLog.overlay_txnMap]
  exact overlay_ne_none h

theorem ldisk_updVs_self (h : d a ≠ none) : ldisk (updVs d a v) a = v := by
  obtain ⟨vs, hvs⟩ := Option.ne_none_iff_exists'.1 h
  refine @ldisk_apply _ _ _ (vsmerge vs) ?_
  rw [updVs, Function.update_self, hvs]
  rfl

theorem ldisk_updVs_of_ne (h : b ≠ a) : ldisk (updVs d a v) b = ldisk d b := by
  simp only [ldisk, updVs_of_ne h]

theorem plain_updVs_of_ne (h : b ≠ a) : (ldisk (updVs d a v)).plain b ↔ (ldisk d).plain b := by
  simp only [ldisk, updVs_of_ne h]

theorem ldisk_syncAddrs (l : List Nat) : ldisk (syncAddrs d l) b = ldisk d b := by
  simp only [ldisk, syncAddrs]
  split
  · rw [Option.map_map]
    rfl
  · rfl

theorem plain_syncAddrs {l : List Nat} (h : b ∈ l ∨ (ldisk d).plain b) : (ldisk (syncAddrs d l)).plain b := fun vs hvs => by
  rw [syncAddrs] at hvs
  split at hvs
  · obtain ⟨_, _, rfl⟩ := Option.map_eq_some_iff.1 hvs
    rfl
  · rename_i hb
    exact h.resolve_left hb vs hvs

end Disks

namespace BFILE

open INODE
open LOG (LRep setCur)

/-! ## The programs -/

section Programs

variable (xp : FsXparams) (inum : Nat)

/-- Writes a block of a file, bypassing the log. -/
def dwrite (off : Nat) (v : Valu) (ams : AFS.Memstate) : FProg AFS.Memstate := do
  let (ms, icache, bn) ← LOG.exec xp.fsxpLog (INODE.getbnum xp.fsxpInode inum off ams.fms.msICache) ams.msLL
  let ms ← LOG.dwrite xp.fsxpLog bn.toNat v ms
  pure ⟨ms, { ams.fms with msICache := icache, msDBlocks := putDirty inum bn.toNat ams.fms.msDBlocks }⟩

/-- Syncs the dirty blocks of a file. -/
def datasync (ams : AFS.Memstate) : FProg AFS.Memstate := do
  let bns := (getDirty inum ams.fms.msDBlocks).toList
  let ms ← LOG.dsyncVecs xp.fsxpLog bns ams.msLL
  pure ⟨ms, { ams.fms with msDBlocks := clearDirty inum ams.fms.msDBlocks }⟩

/-- Flushes the log; the blocks freed until now may be allocated again. -/
def sync (ams : AFS.Memstate) : FProg AFS.Memstate := do
  let ms ← LOG.flushall xp.fsxpLog ams.msLL
  pure ⟨ms, { ams.fms with msAlloc := !ams.fms.msAlloc }⟩

end Programs

/-- The operations that run inside a transaction. -/
inductive FileOp
  | grow (inum : Nat) (v : Valu)
  | shrink (inum nr : Nat)
  | truncate (inum newsz : Nat)
  | reset (inum : Nat)
  | write (inum off : Nat) (v : Valu)

def FileOp.body (xp : FsXparams) : FileOp → Memstate → TBody (Memstate × Except Errno Unit)
  | .grow inum v, ms => BFILE.grow xp inum v ms
  | .shrink inum nr, ms => do
    let ms ← BFILE.shrink xp inum nr ms
    pure (ms, .ok ())
  | .truncate inum newsz, ms => BFILE.truncate xp inum newsz ms
  | .reset inum, ms => do
    let ms ← BFILE.reset xp inum ms
    pure (ms, .ok ())
  | .write inum off v, ms => do
    let ms ← BFILE.write xp inum off v ms
    pure (ms, .ok ())

inductive Event
  | begin
  | op (o : FileOp)
  | commit
  | abort
  | dwrite (inum off : Nat) (v : Valu)
  | datasync (inum : Nat)
  | sync

/-- The memory of the programs: inside a transaction also the caches from its start. -/
structure Session where
  ams : AFS.Memstate
  saved : Option Memstate

section Programs

variable (shouldFlushall : Bool) (xp : FsXparams)

def runEvent : Event → Session → FProg Session
  | .begin, x => do
    let ms ← LOG.begin xp.fsxpLog x.ams.msLL
    pure ⟨⟨ms, x.ams.fms⟩, some x.ams.fms⟩
  | .op o, x => do
    let (ms, fms, _) ← LOG.exec xp.fsxpLog (o.body xp x.ams.fms) x.ams.msLL
    pure ⟨⟨ms, fms⟩, x.saved⟩
  | .commit, x => do
    let (ms, ok) ← LOG.commit shouldFlushall xp.fsxpLog x.ams.msLL
    pure ⟨⟨ms, if ok = true then x.ams.fms else x.saved.getD x.ams.fms⟩, none⟩
  | .abort, x => do
    let ms ← LOG.abort xp.fsxpLog x.ams.msLL
    pure ⟨⟨ms, x.saved.getD x.ams.fms⟩, none⟩
  | .dwrite inum off v, x => do
    let ms ← LOG.begin xp.fsxpLog x.ams.msLL
    let ams ← dwrite xp inum off v ⟨ms, x.ams.fms⟩
    let ms ← LOG.commitRo xp.fsxpLog ams.msLL
    pure ⟨⟨ms, ams.fms⟩, x.saved⟩
  | .datasync inum, x => do
    let ms ← LOG.begin xp.fsxpLog x.ams.msLL
    let ams ← datasync xp inum ⟨ms, x.ams.fms⟩
    let ms ← LOG.commitRo xp.fsxpLog ams.msLL
    pure ⟨⟨ms, ams.fms⟩, x.saved⟩
  | .sync, x => do
    let ams ← sync xp x.ams
    pure ⟨ams, x.saved⟩

def runEvents : List Event → Session → FProg Session
  | [], x => pure x
  | e :: es, x => do
    let x ← runEvent shouldFlushall xp e x
    runEvents es x

end Programs

/-! ## The abstract machine -/

structure Files where
  log : LogState
  mem : Memstate
  saved : Option Memstate

section Machine

variable (shouldFlushall : Bool) (xp : FsXparams)

def step (x : Files) : Event → Files
  | .begin => { x with saved := some x.mem }
  | .op o =>
    let r := x.log.exec (o.body xp x.mem)
    { x with log := r.2, mem := r.1.1 }
  | .commit =>
    ⟨x.log.commit shouldFlushall xp.fsxpLog,
      if x.log.cur.toList.length ≤ xp.fsxpLog.logLen then x.mem else x.saved.getD x.mem, none⟩
  | .abort => ⟨setCur x.log vmap0, x.saved.getD x.mem, none⟩
  | .dwrite inum off v =>
    let r := x.log.exec (INODE.getbnum xp.fsxpInode inum off x.mem.msICache)
    { x with
      log := setCur (r.2.step shouldFlushall xp.fsxpLog (.dwrite r.1.2.toNat v)) vmap0
      mem := { x.mem with msICache := r.1.1, msDBlocks := putDirty inum r.1.2.toNat x.mem.msDBlocks } }
  | .datasync inum =>
    { x with
      log := setCur (x.log.step shouldFlushall xp.fsxpLog (.dsyncVecs (getDirty inum x.mem.msDBlocks).toList)) vmap0
      mem := { x.mem with msDBlocks := clearDirty inum x.mem.msDBlocks } }
  | .sync => { x with log := x.log.flush, mem := { x.mem with msAlloc := !x.mem.msAlloc } }

def run (x : Files) (es : List Event) : Files := es.foldl (step shouldFlushall xp) x

end Machine

/-- The operation is on an inode of the file system, and inside the file. -/
def FileOp.Legal (xp : FsXparams) (d : LDisk) : FileOp → Prop
  | .grow inum _ | .shrink inum _ | .truncate inum _ | .reset inum => inum < xp.nInodes
  | .write inum off _ => inum < xp.nInodes ∧ off < (file xp d inum).data.length

/-- Transactions are not nested, and direct writes and syncs are between them. -/
def Event.Legal (xp : FsXparams) (x : Files) : Event → Prop
  | .begin | .sync => x.saved = none
  | .op o => x.saved ≠ none ∧ o.Legal xp (ldisk x.log.view)
  | .commit | .abort => x.saved ≠ none
  | .dwrite inum off _ => x.saved = none ∧ inum < xp.nInodes ∧ off < (file xp (ldisk x.log.newest) inum).data.length
  | .datasync inum => x.saved = none ∧ inum < xp.nInodes

def LegalRun (shouldFlushall : Bool) (xp : FsXparams) : Files → List Event → Prop
  | _, [] => True
  | x, e :: es => e.Legal xp x ∧ LegalRun shouldFlushall xp (step shouldFlushall xp x e) es

/-! ## What an operation does -/

section Ops

variable {xp : FsXparams} {n inum : Nat} {ms ms' : Memstate} {d d' : LDisk} {extra : List Nat}

structure OpDone (xp : FsXparams) (ms : Memstate) (d : LDisk) (ms' : Memstate) (d' : LDisk) : Prop where
  brep : ∀ {extra : List Nat}, BRep xp d extra → ∃ extra', BRep xp d' extra'
  msrep : MsRep xp d' ms'
  alloc_eq : ms'.msAlloc = ms.msAlloc
  safe : Safe xp ms.msAlloc d d'
  clean : CleanBefore xp ms d ms' d'

theorem FileDone.opDone {f : File} (h : FileDone xp inum f ms d ms' d') : OpDone xp ms d ms' d' :=
  ⟨fun hb => ⟨_, h.brep hb⟩, h.msrep, h.alloc_eq, h.safe, h.clean⟩

theorem ResetDone.opDone (h : ResetDone xp inum ms d ms' d') : OpDone xp ms d ms' d' :=
  ⟨fun hb => ⟨_, h.brep hb⟩, h.msrep, h.alloc_eq, h.safe, h.clean⟩

theorem GrowFail.opDone (h : GrowFail xp inum ms d ms' d') (hxp : xp.Ok n) (hb : BRep xp d extra) (hi : inum < xp.nInodes) :
    OpDone xp ms d ms' d' where
  brep hb := by
    obtain ⟨lost, hlost⟩ := h.brep hxp hb hi
    exact ⟨_, hlost⟩
  msrep := h.msrep
  alloc_eq := h.alloc_eq
  safe := by
    refine ⟨fun a ha => ?_, fun i hi' off bn hbn => .inl ?_, fun i hi' bn hbn => .inl ?_⟩
    · rcases h.why with ⟨_, rfl⟩ | hnil
      · exact ha
      · rw [hnil] at ha
        exact absurd ha List.not_mem_nil
    · rwa [(h.used_eq hxp hb hi').1] at hbn
    · rwa [(h.used_eq hxp hb hi').2] at hbn
  clean := cleanBefore_of_eq (fun _ hi' => (h.used_eq hxp hb hi').1) h.dirty_eq

theorem opDone_refl (hm : MsRep xp d ms) : OpDone xp ms d ms d :=
  ⟨fun hb => ⟨_, hb⟩, hm, rfl, .refl _ _ _, cleanBefore_of_eq (fun _ _ => rfl) rfl⟩

theorem OpDone.trans {ms₁ : Memstate} {d₁ : LDisk} (h₁ : OpDone xp ms d ms₁ d₁) (h₂ : OpDone xp ms₁ d₁ ms' d') :
    OpDone xp ms d ms' d' where
  brep hb := by
    obtain ⟨extra', hb'⟩ := h₁.brep hb
    exact h₂.brep hb'
  msrep := h₂.msrep
  alloc_eq := h₂.alloc_eq.trans h₁.alloc_eq
  safe := h₁.safe.trans (h₁.alloc_eq ▸ h₂.safe)
  clean := h₁.clean.trans h₂.clean

theorem op_spec (hxp : xp.Ok n) (hb : BRep xp d extra) (hm : MsRep xp d ms) {o : FileOp} (ho : o.Legal xp d) :
    twp n (o.body xp ms) (fun r d' => OpDone xp ms d r.1 d') d := by
  cases o with
  | grow inum v =>
    refine twp_mono (fun ⟨ms', r⟩ d' ⟨hok, herr⟩ => ?_) _ (grow_spec hxp hb hm ho v)
    cases r with
    | ok _ => exact (hok rfl).toFileDone.opDone
    | error e => exact (herr e rfl).opDone hxp hb ho
  | shrink inum nr => exact twp_seq (shrink_spec hxp hb hm ho nr) fun _ _ h => h.toFileDone.opDone
  | truncate inum newsz =>
    refine twp_mono (fun ⟨ms', r⟩ d' h => ?_) _ (truncate_spec hxp hb hm ho newsz)
    cases r with
    | ok _ => exact (h.ok rfl).1.opDone
    | error e =>
      obtain ⟨_, ms₁, d₁, _, hdone, hfail⟩ := h.error e rfl
      exact hdone.opDone.trans (hfail.opDone hxp (hdone.brep hb) ho)
  | reset inum => exact twp_seq (reset_spec hxp hb hm ho) fun _ _ h => h.opDone
  | write inum off v => exact twp_seq (write_spec hxp hb hm ho.1 ho.2) fun _ _ h => h.1.opDone

/-- The caches after block `off` of a file is written directly. -/
theorem MsRep.dwrite (hxp : xp.Ok n) (hb : BRep xp d extra) (hm : MsRep xp d ms) (hi : inum < xp.nInodes) {bn : Nat}
    {ic : ICache} (hic : IcacheRep xp d ic) (hbn : bn ∈ blks xp d inum) (hw : DataOnly xp bn d d') :
    MsRep xp d' { ms with msICache := ic, msDBlocks := putDirty inum bn ms.msDBlocks } where
  alloc al := cacheRep_of_freeOf (hm.alloc al) (hw.freeOf_eq hxp al)
  ialloc := hm.ialloc.congr fun a ha => hw.ialloc_eq hxp ha
  icache := hic.congr_table fun a ha => hw.frame a fun h => hxp.not_inTable hw.lt (h ▸ ha)
  dirty i b hdirty := by
    rcases mem_getDirty_putDirty.1 hdirty with ⟨rfl, rfl⟩ | hold
    · refine ⟨hi, ?_⟩
      rwa [(hw.used_eq hxp hi).1]
    · obtain ⟨hi', hb'⟩ := hm.dirty i b hold
      refine ⟨hi', ?_⟩
      rwa [(hw.used_eq hxp hi').1]
  clean i hi' b hb' := by
    rw [(hw.used_eq hxp hi').1] at hb'
    by_cases hne : b = bn
    · subst hne
      obtain rfl := hb.used_disjoint hi' hi (List.mem_append_left _ hb') (List.mem_append_left _ hbn)
      exact .inr (mem_getDirty_putDirty.2 (.inl ⟨rfl, rfl⟩))
    · exact (hm.clean i hi' b hb').imp (hw.mono b hne) fun h => mem_getDirty_putDirty.2 (.inr h)

/-- The caches after the dirty blocks of a file are synced. -/
theorem MsRep.datasync (hm : MsRep xp d ms) (hs : Synced d d') (hplain : ∀ bn ∈ getDirty inum ms.msDBlocks, d'.plain bn) :
    MsRep xp d' { ms with msDBlocks := clearDirty inum ms.msDBlocks } where
  alloc al := cacheRep_of_freeOf (hm.alloc al) (hs.freeOf_eq al)
  ialloc := hm.ialloc.congr fun a _ => hs.val a
  icache := hm.icache.congr_table fun a _ => hs.val a
  dirty i b hdirty := by
    obtain ⟨hi', hb'⟩ := hm.dirty i b (mem_getDirty_clearDirty.1 hdirty).2
    refine ⟨hi', ?_⟩
    rwa [(hs.used_eq hi').1]
  clean i hi' b hb' := by
    rw [(hs.used_eq hi').1] at hb'
    rcases hm.clean i hi' b hb' with h | h
    · exact .inl (hs.mono b h)
    · by_cases hne : i = inum
      · subst hne
        exact .inl (hplain b h)
      · exact .inr (mem_getDirty_clearDirty.2 ⟨hne, h⟩)

/-- The caches after every block is synced. -/
theorem MsRep.synced (hm : MsRep xp d ms) (hs : Synced d d') (hplain : ∀ bn, d'.plain bn) : MsRep xp d' ms where
  alloc al := cacheRep_of_freeOf (hm.alloc al) (hs.freeOf_eq al)
  ialloc := hm.ialloc.congr fun a _ => hs.val a
  icache := hm.icache.congr_table fun a _ => hs.val a
  dirty i b hdirty := by
    obtain ⟨hi', hb'⟩ := hm.dirty i b hdirty
    refine ⟨hi', ?_⟩
    rwa [(hs.used_eq hi').1]
  clean _ _ b _ := .inl (hplain b)

end Ops

/-! ## The invariant -/

/-- No block of the disk is lost or shared, and the caches agree with it. -/
structure Good (xp : FsXparams) (d : LDisk) (ms : Memstate) : Prop where
  brep : ∃ extra, BRep xp d extra
  msrep : MsRep xp d ms

structure Inv (xp : FsXparams) (n : Nat) (x : Files) : Prop where
  data : ∀ a < n, x.log.base a ≠ none
  now : Good xp (ldisk x.log.view) x.mem
  idle : x.saved = none → x.log.cur = vmap0
  /-- The caches from the start of the transaction, and what it did. -/
  start : ∀ ms, x.saved = some ms → Good xp (ldisk x.log.newest) ms ∧
    OpDone xp ms (ldisk x.log.newest) x.mem (ldisk x.log.view)

section Step

variable {fl : Bool} {xp : FsXparams} {n : Nat} {x : Files}

theorem Inv.newest_ne_none (hv : Inv xp n x) {a : Nat} (ha : a < n) : x.log.newest a ≠ none :=
  (LogState.pending_newest x.log).ne_none (hv.data a ha)

theorem Inv.newest (hv : Inv xp n x) (hs : x.saved = none) : Good xp (ldisk x.log.newest) x.mem := by
  rw [← LogState.view_of_idle (hv.idle hs)]
  exact hv.now

/-- An operation changes the active transaction only. -/
theorem log_op (fl : Bool) (xp : FsXparams) (x : Files) (o : FileOp) : ∃ cur, (step fl xp x (.op o)).log = setCur x.log cur :=
  ⟨_, LogState.exec_setCur (o.body xp x.mem) x.log⟩

/-- An operation of the transaction. -/
theorem Inv.exec (hxp : xp.Ok n) (hv : Inv xp n x) {o : FileOp} (ho : o.Legal xp (ldisk x.log.view)) :
    twp n (o.body xp x.mem) (fun r d' => OpDone xp x.mem (ldisk x.log.view) r.1 d') (ldisk x.log.view) ∧
    OpDone xp x.mem (ldisk x.log.view) (x.log.exec (o.body xp x.mem)).1.1 (ldisk (x.log.exec (o.body xp x.mem)).2.view) := by
  obtain ⟨extra, hb⟩ := hv.now.brep
  have hw := op_spec hxp hb hv.now.msrep ho
  have hdone := twp_run hw
  rw [LogState.run_exec (fun a ha => hv.newest_ne_none ha) hw] at hdone
  exact ⟨hw, hdone⟩

/-- The block that a direct write finds. -/
theorem Inv.getbnum (hxp : xp.Ok n) (hv : Inv xp n x) {inum off : Nat} (hs : x.saved = none) (hi : inum < xp.nInodes)
    (hoff : off < (file xp (ldisk x.log.newest) inum).data.length) :
    twp n (INODE.getbnum xp.fsxpInode inum off x.mem.msICache) (fun r _ => IcacheRep xp (ldisk x.log.newest) r.1 ∧
      (blks xp (ldisk x.log.newest) inum)[off]? = some r.2.toNat ∧ r.2.toNat < xp.dataSize) (ldisk x.log.newest) := by
  obtain ⟨extra, hb⟩ := (hv.newest hs).brep
  rw [length_file_data] at hoff
  refine twp_mono (fun r _ ⟨_, hbn, hic⟩ => ⟨hic, hbn, ?_⟩) _
    (INODE.getbnum_spec hxp (hv.newest hs).msrep.icache (BRep.inodeRep hb hi) hoff)
  exact (hb.owned_pos (used_sub_owned hi (List.mem_append_left _ (List.mem_of_getElem? hbn)))).2

/-- What a direct write does: it writes the block at `off`, which is then dirty. -/
theorem step_dwrite (fl : Bool) (hxp : xp.Ok n) (hv : Inv xp n x) {inum off : Nat} (hs : x.saved = none)
    (hi : inum < xp.nInodes) (hoff : off < (file xp (ldisk x.log.newest) inum).data.length) (v : Valu) :
    ∃ ic bn, (blks xp (ldisk x.log.newest) inum)[off]? = some bn ∧ bn < xp.dataSize ∧
      IcacheRep xp (ldisk x.log.newest) ic ∧
      step fl xp x (.dwrite inum off v) = ⟨setCur (x.log.step fl xp.fsxpLog (.dwrite bn v)) vmap0,
        { x.mem with msICache := ic, msDBlocks := putDirty inum bn x.mem.msDBlocks }, none⟩ := by
  have hw := hv.getbnum hxp hs hi hoff
  rw [← LogState.view_of_idle (hv.idle hs)] at hw ⊢
  have hdone := twp_run hw
  rw [LogState.run_exec (fun a ha => hv.newest_ne_none ha) hw] at hdone
  obtain ⟨hic, hbn, hlt⟩ := hdone
  refine ⟨_, _, hbn, hlt, hic, ?_⟩
  rw [step, LogState.exec_setCur, hs]
  rfl

theorem dataOnly_updVs {extra : List Nat} {d : RawDisk Valu} {inum bn : Nat} (hb : BRep xp (ldisk d) extra) (hi : inum < xp.nInodes)
    (hbn : bn ∈ blks xp (ldisk d) inum) (v : Valu) : DataOnly xp bn (ldisk d) (ldisk (updVs d bn v)) where
  lt := (hb.owned_pos (used_sub_owned hi (List.mem_append_left _ hbn))).2
  notNode _ hj := hb.notNode hi hbn hj
  frame _ ha := ldisk_updVs_of_ne ha
  mono _ ha := (plain_updVs_of_ne ha).2

theorem synced_syncAddrs (d : RawDisk Valu) (l : List Nat) : Synced (ldisk d) (ldisk (syncAddrs d l)) :=
  ⟨fun _ => ldisk_syncAddrs l, fun _ h => plain_syncAddrs (.inr h)⟩

theorem newest_dwrite (fl : Bool) (lxp : LogXparams) (st : LogState) (a : Nat) (v : Valu) (c : Valumap) :
    (setCur (st.step fl lxp (.dwrite a v)) c).newest = updVs st.newest a v := @LogState.newest_dwrite st lxp fl a v

theorem newest_dsyncVecs (fl : Bool) (lxp : LogXparams) (st : LogState) (l : List Nat) (c : Valumap) :
    (setCur (st.step fl lxp (.dsyncVecs l)) c).newest = syncAddrs st.newest l := GLog.applyTxns_syncAddrs l st.txns

theorem pending_dwrite (fl : Bool) (lxp : LogXparams) (st : LogState) {a : Nat} {v : Valu} {c : Valumap} {d : RawDisk Valu}
    (hd : (setCur (st.step fl lxp (.dwrite a v)) c).Pending d) : ∃ d', st.Pending d' ∧ d = updVs d' a v :=
  @LogState.pending_dwrite st lxp fl a v d hd

theorem pending_dsyncVecs (fl : Bool) (lxp : LogXparams) (st : LogState) (c : Valumap) (l : List Nat) (d : RawDisk Valu) :
    (setCur (st.step fl lxp (.dsyncVecs l)) c).Pending d ↔ ∃ d', st.Pending d' ∧ d = syncAddrs d' l := by
  constructor
  · rintro ⟨ts, hsuf, rfl⟩
    exact ⟨GLog.applyTxns ts st.base, ⟨ts, hsuf, rfl⟩, GLog.applyTxns_syncAddrs l ts⟩
  · rintro ⟨_, ⟨ts, hsuf, rfl⟩, rfl⟩
    exact ⟨ts, hsuf, (GLog.applyTxns_syncAddrs l ts).symm⟩

/-- Between transactions the state is the newest disk with the caches. -/
theorem inv_idle {log : LogState} {mem : Memstate} (hdata : ∀ a < n, log.base a ≠ none) (hcur : log.cur = vmap0)
    (hgood : Good xp (ldisk log.newest) mem) : Inv xp n ⟨log, mem, none⟩ where
  data := hdata
  now := by
    rw [LogState.view_of_idle hcur]
    exact hgood
  idle _ := hcur
  start _ h := nomatch h

theorem Inv.commit (hv : Inv xp n x) (hs : x.saved ≠ none) : Inv xp n (step fl xp x .commit) := by
  obtain ⟨ms, hms⟩ := Option.ne_none_iff_exists'.1 hs
  have hset := LogState.settled_commit x.log x.log.cur fl xp.fsxpLog
  have hnew := hset.newest
  have hpend := hset.pending _ (LOG.pending_base _)
  rw [step, hms, Option.getD_some]
  refine inv_idle (fun a ha => ?_) hset.idle ?_
  · rcases hpend with hp | hp
    · exact hp.ne_none (hv.data a ha)
    · have hne := hv.newest_ne_none ha
      have hbase : (x.log.commit fl xp.fsxpLog).base = _ := hp
      rw [hbase]
      split
      · exact overlay_ne_none hne
      · exact hne
  · have hnew' : (x.log.commit fl xp.fsxpLog).newest = _ := hnew
    rw [hnew']
    split
    · exact hv.now
    · exact (hv.start ms hms).1

theorem Inv.dwrite (hxp : xp.Ok n) (hv : Inv xp n x) {inum off : Nat} (hs : x.saved = none) (hi : inum < xp.nInodes)
    (hoff : off < (file xp (ldisk x.log.newest) inum).data.length) (v : Valu) :
    Inv xp n (step fl xp x (.dwrite inum off v)) := by
  obtain ⟨ic, bn, hbn, hlt, hic, hstep⟩ := step_dwrite fl hxp hv hs hi hoff v
  obtain ⟨extra, hb⟩ := (hv.newest hs).brep
  have hmem := List.mem_of_getElem? hbn
  have hw := dataOnly_updVs hb hi hmem v
  rw [hstep]
  refine inv_idle (fun a ha => ?_) rfl ?_
  · have hne : (x.log.flushFor [bn]).base a ≠ none :=
      (LogState.pending_flushFor (LOG.pending_base _)).ne_none (hv.data a ha)
    show updVs (x.log.flushFor [bn]).base bn v a ≠ none
    by_cases hab : a = bn
    · subst hab
      rw [updVs, Function.update_self]
      simpa using hne
    · rwa [updVs_of_ne hab]
  · rw [newest_dwrite]
    exact ⟨⟨extra, hw.brep hxp hb⟩, (hv.newest hs).msrep.dwrite hxp hb hi hic hmem hw⟩

theorem step_datasync (fl : Bool) (hs : x.saved = none) (inum : Nat) : step fl xp x (.datasync inum) =
    ⟨setCur (x.log.step fl xp.fsxpLog (.dsyncVecs (getDirty inum x.mem.msDBlocks).toList)) vmap0,
      { x.mem with msDBlocks := clearDirty inum x.mem.msDBlocks }, none⟩ := by
  rw [step, hs]

theorem Inv.datasync (hv : Inv xp n x) (hs : x.saved = none) (inum : Nat) :
    Inv xp n (step fl xp x (.datasync inum)) := by
  obtain ⟨extra, hb⟩ := (hv.newest hs).brep
  rw [step_datasync fl hs]
  refine inv_idle (fun a ha => ?_) rfl ?_
  · have hne := hv.data a ha
    show syncAddrs x.log.base (getDirty inum x.mem.msDBlocks).toList a ≠ none
    rw [syncAddrs]
    split
    · simpa using hne
    · exact hne
  · have hsync := synced_syncAddrs x.log.newest (getDirty inum x.mem.msDBlocks).toList
    rw [newest_dsyncVecs]
    refine ⟨⟨extra, hsync.brep hb⟩, (hv.newest hs).msrep.datasync hsync fun bn hbn => plain_syncAddrs (.inl ?_)⟩
    exact Std.ExtTreeSet.mem_toList.2 hbn

theorem inv_step (hxp : xp.Ok n) (hv : Inv xp n x) {e : Event} (he : e.Legal xp x) : Inv xp n (step fl xp x e) := by
  cases e with
  | begin =>
    refine ⟨hv.data, hv.now, fun h => (nomatch h), fun ms hms => ?_⟩
    cases hms
    refine ⟨hv.newest he, ?_⟩
    show OpDone xp x.mem _ x.mem (ldisk x.log.view)
    rw [LogState.view_of_idle (hv.idle he)]
    exact opDone_refl (hv.newest he).msrep
  | op o =>
    obtain ⟨extra, hb⟩ := hv.now.brep
    obtain ⟨cur, hlog⟩ := log_op fl xp x o
    have hdone : OpDone xp x.mem (ldisk x.log.view) (step fl xp x (.op o)).mem (ldisk (step fl xp x (.op o)).log.view) :=
      (hv.exec hxp he.2).2
    have hnew : (setCur x.log cur).newest = x.log.newest := rfl
    refine ⟨fun a ha => ?_, ⟨hdone.brep hb, hdone.msrep⟩, fun h => absurd h he.1, fun ms hms => ?_⟩
    · rw [hlog]
      exact hv.data a ha
    · obtain ⟨hgood, hstart⟩ := hv.start ms hms
      refine ⟨?_, OpDone.trans ?_ hdone⟩
      · rwa [hlog, hnew]
      · rwa [hlog, hnew]
  | commit => exact hv.commit he
  | abort =>
    obtain ⟨ms, hms⟩ := Option.ne_none_iff_exists'.1 he
    rw [step, hms, Option.getD_some]
    exact inv_idle hv.data rfl (hv.start ms hms).1
  | dwrite inum off v => exact hv.dwrite hxp he.1 he.2.1 he.2.2 v
  | datasync inum => exact hv.datasync he.1 inum
  | sync =>
    have hstep : step fl xp x .sync = ⟨x.log.flush, { x.mem with msAlloc := !x.mem.msAlloc }, none⟩ := by
      have hs : x.saved = none := he
      rw [step, hs]
    have hgood := hv.newest he
    rw [hstep]
    exact inv_idle (fun a ha => hv.newest_ne_none ha) (hv.idle he)
      ⟨hgood.brep, hgood.msrep.alloc, hgood.msrep.ialloc, hgood.msrep.icache, hgood.msrep.dirty, hgood.msrep.clean⟩

/-- In every state of a run the caches agree with the disk. -/
theorem inv_run (hxp : xp.Ok n) {es : List Event} (hv : Inv xp n x) (hes : LegalRun fl xp x es) :
    Inv xp n (run fl xp x es) := by
  induction es generalizing x with
  | nil => exact hv
  | cons e es ih => exact ih (inv_step hxp hv hes.1) hes.2

end Step

/-! ## Refinement -/

/-- The memory and the disk are in the state `x`. -/
structure Runs (h : HashKey → HashVal) (xp : FsXparams) (n : Nat) (x : Files) (y : Session) (s : St Valu HashKey) : Prop where
  log : LRep h xp.fsxpLog n x.log y.ams.msLL s
  mem : y.ams.fms = x.mem
  saved : y.saved = x.saved

section Refinement

variable {h : HashKey → HashVal} {xp : FsXparams} {n : Nat} {x : Files} {y : Session} {s : St Valu HashKey}

theorem lrep_commitRo {st : LogState} {ms : LOG.Memstate} (hr : LRep h xp.fsxpLog n st ms s) :
    LRep h xp.fsxpLog n (setCur st vmap0) ⟨vmap0, ms.msLL⟩ s := ⟨hr.low, rfl, mapIn_vmap0 n⟩

/-- The program of a direct write, in a transaction that has written nothing. -/
theorem dwrite_spec (hl : FsLayout xp n) (fl : Bool) (hv : Inv xp n x) {inum off : Nat} (hs : x.saved = none)
    (hi : inum < xp.nInodes) (hoff : off < (file xp (ldisk x.log.newest) inum).data.length) (v : Valu)
    {lms : LOG.Memstate} (hr : LRep h xp.fsxpLog n x.log lms s) :
    wp h (dwrite xp inum off v ⟨lms, x.mem⟩)
      (fun ams s' => ∃ st, LRep h xp.fsxpLog n st ams.msLL s' ∧
        setCur st vmap0 = (step fl xp x (.dwrite inum off v)).log ∧ ams.fms = (step fl xp x (.dwrite inum off v)).mem)
      (MCrash h xp.fsxpLog n fun d => x.log.Pending d ∨ (step fl xp x (.dwrite inum off v)).log.Pending d) s := by
  have hw := hv.getbnum hl.ok hs hi hoff
  rw [← LogState.view_of_idle (hv.idle hs)] at hw
  have hlt := twp_run hw
  rw [LogState.run_exec (fun a ha => hv.newest_ne_none ha) hw] at hlt
  refine wp_seq (LOG.exec_refines hl.log hr hw) (fun _ hc => hc.mono fun _ hd => .inl hd) fun ⟨ms, ic, bn⟩ s₁ ⟨hr₁, hres⟩ => ?_
  simp only at hres hr₁
  simp only [step, ← hres] at hlt ⊢
  refine wp_seq (LOG.dwrite_spec hl.log fl hr₁ (hl.ok.data_lt hlt.2.2) v) (fun _ hc => hc.mono fun d hd => ?_)
    fun ms' s₂ hr₂ => ⟨_, hr₂, rfl, rfl⟩
  refine hd.imp (fun hp => ?_) id
  rwa [LogState.exec_setCur] at hp

theorem datasync_spec (hl : FsLayout xp n) (fl : Bool) (hv : Inv xp n x) (inum : Nat) {lms : LOG.Memstate}
    (hr : LRep h xp.fsxpLog n x.log lms s) :
    wp h (datasync xp inum ⟨lms, x.mem⟩)
      (fun ams s' => ∃ st, LRep h xp.fsxpLog n st ams.msLL s' ∧ setCur st vmap0 = (step fl xp x (.datasync inum)).log ∧
        ams.fms = (step fl xp x (.datasync inum)).mem) (MCrash h xp.fsxpLog n x.log.Pending) s := by
  obtain ⟨extra, hb⟩ := hv.now.brep
  refine wp_seq (LOG.dsyncVecs_spec hl.log fl hr fun a ha => ?_) (fun _ hc => hc) fun ms' s' hr' => ⟨_, hr', rfl, rfl⟩
  obtain ⟨hi, hmem⟩ := hv.now.msrep.dirty inum a (Std.ExtTreeSet.mem_toList.1 ha)
  exact hl.ok.data_lt (hb.owned_pos (used_sub_owned hi (List.mem_append_left _ hmem))).2

theorem sync_spec (hl : FsLayout xp n) (fl : Bool) {lms : LOG.Memstate} (hr : LRep h xp.fsxpLog n x.log lms s) :
    wp h (sync xp ⟨lms, x.mem⟩)
      (fun ams s' => LRep h xp.fsxpLog n (step fl xp x .sync).log ams.msLL s' ∧ ams.fms = (step fl xp x .sync).mem)
      (MCrash h xp.fsxpLog n x.log.Pending) s :=
  wp_seq (LOG.flushall_spec hl.log hr) (fun _ hc => hc) fun _ _ hr' => ⟨hr', rfl⟩

/-- The program of an event does what the machine does, and a crash falls back to a pending disk from before or after. -/
theorem runEvent_spec (hl : FsLayout xp n) (fl : Bool) (hv : Inv xp n x) {e : Event} (he : e.Legal xp x)
    (hr : Runs h xp n x y s) :
    wp h (runEvent fl xp e y) (Runs h xp n (step fl xp x e))
      (MCrash h xp.fsxpLog n fun d => x.log.Pending d ∨ (step fl xp x e).log.Pending d) s := by
  obtain ⟨⟨lms, fms⟩, saved⟩ := y
  obtain ⟨hlog, rfl, rfl⟩ := hr
  cases e with
  | begin => exact ⟨hlog, rfl, rfl⟩
  | op o =>
    refine wp_seq (LOG.exec_refines hl.log hlog (hv.exec hl.ok he.2).1) (fun _ hc => hc.mono fun _ hd => .inl hd) ?_
    intro r s' ⟨hlog', hres⟩
    exact ⟨hlog', congrArg Prod.fst hres, rfl⟩
  | commit =>
    refine wp_seq (LOG.commit_spec hl.log fl hlog) (fun _ hc => hc) fun ⟨ms, ok⟩ s' ⟨hlog', hok⟩ => ⟨hlog', ?_, rfl⟩
    simp only at hok
    subst hok
    simp only [step, decide_eq_true_eq]
  | abort => exact ⟨lrep_commitRo hlog, rfl, rfl⟩
  | dwrite inum off v =>
    refine LOG.wp_begin (wp_seq (dwrite_spec hl fl hv he.1 he.2.1 he.2.2 v hlog) (fun _ hc => hc) ?_)
    intro ams s' ⟨st, hr', hst, hfms⟩
    refine ⟨?_, hfms, rfl⟩
    rw [← hst]
    exact lrep_commitRo hr'
  | datasync inum =>
    refine LOG.wp_begin (wp_seq (datasync_spec hl fl hv inum hlog) (fun _ hc => hc.mono fun _ hd => .inl hd) ?_)
    intro ams s' ⟨st, hr', hst, hfms⟩
    refine ⟨?_, hfms, rfl⟩
    rw [← hst]
    exact lrep_commitRo hr'
  | sync =>
    refine wp_seq (sync_spec hl fl hlog) (fun _ hc => hc.mono fun _ hd => .inl hd) fun ams s' ⟨hr', hfms⟩ => ?_
    exact ⟨hr', hfms, rfl⟩

/-- A run of the programs is a run of the machine. -/
theorem runEvents_spec (hl : FsLayout xp n) (fl : Bool) : ∀ {es : List Event} {x : Files} {y : Session} {s : St Valu HashKey},
    Inv xp n x → LegalRun fl xp x es → Runs h xp n x y s →
    wp h (runEvents fl xp es y) (Runs h xp n (run fl xp x es)) (fun _ => True) s
  | [], _, _, _, _, _, hr => hr
  | _ :: _, _, _, _, hv, ⟨he, hes⟩, hr => by
    refine wp_seq (runEvent_spec hl fl hv he hr) (fun _ _ => trivial) fun y' s' hr' => ?_
    exact runEvents_spec hl fl (inv_step hl.ok hv he) hes hr'

end Refinement

end BFILE

end Fscq
