import Fscq.Crash.Images
import Fscq.Fuse.WordArith
import Mathlib.Data.List.SplitBy

/-!
# Crash images of the Haskell server

On the disk file `/tmp/crashlog.img` the server logs its writes in groups between syncs (`hslib/Disk.hs`), and when it is
unmounted it makes files with the images that a crash could have left (`fscq.hs`). Every such file starts as a copy of
the disk file, which has by then all the writes in it: the images made are the crash images of a disk that held the final
contents from the start (`materializeCrashes_spec`). `crash_images_exact` says when these are the crash images of the
run.
-/

namespace Fscq

namespace HsDisk

open CrashLogic HsWord
open Fuse (Bytes)

/-! ## Files -/

/-- The blocks of a file; past the end they read as zeros. -/
abbrev File := Image Bytes

abbrev Files := String → Option File

/-- Actions of the server on the files; `none` is an exception. -/
abbrev Server := StateT Files Option

def emptyFile : File := fun _ => List.replicate 4096 0

/-- `openFd` for reading and writing, with a mode: the file is there afterwards. -/
def openFd (fn : String) : Server String := fun files =>
  some (fn, Function.update files fn (some ((files fn).getD emptyFile)))

/-- `fdSeek` to a block and `fdWriteBuf` of 4096 bytes; the offset is a 64-bit number. -/
def fdWriteBlock (fd : String) (a : Nat) (bs : Bytes) : Server Unit := fun files => do
  let offset := fromIntegral (4096 * a : Nat)
  guard (0 ≤ offset)
  let x ← files fd
  some ((), Function.update files fd (some (Function.update x (offset.toNat / 4096) (bs.take 4096))))

/-- `cp`; the exit code is not looked at. -/
def cp (src dst : String) : Server Unit := fun files =>
  match files src with
  | none => some ((), files)
  | some x => some ((), Function.update files dst (some x))

/-! ## The disk -/

structure DiskStats where
  reads : UInt64
  writes : UInt64
  syncs : UInt64

/-- The writes since the last flush, and the groups flushed before; the newest first. -/
structure FlushLog where
  writes : List (Nat × CoqWord)
  flushed : List (List (Nat × CoqWord))

structure DiskState where
  fd : String
  sr : DiskStats
  fl : Option FlushLog

def bumpWrite (sr : DiskStats) : DiskStats := { sr with writes := sr.writes + 1 }

def bumpSync (sr : DiskStats) : DiskStats := { sr with syncs := sr.syncs + 1 }

def logWrite (fl : Option FlushLog) (a : Nat) (v : CoqWord) : Option FlushLog :=
  fl.map fun ⟨writes, flushed⟩ => ⟨(a, v) :: writes, flushed⟩

def logFlush (fl : Option FlushLog) : Option FlushLog :=
  fl.map fun ⟨writes, flushed⟩ => ⟨[], writes :: flushed⟩

/-- The clause of `write_disk` for byte strings. -/
def writeBytes (s : DiskState) (a : Nat) (bs : Bytes) : Server DiskState := do
  fdWriteBlock s.fd a bs
  pure { s with sr := bumpWrite s.sr, fl := logWrite s.fl a (.WBS bs) }

def writeDisk (s : DiskState) (a : Nat) : CoqWord → Server DiskState
  | .W64 _ => failure
  | .W w => do
    let bs ← (i2bs w 4096 : Option Bytes)
    writeBytes s a bs
  | .WBS bs => writeBytes s a bs

def syncDisk (s : DiskState) : Server DiskState := pure { s with sr := bumpSync s.sr, fl := logFlush s.fl }

def initDisk (diskFn : String) : Server DiskState := do
  let fd ← openFd diskFn
  pure ⟨fd, ⟨0, 0, 0⟩, none⟩

def initDiskCrashlog (diskFn : String) : Server DiskState := do
  let fd ← openFd diskFn
  pure ⟨fd, ⟨0, 0, 0⟩, some ⟨[], []⟩⟩

def closeDisk (s : DiskState) : DiskStats := s.sr

def getFlushLog (s : DiskState) : List (List (Nat × CoqWord)) :=
  match s.fl with
  | none => []
  | some ⟨writes, flushes⟩ => writes :: flushes

/-! ## Making the images -/

def applyFlushgroup (ds : DiskState) : List (Nat × CoqWord) → Server DiskState
  | [] => pure ds
  | (a, v) :: rest => do
    let ds ← applyFlushgroup ds rest
    writeDisk ds a v

def applyFlushgroups (ds : DiskState) : List (List (Nat × CoqWord)) → Server DiskState
  | [] => pure ds
  | flushgroup :: rest => do
    let ds ← applyFlushgroups ds rest
    applyFlushgroup ds flushgroup

def diskFile : String := "/tmp/crashlog.img"

/-- `printf "/tmp/crashlog-%06d.img"` -/
def crashlogFile (idx : Nat) : String :=
  "/tmp/crashlog-" ++ String.ofList ((Nat.toDigits 10 idx).leftpad 6 '0') ++ ".img"

/-- Returns the new value of `idxref`. -/
def materializeFlushgroups (idx : Nat) (groups : List (List (Nat × CoqWord))) : Server Nat := do
  cp diskFile (crashlogFile idx)
  let ds ← initDisk (crashlogFile idx)
  let _ ← applyFlushgroups ds groups
  pure (idx + 1)

section Subsets

variable {A : Type}

def writeSubsets' : List (List (Nat × A)) → List (List (Nat × A))
  | [] => [[]]
  | heads :: tails =>
    let tailsubsets := writeSubsets' tails
    tailsubsets ++ (tailsubsets.map fun ts => heads.map fun hd => hd :: ts).flatten

/-- `groupBy` puts neighbours with one address together. -/
def writeSubsets (writes : List (Nat × A)) : List (List (Nat × A)) :=
  writeSubsets' (writes.splitBy fun x y => x.1 == y.1)

end Subsets

def materializeCrashes (idx : Nat) : List (List (Nat × CoqWord)) → Server Nat
  | [] => materializeFlushgroups idx []
  | lastgroup :: othergroups => do
    let idx ← materializeCrashes idx othergroups
    (writeSubsets lastgroup).foldlM (fun idx lastsubset => materializeFlushgroups idx (lastsubset :: othergroups)) idx

/-- What programs do with the disk, reads aside. -/
inductive DiskCall : Type
  | writeDisk (a : Nat) (v : CoqWord)
  | syncDisk

def runCalls (ds : DiskState) : List DiskCall → Server DiskState
  | [] => pure ds
  | .writeDisk a v :: calls => do
    let ds ← writeDisk ds a v
    runCalls ds calls
  | .syncDisk :: calls => do
    let ds ← syncDisk ds
    runCalls ds calls

/-- `umount` are the calls of `AFS.umount`. Returns what is printed, and the number of images. -/
def fscqDestroy (umount : List DiskCall) (ds : DiskState) (diskFn : String) : Server (DiskStats × Nat) := do
  let ds ← runCalls ds umount
  let stats := closeDisk ds
  if diskFn = diskFile then
    let flushgroups := getFlushLog ds
    let idx ← materializeCrashes 0 flushgroups
    pure (stats, idx)
  else pure (stats, 0)

/-- A whole run of the server on the disk file that is logged. -/
def session (calls umount : List DiskCall) : Server (DiskStats × Nat) := do
  let ds ← initDiskCrashlog diskFile
  let ds ← runCalls ds calls
  fscqDestroy umount ds diskFile

/-! ## Names of the images -/

theorem toList_crashlogFile (idx : Nat) : (crashlogFile idx).toList =
    "/tmp/crashlog-".toList ++ (List.replicate (6 - (Nat.toDigits 10 idx).length) '0' ++ Nat.toDigits 10 idx) ++
      ".img".toList := by
  simp only [crashlogFile, String.toList_append, String.toList_ofList, List.leftpad]

theorem crashlogFile_inj {i j : Nat} (h : crashlogFile i = crashlogFile j) : i = j := by
  have hlist := congrArg String.toList h
  rw [toList_crashlogFile, toList_crashlogFile] at hlist
  have hdigits := congrArg (Nat.ofDigitChars 10 · 0) (List.append_cancel_left (List.append_cancel_right hlist))
  simpa only [Nat.ofDigitChars_append, Nat.ofDigitChars_replicate_zero, Nat.mul_zero, Nat.ofDigitChars_ten_toDigits]
    using hdigits

theorem crashlogFile_ne_diskFile (i : Nat) : crashlogFile i ≠ diskFile := by
  intro h
  have hlist := congrArg (fun s => s.toList[13]?) h
  simp [toList_crashlogFile, diskFile] at hlist

example : crashlogFile 7 = "/tmp/crashlog-000007.img" := by decide +kernel

/-! ## Writes -/

/-- The block that `write_disk` writes. -/
def block (v : CoqWord) : Bytes := (w2bs v 4096).getD []

def blocks (writes : List (Nat × CoqWord)) : List (Nat × Bytes) := writes.map fun p => (p.1, block p.2)

/-- A write on a disk file of at most 2^63 bytes. -/
structure WriteOk (p : Nat × CoqWord) : Prop where
  addr : p.1 < 2 ^ 51
  value : p.2.Valid valulen

def DiskCall.Ok : DiskCall → Prop
  | .writeDisk a v => WriteOk (a, v)
  | .syncDisk => True

def DiskCall.op : DiskCall → DiskOp Bytes
  | .writeDisk a v => .write a (block v)
  | .syncDisk => .sync

variable {α β : Type} {files files' : Files} {x : File}

/-- The result of an action is handed on, with the files. -/
theorem run_bind {m : Server α} {a : α} (h : m files = some (a, files')) (f : α → Server β) :
    (m >>= f) files = f a files' := by
  change (m files).bind (fun p => f p.1 p.2) = f a files'
  rw [h, Option.bind_some]

theorem fdWriteBlock_eq {fd : String} {a : Nat} (ha : a < 2 ^ 51) {bs : Bytes} (hbs : bs.length = 4096)
    (hf : files fd = some x) :
    fdWriteBlock fd a bs files = some ((), Function.update files fd (some (Function.update x a bs))) := by
  have hoff : fromIntegral (4096 * a : Nat) = (4096 * a : Nat) := fromIntegral_of_lt (by omega)
  have ha' : ((4096 * a : Nat) : Int).toNat / 4096 = a := by omega
  simp only [fdWriteBlock, hoff, hf, ha', List.take_of_length_le (Nat.le_of_eq hbs)]
  rfl

theorem WriteOk.w2bs {a : Nat} {v : CoqWord} (hok : WriteOk (a, v)) :
    w2bs v 4096 = some (block v) ∧ (block v).length = 4096 := by
  have h4096 : valulen = 8 * 4096 := rfl
  obtain ⟨b, hb, hlen, -⟩ := w2bs_spec (h4096 ▸ hok.value)
  have hb' : HsWord.w2bs v 4096 = some b := hb
  rw [block, hb', Option.getD_some]
  exact ⟨rfl, hlen⟩

theorem WriteOk.logged {a : Nat} {v : CoqWord} (hok : WriteOk (a, v)) : WriteOk (a, .WBS (block v)) :=
  ⟨hok.addr, by rw [CoqWord.Valid, hok.w2bs.2]; rfl⟩

theorem writeDisk_eq {s : DiskState} {a : Nat} {v : CoqWord} (hok : WriteOk (a, v)) (hf : files s.fd = some x) :
    writeDisk s a v files = some ({ s with sr := bumpWrite s.sr, fl := logWrite s.fl a (.WBS (block v)) },
      Function.update files s.fd (some (Function.update x a (block v)))) := by
  obtain ⟨hb, hlen⟩ := hok.w2bs
  have hwrite : writeBytes s a (block v) files =
      some ({ s with sr := bumpWrite s.sr, fl := logWrite s.fl a (.WBS (block v)) },
        Function.update files s.fd (some (Function.update x a (block v)))) := by
    rw [writeBytes, run_bind (fdWriteBlock_eq hok.addr hlen hf)]
    rfl
  cases v with
  | W64 w => exact absurd hok.value (by decide : ¬ valulen = 64)
  | W w =>
    have hlift : (liftM (i2bs w 4096) : Server Bytes) files = some (block (.W w), files) := by
      rw [show i2bs w 4096 = some (block (.W w)) from hb]
      rfl
    rw [writeDisk, run_bind hlift, hwrite]
  | WBS bs => exact hwrite

/-! ## A run -/

/-- The state of a disk after some groups of writes. -/
structure Logged (x : File) (gs : List (List (Nat × Bytes))) (s : DiskState) (files : Files) : Prop where
  fd : s.fd = diskFile
  file : files diskFile = some (x.apply gs.flatten)
  log : ∃ fl, s.fl = some fl ∧ (fl.writes :: fl.flushed).map blocks = gs ∧
    ∀ p ∈ (fl.writes :: fl.flushed).flatten, WriteOk p

namespace Logged

variable {gs : List (List (Nat × Bytes))} {s : DiskState}

theorem write {a : Nat} {v : CoqWord} (hl : Logged x gs s files) (hok : WriteOk (a, v)) :
    ∃ s' files', writeDisk s a v files = some (s', files') ∧ Logged x (DiskOp.record gs (.write a (block v))) s' files' ∧
      ∀ name, name ≠ diskFile → files' name = files name := by
  obtain ⟨hfd, hfile, fl, hfl, rfl, hall⟩ := hl
  refine ⟨_, _, writeDisk_eq hok (hfd ▸ hfile),
    ⟨hfd, ?_, ⟨(a, .WBS (block v)) :: fl.writes, fl.flushed⟩, ?_, rfl, ?_⟩, ?_⟩
  · rw [hfd, Function.update_self]
    rfl
  · rw [logWrite, hfl]
    rfl
  · intro p hp
    rcases List.mem_cons.1 hp with rfl | hp
    · exact hok.logged
    · exact hall p hp
  · intro name hname
    rw [hfd, Function.update_of_ne hname]

theorem sync (hl : Logged x gs s files) : ∃ s', syncDisk s files = some (s', files) ∧
    Logged x (DiskOp.record gs .sync) s' files := by
  obtain ⟨hfd, hfile, fl, hfl, rfl, hall⟩ := hl
  refine ⟨_, rfl, hfd, hfile, ⟨[], fl.writes :: fl.flushed⟩, ?_, rfl, hall⟩
  rw [logFlush, hfl]
  rfl

end Logged

theorem runCalls_spec : ∀ {calls : List DiskCall} {gs : List (List (Nat × Bytes))} {s : DiskState} {files : Files},
    (∀ c ∈ calls, c.Ok) → Logged x gs s files →
    ∃ s' files', runCalls s calls files = some (s', files') ∧
      Logged x ((calls.map DiskCall.op).foldl DiskOp.record gs) s' files' ∧
      ∀ name, name ≠ diskFile → files' name = files name
  | [], gs, s, files, _, hl => ⟨s, files, rfl, hl, fun _ _ => rfl⟩
  | .writeDisk a v :: calls, gs, s, files, hok, hl => by
    obtain ⟨s₁, files₁, hrun₁, hl₁, hf₁⟩ := hl.write (hok _ List.mem_cons_self : WriteOk (a, v))
    obtain ⟨s', files', hrun', hl', hf'⟩ := runCalls_spec (fun c hc => hok c (List.mem_cons_of_mem _ hc)) hl₁
    refine ⟨s', files', ?_, hl', fun name hname => (hf' name hname).trans (hf₁ name hname)⟩
    rw [runCalls, run_bind hrun₁, hrun']
  | .syncDisk :: calls, gs, s, files, hok, hl => by
    obtain ⟨s₁, hrun₁, hl₁⟩ := hl.sync
    obtain ⟨s', files', hrun', hl', hf'⟩ := runCalls_spec (fun c hc => hok c (List.mem_cons_of_mem _ hc)) hl₁
    refine ⟨s', files', ?_, hl', hf'⟩
    rw [runCalls, run_bind hrun₁, hrun']

/-! ## Subsets -/

section Subsets

variable {A : Type} {gs : List (List (Nat × A))} {s : List (Nat × A)}

theorem mem_writeSubsets'_cons {heads : List (Nat × A)} : s ∈ writeSubsets' (heads :: gs) ↔
    s ∈ writeSubsets' gs ∨ ∃ ts ∈ writeSubsets' gs, ∃ hd ∈ heads, s = hd :: ts := by
  simp [writeSubsets', List.mem_flatten, eq_comm]

theorem subset_of_mem_writeSubsets' : ∀ {gs : List (List (Nat × A))} {s : List (Nat × A)}, s ∈ writeSubsets' gs →
    s ⊆ gs.flatten
  | [], s, hs => by
    rw [List.mem_singleton.1 hs]
    exact List.nil_subset _
  | heads :: gs, s, hs => by
    rw [List.flatten_cons]
    rcases mem_writeSubsets'_cons.1 hs with hs | ⟨ts, hts, hd, hhd, rfl⟩
    · exact List.subset_append_of_subset_right _ (subset_of_mem_writeSubsets' hs)
    · exact List.cons_subset.2 ⟨List.mem_append_left _ hhd,
        List.subset_append_of_subset_right _ (subset_of_mem_writeSubsets' hts)⟩

/-- Of the groups of one address each, a subset takes a write with a property wherever there is one. -/
theorem exists_mem_writeSubsets' (P : Nat × A → Prop) : ∀ {gs : List (List (Nat × A))},
    (∀ g ∈ gs, ∀ p ∈ g, ∀ q ∈ g, p.1 = q.1) →
    ∃ s ∈ writeSubsets' gs, (∀ p ∈ s, P p) ∧ ∀ p ∈ gs.flatten, P p → ∃ q ∈ s, q.1 = p.1
  | [], _ => ⟨[], List.mem_singleton.2 rfl, fun _ hp => absurd hp List.not_mem_nil,
      fun _ hp _ => absurd hp List.not_mem_nil⟩
  | heads :: gs, haddr => by
    obtain ⟨ts, hts, hP, hall⟩ := exists_mem_writeSubsets' P fun g hg => haddr g (List.mem_cons_of_mem _ hg)
    by_cases hex : ∃ hd ∈ heads, P hd
    · obtain ⟨hd, hhd, hPhd⟩ := hex
      refine ⟨hd :: ts, mem_writeSubsets'_cons.2 (.inr ⟨ts, hts, hd, hhd, rfl⟩),
        List.forall_mem_cons.2 ⟨hPhd, hP⟩, fun p hp hPp => ?_⟩
      rcases List.mem_append.1 hp with hp | hp
      · exact ⟨hd, List.mem_cons_self, haddr heads List.mem_cons_self hd hhd p hp⟩
      · obtain ⟨q, hq, hqp⟩ := hall p hp hPp
        exact ⟨q, List.mem_cons_of_mem _ hq, hqp⟩
    · refine ⟨ts, mem_writeSubsets'_cons.2 (.inl hts), hP, fun p hp hPp => ?_⟩
      rcases List.mem_append.1 hp with hp | hp
      · exact absurd ⟨p, hp, hPp⟩ hex
      · exact hall p hp hPp

theorem addr_eq_of_mem_splitBy (writes : List (Nat × A)) {g : List (Nat × A)}
    (hg : g ∈ writes.splitBy fun x y => x.1 == y.1) :
    ∀ p ∈ g, ∀ q ∈ g, p.1 = q.1 := by
  have hchain : List.IsChain (fun x y : Nat × A => x.1 = y.1) g :=
    (List.isChain_of_mem_splitBy hg).imp fun x y hxy => beq_iff_eq.1 hxy
  have : Trans (fun x y : Nat × A => x.1 = y.1) (fun x y : Nat × A => x.1 = y.1) (fun x y : Nat × A => x.1 = y.1) :=
    ⟨fun hxy hyz => Eq.trans hxy hyz⟩
  have : Std.Symm fun x y : Nat × A => x.1 = y.1 := ⟨fun _ _ hxy => Eq.symm hxy⟩
  intro p hp q hq
  exact List.Pairwise.forall_of_forall (R := fun x y : Nat × A => x.1 = y.1) (fun _ _ => rfl) hchain.pairwise hp hq

end Subsets

theorem mem_blocks {writes : List (Nat × CoqWord)} {a : Nat} {bs : Bytes} :
    (a, bs) ∈ blocks writes ↔ ∃ v, (a, v) ∈ writes ∧ block v = bs := by
  simp [blocks]

/-- Writes to one address that are no neighbours may be taken together; the newest one is then what counts. -/
theorem writeSubsets_spec {writes : List (Nat × CoqWord)} {y : File} :
    (∃ s ∈ writeSubsets writes, x.apply (blocks s) = y) ↔ x.Mixed (blocks writes) y := by
  constructor
  · rintro ⟨s, hs, rfl⟩
    have hsub := subset_of_mem_writeSubsets' hs
    rw [List.flatten_splitBy] at hsub
    exact (Image.Mixed.all x (blocks s)).mono (List.map_subset _ hsub)
  · intro hm
    obtain ⟨s, hs, hP, hall⟩ := exists_mem_writeSubsets' (fun p => block p.2 = y p.1)
      fun _ => addr_eq_of_mem_splitBy writes
    rw [List.flatten_splitBy] at hall
    refine ⟨s, hs, Image.apply_of_agrees (fun p hp => ?_) fun a hno => (hm a).resolve_right fun hmem => ?_⟩
    · obtain ⟨q, hq, rfl⟩ := List.mem_map.1 hp
      exact (hP q hq).symm
    · obtain ⟨v, hv, hbv⟩ := mem_blocks.1 hmem
      obtain ⟨⟨b, w⟩, hq, rfl⟩ := hall _ hv hbv
      exact hno (block w) (mem_blocks.2 ⟨w, hq, rfl⟩)

/-! ## The images made -/

theorem applyFlushgroup_spec {ds : DiskState} (hf : files ds.fd = some x) : ∀ {writes : List (Nat × CoqWord)},
    (∀ p ∈ writes, WriteOk p) → ∃ ds', applyFlushgroup ds writes files =
      some (ds', Function.update files ds.fd (some (x.apply (blocks writes)))) ∧ ds'.fd = ds.fd
  | [], _ => ⟨ds, by rw [blocks, List.map_nil, Image.apply, ← hf, Function.update_eq_self]; rfl, rfl⟩
  | (a, v) :: rest, hok => by
    obtain ⟨ds', hrun, hfd⟩ := applyFlushgroup_spec hf fun p hp => hok p (List.mem_cons_of_mem _ hp)
    have hf' : Function.update files ds.fd (some (x.apply (blocks rest))) ds'.fd = some (x.apply (blocks rest)) := by
      rw [hfd, Function.update_self]
    have hwrite := writeDisk_eq (hok _ List.mem_cons_self) hf'
    rw [hfd, Function.update_idem] at hwrite
    exact ⟨_, (run_bind hrun _).trans hwrite, rfl⟩

theorem blocks_append (w w' : List (Nat × CoqWord)) : blocks (w ++ w') = blocks w ++ blocks w' := List.map_append

theorem blocks_flatten (groups : List (List (Nat × CoqWord))) : blocks groups.flatten = (groups.map blocks).flatten :=
  List.map_flatten

theorem applyFlushgroups_spec {ds : DiskState} (hf : files ds.fd = some x) : ∀ {groups : List (List (Nat × CoqWord))},
    (∀ p ∈ groups.flatten, WriteOk p) → ∃ ds', applyFlushgroups ds groups files =
      some (ds', Function.update files ds.fd (some (x.apply (blocks groups.flatten)))) ∧ ds'.fd = ds.fd
  | [], _ => ⟨ds, by rw [List.flatten_nil, blocks, List.map_nil, Image.apply, ← hf, Function.update_eq_self]; rfl, rfl⟩
  | flushgroup :: rest, hok => by
    obtain ⟨ds₁, hrun₁, hfd₁⟩ := applyFlushgroups_spec hf fun p hp => hok p (List.mem_append_right _ hp)
    have hf₁ : Function.update files ds.fd (some (x.apply (blocks rest.flatten))) ds₁.fd =
        some (x.apply (blocks rest.flatten)) := by
      rw [hfd₁, Function.update_self]
    have hgroup : ∀ p ∈ flushgroup, WriteOk p := fun p hp => hok p (List.mem_append_left _ hp)
    obtain ⟨ds', hrun', hfd'⟩ := applyFlushgroup_spec hf₁ hgroup
    refine ⟨ds', ?_, hfd'.trans hfd₁⟩
    rw [applyFlushgroups, run_bind hrun₁, hrun', hfd₁, Function.update_idem, List.flatten_cons, blocks_append,
      Image.apply_append]

/-- Images with the numbers `idx` up to `n` have been made, no other file has changed. -/
structure Made (idx n : Nat) (files files' : Files) (P : File → Prop) : Prop where
  le : idx ≤ n
  frame : ∀ name, (∀ i, idx ≤ i → i < n → name ≠ crashlogFile i) → files' name = files name
  image : ∀ y, (∃ i, idx ≤ i ∧ i < n ∧ files' (crashlogFile i) = some y) ↔ P y

namespace Made

variable {idx n m : Nat} {files₁ : Files} {P Q : File → Prop}

theorem nil (idx : Nat) (files : Files) : Made idx idx files files fun _ => False :=
  ⟨Nat.le_refl _, fun _ _ => rfl, fun _ => ⟨fun ⟨_, h₁, h₂, _⟩ => by omega, False.elim⟩⟩

theorem diskFile (h : Made idx n files files' P) : files' diskFile = files diskFile :=
  h.frame _ fun i _ _ => (crashlogFile_ne_diskFile i).symm

theorem trans (h₁ : Made idx m files files₁ P) (h₂ : Made m n files₁ files' Q) :
    Made idx n files files' fun y => P y ∨ Q y := by
  refine ⟨h₁.le.trans h₂.le, fun name hname => ?_, fun y => ?_⟩
  · rw [h₂.frame name fun i hi hn => hname i (h₁.le.trans hi) hn,
      h₁.frame name fun i hi hm => hname i hi (hm.trans_le h₂.le)]
  · have hkeep : ∀ i, i < m → files' (crashlogFile i) = files₁ (crashlogFile i) := fun i him =>
      h₂.frame _ fun j hj _ he => absurd (crashlogFile_inj he) (by omega)
    rw [← h₁.image y, ← h₂.image y]
    constructor
    · rintro ⟨i, hi, hn, hy⟩
      rcases Nat.lt_or_ge i m with him | him
      · exact .inl ⟨i, hi, him, hkeep i him ▸ hy⟩
      · exact .inr ⟨i, him, hn, hy⟩
    · rintro (⟨i, hi, him, hy⟩ | ⟨i, him, hn, hy⟩)
      · exact ⟨i, hi, him.trans_le h₂.le, (hkeep i him).symm ▸ hy⟩
      · exact ⟨i, h₁.le.trans him, hn, hy⟩

theorem congr (h : Made idx n files files' P) (hPQ : ∀ y, P y ↔ Q y) : Made idx n files files' Q :=
  ⟨h.le, h.frame, fun y => (h.image y).trans (hPQ y)⟩

end Made

/-- An image is a copy of the disk file with some groups applied to it. -/
theorem materializeFlushgroups_spec (idx : Nat) {groups : List (List (Nat × CoqWord))} (hf : files diskFile = some x)
    (hok : ∀ p ∈ groups.flatten, WriteOk p) :
    ∃ files', materializeFlushgroups idx groups files = some (idx + 1, files') ∧
      Made idx (idx + 1) files files' (x.apply (blocks groups.flatten) = ·) := by
  have hcp : cp diskFile (crashlogFile idx) files = some ((), Function.update files (crashlogFile idx) (some x)) := by
    rw [cp, hf]
  have hinit : initDisk (crashlogFile idx) (Function.update files (crashlogFile idx) (some x)) =
      some (⟨crashlogFile idx, ⟨0, 0, 0⟩, none⟩, Function.update files (crashlogFile idx) (some x)) := by
    have hopen : openFd (crashlogFile idx) (Function.update files (crashlogFile idx) (some x)) =
        some (crashlogFile idx, Function.update files (crashlogFile idx) (some x)) := by
      rw [openFd, Function.update_self, Function.update_idem, Option.getD_some]
    rw [initDisk, run_bind hopen]
    rfl
  have hf' : Function.update files (crashlogFile idx) (some x) (DiskState.mk (crashlogFile idx) ⟨0, 0, 0⟩ none).fd =
      some x := Function.update_self ..
  obtain ⟨ds', hrun, -⟩ := applyFlushgroups_spec hf' hok
  rw [Function.update_idem] at hrun
  have hdone : materializeFlushgroups idx groups files =
      some (idx + 1, Function.update files (crashlogFile idx) (some (x.apply (blocks groups.flatten)))) := by
    rw [materializeFlushgroups, run_bind hcp, run_bind hinit, run_bind hrun]
    rfl
  refine ⟨_, hdone, Nat.le_succ _, fun name hname => ?_, fun y => ?_⟩
  · exact Function.update_of_ne (hname idx (Nat.le_refl _) (Nat.lt_succ_self _)) _ _
  · constructor
    · rintro ⟨i, hi, hn, hy⟩
      obtain rfl : i = idx := by omega
      rw [Function.update_self] at hy
      exact Option.some.inj hy
    · rintro rfl
      exact ⟨idx, Nat.le_refl _, Nat.lt_succ_self _, Function.update_self ..⟩

theorem foldlM_materialize_spec (others : List (List (Nat × CoqWord))) (hothers : ∀ p ∈ others.flatten, WriteOk p) :
    ∀ {subsets : List (List (Nat × CoqWord))} {idx : Nat} {files : Files}, files diskFile = some x →
    (∀ s ∈ subsets, ∀ p ∈ s, WriteOk p) →
    ∃ n files', subsets.foldlM (fun idx lastsubset => materializeFlushgroups idx (lastsubset :: others)) idx files =
        some (n, files') ∧
      Made idx n files files' fun y => ∃ s ∈ subsets, (x.apply (blocks others.flatten)).apply (blocks s) = y
  | [], idx, files, _, _ => ⟨idx, files, rfl, (Made.nil idx files).congr fun y => by simp⟩
  | s :: subsets, idx, files, hf, hok => by
    have hflat : ∀ p ∈ (s :: others).flatten, WriteOk p := fun p hp => (List.mem_append.1 hp).elim
      (hok s List.mem_cons_self p) (hothers p)
    obtain ⟨files₁, hrun₁, hm₁⟩ := materializeFlushgroups_spec idx hf hflat
    obtain ⟨n, files', hrun', hm'⟩ := foldlM_materialize_spec others hothers (hm₁.diskFile.trans hf)
      fun t ht => hok t (List.mem_cons_of_mem _ ht)
    refine ⟨n, files', ?_, (hm₁.trans hm').congr fun y => ?_⟩
    · rw [List.foldlM_cons, run_bind hrun₁, hrun']
    · rw [List.flatten_cons, blocks_append, Image.apply_append, List.exists_mem_cons_iff]

/-- The images made are the crash images of a disk that had the contents of the disk file at the start. -/
theorem materializeCrashes_spec (idx : Nat) (hf : files diskFile = some x) : ∀ {groups : List (List (Nat × CoqWord))},
    (∀ p ∈ groups.flatten, WriteOk p) → ∃ n files', materializeCrashes idx groups files = some (n, files') ∧
      Made idx n files files' fun y => x = y ∨ Image.CrashImage x (groups.map blocks) y
  | [], hok => by
    obtain ⟨files', hrun, hm⟩ := materializeFlushgroups_spec idx hf hok
    exact ⟨_, files', hrun, hm.congr fun y => (or_iff_left Image.crashImage_nil).symm⟩
  | last :: others, hok => by
    have hothers : ∀ p ∈ others.flatten, WriteOk p := fun p hp => hok p (List.mem_append_right _ hp)
    obtain ⟨m, files₁, hrun₁, hm₁⟩ := materializeCrashes_spec idx hf hothers
    have hsubsets : ∀ s ∈ writeSubsets last, ∀ p ∈ s, WriteOk p := fun s hs p hp => by
      have hsub := subset_of_mem_writeSubsets' hs hp
      rw [List.flatten_splitBy] at hsub
      exact hok p (List.mem_append_left _ hsub)
    obtain ⟨n, files', hrun', hm'⟩ := foldlM_materialize_spec others hothers (hm₁.diskFile.trans hf) hsubsets
    refine ⟨n, files', ?_, (hm₁.trans hm').congr fun y => ?_⟩
    · rw [materializeCrashes, run_bind hrun₁, hrun']
    · rw [writeSubsets_spec, List.map_cons, Image.crashImage_cons, blocks_flatten]
      tauto

/-! ## A whole run -/

def initial (files : Files) : File := (files diskFile).getD emptyFile

def diskOps (calls : List DiskCall) : List (DiskOp Bytes) := calls.map DiskCall.op

/-- A file with the contents is one of the first `n` images. -/
def Images (files : Files) (n : Nat) (y : File) : Prop := ∃ i < n, files (crashlogFile i) = some y

/-- Every address has at the end the contents it had at the start, or both were written to it before the first sync. -/
def Restores (x : File) (ops : List (DiskOp Bytes)) : Prop :=
  x.Alike (x.apply (DiskOp.groups ops).flatten) (DiskOp.beforeSync ops).reverse

theorem session_spec {calls umount : List DiskCall} (hok : ∀ c ∈ calls ++ umount, c.Ok) (files : Files) :
    ∃ stats n files', session calls umount files = some ((stats, n), files') ∧
      ∀ y, Images files' n y ↔
        ((initial files).apply (DiskOp.groups (diskOps (calls ++ umount))).flatten).CrashImage
          (DiskOp.groups (diskOps (calls ++ umount))) y := by
  have hinit : initDiskCrashlog diskFile files = some (⟨diskFile, ⟨0, 0, 0⟩, some ⟨[], []⟩⟩,
      Function.update files diskFile (some (initial files))) := by
    have hopen : openFd diskFile files = some (diskFile, Function.update files diskFile (some (initial files))) := rfl
    rw [initDiskCrashlog, run_bind hopen]
    rfl
  have hl : Logged (initial files) [[]] ⟨diskFile, ⟨0, 0, 0⟩, some ⟨[], []⟩⟩
      (Function.update files diskFile (some (initial files))) :=
    ⟨rfl, Function.update_self .., ⟨[], []⟩, rfl, rfl, fun p hp => absurd hp List.not_mem_nil⟩
  obtain ⟨s₁, files₁, hrun₁, hl₁, -⟩ := runCalls_spec (fun c hc => hok c (List.mem_append_left _ hc)) hl
  obtain ⟨s₂, files₂, hrun₂, hl₂, -⟩ := runCalls_spec (fun c hc => hok c (List.mem_append_right _ hc)) hl₁
  rw [← List.foldl_append, ← List.map_append] at hl₂
  obtain ⟨-, hfile, fl, hfl, hgs, hall⟩ := hl₂
  have hgs' : (fl.writes :: fl.flushed).map blocks = DiskOp.groups (diskOps (calls ++ umount)) := hgs
  obtain ⟨n, files', hmat, hm⟩ := materializeCrashes_spec 0 hfile hall
  have hdestroy : fscqDestroy umount s₁ diskFile files₁ = some ((closeDisk s₂, n), files') := by
    rw [fscqDestroy, run_bind hrun₂, if_pos rfl, getFlushLog, hfl, run_bind hmat]
    rfl
  refine ⟨closeDisk s₂, n, files', ?_, fun y => ?_⟩
  · rw [session, run_bind hinit, run_bind hrun₁, hdestroy]
  · have himage := hm.image y
    rw [hgs'] at himage
    obtain ⟨newer, hnewer⟩ := DiskOp.groups_eq (diskOps (calls ++ umount))
    have hself := Image.crashImage_self ((initial files).apply (DiskOp.groups (diskOps (calls ++ umount))).flatten) newer
      (DiskOp.beforeSync (diskOps (calls ++ umount))).reverse
    rw [← hnewer] at hself
    refine Iff.trans ⟨fun ⟨i, hi, hy⟩ => himage.1 ⟨i, Nat.zero_le _, hi, hy⟩, fun h => ?_⟩
      (or_iff_right_of_imp fun he => he ▸ hself)
    obtain ⟨i, -, hi, hy⟩ := himage.2 h
    exact ⟨i, hi, hy⟩

/-- The images made are the crash images of a run that restores what it overwrites. Only in such runs are the images made
for each single sync right; a run for which all the images together are right writes the initial contents wherever it
writes. -/
theorem crash_images_exact {calls umount : List DiskCall} (hok : ∀ c ∈ calls ++ umount, c.Ok) (files : Files) :
    ∃ stats n files', session calls umount files = some ((stats, n), files') ∧
      let x := initial files
      let ops := diskOps (calls ++ umount)
      (Restores x ops → ∀ y, Images files' n y ↔ x.AfterCrash ops y) ∧
      (Restores x ops ↔ ∀ last others, (last :: others) <:+ DiskOp.groups ops → ∀ y,
        (x.apply others.flatten).Mixed last y ↔
          ((x.apply (DiskOp.groups ops).flatten).apply others.flatten).Mixed last y) ∧
      ((∀ y, Images files' n y ↔ x.AfterCrash ops y) → ∀ a bs, .write a bs ∈ ops → .write a (x a) ∈ ops) := by
  obtain ⟨stats, n, files', hrun, himages⟩ := session_spec hok files
  refine ⟨stats, n, files', hrun, ?_⟩
  intro x ops
  obtain ⟨newer, hnewer⟩ := DiskOp.groups_eq ops
  refine ⟨fun hres y => ?_, ?_, fun hall a bs hmem => ?_⟩
  · rw [himages, Image.afterCrash_iff]
    have halike := hres.crashImage newer (y := y)
    rw [← hnewer] at halike
    exact halike.symm
  · rw [Restores, Image.alike_iff newer, ← hnewer]
  · have hstart : x.AfterCrash ops x := by
      rw [Image.afterCrash_iff, hnewer]
      exact Image.crashImage_self _ _ _
    have hmade := (himages x).1 ((hall x).2 hstart)
    exact DiskOp.mem_groups.1 (hmade.mem (Image.apply_mem (DiskOp.mem_groups.2 hmem)))

/-- A block of equal bytes. -/
def fill (b : UInt8) : DiskCall := .writeDisk 0 (.WBS (List.replicate 4096 b))

theorem fills_ok (l : List UInt8) : ∀ c ∈ l.map fill ++ [.syncDisk], c.Ok := by
  intro c hc
  rcases List.mem_append.1 hc with hc | hc
  · obtain ⟨b, _, rfl⟩ := List.mem_map.1 hc
    exact ⟨Nat.two_pow_pos _, by rw [CoqWord.Valid, List.length_replicate]; rfl⟩
  · rw [List.mem_singleton.1 hc]
    trivial

/-- The first block of an empty file gets zeros, and then ones: it has other contents at the end, and both were written. -/
theorem crash_images_exact_small : ∃ stats n files',
    session ([0, 1].map fill) [.syncDisk] (fun _ => none) = some ((stats, n), files') ∧
      ∀ y, Images files' n y ↔
        emptyFile.AfterCrash [.write 0 (List.replicate 4096 0), .write 0 (List.replicate 4096 1), .sync] y := by
  obtain ⟨stats, n, files', hrun, himages, -⟩ := crash_images_exact (fills_ok [0, 1]) fun _ => none
  refine ⟨stats, n, files', hrun, himages fun a => ?_⟩
  by_cases ha : a = 0
  · subst ha
    exact .inr ⟨List.mem_cons_of_mem _ List.mem_cons_self, List.mem_cons_self⟩
  · left
    change emptyFile a = Function.update (Function.update emptyFile 0 _) 0 _ a
    rw [Function.update_of_ne ha, Function.update_of_ne ha]

/-- One block is written to an empty file: the crash that keeps nothing of it is not among the images. -/
theorem crash_image_missing : ¬ ∀ (calls umount : List DiskCall) (files : Files), (∀ c ∈ calls ++ umount, c.Ok) →
    ∀ stats n files', session calls umount files = some ((stats, n), files') →
      ∀ y, Images files' n y ↔ (initial files).AfterCrash (diskOps (calls ++ umount)) y := by
  intro hall
  obtain ⟨stats, n, files', hrun, himages⟩ := session_spec (fills_ok [1]) fun _ => none
  have hstart : Image.AfterCrash emptyFile [.write 0 (List.replicate 4096 1), .sync] emptyFile :=
    Image.afterCrash_iff.2 (Image.crashImage_self emptyFile [[]] [(0, List.replicate 4096 1)])
  have hmade := (himages emptyFile).1 ((hall _ _ _ (fills_ok [1]) _ _ _ hrun emptyFile).2 hstart)
  have hmem : (0, emptyFile 0) ∈ [(0, List.replicate 4096 (1 : UInt8))] := hmade.mem List.mem_cons_self
  have heq : emptyFile 0 = List.replicate 4096 1 := (Prod.mk.inj (List.mem_singleton.1 hmem)).2
  exact absurd (congrArg List.head? heq) (by decide)

end HsDisk

end Fscq
