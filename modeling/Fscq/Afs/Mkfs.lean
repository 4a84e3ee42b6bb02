import Fscq.Afs.Spec
import Fscq.Dir.Success
import Fscq.Fs.BFileReset
import Fscq.Log.Crash

/-!
# Formatting and mounting

Block 0 holds the layout (`SB`). `mkfs` writes it, formats the log and commits the transaction that makes the empty file
system (`mkfs_spec`). `recover` reads the layout back, recovers the log and starts with empty caches.
-/

namespace Fscq

open TxnLogic CrashLogic MLog LogReplay PaddedLog Bufcache LogState

/-! ## The superblock -/

namespace SB

def superblockType : Rec.Typ := .RecF [("data_start", .WordF 64), ("log_header", .WordF 64), ("log_descr", .WordF 64),
  ("log_descrlen", .WordF 64), ("log_data", .WordF 64), ("log_len", .WordF 64), ("ixstart", .WordF 64), ("ixlen", .WordF 64),
  ("bastart1", .WordF 64), ("banblocks1", .WordF 64), ("bastart2", .WordF 64), ("banblocks2", .WordF 64),
  ("iastart", .WordF 64), ("ianblocks", .WordF 64), ("root_inum", .WordF 64), ("maxblock", .WordF 64), ("magic", .WordF 64)]

def superblockPadded : Rec.Typ :=
  .RecF [("sb", superblockType), ("pad", .WordF (valulen - Rec.len superblockType))]

theorem superblock_padded_len : Rec.len superblockPadded = valulen := rfl

abbrev addr2w (a : Nat) : BitVec 64 := BitVec.ofNat 64 a

def pickleSuperblock (xp : FsXparams) : Rec.data superblockType :=
  (addr2w xp.fsxpLog.dataStart, addr2w xp.fsxpLog.logHeader, addr2w xp.fsxpLog.logDescriptor, addr2w xp.fsxpLog.logDescLen,
    addr2w xp.fsxpLog.logData, addr2w xp.fsxpLog.logLen, addr2w xp.fsxpInode.ixStart, addr2w xp.fsxpInode.ixLen,
    addr2w xp.fsxpBlockAlloc1.bmapStart, addr2w xp.fsxpBlockAlloc1.bmapNBlocks, addr2w xp.fsxpBlockAlloc2.bmapStart,
    addr2w xp.fsxpBlockAlloc2.bmapNBlocks, addr2w xp.fsxpInodeAlloc.bmapStart, addr2w xp.fsxpInodeAlloc.bmapNBlocks,
    addr2w xp.fsxpRootInum, addr2w xp.fsxpMaxBlock, addr2w xp.fsxpMagic, ())

def unpickleSuperblock (sb : Rec.data superblockType) : FsXparams :=
  let (dataStart, logHeader, logDescr, logDescrLen, logData, logLen, ixStart, ixLen, baStart1, baNBlocks1, baStart2, baNBlocks2,
      iaStart, iaNBlocks, rootInum, maxBlock, magic, ()) :=
    (sb : BitVec 64 × BitVec 64 × BitVec 64 × BitVec 64 × BitVec 64 × BitVec 64 × BitVec 64 × BitVec 64 × BitVec 64 ×
      BitVec 64 × BitVec 64 × BitVec 64 × BitVec 64 × BitVec 64 × BitVec 64 × BitVec 64 × BitVec 64 × Unit)
  ⟨⟨dataStart.toNat, logHeader.toNat, logDescr.toNat, logDescrLen.toNat, logData.toNat, logLen.toNat⟩,
    ⟨ixStart.toNat, ixLen.toNat⟩, ⟨baStart1.toNat, baNBlocks1.toNat⟩, ⟨baStart2.toNat, baNBlocks2.toNat⟩,
    ⟨iaStart.toNat, iaNBlocks.toNat⟩, rootInum.toNat, maxBlock.toNat, magic.toNat⟩

def vPickleSuperblock (xp : FsXparams) : Valu :=
  (Rec.toWord superblockPadded (pickleSuperblock xp, 0, ())).cast superblock_padded_len

def vUnpickleSuperblock (v : Valu) : FsXparams :=
  unpickleSuperblock (Rec.ofWord superblockPadded (v.cast superblock_padded_len.symm)).1

def load (cs : CacheSt) : FProg (CacheSt × FsXparams) := do
  let (cs, v) ← Bufcache.read 0 cs
  pure (cs, vUnpickleSuperblock v)

def init (xp : FsXparams) (cs : CacheSt) : FProg CacheSt := do
  let cs ← Bufcache.write 0 (vPickleSuperblock xp) cs
  let cs ← Bufcache.beginSync cs
  let cs ← Bufcache.sync 0 cs
  Bufcache.endSync cs

/-- All numbers fit in 64 bits. -/
structure GoodSize (xp : FsXparams) : Prop where
  log : xp.fsxpLog.dataStart < 2 ^ 64 ∧ xp.fsxpLog.logHeader < 2 ^ 64 ∧ xp.fsxpLog.logDescriptor < 2 ^ 64 ∧
    xp.fsxpLog.logDescLen < 2 ^ 64 ∧ xp.fsxpLog.logData < 2 ^ 64 ∧ xp.fsxpLog.logLen < 2 ^ 64
  inode : xp.fsxpInode.ixStart < 2 ^ 64 ∧ xp.fsxpInode.ixLen < 2 ^ 64
  balloc1 : xp.fsxpBlockAlloc1.bmapStart < 2 ^ 64 ∧ xp.fsxpBlockAlloc1.bmapNBlocks < 2 ^ 64
  balloc2 : xp.fsxpBlockAlloc2.bmapStart < 2 ^ 64 ∧ xp.fsxpBlockAlloc2.bmapNBlocks < 2 ^ 64
  ialloc : xp.fsxpInodeAlloc.bmapStart < 2 ^ 64 ∧ xp.fsxpInodeAlloc.bmapNBlocks < 2 ^ 64
  other : xp.fsxpRootInum < 2 ^ 64 ∧ xp.fsxpMaxBlock < 2 ^ 64 ∧ xp.fsxpMagic < 2 ^ 64

theorem unpickle_pickle {xp : FsXparams} (hg : GoodSize xp) : unpickleSuperblock (pickleSuperblock xp) = xp := by
  obtain ⟨⟨h₁, h₂, h₃, h₄, h₅, h₆⟩, ⟨h₇, h₈⟩, ⟨h₉, h₁₀⟩, ⟨h₁₁, h₁₂⟩, ⟨h₁₃, h₁₄⟩, h₁₅, h₁₆, h₁₇⟩ := hg
  simp only [unpickleSuperblock, pickleSuperblock, addr2w, toNat_ofNat_of_lt h₁, toNat_ofNat_of_lt h₂, toNat_ofNat_of_lt h₃,
    toNat_ofNat_of_lt h₄, toNat_ofNat_of_lt h₅, toNat_ofNat_of_lt h₆, toNat_ofNat_of_lt h₇, toNat_ofNat_of_lt h₈,
    toNat_ofNat_of_lt h₉, toNat_ofNat_of_lt h₁₀, toNat_ofNat_of_lt h₁₁, toNat_ofNat_of_lt h₁₂, toNat_ofNat_of_lt h₁₃,
    toNat_ofNat_of_lt h₁₄, toNat_ofNat_of_lt h₁₅, toNat_ofNat_of_lt h₁₆, toNat_ofNat_of_lt h₁₇]

theorem vUnpickle_vPickle {xp : FsXparams} (hg : GoodSize xp) : vUnpickleSuperblock (vPickleSuperblock xp) = xp := by
  have hwf : Rec.WellFormed superblockPadded (pickleSuperblock xp, 0, ()) := by
    simp only [Rec.WellFormed, Rec.RecWellFormed, superblockPadded, superblockType, and_self]
  have hrec := Rec.ofWord_toWord superblockPadded (pickleSuperblock xp, 0, ()) hwf
  rw [vUnpickleSuperblock, vPickleSuperblock, BitVec.cast_cast, BitVec.cast_eq]
  exact (congrArg (fun r : Rec.data superblockPadded => unpickleSuperblock r.1) hrec).trans (unpickle_pickle hg)

end SB

/-! ## Programs -/

namespace AFS

def mkfs (shouldFlushall : Bool) (cachesize dataBitmaps inodeBitmaps logDescrBlocks : Nat) :
    FProg (Except Errno (Memstate × FsXparams)) := do
  let xp := computeXparams dataBitmaps inodeBitmaps logDescrBlocks SB.magicNumber
  let cs ← Bufcache.init cachesize
  let cs ← SB.init xp cs
  let ms ← LOG.init xp.fsxpLog cs
  let ms ← LOG.begin xp.fsxpLog ms
  let (ms, r) ← LOG.exec xp.fsxpLog (mkfsBody xp) ms
  match r with
  | .error e => do
    let _ ← LOG.abort xp.fsxpLog ms
    pure (.error e)
  | .ok fms => do
    let (ms, ok) ← LOG.commit shouldFlushall xp.fsxpLog ms
    if ok = true then do
      let ms ← LOG.flushsync xp.fsxpLog ms
      pure (.ok (⟨ms, fms⟩, xp))
    else pure (.error .ELOGOVERFLOW)

def recover (cachesize : Nat) : FProg (Except Errno (Memstate × FsXparams)) := do
  let cs ← Bufcache.init cachesize
  let (cs, xp) ← SB.load cs
  if xp.fsxpMagic = SB.magicNumber then do
    let ms ← LOG.recover xp.fsxpLog cs
    pure (.ok (⟨ms, BFILE.msEmpty⟩, xp))
  else pure (.error .EINVAL)

/-! ## The layout -/

/-- The size of the physical disk that `mkfs` needs. -/
def rawSize (dataBitmaps inodeBitmaps logDescrBlocks : Nat) : Nat :=
  1 + diskSize dataBitmaps inodeBitmaps + 1 + logDescrBlocks + logDescrBlocks * DescSig.itemsPerVal

section Layout

variable {dataBitmaps inodeBitmaps logDescrBlocks : Nat}
  (hd : dataBitmaps ≠ 0) (hi : inodeBitmaps ≤ valulen * valulen)
  (hsize : rawSize dataBitmaps inodeBitmaps logDescrBlocks < 2 ^ 64)
include hsize

theorem diskSize_lt : diskSize dataBitmaps inodeBitmaps < 2 ^ 64 := by
  rw [rawSize] at hsize
  omega

theorem goodSize_computeXparams :
    SB.GoodSize (computeXparams dataBitmaps inodeBitmaps logDescrBlocks SB.magicNumber) := by
  simp only [rawSize, diskSize] at hsize
  constructor <;> simp only [computeXparams, SB.magicNumber] <;> omega

theorem layout_computeXparams :
    Layout (computeXparams dataBitmaps inodeBitmaps logDescrBlocks SB.magicNumber).fsxpLog (diskSize dataBitmaps inodeBitmaps) := by
  have hlt := diskSize_lt hsize
  simp only [rawSize, diskSize] at hsize
  refine ⟨⟨?_, ?_, ?_, ?_, ?_, ?_⟩, Nat.le_of_lt hlt, fun a ha => ?_⟩
  · exact Nat.mul_comm _ _
  all_goals simp only [computeXparams, InLog, diskSize] at *; omega

include hd hi

theorem fsLayout_computeXparams :
    FsLayout (computeXparams dataBitmaps inodeBitmaps logDescrBlocks SB.magicNumber) (diskSize dataBitmaps inodeBitmaps) :=
  ⟨layout_computeXparams hsize, computeXparams_ok logDescrBlocks SB.magicNumber hd (diskSize_lt hsize),
    nInodes_computeXparams logDescrBlocks SB.magicNumber hi⟩

end Layout

end AFS

/-! ## The empty file system -/

variable {h : HashKey → HashVal} {s : St Valu HashKey}

theorem SB.init_spec {xp : FsXparams} {cs : CacheSt} {D : RawDisk Valu} {vs : ValuSet Valu} {seen : List HashKey}
    (hr : CacheAt cs D seen s) (h0 : D 0 = some vs) :
    wp h (SB.init xp cs) (fun cs' s' => CacheAt cs' (Function.update D 0 (some (vPickleSuperblock xp, []))) seen s' ∧
      Clean cs' 0) (fun _ => True) s := by
  simp only [SB.init, beginSync, Prog.pure_eq, Prog.ret_bind]
  refine wp_seq (write_spec hr h0) (fun _ _ => trivial) fun cs₁ s₁ hr₁ => ?_
  refine wp_seq (writeback_spec 0 hr₁) (fun _ _ => trivial) fun cs₂ s₂ ⟨hr₂, hclean, _⟩ => ?_
  have hkeep : wp h (endSync cs₂) (fun cs' _ => Clean cs' 0) (fun _ => True) s₂ :=
    ⟨trivial, fun _ _ => by exact hclean⟩
  refine wp_and (wp_mono (fun _ _ hp => hp) (fun _ _ => trivial) _ (endSync_spec hr₂ fun b => ?_)) hkeep
  by_cases hb : b = 0
  · subst hb
    refine .inr ⟨hclean, ?_⟩
    rw [Function.update_self, updVs, Function.update_self, h0]
    rfl
  · rw [Function.update_of_ne hb, updVs_of_ne hb]
    exact .inl rfl

namespace AFS

section Mkfs

variable {cachesize dataBitmaps inodeBitmaps logDescrBlocks : Nat}

/-- `mkfs` before its commit. -/
def mkfsStart (cachesize : Nat) (xp : FsXparams) : FProg (LOG.Memstate × Except Errno BFILE.Memstate) := do
  let cs ← Bufcache.init cachesize
  let cs ← SB.init xp cs
  let ms ← LOG.init xp.fsxpLog cs
  let ms ← LOG.begin xp.fsxpLog ms
  LOG.exec xp.fsxpLog (mkfsBody xp) ms

/-- Its commit, and the flush. -/
def mkfsEnd (shouldFlushall : Bool) (xp : FsXparams) :
    LOG.Memstate × Except Errno BFILE.Memstate → FProg (Except Errno (Memstate × FsXparams))
  | (ms, .error e) => do
    let _ ← LOG.abort xp.fsxpLog ms
    pure (.error e)
  | (ms, .ok fms) => do
    let (ms, ok) ← LOG.commit shouldFlushall xp.fsxpLog ms
    if ok = true then do
      let ms ← LOG.flushsync xp.fsxpLog ms
      pure (.ok (⟨ms, fms⟩, xp))
    else pure (.error .ELOGOVERFLOW)

theorem mkfs_eq (fl : Bool) : mkfs fl cachesize dataBitmaps inodeBitmaps logDescrBlocks =
    mkfsStart cachesize (computeXparams dataBitmaps inodeBitmaps logDescrBlocks SB.magicNumber) >>=
      mkfsEnd fl (computeXparams dataBitmaps inodeBitmaps logDescrBlocks SB.magicNumber) := by
  simp only [mkfs, mkfsStart, Prog.bind_assoc]
  refine bind_congr fun cs => bind_congr fun cs₂ => bind_congr fun ms => bind_congr fun ms₁ => bind_congr fun x => ?_
  obtain ⟨ms₂, _ | _⟩ := x <;> rfl

/-- The image of an empty file system, not yet committed. -/
def Formatting (h : HashKey → HashVal) (xp : FsXparams) (n : Nat) (x : LOG.Memstate × Except Errno BFILE.Memstate)
    (s : St Valu HashKey) : Prop :=
  ∃ d cur fms, Plain d ∧ LOG.LRep h xp.fsxpLog n (LOG.setCur ⟨d, [], vmap0⟩ cur) x.1 s ∧ x.2 = .ok fms ∧ MkfsDone xp fms (ldisk (overlay cur d))

theorem mkfsStart_spec (hn : cachesize ≠ 0) (hd : dataBitmaps ≠ 0) (hi : inodeBitmaps ≠ 0)
    (hsize : rawSize dataBitmaps inodeBitmaps logDescrBlocks < 2 ^ 64)
    (hdisk : ∀ a < rawSize dataBitmaps inodeBitmaps logDescrBlocks, s.disk a ≠ none) :
    wp h (mkfsStart cachesize (computeXparams dataBitmaps inodeBitmaps logDescrBlocks SB.magicNumber))
      (Formatting h (computeXparams dataBitmaps inodeBitmaps logDescrBlocks SB.magicNumber) (diskSize dataBitmaps inodeBitmaps))
      (fun _ => True) s := by
  have hl := layout_computeXparams hsize
  have hxp := computeXparams_ok logDescrBlocks SB.magicNumber hd (diskSize_lt hsize)
  have hpos : 1 < (computeXparams dataBitmaps inodeBitmaps logDescrBlocks SB.magicNumber).nInodes := by
    rw [hxp.inodes]
    simp only [computeXparams, BmapAlloc.size, valulen]
    omega
  generalize hgen : computeXparams dataBitmaps inodeBitmaps logDescrBlocks SB.magicNumber = xp at hl hxp hpos
  rw [mkfsStart]
  have hraw : ∀ a, InLog xp.fsxpLog a ∨ a < xp.fsxpLog.dataStart + diskSize dataBitmaps inodeBitmaps →
      a < rawSize dataBitmaps inodeBitmaps logDescrBlocks := by
    rintro a (ha | ha)
    all_goals subst hgen; simp only [InLog, computeXparams, rawSize, diskSize] at *; omega
  have hsync : ∀ a < rawSize dataBitmaps inodeBitmaps logDescrBlocks, syncMem s.disk a ≠ none := fun a ha => by
    rw [syncMem]
    simpa using hdisk a ha
  refine wp_seq (Bufcache.init_spec hn s) (fun _ _ => trivial) fun cs s₁ hr₁ => ?_
  obtain ⟨vs, hvs⟩ := Option.ne_none_iff_exists'.mp (hsync 0 (by rw [rawSize]; omega))
  refine wp_seq (SB.init_spec hr₁ hvs) (fun _ _ => trivial) ?_
  rintro cs₂ s₂ ⟨hr₂, _⟩
  have hplain : Plain (dataOf xp.fsxpLog (diskSize dataBitmaps inodeBitmaps)
      (Function.update (syncMem s.disk) 0 (some (SB.vPickleSuperblock xp, [])))) := by
    have hdata := plain_dataOf_syncMem xp.fsxpLog (diskSize dataBitmaps inodeBitmaps) s.disk
    rw [← dataOf_congr (D := syncMem s.disk) fun a _ => ?_] at hdata
    · exact hdata
    · refine Function.update_of_ne ?_ _ _
      subst hgen
      simp only [computeXparams]
      omega
  have hupd : ∀ a < rawSize dataBitmaps inodeBitmaps logDescrBlocks,
      Function.update (syncMem s.disk) 0 (some (SB.vPickleSuperblock xp, [])) a ≠ none := fun a ha => by
    by_cases h0 : a = 0
    · subst h0
      rw [Function.update_self]
      exact Option.some_ne_none _
    · rw [Function.update_of_ne h0]
      exact hsync a ha
  refine wp_seq (LOG.init_spec hl hr₂.1 (fun a ha => hupd a (hraw a (.inl ha))) fun a ha => ?_) (fun _ hc => hc)
    fun ms s₃ hr₃ => ?_
  · rw [dataOf_lt ha]
    exact hupd _ (hraw _ (.inr (by omega)))
  refine LOG.wp_begin (wp_mono ?_ (fun _ _ => trivial) _
    (LOG.exec_idle hl hr₃ rfl (mkfsBody_spec hxp (by subst hgen; rfl) hpos)))
  rintro ⟨ms₄, r⟩ s₄ ⟨cur, hr₄, fms, hok, hdone⟩
  exact ⟨_, cur, fms, hplain, hr₄, hok, hdone⟩

/-- The only error is a log that is too small for the transaction. -/
theorem mkfs_done (hn : cachesize ≠ 0) (hd : dataBitmaps ≠ 0) (hi : inodeBitmaps ≠ 0)
    (hsize : rawSize dataBitmaps inodeBitmaps logDescrBlocks < 2 ^ 64) (fl : Bool)
    (hdisk : ∀ a < rawSize dataBitmaps inodeBitmaps logDescrBlocks, s.disk a ≠ none) :
    wp h (mkfs fl cachesize dataBitmaps inodeBitmaps logDescrBlocks) (fun r s' => (∀ e, r = .error e → e = .ELOGOVERFLOW ∧
        (computeXparams dataBitmaps inodeBitmaps logDescrBlocks SB.magicNumber).fsxpLog.logLen <
          diskSize dataBitmaps inodeBitmaps) ∧
      ∀ ams xp, r = .ok (ams, xp) → xp = computeXparams dataBitmaps inodeBitmaps logDescrBlocks SB.magicNumber ∧
        ∃ d, Plain d ∧ LOG.LRep h xp.fsxpLog (diskSize dataBitmaps inodeBitmaps) ⟨d, [], vmap0⟩ ams.msLL s' ∧
          MkfsDone xp ams.fms (ldisk d))
      (fun _ => True) s := by
  have hl := layout_computeXparams hsize
  rw [mkfs_eq]
  refine wp_seq (mkfsStart_spec hn hd hi hsize hdisk) (fun _ _ => trivial) ?_
  generalize computeXparams dataBitmaps inodeBitmaps logDescrBlocks SB.magicNumber = xp at hl ⊢
  rintro ⟨ms₄, r⟩ s₄ ⟨d, cur, fms, hplain, hr₄, hok, hdone⟩
  obtain rfl : r = .ok fms := hok
  refine wp_seq (LOG.commit_settles hl fl hr₄) (fun _ _ => trivial) ?_
  rintro ⟨ms₅, ok⟩ s₅ ⟨hfit, st', hr₅, hset⟩
  cases ok with
  | false =>
    refine ⟨fun e he => ?_, fun ams xp' he => by cases he⟩
    cases he
    have hlen : ¬ cur.toList.length ≤ xp.fsxpLog.logLen := of_decide_eq_false hfit.symm
    exact ⟨rfl, Nat.lt_of_lt_of_le (Nat.lt_of_not_le hlen) hr₄.txnIn.length_le⟩
  | true =>
    refine wp_seq (LOG.flushsync_spec hl hr₅) (fun _ _ => trivial) fun ms₆ s₆ hr₆ => ?_
    refine ⟨fun e he => (by cases he), fun ams xp' he => ?_⟩
    cases he
    have hflush : st'.flush = ⟨st'.newest, [], vmap0⟩ := by rw [LogState.flush, hset.idle]
    rw [hflush] at hr₆
    have hnew := hset.newest
    rw [if_pos rfl] at hnew
    refine ⟨rfl, st'.newest, ?_, hr₆, ?_⟩
    · rw [hnew, ← replayDisk_toList]
      exact Plain.replayDisk hplain
    · rw [hnew]
      exact hdone

theorem mkfs_spec (hn : cachesize ≠ 0) (hd : dataBitmaps ≠ 0) (hi : inodeBitmaps ≠ 0)
    (hsize : rawSize dataBitmaps inodeBitmaps logDescrBlocks < 2 ^ 64) (fl : Bool)
    (hdisk : ∀ a < rawSize dataBitmaps inodeBitmaps logDescrBlocks, s.disk a ≠ none) :
    wp h (mkfs fl cachesize dataBitmaps inodeBitmaps logDescrBlocks) (fun r s' => (∀ e, r = .error e → e = .ELOGOVERFLOW ∧
        (computeXparams dataBitmaps inodeBitmaps logDescrBlocks SB.magicNumber).fsxpLog.logLen <
          diskSize dataBitmaps inodeBitmaps) ∧
      ∀ ams xp, r = .ok (ams, xp) → xp = computeXparams dataBitmaps inodeBitmaps logDescrBlocks SB.magicNumber ∧
        ∃ d, Plain d ∧ Mounted h xp (diskSize dataBitmaps inodeBitmaps) ⟨d, [], vmap0⟩ (.dir 1 []) ams s')
      (fun _ => True) s := by
  refine wp_mono ?_ (fun _ _ => trivial) _ (mkfs_done hn hd hi hsize fl hdisk)
  rintro r s' ⟨herr, hok⟩
  refine ⟨herr, fun ams xp he => ?_⟩
  obtain ⟨hxp, d, hplain, hr, hdone⟩ := hok ams xp he
  exact ⟨hxp, d, hplain, hr, rfl, hdone.tree⟩

end Mkfs

/-! ## Mounting an image -/

/-- A physical disk with the image `d` in the data region. -/
def imageSt (xp : FsXparams) (n : Nat) (d : LDisk) : St Valu HashKey :=
  ⟨fun a => some (if xp.fsxpLog.dataStart ≤ a ∧ a < xp.fsxpLog.dataStart + n then d (a - xp.fsxpLog.dataStart) else 0, []), []⟩

theorem dataOf_imageSt (xp : FsXparams) (n : Nat) (d : LDisk) :
    dataOf xp.fsxpLog n (syncMem (imageSt xp n d).disk) = fun a => if a < n then some (d a, []) else none := by
  funext a
  by_cases ha : a < n
  · rw [dataOf_lt ha, if_pos ha, syncMem, imageSt]
    simp [ha]
  · rw [dataOf, if_neg ha, if_neg ha]

theorem plain_image {n : Nat} (d : LDisk) : Plain (fun a => if a < n then some (d a, []) else none) := by
  intro a vs hvs
  simp only at hvs
  split at hvs
  · cases hvs
    rfl
  · cases hvs

/-- A log over an image shows the image. -/
theorem ldisk_image {n : Nat} {d : LDisk} (hplain : ∀ a, d.plain a) (hout : ∀ a, n ≤ a → d a = 0) :
    ldisk (fun a => if a < n then some (d a, []) else none) = d := by
  refine Disk.ext (fun a => ?_) fun a => ?_
  · by_cases ha : a < n
    · simp [ldisk, ha]
    · simp [ldisk, ha, hout a (by omega)]
  · exact ⟨fun _ => hplain a, fun _ vs hvs => plain_image d a vs hvs⟩

theorem mounted_image {xp : FsXparams} {n cachesize : Nat} {d : LDisk} {fms : BFILE.Memstate} {T : FsTree}
    (hl : Layout xp.fsxpLog n) (hn : cachesize ≠ 0) (hplain : ∀ a, d.plain a) (hout : ∀ a, n ≤ a → d a = 0)
    (ht : TreeRep xp d fms T) {s' : St Valu HashKey} {ms : LOG.Memstate}
    (hrun : Exec h (imageSt xp n d) (LOG.formatLog xp.fsxpLog cachesize) (.finished s' ms)) :
    Mounted h xp n ⟨fun a => if a < n then some (d a, []) else none, [], vmap0⟩ T ⟨ms, fms⟩ s' := by
  have hformat := wp_exec hrun (LOG.formatLog_spec (h := h) hl hn (s := imageSt xp n d) (fun a _ => Option.some_ne_none _)
    fun a _ => Option.some_ne_none _)
  rw [Allowed, dataOf_imageSt] at hformat
  refine ⟨hformat, rfl, ?_⟩
  have hnew : ldisk (LogState.newest ⟨fun a => if a < n then some (d a, []) else none, [], vmap0⟩) = d := ldisk_image hplain hout
  rw [hnew]
  exact ht

/-- The smallest file system: one block for each bitmap, and a log of 256 descriptor blocks. -/
def smallFs : FsXparams := computeXparams 1 1 256 SB.magicNumber

theorem fsLayout_small : FsLayout smallFs (diskSize 1 1) := fsLayout_computeXparams (by decide) (by decide) (by decide)

theorem formatLog_smallFs (h : HashKey → HashVal) (d : LDisk) :
    ∃ s ms, Exec h (imageSt smallFs (diskSize 1 1) d) (LOG.formatLog smallFs.fsxpLog 10) (.finished s ms) := by
  have hprog : ∃ (v : HashVal → Valu) (ms : HashVal → LOG.Memstate), LOG.formatLog smallFs.fsxpLog 10 =
      .sync (.hash defaultKey fun x => .write 33796 (v x) (.sync (.ret (ms x)))) := ⟨_, _, rfl⟩
  obtain ⟨v, ms, hp⟩ := hprog
  rw [hp]
  exact ⟨_, _, .sync _ _ _ _ (.refl _) (.hash _ _ _ _ _ (fun _ hk => absurd hk List.not_mem_nil) (.refl _)
    (.write _ _ _ _ _ _ _ rfl (.refl _) (.sync _ _ _ _ (.refl _) (.ret _ _))))⟩

/-- The image that the transaction of `mkfs` makes of a disk of zeros. -/
def mkfsImage (xp : FsXparams) : LDisk := ((mkfsBody xp).run ⟨fun _ => 0, fun _ => True⟩).2

theorem mkfsImage_spec {xp : FsXparams} {n : Nat} (hxp : xp.Ok n) (hroot : xp.fsxpRootInum = 1) (hpos : 1 < xp.nInodes) :
    (∃ fms, MkfsDone xp fms (mkfsImage xp)) ∧ (∀ a, (mkfsImage xp).plain a) ∧
      ∀ a, n ≤ a → mkfsImage xp a = 0 := by
  have hbody := mkfsBody_spec (d := ⟨fun _ => 0, fun _ => True⟩) hxp hroot hpos
  obtain ⟨⟨fms, _, hdone⟩, hplain⟩ := twp_run (twp_plain hbody)
  exact ⟨⟨fms, hdone⟩, fun a => hplain a (.inl trivial), run_above hbody⟩

/-- An image with a tree can be mounted. -/
theorem mounted_treeImage {d : LDisk} {fms : BFILE.Memstate} {T : FsTree} (h : HashKey → HashVal) (ht : TreeRep smallFs d fms T)
    (hplain : ∀ a, d.plain a) (hout : ∀ a, diskSize 1 1 ≤ a → d a = 0) : ∃ st ams s,
      Mounted h smallFs (diskSize 1 1) st T ams s ∧ ams.fms = fms ∧ ldisk st.newest = d ∧ Plain st.base ∧ st.txns = [] := by
  obtain ⟨s, ms, hrun⟩ := formatLog_smallFs h d
  have hten : 10 ≠ 0 := by decide
  exact ⟨_, _, s, mounted_image fsLayout_small.log hten hplain hout ht hrun, rfl, ldisk_image hplain hout, plain_image _, rfl⟩

/-- What is left of the free blocks and inodes after `mkfs`. -/
theorem MkfsDone.room {xp : FsXparams} {fms : BFILE.Memstate} {d : LDisk} {k : Nat} (hd : MkfsDone xp fms d)
    (hblocks : xp.dataSize / 2 + k ≤ xp.dataSize) (hinodes : 2 < xp.nInodes) :
    k ≤ (freeOf xp d true).length ∧ BmapAlloc.freeList xp.fsxpInodeAlloc d ≠ [] := by
  constructor
  · have hsub : List.range' (xp.dataSize / 2) k ⊆ freeOf xp d true := by
      intro a ha
      rw [List.mem_range'_1] at ha
      exact hd.free a ha.1 (by omega)
    have hle := (List.subperm_of_subset List.nodup_range' hsub).length_le
    rwa [List.length_range'] at hle
  · obtain ⟨Z, hr, hrep⟩ := hd.tree.nodes
    -- the tree has the root only
    have hnone : Z 2 = none := by
      by_contra hne
      obtain ⟨c, hc⟩ := Option.ne_none_iff_exists'.1 hne
      obtain ⟨p, hp⟩ := hrep.surj hc
      cases p with
      | nil => cases hp
      | cons name p => cases hp
    exact List.ne_nil_of_mem ((hr.free 2 (by omega) hinodes).2 hnone)

/-- An image with one empty file in the root directory. -/
theorem fileImage_spec {xp : FsXparams} {n : Nat} {fms : BFILE.Memstate} {d : LDisk} {k : Nat} (hd : MkfsDone xp fms d)
    (hxp : xp.Ok n) (hino : xp.nInodes ≤ 2 ^ 64) (hblocks : xp.dataSize / 2 + (k + 1) ≤ xp.dataSize) (hinodes : 2 < xp.nInodes)
    {name : Sname} (hs : SDIR.isValidSname name = true) : twp n (DIRTREE.mkfile xp 1 name fms) (fun r d' => ∃ inum,
      r.2 = .ok inum ∧ TreeRep xp d' r.1 (.dir 1 [(name, .file inum dirfile0)]) ∧ r.1.msAlloc = true ∧
      k ≤ (freeOf xp d' true).length) d := by
  obtain ⟨hfree, hinode⟩ := hd.room hblocks hinodes
  have hne : freeOf xp d fms.msAlloc ≠ [] := fun h => by
    rw [hd.alloc_eq] at h
    rw [h] at hfree
    cases hfree
  have hroot : Dirtree.findSubtree [] (.dir 1 []) = some (.dir 1 [] : FsTree) := rfl
  obtain ⟨Z, hr, hrep⟩ := hd.tree.nodes
  have hz : Z 1 = some (.dir []) := (DIRTREE.holds_tree hrep).dir hroot
  have hempty : (file xp d 1).data = [] := by rw [hd.root]; rfl
  refine twp_mono (fun r d' ⟨hgraft, ⟨inum, hok⟩, htake⟩ => ?_) _ (twp_and (DIRTREE.mknode_tree hxp hd.tree hroot hino false name)
    (DIRTREE.mknode_ok hxp hr hz hempty hne hinode false hs))
  obtain ⟨_, _, hdone⟩ := hgraft inum hok
  rw [BFILE.TakesBlock, hd.alloc_eq] at htake
  exact ⟨inum, hok, hdone.rep, hdone.alloc_eq.trans hd.alloc_eq, by omega⟩

/-- What a transaction leaves of an image is an image. -/
theorem twp_image {n : Nat} {α : Type} {p : TBody α} {P : α → LDisk → Prop} {d : LDisk} (hp : twp n p P d)
    (hplain : ∀ a, d.plain a) (hout : ∀ a, n ≤ a → d a = 0) :
    ∃ r d', P r d' ∧ (∀ a, d'.plain a) ∧ ∀ a, n ≤ a → d' a = 0 := by
  obtain ⟨hres, hplain'⟩ := twp_run (twp_plain hp)
  exact ⟨_, _, hres, fun a => hplain' a (.inl (hplain a)), fun a ha => (run_above hp a ha).trans (hout a ha)⟩

/-! ### A file system with one file -/

/-- An image of the smallest file system with the file `a` in the root directory, and with `k` free blocks. -/
structure FileImage (i : Nat) (f : File) (k : Nat) (fms : BFILE.Memstate) (d : LDisk) : Prop where
  tree : TreeRep smallFs d fms (.dir 1 [([97], .file i f)])
  alloc : fms.msAlloc = true
  free : k ≤ (freeOf smallFs d true).length
  plain : ∀ a, d.plain a
  out : ∀ a, diskSize 1 1 ≤ a → d a = 0

theorem exists_fileImage {k : Nat} (hblocks : smallFs.dataSize / 2 + (k + 1) ≤ smallFs.dataSize) :
    ∃ i fms d, FileImage i dirfile0 k fms d := by
  have hpos : 1 < smallFs.nInodes := by decide
  have hinodes : 2 < smallFs.nInodes := by decide
  have hname : SDIR.isValidSname [97] = true := by decide
  have hl := fsLayout_small
  obtain ⟨⟨fms, hdone⟩, hplain, hout⟩ := mkfsImage_spec hl.ok rfl hpos
  generalize mkfsImage smallFs = d₀ at hdone hplain hout
  obtain ⟨r, d, ⟨i, _, ht, hal, hfree⟩, hplain', hout'⟩ :=
    twp_image (fileImage_spec hdone hl.ok hl.inodes hblocks hinodes hname) hplain hout
  exact ⟨i, _, d, ht, hal, hfree, hplain', hout'⟩

section FileImage

variable {i k : Nat} {l : List Valu} {attr : INODE.Iattr} {fms : BFILE.Memstate} {d : LDisk}

theorem FileImage.mounted {f : File} (hf : FileImage i f k fms d) (h : HashKey → HashVal) : ∃ st ams s,
    Mounted h smallFs (diskSize 1 1) st (.dir 1 [([97], .file i f)]) ams s ∧ ams.fms = fms ∧ ldisk st.newest = d ∧
      Plain st.base ∧ st.txns = [] :=
  mounted_treeImage h hf.tree hf.plain hf.out

theorem FileImage.addBlock (hf : FileImage i ⟨l, attr⟩ (k + 1) fms d) (hlen : l.length < INODE.NDirect) :
    ∃ fms' d', FileImage i ⟨l ++ [0], attr⟩ k fms' d' := by
  have hfree := hf.free
  have hne : freeOf smallFs d fms.msAlloc ≠ [] := by
    rw [hf.alloc]
    exact List.ne_nil_of_length_pos (by omega)
  obtain ⟨r, d', ⟨ht, hal, htake⟩, hplain, hout⟩ :=
    twp_image (DIRTREE.addBlock_tree (p := [[97]]) fsLayout_small.ok hf.tree rfl hlen hne) hf.plain hf.out
  rw [BFILE.TakesBlock, hf.alloc] at htake
  exact ⟨r.1, d', ht, hal.trans hf.alloc, by omega, hplain, hout⟩

theorem FileImage.setAttr (hf : FileImage i ⟨l, attr⟩ k fms d) (attr' : INODE.Iattr) :
    ∃ fms' d', FileImage i ⟨l, attr'⟩ 0 fms' d' := by
  obtain ⟨Z, hr, _⟩ := hf.tree.nodes
  obtain ⟨hi, hfile⟩ := DIRTREE.file_eq (p := [[97]]) hf.tree rfl
  have hset := BFILE.setattrs_spec fsLayout_small.ok hr.brep hr.msrep hi attr'
  rw [hfile] at hset
  obtain ⟨fms', d', hdone, hplain, hout⟩ := twp_image hset hf.plain hf.out
  have ht := DIRTREE.fileDone_tree (p := [[97]]) hf.tree rfl hdone
  exact ⟨fms', d', ht.rep, hdone.alloc_eq.trans hf.alloc, Nat.zero_le _, hplain, hout⟩

end FileImage

theorem mounted_file (h : HashKey → HashVal) : ∃ st ams s inum,
    Mounted h smallFs (diskSize 1 1) st (.dir 1 [([97], .file inum dirfile0)]) ams s ∧ ams.fms.msAlloc = true ∧
      freeOf smallFs (ldisk st.newest) true ≠ [] ∧ Plain st.base ∧ st.txns = [] := by
  have hblocks : smallFs.dataSize / 2 + (1 + 1) ≤ smallFs.dataSize := by decide
  obtain ⟨inum, fms, d, hf⟩ := exists_fileImage hblocks
  obtain ⟨st, ams, s, hm, hfms, hd, hst⟩ := hf.mounted h
  exact ⟨st, ams, s, inum, hm, by rw [hfms, hf.alloc], by rw [hd]; exact List.ne_nil_of_length_pos hf.free, hst⟩

theorem mounted_oneBlock (h : HashKey → HashVal) : ∃ st ams s i,
    Mounted h smallFs (diskSize 1 1) st (.dir 1 [([97], .file i ⟨[0], INODE.iattr0⟩)]) ams s := by
  have hblocks : smallFs.dataSize / 2 + (1 + 1) ≤ smallFs.dataSize := by decide
  obtain ⟨i, fms, d, hf⟩ := exists_fileImage hblocks
  obtain ⟨fms₁, d₁, hf₁⟩ := hf.addBlock (by decide)
  obtain ⟨st, ams, s, hm, _⟩ := hf₁.mounted h
  exact ⟨st, ams, s, i, hm⟩

/-- A file with two blocks and 5000 bytes. -/
def twoBlocks : File := ⟨[0, 0], INODE.iattrUpd INODE.iattr0 (.UBytes 5000)⟩

theorem mounted_twoBlocks (h : HashKey → HashVal) : ∃ st ams s i,
    Mounted h smallFs (diskSize 1 1) st (.dir 1 [([97], .file i twoBlocks)]) ams s ∧ Plain st.base ∧ st.txns = [] := by
  have hblocks : smallFs.dataSize / 2 + (2 + 1) ≤ smallFs.dataSize := by decide
  obtain ⟨i, fms, d, hf⟩ := exists_fileImage hblocks
  obtain ⟨fms₁, d₁, hf₁⟩ := hf.addBlock (by decide)
  obtain ⟨fms₂, d₂, hf₂⟩ := hf₁.addBlock (by decide)
  obtain ⟨fms₃, d₃, hf₃⟩ := hf₂.setAttr (INODE.iattrUpd INODE.iattr0 (.UBytes 5000))
  obtain ⟨st, ams, s, hm, _, _, hst⟩ := hf₃.mounted h
  exact ⟨st, ams, s, i, hm, hst⟩

end AFS

/-- The file of two blocks is truncated to nine, and reset. -/
theorem BFILE.truncate_reset_small : ∃ d ms i, file AFS.smallFs d i = AFS.twoBlocks ∧
    twp (AFS.diskSize 1 1) (truncate AFS.smallFs i 9 ms) (fun r d' =>
      (r.2 = .ok () → FileDone AFS.smallFs i ⟨resize (file AFS.smallFs d i).data 9, (file AFS.smallFs d i).attr⟩ ms d r.1 d' ∧
        Frees AFS.smallFs ms.msAlloc i 9 d d') ∧
      ∀ e, r.2 = .error e → BlockPtr.nBlocks < 9 ∨ freeOf AFS.smallFs d' ms.msAlloc = []) d ∧
    Agree (fun ms ms' _ => SameCaches ms ms') (reset' AFS.smallFs i ms) (reset AFS.smallFs i ms) d := by
  obtain ⟨st, ams, s, i, hm, _⟩ := AFS.mounted_twoBlocks fun _ => ⟨0, by decide⟩
  obtain ⟨Z, hr, _⟩ := hm.tree.nodes
  obtain ⟨hi, hfile⟩ := DIRTREE.file_eq (p := [[97]]) hm.tree rfl
  exact ⟨_, _, i, hfile, truncate_reset AFS.fsLayout_small.ok hr.brep hr.msrep hi 9⟩

end Fscq
