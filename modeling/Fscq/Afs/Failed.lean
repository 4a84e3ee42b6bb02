import Fscq.Afs.Finishes
import Fscq.Afs.Ftruncate

/-!
# Calls that fail

A call that fails should leave the file system as it was: no active transaction, and caches that agree with the disk from
before. Most calls return the memory state from before (`transact`). `mkdir` and `mksock` rebind it and return the caches of
the transaction that they abort, in which the new inode is not free any more; `fileSetSz` returns the log state of the
transaction that did not fit. `failed_call_iff` says for each call when the file system is mounted as before.
-/

namespace Fscq

open TxnLogic CrashLogic LogReplay INODE
open MLog (MCrash)
open BmapAlloc (freeList)
open BmapAllocCache (CacheRep)
open LogState (settled_refl view_of_idle)
open Dirtree (findSubtree)
open BFILE (Memstate MsRep)

/-! ## The inode that an aborted call took -/

theorem NodeRep.setIalloc {xp : FsXparams} {d : LDisk} {ms : Memstate} {Z : FsNodes} (hr : NodeRep xp d ms Z)
    {c : BmapCacheType} (hc : CacheRep xp.fsxpInodeAlloc d c) : NodeRep xp d { ms with msIAllocC := c } Z :=
  ⟨hr.brep, ⟨hr.msrep.alloc, hc, hr.msrep.icache, hr.msrep.dirty, hr.msrep.clean⟩, hr.valid, hr.node, hr.free, hr.empty,
    hr.dcache, hr.cached⟩

/-- What the caches of an aborted call say about the disk from before. -/
structure Leftover (xp : FsXparams) (d : LDisk) (T : FsTree) (failed : Bool) (ms' : Memstate) : Prop where
  full : freeList xp.fsxpInodeAlloc d = [] → failed = true ∧ TreeRep xp d ms' T
  room : freeList xp.fsxpInodeAlloc d ≠ [] → ¬ CacheRep xp.fsxpInodeAlloc d ms'.msIAllocC

namespace DIRTREE

variable {xp : FsXparams} {n dnum : Nat} {d : LDisk} {ms : Memstate} {T : FsTree} {p : List Sname}
  {ents : List (Sname × FsTree)}

def failed {α : Type} : Except Errno α → Bool
  | .error _ => true
  | .ok _ => false

/-- An inode was taken from the free list. -/
theorem taken_not_cacheRep {bn : Nat} {l : List Nat} {d' : LDisk} (hmem : bn ∈ freeList xp.fsxpInodeAlloc d)
    (hperm : (freeList xp.fsxpInodeAlloc d).Perm (bn :: freeList xp.fsxpInodeAlloc d'))
    (hl : l.Perm (freeList xp.fsxpInodeAlloc d')) {c : BmapCacheType} (hc : c = some l) :
    ¬ CacheRep xp.fsxpInodeAlloc d c := fun hrep => by
  have hnd := hperm.nodup_iff.1 (BmapAlloc.nodup_freeList _ _)
  have hin : bn ∈ l := (hrep l hc).mem_iff.2 hmem
  exact (List.nodup_cons.1 hnd).1 (hl.mem_iff.1 hin)

theorem link_iallocC (hxp : xp.Ok n) {Z : FsNodes} (hr : NodeRep xp d ms Z) {es : List (Sname × (Nat × Bool))}
    (hi : Z dnum = some (.dir es)) {inum : Nat} (h0 : inum ≠ 0) (hlt : inum < 2 ^ 64) (name : Sname) (isdir : Bool) :
    twp n (CacheOneDir.link xp dnum name inum isdir ms) (fun r _ => r.1.msIAllocC = ms.msIAllocC) d := by
  refine twp_mono (fun r d' hlink => ?_) _
    (CacheOneDir.link_spec hxp hr.brep hr.msrep (hr.valid dnum _ hi).2 (hr.node dnum _ hi).1 (hr.dcache dnum) h0 hlt)
  cases hres : r.2 with
  | ok _ => exact (hlink.ok hres).2.1.iallocC_eq
  | error e =>
    obtain ⟨ms₁, hk, ⟨hr₁, _⟩ | hfail⟩ := hlink.error e hres
    · rw [hr₁]
      exact hk.iallocC_eq
    · exact hfail.iallocC_eq.trans hk.iallocC_eq

theorem mknode_leftover (hxp : xp.Ok n) (hino : xp.nInodes ≤ 2 ^ 64) (ht : TreeRep xp d ms T)
    (hp : findSubtree p T = some (.dir dnum ents)) (isdir : Bool) (name : Sname) :
    twp n (mknode xp dnum isdir name ms) (fun r _ => Leftover xp d T (failed r.2) r.1) d := by
  obtain ⟨Z, hr, hrep⟩ := ht.nodes
  have hz := (holds_tree hrep).dir hp
  refine twp_seq (twp_and (NodeRep.ialloc_spec hxp hr) (BmapAllocCache.alloc_spec hxp.iallocOk hr.msrep.ialloc))
    fun ⟨ialc, oi⟩ d₁ ⟨hnode, halloc⟩ => ?_
  rcases halloc with ⟨hnone, hd, hnil, hc⟩ | ⟨bn, l, hres, hmem, hperm, hl, _⟩
  · obtain rfl : oi = none := hnone
    subst hd
    exact ⟨fun _ => ⟨rfl, ⟨Z, hr.setIalloc hc, hrep⟩, ht.root⟩, fun h => absurd hnil h⟩
  · obtain ⟨rfl, rfl⟩ : ialc = some l ∧ oi = some bn := Prod.mk.inj hres
    obtain ⟨hzi, h0, hlt, _, hdone⟩ := hnode bn rfl
    have hrep₁ := (hdone _ (newKind_or isdir)).rep
    have hne : dnum ≠ bn := by
      rintro rfl
      rw [hzi] at hz
      cases hz
    have hz₁ : Function.update Z bn (some (newKind isdir)) dnum = some (.dir (ents.map Dirtree.entry)) := by
      rw [Function.update_of_ne hne]
      exact hz
    refine twp_seq (link_iallocC hxp hrep₁ hz₁ h0 (by omega) name isdir) fun ⟨ms', ok⟩ d' hkeep => ?_
    have hleft : ∀ b, Leftover xp d T b ms' := fun b =>
      ⟨fun h => absurd (h ▸ hmem) List.not_mem_nil, fun _ => taken_not_cacheRep hmem hperm hl hkeep⟩
    cases ok with
    | ok _ => exact hleft _
    | error e => exact hleft _

/-- A socket is a file with another type; setting the type takes no inode. -/
theorem mksock_leftover (hxp : xp.Ok n) (hino : xp.nInodes ≤ 2 ^ 64) (ht : TreeRep xp d ms T)
    (hp : findSubtree p T = some (.dir dnum ents)) (name : Sname) :
    twp n (do
        let (ms, oi) ← mkfile xp dnum name ms
        match oi with
        | .error e => pure (ms, .error e)
        | .ok inum => do
          let ms ← BFILE.updattr xp inum (.UType 1) ms
          pure (ms, .ok inum))
      (fun (r : Memstate × Except Errno Nat) _ => Leftover xp d T (failed r.2) r.1) d := by
  obtain ⟨Z, hr, hrep⟩ := ht.nodes
  have hz := (holds_tree hrep).dir hp
  refine twp_seq (twp_and (mknode_leftover hxp hino ht hp false name) (mknode_spec hxp hr hino hz false name))
    fun ⟨ms₁, oi⟩ d₁ ⟨hleft, hnode⟩ => ?_
  cases oi with
  | error e => exact hleft
  | ok inum =>
    obtain ⟨hzi, _, hdone⟩ := hnode inum rfl
    have hr₁ := (hdone _ (List.Perm.refl _)).rep
    have hne : inum ≠ dnum := by
      rintro rfl
      rw [hzi] at hz
      cases hz
    have hi : inum < xp.nInodes := by
      refine (hr₁.valid inum (newKind false) ?_).2
      rw [Function.update_of_ne hne, Function.update_self]
    refine twp_seq (BFILE.updattr_spec hxp hr₁.brep hr₁.msrep hi (.UType 1)) fun ms₂ d₂ hupd => ?_
    refine ⟨fun h => absurd (hleft.full h).1 Bool.false_ne_true, fun h => ?_⟩
    have hroom := hleft.room h
    rw [← hupd.iallocC_eq] at hroom
    exact hroom

end DIRTREE

namespace AFS

open LOG (LRep setCur)

variable {α : Type} {h : HashKey → HashVal} {xp : FsXparams} {n : Nat} {st : LogState} {ams ams' : Memstate}
  {s s' : St Valu HashKey} {T : FsTree}

/-- The file system is mounted as before: no transaction is active, and the caches agree with the same disk. -/
def Kept (h : HashKey → HashVal) (xp : FsXparams) (n : Nat) (st : LogState) (T : FsTree) (ams' : Memstate)
    (s' : St Valu HashKey) : Prop := ∃ st', st'.newest = st.newest ∧ Mounted h xp n st' T ams' s'

theorem Unchanged.kept (hu : Unchanged h xp n st ams ams' s') (hm : Mounted h xp n st T ams s) : Kept h xp n st T ams' s' := by
  obtain ⟨st', hset, hm'⟩ := hu.mounted hm
  exact ⟨st', hset.newest, hm'⟩

/-! ## The shapes of calls -/

/-- A call that keeps the caches from before. -/
theorem transact_kept (hl : FsLayout xp n) (fl : Bool) (hm : Mounted h xp n st T ams s)
    {body : BFILE.Memstate → TBody (BFILE.Memstate × Except Errno α)} {Q : BFILE.Memstate × Except Errno α → LDisk → Prop}
    (hbody : twp n (body ams.fms) Q (ldisk st.newest)) :
    wp h (transact fl xp body ams) (fun r s' => ∀ e, r.2 = .error e → Kept h xp n st T r.1 s') (fun _ => True) s := by
  have htrue : twp n (body ams.fms) (fun r _ => ∀ a, r.2 = .ok a → True) (ldisk st.newest) :=
    twp_mono (fun _ _ _ _ _ => trivial) _ hbody
  exact wp_mono (fun _ _ hp e he => (hp.1 e he).kept hm) (fun _ _ => trivial) _
    (transact_spec (P := fun _ _ _ => True) hl.log fl hm.log hm.idle htrue)

/-- A call that returns the caches of its body, also if it is aborted. -/
theorem transactRebind_kept (hl : FsLayout xp n) (fl : Bool) (hm : Mounted h xp n st T ams s)
    {body : BFILE.Memstate → TBody (BFILE.Memstate × Except Errno α)}
    (hbody : twp n (body ams.fms) (fun r _ => Leftover xp (ldisk st.newest) T (DIRTREE.failed r.2) r.1) (ldisk st.newest)) :
    wp h (transactRebind fl xp body ams) (fun r s' => ∀ e, r.2 = .error e →
      (Kept h xp n st T r.1 s' ↔ freeList xp.fsxpInodeAlloc (ldisk st.newest) = [])) (fun _ => True) s := by
  -- whether the caches are those of the disk from before, whatever became of the log
  have hiff : ∀ {b : Bool} {ms : LOG.Memstate} {fms : BFILE.Memstate} {s' : St Valu HashKey} {st' : LogState},
      LRep h xp.fsxpLog n st' ms s' → st.Settled st.newest st' → Leftover xp (ldisk st.newest) T b fms →
      (Kept h xp n st T ⟨ms, fms⟩ s' ↔ freeList xp.fsxpInodeAlloc (ldisk st.newest) = []) := by
    intro b ms fms s' st' hr hset hleft
    constructor
    · rintro ⟨st'', hnew, hm'⟩
      by_contra hne
      obtain ⟨_, hms⟩ := TreeRep.brep hm'.tree
      rw [hnew] at hms
      exact hleft.room hne hms.ialloc
    · intro hnil
      refine ⟨st', hset.newest, hr, hset.idle, ?_⟩
      rw [hset.newest]
      exact (hleft.full hnil).2
  refine LOG.wp_begin (wp_seq (LOG.exec_idle hl.log hm.log hm.idle hbody) (fun _ _ => trivial) fun ⟨ms, fms, r⟩ s₁ ⟨cur, hr₁, hleft⟩ => ?_)
  cases r with
  | error e => exact fun _ _ => hiff (hr₁.setIdle hm.idle) (settled_refl hm.idle) hleft
  | ok a =>
    refine wp_seq (LOG.commit_settles hl.log fl hr₁) (fun _ _ => trivial) fun ⟨ms', ok⟩ s₂ ⟨_, st', hr₂, hset⟩ => ?_
    cases ok with
    | true => exact fun e he => nomatch he
    | false => exact fun _ _ => hiff hr₂ hset hleft

/-- If the size does not fit in the log, the transaction is still there. -/
theorem fileSetSz_not_kept (hl : FsLayout xp n) (fl : Bool) (hm : Mounted h xp n st T ams s) {inum : Nat}
    (hi : inum < xp.nInodes) (sz : BitVec 64) :
    wp h (fileSetSz fl xp inum sz ams) (fun r s' => ∀ e, r.2 = .error e → ¬ Kept h xp n st T r.1 s') (fun _ => True) s := by
  obtain ⟨hb, hms⟩ := TreeRep.brep hm.tree
  refine LOG.wp_begin (wp_seq (LOG.exec_idle hl.log hm.log hm.idle (BFILE.updattr_spec hl.ok hb hms hi (.UBytes sz)))
    (fun _ _ => trivial) fun ⟨ms, fms⟩ s₁ ⟨cur, hr₁, _⟩ => ?_)
  refine wp_seq (LOG.commit_settles hl.log fl hr₁) (fun _ _ => trivial) fun ⟨ms', ok⟩ s₂ ⟨hok, _⟩ => ?_
  cases ok with
  | true => exact fun e he => nomatch he
  | false =>
    rintro e - ⟨st', _, hm'⟩
    have hlen : ¬ cur.toList.length ≤ xp.fsxpLog.logLen := of_decide_eq_false hok.symm
    have hcur : cur = vmap0 := hr₁.txn.symm.trans (hm'.log.txn.trans hm'.idle)
    rw [hcur] at hlen
    exact hlen (Nat.zero_le _)

/-! ## Every call -/

inductive Call
  | create (dnum : Nat) (name : Sname)
  | mksock (dnum : Nat) (name : Sname)
  | mkdir (dnum : Nat) (name : Sname)
  | delete (dnum : Nat) (name : Sname)
  | rename (dnum : Nat) (srcpath : List Sname) (srcname : Sname) (dstpath : List Sname) (dstname : Sname)
  | fileTruncate (inum sz : Nat)
  | ftruncate (inum sz : Nat)
  | fileSetAttr (inum : Nat) (attr : Iattr)
  | fileSetSz (inum : Nat) (sz : BitVec 64)

/-- The error that a call returns. -/
def errnoOf (p : FProg (Memstate × Except Errno α)) : FProg (Memstate × Option Errno) := do
  let (ams, r) ← p
  match r with
  | .error e => pure (ams, some e)
  | .ok _ => pure (ams, none)

def Call.run (fl : Bool) (xp : FsXparams) : Call → Memstate → FProg (Memstate × Option Errno)
  | .create dnum name, ams => errnoOf (AFS.create fl xp dnum name ams)
  | .mksock dnum name, ams => errnoOf (AFS.mksock fl xp dnum name ams)
  | .mkdir dnum name, ams => errnoOf (AFS.mkdir fl xp dnum name ams)
  | .delete dnum name, ams => errnoOf (AFS.delete fl xp dnum name ams)
  | .rename dnum srcpath srcname dstpath dstname, ams =>
    errnoOf (AFS.rename fl xp dnum srcpath srcname dstpath dstname ams)
  | .fileTruncate inum sz, ams => errnoOf (AFS.fileTruncate fl xp inum sz ams)
  | .ftruncate inum sz, ams => errnoOf (AFS.ftruncate fl xp inum sz ams)
  | .fileSetAttr inum attr, ams => errnoOf (AFS.fileSetAttr fl xp inum attr ams)
  | .fileSetSz inum sz, ams => errnoOf (AFS.fileSetSz fl xp inum sz ams)

/-- Names are looked up in a directory of the tree, and files have inodes. -/
def Call.Legal (xp : FsXparams) (T : FsTree) : Call → Prop
  | .create dnum _ | .mksock dnum _ | .mkdir dnum _ | .delete dnum _ | .rename dnum _ _ _ _ =>
    ∃ p ents, findSubtree p T = some (.dir dnum ents)
  | .fileTruncate inum _ | .ftruncate inum _ | .fileSetAttr inum _ | .fileSetSz inum _ => inum < xp.nInodes

/-- When a call that fails leaves the file system as it was: `mkdir` and `mksock` if no inode was free. -/
def Call.Keeps (xp : FsXparams) (d : LDisk) : Call → Prop
  | .mksock _ _ | .mkdir _ _ => freeList xp.fsxpInodeAlloc d = []
  | .fileSetSz _ _ => False
  | _ => True

theorem errnoOf_iff {p : FProg (Memstate × Except Errno α)} {K : Prop}
    (hp : wp h p (fun r s' => ∀ e, r.2 = .error e → (Kept h xp n st T r.1 s' ↔ K)) (fun _ => True) s) :
    wp h (errnoOf p) (fun r s' => ∀ e, r.2 = some e → (Kept h xp n st T r.1 s' ↔ K)) (fun _ => True) s := by
  refine wp_seq hp (fun _ _ => trivial) fun ⟨ams, r⟩ s₁ hr => ?_
  cases r with
  | error e => exact fun _ _ => hr e rfl
  | ok _ => exact fun e he => nomatch he

theorem errnoOf_kept {p : FProg (Memstate × Except Errno α)}
    (hp : wp h p (fun r s' => ∀ e, r.2 = .error e → Kept h xp n st T r.1 s') (fun _ => True) s) :
    wp h (errnoOf p) (fun r s' => ∀ e, r.2 = some e → (Kept h xp n st T r.1 s' ↔ True)) (fun _ => True) s :=
  errnoOf_iff (wp_mono (fun _ _ hk e he => iff_true_intro (hk e he)) (fun _ _ => trivial) _ hp)

theorem call_spec (hl : FsLayout xp n) (fl : Bool) (hm : Mounted h xp n st T ams s) {c : Call} (hc : c.Legal xp T) :
    wp h (c.run fl xp ams)
      (fun r s' => ∀ e, r.2 = some e → (Kept h xp n st T r.1 s' ↔ c.Keeps xp (ldisk st.newest))) (fun _ => True) s := by
  obtain ⟨hb, hms⟩ := TreeRep.brep hm.tree
  cases c with
  | create dnum name =>
    obtain ⟨p, ents, hp⟩ := hc
    exact errnoOf_kept (transact_kept hl fl hm (DIRTREE.mknode_tree hl.ok hm.tree hp hl.inodes false name))
  | mksock dnum name =>
    obtain ⟨p, ents, hp⟩ := hc
    exact errnoOf_iff (transactRebind_kept hl fl hm (DIRTREE.mksock_leftover hl.ok hl.inodes hm.tree hp name))
  | mkdir dnum name =>
    obtain ⟨p, ents, hp⟩ := hc
    exact errnoOf_iff (transactRebind_kept hl fl hm (DIRTREE.mknode_leftover hl.ok hl.inodes hm.tree hp true name))
  | delete dnum name =>
    obtain ⟨p, ents, hp⟩ := hc
    exact errnoOf_kept (transact_kept hl fl hm (DIRTREE.delete_tree hl.ok hm.tree hp name))
  | rename dnum srcpath srcname dstpath dstname =>
    obtain ⟨p, ents, hp⟩ := hc
    exact errnoOf_kept (transact_kept hl fl hm
      (DIRTREE.rename_tree hl.ok hl.inodes hm.tree hp srcpath srcname dstpath dstname))
  | fileTruncate inum sz => exact errnoOf_kept (transact_kept hl fl hm (BFILE.truncate_spec hl.ok hb hms hc sz))
  | ftruncate inum sz =>
    have hP : twp n (BFILE.truncate xp inum (divup sz valulen) ams.fms) (fun _ _ => True) (ldisk st.newest) :=
      twp_mono (fun _ _ _ => trivial) _ (BFILE.truncate_truncates hl.ok hb hms hc (divup sz valulen))
    exact errnoOf_kept (wp_mono (fun _ _ hr e he => ((hr.1 e he).1).kept hm) (fun _ _ => trivial) _
      (ftruncate_spec (P := fun _ => True) hl fl hm hc sz hP))
  | fileSetAttr inum attr =>
    have hbody : twp n (do
        let fms ← BFILE.setattrs xp inum attr ams.fms
        pure (fms, .ok ())) (fun (_ : BFILE.Memstate × Except Errno Unit) _ => True) (ldisk st.newest) :=
      twp_seq (BFILE.setattrs_spec hl.ok hb hms hc attr) fun _ _ _ => trivial
    exact errnoOf_kept (transact_kept hl fl hm hbody)
  | fileSetSz inum sz =>
    exact errnoOf_iff (wp_mono (fun _ _ hk e he => iff_false_intro (hk e he)) (fun _ _ => trivial) _
      (fileSetSz_not_kept hl fl hm hc sz))

/-- A call that returned an error left the file system mounted as before exactly when it `Keeps` it. -/
theorem failed_call_iff (hl : FsLayout xp n) {fl : Bool} (hm : Mounted h xp n st T ams s) {c : Call} (hc : c.Legal xp T)
    {e : Errno} (hrun : Exec h s (c.run fl xp ams) (.finished s' (ams', some e))) :
    Kept h xp n st T ams' s' ↔ c.Keeps xp (ldisk st.newest) := by
  have hspec : ∀ e', some e = some e' → _ := wp_exec hrun (call_spec hl fl hm hc)
  exact hspec e rfl

/-! ### A name that exists -/

theorem errnoOf_fails {p : FProg (Memstate × Except Errno α)}
    (hp : wp h p (fun r _ => ∃ e, r.2 = .error e) (fun _ => True) s) :
    wp h (errnoOf p) (fun r _ => ∃ e, r.2 = some e) (fun _ => True) s := by
  refine wp_seq hp (fun _ _ => trivial) fun ⟨ams, r⟩ s₁ ⟨e, hr⟩ => ?_
  obtain rfl : r = .error e := hr
  exact ⟨e, rfl⟩

section Fails

variable {body : BFILE.Memstate → TBody (BFILE.Memstate × Except Errno α)} (hl : FsLayout xp n)
  (hm : Mounted h xp n st T ams s) (hbody : twp n (body ams.fms) (fun r _ => ∃ e, r.2 = .error e) (ldisk st.newest))
include hl hm hbody

/-- A body that fails makes the call fail. -/
theorem transact_fails :
    wp h (errnoOf (transact false xp body ams)) (fun r _ => ∃ e, r.2 = some e) (fun _ => True) s := by
  refine errnoOf_fails (LOG.wp_begin (wp_seq (LOG.exec_idle hl.log hm.log hm.idle hbody) (fun _ _ => trivial)
    fun ⟨ms, fms, r⟩ s₁ ⟨cur, hr₁, e, he⟩ => ?_))
  obtain rfl : r = .error e := he
  exact ⟨e, rfl⟩

theorem transactRebind_fails :
    wp h (errnoOf (transactRebind false xp body ams)) (fun r _ => ∃ e, r.2 = some e) (fun _ => True) s := by
  refine errnoOf_fails (LOG.wp_begin (wp_seq (LOG.exec_idle hl.log hm.log hm.idle hbody) (fun _ _ => trivial)
    fun ⟨ms, fms, r⟩ s₁ ⟨cur, hr₁, e, he⟩ => ?_))
  obtain rfl : r = .error e := he
  exact ⟨e, rfl⟩

end Fails

theorem hashFree_errnoOf {p : FProg (Memstate × Except Errno α)} (hp : p.HashFree) : (errnoOf p).HashFree :=
  hp.bind fun ⟨_, r⟩ => by cases r <;> exact trivial

theorem hashFree_transactRebind (xp : FsXparams) (body : BFILE.Memstate → TBody (BFILE.Memstate × Except Errno α))
    (ams : Memstate) : (transactRebind false xp body ams).HashFree := by
  refine (LOG.hashFree_exec (body ams.fms) ams.msLL).bind fun ⟨ms₁, fms₁, r⟩ => ?_
  cases r with
  | error e => exact trivial
  | ok _ =>
    refine (LOG.hashFree_commit ms₁).bind fun ⟨ms₂, ok⟩ => ?_
    cases ok <;> exact trivial

/-- A node with a name that exists is not made. -/
theorem mknode_exists (hl : FsLayout xp n) (hm : Mounted h xp n st T ams s) {p : List Sname} {dnum : Nat}
    {ents : List (Sname × FsTree)} (hp : findSubtree p T = some (.dir dnum ents)) (isdir : Bool) (name : Sname)
    (hname : Dirtree.findDirlist name ents ≠ none) :
    twp n (DIRTREE.mknode xp dnum isdir name ams.fms) (fun r _ => ∃ e, r.2 = .error e) (ldisk st.newest) := by
  refine twp_mono (fun ⟨_, r⟩ _ hok => ?_) _ (DIRTREE.mknode_tree hl.ok hm.tree hp hl.inodes isdir name)
  cases r with
  | error e => exact ⟨e, rfl⟩
  | ok inum => exact absurd (hok inum rfl).1 hname

/-- The file system with one file has more inodes. -/
theorem freeList_small {inum : Nat} (hm : Mounted h smallFs n st (.dir 1 [([97], .file inum dirfile0)]) ams s) :
    freeList smallFs.fsxpInodeAlloc (ldisk st.newest) ≠ [] := by
  obtain ⟨Z, hr, hrep⟩ := hm.tree.nodes
  have hlt : 3 < smallFs.nInodes := by decide
  -- the nodes of the tree are 1 and `inum`
  have hnone : ∀ i, i ≠ 1 → i ≠ inum → Z i = none := by
    intro i h1 hi
    by_contra hne
    obtain ⟨c, hc⟩ := Option.ne_none_iff_exists'.1 hne
    obtain ⟨p, hp⟩ := hrep.surj hc
    match p with
    | [] =>
      cases hp
      exact h1 rfl
    | name :: q =>
      by_cases hn : [97] = name
      · subst hn
        cases q with
        | nil =>
          cases hp
          exact hi rfl
        | cons _ _ => cases hp
      · have hno : Dirtree.findSubtree (name :: q) (.dir 1 [([97], .file inum dirfile0)] : FsTree) = none :=
          if_neg hn
        rw [Dirtree.view, hno] at hp
        cases hp
  by_cases h2 : inum = 2
  · exact List.ne_nil_of_mem ((hr.free 3 (by omega) hlt).2 (hnone 3 (by omega) (by omega)))
  · exact List.ne_nil_of_mem ((hr.free 2 (by omega) (by omega)).2 (hnone 2 (by omega) (Ne.symm h2)))

/-- `mkdir` of a name that exists fails, and one inode is lost from the caches. -/
theorem failed_mkdir_not_kept : ∃ st ams s inum s' ams' e,
    Mounted PaddedLog.smallHash smallFs (diskSize 1 1) st (.dir 1 [([97], .file inum dirfile0)]) ams s ∧
    Exec PaddedLog.smallHash s ((Call.mkdir 1 [97]).run false smallFs ams) (.finished s' (ams', some e)) ∧
    ¬ Kept PaddedLog.smallHash smallFs (diskSize 1 1) st (.dir 1 [([97], .file inum dirfile0)]) ams' s' := by
  obtain ⟨st, ams, s, inum, hm, _⟩ := mounted_file PaddedLog.smallHash
  have hfind : ∃ p ents, findSubtree p (.dir 1 [([97], .file inum dirfile0)] : FsTree) = some (.dir 1 ents) := ⟨[], _, rfl⟩
  have hbody := mknode_exists fsLayout_small hm (p := []) rfl true [97] (Option.some_ne_none _)
  have hfree := hashFree_errnoOf (hashFree_transactRebind smallFs (DIRTREE.mkdir smallFs 1 [97]) ams)
  obtain ⟨s', ⟨ams', r⟩, hexec, e, he⟩ := Exec.finishes hfree (transactRebind_fails fsLayout_small hm hbody)
  obtain rfl : r = some e := he
  refine ⟨st, ams, s, inum, s', ams', e, hm, hexec, fun hk => ?_⟩
  have hspec := wp_exec hexec (call_spec fsLayout_small false hm (c := .mkdir 1 [97]) hfind)
  exact freeList_small hm ((hspec e rfl).1 hk)

/-- `create` of a name that exists fails, and nothing has happened. -/
theorem failed_call_iff_create : ∃ st ams s inum s' ams' e,
    Mounted PaddedLog.smallHash smallFs (diskSize 1 1) st (.dir 1 [([97], .file inum dirfile0)]) ams s ∧
    Exec PaddedLog.smallHash s ((Call.create 1 [97]).run false smallFs ams) (.finished s' (ams', some e)) ∧
    Kept PaddedLog.smallHash smallFs (diskSize 1 1) st (.dir 1 [([97], .file inum dirfile0)]) ams' s' := by
  obtain ⟨st, ams, s, inum, hm, _⟩ := mounted_file PaddedLog.smallHash
  have hfind : ∃ p ents, findSubtree p (.dir 1 [([97], .file inum dirfile0)] : FsTree) = some (.dir 1 ents) := ⟨[], _, rfl⟩
  have hbody := mknode_exists fsLayout_small hm (p := []) rfl false [97] (Option.some_ne_none _)
  have hfree := hashFree_errnoOf (hashFree_transact smallFs (DIRTREE.mkfile smallFs 1 [97]) ams)
  obtain ⟨s', ⟨ams', r⟩, hexec, e, he⟩ := Exec.finishes hfree (transact_fails fsLayout_small hm hbody)
  obtain rfl : r = some e := he
  exact ⟨st, ams, s, inum, s', ams', e, hm, hexec, (failed_call_iff fsLayout_small hm (c := .create 1 [97]) hfind hexec).2 trivial⟩

end AFS

end Fscq
