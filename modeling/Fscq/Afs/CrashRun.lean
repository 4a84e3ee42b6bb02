import Fscq.Afs.FileRun
import Fscq.Afs.Finishes
import Fscq.Afs.Superblock

/-!
# Crash atomicity of the file system

Runs of calls on a disk that `mkfs` formatted. `Updates` says what a successful call does to the directory tree, and the
`History` of a run has the successful calls so far, and how many of them were made before the last finished `treeSync`. Each
disk that a crash may fall back to holds the tree after the first `k` of them, where `k` is at least that number (`Image`).
Every call keeps this (`call_spec`), so `recover` mounts such a tree, however often it is interrupted (`crash_atomic`).
-/

namespace Fscq

open TxnLogic CrashLogic LogReplay
open MLog (MCrash RecTo)
open Dirtree (findSubtree findName findDirlist treePrune treeGraft updateSubtree entry Leaf InodesDistinct)
open INODE (Iattr)
open BFILE (msEmpty resize)
open AFS (Mounted Memstate tenBytes)

namespace FsRun

/-! ## Calls -/

inductive Call
  | create (dnum : Nat) (name : Sname)
  | mkdir (dnum : Nat) (name : Sname)
  | delete (dnum : Nat) (name : Sname)
  | rename (dnum : Nat) (srcpath : List Sname) (srcname : Sname) (dstpath : List Sname) (dstname : Sname)
  | fileTruncate (inum sz : Nat)
  | fileSetAttr (inum : Nat) (attr : Iattr)
  | updateFblock (inum off : Nat) (v : Valu)
  | lookup (dnum : Nat) (names : List Sname)
  | readdir (dnum : Nat)
  | readFblock (inum off : Nat)
  | fileGetAttr (inum : Nat)
  | treeSync

/-- What a call returns. -/
inductive Result
  | inode (r : Except Errno Nat)
  | done (r : Except Errno Unit)
  | written (ok : Bool)
  | found (r : Except Errno (Nat × Bool))
  | entries (l : List (Sname × (Nat × Bool)))
  | block (v : Valu)
  | attr (a : Iattr)
  | synced

def Call.run (fl : Bool) (xp : FsXparams) : Call → Memstate → FProg (Memstate × Result)
  | .create dnum name, ams => Prod.map id .inode <$> AFS.create fl xp dnum name ams
  | .mkdir dnum name, ams => Prod.map id .inode <$> AFS.mkdir fl xp dnum name ams
  | .delete dnum name, ams => Prod.map id .done <$> AFS.delete fl xp dnum name ams
  | .rename dnum srcpath srcname dstpath dstname, ams =>
    Prod.map id .done <$> AFS.rename fl xp dnum srcpath srcname dstpath dstname ams
  | .fileTruncate inum sz, ams => Prod.map id .done <$> AFS.fileTruncate fl xp inum sz ams
  | .fileSetAttr inum attr, ams => Prod.map id .done <$> AFS.fileSetAttr fl xp inum attr ams
  | .updateFblock inum off v, ams => Prod.map id .written <$> AFS.updateFblock fl xp inum off v ams
  | .lookup dnum names, ams => Prod.map id .found <$> AFS.lookup xp dnum names ams
  | .readdir dnum, ams => Prod.map id .entries <$> AFS.readdir xp dnum ams
  | .readFblock inum off, ams => Prod.map id .block <$> AFS.readFblock xp inum off ams
  | .fileGetAttr inum, ams => Prod.map id .attr <$> AFS.fileGetAttr xp inum ams
  | .treeSync, ams => (fun ams => (ams, .synced)) <$> AFS.treeSync xp ams

/-- Calls are on directories and files that the tree has, and on blocks that the file has. -/
def Call.Valid (T : FsTree) : Call → Prop
  | .create dnum _ | .mkdir dnum _ | .delete dnum _ | .rename dnum _ _ _ _ | .lookup dnum _ | .readdir dnum =>
    ∃ p ents, findSubtree p T = some (.dir dnum ents)
  | .fileTruncate inum _ | .fileSetAttr inum _ => ∃ p f, findSubtree p T = some (.file inum f)
  | .updateFblock inum off _ | .readFblock inum off => ∃ p f, findSubtree p T = some (.file inum f) ∧ off < f.data.length
  | .fileGetAttr inum => ∃ p u, findSubtree p T = some u ∧ u.inum = inum
  | .treeSync => True

def Call.ReadOnly : Call → Prop
  | .lookup _ _ | .readdir _ | .readFblock _ _ | .fileGetAttr _ => True
  | _ => False

/-! ## What the calls mean -/

/-- What a successful call does to the tree. -/
inductive Updates (T : FsTree) : Call → Result → FsTree → Prop
  /-- A new empty file, with a number that the tree does not have. -/
  | create {p dnum ents name inum} : findSubtree p T = some (.dir dnum ents) → findDirlist name ents = none →
      (∀ q u, findSubtree q T = some u → u.inum ≠ inum) →
      Updates T (.create dnum name) (.inode (.ok inum)) (treeGraft dnum ents p name (.file inum dirfile0) T)
  | mkdir {p dnum ents name inum} : findSubtree p T = some (.dir dnum ents) → findDirlist name ents = none →
      (∀ q u, findSubtree q T = some u → u.inum ≠ inum) →
      Updates T (.mkdir dnum name) (.inode (.ok inum)) (treeGraft dnum ents p name (.dir inum []) T)
  /-- A file or an empty directory goes. -/
  | delete {p dnum ents name c} : findSubtree p T = some (.dir dnum ents) → findDirlist name ents = some c → Leaf c →
      Updates T (.delete dnum name) (.done (.ok ())) (treePrune dnum ents p name T)
  | rename {cwd dnum ents srcpath srcname dstpath dstname T' snum sents S ddst dents} :
      findSubtree cwd T = some (.dir dnum ents) →
      DIRTREE.Renamed T (cwd ++ srcpath) srcname (cwd ++ dstpath) dstname T' snum sents S ddst dents →
      Updates T (.rename dnum srcpath srcname dstpath dstname) (.done (.ok ())) T'
  | fileTruncate {p inum f sz} : findSubtree p T = some (.file inum f) →
      Updates T (.fileTruncate inum sz) (.done (.ok ())) (updateSubtree p (.file inum ⟨resize f.data sz, f.attr⟩) T)
  | fileSetAttr {p inum f attr} : findSubtree p T = some (.file inum f) →
      Updates T (.fileSetAttr inum attr) (.done (.ok ())) (updateSubtree p (.file inum ⟨f.data, attr⟩) T)
  | updateFblock {p inum f off v} : findSubtree p T = some (.file inum f) → off < f.data.length →
      Updates T (.updateFblock inum off v) (.written true) (updateSubtree p (.file inum ⟨f.data.set off v, f.attr⟩) T)

/-- What the calls that only read return. -/
inductive Reads (T : FsTree) : Call → Result → Prop
  | lookup {p dnum ents names r} : findSubtree p T = some (.dir dnum ents) →
      (∀ v, r = .ok v ↔ findName names (.dir dnum ents) = some v) → Reads T (.lookup dnum names) (.found r)
  | readdir {p dnum ents l} : findSubtree p T = some (.dir dnum ents) → l.Perm (ents.map entry) →
      Reads T (.readdir dnum) (.entries l)
  | readFblock {p inum f off v} : findSubtree p T = some (.file inum f) → f.data[off]? = some v →
      Reads T (.readFblock inum off) (.block v)
  | fileGetAttr {inum a} : (∀ p f, findSubtree p T = some (.file inum f) → a = f.attr) → Reads T (.fileGetAttr inum) (.attr a)

/-- A call that failed and left the file system as it was. -/
inductive Fails : Call → Result → Prop
  | create {dnum name e} : Fails (.create dnum name) (.inode (.error e))
  | delete {dnum name e} : Fails (.delete dnum name) (.done (.error e))
  | rename {dnum srcpath srcname dstpath dstname e} : Fails (.rename dnum srcpath srcname dstpath dstname) (.done (.error e))
  | fileTruncate {inum sz e} : Fails (.fileTruncate inum sz) (.done (.error e))
  | fileSetAttr {inum attr e} : Fails (.fileSetAttr inum attr) (.done (.error e))
  | updateFblock {inum off v} : Fails (.updateFblock inum off v) (.written false)

/-- A `mkdir` that failed: the caches it leaves do not agree with the disk. -/
def MkdirFailed (c : Call) (r : Result) : Prop := ∃ dnum name e, c = .mkdir dnum name ∧ r = .inode (.error e)

/-- The tree after some updates, oldest first. In each tree on the way the inode numbers are distinct, so there is only one
such tree (`Applies.unique`). -/
inductive Applies (T₀ : FsTree) : List (Call × Result) → FsTree → Prop
  | nil : Applies T₀ [] T₀
  | snoc {us T c r T'} : Applies T₀ us T → InodesDistinct T → Updates T c r T' → Applies T₀ (us ++ [(c, r)]) T'

structure History where
  /-- The successful calls that change the tree, with their results, oldest first. -/
  updates : List (Call × Result)
  /-- How many of them were made before the last `treeSync`. -/
  synced : Nat

/-- One call, other than a `mkdir` that failed. -/
inductive Next (H : History) (T : FsTree) : Call → Result → History → FsTree → Prop
  | update {c r T'} : Updates T c r T' → Next H T c r ⟨H.updates ++ [(c, r)], H.synced⟩ T'
  | read {c r} : Reads T c r → Next H T c r H T
  | failed {c r} : Fails c r → Next H T c r H T
  | sync : Next H T .treeSync .synced ⟨H.updates, H.updates.length⟩ T

/-- A file system that `mkfs` made, after some calls. -/
inductive Run (h : HashKey → HashVal) (dataBitmaps inodeBitmaps logDescrBlocks : Nat) :
    History → FsTree → Memstate → St Valu HashKey → Prop
  | mkfs {fl : Bool} {cachesize : Nat} {s s' : St Valu HashKey} {ams : Memstate} {xp : FsXparams} : cachesize ≠ 0 →
      (∀ a < AFS.rawSize dataBitmaps inodeBitmaps logDescrBlocks, s.disk a ≠ none) →
      Exec h s (AFS.mkfs fl cachesize dataBitmaps inodeBitmaps logDescrBlocks) (.finished s' (.ok (ams, xp))) →
      Run h dataBitmaps inodeBitmaps logDescrBlocks ⟨[], 0⟩ (.dir 1 []) ams s'
  | call {fl : Bool} {H H' : History} {T T' : FsTree} {ams ams' : Memstate} {s s' : St Valu HashKey} {c : Call} {r : Result} :
      Run h dataBitmaps inodeBitmaps logDescrBlocks H T ams s → c.Valid T →
      Exec h s (c.run fl (AFS.computeXparams dataBitmaps inodeBitmaps logDescrBlocks SB.magicNumber) ams)
        (.finished s' (ams', r)) →
      Next H T c r H' T' → Run h dataBitmaps inodeBitmaps logDescrBlocks H' T' ams' s'

/-! ## There is one tree after some updates -/

section Unique

variable {T T₀ T₁ T₂ : FsTree} {c : Call} {r : Result} {us : List (Call × Result)}

theorem find_unique (hd : InodesDistinct T) {p q : List Sname} {u v : FsTree} (hp : findSubtree p T = some u)
    (hq : findSubtree q T = some v) (hi : u.inum = v.inum) : p = q ∧ u = v := by
  obtain rfl := hd p q u v hp hq hi
  exact ⟨rfl, Option.some_inj.1 (hp.symm.trans hq)⟩

theorem renamed_unique {src dst : List Sname} {srcname dstname : Sname} {snum snum' ddst ddst' : Nat}
    {sents sents' dents dents' : List (Sname × FsTree)} {S S' : FsTree}
    (h₁ : DIRTREE.Renamed T src srcname dst dstname T₁ snum sents S ddst dents)
    (h₂ : DIRTREE.Renamed T src srcname dst dstname T₂ snum' sents' S' ddst' dents') : T₁ = T₂ := by
  cases h₁.source.symm.trans h₂.source
  cases h₁.moved.symm.trans h₂.moved
  cases h₁.dest.symm.trans h₂.dest
  exact h₁.tree.trans h₂.tree.symm

theorem Updates.unique (hd : InodesDistinct T) (h₁ : Updates T c r T₁) (h₂ : Updates T c r T₂) : T₁ = T₂ := by
  cases h₁ with
  | create hp =>
    cases h₂ with
    | create hq =>
      obtain ⟨rfl, hu⟩ := find_unique hd hp hq rfl
      cases hu
      rfl
  | mkdir hp =>
    cases h₂ with
    | mkdir hq =>
      obtain ⟨rfl, hu⟩ := find_unique hd hp hq rfl
      cases hu
      rfl
  | delete hp =>
    cases h₂ with
    | delete hq =>
      obtain ⟨rfl, hu⟩ := find_unique hd hp hq rfl
      cases hu
      rfl
  | rename hp hr =>
    cases h₂ with
    | rename hq hr' =>
      obtain ⟨rfl, _⟩ := find_unique hd hp hq rfl
      exact renamed_unique hr hr'
  | fileTruncate hp =>
    cases h₂ with
    | fileTruncate hq =>
      obtain ⟨rfl, hu⟩ := find_unique hd hp hq rfl
      cases hu
      rfl
  | fileSetAttr hp =>
    cases h₂ with
    | fileSetAttr hq =>
      obtain ⟨rfl, hu⟩ := find_unique hd hp hq rfl
      cases hu
      rfl
  | updateFblock hp =>
    cases h₂ with
    | updateFblock hq =>
      obtain ⟨rfl, hu⟩ := find_unique hd hp hq rfl
      cases hu
      rfl

theorem Applies.unique (h₁ : Applies T₀ us T₁) : ∀ {T₂}, Applies T₀ us T₂ → T₁ = T₂ := by
  induction h₁ with
  | nil =>
    intro T₂ h₂
    generalize hus : ([] : List (Call × Result)) = us at h₂
    cases h₂ with
    | nil => rfl
    | snoc => simp at hus
  | @snoc us T c r T' _ hd hu ih =>
    intro T₂ h₂
    generalize hus : us ++ [(c, r)] = us' at h₂
    cases h₂ with
    | nil => simp at hus
    | snoc h₂ _ hu' =>
      obtain ⟨rfl, hcr⟩ := List.append_inj' hus rfl
      cases hcr
      cases ih h₂
      exact hu.unique hd hu'

end Unique

/-! ## Disks that a crash falls back to -/

/-- A disk with the tree after the first updates, at least `lo` of them. -/
def Image (xp : FsXparams) (us : List (Call × Result)) (lo : Nat) (e : RawDisk Valu) : Prop :=
  Plain e ∧ ∃ k T, lo ≤ k ∧ k ≤ us.length ∧ Applies (.dir 1 []) (us.take k) T ∧ TreeRep xp (ldisk e) msEmpty T

/-- A file system between two calls. -/
structure Ready (h : HashKey → HashVal) (xp : FsXparams) (n : Nat) (st : LogState) (H : History) (T : FsTree) (ams : Memstate)
    (s : St Valu HashKey) : Prop where
  mounted : Mounted h xp n st T ams s
  images : ∀ e, st.Pending e → Image xp H.updates H.synced e
  applies : Applies (.dir 1 []) H.updates T
  synced : H.synced ≤ H.updates.length

variable {h : HashKey → HashVal} {xp : FsXparams} {n : Nat} {st st' : LogState} {H : History} {T T' : FsTree}
  {ams ams' : Memstate} {s s' : St Valu HashKey} {c : Call} {r : Result} {e : RawDisk Valu} {us : List (Call × Result)} {lo : Nat}

theorem Image.mono (hi : Image xp us lo e) (us' : List (Call × Result)) : Image xp (us ++ us') lo e := by
  obtain ⟨hp, k, T, hlo, hk, ha, ht⟩ := hi
  refine ⟨hp, k, T, hlo, ?_, ?_, ht⟩
  · rw [List.length_append]
    omega
  · rwa [List.take_append_of_le_length hk]

/-- The disk after the last update. -/
theorem image_last {fms : BFILE.Memstate} (hp : Plain e) (hlo : lo ≤ us.length) (ha : Applies (.dir 1 []) us T)
    (ht : TreeRep xp (ldisk e) fms T) : Image xp us lo e := by
  refine ⟨hp, us.length, T, hlo, Nat.le_refl _, ?_, ht.recovered fun a => hp a⟩
  rwa [List.take_length]

theorem TreeRep.inodesDistinct {d : LDisk} {fms : BFILE.Memstate} (ht : TreeRep xp d fms T) : InodesDistinct T := by
  obtain ⟨Z, _, hrep⟩ := ht.nodes
  exact Dirtree.Rep.inodesDistinct hrep

namespace Ready

theorem plain (hr : Ready h xp n st H T ams s) : Plain st.newest := (hr.images _ (LogState.pending_newest st)).1

theorem next_applies (hr : Ready h xp n st H T ams s) (hu : Updates T c r T') :
    Applies (.dir 1 []) (H.updates ++ [(c, r)]) T' :=
  .snoc hr.applies (TreeRep.inodesDistinct hr.mounted.tree) hu

/-- A disk that the transaction of an update leaves. -/
theorem image_update {cur : Valumap} {fms : BFILE.Memstate} (hr : Ready h xp n st H T ams s) (hu : Updates T c r T')
    (ht : TreeRep xp (ldisk (overlay cur st.newest)) fms T') :
    Image xp (H.updates ++ [(c, r)]) H.synced (overlay cur st.newest) := by
  have hp : Plain (overlay cur st.newest) := fun a => plain_overlay cur (hr.plain a)
  refine image_last hp ?_ (hr.next_applies hu) ht
  rw [List.length_append]
  exact Nat.le_add_right_of_le hr.synced

theorem update {cur : Valumap} (hr : Ready h xp n st H T ams s) (hu : Updates T c r T')
    (hlog : LOG.LRep h xp.fsxpLog n st' ams'.msLL s') (hset : st.Settled (overlay cur st.newest) st')
    (ht : TreeRep xp (ldisk (overlay cur st.newest)) ams'.fms T') :
    Ready h xp n st' ⟨H.updates ++ [(c, r)], H.synced⟩ T' ams' s' := by
  refine ⟨⟨hlog, hset.idle, ?_⟩, fun e he => ?_, hr.next_applies hu, ?_⟩
  · rw [hset.newest]
    exact ht
  · rcases hset.pending e he with hold | rfl
    · exact (hr.images e hold).mono _
    · exact hr.image_update hu ht
  · rw [List.length_append]
    exact Nat.le_add_right_of_le hr.synced

/-- The tree is as before. -/
theorem kept (hr : Ready h xp n st H T ams s) (hset : st.Settled st.newest st') (hm : Mounted h xp n st' T ams' s') :
    Ready h xp n st' H T ams' s' := by
  refine ⟨hm, fun e he => ?_, hr.applies, hr.synced⟩
  rcases hset.pending e he with hold | rfl
  · exact hr.images e hold
  · exact hr.images _ (LogState.pending_newest st)

theorem flushed {ms : LOG.Memstate} (hr : Ready h xp n st H T ams s) (hlog : LOG.LRep h xp.fsxpLog n st.flush ms s') :
    Ready h xp n st.flush ⟨H.updates, H.updates.length⟩ T ⟨ms, { ams.fms with msAlloc := !ams.fms.msAlloc }⟩ s' := by
  refine ⟨⟨hlog, hr.mounted.idle, ?_⟩, fun e he => ?_, hr.applies, Nat.le_refl _⟩
  · have hnew : st.flush.newest = st.newest := rfl
    rw [hnew]
    exact hr.mounted.tree.switch
  · rw [LogState.pending_flush he]
    exact image_last hr.plain (Nat.le_refl _) hr.applies hr.mounted.tree

end Ready

/-! ## One call -/

/-- What a crash during a call falls back to. -/
def Left (xp : FsXparams) (H : History) (T : FsTree) (c : Call) (e : RawDisk Valu) : Prop :=
  Image xp H.updates H.synced e ∨ ∃ r T', Updates T c r T' ∧ Image xp (H.updates ++ [(c, r)]) H.synced e

/-- What a call leaves: the next state, except for a `mkdir` that failed. -/
def Done (h : HashKey → HashVal) (xp : FsXparams) (n : Nat) (H : History) (T : FsTree) (c : Call) (x : Memstate × Result)
    (s : St Valu HashKey) : Prop :=
  MkdirFailed c x.2 ∨ ∃ H' T' st', Next H T c x.2 H' T' ∧ Ready h xp n st' H' T' x.1 s

theorem Ready.left (hr : Ready h xp n st H T ams s) (he : st.Pending e) : Left xp H T c e := .inl (hr.images e he)

section Shapes

variable {α : Type} {o : Except Errno α → Result} {body : BFILE.Memstate → TBody (BFILE.Memstate × Except Errno α)}
  (hl : FsLayout xp n) (fl : Bool) (hr : Ready h xp n st H T ams s)
  (hbody : twp n (body ams.fms) (fun x d' => ∀ a, x.2 = .ok a → ∃ T', Updates T c (o (.ok a)) T' ∧ TreeRep xp d' x.1 T')
    (ldisk st.newest))
include hl hr hbody

theorem transact_call (hf : ∀ e, Fails c (o (.error e))) :
    wp h (Prod.map id o <$> AFS.transact fl xp body ams) (Done h xp n H T c) (MCrash h xp.fsxpLog n (Left xp H T c)) s := by
  refine wp_map (wp_mono ?_ (fun _ hm => hm.mono ?_) _
    (AFS.transact_spec (P := fun a fms d => ∃ T', Updates T c (o (.ok a)) T' ∧ TreeRep xp d fms T') hl.log fl hr.mounted.log
      hr.mounted.idle hbody))
  · rintro ⟨ams', x⟩ s' ⟨herr, hok⟩
    right
    cases x with
    | error e =>
      obtain ⟨st', hset, hm⟩ := (herr e rfl).mounted hr.mounted
      exact ⟨H, T, st', .failed (hf e), hr.kept hset hm⟩
    | ok a =>
      obtain ⟨st', cur, hlog, hset, T', hu, ht⟩ := hok a rfl
      exact ⟨_, T', st', .update hu, hr.update hu hlog hset ht⟩
  · rintro e (he | ⟨a, fms, cur, rfl, T', hu, ht⟩)
    · exact hr.left he
    · exact .inr ⟨_, T', hu, hr.image_update hu ht⟩

theorem transactRebind_call (hf : ∀ e, MkdirFailed c (o (.error e))) :
    wp h (Prod.map id o <$> AFS.transactRebind fl xp body ams) (Done h xp n H T c) (MCrash h xp.fsxpLog n (Left xp H T c)) s := by
  refine wp_map (wp_mono ?_ (fun _ hm => hm.mono ?_) _
    (AFS.transactRebind_spec (P := fun a fms d => ∃ T', Updates T c (o (.ok a)) T' ∧ TreeRep xp d fms T') hl.log fl
      hr.mounted.log hr.mounted.idle hbody))
  · rintro ⟨ams', x⟩ s' ⟨_, hok⟩
    cases x with
    | error e => exact .inl (hf e)
    | ok a =>
      obtain ⟨st', cur, hlog, hset, T', hu, ht⟩ := hok a rfl
      exact .inr ⟨_, T', st', .update hu, hr.update hu hlog hset ht⟩
  · rintro e (he | ⟨a, fms, cur, rfl, T', hu, ht⟩)
    · exact hr.left he
    · exact .inr ⟨_, T', hu, hr.image_update hu ht⟩

end Shapes

theorem transactRo_call {α : Type} {o : α → Result} {body : BFILE.Memstate → TBody (BFILE.Memstate × α)} (hl : FsLayout xp n)
    (hr : Ready h xp n st H T ams s)
    (hbody : twp n (body ams.fms) (fun x _ => Reads T c (o x.2) ∧ TreeRep xp (ldisk st.newest) x.1 T) (ldisk st.newest)) :
    wp h (Prod.map id o <$> AFS.transactRo xp body ams) (Done h xp n H T c) (MCrash h xp.fsxpLog n (Left xp H T c)) s := by
  refine wp_map (wp_mono ?_ (fun _ hm => hm.mono fun _ he => hr.left he) _
    (AFS.transactRo_spec (P := fun a fms => Reads T c (o a) ∧ TreeRep xp (ldisk st.newest) fms T) hl.log hr.mounted.log
      hr.mounted.idle hbody))
  rintro ⟨ams', a⟩ s' ⟨hlog, hread, ht⟩
  exact .inr ⟨H, T, st, .read hread, hr.kept (LogState.settled_refl hr.mounted.idle) ⟨hlog, hr.mounted.idle, ht⟩⟩

/-- If the log does not take the write, the caches are those after the write, and right for the disk before it. -/
theorem updateFblock_call (hl : FsLayout xp n) (fl : Bool) (hr : Ready h xp n st H T ams s) {p : List Sname} {inum off : Nat}
    {f : File} {v : Valu} (hp : findSubtree p T = some (.file inum f)) (hoff : off < f.data.length) :
    wp h (Prod.map id .written <$> AFS.updateFblock fl xp inum off v ams) (Done h xp n H T (.updateFblock inum off v))
      (MCrash h xp.fsxpLog n (Left xp H T (.updateFblock inum off v))) s := by
  have ht := hr.mounted.tree
  obtain ⟨hi, rfl⟩ := DIRTREE.file_eq ht hp
  obtain ⟨Z, hnode, _⟩ := ht.nodes
  have hwrite := twp_and (BFILE.write_spec (v := v) hl.ok hnode.brep hnode.msrep hi hoff)
    (BFILE.write_caches (v := v) hl.ok hnode.brep hnode.msrep hi hoff)
  have hu : Updates T (.updateFblock inum off v) (.written true) _ := .updateFblock hp hoff
  refine wp_map (LOG.wp_begin (wp_seq (LOG.exec_idle hl.log hr.mounted.log hr.mounted.idle hwrite)
    (fun _ hm => hm.mono fun _ he => hr.left he) ?_))
  rintro ⟨ms, fms⟩ s₁ ⟨cur, hr₁, ⟨hdone, _⟩, hcaches, hms⟩
  have ht' := (DIRTREE.fileDone_tree ht hp hdone).rep
  refine wp_seq (LOG.commit_settles hl.log fl hr₁) (fun _ hm => hm.mono ?_) ?_
  · rintro e (he | rfl)
    · exact hr.left he
    · exact .inr ⟨_, _, hu, hr.image_update hu ht'⟩
  · rintro ⟨ms', ok⟩ s₂ ⟨_, st', hr₂, hset⟩
    right
    cases ok with
    | true => exact ⟨_, _, st', .update hu, hr.update hu hr₂ hset ht'⟩
    | false =>
      refine ⟨H, T, st', .failed .updateFblock, hr.kept hset ⟨hr₂, hset.idle, ?_⟩⟩
      rw [hset.newest]
      exact ht.icacheOnly hcaches hms

theorem treeSync_call (hl : FsLayout xp n) (hr : Ready h xp n st H T ams s) :
    wp h ((fun ams => (ams, Result.synced)) <$> AFS.treeSync xp ams) (Done h xp n H T .treeSync)
      (MCrash h xp.fsxpLog n (Left xp H T .treeSync)) s := by
  refine wp_map (wp_seq (LOG.flushall_spec hl.log hr.mounted.log) (fun _ hm => hm.mono fun _ he => hr.left he) ?_)
  intro ms s' hlog
  exact .inr ⟨_, T, _, .sync, hr.flushed hlog⟩

theorem call_spec (hl : FsLayout xp n) (fl : Bool) (hr : Ready h xp n st H T ams s) (hc : c.Valid T) :
    wp h (c.run fl xp ams) (Done h xp n H T c) (MCrash h xp.fsxpLog n (Left xp H T c)) s := by
  have ht := hr.mounted.tree
  obtain ⟨Z, hnode, hrep⟩ := ht.nodes
  cases c with
  | create dnum name =>
    obtain ⟨p, ents, hp⟩ := hc
    refine transact_call hl fl hr (twp_mono (fun x d' hx inum hok => ?_) _
      (DIRTREE.mknode_tree hl.ok ht hp hl.inodes false name)) fun _ => .create
    obtain ⟨hno, hfresh, hdone⟩ := hx inum hok
    exact ⟨_, .create hp hno hfresh, hdone.rep⟩
  | mkdir dnum name =>
    obtain ⟨p, ents, hp⟩ := hc
    refine transactRebind_call hl fl hr (twp_mono (fun x d' hx inum hok => ?_) _
      (DIRTREE.mknode_tree hl.ok ht hp hl.inodes true name)) fun e => ⟨dnum, name, e, rfl, rfl⟩
    obtain ⟨hno, hfresh, hdone⟩ := hx inum hok
    exact ⟨_, .mkdir hp hno hfresh, hdone.rep⟩
  | delete dnum name =>
    obtain ⟨p, ents, hp⟩ := hc
    refine transact_call hl fl hr (twp_mono (fun x d' hx _ hok => ?_) _
      (DIRTREE.delete_tree hl.ok ht hp name)) fun _ => .delete
    obtain ⟨c, hfind, hleaf, hdone⟩ := hx hok
    exact ⟨_, .delete hp hfind hleaf, hdone.rep⟩
  | rename dnum srcpath srcname dstpath dstname =>
    obtain ⟨p, ents, hp⟩ := hc
    refine transact_call hl fl hr (twp_mono (fun x d' hx _ hok => ?_) _
      (DIRTREE.rename_tree hl.ok hl.inodes ht hp srcpath srcname dstpath dstname)) fun _ => .rename
    obtain ⟨T', snum, sents, S, ddst, dents, hren, hdone, _⟩ := hx hok
    exact ⟨T', .rename hp hren, hdone.rep⟩
  | fileTruncate inum sz =>
    obtain ⟨p, f, hp⟩ := hc
    obtain ⟨hi, rfl⟩ := DIRTREE.file_eq ht hp
    refine transact_call hl fl hr (twp_mono (fun x d' hx _ hok => ?_) _
      (BFILE.truncate_spec hl.ok hnode.brep hnode.msrep hi sz)) fun _ => .fileTruncate
    exact ⟨_, .fileTruncate hp, (DIRTREE.fileDone_tree ht hp (hx.ok hok).1).rep⟩
  | fileSetAttr inum attr =>
    obtain ⟨p, f, hp⟩ := hc
    obtain ⟨hi, rfl⟩ := DIRTREE.file_eq ht hp
    refine transact_call hl fl hr (twp_seq (BFILE.setattrs_spec hl.ok hnode.brep hnode.msrep hi attr)
      fun fms d' hdone _ _ => ?_) fun _ => .fileSetAttr
    exact ⟨_, .fileSetAttr hp, (DIRTREE.fileDone_tree ht hp hdone).rep⟩
  | updateFblock inum off v =>
    obtain ⟨p, f, hp, hoff⟩ := hc
    exact updateFblock_call hl fl hr hp hoff
  | lookup dnum names =>
    obtain ⟨p, ents, hp⟩ := hc
    exact transactRo_call hl hr (twp_mono (fun x d' ⟨_, hdone, hres⟩ => ⟨.lookup hp hres, hdone.rep⟩) _
      (DIRTREE.namei_tree hl.ok ht hp names))
  | readdir dnum =>
    obtain ⟨p, ents, hp⟩ := hc
    exact transactRo_call hl hr (twp_mono (fun x d' ⟨_, hdone, hres⟩ => ⟨.readdir hp hres, hdone.rep⟩) _
      (DIRTREE.readdir_tree hl.ok ht hp))
  | readFblock inum off =>
    obtain ⟨p, f, hp, hoff⟩ := hc
    obtain ⟨hi, rfl⟩ := DIRTREE.file_eq ht hp
    exact transactRo_call hl hr (twp_mono (fun x d' ⟨_, hv, ho, hm⟩ => ⟨.readFblock hp hv, ht.icacheOnly ho hm⟩) _
      (BFILE.read_spec hl.ok hnode.brep hnode.msrep hi hoff))
  | fileGetAttr inum =>
    obtain ⟨p, u, hp, rfl⟩ := hc
    have hi := (hnode.valid u.inum _ ((DIRTREE.holds_tree hrep).node hp)).2
    refine transactRo_call hl hr (twp_mono (fun x d' ⟨_, ha, ho, hm⟩ => ⟨.fileGetAttr fun q f hq => ?_, ht.icacheOnly ho hm⟩) _
      (BFILE.getattrs_spec hl.ok hnode.msrep hi))
    rw [ha, (DIRTREE.file_eq ht hq).2]
  | treeSync => exact treeSync_call hl hr

/-! ## Runs -/

theorem Updates.root (hu : Updates T c r T') : T'.inum = T.inum ∧ T'.isdir = T.isdir := by
  cases hu with
  | create hp | mkdir hp => exact Dirtree.treeGraft_root hp _ _
  | delete hp => exact Dirtree.treePrune_root hp _
  | fileTruncate hp | fileSetAttr hp | updateFblock hp =>
    refine Dirtree.updateSubtree_root hp ?_ ?_
    · rfl
    · rfl
  | @rename _ _ _ _ srcname _ dstname _ _ _ S _ _ _ hr =>
    have hprune := Dirtree.treePrune_root hr.source srcname
    have hgraft := Dirtree.treeGraft_root hr.dest dstname S
    rw [hr.tree]
    exact ⟨hgraft.1.trans hprune.1, hgraft.2.trans hprune.2⟩

theorem Applies.root {T₀ : FsTree} (ha : Applies T₀ us T) : T.inum = T₀.inum ∧ T.isdir = T₀.isdir := by
  induction ha with
  | nil => exact ⟨rfl, rfl⟩
  | snoc _ _ hu ih => exact ⟨hu.root.1.trans ih.1, hu.root.2.trans ih.2⟩

theorem Next.unique {H₁ H₂ : History} {T₁ T₂ : FsTree} (hd : InodesDistinct T) (h₁ : Next H T c r H₁ T₁)
    (h₂ : Next H T c r H₂ T₂) : H₁ = H₂ ∧ T₁ = T₂ := by
  cases h₁ with
  | update hu =>
    cases h₂ with
    | update hu' => exact ⟨rfl, hu.unique hd hu'⟩
    | read hread => cases hu <;> cases hread
    | failed hf => cases hu <;> cases hf
    | sync => cases hu
  | read hread =>
    cases h₂ with
    | update hu => cases hu <;> cases hread
    | read => exact ⟨rfl, rfl⟩
    | failed => exact ⟨rfl, rfl⟩
    | sync => cases hread
  | failed hf =>
    cases h₂ with
    | update hu => cases hu <;> cases hf
    | read => exact ⟨rfl, rfl⟩
    | failed => exact ⟨rfl, rfl⟩
    | sync => cases hf
  | sync =>
    cases h₂ with
    | update hu => cases hu
    | read hread => cases hread
    | failed hf => cases hf
    | sync => exact ⟨rfl, rfl⟩

theorem Call.run_avoids {b : Valu} (hx : xp.fsxpLog.AboveZero) (hs : LOG.Spares ams.msLL) (fl : Bool) (c : Call) :
    (c.run fl xp ams).Avoids 0 b (LOG.Spares ·.1.msLL) := by
  have hmap : ∀ {α : Type} {o : α → Result} {p : FProg (Memstate × α)}, p.Avoids 0 b (LOG.Spares ·.1.msLL) →
      (Prod.map id o <$> p).Avoids 0 b (LOG.Spares ·.1.msLL) := fun hp => hp.seq fun _ hr => by exact hr
  cases c with
  | create | delete | rename | fileTruncate | fileSetAttr => exact hmap (AFS.transact_avoids hx hs fl _)
  | mkdir => exact hmap (AFS.transactRebind_avoids hx hs fl _)
  | updateFblock => exact hmap (AFS.updateFblock_avoids hx hs fl _ _ _)
  | lookup | readdir | readFblock | fileGetAttr => exact hmap (AFS.transactRo_avoids hs _)
  | treeSync => exact (AFS.treeSync_avoids hx hs).seq fun _ hr => by exact hr

/-- What holds between two calls of a run. -/
structure Inv (h : HashKey → HashVal) (xp : FsXparams) (n : Nat) (H : History) (T : FsTree) (ams : Memstate)
    (s : St Valu HashKey) : Prop where
  ready : ∃ st, Ready h xp n st H T ams s
  superblock : CrashLogic.OnlyAt s.disk 0 (SB.vPickleSuperblock xp)
  spares : LOG.Spares ams.msLL

/-- A call with what it does to block 0. -/
theorem Inv.call (hl : FsLayout xp n) (hx : xp.fsxpLog.AboveZero) (hi : Inv h xp n H T ams s) (hc : c.Valid T) (fl : Bool) :
    wp h (c.run fl xp ams) (fun x s' => Done h xp n H T c x s' ∧ CrashLogic.OnlyAt s'.disk 0 (SB.vPickleSuperblock xp) ∧
        LOG.Spares x.1.msLL)
      (fun s' => MCrash h xp.fsxpLog n (Left xp H T c) s' ∧ CrashLogic.OnlyAt s'.disk 0 (SB.vPickleSuperblock xp)) s := by
  obtain ⟨st, hr⟩ := hi.ready
  exact wp_avoids (Call.run_avoids hx hi.spares fl c) hi.superblock (call_spec hl fl hr hc)

section Format

variable {dataBitmaps inodeBitmaps logDescrBlocks : Nat} (hd : dataBitmaps ≠ 0) (hi : inodeBitmaps ≠ 0)
  (hi' : inodeBitmaps ≤ valulen * valulen) (hsize : AFS.rawSize dataBitmaps inodeBitmaps logDescrBlocks < 2 ^ 64)
include hd hi hi' hsize

theorem Run.inv (hrun : Run h dataBitmaps inodeBitmaps logDescrBlocks H T ams s) :
    Inv h (AFS.computeXparams dataBitmaps inodeBitmaps logDescrBlocks SB.magicNumber)
      (AFS.diskSize dataBitmaps inodeBitmaps) H T ams s := by
  have hl := AFS.fsLayout_computeXparams hd hi' hsize
  have hx := AFS.aboveZero_computeXparams dataBitmaps inodeBitmaps logDescrBlocks SB.magicNumber
  induction hrun with
  | mkfs hn hdisk he =>
    obtain ⟨rfl, hz, hs⟩ := AFS.mkfs_superblock hn (hdisk 0 (by rw [AFS.rawSize]; omega)) he
    have hspec := wp_exec he (AFS.mkfs_spec hn hd hi hsize _ hdisk)
    obtain ⟨_, d, hp, hm⟩ := hspec.2 _ _ rfl
    refine ⟨⟨_, hm, fun e he => ?_, .nil, Nat.le_refl _⟩, hz, hs⟩
    have hflush : LogState.Pending (LogState.flush ⟨d, [], vmap0⟩) e := he
    obtain rfl := LogState.pending_flush hflush
    exact image_last hp (Nat.le_refl _) .nil hm.tree
  | @call fl H H' T T' ams ams' s s' c r _ hc he hnext ih =>
    obtain ⟨st, hr⟩ := ih.ready
    have hd := TreeRep.inodesDistinct hr.mounted.tree
    obtain ⟨hdone, hz, hs⟩ := wp_exec he (ih.call hl hx hc fl)
    rcases hdone with ⟨dnum, name, e, rfl, rfl⟩ | ⟨H₁, T₁, st', hnext', hr'⟩
    · cases hnext with
      | update hu => cases hu
      | read hread => cases hread
      | failed hf => cases hf
    · obtain ⟨rfl, rfl⟩ := hnext.unique hd hnext'
      exact ⟨⟨st', hr'⟩, hz, hs⟩

end Format

/-! ## Recovery -/

/-- After a crash. -/
structure Crashed (h : HashKey → HashVal) (xp : FsXparams) (n : Nat) (P : RawDisk Valu → Prop) (s : St Valu HashKey) : Prop where
  log : ∃ r d, P d ∧ PossibleCrash d r ∧ RecTo h xp.fsxpLog n r s.disk s.seen
  superblock : CrashLogic.OnlyAt s.disk 0 (SB.vPickleSuperblock xp)

theorem recovers (hl : Layout xp.fsxpLog n) (hx : xp.fsxpLog.AboveZero) (hg : SB.GoodSize xp)
    (hmagic : xp.fsxpMagic = SB.magicNumber) {cachesize : Nat} (hn : cachesize ≠ 0) (P : RawDisk Valu → Prop) :
    Recovers h (AFS.recover cachesize) (fun x s => ∃ ms r d, x = .ok (⟨ms, msEmpty⟩, xp) ∧ P d ∧ PossibleCrash d r ∧
      LOG.LRep h xp.fsxpLog n ⟨r, [], vmap0⟩ ms s) (Crashed h xp n P) := by
  rintro s ⟨⟨r, d, hd, hcr, hR⟩, hz⟩
  refine wp_mono ?_ ?_ _ (wp_avoids (AFS.recover_avoids hn hx hg hmagic) hz (AFS.recover_spec hl hn hg hmagic hR hz))
  · rintro x s' ⟨⟨ms, rfl, hr⟩, _⟩
    exact ⟨ms, r, d, rfl, hd, hcr, hr⟩
  · rintro s' ⟨hc, hz'⟩ m hm
    exact ⟨⟨r, d, hd, hcr, hc m hm⟩, hm.only hz'⟩

/-- Every call that only reads returns what the tree says. -/
def Shows (h : HashKey → HashVal) (xp : FsXparams) (T : FsTree) (ams : Memstate) (s : St Valu HashKey) : Prop :=
  ∀ c, c.ReadOnly → c.Valid T → ∀ fl o, Exec h s (c.run fl xp ams) o → Allowed (fun x _ => Reads T c x.2) (fun _ => True) o

theorem Ready.shows (hl : FsLayout xp n) (hr : Ready h xp n st H T ams s) : Shows h xp T ams s := by
  intro c hro hc fl o ho
  refine wp_exec ho (wp_mono ?_ (fun _ _ => trivial) _ (call_spec hl fl hr hc))
  rintro ⟨ams', r⟩ s' (⟨dnum, name, e, rfl, _⟩ | ⟨H', T', st', hnext, _⟩)
  · exact hro.elim
  · show Reads T c r
    cases hnext with
    | update hu => cases hu <;> exact hro.elim
    | read hread => exact hread
    | failed hf => cases hf <;> exact hro.elim
    | sync => exact hro.elim

/-- The tree after the first `k` updates is there, and all that were made before the last `treeSync` are among them. The
call in which the crash happened may be the last of the updates. -/
structure Recovered (h : HashKey → HashVal) (xp : FsXparams) (H : History) (T : FsTree) (c : Call) (T' : FsTree)
    (ams : Memstate) (s : St Valu HashKey) : Prop where
  updates : ∃ us k, (us = H.updates ∨ ∃ r T₁, Updates T c r T₁ ∧ us = H.updates ++ [(c, r)]) ∧ H.synced ≤ k ∧ k ≤ us.length ∧
    Applies (.dir 1 []) (us.take k) T'
  root : T'.inum = xp.fsxpRootInum ∧ T'.isdir = true
  shows : Shows h xp T' ams s

/-- How a call ends, with any number of crashes: with a hash collision, with its result, or with a tree mounted again. -/
def Ends (h : HashKey → HashVal) (xp : FsXparams) (H : History) (T : FsTree) (c : Call)
    (o : Outcome Valu HashKey ((Memstate × Result) ⊕ Except Errno (Memstate × FsXparams))) : Prop :=
  o = .collided ∨ (∃ s' x, o = .finished s' (.inl x) ∧ (MkdirFailed c x.2 ∨ ∃ H' T', Next H T c x.2 H' T')) ∨
  ∃ s' ams' T', o = .finished s' (.inr (.ok (ams', xp))) ∧ Recovered h xp H T c T' ams' s'

theorem Image.recovered (hl : FsLayout xp n) {r d : RawDisk Valu} {ms : LOG.Memstate}
    (hi : Image xp us lo d) (hcr : PossibleCrash d r) (hlog : LOG.LRep h xp.fsxpLog n ⟨r, [], vmap0⟩ ms s) :
    ∃ k T', lo ≤ k ∧ k ≤ us.length ∧ Applies (.dir 1 []) (us.take k) T' ∧ T'.inum = xp.fsxpRootInum ∧
      Shows h xp T' ⟨ms, msEmpty⟩ s := by
  obtain ⟨hp, k, T', hlo, hk, ha, ht⟩ := hi
  obtain rfl := hp.crash_eq hcr
  have hlen : (us.take k).length = k := List.length_take_of_le hk
  have hready : Ready h xp n ⟨r, [], vmap0⟩ ⟨us.take k, k⟩ T' ⟨ms, msEmpty⟩ s := by
    refine ⟨⟨hlog, rfl, ht⟩, fun e he => ?_, ha, Nat.le_of_eq hlen.symm⟩
    have hflush : LogState.Pending (LogState.flush ⟨r, [], vmap0⟩) e := he
    obtain rfl := LogState.pending_flush hflush
    exact image_last hp (Nat.le_of_eq hlen.symm) ha ht
  exact ⟨k, T', hlo, hk, ha, ht.root, hready.shows hl⟩

theorem Inv.ends (hl : FsLayout xp n) (hx : xp.fsxpLog.AboveZero) (hg : SB.GoodSize xp) (hmagic : xp.fsxpMagic = SB.magicNumber)
    (hi : Inv h xp n H T ams s) (hc : c.Valid T) (fl : Bool) {cachesize : Nat} (hn : cachesize ≠ 0)
    {o : Outcome Valu HashKey ((Memstate × Result) ⊕ Except Errno (Memstate × FsXparams))}
    (ho : ExecRecover h (AFS.recover cachesize) s (c.run fl xp ams) o) : Ends h xp H T c o := by
  have hcall : wp h (c.run fl xp ams) (fun x _ => MkdirFailed c x.2 ∨ ∃ H' T', Next H T c x.2 H' T')
      (fun s' => ∀ m, PossibleCrash s'.disk m → Crashed h xp n (Left xp H T c) ⟨m, s'.seen⟩) s := by
    refine wp_mono ?_ ?_ _ (hi.call hl hx hc fl)
    · rintro x s' ⟨hfail | ⟨H', T', st', hnext, _⟩, _⟩
      · exact .inl hfail
      · exact .inr ⟨H', T', hnext⟩
    · rintro s' ⟨hm, hz⟩ m hcr
      exact ⟨hm m hcr, hcr.only hz⟩
  have hall := recover_exec (recovers hl.log hx hg hmagic hn (Left xp H T c)) ho hcall
  cases o with
  | failed => exact hall.elim
  | crashed => exact hall.elim
  | collided => exact .inl rfl
  | finished s' r =>
    right
    cases r with
    | inl x => exact .inl ⟨s', x, rfl, hall⟩
    | inr y =>
      obtain ⟨ms, r, d, rfl, hleft, hcr, hlog⟩ := hall
      obtain ⟨us, hus, himg⟩ : ∃ us, (us = H.updates ∨ ∃ r T₁, Updates T c r T₁ ∧ us = H.updates ++ [(c, r)]) ∧
          Image xp us H.synced d := by
        rcases hleft with himg | ⟨r, T₁, hu, himg⟩
        · exact ⟨_, .inl rfl, himg⟩
        · exact ⟨_, .inr ⟨r, T₁, hu, rfl⟩, himg⟩
      obtain ⟨k, T', hlo, hk, ha, hroot, hshows⟩ := himg.recovered hl hcr hlog
      exact .inr ⟨s', _, T', rfl, ⟨us, k, hus, hlo, hk, ha⟩, ⟨hroot, ha.root.2⟩, hshows⟩

section Atomic

variable {dataBitmaps inodeBitmaps logDescrBlocks cachesize : Nat} (hd : dataBitmaps ≠ 0) (hi : inodeBitmaps ≠ 0)
  (hsize : AFS.rawSize dataBitmaps inodeBitmaps logDescrBlocks < 2 ^ 64) (hn : cachesize ≠ 0)
include hd hi hsize hn

/-- If the log has room for a whole disk, `mkfs` makes a file system unless it meets a hash collision. -/
theorem mkfs_runs (hlog : AFS.diskSize dataBitmaps inodeBitmaps ≤
      (AFS.computeXparams dataBitmaps inodeBitmaps logDescrBlocks SB.magicNumber).fsxpLog.logLen)
    (hdisk : ∀ a < AFS.rawSize dataBitmaps inodeBitmaps logDescrBlocks, s.disk a ≠ none) (fl : Bool) :
    ∃ o, Exec h s (AFS.mkfs fl cachesize dataBitmaps inodeBitmaps logDescrBlocks) o ∧
      (o = .collided ∨ ∃ s' ams xp, o = .finished s' (.ok (ams, xp)) ∧
        Run h dataBitmaps inodeBitmaps logDescrBlocks ⟨[], 0⟩ (.dir 1 []) ams s') := by
  obtain ⟨o, ho, hc⟩ := Exec.total h (AFS.mkfs fl cachesize dataBitmaps inodeBitmaps logDescrBlocks) s
  refine ⟨o, ho, ?_⟩
  have hspec := wp_exec ho (AFS.mkfs_spec hn hd hi hsize fl hdisk)
  cases o with
  | failed => exact hspec.elim
  | crashed s' => exact absurd rfl (hc s')
  | collided => exact .inl rfl
  | finished s' r =>
    cases r with
    | error e => exact absurd hlog (Nat.not_le_of_lt (hspec.1 e rfl).2)
    | ok m => exact .inr ⟨s', m.1, m.2, rfl, .mkfs hn hdisk ho⟩

/-- Whatever calls are made on a file system that `mkfs` made, and whenever and however often the power fails: the tree that
is mounted in the end is the one after the first updates. An uninterrupted `recover` ends. -/
theorem crash_atomic (hi' : inodeBitmaps ≤ valulen * valulen) (h : HashKey → HashVal) :
    (∀ s, ∃ o, Exec h s (AFS.recover cachesize) o ∧ ∀ s', o ≠ .crashed s') ∧
    ∀ H T ams s, Run h dataBitmaps inodeBitmaps logDescrBlocks H T ams s → ∀ c : Call, c.Valid T → ∀ fl o,
      ExecRecover h (AFS.recover cachesize) s
        (c.run fl (AFS.computeXparams dataBitmaps inodeBitmaps logDescrBlocks SB.magicNumber) ams) o →
      Ends h (AFS.computeXparams dataBitmaps inodeBitmaps logDescrBlocks SB.magicNumber) H T c o := by
  refine ⟨fun s => Exec.total h _ s, fun H T ams s hrun c hc fl o ho => ?_⟩
  have hx := AFS.aboveZero_computeXparams dataBitmaps inodeBitmaps logDescrBlocks SB.magicNumber
  exact (hrun.inv hd hi hi' hsize).ends (AFS.fsLayout_computeXparams hd hi' hsize) hx (AFS.goodSize_computeXparams hsize) rfl
    hc fl hn ho

end Atomic

/-! ## A run that happens -/

theorem Run.congr {dataBitmaps inodeBitmaps logDescrBlocks : Nat} {h' : HashKey → HashVal}
    (hrun : Run h dataBitmaps inodeBitmaps logDescrBlocks H T ams s) (heq : ∀ k ∈ s.seen, h' k = h k) :
    Run h' dataBitmaps inodeBitmaps logDescrBlocks H T ams s := by
  induction hrun with
  | mkfs hn hdisk he => exact .mkfs hn hdisk (he.congr rfl heq)
  | call _ hc he hnext ih => exact .call (ih fun k hk => heq k (he.seen_subset rfl hk)) hc (he.congr rfl heq) hnext

theorem Run.ready_small (hrun : Run h 1 1 256 H T ams s) : ∃ st, Ready h AFS.smallFs (AFS.diskSize 1 1) st H T ams s :=
  (hrun.inv (by decide) (by decide) (by decide) (by decide)).ready

/-- For some hash function the tree is synced. -/
theorem Run.treeSync (hrun : Run h 1 1 256 H T ams s) (ha : NoCollision h s.seen) (hlen : s.seen.length + 2 ^ 18 ≤ 2 ^ 32) :
    Runs h (2 ^ 18) s (AFS.treeSync AFS.smallFs ams) := by
  have hl := AFS.fsLayout_small
  obtain ⟨st, hr⟩ := hrun.ready_small
  have hsize : ams.msLL.msLL.msVMap.size ≤ AFS.smallFs.fsxpLog.logLen := hr.mounted.log.size_le.trans (by decide)
  refine runs_of_hashes (Q := fun _ _ _ => True) (C := fun _ => True) (fun h' heq => ?_)
    ((AFS.hashes_treeSync hsize).mono (by decide)) ha (by rw [card_hashVal]; exact hlen)
  obtain ⟨st', hr'⟩ := (hrun.congr heq).ready_small
  exact wp_seq (LOG.flushall_spec hl.log hr'.mounted.log) (fun _ _ => trivial) fun _ _ _ => trivial

/-- The root with a new file. -/
def createdFile (i : Nat) : FsTree := .dir 1 [([97], .file i dirfile0)]

theorem exists_created : ∃ h i ams s, Run h 1 1 256 ⟨[(.create 1 [97], .inode (.ok i))], 0⟩ (createdFile i) ams s ∧
    NoCollision h s.seen ∧ s.seen.length ≤ 2 ^ 18 := by
  obtain ⟨h, s₀, ams, s, ams₁, s₁, i, hdisk, hexec, hcreate, ha, hlen, st, hm, _⟩ := AFS.create_small
  have hnew : ∀ q u, findSubtree q (.dir 1 [] : FsTree) = some u → u.inum ≠ i := by
    intro q u hq
    cases q with
    | nil =>
      cases hq
      rintro rfl
      have hroot : findSubtree [] (createdFile 1) = some (createdFile 1) := rfl
      have hfile : findSubtree [[97]] (createdFile 1) = some (.file 1 dirfile0) := rfl
      cases TreeRep.inodesDistinct hm.tree _ _ _ _ hroot hfile rfl
    | cons k q => cases hq
  exact ⟨h, i, ams₁, s₁, .call (c := .create 1 [97]) (.mkfs (by decide) (fun a _ => hdisk a) hexec) ⟨[], [], rfl⟩ hcreate.map
    (.update (.create (p := []) rfl rfl hnew)), ha, hlen⟩

/-- A new file is synced, and then it gets ten bytes. -/
def sized (i : Nat) : History :=
  ⟨[(.create 1 [97], .inode (.ok i)), (.fileSetAttr i tenBytes, .done (.ok ()))], 1⟩

def sizedFile (i : Nat) : FsTree := .dir 1 [([97], .file i ⟨[], tenBytes⟩)]

theorem fileSetAttr_ok {i : Nat} (hr : Ready h AFS.smallFs (AFS.diskSize 1 1) st H (createdFile i) ams s) :
    wp h (AFS.fileSetAttr false AFS.smallFs i tenBytes ams) (fun r s' => r.2 = .ok () ∧
      ∃ st', LOG.LRep h AFS.smallFs.fsxpLog (AFS.diskSize 1 1) st' r.1.msLL s' ∧ st'.cur = vmap0 ∧ st'.base = st.base ∧
        (file AFS.smallFs (ldisk st'.newest) i).attr = tenBytes) (fun _ => True) s := by
  have hl := AFS.fsLayout_small
  obtain ⟨hb, hms⟩ := AFS.TreeRep.brep hr.mounted.tree
  obtain ⟨hi, _⟩ := DIRTREE.file_eq (p := [[97]]) hr.mounted.tree rfl
  refine wp_mono (fun r s' ⟨_, hok, hst⟩ => ⟨hok, hst⟩) (fun _ _ => trivial) _ (AFS.transact_ok
    (P := fun _ _ d' => (file AFS.smallFs d' i).attr = tenBytes) hl.log (by decide) hr.mounted.log hr.mounted.idle
    (twp_seq (BFILE.setattrs_spec hl.ok hb hms hi tenBytes) fun fms d' hdone => ⟨(), rfl, ?_⟩))
  rw [hdone.self]

/-- The size is not on the disk yet, so the next sync can be interrupted. -/
theorem exists_sized : ∃ h i ams s, Run h 1 1 256 (sized i) (sizedFile i) ams s ∧
    ∃ s₁, Exec h s (AFS.treeSync AFS.smallFs ams) (.crashed s₁) := by
  obtain ⟨h₀, i, ams₀, s₀, hrun₀, ha₀, hlen₀⟩ := exists_created
  have hl := AFS.fsLayout_small
  have hlog : AFS.diskSize 1 1 ≤ AFS.smallFs.fsxpLog.logLen := by decide
  obtain ⟨h₁, heq₁, s₁, ams₁, hsync₁, ha₁, hlen₁⟩ := hrun₀.treeSync ha₀ (by omega)
  have hcall : Exec h₁ s₀ (Call.treeSync.run true AFS.smallFs ams₀) (.finished s₁ (ams₁, .synced)) := hsync₁.map
  have hrun₁ : Run h₁ 1 1 256 ⟨_, 1⟩ (createdFile i) ams₁ s₁ :=
    .call (c := .treeSync) (hrun₀.congr heq₁) trivial hcall .sync
  obtain ⟨st₁, hr₁⟩ := hrun₁.ready_small
  have hfree := AFS.hashFree_fileSetAttr AFS.smallFs i tenBytes ams₁
  obtain ⟨s₂, ⟨ams₂, r⟩, hset, hok, _⟩ := Exec.finishes hfree (fileSetAttr_ok hr₁)
  obtain rfl : r = .ok () := hok
  have hseen : s₂.seen = s₁.seen := hfree.seen_eq hset rfl
  have hrun₂ : Run h₁ 1 1 256 (sized i) (sizedFile i) ams₂ s₂ := .call (c := .fileSetAttr i tenBytes) hrun₁
    ⟨[[97]], dirfile0, rfl⟩ hset.map (.update (.fileSetAttr (p := [[97]]) (f := dirfile0) rfl))
  obtain ⟨h, heq₂, s₃, ams₃, hsync₂, _⟩ := hrun₂.treeSync (by rw [hseen]; exact ha₁) (by rw [hseen]; omega)
  refine ⟨h, i, ams₂, s₂, hrun₂.congr heq₂, ?_⟩
  -- all of it again, with the hash function of the last sync
  have heq : ∀ k ∈ s₁.seen, h k = h₁ k := fun k hk => heq₂ k (hset.seen_subset rfl hk)
  obtain ⟨st₀, hr₀⟩ := ((hrun₀.congr heq₁).congr fun k hk => heq k (hsync₁.seen_subset rfl hk)).ready_small
  have hr₁ := wp_exec (hsync₁.congr rfl heq) (wp_seq (LOG.flushall_spec hl.log hr₀.mounted.log)
    (C := fun _ => True) (fun _ _ => trivial) fun _ _ hr => hr₀.flushed hr)
  obtain ⟨_, st₂, hr₂, _, hbase, hattr⟩ := wp_exec (hset.congr rfl heq₂) (fileSetAttr_ok hr₁)
  refine AFS.crash_treeSync hl.log hlog hr₂ (fun hsame => ?_) hsync₂
  obtain ⟨_, hfile⟩ := DIRTREE.file_eq (p := [[97]]) hr₀.mounted.tree rfl
  rw [hsame, hbase, show (LogState.flush st₀).base = st₀.newest from rfl, hfile] at hattr
  have hsize := congrArg INODE.ABytes hattr
  rw [AFS.bytes_tenBytes, show INODE.ABytes dirfile0.attr = 0 from AFS.bytes_iattr0] at hsize
  exact absurd hsize (by decide)

theorem crash_atomic_small : ∃ h i ams s s₁ m, Run h 1 1 256 (sized i) (sizedFile i) ams s ∧
    Exec h s (Call.treeSync.run true AFS.smallFs ams) (.crashed s₁) ∧ PossibleCrash s₁.disk m ∧
    (∃ o, Exec h ⟨m, s₁.seen⟩ (AFS.recover 10) o ∧ ∀ s', o ≠ .crashed s') ∧
    ∀ o, ExecRecover h (AFS.recover 10) s (Call.treeSync.run true AFS.smallFs ams) o →
      Ends h AFS.smallFs (sized i) (sizedFile i) .treeSync o := by
  obtain ⟨h, i, ams, s, hrun, s₁, hcrash⟩ := exists_sized
  obtain ⟨hends, hatomic⟩ := crash_atomic (by decide : 1 ≠ 0) (by decide : 1 ≠ 0) (by decide : AFS.rawSize 1 1 256 < 2 ^ 64)
    (by decide : 10 ≠ 0) (by decide) h
  exact ⟨h, i, ams, s, s₁, _, hrun, hcrash.crash_bind rfl, Bufcache.possibleCrash_syncMem s₁.disk, hends _,
    hatomic _ _ _ _ hrun .treeSync trivial true⟩

end FsRun

end Fscq
