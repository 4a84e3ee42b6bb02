import Mathlib.Algebra.Ring.Nat
import Fscq.Dir.TreeRun

/-!
# Every block and every inode is in one place

Transactions of file and directory operations, from a disk that `BFILE.init` formatted. The root directory is allocated by
the first of them, as in `mkfs`. An operation is on a file or a directory that the tree has. A transaction in which an
operation fails is aborted: its writes are dropped, and the caches are those from before. In every reachable state each
data block is free in one of the allocators, or one block or one tree node of one inode, and each inode number is free
with an empty inode, or has one place in the tree (`blocks_owned_once`).
-/

namespace Fscq

open TxnLogic BFILE
open BmapAlloc (freeList)
open DIR (dents dirMap)
open DIRTREE (TxnState holds_tree mknode_tree delete_tree setFile_tree)
open Dirtree (findSubtree findName Rep view)

namespace Ownership

/-! ## The tree on the disk -/

/-- Handed out by the allocator of inodes, and not freed. -/
def Allocated (xp : FsXparams) (d : LDisk) (i : Nat) : Prop := i ≠ 0 ∧ i < xp.nInodes ∧ i ∉ freeList xp.fsxpInodeAlloc d

instance (xp : FsXparams) (d : LDisk) (i : Nat) : Decidable (Allocated xp d i) := by
  unfold Allocated
  infer_instance

def resolveFrom (xp : FsXparams) (d : LDisk) : List Sname → Nat × Bool → Option (Nat × Bool)
  | [], v => some v
  | _ :: _, (_, false) => none
  | name :: path, (dnum, true) => (dirMap (dents xp d dnum) name).bind (resolveFrom xp d path)

/-- The inode at a path, and if it is a directory. There is no tree before the root is allocated. -/
def resolve (xp : FsXparams) (d : LDisk) (path : List Sname) : Option (Nat × Bool) :=
  if Allocated xp d xp.fsxpRootInum then resolveFrom xp d path (xp.fsxpRootInum, true) else none

/-! ## Transactions -/

inductive Op
  | mkroot
  | grow (inum : Nat) (v : Valu)
  | shrink (inum nr : Nat)
  | truncate (inum newsz : Nat)
  | reset (inum : Nat)
  | mkfile (dnum : Nat) (name : Sname)
  | mkdir (dnum : Nat) (name : Sname)
  | delete (dnum : Nat) (name : Sname)

/-- `mkroot` is the end of `mkfs`. -/
def Op.body (xp : FsXparams) : Op → Memstate → TBody (Memstate × Except Errno Unit)
  | mkroot, ms => do
    let (ialc, r) ← IAlloc.alloc xp ms.msIAllocC
    match r with
    | none => pure (ms, .error .ENOSPCINODE)
    | some inum =>
      if inum = xp.fsxpRootInum then pure ({ ms with msIAllocC := ialc }, .ok ())
      else pure (ms, .error .ELOGOVERFLOW)
  | grow inum v, ms => BFILE.grow xp inum v ms
  | shrink inum nr, ms => do
    let ms ← BFILE.shrink xp inum nr ms
    pure (ms, .ok ())
  | truncate inum newsz, ms => BFILE.truncate xp inum newsz ms
  | reset inum, ms => do
    let ms ← BFILE.reset xp inum ms
    pure (ms, .ok ())
  | mkfile dnum name, ms => do
    let (ms, r) ← DIRTREE.mkfile xp dnum name ms
    pure (ms, r.map fun _ => ())
  | mkdir dnum name, ms => do
    let (ms, r) ← DIRTREE.mkdir xp dnum name ms
    pure (ms, r.map fun _ => ())
  | delete dnum name, ms => DIRTREE.delete xp dnum name ms

/-- Operations are on what the tree has, and there is one root. -/
def Op.Legal (xp : FsXparams) (d : LDisk) : Op → Prop
  | mkroot => ¬ Allocated xp d xp.fsxpRootInum
  | grow inum _ | shrink inum _ | truncate inum _ | reset inum => ∃ path, resolve xp d path = some (inum, false)
  | mkfile dnum _ | mkdir dnum _ | delete dnum _ => ∃ path, resolve xp d path = some (dnum, true)

/-- One operation, nothing when it fails. -/
def Op.exec (xp : FsXparams) (s : TxnState) (op : Op) : Option TxnState :=
  match (op.body xp s.ms).run s.disk with
  | ((_, .error _), _) => none
  | ((ms, .ok _), d) => some ⟨d, ms⟩

def exec (xp : FsXparams) : List Op → TxnState → Option TxnState
  | [], s => some s
  | op :: ops, s => (op.exec xp s).bind (exec xp ops)

def LegalRun (xp : FsXparams) : List Op → TxnState → Prop
  | [], _ => True
  | op :: ops, s => op.Legal xp s.disk ∧ ∀ s', op.exec xp s = some s' → LegalRun xp ops s'

/-- `fits` says whether the log takes the transaction. -/
def transact (xp : FsXparams) (fits : Bool) (ops : List Op) (s : TxnState) : TxnState :=
  if fits = true then (exec xp ops s).getD s else s

inductive Reach (xp : FsXparams) : TxnState → Prop
  | init (d : LDisk) : Reach xp ⟨((BFILE.init xp).run d).2, ((BFILE.init xp).run d).1⟩
  | transact {s : TxnState} (fits : Bool) {ops : List Op} : Reach xp s → LegalRun xp ops s →
      Reach xp (Ownership.transact xp fits ops s)
  /-- A sync changes the allocator for new blocks. -/
  | switch {s : TxnState} : Reach xp s → Reach xp ⟨s.disk, { s.ms with msAlloc := !s.ms.msAlloc }⟩

/-! ## What is owned -/

/-- In how many places a block is. -/
def places (xp : FsXparams) (d : LDisk) (bn : Nat) : Nat :=
  (freeOf xp d true).count bn + (freeOf xp d false).count bn +
    ((List.range xp.nInodes).map fun i => (blks xp d i).count bn + (inds xp d i).count bn).sum

/-- No blocks, no attributes, no pointers to tree nodes. -/
structure EmptyInode (xp : FsXparams) (d : LDisk) (i : Nat) : Prop where
  blks : blks xp d i = []
  inds : inds xp d i = []
  attrs : INODE.attrs xp d i = INODE.iattr0
  ind : INODE.irIndPtr (irec xp d i) = 0
  dind : INODE.irDindPtr (irec xp d i) = 0
  tind : INODE.irTindPtr (irec xp d i) = 0

structure OwnedOnce (xp : FsXparams) (d : LDisk) : Prop where
  block : ∀ bn, bn ≠ 0 → bn < xp.fsxpBlockAlloc1.bmapNBlocks * valulen → places xp d bn = 1
  only : ∀ bn, places xp d bn ≠ 0 → bn ≠ 0 ∧ bn < xp.fsxpBlockAlloc1.bmapNBlocks * valulen
  inode : ∀ i, i ≠ 0 → i < xp.nInodes →
    (i ∈ freeList xp.fsxpInodeAlloc d ∧ EmptyInode xp d i ∧ ∀ path v, resolve xp d path = some v → v.1 ≠ i) ∨
    (i ∉ freeList xp.fsxpInodeAlloc d ∧ ∃! path, ∃ isdir, resolve xp d path = some (i, isdir))

/-! ## Where the tree is -/

variable {xp : FsXparams} {n : Nat} {d : LDisk} {ms : Memstate} {T : FsTree} {Z : FsNodes}

theorem allocated_iff (hr : NodeRep xp d ms Z) {i : Nat} : Allocated xp d i ↔ Z i ≠ none := by
  constructor
  · rintro ⟨h0, hlt, hfree⟩ hz
    exact hfree ((hr.free i h0 hlt).mpr hz)
  · intro hz
    obtain ⟨c, hc⟩ := Option.ne_none_iff_exists'.mp hz
    obtain ⟨h0, hlt⟩ := hr.valid i c hc
    exact ⟨h0, hlt, hr.not_free hc⟩

theorem resolve_noTree (hr : NodeRep xp d ms fun _ => none) (path : List Sname) : resolve xp d path = none :=
  if_neg fun h => (allocated_iff hr).mp h rfl

theorem resolveFrom_eq (hr : NodeRep xp d ms Z) (hrep : Rep (fun p => view p T) Z) (path : List Sname) :
    ∀ {q : List Sname} {u : FsTree}, findSubtree q T = some u → resolveFrom xp d path (u.inum, u.isdir) = findName path u := by
  induction path with
  | nil =>
    intro q u _
    rw [resolveFrom, Dirtree.findName_eq, Dirtree.findSubtree_nil]
    rfl
  | cons name path ih =>
    intro q u hq
    cases u with
    | file i f => rfl
    | dir i ents =>
      have hmap : dirMap (dents xp d i) name = (Dirtree.findDirlist name ents).map fun c => (c.inum, c.isdir) := by
        rw [hr.dirMap_eq ((holds_tree hrep).dir hq), Dirtree.lookup_map_entry]
      rw [Dirtree.findName_eq, Dirtree.findSubtree_cons_dir]
      change (dirMap (dents xp d i) name).bind (resolveFrom xp d path) = _
      rw [hmap]
      cases hc : Dirtree.findDirlist name ents with
      | none => rfl
      | some c =>
        have hqc : findSubtree (q ++ [name]) T = some c := by
          rw [Dirtree.findSubtree_append, hq]
          simp [hc]
        rw [Option.map_some, Option.bind_some, ih hqc, Dirtree.findName_eq]
        rfl

/-- Paths on the disk are paths of the tree. -/
theorem resolve_eq (ht : TreeRep xp d ms T) (hd : T.isdir = true) (path : List Sname) :
    resolve xp d path = findName path T := by
  obtain ⟨Z, hr, hrep⟩ := ht.nodes
  have hroot : Allocated xp d xp.fsxpRootInum := by
    rw [allocated_iff hr, ← ht.root, (holds_tree hrep).node (p := []) (Dirtree.findSubtree_nil T)]
    exact Option.some_ne_none _
  rw [resolve, if_pos hroot, ← ht.root, ← hd]
  exact resolveFrom_eq hr hrep path (q := []) (Dirtree.findSubtree_nil T)

theorem exists_file (ht : TreeRep xp d ms T) (hd : T.isdir = true) {path : List Sname} {inum : Nat}
    (h : resolve xp d path = some (inum, false)) : ∃ f, findSubtree path T = some (.file inum f) := by
  rw [resolve_eq ht hd, Dirtree.findName_eq, Option.map_eq_some_iff] at h
  obtain ⟨u, hu, hv⟩ := h
  cases u with
  | file i f =>
    cases hv
    exact ⟨f, hu⟩
  | dir i ents => cases hv

theorem exists_dir (ht : TreeRep xp d ms T) (hd : T.isdir = true) {path : List Sname} {dnum : Nat}
    (h : resolve xp d path = some (dnum, true)) : ∃ ents, findSubtree path T = some (.dir dnum ents) :=
  DIRTREE.find_of_findName ((resolve_eq ht hd path).symm.trans h)

/-! ## The invariant -/

/-- Nothing is allocated, or the disk holds a tree. -/
inductive Inv (xp : FsXparams) (d : LDisk) (ms : Memstate) : Prop
  | noTree : NodeRep xp d ms (fun _ => none) → Inv xp d ms
  | tree {T : FsTree} : TreeRep xp d ms T → T.isdir = true → Inv xp d ms

theorem Inv.nodes (h : Inv xp d ms) : ∃ Z, NodeRep xp d ms Z := by
  cases h with
  | noTree hr => exact ⟨_, hr⟩
  | tree ht _ =>
    obtain ⟨Z, hr, _⟩ := ht.nodes
    exact ⟨Z, hr⟩

/-- What a legal path finds is in the tree. -/
theorem Inv.find_file (h : Inv xp d ms) {inum : Nat} (hl : ∃ path, resolve xp d path = some (inum, false)) :
    ∃ T path f, TreeRep xp d ms T ∧ T.isdir = true ∧ findSubtree path T = some (.file inum f) := by
  obtain ⟨path, hpath⟩ := hl
  cases h with
  | noTree hr =>
    rw [resolve_noTree hr] at hpath
    cases hpath
  | tree ht hd =>
    obtain ⟨f, hf⟩ := exists_file ht hd hpath
    exact ⟨_, path, f, ht, hd, hf⟩

theorem Inv.find_dir (h : Inv xp d ms) {dnum : Nat} (hl : ∃ path, resolve xp d path = some (dnum, true)) :
    ∃ T path ents, TreeRep xp d ms T ∧ T.isdir = true ∧ findSubtree path T = some (.dir dnum ents) := by
  obtain ⟨path, hpath⟩ := hl
  cases h with
  | noTree hr =>
    rw [resolve_noTree hr] at hpath
    cases hpath
  | tree ht hd =>
    obtain ⟨ents, hents⟩ := exists_dir ht hd hpath
    exact ⟨_, path, ents, ht, hd, hents⟩

theorem Inv.update {new : FsTree} {path : List Sname} {old : FsTree} (ht : TreeRep xp d ms (Dirtree.updateSubtree path new T))
    (hd : T.isdir = true) (hp : findSubtree path T = some old) (hi : new.inum = old.inum) (hk : new.isdir = old.isdir) :
    Inv xp d ms :=
  .tree ht ((Dirtree.updateSubtree_root hp hi hk).2.trans hd)

/-! ### One operation -/

section Step

variable (hxp : xp.Ok n)
include hxp

/-- The root is an empty directory. -/
theorem mkroot_tree (hr : NodeRep xp d ms fun _ => none) : twp n (Op.mkroot.body xp ms)
    (fun r d' => ∀ a, r.2 = .ok a → TreeRep xp d' r.1 (.dir xp.fsxpRootInum [])) d := by
  refine twp_seq (NodeRep.ialloc_spec hxp hr) ?_
  rintro ⟨ialc, r⟩ d₁ halloc
  cases r with
  | none => exact fun _ h => by cases h
  | some inum =>
    obtain ⟨_, _, _, _, hdone⟩ := halloc inum rfl
    by_cases hroot : inum = xp.fsxpRootInum
    · subst hroot
      simp only [if_true]
      intro _ _
      exact ⟨⟨_, (hdone (.dir []) (.inr rfl)).rep, Rep.single (s := .dir xp.fsxpRootInum []) (fun _ => rfl) rfl⟩, rfl⟩
    · simp only [if_neg hroot]
      exact fun _ h => by cases h

theorem mkroot_inv (h : Inv xp d ms) (hl : ¬ Allocated xp d xp.fsxpRootInum) :
    twp n (Op.mkroot.body xp ms) (fun r d' => ∀ a, r.2 = .ok a → Inv xp d' r.1) d := by
  cases h with
  | tree ht hd =>
    obtain ⟨Z, hr, hrep⟩ := ht.nodes
    refine absurd ((allocated_iff hr).mpr ?_) hl
    rw [← ht.root, (holds_tree hrep).node (p := []) (Dirtree.findSubtree_nil _)]
    exact Option.some_ne_none _
  | noTree hr => exact twp_mono (fun r d' hres a hok => .tree (hres a hok) rfl) _ (mkroot_tree hxp hr)

omit hxp in
theorem file_inv {α : Type} {p : TBody (Memstate × Except Errno α)} {inum : Nat} (h : Inv xp d ms)
    (hl : ∃ path, resolve xp d path = some (inum, false))
    (hp : ∀ extra, BRep xp d extra → MsRep xp d ms → inum < xp.nInodes →
      twp n p (fun r d' => ∀ a, r.2 = .ok a → ∃ f, FileDone xp inum f ms d r.1 d') d) :
    twp n p (fun r d' => ∀ a, r.2 = .ok a → Inv xp d' r.1) d := by
  obtain ⟨T, path, f, ht, hd, hf⟩ := h.find_file hl
  obtain ⟨Z, hr, hrep⟩ := ht.nodes
  have hlt := (hr.valid inum _ ((holds_tree hrep).node hf)).2
  refine twp_mono (fun r d' hres a hok => ?_) _ (hp [] hr.brep hr.msrep hlt)
  obtain ⟨f', hdone⟩ := hres a hok
  exact Inv.update (DIRTREE.fileDone_tree ht hf hdone).rep hd hf rfl rfl

theorem reset_inv {inum : Nat} (h : Inv xp d ms) (hl : ∃ path, resolve xp d path = some (inum, false)) :
    twp n ((Op.reset inum).body xp ms) (fun r d' => ∀ a, r.2 = .ok a → Inv xp d' r.1) d := by
  obtain ⟨T, path, f, ht, hd, hf⟩ := h.find_file hl
  obtain ⟨Z, hr, hrep⟩ := ht.nodes
  have hlt := (hr.valid inum _ ((holds_tree hrep).node hf)).2
  refine twp_seq (BFILE.reset_spec hxp hr.brep hr.msrep hlt) ?_
  rintro ms₁ d₁ hreset _ _
  refine Inv.update (setFile_tree ht hf hreset.toFileStep hreset.msrep (fun i hi => ?_) fun _ => ?_) hd hf rfl rfl
  · rw [hreset.cache_eq, Bufcache.getElem?_erase', if_neg fun h => hi h.symm]
  · rw [hreset.cache_eq, Bufcache.getElem?_erase', if_pos rfl]

theorem mknode_inv (hino : xp.nInodes ≤ 2 ^ 64) {dnum : Nat} (h : Inv xp d ms)
    (hl : ∃ path, resolve xp d path = some (dnum, true)) (isdir : Bool) (name : Sname) :
    twp n (DIRTREE.mknode xp dnum isdir name ms) (fun r d' => ∀ a, r.2 = .ok a → Inv xp d' r.1) d := by
  obtain ⟨T, path, ents, ht, hd, hp⟩ := h.find_dir hl
  refine twp_mono (fun r d' hres inum hok => ?_) _ (mknode_tree hxp ht hp hino isdir name)
  exact Inv.update (hres inum hok).2.2.rep hd hp rfl rfl

theorem delete_inv {dnum : Nat} (h : Inv xp d ms) (hl : ∃ path, resolve xp d path = some (dnum, true)) (name : Sname) :
    twp n (DIRTREE.delete xp dnum name ms) (fun r d' => ∀ a, r.2 = .ok a → Inv xp d' r.1) d := by
  obtain ⟨T, path, ents, ht, hd, hp⟩ := h.find_dir hl
  refine twp_mono (fun r d' hres a hok => ?_) _ (delete_tree hxp ht hp name)
  obtain ⟨c, _, _, hdone⟩ := hres hok
  exact Inv.update hdone.rep hd hp rfl rfl

theorem Op.body_inv (hino : xp.nInodes ≤ 2 ^ 64) (h : Inv xp d ms) {op : Op} (hl : op.Legal xp d) :
    twp n (op.body xp ms) (fun r d' => ∀ a, r.2 = .ok a → Inv xp d' r.1) d := by
  cases op with
  | mkroot => exact mkroot_inv hxp h hl
  | grow inum v =>
    refine file_inv h hl fun extra hb hm hi => ?_
    exact twp_mono (fun r d' hres a hok => ⟨_, (hres.1 hok).toFileDone⟩) _ (BFILE.grow_spec hxp hb hm hi v)
  | shrink inum nr =>
    refine file_inv h hl fun extra hb hm hi => ?_
    exact twp_seq (BFILE.shrink_spec hxp hb hm hi nr) fun _ _ hdone _ _ => ⟨_, hdone.toFileDone⟩
  | truncate inum newsz =>
    refine file_inv h hl fun extra hb hm hi => ?_
    exact twp_mono (fun r d' hres a hok => ⟨_, (hres.ok hok).1⟩) _ (BFILE.truncate_spec hxp hb hm hi newsz)
  | reset inum => exact reset_inv hxp h hl
  | mkfile dnum name =>
    refine twp_seq (mknode_inv hxp hino h hl false name) ?_
    rintro ⟨ms₁, r⟩ d₁ hres a hok
    cases r with
    | ok inum => exact hres inum rfl
    | error e => cases hok
  | mkdir dnum name =>
    refine twp_seq (mknode_inv hxp hino h hl true name) ?_
    rintro ⟨ms₁, r⟩ d₁ hres a hok
    cases r with
    | ok inum => exact hres inum rfl
    | error e => cases hok
  | delete dnum name => exact delete_inv hxp h hl name

end Step

/-! ### Runs -/

variable {s : TxnState}

theorem Op.exec_of_body {op : Op} {P : LDisk → Memstate → Prop}
    (h : twp n (op.body xp s.ms) (fun r d' => ∀ a, r.2 = .ok a → P d' r.1) s.disk) {s' : TxnState}
    (he : op.exec xp s = some s') : P s'.disk s'.ms := by
  have hrun := twp_run h
  rw [Op.exec] at he
  generalize (op.body xp s.ms).run s.disk = x at hrun he
  obtain ⟨⟨ms, r⟩, d⟩ := x
  cases r with
  | error e => cases he
  | ok a =>
    cases he
    exact hrun a rfl

theorem exec_inv (hxp : xp.Ok n) (hino : xp.nInodes ≤ 2 ^ 64) {ops : List Op} (h : Inv xp s.disk s.ms)
    (hl : LegalRun xp ops s) {s' : TxnState} (he : exec xp ops s = some s') : Inv xp s'.disk s'.ms := by
  induction ops generalizing s with
  | nil =>
    cases he
    exact h
  | cons op ops ih =>
    rw [exec, Option.bind_eq_some_iff] at he
    obtain ⟨s₁, hop, he⟩ := he
    exact ih (op.exec_of_body (op.body_inv hxp hino h hl.1) hop) (hl.2 s₁ hop) he

theorem Reach.inv (hxp : xp.Ok n) (hino : xp.nInodes ≤ 2 ^ 64) (h : Reach xp s) : Inv xp s.disk s.ms := by
  induction h with
  | init d => exact .noTree (AFS.nodeRep_init (twp_run (BFILE.init_spec (d := d) hxp)))
  | @transact s fits ops _ hl ih =>
    rw [Ownership.transact]
    split
    · cases he : exec xp ops s with
      | none => exact ih
      | some s' => exact exec_inv hxp hino ih hl he
    · exact ih
  | switch _ ih =>
    cases ih with
    | noTree hr => exact .noTree hr.switch
    | tree ht hd =>
      obtain ⟨Z, hr, hrep⟩ := ht.nodes
      exact .tree ⟨⟨Z, hr.switch, hrep⟩, ht.root⟩ hd

/-! ## Every block and every inode -/

theorem places_eq (hb : BRep xp d []) (bn : Nat) : places xp d bn = (List.range' 1 (xp.dataSize - 1)).count bn := by
  have hused : ∀ i, (blks xp d i).count bn + (inds xp d i).count bn = (used xp d i).count bn := fun i => by
    rw [used, List.count_append]
  rw [← hb.own.count_eq, List.nil_append, List.count_append, List.count_append, owned, List.count_flatMap, places, Nat.add_assoc]
  simp only [hused, Function.comp_def]

/-- A free inode has nothing. -/
theorem emptyInode (hr : NodeRep xp d ms Z) {i : Nat} (hi : i < xp.nInodes) (hf : i ∈ freeList xp.fsxpInodeAlloc d) :
    EmptyInode xp d i := by
  have hempty := hr.empty i hi hf
  have hused := used_eq_nil hr.brep hi hempty
  rw [used, List.append_eq_nil_iff] at hused
  have hrec := hr.brep.irep i hi
  have hlen : INODE.irLen (irec xp d i) = 0 := by
    rw [← BlockPtr.length_blockList d, ← List.length_map (f := BitVec.toNat)]
    exact List.length_eq_zero_iff.mpr hused.1
  refine ⟨hused.1, hused.2, congrArg File.attr hempty, hrec.ind ?_, hrec.dind ?_, hrec.tind ?_⟩
  all_goals omega

theorem Inv.ownedOnce (hxp : xp.Ok n) (h : Inv xp d ms) : OwnedOnce xp d := by
  obtain ⟨Z, hr⟩ := h.nodes
  have hsize : xp.fsxpBlockAlloc1.bmapNBlocks * valulen = xp.dataSize := rfl
  have hpos := hxp.dataSize_pos
  refine ⟨fun bn h0 hlt => ?_, fun bn hbn => ?_, fun i h0 hlt => ?_⟩
  · rw [places_eq hr.brep]
    refine List.count_eq_one_of_mem List.nodup_range' ?_
    rw [List.mem_range'_1]
    omega
  · rw [places_eq hr.brep] at hbn
    have hmem := List.count_pos_iff.mp (Nat.pos_of_ne_zero hbn)
    rw [List.mem_range'_1] at hmem
    omega
  · cases h with
    | noTree hr₀ =>
      have hfree := (hr₀.free i h0 hlt).mpr rfl
      refine .inl ⟨hfree, emptyInode hr₀ hlt hfree, fun path v hv => ?_⟩
      rw [resolve_noTree hr₀] at hv
      cases hv
    | @tree T ht hd =>
      obtain ⟨Z, hr, hrep⟩ := ht.nodes
      by_cases hfree : i ∈ freeList xp.fsxpInodeAlloc d
      · refine .inl ⟨hfree, emptyInode hr hlt hfree, ?_⟩
        rintro path v hv rfl
        rw [resolve_eq ht hd, Dirtree.findName_eq, Option.map_eq_some_iff] at hv
        obtain ⟨u, hu, rfl⟩ := hv
        exact hr.not_free ((holds_tree hrep).node hu) hfree
      · have hz : Z i ≠ none := fun hz => hfree ((hr.free i h0 hlt).mpr hz)
        obtain ⟨c, hc⟩ := Option.ne_none_iff_exists'.mp hz
        obtain ⟨path, hview⟩ := hrep.surj hc
        obtain ⟨u, hu, hlab⟩ := Option.map_eq_some_iff.mp hview
        have hnum : u.inum = i := by rw [← Dirtree.label_fst, hlab]
        refine .inr ⟨hfree, path, ⟨u.isdir, ?_⟩, ?_⟩
        · rw [resolve_eq ht hd, Dirtree.findName_eq, hu, ← hnum]
          rfl
        · rintro path' ⟨isdir, hpath'⟩
          rw [resolve_eq ht hd, Dirtree.findName_eq, Option.map_eq_some_iff] at hpath'
          obtain ⟨u', hu', hv⟩ := hpath'
          refine hrep.inodesDistinct _ _ _ _ hu' hu ?_
          rw [hnum, (Prod.mk.inj hv).1]

/-- In every reachable state a block has one place, and an inode is free and empty or has one path. -/
theorem blocks_owned_once (hxp : xp.Ok n) (hino : xp.nInodes ≤ 2 ^ 64) (h : Reach xp s) : OwnedOnce xp s.disk :=
  (h.inv hxp hino).ownedOnce hxp

/-- After formatting, the root is allocated and a file is made in it. -/
theorem legalRun_init (hxp : xp.Ok n) (h : InitDone xp ms d) (h0 : xp.fsxpRootInum ≠ 0) (hlt : xp.fsxpRootInum < xp.nInodes)
    (name : Sname) : LegalRun xp [.mkroot, .mkfile xp.fsxpRootInum name] ⟨d, ms⟩ := by
  refine ⟨fun hroot => hroot.2.2 ((h.ialloc _).mpr ⟨hlt, h0⟩), fun s' he => ⟨⟨[], ?_⟩, fun _ _ => trivial⟩⟩
  have ht := Op.mkroot.exec_of_body (P := fun d ms => TreeRep xp d ms (.dir xp.fsxpRootInum []))
    (mkroot_tree hxp (AFS.nodeRep_init h)) he
  rw [resolve_eq ht rfl]
  rfl

theorem blocks_owned_once_small :
    OwnedOnce smallXp (transact smallXp true [.mkroot, .mkfile 1 [97]] ⟨formatted.2, formatted.1⟩).disk :=
  blocks_owned_once smallXp_ok (by decide)
    (.transact true (.init _) (legalRun_init smallXp_ok formatted_done (by decide) (by decide) [97]))

end Ownership

end Fscq
