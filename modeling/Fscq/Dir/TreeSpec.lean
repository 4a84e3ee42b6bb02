import Fscq.Dir.DirTree

/-!
# The directory layer refines the tree

`TreeRep xp d ms T` says that the disk and the caches hold the directory tree `T`: its nodes are the allocated inodes. Each
operation is an edit of `T`: `mkfile` and `mkdir` graft a new leaf, `delete` prunes one, `rename` prunes and grafts, and
`namei` is `findName`.
-/

namespace Fscq

open TxnLogic BFILE
open BmapAlloc (freeList)
open Dirtree (Kind Rep view view₂ findSubtree findName findDirlist entry Leaf NamesDistinct InodesDistinct treePrune treeGraft
  deleteFromList addToList label)

abbrev FsTree : Type := Dirtree Sname File

/-- The disk holds the tree, and its root is the root of the file system. -/
structure TreeRep (xp : FsXparams) (d : LDisk) (ms : Memstate) (T : FsTree) : Prop where
  nodes : ∃ Z, NodeRep xp d ms Z ∧ Rep (fun p => view p T) Z
  root : T.inum = xp.fsxpRootInum

/-- The tree after a program, with what direct writes rely on. -/
structure TreeDone (xp : FsXparams) (T : FsTree) (ms : Memstate) (d : LDisk) (ms' : Memstate) (d' : LDisk) : Prop where
  rep : TreeRep xp d' ms' T
  alloc_eq : ms'.msAlloc = ms.msAlloc
  safe : Safe xp ms.msAlloc d d'

namespace TreeRep

variable {xp : FsXparams} {d : LDisk} {ms ms' : Memstate} {T : FsTree}

theorem setCaches (ht : TreeRep xp d ms T) (hm : MsRep xp d ms') (hc : ms'.msCache = ms.msCache) : TreeRep xp d ms' T := by
  obtain ⟨Z, hr, hrep⟩ := ht.nodes
  exact ⟨⟨Z, hr.setCaches hm hc, hrep⟩, ht.root⟩

theorem icacheOnly (ht : TreeRep xp d ms T) (ho : IcacheOnly ms ms') (hm : MsRep xp d ms') : TreeRep xp d ms' T := by
  refine ht.setCaches hm ?_
  obtain ⟨ic, rfl⟩ := ho
  rfl

theorem switch (ht : TreeRep xp d ms T) : TreeRep xp d { ms with msAlloc := !ms.msAlloc } T := by
  obtain ⟨Z, hr, hrep⟩ := ht.nodes
  exact ⟨⟨Z, hr.switch, hrep⟩, ht.root⟩

theorem recovered (ht : TreeRep xp d ms T) (hp : ∀ a, d.plain a) : TreeRep xp d msEmpty T := by
  obtain ⟨Z, hr, hrep⟩ := ht.nodes
  exact ⟨⟨Z, hr.recovered hp, hrep⟩, ht.root⟩

end TreeRep

namespace Dirtree

variable {N F : Type} [DecidableEq N]

theorem lookup_map_entry [BEq N] [LawfulBEq N] (ents : List (N × Dirtree N F)) (name : N) :
    (ents.map entry).lookup name = (findDirlist name ents).map fun c => (c.inum, c.isdir) := by
  induction ents with
  | nil => rfl
  | cons e ents ih =>
    obtain ⟨k, c⟩ := e
    rw [List.map_cons, List.lookup_cons, ih, findDirlist]
    by_cases h : k = name
    · simp [entry, h]
    · have hbeq : (name == k) = false := by simpa using fun h' => h h'.symm
      simp [entry, hbeq, h]

theorem Rep.inodesDistinct {t : Dirtree N F} {Z : Nodes N F} (hr : Rep (fun p => view p t) Z) : InodesDistinct t := by
  intro p q u v hu hv hi
  have hu' : view p t = some (u.inum, u.label.2) := by rw [view_of_find hu, ← label_fst]
  have hv' : view q t = some (u.inum, v.label.2) := by rw [view_of_find hv, hi, ← label_fst]
  exact hr.inj hu' hv'

end Dirtree

namespace DIRTREE

variable {xp : FsXparams} {n : Nat} {d : LDisk} {ms : Memstate} {T : FsTree}

/-! ## A tree among the nodes -/

/-- The tree `t` is among the nodes `Z`, with the path `φ p` for `p`. -/
structure Holds {ι : Type} (V : ι → Option (Nat × FsKind)) (Z : FsNodes) (φ : List Sname → ι) (t : FsTree) : Prop where
  rep : Rep V Z
  path : ∀ p, V (φ p) = view p t
  inj : ∀ p q, φ p = φ q → p = q

section Holds

variable {ι : Type} {V : ι → Option (Nat × FsKind)} {Z : FsNodes} {φ : List Sname → ι} {t u : FsTree} {p : List Sname}
  (hh : Holds V Z φ t)
include hh

theorem Holds.node (hp : findSubtree p t = some u) : Z u.inum = some u.label.2 :=
  hh.rep.node (k := φ p) (by rw [hh.path, Dirtree.view_of_find hp, ← Dirtree.label_fst])

theorem Holds.dir {i : Nat} {ents : List (Sname × FsTree)} (hp : findSubtree p t = some (.dir i ents)) :
    Z i = some (.dir (ents.map entry)) := hh.node hp

theorem Holds.namesDistinct (hr : NodeRep xp d ms Z) : NamesDistinct t :=
  hh.rep.namesDistinct (fun _ _ hi => hr.names_nodup hi) φ hh.path

/-- What the entries of a directory say is right. -/
theorem Holds.entryOk {i : Nat} {ents : List (Sname × FsTree)} (hp : findSubtree p t = some (.dir i ents)) {name : Sname}
    {c : FsTree} (hc : findDirlist name ents = some c) : EntryOk Z i (c.inum, c.isdir) := by
  have hpc : findSubtree (p ++ [name]) t = some c := by
    rw [Dirtree.findSubtree_append, hp]
    simp [hc]
  refine ⟨fun he => ?_, c.label.2, hh.node hpc, Dirtree.label_isdir c⟩
  have hchild : V (φ (p ++ [name])) = some (i, c.label.2) := by
    simp only at he
    rw [hh.path, Dirtree.view_of_find hpc, ← he, ← Dirtree.label_fst]
  have hself : V (φ p) = some (i, .dir (ents.map entry)) := by
    rw [hh.path, Dirtree.view_of_find hp]
    rfl
  have hlen := congrArg List.length (hh.inj _ _ (hh.rep.inj hchild hself))
  simp at hlen

theorem Holds.entriesOk {i : Nat} {ents : List (Sname × FsTree)} (hp : findSubtree p t = some (.dir i ents)) {name : Sname}
    (v : Nat × Bool) (hv : (ents.map entry).lookup name = some v) : EntryOk Z i v := by
  rw [Dirtree.lookup_map_entry, Option.map_eq_some_iff] at hv
  obtain ⟨c, hc, rfl⟩ := hv
  exact hh.entryOk hp hc

end Holds

theorem holds_tree {Z : FsNodes} (hr : Rep (fun p => view p T) Z) : Holds (fun p => view p T) Z id T :=
  ⟨hr, fun _ => rfl, fun _ _ h => h⟩

theorem holds_pruned {Z : FsNodes} {S : FsTree} (hr : Rep (view₂ T S) Z) : Holds (view₂ T S) Z Sum.inl T :=
  ⟨hr, fun _ => rfl, fun _ _ h => Sum.inl.inj h⟩

/-- A subtree of a tree among the nodes. -/
theorem Holds.sub {ι : Type} {V : ι → Option (Nat × FsKind)} {Z : FsNodes} {φ : List Sname → ι} {t u : FsTree}
    {cwd : List Sname} (hh : Holds V Z φ t) (hcwd : findSubtree cwd t = some u) : Holds V Z (fun p => φ (cwd ++ p)) u := by
  refine ⟨hh.rep, fun p => ?_, fun p q h => List.append_cancel_left (hh.inj _ _ h)⟩
  rw [hh.path, Dirtree.view_append, hcwd, Option.bind_some]

/-! ## Resolving paths -/

section Namei

variable {ι : Type} {V : ι → Option (Nat × FsKind)} {Z : FsNodes} {φ : List Sname → ι} {t : FsTree}

/-- Where the walk is after the path `pre`. -/
def WalkAt (xp : FsXparams) (Z : FsNodes) (t : FsTree) (ms : Memstate) (d : LDisk) (pre : List Sname)
    (r : Memstate × Nat × Bool × Except Errno Unit) : Prop :=
  NodeDone xp Z ms d r.1 d ∧
    match r.2.2.2 with
    | .ok _ => ∃ u, findSubtree pre t = some u ∧ r.2.1 = u.inum ∧ r.2.2.1 = u.isdir
    | .error _ => findSubtree pre t = none

theorem nameiStep_spec (hxp : xp.Ok n) (hh : Holds V Z φ t) {pre : List Sname} (fn : Sname)
    {r : Memstate × Nat × Bool × Except Errno Unit} (hw : WalkAt xp Z t ms d pre r) :
    twp n (nameiStep xp fn r) (fun r' d' => d' = d ∧ WalkAt xp Z t ms d (pre ++ [fn]) r') d := by
  obtain ⟨ms₁, inum, isdir, valid⟩ := r
  obtain ⟨hdone, hat⟩ := hw
  cases valid with
  | error e =>
    refine ⟨rfl, hdone, ?_⟩
    have hnone : findSubtree pre t = none := hat
    show findSubtree (pre ++ [fn]) t = none
    rw [Dirtree.findSubtree_append, hnone, Option.bind_none]
  | ok _ =>
    obtain ⟨u, hu, hi, hd⟩ := hat
    simp only at hi hd
    subst hi hd
    rw [nameiStep]
    cases u with
    | file i f =>
      refine ⟨rfl, hdone, ?_⟩
      show findSubtree (pre ++ [fn]) t = none
      rw [Dirtree.findSubtree_append, hu, Option.bind_some, Dirtree.findSubtree_cons_file]
    | dir i ents =>
      simp only [Dirtree.isdir, if_pos, Dirtree.inum]
      refine twp_seq (NodeRep.lookup_spec hxp hdone.rep (hh.dir hu) fn) fun ⟨ms₂, res⟩ d₂ ⟨hd, hdone₂, hres⟩ => ?_
      subst hd
      simp only [Dirtree.lookup_map_entry] at hres
      subst hres
      have hnext : findSubtree (pre ++ [fn]) t = findDirlist fn ents := by
        rw [Dirtree.findSubtree_append, hu, Option.bind_some, Dirtree.findSubtree_cons_dir]
        cases findDirlist fn ents <;> simp
      cases hc : findDirlist fn ents with
      | none =>
        refine ⟨rfl, hdone.trans hdone₂, ?_⟩
        exact hnext.trans hc
      | some c =>
        refine ⟨rfl, hdone.trans hdone₂, c, ?_, rfl, rfl⟩
        exact hnext.trans hc

/-- `namei` finds what the tree has at the path, and fails if it has nothing there. -/
theorem namei_spec (hxp : xp.Ok n) (hr : NodeRep xp d ms Z) (hh : Holds V Z φ t) (ht : t.isdir = true) (path : List Sname) :
    twp n (namei xp t.inum path ms) (fun r d' => d' = d ∧ NodeDone xp Z ms d r.1 d ∧
      ∀ v, r.2 = .ok v ↔ findName path t = some v) d := by
  have hloop := twp_forEach (n := n) (d := d) (f := nameiStep xp) path
    (I := fun rest r d' => d' = d ∧ ∃ pre, pre ++ rest = path ∧ WalkAt xp Z t ms d pre r) (l := (ms, t.inum, true, .ok ()))
    ?_ ⟨rfl, [], rfl, .refl hr, t, Dirtree.findSubtree_nil t, rfl, ht.symm⟩
  · refine twp_seq hloop fun ⟨ms', inum, isdir, valid⟩ d' ⟨hd, pre, hpre, hdone, hat⟩ => ?_
    subst hd
    rw [List.append_nil] at hpre
    subst hpre
    cases valid with
    | ok _ =>
      obtain ⟨u, hu, hi, hd⟩ := hat
      simp only at hi hd
      subst hi hd
      refine ⟨rfl, hdone, fun v => ?_⟩
      rw [Dirtree.findName_eq, hu]
      simp
    | error e =>
      have hnone : findSubtree pre t = none := hat
      refine ⟨rfl, hdone, fun v => ?_⟩
      rw [Dirtree.findName_eq, hnone]
      simp
  · rintro fn rest r d₁ _ ⟨hd, pre, hpre, hw⟩
    subst hd
    refine twp_mono (fun r' d' ⟨hd, hw'⟩ => ⟨hd, pre ++ [fn], ?_, hw'⟩) _ (nameiStep_spec hxp hh fn hw)
    rw [List.append_assoc]
    exact hpre

end Namei

/-! ## Edits -/

/-- A new node as a tree. -/
def newTree (isdir : Bool) (inum : Nat) : FsTree := if isdir then .dir inum [] else .file inum dirfile0

@[simp] theorem inum_newTree (isdir : Bool) (inum : Nat) : (newTree isdir inum).inum = inum := by cases isdir <;> rfl

@[simp] theorem isdir_newTree (isdir : Bool) (inum : Nat) : (newTree isdir inum).isdir = isdir := by cases isdir <;> rfl

theorem label_newTree (isdir : Bool) (inum : Nat) : (newTree isdir inum).label.2 = newKind isdir := by cases isdir <;> rfl

theorem leaf_newTree (isdir : Bool) (inum : Nat) : Leaf (newTree isdir inum) := by
  cases isdir
  · trivial
  · exact rfl

/-- What is checked before an entry is removed. -/
theorem Holds.leaf {ι : Type} {V : ι → Option (Nat × FsKind)} {Z : FsNodes} {φ : List Sname → ι} {t c : FsTree}
    {p : List Sname} {i : Nat} {ents : List (Sname × FsTree)} {name : Sname} (hh : Holds V Z φ t)
    (hp : findSubtree p t = some (.dir i ents)) (hc : findDirlist name ents = some c)
    (hempty : c.isdir = true → Z c.inum = some (.dir [])) : Leaf c := by
  cases c with
  | file j f => trivial
  | dir j es =>
    have hpc : findSubtree (p ++ [name]) t = some (.dir j es) := by
      rw [Dirtree.findSubtree_append, hp, Option.bind_some, Dirtree.findSubtree_cons_dir, hc, Option.bind_some,
        Dirtree.findSubtree_nil]
    have hz : some (Kind.dir (es.map entry)) = some (Kind.dir []) := (hh.dir hpc).symm.trans (hempty rfl)
    simp only [Option.some.injEq, Kind.dir.injEq, List.map_eq_nil_iff] at hz
    exact hz

section Edits

variable {p : List Sname} {dnum : Nat} {ents : List (Sname × FsTree)}

theorem addToList_entries (name : Sname) (s : FsTree) (ents : List (Sname × FsTree)) :
    ((addToList name s ents).map entry).Perm ((name, (s.inum, s.isdir)) :: (deleteFromList name ents).map entry) :=
  (Dirtree.addToList_perm name s ents).map entry

theorem deleteFromList_entries {name : Sname} {c : FsTree} (h : findDirlist name ents = some c) :
    (ents.map entry).Perm ((name, (c.inum, c.isdir)) :: (deleteFromList name ents).map entry) :=
  (Dirtree.deleteFromList_perm h).map entry

theorem root_update {new : FsTree} (hp : findSubtree p T = some (.dir dnum ents)) (hi : new.inum = dnum)
    (hd : new.isdir = true) : (Dirtree.updateSubtree p new T).inum = T.inum := (Dirtree.updateSubtree_root hp hi hd).1

variable (hxp : xp.Ok n) (ht : TreeRep xp d ms T) (hp : findSubtree p T = some (.dir dnum ents))
include hxp ht hp

/-- A fresh leaf is grafted. -/
theorem mknode_tree (hino : xp.nInodes ≤ 2 ^ 64) (isdir : Bool) (name : Sname) :
    twp n (mknode xp dnum isdir name ms) (fun r d' => ∀ inum, r.2 = .ok inum → findDirlist name ents = none ∧
      (∀ q u, findSubtree q T = some u → u.inum ≠ inum) ∧
      TreeDone xp (treeGraft dnum ents p name (newTree isdir inum) T) ms d r.1 d') d := by
  obtain ⟨Z, hr, hrep⟩ := ht.nodes
  have hh := holds_tree hrep
  refine twp_mono (fun r d' hres inum hok => ?_) _ (mknode_spec hxp hr hino (hh.dir hp) isdir name)
  obtain ⟨hz, hno, hdone⟩ := hres inum hok
  rw [Dirtree.lookup_map_entry, Option.map_eq_none_iff] at hno
  have hfresh := hrep.fresh (s := newTree isdir inum) (by rw [inum_newTree]; exact hz) (leaf_newTree isdir inum)
  rw [inum_newTree, label_newTree] at hfresh
  have hgraft := hfresh.graft hp (hh.namesDistinct hr) hno
  have hperm := addToList_entries name (newTree isdir inum) ents
  rw [inum_newTree, isdir_newTree, Dirtree.deleteFromList_of_none hno] at hperm
  have hd := hdone _ hperm
  refine ⟨hno, fun q u hu he => ?_, ⟨⟨_, hd.rep, hgraft⟩, ?_⟩, hd.alloc_eq, hd.safe⟩
  · have hnode := hh.node hu
    rw [he, hz] at hnode
    cases hnode
  · exact (root_update hp rfl rfl).trans ht.root

/-- A leaf is pruned. -/
theorem delete_tree (name : Sname) : twp n (delete xp dnum name ms) (fun r d' => r.2 = .ok () →
    ∃ c, findDirlist name ents = some c ∧ Leaf c ∧ TreeDone xp (treePrune dnum ents p name T) ms d r.1 d') d := by
  obtain ⟨Z, hr, hrep⟩ := ht.nodes
  have hh := holds_tree hrep
  refine twp_mono (fun r d' hres hok => ?_) _ (delete_spec hxp hr (hh.dir hp) (hh.entriesOk hp))
  obtain ⟨v, hv, hempty, hdone⟩ := hres hok
  rw [Dirtree.lookup_map_entry, Option.map_eq_some_iff] at hv
  obtain ⟨c, hc, rfl⟩ := hv
  have hleaf := hh.leaf hp hc hempty
  have hd := hdone _ (deleteFromList_entries hc)
  refine ⟨c, hc, hleaf, ⟨⟨_, hd.rep, hrep.delete hp (hh.namesDistinct hr) hc hleaf⟩, ?_⟩, hd.alloc_eq, hd.safe⟩
  exact (root_update hp rfl rfl).trans ht.root

theorem readdir_tree : twp n (CacheOneDir.readdir xp dnum ms) (fun r d' => d' = d ∧ TreeDone xp T ms d r.1 d ∧
    r.2.Perm (ents.map entry)) d := by
  obtain ⟨Z, hr, hrep⟩ := ht.nodes
  refine twp_mono (fun r d' ⟨hd, hdone, hres⟩ => ⟨hd, ⟨⟨⟨Z, hdone.rep, hrep⟩, ht.root⟩, hdone.alloc_eq, hdone.safe⟩, hres⟩) _
    (NodeRep.readdir_spec hxp hr ((holds_tree hrep).dir hp))

theorem namei_tree (path : List Sname) : twp n (namei xp dnum path ms) (fun r d' => d' = d ∧ TreeDone xp T ms d r.1 d ∧
    ∀ v, r.2 = .ok v ↔ findName path (.dir dnum ents) = some v) d := by
  obtain ⟨Z, hr, hrep⟩ := ht.nodes
  refine twp_mono (fun r d' ⟨hd, hdone, hres⟩ => ⟨hd, ⟨⟨⟨Z, hdone.rep, hrep⟩, ht.root⟩, hdone.alloc_eq, hdone.safe⟩, hres⟩) _
    (namei_spec hxp hr ((holds_tree hrep).sub hp) rfl path)

end Edits

/-! ## Renaming -/

theorem find_of_findName {path : List Sname} {t : FsTree} {i : Nat} (h : findName path t = some (i, true)) :
    ∃ ents, findSubtree path t = some (.dir i ents) := by
  rw [Dirtree.findName_eq, Option.map_eq_some_iff] at h
  obtain ⟨u, hu, hv⟩ := h
  cases u with
  | file j f => cases hv
  | dir j ents =>
    cases hv
    exact ⟨ents, hu⟩

/-- What `rename` does: the subtree `S` at the source is pruned, and grafted at the destination of what is left. -/
structure Renamed (T : FsTree) (src : List Sname) (srcname : Sname) (dst : List Sname) (dstname : Sname) (T' : FsTree)
    (snum : Nat) (sents : List (Sname × FsTree)) (S : FsTree) (ddst : Nat) (dents : List (Sname × FsTree)) : Prop where
  source : findSubtree src T = some (.dir snum sents)
  moved : findDirlist srcname sents = some S
  dest : findSubtree dst (treePrune snum sents src srcname T) = some (.dir ddst dents)
  replaced : ∀ c, findDirlist dstname dents = some c → Leaf c
  tree : T' = treeGraft ddst dents dst dstname S (treePrune snum sents src srcname T)

theorem rename_tree (hxp : xp.Ok n) (hino : xp.nInodes ≤ 2 ^ 64) (ht : TreeRep xp d ms T) {cwd : List Sname} {dnum : Nat}
    {ents : List (Sname × FsTree)} (hcwd : findSubtree cwd T = some (.dir dnum ents)) (srcpath : List Sname) (srcname : Sname)
    (dstpath : List Sname) (dstname : Sname) :
    twp n (rename xp dnum srcpath srcname dstpath dstname ms) (fun r d' => r.2 = .ok () → ∃ T' snum sents S ddst dents,
      Renamed T (cwd ++ srcpath) srcname (cwd ++ dstpath) dstname T' snum sents S ddst dents ∧ TreeDone xp T' ms d r.1 d' ∧
      ∀ c, findDirlist dstname dents = some c → Released xp d d' c.inum) d := by
  obtain ⟨Z, hr, hrep⟩ := ht.nodes
  have hh := holds_tree hrep
  refine twp_seq (namei_spec hxp hr (hh.sub hcwd) rfl srcpath) ?_
  rintro ⟨ms₁, osrcdir⟩ d₁ ⟨hd, hdone₁, hsrc⟩
  subst hd
  rcases osrcdir with e | ⟨dsrc, _ | _⟩
  · exact fun h => by cases h
  · exact fun h => by cases h
  obtain ⟨sents, hsents⟩ := find_of_findName ((hsrc _).mp rfl)
  have hsents' : findSubtree (cwd ++ srcpath) T = some (.dir dsrc sents) := by
    rw [Dirtree.findSubtree_append, hcwd, Option.bind_some, hsents]
  refine twp_seq (NodeRep.lookup_spec hxp hdone₁.rep (hh.dir hsents') srcname) ?_
  rintro ⟨ms₂, osrc⟩ d₂ ⟨hd, hdone₂, hosrc⟩
  subst hd
  simp only [Dirtree.lookup_map_entry] at hosrc
  subst hosrc
  simp only
  cases hS : findDirlist srcname sents with
  | none => exact fun h => by cases h
  | some S =>
    have hlook : (sents.map entry).lookup srcname = some (S.inum, S.isdir) := by
      rw [Dirtree.lookup_map_entry, hS]
      rfl
    refine twp_seq (NodeRep.unlink_spec hxp hdone₂.rep (hh.dir hsents') hlook) ?_
    rintro ⟨ms₃, _⟩ d₃ ⟨_, hun⟩
    have hdone₃ := hun _ (deleteFromList_entries hS)
    have hrep₃ := hrep.prune hsents' (hh.namesDistinct hr) hS
    have hh₃ := holds_pruned hrep₃
    -- the directory of the call is still there
    have hroot₁ := Dirtree.updateSubtree_root (t := .dir dnum ents) hsents
      (rfl : Dirtree.inum (.dir dsrc (deleteFromList srcname sents) : FsTree) = dsrc) rfl
    obtain ⟨t₁, ht₁, hi₁, hd₁⟩ : ∃ t₁, findSubtree cwd (treePrune dsrc sents (cwd ++ srcpath) srcname T) = some t₁ ∧
        t₁.inum = dnum ∧ t₁.isdir = true := by
      refine ⟨_, ?_, hroot₁⟩
      rw [treePrune, Dirtree.findSubtree_updateSubtree_above, hcwd]
      rfl
    have hnamei := namei_spec hxp hdone₃.rep (hh₃.sub ht₁) hd₁ dstpath
    rw [hi₁] at hnamei
    refine twp_seq hnamei ?_
    rintro ⟨ms₄, odstdir⟩ d₄ ⟨hd, hdone₄, hdst⟩
    subst hd
    rcases odstdir with e | ⟨ddst, _ | _⟩
    · exact fun h => by cases h
    · exact fun h => by cases h
    obtain ⟨dents, hdents⟩ := find_of_findName ((hdst _).mp rfl)
    have hdents' : findSubtree (cwd ++ dstpath) (treePrune dsrc sents (cwd ++ srcpath) srcname T) =
        some (.dir ddst dents) := by
      rw [Dirtree.findSubtree_append, ht₁, Option.bind_some, hdents]
    obtain ⟨h0, hlt⟩ : S.inum ≠ 0 ∧ S.inum < xp.nInodes := by
      obtain ⟨c, hc, _⟩ := (hh.entryOk hsents' hS).node
      exact hr.valid S.inum c hc
    refine twp_mono (fun r d₅ hres hok => ?_) _ (renameTo_spec hxp hdone₄.rep (hh₃.dir hdents') (hh₃.entriesOk hdents')
      S.isdir h0 (by omega))
    have hpre := ((hdone₁.trans hdone₂).trans hdone₃).trans hdone₄
    have hroot : (treeGraft ddst dents (cwd ++ dstpath) dstname S (treePrune dsrc sents (cwd ++ srcpath) srcname T)).inum =
        xp.fsxpRootInum := (root_update hdents' rfl rfl).trans ((root_update hsents' rfl rfl).trans ht.root)
    have hperm := addToList_entries dstname S dents
    rcases hres hok with ⟨hno, hdone₅⟩ | ⟨v, hv, hempty, hdone₅⟩
    · rw [Dirtree.lookup_map_entry, Option.map_eq_none_iff] at hno
      rw [Dirtree.deleteFromList_of_none hno] at hperm
      have hd₅ := hpre.trans (hdone₅ _ hperm)
      refine ⟨_, dsrc, sents, S, ddst, dents, ⟨hsents', hS, hdents', fun c hc => ?_, rfl⟩,
        ⟨⟨⟨_, hd₅.rep, hrep₃.graft hdents' (hh₃.namesDistinct hdone₃.rep) hno⟩, hroot⟩, hd₅.alloc_eq, hd₅.safe⟩,
        fun c hc => ?_⟩
      · rw [hno] at hc
        cases hc
      · rw [hno] at hc
        cases hc
    · rw [Dirtree.lookup_map_entry, Option.map_eq_some_iff] at hv
      obtain ⟨c, hc, rfl⟩ := hv
      have hleaf := hh₃.leaf hdents' hc hempty
      have hd₅ := hpre.trans (hdone₅ _ _ (deleteFromList_entries hc) hperm)
      refine ⟨_, dsrc, sents, S, ddst, dents, ⟨hsents', hS, hdents', fun c' hc' => ?_, rfl⟩,
        ⟨⟨⟨_, hd₅.rep, hrep₃.graft_replace hdents' (hh₃.namesDistinct hdone₃.rep) hc hleaf⟩, hroot⟩, hd₅.alloc_eq, hd₅.safe⟩,
        fun c' hc' => ?_⟩
      · rw [hc] at hc'
        cases hc'
        exact hleaf
      · rw [hc] at hc'
        cases hc'
        obtain ⟨hne, k, hk, _⟩ := hh₃.entryOk hdents' hc
        obtain ⟨hc0, hclt⟩ := hdone₃.rep.valid c.inum k hk
        refine NodeDone.released hr hd₅ hc0 hclt ?_
        rw [Function.update_of_ne hne, Function.update_self]

/-! ## Files -/

theorem file_eq {p : List Sname} {inum : Nat} {f : File} (ht : TreeRep xp d ms T) (hp : findSubtree p T = some (.file inum f)) :
    inum < xp.nInodes ∧ file xp d inum = f := by
  obtain ⟨Z, hr, hrep⟩ := ht.nodes
  have hz : Z inum = some (.file f) := (holds_tree hrep).node hp
  exact ⟨(hr.valid inum _ hz).2, hr.node inum _ hz⟩

/-- A program on a file of the tree changes this file. -/
theorem setFile_tree {d' : LDisk} {ms' : Memstate} {p : List Sname} {inum : Nat} {f f' : File} (ht : TreeRep xp d ms T)
    (hp : findSubtree p T = some (.file inum f)) (hs : FileStep xp ms.msAlloc inum f' d d') (hm : MsRep xp d' ms')
    (hcache : ∀ i, i ≠ inum → ms'.msCache[i]? = ms.msCache[i]?) (hself : ms.msCache[inum]? = none → ms'.msCache[inum]? = none) :
    TreeRep xp d' ms' (Dirtree.updateSubtree p (.file inum f') T) := by
  obtain ⟨Z, hr, hrep⟩ := ht.nodes
  have hh := holds_tree hrep
  have hz : Z inum = some (.file f) := hh.node hp
  have hnone : ms'.msCache[inum]? = none := by
    refine hself ?_
    by_contra hne
    obtain ⟨ents, hents⟩ := hr.cached inum hne
    rw [hz] at hents
    cases hents
  have hroot : (Dirtree.updateSubtree p (.file inum f') T).inum = T.inum := by
    refine (Dirtree.updateSubtree_root hp ?_ ?_).1
    · rfl
    · rfl
  refine ⟨⟨_, ?_, hrep.setFile hp (hh.namesDistinct hr) f'⟩, hroot.trans ht.root⟩
  refine hr.change (by rw [hz]; exact Option.some_ne_none _) hs hm hs.self hcache ?_ fun h => absurd hnone h
  intro dc hint hget
  rw [hnone] at hget
  cases hget

theorem fileDone_tree {d' : LDisk} {ms' : Memstate} {p : List Sname} {inum : Nat} {f f' : File} (ht : TreeRep xp d ms T)
    (hp : findSubtree p T = some (.file inum f)) (hd : FileDone xp inum f' ms d ms' d') :
    TreeDone xp (Dirtree.updateSubtree p (.file inum f') T) ms d ms' d' := by
  refine ⟨setFile_tree ht hp hd.toFileStep hd.msrep (fun i _ => by rw [hd.cache_eq]) fun h => ?_, hd.alloc_eq, hd.safe⟩
  rw [hd.cache_eq]
  exact h

end DIRTREE

end Fscq
