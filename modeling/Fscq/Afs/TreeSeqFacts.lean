import Fscq.Afs.Rename
import Fscq.Afs.TreeSeqCrash
import Fscq.Dir.WellFormed

/-!
# Facts about the machine

In every state of the machine the trees are well-formed, and only blocks that the files have now have older values
(`Trace.ok`). A call that spares a file (`Call.Spares`) leaves it at its path, as it is.
-/

namespace Fscq

open Dirtree (findSubtree findDirlist updateSubtree treeGraft treePrune node mapFiles WellFormed NamesDistinct Leaf HasNode)
open INODE (iattr0)

namespace TreeSeq

variable {T T' : FsTree} {p : List Sname} {i : Nat} {f : File}

/-! ## What a call does to the other files -/

theorem find_file_iff : findSubtree p T = some (.file i f) ↔ node p T = some (i, some f) := by
  constructor
  · intro h
    rw [node, Dirtree.view_of_find h]
    rfl
  · intro h
    obtain ⟨v, hv, hl⟩ := Option.map_eq_some_iff.1 h
    obtain ⟨j, c⟩ := v
    cases c with
    | file f' =>
      cases hl
      exact find_of_view hv
    | dir es => cases hl

section Paths

variable {q : List Sname} {dnum : Nat} {ents : List (Sname × FsTree)} {name : Sname}
  (hp : findSubtree p T = some (.file i f))
include hp

/-- A file is not below another file. -/
theorem not_prefix_file {j : Nat} {g : File} (hq : findSubtree q T = some (.file j g)) (hij : j ≠ i) : ¬ q <+: p := by
  rintro ⟨r, rfl⟩
  rw [Dirtree.findSubtree_append, hq, Option.bind_some] at hp
  cases r with
  | nil =>
    cases hp
    exact hij rfl
  | cons name r => cases hp

variable (hq : findSubtree q T = some (.dir dnum ents))
include hq

theorem find_below {r : List Sname} (hr : p = q ++ name :: r) :
    ∃ c, findDirlist name ents = some c ∧ findSubtree r c = some (.file i f) := by
  rw [hr, Dirtree.findSubtree_append, hq, Option.bind_some, Dirtree.findSubtree_cons_dir, Option.bind_eq_some_iff] at hp
  exact hp

theorem not_prefix_none (hno : findDirlist name ents = none) : ¬ q ++ [name] <+: p := by
  rintro ⟨r, hr⟩
  rw [List.append_assoc, List.singleton_append] at hr
  obtain ⟨c, hc, _⟩ := find_below hp hq hr.symm
  rw [hno] at hc
  cases hc

theorem not_prefix_leaf {c : FsTree} (hc : findDirlist name ents = some c) (hl : Leaf c) (hne : p ≠ q ++ [name]) :
    ¬ q ++ [name] <+: p := by
  rintro ⟨r, hr⟩
  rw [List.append_assoc, List.singleton_append] at hr
  cases r with
  | nil => exact hne hr.symm
  | cons s r =>
    obtain ⟨c', hc', hfind⟩ := find_below hp hq hr.symm
    rw [hc, Option.some_inj] at hc'
    subst hc'
    have hview := hl.view s r
    rw [Dirtree.view_of_find hfind] at hview
    cases hview

end Paths

/-- The call is on another file, and it does not take the file from its path. -/
def Call.Spares (p : List Sname) (i : Nat) (T : FsTree) : Call → Prop
  | .basic (.delete dnum name) => ∀ q ents, findSubtree q T = some (.dir dnum ents) → p ≠ q ++ [name]
  | .basic (.rename dnum srcpath srcname dstpath dstname) => ∀ cwd ents, findSubtree cwd T = some (.dir dnum ents) →
    ¬ cwd ++ srcpath ++ [srcname] <+: p ∧ ¬ cwd ++ dstpath ++ [dstname] <+: p
  | .basic (.fileTruncate j _) | .basic (.fileSetAttr j _) | .basic (.updateFblock j _ _) => j ≠ i
  | .fileSetSz j _ | .updateFblockD j _ _ => j ≠ i
  | _ => True

section Spares

variable {c : Call} {r : FsRun.Result} (hn : NamesDistinct T) (hp : findSubtree p T = some (.file i f))
include hn hp

theorem find_setFile {q : List Sname} {j : Nat} {g g' : File} (hq : findSubtree q T = some (.file j g)) (hij : j ≠ i) :
    findSubtree p (updateSubtree q (.file j g') T) = some (.file i f) := by
  have hview : Dirtree.view p (updateSubtree q (.file j g') T) = Dirtree.view p T :=
    Dirtree.view_updateSubtree_outside hn hq rfl rfl (not_prefix_file hp hq hij)
  rw [find_file_iff] at hp ⊢
  rw [Dirtree.node_of_view hview, hp]

theorem find_graft {q : List Sname} {dnum : Nat} {ents : List (Sname × FsTree)} {name : Sname} (s : FsTree)
    (hq : findSubtree q T = some (.dir dnum ents)) (hno : findDirlist name ents = none) :
    findSubtree p (treeGraft dnum ents q name s T) = some (.file i f) := by
  have hnode := Dirtree.node_graft_other (s := s) hq hn (not_prefix_none hp hq hno)
  rw [find_file_iff] at hp ⊢
  rw [hnode, hp]

theorem Updates.spares (hc : c.Spares p i T) (hu : Updates T c r T') : findSubtree p T' = some (.file i f) := by
  cases hu with
  | mksock hq hno => exact find_graft hn hp _ hq hno
  | fileSetSz hq => exact find_setFile hn hp hq hc
  | basic hu =>
    cases hu with
    | create hq hno | mkdir hq hno => exact find_graft hn hp _ hq hno
    | fileTruncate hq | fileSetAttr hq | updateFblock hq => exact find_setFile hn hp hq hc
    | delete hq hfind hl =>
      have hnode := Dirtree.node_prune_other hq hn (not_prefix_leaf hp hq hfind hl (hc _ _ hq))
      rw [find_file_iff] at hp ⊢
      rw [hnode, hp]
    | rename hcwd hren =>
      obtain ⟨hsrc, hdst⟩ := hc _ _ hcwd
      have hnode := hren.node_other hn hsrc hdst
      rw [find_file_iff] at hp ⊢
      rw [hnode, hp]

end Spares

/-! ## Files after a power failure -/

theorem Survives.refl (old : Nat → Valu → Prop) (f : File) : Survives old f f := ⟨rfl, rfl, fun _ _ => .inl⟩

theorem Survives.mono {old old' : Nat → Valu → Prop} {f f' : File} (h : Survives old f f')
    (ho : ∀ off v, old off v → old' off v) : Survives old' f f' :=
  ⟨h.attr, h.length, fun off v hv => (h.value off v hv).imp id (ho off v)⟩

/-- A file without older values survives as it is. -/
theorem Survives.eq {old : Nat → Valu → Prop} {f f' : File} (h : Survives old f f') (hold : ∀ off w, ¬ old off w) : f' = f := by
  obtain ⟨data, attr⟩ := f
  obtain ⟨data', attr'⟩ := f'
  obtain ⟨hattr, hlen, hval⟩ := h
  simp only at hattr hlen hval
  have hdata : data' = data := by
    refine List.ext_getElem? fun off => ?_
    cases hv : data'[off]? with
    | none =>
      rw [List.getElem?_eq_none_iff, hlen, ← List.getElem?_eq_none_iff] at hv
      exact hv.symm
    | some v => exact ((hval off v hv).resolve_right (hold off v)).symm
  rw [hattr, hdata]

/-- Where no file has older values, the tree stays. -/
theorem Version.Falls.eq {V : Version} (h : V.Falls T) (hn : NamesDistinct V.tree) (hold : ∀ i off w, ¬ V.old i off w) :
    T = V.tree := by
  obtain ⟨g, rfl, hg⟩ := h
  exact Dirtree.mapFiles_eq_self hn fun p i f hp => (hg p i f hp).eq (hold i)

/-! ## The states of the machine -/

theorem Updates.wellFormed {c : Call} {r : FsRun.Result} (hw : WellFormed T) (hu : Updates T c r T') : WellFormed T' := by
  cases hu with
  | mksock hq hno hnew => exact hw.graft hq hno trivial hnew
  | fileSetSz hq => exact hw.setFile hq
  | basic hu =>
    cases hu with
    | create hq hno hnew => exact hw.graft hq hno trivial hnew
    | mkdir hq hno hnew =>
      refine hw.graft hq hno ?_ hnew
      rfl
    | fileTruncate hq | fileSetAttr hq | updateFblock hq => exact hw.setFile hq
    | delete hq hfind hl => exact hw.prune hq hfind hl
    | rename _ hren =>
      rw [hren.tree]
      exact hw.move hren.source hren.moved hren.dest hren.replaced

theorem Updates.root {c : Call} {r : FsRun.Result} (hu : Updates T c r T') : T'.inum = T.inum ∧ T'.isdir = T.isdir := by
  cases hu with
  | basic hu => exact hu.root
  | mksock hq => exact Dirtree.treeGraft_root hq _ _
  | fileSetSz hq =>
    refine Dirtree.updateSubtree_root hq ?_ ?_
    · rfl
    · rfl

structure Version.Ok (V : Version) : Prop where
  tree : WellFormed V.tree
  root : V.tree.inum = 1 ∧ V.tree.isdir = true
  old : ∀ {i off w}, V.old i off w → HasBlock V.tree i off

theorem settled_ok (hw : WellFormed T) (hr : T.inum = 1 ∧ T.isdir = true) : (Version.settled T).Ok := ⟨hw, hr, fun h => h.elim⟩

theorem Version.Ok.write {V : Version} {inum off : Nat} {v : Valu} (hV : V.Ok) : (V.write inum off v).Ok := by
  refine ⟨hV.tree.mapFiles _, ?_, ?_⟩
  · exact ⟨(Dirtree.inum_mapFiles _ _).trans hV.root.1, (Dirtree.isdir_mapFiles _ _).trans hV.root.2⟩
  rintro i o w (h | ⟨_, _, p, f, hp, ho⟩)
  · exact hasBlock_setBlock.2 (hV.old h)
  · exact hasBlock_setBlock.2 ⟨p, f, hp, (List.getElem?_eq_some_iff.1 ho).1⟩

theorem Step.ok {Vs Vs' : Treeseq} {c : Call} {r : FsRun.Result} (h : Step Vs c r Vs') (hVs : ∀ V ∈ Vs, V.Ok) :
    ∀ V ∈ Vs', V.Ok := by
  cases h with
  | update hu =>
    intro V hV
    rcases List.mem_cons.1 hV with rfl | hV
    · have hold := hVs _ List.mem_cons_self
      refine ⟨hu.wellFormed hold.tree, ⟨hu.root.1.trans hold.root.1, hu.root.2.trans hold.root.2⟩, ?_⟩
      rintro i off w ⟨_, _, hb, _⟩
      exact hb
    · exact hVs V hV
  | read | failed => exact hVs
  | updateFblockD =>
    intro V hV
    obtain ⟨k, hk, rfl⟩ := List.mem_mapIdx.1 hV
    have hold := hVs _ (List.getElem_mem hk)
    split
    · exact hold.write
    · exact hold
  | fileSync =>
    intro V hV
    obtain ⟨k, hk, rfl⟩ := List.mem_mapIdx.1 hV
    have hold := hVs _ (List.getElem_mem hk)
    refine ⟨hold.tree, hold.root, ?_⟩
    rintro i off w ⟨h, _⟩
    exact hold.old h
  | treeSync =>
    intro V hV
    obtain rfl := List.mem_singleton.1 hV
    exact hVs _ List.mem_cons_self
  | umount =>
    intro V hV
    obtain rfl := List.mem_singleton.1 hV
    have hold := hVs _ List.mem_cons_self
    exact settled_ok hold.tree hold.root

theorem Crash.ok {Vs : Treeseq} {c : Option Call} (h : Crash Vs c T) (hVs : ∀ V ∈ Vs, V.Ok) : (Version.settled T).Ok := by
  obtain ⟨Vs', hVs', V, hV, g, rfl, _⟩ := h
  have hold : V.Ok := by
    rcases hVs' with rfl | ⟨c', r, rfl, hstep⟩
    · exact hVs V hV
    · exact hstep.ok hVs V hV
  exact settled_ok (hold.tree.mapFiles g)
    ⟨(Dirtree.inum_mapFiles _ _).trans hold.root.1, (Dirtree.isdir_mapFiles _ _).trans hold.root.2⟩

theorem Trace.ok {es : List Event} {Vs : Treeseq} (h : Trace es Vs) : ∀ V ∈ Vs, V.Ok := by
  induction h with
  | mkfs =>
    intro V hV
    obtain rfl := List.mem_singleton.1 hV
    refine settled_ok (Dirtree.wellFormed_leaf ?_) ⟨rfl, rfl⟩
    rfl
  | call _ hstep ih => exact hstep.ok ih
  | crash _ hc ih =>
    intro V hV
    obtain rfl := List.mem_singleton.1 hV
    exact hc.ok ih

theorem Trace.ne_nil {es : List Event} {Vs : Treeseq} (h : Trace es Vs) : Vs ≠ [] := by
  induction h with
  | mkfs | crash => exact List.cons_ne_nil _ _
  | call _ hstep ih =>
    cases hstep with
    | update | treeSync | umount => exact List.cons_ne_nil _ _
    | read | failed => exact ih
    | updateFblockD | fileSync => exact fun h => ih (List.mapIdx_eq_nil_iff.1 h)

/-- The power fails between two calls. -/
theorem Crash.idle {Vs : Treeseq} (h : Crash Vs none T) : ∃ V ∈ Vs, V.Falls T := by
  obtain ⟨Vs', hVs', hf⟩ := h
  rcases hVs' with rfl | ⟨c', r, heq, _⟩
  · exact hf
  · cases heq

theorem Step.of_treeSync {V : Version} {Vs Vs' : Treeseq} {r : FsRun.Result} (h : Step (V :: Vs) (.basic .treeSync) r Vs') :
    Vs' = [V] := by
  cases h with
  | update hu =>
    cases hu with
    | basic hu => cases hu
  | read hread => cases hread
  | failed hf => cases hf
  | treeSync => rfl

theorem find_setBlock {p : List Sname} {i : Nat} {f : File} (inum off : Nat) (v : Valu)
    (hp : findSubtree p T = some (.file i f)) :
    findSubtree p (setBlock inum off v T) = some (.file i (if i = inum then ⟨f.data.set off v, f.attr⟩ else f)) :=
  (Dirtree.findSubtree_mapFiles_file _).2 ⟨f, hp, rfl⟩

theorem Step.written {V : Version} {Vs Us : Treeseq} {i off : Nat} {v : Valu} {r : FsRun.Result}
    (h : Step (V :: Vs) (.updateFblockD i off v) r Us) : ∃ V' Vs', Us = V' :: Vs' ∧ V'.tree = setBlock i off v V.tree := by
  cases h with
  | update hu => cases hu
  | updateFblockD hkept =>
    rw [writeBlock, List.mapIdx_cons, if_pos hkept]
    exact ⟨_, _, rfl, rfl⟩

theorem Step.synced {V : Version} {Vs Us : Treeseq} {i : Nat} {r : FsRun.Result} (h : Step (V :: Vs) (.fileSync i) r Us) :
    ∃ V' Vs', Us = V' :: Vs' ∧ V'.tree = V.tree := by
  cases h with
  | update hu => cases hu
  | fileSync =>
    rw [syncFile, List.mapIdx_cons]
    exact ⟨_, _, rfl, rfl⟩

/-- The last event. -/
theorem trace_cons {es : List Event} {e : Event} {Vs' : Treeseq} (h : Trace (e :: es) Vs') : ∃ V Vs, Trace es (V :: Vs) ∧
    ((∃ c r, e = .call c r ∧ Step (V :: Vs) c r Vs') ∨ ∃ c T', e = .crash c ∧ Crash (V :: Vs) c T' ∧ Vs' = [.settled T']) := by
  have hcons : ∀ {Vs : Treeseq}, Trace es Vs → ∃ V Vs₀, Vs = V :: Vs₀ := fun htr => List.exists_cons_of_ne_nil htr.ne_nil
  cases h with
  | call htr hstep =>
    obtain ⟨V, Vs, rfl⟩ := hcons htr
    exact ⟨V, Vs, htr, .inl ⟨_, _, rfl, hstep⟩⟩
  | crash htr hc =>
    obtain ⟨V, Vs, rfl⟩ := hcons htr
    exact ⟨V, Vs, htr, .inr ⟨_, _, rfl, hc, rfl⟩⟩

theorem trace_call {es : List Event} {c : Call} {r : FsRun.Result} {Vs' : Treeseq} (h : Trace (.call c r :: es) Vs') :
    ∃ V Vs, Trace es (V :: Vs) ∧ Step (V :: Vs) c r Vs' := by
  obtain ⟨V, Vs, htr, ⟨c', r', heq, hstep⟩ | ⟨c', T', heq, _⟩⟩ := trace_cons h
  · cases heq
    exact ⟨V, Vs, htr, hstep⟩
  · cases heq

end TreeSeq

end Fscq
