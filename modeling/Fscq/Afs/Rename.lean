import Fscq.Afs.Mkfs

/-!
# Renaming

`rename` unlinks the source before it looks at the destination, so that the two may be the same entry, in the same
directory, or one above the other. In every case it prunes the source and grafts the subtree at the destination of what is
left (`rename_is_prune_graft`): a path that goes through neither is not changed, a rename to itself changes nothing, and
a directory cannot be moved below itself, because its new place is gone when it is looked up.
-/

namespace Fscq

open TxnLogic CrashLogic
open Dirtree (Kind view findSubtree findDirlist entry Leaf NamesDistinct treePrune treeGraft deleteFromList)

namespace Dirtree

variable {N F : Type}

def Kind.contents : Kind N F → Option F
  | .file f => some f
  | .dir _ => none

variable [DecidableEq N]

/-- The node at a path: its number, and its contents if it is a file. -/
def node (p : List N) (t : Dirtree N F) : Option (Nat × Option F) := (view p t).map fun l => (l.1, l.2.contents)

theorem node_of_view {p q : List N} {t u : Dirtree N F} (h : view p t = view q u) : node p t = node q u := by
  rw [node, node, h]

section Edit

variable {p : List N} {name : N} {t : Dirtree N F} {i : Nat} {ents ents' : List (N × Dirtree N F)}
  (h : findSubtree p t = some (dir i ents)) (hn : NamesDistinct t)
include h hn

/-- An edit of one entry of a directory, on the paths that do not go through it. -/
theorem node_edit_other (hents : ∀ s, s ≠ name → findDirlist s ents' = findDirlist s ents) {r : List N}
    (hr : ¬ p ++ [name] <+: r) : node r (updateSubtree p (dir i ents') t) = node r t := by
  by_cases hrp : r = p
  · subst hrp
    rw [node, node, view_edit_self h, view_of_find h]
    rfl
  · exact node_of_view (view_edit_other h hn hents hrp hr)

theorem view_prune_below (q : List N) : view (p ++ name :: q) (treePrune i ents p name t) = none := by
  rw [treePrune, deleteFromDir, view_edit_below h, findDirlist_deleteFromList (hn.sub h).ents, if_pos rfl, Option.bind_none]

theorem node_prune_other {r : List N} (hr : ¬ p ++ [name] <+: r) : node r (treePrune i ents p name t) = node r t := by
  refine node_edit_other h hn (fun s hs => ?_) hr
  rw [findDirlist_deleteFromList (hn.sub h).ents, if_neg hs]

theorem namesDistinct_prune : NamesDistinct (treePrune i ents p name t) := by
  intro r j l hr
  have hview := view_of_find hr
  rw [← map_fst_entry]
  by_cases hrp : r = p
  · subst hrp
    rw [treePrune, deleteFromDir, view_edit_self h] at hview
    simp only [label, Option.some.injEq, Prod.mk.injEq, Kind.dir.injEq] at hview
    rw [← hview.2, map_fst_entry]
    exact (hn.sub h).ents.sublist ((deleteFromList_sublist name ents).map Prod.fst)
  · by_cases hpre : p ++ [name] <+: r
    · obtain ⟨q, rfl⟩ := hpre
      rw [List.append_assoc, List.singleton_append, view_prune_below h hn] at hview
      cases hview
    · have hother : view r (treePrune i ents p name t) = view r t := view_edit_other h hn (fun s hs => by
        rw [findDirlist_deleteFromList (hn.sub h).ents, if_neg hs]) hrp hpre
      rw [hother, view, Option.map_eq_some_iff] at hview
      obtain ⟨u, hu, hlabel⟩ := hview
      cases u with
      | file k f => cases hlabel
      | dir k ents₀ =>
        have hents : ents₀.map entry = l.map entry := by injection congrArg Prod.snd hlabel
        rw [← hents, map_fst_entry]
        exact hn r k ents₀ hu

end Edit

theorem view_graft_below {p : List N} {t s : Dirtree N F} {i : Nat} {ents : List (N × Dirtree N F)}
    (h : findSubtree p t = some (dir i ents)) (name : N) (q : List N) :
    view (p ++ name :: q) (treeGraft i ents p name s t) = view q s := by
  rw [treeGraft, addToDir, view_edit_below h, findDirlist_addToList, if_pos rfl, Option.bind_some]

theorem node_graft_other {p : List N} {name : N} {t s : Dirtree N F} {i : Nat} {ents : List (N × Dirtree N F)}
    (h : findSubtree p t = some (dir i ents)) (hn : NamesDistinct t) {r : List N} (hr : ¬ p ++ [name] <+: r) :
    node r (treeGraft i ents p name s t) = node r t := by
  refine node_edit_other h hn (fun s' hs => ?_) hr
  rw [findDirlist_addToList, if_neg hs]

end Dirtree

open Dirtree (node)

/-! ## What a rename does to the paths -/

namespace DIRTREE

section Renamed

variable {T T' S : FsTree} {src dst : List Sname} {srcname dstname : Sname} {snum ddst : Nat}
  {sents dents : List (Sname × FsTree)} (hren : Renamed T src srcname dst dstname T' snum sents S ddst dents)
  (hn : NamesDistinct T)
include hren

theorem Renamed.node_moved (q : List Sname) : node (dst ++ dstname :: q) T' = node q S := by
  rw [hren.tree]
  exact Dirtree.node_of_view (Dirtree.view_graft_below hren.dest dstname q)

include hn

theorem Renamed.node_other {r : List Sname} (hsrc : ¬ src ++ [srcname] <+: r) (hdst : ¬ dst ++ [dstname] <+: r) :
    node r T' = node r T := by
  rw [hren.tree, Dirtree.node_graft_other hren.dest (Dirtree.namesDistinct_prune hren.source hn) hdst,
    Dirtree.node_prune_other hren.source hn hsrc]

theorem Renamed.not_below : ¬ src ++ [srcname] <+: dst := by
  rintro ⟨q, rfl⟩
  have hview := Dirtree.view_of_find hren.dest
  rw [List.append_assoc, List.singleton_append, Dirtree.view_prune_below hren.source hn] at hview
  cases hview

theorem Renamed.node_self (hpath : dst = src) (hname : dstname = srcname) (r : List Sname) : node r T' = node r T := by
  by_cases hpre : src ++ [srcname] <+: r
  · obtain ⟨q, rfl⟩ := hpre
    rw [List.append_assoc, List.singleton_append]
    have hmoved := hren.node_moved q
    rw [hpath, hname] at hmoved
    rw [hmoved]
    refine Dirtree.node_of_view ?_
    rw [Dirtree.view_append, hren.source, Option.bind_some, Dirtree.view_cons_dir, hren.moved, Option.bind_some]
  · exact hren.node_other hn hpre (by rw [hpath, hname]; exact hpre)

end Renamed

end DIRTREE

/-! ## The call -/

namespace AFS

open DIRTREE (Renamed)

variable {h : HashKey → HashVal} {xp : FsXparams} {n : Nat} {T : FsTree}

/-- The disk holds the tree after the rename. -/
def Moved (xp : FsXparams) (T : FsTree) (src : List Sname) (srcname : Sname) (dst : List Sname) (dstname : Sname)
    (fms : BFILE.Memstate) (d : LDisk) : Prop :=
  ∃ T' snum sents S ddst dents, TreeRep xp d fms T' ∧ Renamed T src srcname dst dstname T' snum sents S ddst dents

theorem rename_spec (hl : FsLayout xp n) (fl : Bool) {st : LogState} {ams : Memstate} {s : St Valu HashKey}
    (hm : Mounted h xp n st T ams s) {cwd : List Sname} {dnum : Nat} {ents : List (Sname × FsTree)}
    (hcwd : findSubtree cwd T = some (.dir dnum ents)) (srcpath : List Sname) (srcname : Sname) (dstpath : List Sname)
    (dstname : Sname) :
    wp h (rename fl xp dnum srcpath srcname dstpath dstname ams) (fun r s' =>
      (∀ e, r.2 = .error e → ∃ st', st.Settled st.newest st' ∧ Mounted h xp n st' T r.1 s') ∧
      (r.2 = .ok () → ∃ st' T' snum sents S ddst dents, Mounted h xp n st' T' r.1 s' ∧
        Renamed T (cwd ++ srcpath) srcname (cwd ++ dstpath) dstname T' snum sents S ddst dents)) (fun _ => True) s := by
  have hbody : twp n (DIRTREE.rename xp dnum srcpath srcname dstpath dstname ams.fms) (fun r d' => ∀ a, r.2 = .ok a →
      Moved xp T (cwd ++ srcpath) srcname (cwd ++ dstpath) dstname r.1 d') (ldisk st.newest) := by
    refine twp_mono (fun r d' hres _ hr => ?_) _ (DIRTREE.rename_tree hl.ok hl.inodes hm.tree hcwd srcpath srcname dstpath dstname)
    obtain ⟨T', snum, sents, S, ddst, dents, hren, hdone, _⟩ := hres hr
    exact ⟨T', snum, sents, S, ddst, dents, hdone.rep, hren⟩
  refine wp_mono (fun r s' ⟨herr, hok⟩ => ⟨fun e he => (herr e he).mounted hm, fun hres => ?_⟩) (fun _ _ => trivial) _
    (transact_spec (P := fun _ => Moved xp T (cwd ++ srcpath) srcname (cwd ++ dstpath) dstname) hl.log fl hm.log hm.idle hbody)
  obtain ⟨st', cur, hr, hset, T', snum, sents, S, ddst, dents, ht, hren⟩ := hok () hres
  refine ⟨st', T', snum, sents, S, ddst, dents, ⟨hr, hset.idle, ?_⟩, hren⟩
  rw [hset.newest]
  exact ht

/-- `rename` succeeds only as a prune and a graft, and changes nothing if it fails. -/
theorem rename_is_prune_graft (hl : FsLayout xp n) {d : LDisk} {ms : BFILE.Memstate} (ht : TreeRep xp d ms T)
    {cwd : List Sname} {dnum : Nat} {ents : List (Sname × FsTree)} (hcwd : findSubtree cwd T = some (.dir dnum ents))
    (srcpath : List Sname) (srcname : Sname) (dstpath : List Sname) (dstname : Sname) :
    (∀ ms' r d', (DIRTREE.rename xp dnum srcpath srcname dstpath dstname ms).run d = ((ms', r), d') →
      (r = .ok () → ∃ T' snum sents S ddst dents, TreeRep xp d' ms' T' ∧
        Renamed T (cwd ++ srcpath) srcname (cwd ++ dstpath) dstname T' snum sents S ddst dents ∧
        (∀ c, findDirlist dstname dents = some c → Released xp d d' c.inum) ∧
        (∀ p, ¬ cwd ++ srcpath ++ [srcname] <+: p → ¬ cwd ++ dstpath ++ [dstname] <+: p → node p T' = node p T) ∧
        (dstpath = srcpath → dstname = srcname → ∀ p, node p T' = node p T)) ∧
      (srcpath ++ [srcname] <+: dstpath → ∃ e, r = .error e)) ∧
    ∀ (h : HashKey → HashVal) (fl : Bool) st ams s s' r, Mounted h xp n st T ams s →
      Exec h s (rename fl xp dnum srcpath srcname dstpath dstname ams) (.finished s' r) →
      (∀ e, r.2 = .error e → ∃ st', st'.newest = st.newest ∧ Mounted h xp n st' T r.1 s') ∧
      (r.2 = .ok () → ∃ st' T' snum sents S ddst dents, Mounted h xp n st' T' r.1 s' ∧
        Renamed T (cwd ++ srcpath) srcname (cwd ++ dstpath) dstname T' snum sents S ddst dents) := by
  have hn : NamesDistinct T := by
    obtain ⟨Z, hr, hrep⟩ := ht.nodes
    exact (DIRTREE.holds_tree hrep).namesDistinct hr
  refine ⟨fun ms' r d' hrun => ?_, fun h fl st ams s s' r hm hexec => ?_⟩
  · have hbody := twp_run (DIRTREE.rename_tree hl.ok hl.inodes ht hcwd srcpath srcname dstpath dstname)
    rw [hrun] at hbody
    refine ⟨fun hr => ?_, fun hpre => ?_⟩
    · obtain ⟨T', snum, sents, S, ddst, dents, hren, hdone, hfreed⟩ := hbody hr
      refine ⟨T', snum, sents, S, ddst, dents, hdone.rep, hren, hfreed, fun p => hren.node_other hn, fun hpath hname => ?_⟩
      exact hren.node_self hn (by rw [hpath]) hname
    · cases r with
      | error e => exact ⟨e, rfl⟩
      | ok _ =>
        obtain ⟨T', snum, sents, S, ddst, dents, hren, _⟩ := hbody rfl
        refine absurd ?_ (hren.not_below hn)
        rw [List.append_assoc]
        exact (List.prefix_append_right_inj cwd).mpr hpre
  · obtain ⟨herr, hok⟩ := wp_exec hexec (rename_spec hl fl hm hcwd srcpath srcname dstpath dstname)
    refine ⟨fun e he => ?_, hok⟩
    obtain ⟨st', hset, hm'⟩ := herr e he
    exact ⟨st', hset.newest, hm'⟩

/-- On a file system with the file `a`: it is renamed to `b`, and cannot be moved below itself. -/
theorem rename_is_prune_graft_small : ∃ d ms i, TreeRep smallFs d ms (.dir 1 [([97], .file i dirfile0)]) ∧
    (∃ ms' d', (DIRTREE.rename smallFs 1 [] [97] [] [98] ms).run d = ((ms', .ok ()), d') ∧
      TreeRep smallFs d' ms' (.dir 1 [([98], .file i dirfile0)])) ∧
    ∀ ms' r d', (DIRTREE.rename smallFs 1 [] [97] [[97]] [98] ms).run d = ((ms', r), d') → ∃ e, r = .error e := by
  obtain ⟨st, ams, s, i, hm, _⟩ := mounted_file fun _ => ⟨0, by decide⟩
  have ht := hm.tree
  have hroot : findSubtree [] (.dir 1 [([97], .file i dirfile0)] : FsTree) = some (.dir 1 [([97], .file i dirfile0)]) := rfl
  refine ⟨ldisk st.newest, ams.fms, i, ht, ?_, fun ms' r d' hrun => ?_⟩
  · obtain ⟨Z, hr, hrep⟩ := ht.nodes
    have hlt : i < 2 ^ 64 := Nat.lt_of_lt_of_le (DIRTREE.file_eq (p := [[97]]) ht rfl).1 (by decide)
    have hname : SDIR.isValidSname [98] = true := by decide
    have hsrc : [(([97] : Sname), (i, false))].lookup [97] = some (i, false) := rfl
    have hok := twp_run (DIRTREE.rename_ok fsLayout_small.ok hr ((DIRTREE.holds_tree hrep).dir hroot) hsrc hlt (.refl _) rfl hname)
    obtain ⟨⟨ms', r⟩, d', hrun⟩ : ∃ r d', (DIRTREE.rename smallFs 1 [] [97] [] [98] ams.fms).run (ldisk st.newest) = (r, d') :=
      ⟨_, _, rfl⟩
    rw [hrun] at hok
    obtain rfl : r = .ok () := hok
    have hthm := rename_is_prune_graft fsLayout_small ht hroot [] [97] [] [98]
    obtain ⟨T', snum, sents, S, ddst, dents, ht', hren, _⟩ := (hthm.1 ms' _ d' hrun).1 rfl
    refine ⟨ms', d', hrun, ?_⟩
    cases hren.source
    cases hren.moved
    cases hren.dest
    rw [hren.tree] at ht'
    exact ht'
  · have hthm := rename_is_prune_graft fsLayout_small ht hroot [] [97] [[97]] [98]
    exact (hthm.1 ms' r d' hrun).2 (List.prefix_refl _)

end AFS

end Fscq
