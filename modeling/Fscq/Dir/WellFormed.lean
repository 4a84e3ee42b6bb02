import Fscq.Dir.TreeFiles
import Fscq.Dir.TreeSpec

/-!
# Well-formed trees

In a well-formed tree the names in each directory are distinct, and so are the numbers of the nodes. The edits of trees keep
this: a leaf with a new number is grafted, a leaf is pruned, a subtree is moved, a file gets other contents.
-/

namespace Fscq

namespace Dirtree

variable {N F : Type}

section Nodes

variable {Z : Nodes N F} {i : Nat}

/-- The names in each directory among the nodes are distinct. -/
def Entries (Z : Nodes N F) : Prop := ∀ i es, Z i = some (.dir es) → (es.map Prod.fst).Nodup

theorem Entries.update {c : Kind N F} (hz : Entries Z) (hc : ∀ es, c = .dir es → (es.map Prod.fst).Nodup) :
    Entries (Function.update Z i (some c)) := by
  intro j es hj
  by_cases hji : j = i
  · rw [hji, Function.update_self] at hj
    exact hc es (Option.some_inj.1 hj)
  · rw [Function.update_of_ne hji] at hj
    exact hz j es hj

theorem Entries.remove (hz : Entries Z) : Entries (Function.update Z i none) := by
  intro j es hj
  by_cases hji : j = i
  · rw [hji, Function.update_self] at hj
    cases hj
  · rw [Function.update_of_ne hji] at hj
    exact hz j es hj

end Nodes

variable [DecidableEq N]

structure WellFormed (t : Dirtree N F) : Prop where
  names : NamesDistinct t
  inodes : InodesDistinct t

variable {t s : Dirtree N F} {p : List N} {i : Nat} {name : N} {ents : List (N × Dirtree N F)} {Z : Nodes N F}

theorem nodup_addToList (s : Dirtree N F) (hn : (ents.map Prod.fst).Nodup) (name : N) :
    ((addToList name s ents).map Prod.fst).Nodup := by
  have hperm := (addToList_perm name s ents).map Prod.fst
  rw [List.map_cons] at hperm
  refine hperm.nodup_iff.2 (List.nodup_cons.2 ⟨fun hmem => ?_, hn.sublist ((deleteFromList_sublist name ents).map Prod.fst)⟩)
  cases hc : findDirlist name ents with
  | none =>
    rw [deleteFromList_of_none hc] at hmem
    obtain ⟨e, he, rfl⟩ := List.mem_map.1 hmem
    have hlook := lookup_map_entry ents e.1
    rw [hc, Option.map_none, List.lookup_eq_none_iff] at hlook
    have hne := hlook (entry e) (List.mem_map_of_mem he)
    simp [entry] at hne
  | some c =>
    have hold := ((deleteFromList_perm hc).map Prod.fst).nodup_iff.1 hn
    rw [List.map_cons, List.nodup_cons] at hold
    exact hold.1 hmem

/-! ## Trees and their nodes -/

theorem view_dir {es : List (N × (Nat × Bool))} (h : view p t = some (i, .dir es)) :
    ∃ ents, findSubtree p t = some (dir i ents) ∧ es = ents.map entry := by
  obtain ⟨u, hu, hl⟩ := Option.map_eq_some_iff.1 h
  cases u with
  | file j f => cases hl
  | dir j ents =>
    cases hl
    exact ⟨ents, hu, rfl⟩

theorem rep_of_inodesDistinct (hd : InodesDistinct t) : ∃ Z, Rep (fun p => view p t) Z := by
  classical
  have hinj : ∀ {p q i c c'}, view p t = some (i, c) → view q t = some (i, c') → p = q := by
    intro p q i c c' hp hq
    obtain ⟨u, hu, hul⟩ := Option.map_eq_some_iff.1 hp
    obtain ⟨v, hv, hvl⟩ := Option.map_eq_some_iff.1 hq
    refine hd p q u v hu hv ?_
    rw [← label_fst, ← label_fst, hul, hvl]
  refine ⟨fun i => if h : ∃ p c, view p t = some (i, c) then some h.choose_spec.choose else none, ⟨?_, hinj, ?_⟩⟩
  · intro p i c hp
    have hex : ∃ p c, view p t = some (i, c) := ⟨p, c, hp⟩
    have hspec := hex.choose_spec.choose_spec
    rw [dif_pos hex]
    obtain rfl := hinj hp hspec
    exact congrArg some (Prod.mk.inj (Option.some_inj.1 (hspec.symm.trans hp))).2
  · intro i c hc
    split at hc
    · rename_i hex
      cases hc
      exact ⟨_, hex.choose_spec.choose_spec⟩
    · cases hc

theorem WellFormed.rep (hw : WellFormed t) : ∃ Z, Rep (fun p => view p t) Z ∧ Entries Z := by
  obtain ⟨Z, hr⟩ := rep_of_inodesDistinct hw.inodes
  refine ⟨Z, hr, fun i es hi => ?_⟩
  obtain ⟨p, hp⟩ := hr.surj hi
  obtain ⟨ents, hfind, rfl⟩ := view_dir hp
  rw [map_fst_entry]
  exact hw.names p i ents hfind

theorem Rep.wellFormed (hr : Rep (fun p => view p t) Z) (hz : Entries Z) : WellFormed t :=
  ⟨hr.namesDistinct hz id fun _ => rfl, hr.inodesDistinct⟩

theorem wellFormed_leaf (hs : Leaf s) : WellFormed s := by
  refine (Rep.single (fun _ => rfl) hs).wellFormed (Z := Function.update (fun _ => none) s.inum (some s.label.2)) ?_
  refine Entries.update (fun i es h => by cases h) fun es he => ?_
  cases s with
  | file i f => cases he
  | dir i ents =>
    obtain rfl : ents = [] := hs
    cases he
    exact List.nodup_nil

/-! ## Edits -/

section Edits

variable (hw : WellFormed t) (h : findSubtree p t = some (dir i ents))
include hw h

theorem WellFormed.graft (hs : findDirlist name ents = none) (hl : Leaf s)
    (hnew : ∀ q u, findSubtree q t = some u → u.inum ≠ s.inum) : WellFormed (treeGraft i ents p name s t) := by
  obtain ⟨Z, hr, hz⟩ := hw.rep
  have hnone : Z s.inum = none := by
    by_contra hne
    obtain ⟨c, hc⟩ := Option.ne_none_iff_exists'.1 hne
    obtain ⟨q, hq⟩ := hr.surj hc
    obtain ⟨u, hu, hul⟩ := Option.map_eq_some_iff.1 hq
    refine hnew q u hu ?_
    rw [← label_fst, hul]
  refine ((hr.fresh hnone hl).graft h hw.names hs).wellFormed ?_
  refine Entries.update (Entries.update hz fun es he => ?_) fun es he => ?_
  · cases s with
    | file j f => cases he
    | dir j ents' =>
      obtain rfl : ents' = [] := hl
      cases he
      exact List.nodup_nil
  · cases he
    rw [map_fst_entry]
    exact nodup_addToList s (hw.names p i ents h) name

theorem WellFormed.prune {c : Dirtree N F} (hs : findDirlist name ents = some c) (hl : Leaf c) :
    WellFormed (treePrune i ents p name t) := by
  obtain ⟨Z, hr, hz⟩ := hw.rep
  refine (hr.delete h hw.names hs hl).wellFormed (Entries.remove (Entries.update hz fun es he => ?_))
  cases he
  rw [map_fst_entry]
  exact (hw.names p i ents h).sublist ((deleteFromList_sublist name ents).map Prod.fst)

/-- A subtree is moved, and a leaf may be replaced. -/
theorem WellFormed.move {q : List N} {j : Nat} {dents : List (N × Dirtree N F)} {dname : N}
    (hs : findDirlist name ents = some s) (hq : findSubtree q (treePrune i ents p name t) = some (dir j dents))
    (hl : ∀ c, findDirlist dname dents = some c → Leaf c) :
    WellFormed (treeGraft j dents q dname s (treePrune i ents p name t)) := by
  obtain ⟨Z, hr, hz⟩ := hw.rep
  have hr₁ := hr.prune h hw.names hs
  have hz₁ : Entries (Function.update Z i (some (.dir ((deleteFromList name ents).map entry)))) := hz.update fun es he => by
    cases he
    rw [map_fst_entry]
    exact (hw.names p i ents h).sublist ((deleteFromList_sublist name ents).map Prod.fst)
  have hn₁ : NamesDistinct (treePrune i ents p name t) := hr₁.namesDistinct hz₁ Sum.inl fun _ => rfl
  have hnd : ∀ es, Kind.dir ((addToList dname s dents).map entry) = (Kind.dir es : Kind N F) → (es.map Prod.fst).Nodup := by
    intro es he
    cases he
    rw [map_fst_entry]
    exact nodup_addToList s (hn₁ q j dents hq) dname
  cases hc : findDirlist dname dents with
  | none => exact (hr₁.graft hq hn₁ hc).wellFormed (hz₁.update hnd)
  | some c => exact (hr₁.graft_replace hq hn₁ hc (hl c hc)).wellFormed (hz₁.remove.update hnd)

end Edits

theorem WellFormed.setFile {f f' : F} (hw : WellFormed t) (h : findSubtree p t = some (file i f)) :
    WellFormed (updateSubtree p (file i f') t) := by
  obtain ⟨Z, hr, hz⟩ := hw.rep
  refine (hr.setFile h hw.names f').wellFormed (hz.update fun es he => ?_)
  cases he

theorem WellFormed.mapFiles (g : Nat → F → F) (hw : WellFormed t) : WellFormed (mapFiles g t) := by
  obtain ⟨Z, hr, hz⟩ := hw.rep
  refine (hr.mapFiles g).wellFormed fun i es hi => ?_
  obtain ⟨c, hc, he⟩ := Option.map_eq_some_iff.1 hi
  cases c with
  | file f => cases he
  | dir es' =>
    cases he
    exact hz i es hc

end Dirtree

end Fscq
