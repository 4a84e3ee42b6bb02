import Mathlib.Algebra.Group.Int.Defs
import Mathlib.Algebra.Group.Nat.Defs
import Mathlib.Data.List.Nodup
import Mathlib.Logic.Function.Basic
import Mathlib.Tactic.Common

/-!
# Directory trees

A `Dirtree` is a file or a directory with named subtrees; every node has an inode number. `findSubtree` walks down a path,
`updateSubtree` replaces the subtree at a path, `treePrune` removes an entry and `treeGraft` adds or replaces one. The edits
are described by `view`, the label of the node at a path: an edit changes the label of one directory and what is below one
of its names, and nothing else.
-/

namespace Fscq

inductive Dirtree (N F : Type) : Type
  | file (inum : Nat) (f : F)
  | dir (inum : Nat) (ents : List (N × Dirtree N F))

namespace Dirtree

variable {N F : Type}

def inum : Dirtree N F → Nat
  | file inum _ => inum
  | dir inum _ => inum

def isdir : Dirtree N F → Bool
  | file _ _ => false
  | dir _ _ => true

section Source

variable [DecidableEq N]

def findSubtreeHelper {T : Type} (rec : Dirtree N F → Option T) (name : N) (dirent : N × Dirtree N F) (accum : Option T) :
    Option T :=
  if dirent.1 = name then rec dirent.2 else accum

def findSubtree : List N → Dirtree N F → Option (Dirtree N F)
  | [], tree => some tree
  | _ :: _, file _ _ => none
  | name :: suffix, dir _ dirents => dirents.foldr (findSubtreeHelper (findSubtree suffix) name) none

def findName (fnlist : List N) (tree : Dirtree N F) : Option (Nat × Bool) :=
  match findSubtree fnlist tree with
  | none => none
  | some (file inum _) => some (inum, false)
  | some (dir inum _) => some (inum, true)

def findDirlist (name : N) : List (N × Dirtree N F) → Option (Dirtree N F)
  | [] => none
  | e :: rest => if e.1 = name then some e.2 else findDirlist name rest

def updateSubtreeHelper (rec : Dirtree N F → Dirtree N F) (name : N) (dirent : N × Dirtree N F) : N × Dirtree N F :=
  if dirent.1 = name then (dirent.1, rec dirent.2) else dirent

def updateSubtree : List N → Dirtree N F → Dirtree N F → Dirtree N F
  | [], subtree, _ => subtree
  | _ :: _, _, file inum f => file inum f
  | name :: rest, subtree, dir inum ents => dir inum (ents.map (updateSubtreeHelper (updateSubtree rest subtree) name))

def deleteFromList (name : N) : List (N × Dirtree N F) → List (N × Dirtree N F)
  | [] => []
  | hd :: rest => if hd.1 = name then rest else hd :: deleteFromList name rest

def deleteFromDir (name : N) : Dirtree N F → Dirtree N F
  | file inum f => file inum f
  | dir inum ents => dir inum (deleteFromList name ents)

/-- Add or update an entry. -/
def addToList (name : N) (item : Dirtree N F) : List (N × Dirtree N F) → List (N × Dirtree N F)
  | [] => [(name, item)]
  | hd :: rest => if hd.1 = name then (name, item) :: rest else hd :: addToList name item rest

def addToDir (name : N) (item : Dirtree N F) : Dirtree N F → Dirtree N F
  | file inum f => file inum f
  | dir inum ents => dir inum (addToList name item ents)

def treePrune (snum : Nat) (sents : List (N × Dirtree N F)) (srcpath : List N) (srcname : N) (tree : Dirtree N F) :
    Dirtree N F :=
  updateSubtree srcpath (deleteFromDir srcname (dir snum sents)) tree

def treeGraft (dnum : Nat) (dents : List (N × Dirtree N F)) (dstpath : List N) (dstname : N) (subtree tree : Dirtree N F) :
    Dirtree N F :=
  updateSubtree dstpath (addToDir dstname subtree (dir dnum dents)) tree

end Source

/-! ## Labels -/

/-- What a node is, apart from its number: a file, or a directory with what its entries say. -/
inductive Kind (N F : Type) : Type
  | file (f : F)
  | dir (ents : List (N × (Nat × Bool)))

def Kind.isdir : Kind N F → Bool
  | file _ => false
  | dir _ => true

def entry (e : N × Dirtree N F) : N × (Nat × Bool) := (e.1, (e.2.inum, e.2.isdir))

def label : Dirtree N F → Nat × Kind N F
  | file inum f => (inum, .file f)
  | dir inum ents => (inum, .dir (ents.map entry))

@[simp] theorem label_fst (t : Dirtree N F) : t.label.1 = t.inum := by cases t <;> rfl

@[simp] theorem label_isdir (t : Dirtree N F) : t.label.2.isdir = t.isdir := by cases t <;> rfl

theorem map_fst_entry (ents : List (N × Dirtree N F)) : (ents.map entry).map Prod.fst = ents.map Prod.fst := by
  simp [entry, Function.comp_def]

variable [DecidableEq N]

/-- The label of the node at a path. -/
def view (p : List N) (t : Dirtree N F) : Option (Nat × Kind N F) := (findSubtree p t).map label

def NamesDistinct (t : Dirtree N F) : Prop :=
  ∀ p i ents, findSubtree p t = some (dir i ents) → (ents.map Prod.fst).Nodup

def InodesDistinct (t : Dirtree N F) : Prop :=
  ∀ p q u v, findSubtree p t = some u → findSubtree q t = some v → u.inum = v.inum → p = q

/-! ## Walking down -/

theorem foldr_findSubtreeHelper {T : Type} (rec : Dirtree N F → Option T) (name : N) (ents : List (N × Dirtree N F)) :
    ents.foldr (findSubtreeHelper rec name) none = (findDirlist name ents).bind rec := by
  induction ents with
  | nil => rfl
  | cons e ents ih =>
    rw [List.foldr_cons, findSubtreeHelper, ih, findDirlist]
    split <;> rfl

@[simp] theorem findSubtree_nil (t : Dirtree N F) : findSubtree [] t = some t := by
  cases t <;> rfl

@[simp] theorem findSubtree_cons_file (name : N) (p : List N) (i : Nat) (f : F) : findSubtree (name :: p) (file i f) = none :=
  rfl

@[simp] theorem findSubtree_cons_dir (name : N) (p : List N) (i : Nat) (ents : List (N × Dirtree N F)) :
    findSubtree (name :: p) (dir i ents) = (findDirlist name ents).bind (findSubtree p) :=
  foldr_findSubtreeHelper _ _ _

/-- Walking down `p ++ q` is walking down `p`, then `q` from there. -/
theorem findSubtree_append (p q : List N) (t : Dirtree N F) :
    findSubtree (p ++ q) t = (findSubtree p t).bind (findSubtree q) := by
  induction p generalizing t with
  | nil => simp
  | cons name p ih =>
    cases t with
    | file i f => rfl
    | dir i ents =>
      rw [List.cons_append, findSubtree_cons_dir, findSubtree_cons_dir]
      cases findDirlist name ents with
      | none => rfl
      | some c => exact ih c

theorem findName_eq (p : List N) (t : Dirtree N F) : findName p t = (findSubtree p t).map fun u => (u.inum, u.isdir) := by
  rw [findName]
  cases findSubtree p t with
  | none => rfl
  | some u => cases u <;> rfl

@[simp] theorem view_nil (t : Dirtree N F) : view [] t = some t.label := by simp [view]

theorem view_cons_dir (name : N) (p : List N) (i : Nat) (ents : List (N × Dirtree N F)) :
    view (name :: p) (dir i ents) = (findDirlist name ents).bind (view p) := by
  rw [view, findSubtree_cons_dir]
  cases findDirlist name ents <;> rfl

theorem view_append (p q : List N) (t : Dirtree N F) : view (p ++ q) t = (findSubtree p t).bind (view q) := by
  rw [view, findSubtree_append]
  cases findSubtree p t <;> rfl

theorem view_of_find {p : List N} {t u : Dirtree N F} (h : findSubtree p t = some u) : view p t = some u.label := by
  rw [view, h]
  rfl

theorem NamesDistinct.sub {p : List N} {t u : Dirtree N F} (hn : NamesDistinct t) (h : findSubtree p t = some u) :
    NamesDistinct u := fun q i ents hq => hn (p ++ q) i ents (by rw [findSubtree_append, h]; exact hq)

theorem NamesDistinct.ents {i : Nat} {ents : List (N × Dirtree N F)} (hn : NamesDistinct (dir i ents)) :
    (ents.map Prod.fst).Nodup := hn [] i ents (findSubtree_nil _)

/-! ## Replacing a subtree -/

theorem findDirlist_map_helper (rec : Dirtree N F → Dirtree N F) (name s : N) (ents : List (N × Dirtree N F)) :
    findDirlist s (ents.map (updateSubtreeHelper rec name)) =
      if s = name then (findDirlist s ents).map rec else findDirlist s ents := by
  induction ents with
  | nil => simp [findDirlist]
  | cons e ents ih =>
    obtain ⟨k, c⟩ := e
    have hfst : (updateSubtreeHelper rec name (k, c)).1 = k := by
      rw [updateSubtreeHelper]
      split <;> rfl
    rw [List.map_cons, findDirlist, findDirlist, hfst, ih]
    by_cases hk : k = s
    · subst hk
      by_cases hn : k = name <;> simp [updateSubtreeHelper, hn]
    · rw [if_neg hk, if_neg hk]

theorem mem_of_findDirlist {name : N} {c : Dirtree N F} {ents : List (N × Dirtree N F)} (h : findDirlist name ents = some c) :
    (name, c) ∈ ents := by
  induction ents with
  | nil => cases h
  | cons e ents ih =>
    rw [findDirlist] at h
    split at h
    · rename_i he
      cases h
      rw [← he]
      exact List.mem_cons_self
    · exact List.mem_cons_of_mem _ (ih h)

theorem entry_updateSubtreeHelper {rec : Dirtree N F → Dirtree N F} {name : N} {e : N × Dirtree N F}
    (h : e.1 = name → (rec e.2).inum = e.2.inum ∧ (rec e.2).isdir = e.2.isdir) :
    entry (updateSubtreeHelper rec name e) = entry e := by
  rw [updateSubtreeHelper]
  split
  · rename_i he
    rw [entry, entry, (h he).1, (h he).2]
  · rfl

/-- The root keeps its number and kind when a subtree is replaced by one with the same number and kind. -/
theorem updateSubtree_root {p : List N} {t old new : Dirtree N F} (h : findSubtree p t = some old)
    (hi : new.inum = old.inum) (hd : new.isdir = old.isdir) :
    (updateSubtree p new t).inum = t.inum ∧ (updateSubtree p new t).isdir = t.isdir := by
  cases p with
  | nil =>
    rw [findSubtree_nil] at h
    cases h
    exact ⟨hi, hd⟩
  | cons name p => cases t <;> exact ⟨rfl, rfl⟩

section Root

variable {p : List N} {t : Dirtree N F} {i : Nat} {ents : List (N × Dirtree N F)} (h : findSubtree p t = some (dir i ents))
include h

theorem treePrune_root (name : N) :
    (treePrune i ents p name t).inum = t.inum ∧ (treePrune i ents p name t).isdir = t.isdir := updateSubtree_root h rfl rfl

theorem treeGraft_root (name : N) (s : Dirtree N F) :
    (treeGraft i ents p name s t).inum = t.inum ∧ (treeGraft i ents p name s t).isdir = t.isdir := updateSubtree_root h rfl rfl

end Root

/-- A directory above the replaced subtree. -/
theorem findSubtree_updateSubtree_above (p q : List N) (new t : Dirtree N F) :
    findSubtree p (updateSubtree (p ++ q) new t) = (findSubtree p t).map (updateSubtree q new) := by
  induction p generalizing t with
  | nil => simp
  | cons name p ih =>
    cases t with
    | file i f => rfl
    | dir i ents =>
      rw [List.cons_append, updateSubtree, findSubtree_cons_dir, findSubtree_cons_dir, findDirlist_map_helper, if_pos rfl]
      cases findDirlist name ents with
      | none => rfl
      | some c => exact ih c

theorem view_updateSubtree_below {p : List N} {t old : Dirtree N F} (h : findSubtree p t = some old) (new : Dirtree N F)
    (q : List N) : view (p ++ q) (updateSubtree p new t) = view q new := by
  induction p generalizing t with
  | nil => cases t <;> rfl
  | cons name p ih =>
    cases t with
    | file i f => cases h
    | dir i ents =>
      rw [findSubtree_cons_dir, Option.bind_eq_some_iff] at h
      obtain ⟨c, hc, hfind⟩ := h
      rw [updateSubtree, List.cons_append, view_cons_dir, findDirlist_map_helper, if_pos rfl, hc]
      exact ih hfind

/-- A path that does not go through the replaced subtree. -/
theorem view_updateSubtree_outside {p r : List N} {t old new : Dirtree N F} (hn : NamesDistinct t)
    (h : findSubtree p t = some old) (hi : new.inum = old.inum) (hd : new.isdir = old.isdir) (hr : ¬ p <+: r) :
    view r (updateSubtree p new t) = view r t := by
  induction p generalizing t r with
  | nil => exact absurd (List.nil_prefix) hr
  | cons name p ih =>
    cases t with
    | file i f => cases h
    | dir i ents =>
      rw [findSubtree_cons_dir, Option.bind_eq_some_iff] at h
      obtain ⟨c, hc, hfind⟩ := h
      have hent : (name, c) ∈ ents := mem_of_findDirlist hc
      cases r with
      | nil =>
        -- the entry of the changed child says what it said
        rw [updateSubtree, view_nil, view_nil, label, label, List.map_map]
        have hmap : ents.map (entry ∘ updateSubtreeHelper (updateSubtree p new) name) = ents.map entry := by
          refine List.map_congr_left fun e he => entry_updateSubtreeHelper fun hname => ?_
          have hec : e = (name, c) := by
            refine List.inj_on_of_nodup_map hn.ents he hent ?_
            exact hname
          rw [hec]
          exact updateSubtree_root hfind hi hd
        rw [hmap]
      | cons s r =>
        rw [updateSubtree, view_cons_dir, view_cons_dir, findDirlist_map_helper]
        by_cases hs : s = name
        · subst hs
          rw [if_pos rfl, hc]
          refine ih (hn.sub (p := [s]) (by simp [hc])) hfind fun hpre => hr ?_
          exact List.cons_prefix_cons.mpr ⟨rfl, hpre⟩
        · rw [if_neg hs]

/-! ## Entries -/

theorem findDirlist_eq_none {name : N} {ents : List (N × Dirtree N F)} (h : name ∉ ents.map Prod.fst) :
    findDirlist name ents = none := by
  cases hf : findDirlist name ents with
  | none => rfl
  | some c => exact absurd (List.mem_map_of_mem (mem_of_findDirlist hf)) h

theorem findDirlist_deleteFromList {name : N} {ents : List (N × Dirtree N F)} (hn : (ents.map Prod.fst).Nodup) (s : N) :
    findDirlist s (deleteFromList name ents) = if s = name then none else findDirlist s ents := by
  induction ents with
  | nil => simp [deleteFromList, findDirlist]
  | cons e ents ih =>
    obtain ⟨k, c⟩ := e
    rw [List.map_cons, List.nodup_cons] at hn
    rw [deleteFromList, findDirlist]
    by_cases hk : k = name
    · subst hk
      rw [if_pos rfl]
      by_cases hs : s = k
      · subst hs
        rw [if_pos rfl]
        exact findDirlist_eq_none hn.1
      · rw [if_neg hs, if_neg fun h => hs h.symm]
    · rw [if_neg hk, findDirlist, ih hn.2]
      by_cases hs : k = s
      · subst hs
        simp [hk]
      · rw [if_neg hs, if_neg hs]

theorem findDirlist_addToList (name : N) (item : Dirtree N F) (ents : List (N × Dirtree N F)) (s : N) :
    findDirlist s (addToList name item ents) = if s = name then some item else findDirlist s ents := by
  induction ents with
  | nil =>
    simp only [addToList, findDirlist, eq_comm]
  | cons e ents ih =>
    obtain ⟨k, c⟩ := e
    rw [addToList, findDirlist]
    by_cases hk : k = name
    · subst hk
      rw [if_pos rfl, findDirlist]
      by_cases hs : k = s
      · rw [if_pos hs, if_pos hs.symm]
      · rw [if_neg hs, if_neg hs, if_neg fun h => hs h.symm]
    · rw [if_neg hk, findDirlist, ih]
      by_cases hs : k = s
      · subst hs
        simp [hk]
      · rw [if_neg hs, if_neg hs]

theorem addToList_perm (name : N) (item : Dirtree N F) (ents : List (N × Dirtree N F)) :
    (addToList name item ents).Perm ((name, item) :: deleteFromList name ents) := by
  induction ents with
  | nil => exact .refl _
  | cons e ents ih =>
    rw [addToList, deleteFromList]
    by_cases hk : e.1 = name
    · rw [if_pos hk, if_pos hk]
    · rw [if_neg hk, if_neg hk]
      exact (ih.cons e).trans (.swap _ _ _)

theorem deleteFromList_perm {name : N} {c : Dirtree N F} {ents : List (N × Dirtree N F)} (h : findDirlist name ents = some c) :
    ents.Perm ((name, c) :: deleteFromList name ents) := by
  induction ents with
  | nil => cases h
  | cons e ents ih =>
    obtain ⟨k, c'⟩ := e
    rw [findDirlist] at h
    rw [deleteFromList]
    by_cases hk : k = name
    · subst hk
      rw [if_pos rfl] at h ⊢
      cases h
      exact .refl _
    · rw [if_neg hk] at h ⊢
      exact ((ih h).cons _).trans (.swap _ _ _)

theorem deleteFromList_sublist (name : N) (ents : List (N × Dirtree N F)) : (deleteFromList name ents).Sublist ents := by
  induction ents with
  | nil => exact .slnil
  | cons e ents ih =>
    rw [deleteFromList]
    split
    · exact List.sublist_cons_self _ _
    · exact ih.cons_cons e

theorem deleteFromList_of_none {name : N} {ents : List (N × Dirtree N F)} (h : findDirlist name ents = none) :
    deleteFromList name ents = ents := by
  induction ents with
  | nil => rfl
  | cons e ents ih =>
    rw [findDirlist] at h
    rw [deleteFromList]
    split at h
    · cases h
    · rename_i hk
      rw [if_neg hk, ih h]

/-! ## Editing a directory -/

section Edit

variable {p : List N} {name : N} {t : Dirtree N F} {i : Nat} {ents ents' : List (N × Dirtree N F)}
  (h : findSubtree p t = some (dir i ents))
include h

theorem view_edit_self (ents' : List (N × Dirtree N F)) :
    view p (updateSubtree p (dir i ents') t) = some (i, .dir (ents'.map entry)) := by
  have hview := view_updateSubtree_below h (dir i ents') []
  rwa [List.append_nil, view_nil] at hview

theorem view_edit_below (ents' : List (N × Dirtree N F)) (name : N) (q : List N) :
    view (p ++ name :: q) (updateSubtree p (dir i ents') t) = (findDirlist name ents').bind (view q) := by
  rw [view_updateSubtree_below h, view_cons_dir]

theorem view_edit_other (hn : NamesDistinct t) (hents : ∀ s, s ≠ name → findDirlist s ents' = findDirlist s ents) {r : List N}
    (hp : r ≠ p) (hr : ¬ p ++ [name] <+: r) : view r (updateSubtree p (dir i ents') t) = view r t := by
  by_cases hpre : p <+: r
  · obtain ⟨q, rfl⟩ := hpre
    cases q with
    | nil => exact absurd (List.append_nil p) hp
    | cons s q =>
      have hs : s ≠ name := by
        rintro rfl
        exact hr ⟨q, by simp⟩
      rw [view_edit_below h, hents s hs, view_append, h, Option.bind_some, view_cons_dir]
  · exact view_updateSubtree_outside hn h rfl rfl hpre

end Edit

end Dirtree

end Fscq
