import Fscq.Dir.TreeNodes

/-!
# The files of a tree

`mapFiles` gives every file of a tree other contents and leaves its shape as it is. `HasNode t i b` says that `t` has a node
with the number `i`, a directory if `b` holds: an edit of a tree brings in no other nodes than those of the subtree that is
put in.
-/

namespace Fscq

namespace Dirtree

variable {N F : Type}

mutual

/-- Every file gets the contents that `g` gives for its number and its contents. -/
def mapFiles (g : Nat → F → F) : Dirtree N F → Dirtree N F
  | file i f => file i (g i f)
  | dir i ents => dir i (mapEnts g ents)

def mapEnts (g : Nat → F → F) : List (N × Dirtree N F) → List (N × Dirtree N F)
  | [] => []
  | (name, t) :: ents => (name, mapFiles g t) :: mapEnts g ents

end

def Kind.mapFile (g : F → F) : Kind N F → Kind N F
  | file f => file (g f)
  | dir ents => dir ents

mutual

theorem mapFiles_id : ∀ t : Dirtree N F, mapFiles (fun _ f => f) t = t
  | file _ _ => rfl
  | dir i ents => congrArg (dir i) (mapEnts_id ents)

theorem mapEnts_id : ∀ ents : List (N × Dirtree N F), mapEnts (fun _ f => f) ents = ents
  | [] => rfl
  | (name, t) :: ents => by rw [mapEnts, mapFiles_id t, mapEnts_id ents]

end

section MapFiles

variable (g : Nat → F → F)

@[simp] theorem inum_mapFiles (t : Dirtree N F) : (mapFiles g t).inum = t.inum := by cases t <;> rfl

@[simp] theorem isdir_mapFiles (t : Dirtree N F) : (mapFiles g t).isdir = t.isdir := by cases t <;> rfl

theorem map_entry_mapEnts (ents : List (N × Dirtree N F)) : (mapEnts g ents).map entry = ents.map entry := by
  induction ents with
  | nil => rfl
  | cons e ents ih =>
    rw [mapEnts, List.map_cons, List.map_cons, ih, entry, entry, inum_mapFiles, isdir_mapFiles]

theorem label_mapFiles (t : Dirtree N F) : (mapFiles g t).label = (t.inum, t.label.2.mapFile (g t.inum)) := by
  cases t with
  | file i f => rfl
  | dir i ents => rw [mapFiles, label, map_entry_mapEnts]; rfl

variable [DecidableEq N]

theorem findDirlist_mapEnts (name : N) (ents : List (N × Dirtree N F)) :
    findDirlist name (mapEnts g ents) = (findDirlist name ents).map (mapFiles g) := by
  induction ents with
  | nil => rfl
  | cons e ents ih =>
    rw [mapEnts, findDirlist, findDirlist, ih]
    split <;> rfl

/-- Paths lead to the same nodes. -/
theorem findSubtree_mapFiles (p : List N) (t : Dirtree N F) :
    findSubtree p (mapFiles g t) = (findSubtree p t).map (mapFiles g) := by
  induction p generalizing t with
  | nil => rw [findSubtree_nil, findSubtree_nil, Option.map_some]
  | cons name p ih =>
    cases t with
    | file i f => rfl
    | dir i ents =>
      rw [mapFiles, findSubtree_cons_dir, findSubtree_cons_dir, findDirlist_mapEnts]
      cases findDirlist name ents with
      | none => rfl
      | some c => exact ih c

theorem view_mapFiles (p : List N) (t : Dirtree N F) :
    view p (mapFiles g t) = (view p t).map fun v => (v.1, v.2.mapFile (g v.1)) := by
  rw [view, view, findSubtree_mapFiles]
  cases findSubtree p t with
  | none => rfl
  | some u => simp [label_mapFiles]

theorem Rep.mapFiles {t : Dirtree N F} {Z : Nodes N F} (hr : Rep (fun p => view p t) Z) :
    Rep (fun p => view p (mapFiles g t)) fun i => (Z i).map (Kind.mapFile (g i)) := by
  have hview : ∀ {p i c}, view p (Dirtree.mapFiles g t) = some (i, c) → ∃ c₀, view p t = some (i, c₀) ∧ c₀.mapFile (g i) = c := by
    intro p i c hp
    rw [view_mapFiles, Option.map_eq_some_iff] at hp
    obtain ⟨⟨j, c₀⟩, hv, he⟩ := hp
    cases he
    exact ⟨c₀, hv, rfl⟩
  refine ⟨fun {p i c} hp => ?_, fun {p q i c c'} hp hq => ?_, fun {i c} hi => ?_⟩
  · obtain ⟨c₀, hv, rfl⟩ := hview hp
    rw [hr.node hv, Option.map_some]
  · obtain ⟨c₀, hv, _⟩ := hview hp
    obtain ⟨c₁, hw, _⟩ := hview hq
    exact hr.inj hv hw
  · obtain ⟨c₀, hc₀, rfl⟩ := Option.map_eq_some_iff.1 hi
    obtain ⟨p, hp⟩ := hr.surj hc₀
    exact ⟨p, by rw [view_mapFiles, hp, Option.map_some]⟩

/-- The trees differ in the contents of files only. -/
theorem findSubtree_mapFiles_file {p : List N} {t : Dirtree N F} {i : Nat} {f : F} :
    findSubtree p (mapFiles g t) = some (file i f) ↔ ∃ f₀, findSubtree p t = some (file i f₀) ∧ g i f₀ = f := by
  rw [findSubtree_mapFiles, Option.map_eq_some_iff]
  constructor
  · rintro ⟨u, hu, he⟩
    cases u with
    | file j f₀ =>
      cases he
      exact ⟨f₀, hu, rfl⟩
    | dir j ents => cases he
  · rintro ⟨f₀, hf, rfl⟩
    exact ⟨_, hf, rfl⟩

end MapFiles

/-! ## Nodes of a tree -/

section HasNode

variable [DecidableEq N]

/-- There is a node with the number `i`, a directory if `b` holds. -/
def HasNode (t : Dirtree N F) (i : Nat) (b : Bool) : Prop := ∃ p u, findSubtree p t = some u ∧ u.inum = i ∧ u.isdir = b

variable {t u : Dirtree N F} {p : List N} {i j : Nat} {b b' : Bool}

theorem hasNode_of_find (h : findSubtree p t = some u) : HasNode t u.inum u.isdir := ⟨p, u, h, rfl, rfl⟩

theorem hasNode_mapFiles (g : Nat → F → F) : HasNode (mapFiles g t) i b ↔ HasNode t i b := by
  constructor
  · rintro ⟨p, u, hu, hi, hb⟩
    rw [findSubtree_mapFiles] at hu
    obtain ⟨u₀, hu₀, rfl⟩ := Option.map_eq_some_iff.1 hu
    exact ⟨p, u₀, hu₀, (inum_mapFiles g u₀).symm.trans hi, (isdir_mapFiles g u₀).symm.trans hb⟩
  · rintro ⟨p, u, hu, hi, hb⟩
    refine ⟨p, mapFiles g u, ?_, (inum_mapFiles g u).trans hi, (isdir_mapFiles g u).trans hb⟩
    rw [findSubtree_mapFiles, hu, Option.map_some]

theorem HasNode.of_sub (h : findSubtree p t = some u) (hu : HasNode u i b) : HasNode t i b := by
  obtain ⟨q, v, hq, hi, hb⟩ := hu
  refine ⟨p ++ q, v, ?_, hi, hb⟩
  rw [findSubtree_append, h]
  exact hq

theorem HasNode.unique (hd : InodesDistinct t) (h : HasNode t i b) (h' : HasNode t i b') : b = b' := by
  obtain ⟨p, u, hp, hi, rfl⟩ := h
  obtain ⟨q, v, hq, hj, rfl⟩ := h'
  obtain rfl := hd p q u v hp hq (hi.trans hj.symm)
  rw [Option.some_inj.1 (hp.symm.trans hq)]

/-- A node of a tree with a subtree replaced. -/
theorem hasNode_updateSubtree {new : Dirtree N F} : ∀ {p : List N} {t : Dirtree N F},
    HasNode (updateSubtree p new t) i b → HasNode t i b ∨ HasNode new i b
  | [], t, h => .inr (by cases t <;> exact h)
  | name :: p, file j f, h => .inl h
  | name :: p, dir j ents, ⟨[], u, hu, hi, hb⟩ => by
    rw [findSubtree_nil, Option.some_inj] at hu
    subst hu
    exact .inl ⟨[], _, findSubtree_nil _, hi, hb⟩
  | name :: p, dir j ents, ⟨s :: q, u, hu, hi, hb⟩ => by
    rw [updateSubtree, findSubtree_cons_dir, findDirlist_map_helper] at hu
    split at hu
    · cases hc : findDirlist s ents with
      | none =>
        rw [hc] at hu
        cases hu
      | some c =>
        rw [hc] at hu
        have hsub : findSubtree [s] (dir j ents) = some c := by simp [hc]
        have hnode : HasNode (updateSubtree p new c) i b := ⟨q, u, hu, hi, hb⟩
        exact (hasNode_updateSubtree hnode).imp (HasNode.of_sub hsub) id
    · exact .inl ⟨s :: q, u, by rw [findSubtree_cons_dir]; exact hu, hi, hb⟩

theorem hasNode_file {f : F} (h : HasNode (file j f : Dirtree N F) i b) : j = i ∧ b = false := by
  obtain ⟨p, u, hp, rfl, rfl⟩ := h
  cases p with
  | nil =>
    cases hp
    exact ⟨rfl, rfl⟩
  | cons name p => cases hp

/-- The nodes of a directory with other entries are the directory and what is below the entries. -/
theorem hasNode_dir {ents : List (N × Dirtree N F)} (h : HasNode (dir j ents) i b) :
    (j = i ∧ b = true) ∨ ∃ name c, findDirlist name ents = some c ∧ HasNode c i b := by
  obtain ⟨p, u, hp, hi, hb⟩ := h
  cases p with
  | nil =>
    cases hp
    exact .inl ⟨hi, hb.symm⟩
  | cons name p =>
    rw [findSubtree_cons_dir, Option.bind_eq_some_iff] at hp
    obtain ⟨c, hc, hp⟩ := hp
    exact .inr ⟨name, c, hc, p, u, hp, hi, hb⟩

section Edits

variable {name : N} {ents : List (N × Dirtree N F)} {s : Dirtree N F} (h : findSubtree p t = some (dir j ents))
include h

theorem hasNode_treeGraft (hn : HasNode (treeGraft j ents p name s t) i b) : HasNode t i b ∨ HasNode s i b := by
  rcases hasNode_updateSubtree hn with hn | hn
  · exact .inl hn
  rcases hasNode_dir hn with ⟨rfl, rfl⟩ | ⟨k, c, hc, hn⟩
  · exact .inl (hasNode_of_find h)
  · rw [findDirlist_addToList] at hc
    split at hc
    · cases hc
      exact .inr hn
    · refine .inl (HasNode.of_sub h ?_)
      exact HasNode.of_sub (p := [k]) (by simp [hc]) hn

theorem hasNode_treePrune (hn : NamesDistinct t) (hs : HasNode (treePrune j ents p name t) i b) : HasNode t i b := by
  rcases hasNode_updateSubtree hs with hs | hs
  · exact hs
  rcases hasNode_dir hs with ⟨rfl, rfl⟩ | ⟨k, c, hc, hs⟩
  · exact hasNode_of_find h
  · rw [findDirlist_deleteFromList (hn.sub h).ents] at hc
    split at hc
    · cases hc
    · refine HasNode.of_sub h ?_
      exact HasNode.of_sub (p := [k]) (by simp [hc]) hs

end Edits

end HasNode

/-! ## An entry that is replaced again -/

section Replace

variable [DecidableEq N] {p : List N} {t : Dirtree N F} {j : Nat} {name : N} {ents : List (N × Dirtree N F)}

/-- Below a subtree that was put in. -/
theorem updateSubtree_append (q : List N) (new u : Dirtree N F) : ∀ (p : List N) (t : Dirtree N F),
    updateSubtree (p ++ q) new (updateSubtree p u t) = updateSubtree p (updateSubtree q new u) t
  | [], t => by cases t <;> rfl
  | name :: p, file i f => rfl
  | name :: p, dir i ents => by
    simp only [List.cons_append, updateSubtree, List.map_map, dir.injEq, true_and]
    refine List.map_congr_left fun e _ => ?_
    by_cases he : e.1 = name
    · simp only [Function.comp, updateSubtreeHelper, if_pos he, updateSubtree_append q new u p e.2]
    · simp only [Function.comp, updateSubtreeHelper, if_neg he]

theorem map_updateSubtreeHelper_addToList (new s : Dirtree N F) (hno : findDirlist name ents = none) :
    (addToList name s ents).map (updateSubtreeHelper (updateSubtree [] new) name) = addToList name new ents := by
  induction ents with
  | nil => simp [addToList, updateSubtreeHelper, updateSubtree]
  | cons e ents ih =>
    rw [findDirlist] at hno
    split at hno
    · cases hno
    · rename_i he
      rw [addToList, addToList, if_neg he, if_neg he, List.map_cons, ih hno, updateSubtreeHelper, if_neg he]

/-- A new entry is replaced. -/
theorem updateSubtree_treeGraft (new s : Dirtree N F) (hno : findDirlist name ents = none) :
    updateSubtree (p ++ [name]) new (treeGraft j ents p name s t) = treeGraft j ents p name new t := by
  rw [treeGraft, updateSubtree_append, addToDir, updateSubtree, map_updateSubtreeHelper_addToList new s hno]
  rfl

theorem findSubtree_treeGraft (hp : findSubtree p t = some (dir j ents)) (name : N) (s : Dirtree N F) :
    findSubtree (p ++ [name]) (treeGraft j ents p name s t) = some s := by
  have hdir := findSubtree_updateSubtree_above p [] (addToDir name s (dir j ents)) t
  rw [List.append_nil, hp, Option.map_some] at hdir
  have hnew : updateSubtree [] (addToDir name s (dir j ents)) (dir j ents) = addToDir name s (dir j ents) := rfl
  rw [findSubtree_append, treeGraft, hdir, Option.bind_some, hnew, addToDir, findSubtree_cons_dir, findDirlist_addToList,
    if_pos rfl]
  rfl

end Replace

/-! ## A tree that differs in some files -/

section Congr

variable [DecidableEq N] {g g' : Nat → F → F}

theorem findDirlist_of_mem {name : N} {c : Dirtree N F} : ∀ {ents : List (N × Dirtree N F)}, (ents.map Prod.fst).Nodup →
    (name, c) ∈ ents → findDirlist name ents = some c
  | e :: ents, hn, hm => by
    rw [List.map_cons, List.nodup_cons] at hn
    rw [findDirlist]
    rcases List.mem_cons.1 hm with rfl | hm
    · exact if_pos rfl
    · have hname : name ∈ ents.map Prod.fst := List.mem_map.2 ⟨_, hm, rfl⟩
      rw [if_neg, findDirlist_of_mem hn.2 hm]
      rintro rfl
      exact hn.1 hname

mutual

/-- Only the files of the tree matter. -/
theorem mapFiles_congr : ∀ {t : Dirtree N F}, NamesDistinct t →
    (∀ p i f, findSubtree p t = some (file i f) → g i f = g' i f) → mapFiles g t = mapFiles g' t
  | file i f, _, h => congrArg (file i) (h [] i f (findSubtree_nil _))
  | dir i ents, hn, h => by
    have hfind : ∀ e ∈ ents, ∀ p, findSubtree (e.1 :: p) (dir i ents) = findSubtree p e.2 := by
      intro e he p
      rw [findSubtree_cons_dir, findDirlist_of_mem hn.ents he, Option.bind_some]
    refine congrArg (dir i) (mapEnts_congr ents (fun e he => ?_) fun e he p j f hp => h (e.1 :: p) j f ?_)
    · exact hn.sub (p := [e.1]) ((hfind e he []).trans (findSubtree_nil _))
    · rw [hfind e he, hp]

theorem mapEnts_congr : ∀ ents : List (N × Dirtree N F), (∀ e ∈ ents, NamesDistinct e.2) →
    (∀ e ∈ ents, ∀ p i f, findSubtree p e.2 = some (file i f) → g i f = g' i f) → mapEnts g ents = mapEnts g' ents
  | [], _, _ => rfl
  | (name, t) :: ents, hn, h => by
    rw [mapEnts, mapEnts, mapFiles_congr (hn _ List.mem_cons_self) (h _ List.mem_cons_self),
      mapEnts_congr ents (fun e he => hn e (List.mem_cons_of_mem _ he)) fun e he => h e (List.mem_cons_of_mem _ he)]

end

theorem mapFiles_eq_self {t : Dirtree N F} (hn : NamesDistinct t) (h : ∀ p i f, findSubtree p t = some (file i f) → g i f = f) :
    mapFiles g t = t := (mapFiles_congr hn h).trans (mapFiles_id t)

end Congr

/-! ## An entry of the root -/

section AddToDir

variable [DecidableEq N] {name : N} {s t : Dirtree N F}

theorem mapEnts_addToList (g : Nat → F → F) (name : N) (s : Dirtree N F) (ents : List (N × Dirtree N F)) :
    mapEnts g (addToList name s ents) = addToList name (mapFiles g s) (mapEnts g ents) := by
  induction ents with
  | nil => rfl
  | cons e ents ih =>
    rw [addToList, mapEnts, addToList]
    split
    · rw [mapEnts]
    · rw [mapEnts, ih]

theorem mapFiles_addToDir (g : Nat → F → F) (name : N) (s t : Dirtree N F) :
    mapFiles g (addToDir name s t) = addToDir name (mapFiles g s) (mapFiles g t) := by
  cases t with
  | file i f => rfl
  | dir i ents => exact congrArg (dir i) (mapEnts_addToList g name s ents)

theorem findSubtree_addToDir (ht : t.isdir = true) (p : List N) : findSubtree (name :: p) (addToDir name s t) = findSubtree p s := by
  cases t with
  | file i f => cases ht
  | dir i ents => rw [addToDir, findSubtree_cons_dir, findDirlist_addToList, if_pos rfl, Option.bind_some]

theorem findSubtree_addToDir_other {k : N} (hk : k ≠ name) (p : List N) :
    findSubtree (k :: p) (addToDir name s t) = findSubtree (k :: p) t := by
  cases t with
  | file i f => rfl
  | dir i ents => rw [addToDir, findSubtree_cons_dir, findSubtree_cons_dir, findDirlist_addToList, if_neg hk]

/-- A file of the tree is a file of the larger tree. -/
theorem findSubtree_addToDir_file (hno : findSubtree [name] t = none) {p : List N} {i : Nat} {f : F} (ht : t.isdir = true)
    (hp : findSubtree p t = some (file i f)) : findSubtree p (addToDir name s t) = some (file i f) := by
  cases p with
  | nil =>
    rw [findSubtree_nil, Option.some_inj] at hp
    subst hp
    cases ht
  | cons k p =>
    rw [findSubtree_addToDir_other, hp]
    rintro rfl
    have happ := findSubtree_append [k] p t
    rw [hno, List.singleton_append, hp] at happ
    cases happ

theorem find_entry_eq_none {i : Nat} {ents : List (N × Dirtree N F)} :
    findSubtree [name] (dir i ents) = none ↔ findDirlist name ents = none := by
  rw [findSubtree_cons_dir]
  cases findDirlist name ents with
  | none => exact Iff.rfl
  | some c => simp

theorem deleteFromDir_addToDir (hno : findSubtree [name] t = none) (s : Dirtree N F) :
    deleteFromDir name (addToDir name s t) = t := by
  cases t with
  | file i f => rfl
  | dir i ents =>
    have hnone := find_entry_eq_none.1 hno
    refine congrArg (dir i) ?_
    clear hno
    induction ents with
    | nil => simp [addToList, deleteFromList]
    | cons e ents ih =>
      rw [findDirlist] at hnone
      split at hnone
      · cases hnone
      · rename_i he
        rw [addToList, if_neg he, deleteFromList, if_neg he, ih hnone]

theorem updateSubtree_addToDir (hno : findSubtree [name] t = none) (new s : Dirtree N F) :
    updateSubtree [name] new (addToDir name s t) = addToDir name new t := by
  cases t with
  | file i f => rfl
  | dir i ents =>
    exact congrArg (dir i) (map_updateSubtreeHelper_addToList new s (find_entry_eq_none.1 hno))

end AddToDir

end Dirtree

end Fscq
