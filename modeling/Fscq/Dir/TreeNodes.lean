import Fscq.Dir.Tree

/-!
# The nodes of a tree by their numbers

A file system knows a tree by the numbers of its nodes: a partial map `Nodes` from numbers to what the node with this number
is. `Rep V Z` says that `Z` has exactly the nodes of the family `V`, and no number twice; `V` is the tree as a family over
its paths, or a tree with one subtree beside it, as it is in the middle of a rename. An edit of a tree is a change of `Z` at
one directory (`Rep.edit`).
-/

namespace Fscq

namespace Dirtree

variable {N F : Type}

abbrev Nodes (N F : Type) : Type := Nat → Option (Kind N F)

structure Rep {ι : Type} (V : ι → Option (Nat × Kind N F)) (Z : Nodes N F) : Prop where
  node : ∀ {k i c}, V k = some (i, c) → Z i = some c
  inj : ∀ {k l i c c'}, V k = some (i, c) → V l = some (i, c') → k = l
  surj : ∀ {i c}, Z i = some c → ∃ k, V k = some (i, c)

namespace Rep

variable {ι κ : Type} {V : ι → Option (Nat × Kind N F)} {V' : κ → Option (Nat × Kind N F)} {Z : Nodes N F}

/-- The nodes are at other places, and one of them, `o`, is changed. -/
theorem edit (hr : Rep V Z) (φ : κ → ι) {o : κ} {i : Nat} {c c' : Kind N F} (h₀ : V (φ o) = some (i, c))
    (h₀' : V' o = some (i, c')) (hinj : ∀ k l, V' k ≠ none → V' l ≠ none → φ k = φ l → k = l)
    (hother : ∀ k v, k ≠ o → V' k = some v → V (φ k) = some v) (honto : ∀ j v, V j = some v → ∃ k, φ k = j ∧ V' k ≠ none) :
    Rep V' (Function.update Z i (some c')) := by
  have hnum : ∀ {k a b}, V' k = some (a, b) → ∃ b', V (φ k) = some (a, b') := by
    intro k a b hk
    by_cases hkk : k = o
    · subst hkk
      rw [h₀'] at hk
      cases hk
      exact ⟨c, h₀⟩
    · exact ⟨b, hother k _ hkk hk⟩
  have hinj' : ∀ {k l a b b'}, V' k = some (a, b) → V' l = some (a, b') → k = l := by
    intro k l a b b' hk hl
    obtain ⟨_, hk'⟩ := hnum hk
    obtain ⟨_, hl'⟩ := hnum hl
    exact hinj k l (by simp [hk]) (by simp [hl]) (hr.inj hk' hl')
  refine ⟨fun {k a b} hk => ?_, hinj', fun {a b} hab => ?_⟩
  · by_cases ha : a = i
    · subst ha
      obtain rfl := hinj' hk h₀'
      rw [h₀'] at hk
      cases hk
      rw [Function.update_self]
    · rw [Function.update_of_ne ha]
      refine hr.node (hother k _ ?_ hk)
      rintro rfl
      rw [h₀'] at hk
      cases hk
      exact ha rfl
  · by_cases ha : a = i
    · subst ha
      rw [Function.update_self] at hab
      cases hab
      exact ⟨o, h₀'⟩
    · rw [Function.update_of_ne ha] at hab
      obtain ⟨j, hj⟩ := hr.surj hab
      obtain ⟨k, rfl, hk⟩ := honto j _ hj
      obtain ⟨v, hv⟩ := Option.ne_none_iff_exists'.mp hk
      refine ⟨k, ?_⟩
      have hne : k ≠ o := by
        rintro rfl
        rw [h₀] at hj
        cases hj
        exact ha rfl
      rw [hv, ← hother k v hne hv, hj]

/-- A node goes. -/
theorem remove [DecidableEq ι] (hr : Rep V Z) {o : ι} {i : Nat} {c : Kind N F} (h₀ : V o = some (i, c)) :
    Rep (Function.update V o none) (Function.update Z i none) := by
  have hold : ∀ {k v}, Function.update V o none k = some v → k ≠ o ∧ V k = some v := by
    intro k v hk
    by_cases hkk : k = o
    · subst hkk
      rw [Function.update_self] at hk
      cases hk
    · rw [Function.update_of_ne hkk] at hk
      exact ⟨hkk, hk⟩
  refine ⟨fun {k a b} hk => ?_, fun hk hl => hr.inj (hold hk).2 (hold hl).2, fun {a b} hab => ?_⟩
  · obtain ⟨hne, hk'⟩ := hold hk
    have ha : a ≠ i := by
      rintro rfl
      exact hne (hr.inj hk' h₀)
    rw [Function.update_of_ne ha]
    exact hr.node hk'
  · by_cases ha : a = i
    · subst ha
      rw [Function.update_self] at hab
      cases hab
    · rw [Function.update_of_ne ha] at hab
      obtain ⟨k, hk⟩ := hr.surj hab
      refine ⟨k, ?_⟩
      rw [Function.update_of_ne, hk]
      rintro rfl
      rw [h₀] at hk
      cases hk
      exact ha rfl

/-- Nothing is left beside. -/
theorem left {V : ι ⊕ κ → Option (Nat × Kind N F)} {W : ι → Option (Nat × Kind N F)} (hr : Rep V Z)
    (hinl : ∀ k, V (.inl k) = W k) (hinr : ∀ k, V (.inr k) = none) : Rep W Z := by
  refine ⟨fun {k i c} hk => hr.node ((hinl k).trans hk), fun {k l i c c'} hk hl => ?_, fun {i c} hic => ?_⟩
  · exact Sum.inl.inj (hr.inj ((hinl k).trans hk) ((hinl l).trans hl))
  · obtain ⟨k | k, hk⟩ := hr.surj hic
    · exact ⟨k, (hinl k).symm.trans hk⟩
    · rw [hinr] at hk
      cases hk

end Rep

/-! ## Trees -/

variable [DecidableEq N]

/-- A tree and a subtree that is not in it. -/
def view₂ (t s : Dirtree N F) : List N ⊕ List N → Option (Nat × Kind N F) := Sum.elim (fun p => view p t) fun p => view p s

/-- A file or an empty directory. -/
def Leaf : Dirtree N F → Prop
  | file _ _ => True
  | dir _ ents => ents = []

theorem Leaf.view {t : Dirtree N F} (h : Leaf t) (name : N) (p : List N) : view (name :: p) t = none := by
  cases t with
  | file i f => rfl
  | dir i ents =>
    obtain rfl : ents = [] := h
    rfl

theorem Rep.namesDistinct {ι : Type} {V : ι → Option (Nat × Kind N F)} {Z : Nodes N F} (hr : Rep V Z)
    (hz : ∀ i es, Z i = some (.dir es) → (es.map Prod.fst).Nodup) {t : Dirtree N F} (φ : List N → ι)
    (hφ : ∀ p, V (φ p) = view p t) : NamesDistinct t := by
  intro p i ents hp
  have hnode := hr.node ((hφ p).trans (view_of_find hp))
  have hnd := hz i _ hnode
  rwa [map_fst_entry] at hnd

section Edits

variable {p : List N} {name : N} {t s : Dirtree N F} {i : Nat} {ents : List (N × Dirtree N F)} {Z : Nodes N F}

theorem prefix_cases (p : List N) (name : N) (r : List N) : (∃ q, r = p ++ name :: q) ∨ ¬ p ++ [name] <+: r := by
  by_cases h : p ++ [name] <+: r
  · obtain ⟨q, rfl⟩ := h
    exact .inl ⟨q, by simp⟩
  · exact .inr h

variable (h : findSubtree p t = some (dir i ents)) (hn : NamesDistinct t)
include h hn

/-- The subtree of a name is taken out. -/
theorem Rep.prune (hr : Rep (fun r => view r t) Z) (hs : findDirlist name ents = some s) :
    Rep (view₂ (treePrune i ents p name t) s) (Function.update Z i (some (.dir ((deleteFromList name ents).map entry)))) := by
  have hlookup := @findDirlist_deleteFromList _ _ _ name _ (hn.sub h).ents
  have hbelow : ∀ q, view (p ++ name :: q) (treePrune i ents p name t) = none := fun q => by
    rw [treePrune, deleteFromDir, view_edit_below h, hlookup, if_pos rfl, Option.bind_none]
  have hother : ∀ r, r ≠ p → ¬ p ++ [name] <+: r → view r (treePrune i ents p name t) = view r t := fun r hp hpre =>
    view_edit_other h hn (fun s' hs' => by rw [hlookup, if_neg hs']) hp hpre
  have hself := view_edit_self h (deleteFromList name ents)
  have hold : ∀ q, view (p ++ name :: q) t = view q s := fun q => by
    rw [view_append, h, Option.bind_some, view_cons_dir, hs, Option.bind_some]
  refine hr.edit (Sum.elim id fun q => p ++ name :: q) (o := .inl p) (view_of_find h) hself ?_ ?_ ?_
  · rintro (r | q) (r' | q') hk hl hφ
    · exact congrArg _ hφ
    · obtain rfl : r = p ++ name :: q' := hφ
      exact absurd (hbelow q') hk
    · obtain rfl : p ++ name :: q = r' := hφ
      exact absurd (hbelow q) hl
    · have hq : q = q' := by simpa using hφ
      rw [hq]
  · rintro (r | q) v hne hv
    · rcases prefix_cases p name r with ⟨q, rfl⟩ | hpre
      · rw [view₂, Sum.elim_inl, hbelow] at hv
        cases hv
      · exact (hother r (fun hrp => hne (congrArg _ hrp)) hpre).symm.trans hv
    · exact (hold q).trans hv
  · intro r v hv
    rcases prefix_cases p name r with ⟨q, rfl⟩ | hpre
    · refine ⟨.inr q, rfl, ?_⟩
      rw [view₂, Sum.elim_inr, ← hold, hv]
      exact Option.some_ne_none v
    · refine ⟨.inl r, rfl, ?_⟩
      by_cases hrp : r = p
      · rw [hrp]
        exact fun hc => Option.some_ne_none _ (hself.symm.trans hc)
      · rw [view₂, Sum.elim_inl, hother r hrp hpre, hv]
        exact Option.some_ne_none v

/-- A subtree is put under a name. `V` is the tree without what was under this name, and the subtree. -/
theorem Rep.graft' {V : List N ⊕ List N → Option (Nat × Kind N F)} (hr : Rep V Z)
    (hnew : ∀ q, V (.inr q) = view q s) (hgone : ∀ q, V (.inl (p ++ name :: q)) = none)
    (hkeep : ∀ r, ¬ p ++ [name] <+: r → V (.inl r) = view r t) :
    Rep (fun r => view r (treeGraft i ents p name s t))
      (Function.update Z i (some (.dir ((addToList name s ents).map entry)))) := by
  have hlookup := findDirlist_addToList name s ents
  have hbelow : ∀ q, view (p ++ name :: q) (treeGraft i ents p name s t) = view q s := fun q => by
    rw [treeGraft, addToDir, view_edit_below h, hlookup, if_pos rfl, Option.bind_some]
  have hother : ∀ r, r ≠ p → ¬ p ++ [name] <+: r → view r (treeGraft i ents p name s t) = view r t := fun r hp hpre =>
    view_edit_other h hn (fun s' hs' => by rw [hlookup, if_neg hs']) hp hpre
  have hself := view_edit_self h (addToList name s ents)
  have hp : ¬ p ++ [name] <+: p := fun hc => by
    have hlen := hc.length_le
    rw [List.length_append, List.length_singleton] at hlen
    omega
  -- the keys below the name come from the subtree
  let φ : List N → List N ⊕ List N := fun r => if p ++ [name] <+: r then .inr (r.drop (p.length + 1)) else .inl r
  have hφb : ∀ q, φ (p ++ name :: q) = .inr q := fun q => by
    have hpre : p ++ [name] <+: p ++ name :: q := ⟨q, by simp⟩
    have hdrop : (p ++ name :: q).drop (p.length + 1) = q := by
      rw [show p ++ name :: q = (p ++ [name]) ++ q by simp]
      exact List.drop_left' (by simp)
    simp only [φ, if_pos hpre, hdrop]
  have hφk : ∀ r, ¬ p ++ [name] <+: r → φ r = .inl r := fun r hpre => if_neg hpre
  refine hr.edit φ (o := p) (c := .dir (ents.map entry)) ?_ hself ?_ ?_ ?_
  · rw [hφk p hp, hkeep p hp]
    exact view_of_find h
  · intro r r' _ _ heq
    rcases prefix_cases p name r with ⟨q, rfl⟩ | hpre <;> rcases prefix_cases p name r' with ⟨q', rfl⟩ | hpre'
    · rw [hφb, hφb] at heq
      rw [Sum.inr.inj heq]
    · rw [hφb, hφk r' hpre'] at heq
      cases heq
    · rw [hφk r hpre, hφb] at heq
      cases heq
    · rw [hφk r hpre, hφk r' hpre'] at heq
      exact Sum.inl.inj heq
  · intro r v hne hv
    rcases prefix_cases p name r with ⟨q, rfl⟩ | hpre
    · rw [hφb, hnew, ← hbelow]
      exact hv
    · rw [hφk r hpre, hkeep r hpre, ← hother r hne hpre]
      exact hv
  · rintro (r | q) v hv
    · rcases prefix_cases p name r with ⟨q, rfl⟩ | hpre
      · rw [hgone] at hv
        cases hv
      · refine ⟨r, hφk r hpre, ?_⟩
        by_cases hrp : r = p
        · rw [hrp]
          exact fun hc => Option.some_ne_none _ (hself.symm.trans hc)
        · rw [hother r hrp hpre, ← hkeep r hpre, hv]
          exact Option.some_ne_none v
    · refine ⟨p ++ name :: q, hφb q, ?_⟩
      rw [hbelow, ← hnew, hv]
      exact Option.some_ne_none v

/-- A subtree is put under a new name. -/
theorem Rep.graft (hr : Rep (view₂ t s) Z) (hs : findDirlist name ents = none) :
    Rep (fun r => view r (treeGraft i ents p name s t))
      (Function.update Z i (some (.dir ((addToList name s ents).map entry)))) := by
  refine hr.graft' h hn (fun q => rfl) (fun q => ?_) fun r _ => rfl
  rw [view₂, Sum.elim_inl, view_append, h, Option.bind_some, view_cons_dir, hs, Option.bind_none]

/-- A subtree replaces a file or an empty directory. -/
theorem Rep.graft_replace (hr : Rep (view₂ t s) Z) {c : Dirtree N F} (hs : findDirlist name ents = some c) (hc : Leaf c) :
    Rep (fun r => view r (treeGraft i ents p name s t))
      (Function.update (Function.update Z c.inum none) i (some (.dir ((addToList name s ents).map entry)))) := by
  have hold : ∀ q, view (p ++ name :: q) t = view q c := fun q => by
    rw [view_append, h, Option.bind_some, view_cons_dir, hs, Option.bind_some]
  have hrem := hr.remove (o := .inl (p ++ [name])) (i := c.inum) (c := c.label.2) <| by
    rw [view₂, Sum.elim_inl, hold, view_nil, ← label_fst]
  refine hrem.graft' h hn (fun q => ?_) (fun q => ?_) fun r hpre => ?_
  · rw [Function.update_of_ne (by simp)]
    rfl
  · cases q with
    | nil => rw [Function.update_self]
    | cons s' q =>
      rw [Function.update_of_ne (by simp), view₂, Sum.elim_inl, hold]
      exact hc.view s' q
  · rw [Function.update_of_ne]
    · rfl
    · intro heq
      rw [Sum.inl.inj heq] at hpre
      exact hpre (List.prefix_refl _)

/-- A file or an empty directory is removed. -/
theorem Rep.delete (hr : Rep (fun r => view r t) Z) {c : Dirtree N F} (hs : findDirlist name ents = some c) (hc : Leaf c) :
    Rep (fun r => view r (treePrune i ents p name t))
      (Function.update (Function.update Z i (some (.dir ((deleteFromList name ents).map entry)))) c.inum none) := by
  have hrem := (hr.prune h hn hs).remove (o := .inr []) (i := c.inum) (c := c.label.2) <| by
    rw [view₂, Sum.elim_inr, view_nil, ← label_fst]
  refine hrem.left (fun r => ?_) fun q => ?_
  · rw [Function.update_of_ne (by simp)]
    rfl
  · cases q with
    | nil => rw [Function.update_self]
    | cons s' q =>
      rw [Function.update_of_ne (by simp)]
      exact hc.view s' q

end Edits

/-- A new node beside the tree. -/
theorem Rep.fresh {t s : Dirtree N F} {Z : Nodes N F} (hr : Rep (fun r => view r t) Z) (hz : Z s.inum = none) (hs : Leaf s) :
    Rep (view₂ t s) (Function.update Z s.inum (some s.label.2)) := by
  have hroot : ∀ {q v}, view q s = some v → q = [] ∧ v = s.label := by
    intro q v hv
    cases q with
    | nil =>
      rw [view_nil] at hv
      exact ⟨rfl, (Option.some.inj hv).symm⟩
    | cons s' q =>
      rw [hs.view] at hv
      cases hv
  have hne : ∀ {r a c}, view r t = some (a, c) → a ≠ s.inum := by
    rintro r a c hv rfl
    have hnode := hr.node hv
    rw [hz] at hnode
    cases hnode
  refine ⟨?_, ?_, ?_⟩
  · rintro (r | q) a c hv
    · rw [Function.update_of_ne (hne hv)]
      exact hr.node hv
    · obtain ⟨_, heq⟩ := hroot hv
      rw [← label_fst, ← heq, Function.update_self]
  · rintro (r | q) (r' | q') a c c' hv hv'
    · exact congrArg _ (hr.inj hv hv')
    · obtain ⟨_, heq⟩ := hroot hv'
      exact absurd (by rw [← label_fst, ← heq]) (hne hv)
    · obtain ⟨_, heq⟩ := hroot hv
      exact absurd (by rw [← label_fst, ← heq]) (hne hv')
    · rw [(hroot hv).1, (hroot hv').1]
  · intro a c hac
    by_cases ha : a = s.inum
    · subst ha
      rw [Function.update_self] at hac
      refine ⟨.inr [], ?_⟩
      rw [view₂, Sum.elim_inr, view_nil, ← Option.some.inj hac, ← label_fst]
    · rw [Function.update_of_ne ha] at hac
      obtain ⟨r, hr'⟩ := hr.surj hac
      exact ⟨.inl r, hr'⟩

/-- A tree of one node. -/
theorem Rep.single {s : Dirtree N F} {Z : Nodes N F} (hz : ∀ i, Z i = none) (hs : Leaf s) :
    Rep (fun r => view r s) (Function.update Z s.inum (some s.label.2)) := by
  have hroot : ∀ {q a c}, view q s = some (a, c) → q = [] ∧ (a, c) = s.label := by
    intro q a c hv
    cases q with
    | nil =>
      rw [view_nil] at hv
      exact ⟨rfl, (Option.some.inj hv).symm⟩
    | cons s' q =>
      rw [hs.view] at hv
      cases hv
  refine ⟨fun {q a c} hv => ?_, fun {q q' a c c'} hv hv' => ?_, fun {a c} hac => ?_⟩
  · obtain ⟨_, heq⟩ := hroot hv
    rw [← label_fst, ← heq, Function.update_self]
  · rw [(hroot hv).1, (hroot hv').1]
  · by_cases ha : a = s.inum
    · subst ha
      rw [Function.update_self] at hac
      refine ⟨[], ?_⟩
      rw [view_nil, ← Option.some.inj hac, ← label_fst]
    · rw [Function.update_of_ne ha, hz] at hac
      cases hac

/-- A file gets other contents. -/
theorem Rep.setFile {p : List N} {t : Dirtree N F} {i : Nat} {f : F} {Z : Nodes N F} (hr : Rep (fun r => view r t) Z)
    (h : findSubtree p t = some (file i f)) (hn : NamesDistinct t) (f' : F) :
    Rep (fun r => view r (updateSubtree p (file i f') t)) (Function.update Z i (some (.file f'))) := by
  have hsplit : ∀ r, r = p ∨ view r (updateSubtree p (file i f') t) = view r t := by
    intro r
    by_cases hpre : p <+: r
    · obtain ⟨q, rfl⟩ := hpre
      cases q with
      | nil => exact .inl (List.append_nil p)
      | cons s q =>
        refine .inr ?_
        rw [view_updateSubtree_below h, view_append, h]
        rfl
    · exact .inr (view_updateSubtree_outside hn h rfl rfl hpre)
  have hself : view p (updateSubtree p (file i f') t) = some (i, .file f') := by
    have hview := view_updateSubtree_below h (file i f') []
    rwa [List.append_nil, view_nil] at hview
  refine hr.edit id (view_of_find h) hself (fun _ _ _ _ hkl => hkl) (fun k v hk hv => ?_) fun j v hv => ⟨j, rfl, ?_⟩
  · exact ((hsplit k).resolve_left hk).symm.trans hv
  · rcases hsplit j with rfl | hj
    · rw [hself]
      exact Option.some_ne_none _
    · rw [hj, hv]
      exact Option.some_ne_none _

end Dirtree

end Fscq
