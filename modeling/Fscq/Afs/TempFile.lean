import Fscq.Afs.Client

/-!
# A temporary file in the root

An application that makes a new version of a file writes it under a temporary name in the root first, and then renames it.
Until the rename each tree that a power failure may fall back to is one from before, with or without the temporary file
(`TempSeq`), and after it there may be the one with the file in its new place (`Placed`).
-/

namespace Fscq

open Dirtree (findSubtree findDirlist updateSubtree treeGraft treePrune addToDir deleteFromDir mapFiles Leaf NamesDistinct)
open FsRun (Result)
open BFILE (resize)

namespace TreeSeq

variable {V₀ V V' U : Version} {Vs Vs' : Treeseq} {c : Call} {r : Result} {T T₁ : FsTree} {name : Sname} {i : Nat} {f : File}

/-! ## The versions with the file -/

/-- The version `V₀`, with the file `name` in the root. -/
structure TempVersion (V₀ : Version) (name : Sname) (i : Nat) (f : File) (V : Version) : Prop where
  tree : V.tree = addToDir name (.file i f) V₀.tree
  old : ∀ {j off w}, V.old j off w → j ≠ i → V₀.old j off w
  ok : V.Ok

theorem Version.Ok.root_dir (hV : V.Ok) : ∃ ents, V.tree = .dir 1 ents := by
  obtain ⟨hi, hd⟩ := hV.root
  cases hT : V.tree with
  | file j f =>
    rw [hT] at hd
    cases hd
  | dir j ents =>
    rw [hT] at hi
    cases hi
    exact ⟨ents, rfl⟩

section Temp

variable (hV₀ : V₀.Ok) (hno : findSubtree [name] V₀.tree = none)

namespace TempVersion

section

variable (h : TempVersion V₀ name i f V)
include hV₀ h

theorem find : findSubtree [name] V.tree = some (.file i f) := by
  rw [h.tree, Dirtree.findSubtree_addToDir hV₀.root.2, Dirtree.findSubtree_nil]

include hno

theorem find_file {p : List Sname} {j : Nat} {g : File} (hp : findSubtree p V₀.tree = some (.file j g)) :
    findSubtree p V.tree = some (.file j g) := by
  rw [h.tree]
  exact Dirtree.findSubtree_addToDir_file hno hV₀.root.2 hp

/-- The number of the file is new. -/
theorem ne {p : List Sname} {j : Nat} {g : File} (hp : findSubtree p V₀.tree = some (.file j g)) : j ≠ i := by
  rintro rfl
  have hpath := h.ok.tree.inodes _ _ _ _ (h.find_file hV₀ hno hp) (h.find hV₀) rfl
  rw [hpath, hno] at hp
  cases hp

/-- The file is only there. -/
theorem setFile {q : List Sname} {g : File} (hq : findSubtree q V.tree = some (.file i g)) (f' : File) :
    g = f ∧ updateSubtree q (.file i f') V.tree = addToDir name (.file i f') V₀.tree := by
  obtain ⟨rfl, hfile⟩ := FsRun.find_unique h.ok.tree.inodes hq (h.find hV₀) rfl
  cases hfile
  refine ⟨rfl, ?_⟩
  rw [h.tree, Dirtree.updateSubtree_addToDir hno]

theorem falls (hf : V.Falls T) : ∃ f' T₁, V₀.Falls T₁ ∧ T = addToDir name (.file i f') T₁ := by
  obtain ⟨g, rfl, hg⟩ := hf
  refine ⟨g i f, _, ⟨g, rfl, fun p j f' hp => ?_⟩, ?_⟩
  · have hne := h.ne hV₀ hno hp
    exact (hg p j f' (h.find_file hV₀ hno hp)).mono fun off v hold => h.old hold hne
  · rw [h.tree, Dirtree.mapFiles_addToDir]
    rfl

theorem write (off : Nat) (v : Valu) : TempVersion V₀ name i ⟨f.data.set off v, f.attr⟩ (V.write i off v) := by
  refine ⟨?_, ?_, h.ok.write⟩
  · have hsame : mapFiles (fun j f => if j = i then (⟨f.data.set off v, f.attr⟩ : File) else f) V₀.tree = V₀.tree :=
      Dirtree.mapFiles_eq_self hV₀.tree.names fun p j f' hp => if_neg (h.ne hV₀ hno hp)
    have hnew : (V.write i off v).tree = mapFiles (fun j f => if j = i then (⟨f.data.set off v, f.attr⟩ : File) else f) V.tree := rfl
    rw [hnew, h.tree, Dirtree.mapFiles_addToDir, hsame, mapFiles, if_pos rfl]
  · rintro j o w (hold | ⟨rfl, _⟩) hne
    · exact h.old hold hne
    · exact absurd rfl hne

end

theorem sync (h : TempVersion V₀ name i f V) (inum : Nat) (K : Nat → Prop) : TempVersion V₀ name i f (V.sync inum K) :=
  ⟨h.tree, fun hold => h.old hold.1, h.ok.tree, h.ok.root, fun hold => h.ok.old hold.1⟩

end TempVersion

/-! ## Calls on the file -/

/-- The calls that write to the file, and those that make it durable. -/
def Call.OnFile (i : Nat) : Call → Prop
  | .basic (.fileTruncate j _) | .basic (.fileSetAttr j _) => j = i
  | .updateFblockD j _ _ | .fileSync j => j = i
  | .basic .treeSync => True
  | _ => False

/-- The file after the call. -/
def fileAfter : Call → Result → File → File
  | .basic (.fileTruncate _ sz), .done (.ok _), f => ⟨resize f.data sz, f.attr⟩
  | .basic (.fileSetAttr _ attr), .done (.ok _), f => ⟨f.data, attr⟩
  | .updateFblockD _ off v, _, f => ⟨f.data.set off v, f.attr⟩
  | _, _, f => f

/-- Each version has the temporary file, and the newest one has `f` there. -/
structure TempSeq (V₀ : Version) (name : Sname) (i : Nat) (f : File) (V : Version) (Vs : Treeseq) : Prop where
  now : TempVersion V₀ name i f V
  all : ∀ U ∈ V :: Vs, ∃ g, TempVersion V₀ name i g U

theorem TempVersion.single (h : TempVersion V₀ name i f V) : TempSeq V₀ name i f V [] :=
  ⟨h, fun U hU => ⟨f, by rwa [List.mem_singleton.1 hU]⟩⟩

namespace TempSeq

theorem ok (h : TempSeq V₀ name i f V Vs) : ∀ U ∈ V :: Vs, U.Ok := fun U hU => by
  obtain ⟨g, hg⟩ := h.all U hU
  exact hg.ok

include hV₀ hno

theorem step (h : TempSeq V₀ name i f V Vs) (hc : c.OnFile i) (hs : Step (V :: Vs) c r (V' :: Vs')) :
    TempSeq V₀ name i (fileAfter c r f) V' Vs' := by
  have hok := hs.ok h.ok
  generalize hW' : V' :: Vs' = Ws' at hs hok
  have hnext : ∀ {f'}, (V.next c V'.tree).tree = addToDir name (.file i f') V₀.tree → V' = V.next c V'.tree →
      Vs' = V :: Vs → TempSeq V₀ name i f' V' Vs' := by
    rintro f' htree hV' rfl
    have hnow : TempVersion V₀ name i f' V' := by
      refine ⟨htree, fun hold hne => ?_, hok _ (hW' ▸ List.mem_cons_self)⟩
      rw [hV'] at hold
      exact h.now.old hold.1 hne
    refine ⟨hnow, fun U hU => ?_⟩
    rcases List.mem_cons.1 hU with rfl | hU
    · exact ⟨f', hnow⟩
    · exact h.all U hU
  cases hs with
  | update hu =>
    cases hW'
    cases hu with
    | basic hu =>
      cases hu with
      | create | mkdir | delete | rename | updateFblock => exact hc.elim
      | fileTruncate hq | fileSetAttr hq =>
        cases hc
        obtain ⟨rfl, htree⟩ := h.now.setFile hV₀ hno hq _
        exact hnext htree rfl rfl
    | mksock | fileSetSz => exact hc.elim
  | read hread =>
    cases hread <;> exact hc.elim
  | failed hf =>
    cases hW'
    cases hf <;> first | exact hc.elim | exact h
  | @updateFblockD _ inum off v hk =>
    obtain rfl : inum = i := hc
    obtain ⟨Vs₁, hV⟩ := writeBlock_cons (kept_zero.1 hk) v Vs
    have hall : ∀ U ∈ writeBlock inum off v (V :: Vs), ∃ g, TempVersion V₀ name inum g U := by
      intro U hU
      obtain ⟨k, hk, rfl⟩ := List.mem_mapIdx.1 hU
      obtain ⟨g, hg⟩ := h.all _ (List.getElem_mem hk)
      split
      · exact ⟨_, hg.write hV₀ hno off v⟩
      · exact ⟨g, hg⟩
    rw [hV] at hW' hall
    cases hW'
    exact ⟨h.now.write hV₀ hno off v, hall⟩
  | fileSync =>
    have hall : ∀ U ∈ V' :: Vs', ∃ g, TempVersion V₀ name i g U := by
      intro U hU
      rw [hW'] at hU
      obtain ⟨k, hk, rfl⟩ := List.mem_mapIdx.1 hU
      obtain ⟨g, hg⟩ := h.all _ (List.getElem_mem hk)
      exact ⟨g, hg.sync _ _⟩
    rw [syncFile, List.mapIdx_cons] at hW'
    cases hW'
    exact ⟨h.now.sync _ _, hall⟩
  | treeSync =>
    cases hW'
    exact h.now.single
  | umount => exact hc.elim

/-- The power fails before or in a call on the file. -/
theorem crash {oc : Option Call} (h : TempSeq V₀ name i f V Vs) (hc : ∀ c, oc = some c → c.OnFile i)
    (hs : Crash (V :: Vs) oc T) : ∃ g T₁, V₀.Falls T₁ ∧ T = addToDir name (.file i g) T₁ := by
  obtain ⟨Vs', hVs', U, hU, hf⟩ := hs
  obtain ⟨g, hg⟩ : ∃ g, TempVersion V₀ name i g U := by
    rcases hVs' with rfl | ⟨c, r, rfl, hstep⟩
    · exact h.all U hU
    · cases Vs' with
      | nil => cases hU
      | cons V' Vs' => exact (h.step hV₀ hno (hc c rfl) hstep).all U hU
  exact hg.falls hV₀ hno hf

end TempSeq

end Temp

/-! ## Making the file and putting it in its place -/

theorem Step.old_le {c : FsRun.Call} (h : Step (V :: Vs) (.basic c) r (V' :: Vs')) {off : Nat} {w : Valu}
    (hold : V'.old i off w) : V.old i off w := by
  cases h with
  | update => exact hold.1
  | read | failed | treeSync => exact hold

/-- After `fileSync` the file has no older values. -/
theorem Step.fileSync_old (hV : V.Ok) (h : Step (V :: Vs) (.fileSync i) r (V' :: Vs')) (off : Nat) (w : Valu) :
    ¬ V'.old i off w := by
  generalize hW' : V' :: Vs' = Ws' at h
  cases h with
  | update hu => cases hu
  | fileSync =>
    rw [syncFile, List.mapIdx_cons] at hW'
    cases hW'
    rintro ⟨hold, hn⟩
    exact hn ⟨rfl, kept_zero.2 (hV.old hold)⟩

/-- A failed call leaves the versions as they are. -/
theorem Step.error {c : FsRun.Call} {e : Errno} (h : Step Vs (.basic c) r Vs')
    (hr : r = .inode (.error e) ∨ r = .done (.error e)) : Vs' = Vs := by
  cases h with
  | update hu =>
    cases hu with
    | basic hu => cases hu <;> rcases hr with hr | hr <;> cases hr
  | read | failed => rfl
  | treeSync => rcases hr with hr | hr <;> cases hr

theorem find_root (hV : V.Ok) {p : List Sname} {ents : List (Sname × FsTree)} (hp : findSubtree p V.tree = some (.dir 1 ents)) :
    p = [] ∧ V.tree = .dir 1 ents := by
  obtain ⟨ents', hV'⟩ := hV.root_dir
  have hroot : findSubtree [] V.tree = some (.dir 1 ents') := by rw [Dirtree.findSubtree_nil, hV']
  obtain ⟨rfl, hdir⟩ := FsRun.find_unique hV.tree.inodes hp hroot rfl
  exact ⟨rfl, hV'.trans hdir.symm⟩

theorem Step.create_temp (hV₀ : ∀ U ∈ V₀ :: Vs, U.Ok)
    (h : Step (V₀ :: Vs) (.basic (.create 1 name)) (.inode (.ok i)) (V' :: Vs')) :
    TempVersion V₀ name i dirfile0 V' ∧ Vs' = V₀ :: Vs := by
  have hok := h.ok hV₀ V' List.mem_cons_self
  cases h with
  | update hu =>
    cases hu with
    | basic hu =>
      cases hu with
      | create hp =>
        obtain ⟨rfl, htree⟩ := find_root (hV₀ _ List.mem_cons_self) hp
        refine ⟨⟨?_, fun hold _ => hold.1, hok⟩, rfl⟩
        rw [htree]
        rfl
  | read hread => cases hread
  | failed hf => cases hf

/-- The version `V₀`, with the file at its new place. -/
structure Placed (V₀ : Version) (dst : List Sname) (dstname : Sname) (i : Nat) (f : File) (V : Version) : Prop where
  tree : ∃ dnum ents, findSubtree dst V₀.tree = some (.dir dnum ents) ∧
    (∀ c, findDirlist dstname ents = some c → Leaf c) ∧ V.tree = treeGraft dnum ents dst dstname (.file i f) V₀.tree
  old : ∀ {j off w}, V.old j off w → j ≠ i ∧ V₀.old j off w
  ok : V.Ok

section Place

variable {dst : List Sname} {dstname : Sname}

theorem TempSeq.rename (hV₀ : V₀.Ok) (hno : findSubtree [name] V₀.tree = none) (h : TempSeq V₀ name i f V Vs)
    (hone : ∀ off w, ¬ V.old i off w)
    (hs : Step (V :: Vs) (.basic (.rename 1 [] name dst dstname)) (.done (.ok ())) (V' :: Vs')) :
    Placed V₀ dst dstname i f V' ∧ Vs' = V :: Vs := by
  have hok := hs.ok h.ok V' List.mem_cons_self
  cases hs with
  | update hu =>
    cases hu with
    | basic hu =>
      cases hu with
      | @rename _ _ _ _ _ _ _ _ snum sents S ddst dents hp hren =>
        obtain ⟨rfl, _⟩ := find_root h.now.ok hp
        have hsource : V.tree = .dir snum sents := Option.some_inj.1 ((Dirtree.findSubtree_nil _).symm.trans hren.source)
        have hpruned : treePrune snum sents [] name V.tree = V₀.tree := by
          have hprune : treePrune snum sents [] name V.tree = deleteFromDir name V.tree := by
            rw [hsource]
            rfl
          rw [hprune, h.now.tree, Dirtree.deleteFromDir_addToDir hno]
        have hfile := h.now.find hV₀
        rw [hsource, Dirtree.findSubtree_cons_dir, hren.moved, Option.bind_some, Dirtree.findSubtree_nil, Option.some_inj] at hfile
        subst hfile
        have hdest := hren.dest
        have htree := hren.tree
        simp only [List.nil_append, hpruned] at hdest htree
        refine ⟨⟨⟨ddst, dents, hdest, hren.replaced, htree⟩, ?_, hok⟩, rfl⟩
        rintro j off w ⟨hold, _⟩
        have hne : j ≠ i := by
          rintro rfl
          exact hone off w hold
        exact ⟨hne, h.now.old hold hne⟩
  | read hread => cases hread
  | failed hf => cases hf

namespace Placed

variable (h : Placed V₀ dst dstname i f V)
include h

/-- After a power failure the file is there as it was. -/
theorem find_falls (hf : V.Falls T) : findSubtree (dst ++ [dstname]) T = some (.file i f) := by
  obtain ⟨g, rfl, hg⟩ := hf
  obtain ⟨dnum, ents, hdst, _, htree⟩ := h.tree
  have hfind : findSubtree (dst ++ [dstname]) V.tree = some (.file i f) := by
    rw [htree]
    exact Dirtree.findSubtree_treeGraft hdst dstname _
  refine (Dirtree.findSubtree_mapFiles_file g).2 ⟨f, hfind, ?_⟩
  exact (hg _ i f hfind).eq fun off w hold => (h.old hold).1 rfl

theorem free (hV₀ : V₀.Ok) (hno : findSubtree [name] V₀.tree = none) (hne : dst ++ [dstname] ≠ [name]) :
    findSubtree [name] V.tree = none := by
  obtain ⟨dnum, ents, hdst, _, htree⟩ := h.tree
  have hpre : ¬ dst ++ [dstname] <+: [name] := by
    intro hpre
    have hlen := hpre.length_le
    rw [List.length_append, List.length_singleton, List.length_singleton] at hlen
    refine hne (hpre.eq_of_length ?_)
    rw [List.length_append, List.length_singleton, List.length_singleton]
    omega
  have hnode : Dirtree.node [name] V.tree = Dirtree.node [name] V₀.tree := by
    rw [htree]
    exact Dirtree.node_graft_other hdst hV₀.tree.names hpre
  rw [Dirtree.node, Dirtree.node, Dirtree.view, Dirtree.view, hno, Option.map_none, Option.map_none, Option.map_eq_none_iff,
    Option.map_eq_none_iff] at hnode
  exact hnode

end Placed

end Place

/-! ## Removing the file -/

theorem next_settled (T T' : FsTree) (c : Call) : (Version.settled T).next c T' = .settled T' := by
  refine congrArg (Version.mk T') ?_
  funext i off w
  exact eq_false fun h => h.1

theorem Version.Falls.free (h : V.Falls T) (hno : findSubtree [name] V.tree = none) : findSubtree [name] T = none := by
  obtain ⟨g, rfl, _⟩ := h
  rw [Dirtree.findSubtree_mapFiles, hno, Option.map_none]

theorem settled_falls {T' : FsTree} (hT : (Version.settled T).Ok) (h : (Version.settled T).Falls T') : T' = T :=
  h.eq hT.tree.names fun _ _ _ hold => hold

theorem Step.delete_temp (hT : (Version.settled (addToDir name (.file i f) T)).Ok) (hno : findSubtree [name] T = none)
    (h : Step [.settled (addToDir name (.file i f) T)] (.basic (.delete 1 name)) (.done (.ok ())) Vs') :
    Vs' = [.settled T, .settled (addToDir name (.file i f) T)] := by
  cases h with
  | update hu =>
    cases hu with
    | basic hu =>
      cases hu with
      | @delete _ _ ents _ _ hp =>
        obtain ⟨rfl, htree⟩ := find_root hT hp
        have hdel : treePrune 1 ents [] name (Version.settled (addToDir name (.file i f) T)).tree = T := by
          have hprune : treePrune 1 ents [] name (Version.settled (addToDir name (.file i f) T)).tree =
              deleteFromDir name (.dir 1 ents) := rfl
          rw [hprune, ← htree]
          exact Dirtree.deleteFromDir_addToDir hno _
        rw [next_settled, hdel]
  | read hread => cases hread
  | failed hf => cases hf

end TreeSeq

end Fscq
