import Fscq.Dir.Apart

/-!
# Data of files under a tree

When data blocks change that only files have, the tree keeps its shape, and its files have what is on the disk then.
`HasBlock T i off` says that a file with the number `i` has the block `off`.
-/

namespace Fscq

open TxnLogic BFILE
open BmapAlloc (freeList)
open DIR (dents)
open Dirtree (Kind Rep view findSubtree mapFiles label HasNode)

variable {xp : FsXparams} {n : Nat} {d d' : LDisk} {ms ms' : Memstate} {S : Nat → Prop} {T : FsTree}

/-- No directory is cached that was not cached before. -/
def CacheLess (ms ms' : Memstate) : Prop := ∀ i : Nat, ms'.msCache[i]? ≠ none → ms'.msCache[i]? = ms.msCache[i]?

theorem cacheLess_of_eq (h : ms'.msCache = ms.msCache) : CacheLess ms ms' := fun i _ => by rw [h]

theorem cacheLess_msEmpty (ms : Memstate) : CacheLess ms msEmpty := fun i h => by simp [msEmpty] at h

theorem NodeRep.fill {Z : FsNodes} (hxp : xp.Ok n) (hr : NodeRep xp d ms Z) (hw : DataIn xp S d d')
    (hfiles : ∀ i, i ≠ 0 → i < xp.nInodes → ∀ a ∈ blks xp d i, S a → ∃ f, Z i = some (.file f)) (hm : MsRep xp d' ms')
    (hc : CacheLess ms ms') : NodeRep xp d' ms' fun i => (Z i).map (Kind.mapFile fun _ => file xp d' i) := by
  have hfree : freeList xp.fsxpInodeAlloc d' = freeList xp.fsxpInodeAlloc d :=
    BmapAlloc.freeList_congr fun a ha => hw.ialloc_eq hxp ha
  have hdir : ∀ {i ents}, Z i = some (.dir ents) → file xp d' i = file xp d i := by
    intro i ents hi
    refine hw.file_eq_of_not_mem hxp (hr.valid i _ hi).2 fun a ha hS => ?_
    obtain ⟨f, hf⟩ := hfiles i (hr.valid i _ hi).1 (hr.valid i _ hi).2 a ha hS
    rw [hi] at hf
    cases hf
  refine ⟨hw.brep hxp hr.brep, hm, fun i c hi => ?_, fun i c hi => ?_, fun i h0 hlt => ?_, fun i hlt hif => ?_, fun i => ?_,
    fun i hne => ?_⟩
  · obtain ⟨c₀, hc₀, _⟩ := Option.map_eq_some_iff.1 hi
    exact hr.valid i c₀ hc₀
  · obtain ⟨c₀, hc₀, rfl⟩ := Option.map_eq_some_iff.1 hi
    cases c₀ with
    | file f => exact rfl
    | dir ents => exact (hr.node i _ hc₀).congr (hdir hc₀)
  · rw [hfree, hr.free i h0 hlt, Option.map_eq_none_iff]
  · rw [hfree] at hif
    have hold := hr.empty i hlt hif
    have hblks : blks xp d i = [] := List.map_eq_nil_iff.mp (congrArg File.data hold)
    rw [hw.file_eq_of_not_mem hxp hlt, hold]
    rw [hblks]
    exact fun _ h => absurd h List.not_mem_nil
  · intro dc hint hget
    rw [hc i (by rw [hget]; exact Option.some_ne_none _)] at hget
    obtain ⟨ents, hi⟩ := hr.cached i (by rw [hget]; exact Option.some_ne_none _)
    have hdents : dents xp d' i = dents xp d i := by rw [dents, dents, hdir hi]
    rw [hdents]
    exact hr.dcache i dc hint hget
  · rw [hc i hne] at hne
    obtain ⟨ents, hi⟩ := hr.cached i hne
    exact ⟨ents, by rw [hi]; rfl⟩

theorem find_of_view {p : List Sname} {i : Nat} {f : File} (h : view p T = some (i, .file f)) :
    findSubtree p T = some (.file i f) := by
  obtain ⟨u, hu, hl⟩ := Option.map_eq_some_iff.1 h
  cases u with
  | file j f' =>
    cases hl
    exact hu
  | dir j ents => cases hl

/-- The files of the tree have what is on the disk. -/
theorem TreeRep.fill {g : Nat → File → File} (hxp : xp.Ok n) (ht : TreeRep xp d ms T) (hw : DataIn xp S d d')
    (hfiles : ∀ i, i ≠ 0 → i < xp.nInodes → ∀ a ∈ blks xp d i, S a → HasNode T i false) (hm : MsRep xp d' ms')
    (hc : CacheLess ms ms') (hg : ∀ p i f, findSubtree p T = some (.file i f) → g i f = file xp d' i) :
    TreeRep xp d' ms' (mapFiles g T) := by
  obtain ⟨Z, hr, hrep⟩ := ht.nodes
  refine ⟨⟨_, hr.fill hxp hw (fun i h0 hi a ha hS => ?_) hm hc, ?_⟩, (Dirtree.inum_mapFiles g T).trans ht.root⟩
  · obtain ⟨p, u, hu, rfl, hd⟩ := hfiles i h0 hi a ha hS
    have hz := (DIRTREE.holds_tree hrep).node hu
    cases u with
    | file j f => exact ⟨f, hz⟩
    | dir j ents => cases hd
  · have hmap := hrep.mapFiles g
    have heq : (fun i => (Z i).map (Kind.mapFile (g i))) = fun i => (Z i).map (Kind.mapFile fun _ => file xp d' i) := by
      funext i
      cases hz : Z i with
      | none => rfl
      | some c =>
        cases c with
        | dir ents => rfl
        | file f =>
          obtain ⟨p, hp⟩ := hrep.surj hz
          simp only [Option.map_some, Kind.mapFile, hg p i f (find_of_view hp)]
    rwa [heq] at hmap

/-- Older values are dropped. -/
theorem TreeRep.synced (hxp : xp.Ok n) (ht : TreeRep xp d ms T) (hs : Synced d d') (hm : MsRep xp d' ms')
    (hc : CacheLess ms ms') : TreeRep xp d' ms' T := by
  have hw : DataIn xp (fun _ => False) d d' :=
    ⟨fun _ h => h.elim, fun _ h => h.elim, fun a _ => hs.val a, fun a _ => hs.mono a⟩
  have hfill := ht.fill (g := fun _ f => f) hxp hw (fun _ _ _ _ _ h => h.elim) hm hc fun p i f hp => ?_
  · rwa [Dirtree.mapFiles_id] at hfill
  · obtain ⟨hi, rfl⟩ := DIRTREE.file_eq ht hp
    exact (hs.file_eq hi).symm

/-! ## Blocks of the files of a tree -/

def HasBlock (T : FsTree) (i off : Nat) : Prop := ∃ p f, findSubtree p T = some (.file i f) ∧ off < f.data.length

theorem HasBlock.node {i off : Nat} (h : HasBlock T i off) : HasNode T i false := by
  obtain ⟨p, f, hp, _⟩ := h
  exact ⟨p, _, hp, rfl, rfl⟩

theorem find_of_hasNode {i : Nat} (h : HasNode T i false) : ∃ p f, findSubtree p T = some (.file i f) := by
  obtain ⟨p, u, hu, rfl, hd⟩ := h
  cases u with
  | file j f => exact ⟨p, f, hu⟩
  | dir j ents => cases hd

/-- On the disk the blocks of the files are those of the tree. -/
theorem TreeRep.hasBlock (ht : TreeRep xp d ms T) {i off : Nat} (hi : HasNode T i false) :
    HasBlock T i off ↔ off < (blks xp d i).length := by
  have hlen : ∀ {p f}, findSubtree p T = some (.file i f) → f.data.length = (blks xp d i).length := by
    intro p f hp
    obtain ⟨_, rfl⟩ := DIRTREE.file_eq ht hp
    exact length_file_data xp d i
  constructor
  · rintro ⟨p, f, hp, hoff⟩
    rwa [hlen hp] at hoff
  · intro hoff
    obtain ⟨p, f, hp⟩ := find_of_hasNode hi
    exact ⟨p, f, hp, by rwa [hlen hp]⟩

end Fscq
