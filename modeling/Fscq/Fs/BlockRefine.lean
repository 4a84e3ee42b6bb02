import Fscq.Fs.BlockRange

/-!
# The block pointers of an inode refine a list

`ListRep` says that a record and its trees hold a block list, in blocks that are not free. Reading gives the list and its
elements, growing appends to it and shrinking takes a prefix (`block_list_refines`). Nodes come from the free blocks and
go back to them: growing takes the new nodes on the way to the new block, shrinking returns the nodes that have only zeros
left. When growing runs out of blocks the record still holds the list, but what it took for the way is lost until the
transaction is aborted (`grow_error_not_conserved`).
-/

namespace Fscq.BlockPtr

open TxnLogic BmapAllocCache INODE
open BmapAlloc (freeList size DataOk)

variable {n : Nat} {d d' : LDisk} {bxp : BallocXparams} {c : BmapCacheType} {x x' : Irec} {l : List Waddr} {w : Waddr}

/-! ## Nodes that are needed -/

/-- Every node is on the way to a block. -/
def Needed (d : LDisk) (x : Irec) : Prop := ∀ a ∈ indNodes d x, ∃ off, slot d x off ≠ 0 ∧ a ∈ slotPath d x off

/-- A node on the way to a block has a pointer. -/
theorem entries_ne_of_path : ∀ {lvl bn off a : Nat}, walk d lvl bn off ≠ 0 → a ∈ path d lvl bn off →
    entries d a ≠ List.replicate nIndirect 0
  | 0, bn, off, a, hw, ha, hz => by
    by_cases h0 : bn = 0
    · rw [h0] at hw
      exact hw (walk_zero d 0 off)
    · rw [path, if_neg h0, List.mem_singleton] at ha
      rw [walk, if_neg h0, ← ha, hz] at hw
      exact hw (getD_zeros _ _)
  | lvl + 1, bn, off, a, hw, ha, hz => by
    by_cases h0 : bn = 0
    · rw [h0] at hw
      exact hw (walk_zero d _ off)
    · rw [walk_succ d lvl off h0, walkL] at hw
      rw [path_succ d lvl off h0] at ha
      rcases List.mem_cons.1 ha with rfl | h
      · rw [hz, getD_zeros] at hw
        exact hw (walk_zero d lvl _)
      · exact entries_ne_of_path hw h hz

/-- Where no node has only zeros, every node is on the way to a block. -/
theorem exists_walk : ∀ {lvl bn : Nat}, (∀ a ∈ nodes d lvl bn, entries d a ≠ List.replicate nIndirect 0) →
    ∀ a ∈ nodes d lvl bn, ∃ off < nIndirect ^ (lvl + 1), walk d lvl bn off ≠ 0 ∧ a ∈ path d lvl bn off
  | 0, bn, htidy, a, ha => by
    by_cases h0 : bn = 0
    · rw [h0, nodes_zero] at ha
      cases ha
    · rw [nodes, if_neg h0, List.mem_singleton] at ha
      obtain ⟨i, hi, hne⟩ := exists_ne_zero (length_entries d bn) (htidy bn (self_mem_nodes d 0 h0))
      refine ⟨i, by simpa using hi, ?_, ?_⟩
      · rw [walk, if_neg h0]
        exact hne
      · rw [path, if_neg h0, ha]
        exact List.mem_singleton_self bn
  | lvl + 1, bn, htidy, a, ha => by
    by_cases h0 : bn = 0
    · rw [h0, nodes_zero] at ha
      cases ha
    have hchild : ∀ i < 512, ∀ a ∈ nodes d lvl ((entries d bn).getD i 0).toNat,
        ∃ off < nIndirect ^ (lvl + 2), walk d (lvl + 1) bn off ≠ 0 ∧ bn ∈ path d (lvl + 1) bn off ∧
          a ∈ path d (lvl + 1) bn off := fun i hi a ha => by
      have hkids : ∀ b ∈ nodes d lvl ((entries d bn).getD i 0).toNat, entries d b ≠ List.replicate nIndirect 0 :=
        fun b hb => htidy b (by rw [nodes_succ d lvl h0]; exact List.mem_cons_of_mem _ (nodes_getD_sub_kids hb))
      obtain ⟨off, hlt, hne, hin⟩ := exists_walk hkids a ha
      refine ⟨i * nIndirect ^ (lvl + 1) + off, child_lt hi hlt, ?_, ?_, ?_⟩
      · rw [walk_succ d lvl _ h0, walkL, child_div i hlt, child_mod i hlt]
        exact hne
      · rw [path_succ d lvl _ h0]
        exact List.mem_cons_self
      · rw [path_succ d lvl _ h0, pathL_child d _ hlt]
        exact List.mem_cons_of_mem _ hin
    rw [nodes_succ d lvl h0] at ha
    rcases List.mem_cons.1 ha with rfl | h
    · obtain ⟨i, hi, hne⟩ := exists_ne_zero (length_entries d a) (htidy a (self_mem_nodes d _ h0))
      have hne' : ((entries d a).getD i 0).toNat ≠ 0 := fun h => hne (BitVec.eq_of_toNat_eq h)
      obtain ⟨off, hlt, hw, hin, _⟩ := hchild i hi _ (self_mem_nodes d lvl hne')
      exact ⟨off, hlt, hw, hin⟩
    · obtain ⟨i, hi, hmem⟩ := mem_kids.1 h
      rw [length_entries] at hi
      obtain ⟨off, hlt, hw, _, hin⟩ := hchild i hi a hmem
      exact ⟨off, hlt, hw, hin⟩

theorem Needed.tidy (hn : Needed d x) : ∀ a ∈ indNodes d x, entries d a ≠ List.replicate nIndirect 0 := fun a ha => by
  obtain ⟨off, hne, hin⟩ := hn a ha
  rcases slot_cases d x off with h | ⟨lvl, bn, off', hslot, hpath, _⟩
  · rw [h] at hin
    cases hin
  · exact entries_ne_of_path (hslot ▸ hne) (hpath ▸ hin)

theorem needed_of_tidy (ht : ∀ a ∈ indNodes d x, entries d a ≠ List.replicate nIndirect 0) : Needed d x := fun a ha => by
  rw [indNodes] at ht
  rcases List.mem_append.1 ha with h | h
  · obtain ⟨off, hlt, hw, hin⟩ := exists_walk (fun b hb => ht b (List.mem_append_left _ hb)) a h
    rw [Nat.zero_add, Nat.pow_one] at hlt
    refine ⟨NDirect + off, ?_, ?_⟩
    · rw [slot, if_neg (by omega), Nat.add_sub_cancel_left, if_pos hlt]
      exact hw
    · rw [slotPath, if_neg (by omega), Nat.add_sub_cancel_left, if_pos hlt]
      exact hin
  rcases List.mem_append.1 h with h | h
  · obtain ⟨off, hlt, hw, hin⟩ :=
      exists_walk (fun b hb => ht b (List.mem_append_right _ (List.mem_append_left _ hb))) a h
    have hoff : NDirect + (nIndirect + off) - NDirect - nIndirect = off := by omega
    refine ⟨NDirect + (nIndirect + off), ?_, ?_⟩
    · rw [slot, if_neg (by omega), if_neg (by omega), hoff, if_pos hlt]
      exact hw
    · rw [slotPath, if_neg (by omega), if_neg (by omega), hoff, if_pos hlt]
      exact hin
  · obtain ⟨off, hlt, hw, hin⟩ :=
      exists_walk (fun b hb => ht b (List.mem_append_right _ (List.mem_append_right _ hb))) a h
    refine ⟨NDirect + (nIndirect + (nIndirect ^ 2 + off)), ?_, ?_⟩
    · rw [slot]
      generalize nIndirect ^ 2 = S
      rw [if_neg (by omega), if_neg (by omega), if_neg (by omega),
        show NDirect + (nIndirect + (S + off)) - NDirect - nIndirect - S = off by omega]
      exact hw
    · rw [slotPath]
      generalize nIndirect ^ 2 = S
      rw [if_neg (by omega), if_neg (by omega), if_neg (by omega),
        show NDirect + (nIndirect + (S + off)) - NDirect - nIndirect - S = off by omega]
      exact hin

/-! ## The list of a record -/

/-- The record `x` represents the block list `l`. Its nodes are data blocks, each once, and none of them is free. -/
structure ListRep (bxp : BallocXparams) (n : Nat) (d : LDisk) (x : Irec) (l : List Waddr) : Prop
    extends Represents n d x l where
  owned : Owned bxp d (indNodes d x)

namespace ListRep

theorem zeroPast (hr : ListRep bxp n d x l) : ZeroPast d x := ⟨hr.blocks, hr.len, hr.zero⟩

theorem irLen_eq (hr : ListRep bxp n d x l) : irLen x = l.length := by rw [← hr.list, length_blockList]

theorem of_zeroPast (hx : DataOk bxp n) (hz : ZeroPast d x) (ho : Owned bxp d (indNodes d x)) (hl : blockList d x = l) :
    ListRep bxp n d x l :=
  ⟨⟨hz.blocks, hz.len, fun a ha => hx.lt_disk (ho.lt a ha), hz.zero, hl⟩, ho⟩

theorem slot_eq_getElem? (hr : ListRep bxp n d x l) {off : Nat} (h : off < l.length) : l[off]? = some (slot d x off) := by
  have hlt : off < irLen x := by rw [hr.irLen_eq]; exact h
  rw [← hr.list, blockList, getElem?_map_range _ hlt]

end ListRep

/-- What is in `O` and not in `P`. -/
theorem exists_diff {O P : List Nat} (hO : O.Nodup) (hP : P.Nodup) (hsub : ∀ a ∈ P, a ∈ O) :
    ∃ D, O.Perm (D ++ P) ∧ ∀ a, a ∈ D ↔ a ∈ O ∧ a ∉ P := by
  have hD : ∀ a, a ∈ O.filter (fun a => decide (a ∉ P)) ↔ a ∈ O ∧ a ∉ P := fun a => by simp
  refine ⟨O.filter fun a => decide (a ∉ P), ?_, hD⟩
  rw [List.perm_ext_iff_of_nodup hO]
  · intro a
    rw [List.mem_append, hD]
    constructor
    · intro h
      by_cases ha : a ∈ P
      · exact .inr ha
      · exact .inl ⟨h, ha⟩
    · rintro (h | h)
      · exact h.1
      · exact hsub a h
  · exact List.nodup_append.2 ⟨hO.filter _, hP, fun a ha b hb hab => ((hD a).1 ha).2 (hab ▸ hb)⟩

/-- What moves between the nodes and the free blocks. -/
theorem perm_of_conserved {O O' F F' D : List Nat} (hown : (O' ++ F').Perm (O ++ F)) (hD : O'.Perm (D ++ O)) :
    F.Perm (D ++ F') := by
  have h₁ := List.perm_iff_count.1 hown
  have h₂ := List.perm_iff_count.1 hD
  rw [List.perm_iff_count]
  intro a
  simp only [List.count_append] at h₁ h₂ ⊢
  have := h₁ a
  have := h₂ a
  omega

/-! ## Growing -/

/-- The record `x'` on the disk `d'` is `x` on `d` with the block `w` at the end. -/
structure GrownTo (bxp : BallocXparams) (n : Nat) (d d' : LDisk) (x x' : Irec) (l : List Waddr) (w : Waddr) : Prop where
  rep : ListRep bxp n d' x' (l ++ [w])
  /-- The blocks that are taken from the free ones are the new nodes on the way to the new block. -/
  taken : ∃ new, (indNodes d' x').Perm (new ++ indNodes d x) ∧ (freeList bxp d).Perm (new ++ freeList bxp d') ∧
    ∀ a, a ∈ new ↔ a ∈ slotPath d' x' l.length ∧ a ∉ indNodes d x
  needed : Needed d x → Needed d' x'

/-- There were not blocks enough. The record is as before, and only the bitmap is written. -/
structure GrowFailed (bxp : BallocXparams) (n : Nat) (d d' : LDisk) (x : Irec) (l : List Waddr) : Prop where
  rep : ListRep bxp n d' x l
  nodes : indNodes d' x = indNodes d x
  full : freeList bxp d' = []
  frame : ∀ a, ¬ bxp.InBitmap a → d' a = d a

theorem Grows.nodes_sub (hg : Grows bxp d d' x x' w) (ho : Owned bxp d (indNodes d x)) :
    ∀ a ∈ indNodes d x, a ∈ indNodes d' x' := fun a ha => by
  rcases List.mem_append.1 (hg.own.mem_iff.2 (List.mem_append_left _ ha)) with h | h
  · exact h
  · exact absurd (hg.free a h) (ho.not_free ha)

theorem Grows.needed (hg : Grows bxp d d' x x' w) (hz : ZeroPast d x) (hw : w ≠ 0) (hn : Needed d x) :
    Needed d' x' := fun a ha => by
  rcases hg.newPath a ha with h | h
  · obtain ⟨off, hne, hin⟩ := hn a h
    have hoff : off ≠ irLen x := by
      rintro rfl
      exact hne (hz.zero _ (Nat.le_refl _))
    refine ⟨off, ?_, ?_⟩
    · rw [hg.val, if_neg hoff]
      exact hne
    · rw [hg.path off hne]
      exact hin
  · refine ⟨irLen x, ?_, h⟩
    rw [hg.val, if_pos rfl]
    exact hw

theorem Grows.grownTo (hg : Grows bxp d d' x x' w) (hx : DataOk bxp n) (hr : ListRep bxp n d x l) (hw : w ≠ 0) :
    GrownTo bxp n d d' x x' l w := by
  have hnodup' : (indNodes d' x' ++ freeList bxp d').Nodup := hg.own.nodup_iff.2 hr.owned.nodup
  have ho' : Owned bxp d' (indNodes d' x') := by
    refine ⟨hnodup', fun a ha => ?_⟩
    rcases List.mem_append.1 (hg.own.mem_iff.1 (List.mem_append_left _ ha)) with h | h
    · exact hr.owned.lt a h
    · exact (BmapAlloc.mem_freeList.1 h).1
  have hsub := hg.nodes_sub hr.owned
  obtain ⟨new, hperm, hnew⟩ := exists_diff (List.nodup_append.1 hnodup').1 (List.nodup_append.1 hr.owned.nodup).1 hsub
  refine ⟨.of_zeroPast hx hg.past ho' (by rw [hg.blockList_eq, hr.list]), ⟨new, hperm, perm_of_conserved hg.own hperm,
    fun a => ?_⟩, hg.needed hr.zeroPast hw⟩
  rw [hnew, ← hr.irLen_eq]
  constructor
  · rintro ⟨hin, hout⟩
    exact ⟨(hg.newPath a hin).resolve_left hout, hout⟩
  · rintro ⟨hin, hout⟩
    exact ⟨slotPath_sub hin, hout⟩

theorem Fails.growFailed (hf : Fails bxp d c d') (hx : DataOk bxp n) (hr : ListRep bxp n d x l) :
    GrowFailed bxp n d d' x l := by
  have hsame : ∀ a ∈ indNodes d x, d' a = d a := fun a ha => hf.frame a (hx.not_inBitmap (hr.owned.lt a ha))
  have hnodes := indNodes_congr hsame
  have ho : Owned bxp d' (indNodes d' x) := by
    rw [hnodes]
    refine ⟨?_, hr.owned.lt⟩
    rw [hf.free, List.append_nil]
    exact (List.nodup_append.1 hr.owned.nodup).1
  have hz : ZeroPast d' x := ⟨hr.blocks, hr.len, fun off hoff => by rw [slot_congr hsame]; exact hr.zero off hoff⟩
  exact ⟨.of_zeroPast hx hz ho (by rw [blockList_congr hsame, hr.list]), hnodes, hf.free, hf.frame⟩

/-! ## Shrinking -/

/-- The record `x'` on the disk `d'` is `x` on `d` without the last `nr` blocks. -/
structure ShrunkTo (bxp : BallocXparams) (n : Nat) (d d' : LDisk) (x x' : Irec) (l : List Waddr) (nr : Nat) : Prop where
  rep : ListRep bxp n d' x' (l.take (l.length - nr))
  /-- Nodes that go back to the free ones are on the way to no block that is left. -/
  returned : ∃ gone, (indNodes d x).Perm (gone ++ indNodes d' x') ∧ (freeList bxp d').Perm (gone ++ freeList bxp d) ∧
    ∀ a ∈ gone, ∀ off < l.length - nr, a ∈ slotPath d x off → slot d x off = 0
  /-- Nodes that become blocks of zeros are not left. -/
  left : ∀ a ∈ indNodes d' x', entries d' a = List.replicate nIndirect 0 → entries d a = List.replicate nIndirect 0
  needed : Needed d x → Needed d' x' ∧ ∀ a ∈ indNodes d x,
    (a ∉ indNodes d' x' ↔ ∀ off < l.length - nr, a ∈ slotPath d x off → slot d x off = 0)

theorem Shrinks.shrunkTo {nr : Nat} (hs : Shrinks bxp d d' x x' (l.length - nr)) (hx : DataOk bxp n)
    (hr : ListRep bxp n d x l) : ShrunkTo bxp n d d' x x' l nr := by
  have ho' : Owned bxp d' (indNodes d' x') := hs.owned hr.owned
  obtain ⟨gone, hperm, hgone⟩ := exists_diff (List.nodup_append.1 hr.owned.nodup).1 (List.nodup_append.1 ho'.nodup).1 hs.sub
  -- a block that is left keeps its way
  have hkeep : ∀ a off, off < l.length - nr → slot d x off ≠ 0 → a ∈ slotPath d x off → a ∈ indNodes d' x' :=
    fun a off hlt hne hin => by
      have hslot : slot d' x' off ≠ 0 := by
        rw [hs.slots, if_pos hlt]
        exact hne
      rw [← hs.path off hslot] at hin
      exact slotPath_sub hin
  refine ⟨.of_zeroPast hx hs.past ho' ?_, ⟨gone, hperm, perm_of_conserved hs.own.symm hperm, fun a ha off hlt hin => ?_⟩,
    hs.tidy, fun hn => ?_⟩
  · rw [hs.blockList_eq (by rw [hr.irLen_eq]; exact Nat.sub_le _ _), hr.list]
  · by_contra hne
    exact ((hgone a).1 ha).2 (hkeep a off hlt hne hin)
  · have hn' : Needed d' x' := needed_of_tidy fun a ha hz => hn.tidy a (hs.sub a ha) (hs.tidy a ha hz)
    refine ⟨hn', fun a ha => ⟨fun hout off hlt hin => ?_, fun hall hin => ?_⟩⟩
    · by_contra hne
      exact hout (hkeep a off hlt hne hin)
    · obtain ⟨off, hne, hpath⟩ := hn' a hin
      obtain ⟨hval, _⟩ := hs.val_of_ne hne
      have hlt : off < l.length - nr := by
        by_contra hge
        rw [hs.slots, if_neg hge] at hne
        exact hne rfl
      rw [hs.path off hne] at hpath
      rw [← hval] at hne
      exact hne (hall off hlt hpath)

/-! ## The refinement -/

/-- The programs on a record that represents a list. -/
theorem block_list_refines (hx : DataOk bxp n) (hc : CacheRep bxp d c) (hr : ListRep bxp n d x l) :
    (∀ off < l.length, twp n (get x off) (fun v d' => d' = d ∧ l[off]? = some v) d) ∧
    twp n (read x) (fun r d' => d' = d ∧ r = l) d ∧
    (∀ w, w ≠ 0 → l.length < nBlocks → twp n (grow bxp x w c) (fun r d' => CacheRep bxp d' r.1 ∧
      (∀ x', r.2 = .ok x' → GrownTo bxp n d d' x x' l w) ∧ ∀ e, r.2 = .error e → GrowFailed bxp n d d' x l) d) ∧
    ∀ nr, twp n (shrink bxp x nr c) (fun r d' => CacheRep bxp d' r.1 ∧ ShrunkTo bxp n d d' x r.2 l nr) d := by
  have hlen := hr.irLen_eq
  have hle : l.length ≤ nBlocks := hlen ▸ hr.len
  refine ⟨fun off hoff => ?_, ?_, fun w hw hlt => ?_, fun nr => ?_⟩
  · exact get_spec hr.inDisk (Nat.lt_of_lt_of_le hoff hle) ⟨rfl, hr.slot_eq_getElem? hoff⟩
  · exact readBlocks_spec hr.blocks hr.len hr.inDisk ⟨rfl, hr.list⟩
  · refine twp_mono (fun r d' ⟨hok, herr⟩ => ⟨?_, fun x' h => ?_, fun e h => ?_⟩) _
      (grow_spec hx hc hr.zeroPast hr.owned (hlen.symm ▸ hlt))
    · cases hres : r.2 with
      | ok x' => exact (hok x' hres).2
      | error e => exact (herr e hres).2.cache
    · exact (hok x' h).1.grownTo hx hr hw
    · exact (herr e h).2.growFailed hx hr
  · have hspec := shrink_spec hx hc hr.zeroPast hr.owned nr
    rw [hlen] at hspec
    exact twp_mono (fun r d' ⟨hs, hc'⟩ => ⟨hc', hs.shrunkTo hx hr⟩) _ hspec

/-- A bitmap of one block, behind the blocks it stands for. -/
def oneBitmap : BallocXparams := ⟨32768, 1⟩

theorem dataOk_oneBitmap : DataOk oneBitmap 32769 := ⟨⟨by decide, by decide⟩, by decide, by decide⟩

/-- A disk with no free block. -/
def noFree : LDisk := ((BmapAlloc.initNofree oneBitmap).run ⟨fun _ => 0, fun _ => True⟩).2

theorem freeList_noFree : freeList oneBitmap noFree = [] :=
  (twp_run (BmapAlloc.initNofree_spec (d := ⟨fun _ => 0, fun _ => True⟩) dataOk_oneBitmap.toOk)).1

theorem listRep_oneNode : ListRep oneBitmap 32769 (withNode noFree) oneNode [11, 12, 13, 14, 15, 16, 17, 18, 19] := by
  have hr := represents_oneNode (n := 10) (by decide) noFree
  have hfull : freeList oneBitmap (withNode noFree) = [] := by
    rw [← freeList_noFree]
    exact BmapAlloc.freeList_congr fun a ha => Disk.set_of_ne (fun h => absurd (h ▸ ha.1) (by decide)) _ _
  refine .of_zeroPast dataOk_oneBitmap ⟨hr.blocks, hr.len, hr.zero⟩ ?_ hr.list
  rw [indNodes_oneNode]
  refine ⟨by rw [hfull]; decide, fun a ha => ?_⟩
  rw [List.mem_singleton.1 ha]
  decide

/-- What grows is the node; what is shrunk away is the node with its pointers, and a direct block. -/
theorem block_list_refines_small :
    twp 32769 (get oneNode 7) (fun v d' => d' = withNode noFree ∧ some 18 = some v) (withNode noFree) ∧
    twp 32769 (grow oneBitmap oneNode 20 none) (fun r d' => CacheRep oneBitmap d' r.1 ∧
      (∀ x', r.2 = .ok x' →
        GrownTo oneBitmap 32769 (withNode noFree) d' oneNode x' [11, 12, 13, 14, 15, 16, 17, 18, 19] 20) ∧
      ∀ e, r.2 = .error e → GrowFailed oneBitmap 32769 (withNode noFree) d' oneNode
        [11, 12, 13, 14, 15, 16, 17, 18, 19]) (withNode noFree) ∧
    twp 32769 (shrink oneBitmap oneNode 3 none) (fun r d' => CacheRep oneBitmap d' r.1 ∧
      ShrunkTo oneBitmap 32769 (withNode noFree) d' oneNode r.2 [11, 12, 13, 14, 15, 16, 17, 18, 19] 3) (withNode noFree) := by
  have h := block_list_refines dataOk_oneBitmap (cacheRep_freelist0 _ _) listRep_oneNode
  exact ⟨h.1 7 (by decide), h.2.2.1 20 (by decide) (by decide), h.2.2.2 3⟩

/-- A record with as many zeros as the direct blocks and the first tree can hold. -/
def sparse : Irec := (519, (0, 0, 0, 0, 0, 0, 0, 0, 0, ()), 0, 0, 0, List.replicate 7 0, ())

/-- A disk with one free block. -/
def oneFree : LDisk := BmapAlloc.putBit oneBitmap noFree 1 BmapAlloc.avail

theorem freeList_oneFree : (freeList oneBitmap oneFree).Perm [1] := by
  have hnot : 1 ∉ freeList oneBitmap noFree := by
    rw [freeList_noFree]
    exact List.not_mem_nil
  have hfree := BmapAlloc.freeList_free hnot (by decide) (by decide)
  rwa [freeList_noFree] at hfree

theorem slot_sparse (d : LDisk) (off : Nat) : slot d sparse off = 0 := by
  have hptr : irIndPtr sparse = 0 ∧ irDindPtr sparse = 0 ∧ irTindPtr sparse = 0 := ⟨rfl, rfl, rfl⟩
  rw [slot, hptr.1, hptr.2.1, hptr.2.2]
  simp only [walk_zero, ite_self]
  split
  · exact getD_zeros 7 off
  · rfl

theorem indNodes_sparse (d : LDisk) : indNodes d sparse = [] := by
  simp [indNodes, sparse, irIndPtr, irDindPtr, irTindPtr]

theorem listRep_sparse (d : LDisk) : ListRep oneBitmap 32769 d sparse (List.replicate 519 0) := by
  refine .of_zeroPast dataOk_oneBitmap ⟨rfl, by decide, fun off _ => slot_sparse d off⟩ ?_ ?_
  · rw [indNodes_sparse]
    exact Owned.nil _ _
  · rw [blockList, List.eq_replicate_iff]
    refine ⟨by rw [List.length_map, List.length_range]; rfl, fun w hw => ?_⟩
    obtain ⟨off, _, rfl⟩ := List.mem_map.1 hw
    exact slot_sparse d off

/-- A block in a tree of height 1 needs two nodes. -/
theorem two_le_nodes {bn off : Nat} (hw : walk d 1 bn off ≠ 0) : 2 ≤ (nodes d 1 bn).length := by
  have h0 : bn ≠ 0 := by
    rintro rfl
    exact hw (walk_zero d 1 off)
  rw [walk_succ d 0 off h0, walkL] at hw
  have hc : ((entries d bn).getD (off / nIndirect ^ (0 + 1)) 0).toNat ≠ 0 := fun h => by
    rw [h] at hw
    exact hw (walk_zero d 0 _)
  rw [nodes_succ d 0 h0, List.length_cons]
  exact Nat.succ_le_succ (List.length_pos_of_mem (nodes_getD_sub_kids (self_mem_nodes d 0 hc)))

/-- With one free block, growing into the second tree fails after it took this block for the root, which is then neither
free nor a node. -/
theorem grow_error_not_conserved :
    ListRep oneBitmap 32769 oneFree sparse (List.replicate 519 0) ∧ CacheRep oneBitmap oneFree none ∧
    ((grow oneBitmap sparse 5 none).run oneFree).1.2 = .error .ENOSPCBLOCK ∧
    ¬ (indNodes ((grow oneBitmap sparse 5 none).run oneFree).2 sparse ++
      freeList oneBitmap ((grow oneBitmap sparse 5 none).run oneFree).2).Perm
        (indNodes oneFree sparse ++ freeList oneBitmap oneFree) := by
  have hr := listRep_sparse oneFree
  have hc : CacheRep oneBitmap oneFree none := cacheRep_freelist0 _ _
  have hlt : irLen sparse < nBlocks := by
    rw [hr.irLen_eq, List.length_replicate, nBlocks_eq]
    decide
  have hspec := twp_run (grow_spec (w := 5) dataOk_oneBitmap hc hr.zeroPast hr.owned hlt)
  refine ⟨hr, hc, ?_⟩
  generalize (grow oneBitmap sparse 5 none).run oneFree = r at hspec ⊢
  obtain ⟨⟨c', res⟩, d'⟩ := r
  obtain ⟨hok, herr⟩ := hspec
  have hfree := freeList_oneFree
  cases res with
  | ok x' =>
    exfalso
    obtain ⟨hg, _⟩ := hok x' rfl
    have hslot : slot d' x' 519 = 5 := hg.val 519
    have hwalk : walk d' 1 (irDindPtr x') 0 ≠ 0 := by
      have he : slot d' x' 519 = walk d' 1 (irDindPtr x') 0 := by
        rw [slot, if_neg (by decide), if_neg (by decide), if_pos (by decide)]
        rfl
      rw [← he, hslot]
      decide
    have htwo := two_le_nodes hwalk
    have hlen := hg.own.length_eq
    rw [indNodes_sparse, List.nil_append, hfree.length_eq, indNodes] at hlen
    simp only [List.length_append, List.length_singleton] at hlen
    omega
  | error e =>
    obtain ⟨rfl, hf⟩ := herr e rfl
    refine ⟨rfl, fun hperm => ?_⟩
    have hlen := hperm.length_eq
    rw [indNodes_sparse, indNodes_sparse, hf.free, List.nil_append, List.nil_append, hfree.length_eq] at hlen
    cases hlen

end Fscq.BlockPtr
