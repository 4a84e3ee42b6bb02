import Fscq.Fs.BlockForest

/-!
# The block list of an inode

`slot` is the block number at an offset, in the record or in one of its three trees, `slotPath` the nodes on the way to it
and `indNodes` are the nodes of the trees. Nothing is stored behind the length of a record (`ZeroPast`). `IrecRep` is what
every record on the disk satisfies: besides, a tree that is not needed for this length is empty.
-/

namespace Fscq.BlockPtr

open TxnLogic BmapAllocCache INODE
open BmapAlloc (freeList size DataOk)

variable {n : Nat} {d d' : LDisk} {bxp : BallocXparams} {c : BmapCacheType} {x : Irec}

/-! ## Records -/

section Records

variable {len p q r : Nat} {bs : List Waddr} {a : Iattr}

theorem irLen_updIrec (h : len < 2 ^ 64) : irLen (updIrec x len p q r bs) = len := by
  simp only [irLen, updIrec, BitVec.toNat_ofNat]; exact Nat.mod_eq_of_lt h

theorem irIndPtr_updIrec (h : p < 2 ^ 64) : irIndPtr (updIrec x len p q r bs) = p := by
  simp only [irIndPtr, updIrec, BitVec.toNat_ofNat]; exact Nat.mod_eq_of_lt h

theorem irDindPtr_updIrec (h : q < 2 ^ 64) : irDindPtr (updIrec x len p q r bs) = q := by
  simp only [irDindPtr, updIrec, BitVec.toNat_ofNat]; exact Nat.mod_eq_of_lt h

theorem irTindPtr_updIrec (h : r < 2 ^ 64) : irTindPtr (updIrec x len p q r bs) = r := by
  simp only [irTindPtr, updIrec, BitVec.toNat_ofNat]; exact Nat.mod_eq_of_lt h

@[simp] theorem irBlocks_updIrec : irBlocks (updIrec x len p q r bs) = bs := rfl

@[simp] theorem irAttrs_updIrec : irAttrs (updIrec x len p q r bs) = irAttrs x := rfl

theorem irLen_updLen (h : len < 2 ^ 64) : irLen (updLen x len) = len := by
  simp only [irLen, updLen, BitVec.toNat_ofNat]; exact Nat.mod_eq_of_lt h

theorem irIndPtr_lt (x : Irec) : irIndPtr x < 2 ^ 64 := x.2.2.1.isLt

theorem irDindPtr_lt (x : Irec) : irDindPtr x < 2 ^ 64 := x.2.2.2.1.isLt

theorem irTindPtr_lt (x : Irec) : irTindPtr x < 2 ^ 64 := x.2.2.2.2.1.isLt

end Records

theorem length_updRangeFast {A : Type} : ∀ (l : List A) (start len : Nat) (v : A),
    (updRangeFast l start len v).length = l.length
  | [], _, _, _ => rfl
  | _ :: vs, start + 1, len, v => congrArg (· + 1) (length_updRangeFast vs start len v)
  | _ :: _, 0, 0, _ => rfl
  | _ :: vs, 0, len + 1, v => congrArg (· + 1) (length_updRangeFast vs 0 len v)

theorem getD_updRangeFast {A : Type} : ∀ (l : List A) (start len : Nat) (v : A) (i : Nat),
    (updRangeFast l start len v).getD i v = if start ≤ i ∧ i < start + len then v else l.getD i v
  | [], _, _, v, i => by simp [updRangeFast]
  | v' :: vs, start + 1, len, v, 0 => by simp [updRangeFast]
  | v' :: vs, start + 1, len, v, i + 1 => by
    simp only [updRangeFast, List.getD_cons_succ]
    rw [getD_updRangeFast vs start len v i]
    congr 1
    rw [eq_iff_iff]
    omega
  | v' :: vs, 0, 0, v, i => by rw [updRangeFast, if_neg (by omega)]
  | v' :: vs, 0, len + 1, v, 0 => by simp [updRangeFast]
  | v' :: vs, 0, len + 1, v, i + 1 => by
    simp only [updRangeFast, List.getD_cons_succ]
    rw [getD_updRangeFast vs 0 len v i]
    congr 1
    rw [eq_iff_iff]
    omega

/-! ## Block numbers and nodes -/

/-- The block number at an offset. -/
def slot (d : LDisk) (x : Irec) (off : Nat) : Waddr :=
  if off < NDirect then (irBlocks x).getD off 0
  else if off - NDirect < nIndirect then walk d 0 (irIndPtr x) (off - NDirect)
  else if off - NDirect - nIndirect < nIndirect ^ 2 then walk d 1 (irDindPtr x) (off - NDirect - nIndirect)
  else walk d 2 (irTindPtr x) (off - NDirect - nIndirect - nIndirect ^ 2)

def blockList (d : LDisk) (x : Irec) : List Waddr := (List.range (irLen x)).map (slot d x)

/-- The nodes of the three trees. -/
def indNodes (d : LDisk) (x : Irec) : List Nat :=
  nodes d 0 (irIndPtr x) ++ (nodes d 1 (irDindPtr x) ++ nodes d 2 (irTindPtr x))

/-- The nodes on the way to an offset. -/
def slotPath (d : LDisk) (x : Irec) (off : Nat) : List Nat :=
  if off < NDirect then []
  else if off - NDirect < nIndirect then path d 0 (irIndPtr x) (off - NDirect)
  else if off - NDirect - nIndirect < nIndirect ^ 2 then path d 1 (irDindPtr x) (off - NDirect - nIndirect)
  else path d 2 (irTindPtr x) (off - NDirect - nIndirect - nIndirect ^ 2)

@[simp] theorem length_blockList (d : LDisk) (x : Irec) : (blockList d x).length = irLen x := by simp [blockList]

theorem slot_congr (h : ∀ a ∈ indNodes d x, d' a = d a) : slot d' x = slot d x := by
  funext off
  have h₀ := walk_congr (fun a ha => h a (List.mem_append_left _ ha))
  have h₁ := walk_congr (fun a ha => h a (List.mem_append_right _ (List.mem_append_left _ ha)))
  have h₂ := walk_congr (fun a ha => h a (List.mem_append_right _ (List.mem_append_right _ ha)))
  rw [slot, slot, h₀, h₁, h₂]

theorem indNodes_congr (h : ∀ a ∈ indNodes d x, d' a = d a) : indNodes d' x = indNodes d x := by
  rw [indNodes, indNodes, nodes_congr fun a ha => h a (List.mem_append_left _ ha),
    nodes_congr fun a ha => h a (List.mem_append_right _ (List.mem_append_left _ ha)),
    nodes_congr fun a ha => h a (List.mem_append_right _ (List.mem_append_right _ ha))]

theorem blockList_congr (h : ∀ a ∈ indNodes d x, d' a = d a) : blockList d' x = blockList d x := by
  rw [blockList, blockList, slot_congr h]

/-- The record has its direct blocks, at most `nBlocks` blocks in all, and zeros behind them. -/
structure ZeroPast (d : LDisk) (x : Irec) : Prop where
  blocks : (irBlocks x).length = NDirect
  len : irLen x ≤ nBlocks
  zero : ∀ off, irLen x ≤ off → slot d x off = 0

structure IrecRep (d : LDisk) (x : Irec) : Prop extends ZeroPast d x where
  ind : irLen x ≤ NDirect → irIndPtr x = 0
  dind : irLen x ≤ NDirect + nIndirect → irDindPtr x = 0
  tind : irLen x ≤ NDirect + nIndirect + nIndirect ^ 2 → irTindPtr x = 0

theorem IrecRep.congr (hr : IrecRep d x) (h : ∀ a ∈ indNodes d x, d' a = d a) : IrecRep d' x :=
  { hr with zero := fun off hoff => by rw [slot_congr h]; exact hr.zero off hoff }

theorem nBlocks_eq : nBlocks = 134480391 := by decide

theorem ZeroPast.len_lt (hr : ZeroPast d x) : irLen x + 1 < 2 ^ 64 := by
  have := hr.len
  rw [nBlocks_eq] at this
  omega

/-- Past its size a tree has zeros. -/
theorem walk_of_le (lvl bn : Nat) {off : Nat} (h : nIndirect ^ (lvl + 1) ≤ off) : walk d lvl bn off = 0 := by
  by_cases h0 : bn = 0
  · rw [h0, walk_zero]
  · cases lvl with
    | zero =>
      rw [Nat.zero_add, Nat.pow_one] at h
      rw [walk, if_neg h0, List.getD_eq_getElem?_getD, List.getElem?_eq_none (by rw [length_entries]; exact h)]
      rfl
    | succ lvl =>
      have hdiv : 512 ≤ off / nIndirect ^ (lvl + 1) := by
        rw [Nat.le_div_iff_mul_le (pow_pos' _), Nat.mul_comm]
        rwa [Nat.pow_succ] at h
      rw [walk_succ d lvl off h0, walkL, List.getD_eq_getElem?_getD,
        List.getElem?_eq_none (by rw [length_entries]; exact hdiv)]
      exact walk_zero d lvl _

/-- A slot behind the direct blocks is in one of the trees. -/
theorem slot_cases (d : LDisk) (x : Irec) (off : Nat) : slotPath d x off = [] ∨
    ∃ lvl bn off', slot d x off = walk d lvl bn off' ∧ slotPath d x off = path d lvl bn off' ∧
      ∀ a ∈ path d lvl bn off', a ∈ indNodes d x := by
  rw [slotPath, slot, indNodes]
  by_cases hd : off < NDirect
  · rw [if_pos hd]
    exact .inl rfl
  simp only [if_neg hd]
  generalize nIndirect ^ 2 = S
  by_cases hi : off - NDirect < nIndirect
  · simp only [if_pos hi]
    exact .inr ⟨_, _, _, rfl, rfl, fun a ha => List.mem_append_left _ (path_sub_nodes ha)⟩
  simp only [if_neg hi]
  by_cases hs : off - NDirect - nIndirect < S
  · simp only [if_pos hs]
    exact .inr ⟨_, _, _, rfl, rfl, fun a ha => List.mem_append_right _ (List.mem_append_left _ (path_sub_nodes ha))⟩
  · simp only [if_neg hs]
    exact .inr ⟨_, _, _, rfl, rfl, fun a ha => List.mem_append_right _ (List.mem_append_right _ (path_sub_nodes ha))⟩

theorem slotPath_sub {off a : Nat} (ha : a ∈ slotPath d x off) : a ∈ indNodes d x := by
  rcases slot_cases d x off with h | ⟨lvl, bn, off', _, hpath, hsub⟩
  · rw [h] at ha
    cases ha
  · exact hsub a (hpath ▸ ha)

theorem slotPath_congr (h : ∀ a ∈ indNodes d x, d' a = d a) : slotPath d' x = slotPath d x := by
  funext off
  have h₀ := path_congr (fun a ha => h a (List.mem_append_left _ ha))
  have h₁ := path_congr (fun a ha => h a (List.mem_append_right _ (List.mem_append_left _ ha)))
  have h₂ := path_congr (fun a ha => h a (List.mem_append_right _ (List.mem_append_right _ ha)))
  rw [slotPath, slotPath, h₀, h₁, h₂]

/-! ## Reading -/

theorem get_eq (x : Irec) (off : Nat) : get x off =
    if off < NDirect then pure ((irBlocks x).getD off 0)
    else if off - NDirect < nIndirect then indget 0 (irIndPtr x) (off - NDirect)
    else if off - NDirect - nIndirect < nIndirect ^ 2 then indget 1 (irDindPtr x) (off - NDirect - nIndirect)
    else indget 2 (irTindPtr x) (off - NDirect - nIndirect - nIndirect ^ 2) := rfl

theorem get_spec {Q : Waddr → LDisk → Prop} {off : Nat} (hin : ∀ a ∈ indNodes d x, a < n) (hoff : off < nBlocks)
    (hQ : Q (slot d x off) d) : twp n (get x off) Q d := by
  rw [slot] at hQ
  rw [get_eq]
  have h₀ : ∀ a ∈ nodes d 0 (irIndPtr x), a < n := fun a ha => hin a (List.mem_append_left _ ha)
  have h₁ : ∀ a ∈ nodes d 1 (irDindPtr x), a < n := fun a ha =>
    hin a (List.mem_append_right _ (List.mem_append_left _ ha))
  have h₂ : ∀ a ∈ nodes d 2 (irTindPtr x), a < n := fun a ha =>
    hin a (List.mem_append_right _ (List.mem_append_right _ ha))
  by_cases hd : off < NDirect
  · rw [if_pos hd] at hQ ⊢
    exact hQ
  rw [if_neg hd] at hQ ⊢
  by_cases hi : off - NDirect < nIndirect
  · rw [if_pos hi] at hQ ⊢
    exact indget_spec h₀ (by rw [Nat.pow_one]; exact hi) hQ
  rw [if_neg hi] at hQ ⊢
  rw [nBlocks] at hoff
  generalize hS : nIndirect ^ 2 = S at hQ hoff ⊢
  by_cases hdi : off - NDirect - nIndirect < S
  · rw [if_pos hdi] at hQ ⊢
    exact indget_spec h₁ (hS ▸ hdi) hQ
  · rw [if_neg hdi] at hQ ⊢
    have hlt : off - NDirect - nIndirect - S < nIndirect ^ 3 := by omega
    exact indget_spec h₂ hlt hQ

theorem getElem?_map_range {A : Type} (f : Nat → A) {m i : Nat} (h : i < m) : ((List.range m).map f)[i]? = some (f i) := by
  rw [List.getElem?_map, List.getElem?_range h]; rfl

/-- Everything the record and its trees hold, in order. -/
def allSlots (d : LDisk) (x : Irec) : List Waddr :=
  irBlocks x ++ ((List.range (nIndirect ^ 1)).map (walk d 0 (irIndPtr x)) ++
    ((List.range (nIndirect ^ 2)).map (walk d 1 (irDindPtr x)) ++
      (List.range (nIndirect ^ 3)).map (walk d 2 (irTindPtr x))))

theorem getElem?_allSlots (hr : (irBlocks x).length = NDirect) {i : Nat} (h : i < nBlocks) :
    (allSlots d x)[i]? = some (slot d x i) := by
  rw [nBlocks] at h
  rw [allSlots, slot, List.getElem?_append, hr, Nat.pow_one]
  generalize nIndirect ^ 2 = S, nIndirect ^ 3 = T at h ⊢
  by_cases hd : i < NDirect
  · rw [if_pos hd, if_pos hd, List.getD_eq_getElem?_getD, List.getElem?_eq_getElem (hr.symm ▸ hd)]; rfl
  rw [if_neg hd, if_neg hd, List.getElem?_append, List.length_map, List.length_range]
  by_cases hi : i - NDirect < nIndirect
  · rw [if_pos hi, if_pos hi, getElem?_map_range _ hi]
  rw [if_neg hi, if_neg hi, List.getElem?_append, List.length_map, List.length_range]
  by_cases hs : i - NDirect - nIndirect < S
  · rw [if_pos hs, if_pos hs, getElem?_map_range _ hs]
  rw [if_neg hs, if_neg hs, getElem?_map_range _ (by omega)]

theorem take_allSlots (hb : (irBlocks x).length = NDirect) (hlen : irLen x ≤ nBlocks) :
    (allSlots d x).take (irLen x) = blockList d x := by
  refine List.ext_getElem? fun i => ?_
  rw [blockList, List.getElem?_take]
  by_cases hi : i < irLen x
  · rw [if_pos hi, getElem?_allSlots hb (Nat.lt_of_lt_of_le hi hlen), getElem?_map_range _ hi]
  · rw [if_neg hi, List.getElem?_eq_none (by simpa using hi)]

theorem readBlocks_spec {Q : List Waddr → LDisk → Prop} (hb : (irBlocks x).length = NDirect) (hlen : irLen x ≤ nBlocks)
    (hin : ∀ a ∈ indNodes d x, a < n) (hQ : Q (blockList d x) d) : twp n (read x) Q d := by
  rw [← take_allSlots hb hlen] at hQ
  by_cases hd : irLen x ≤ NDirect
  · rw [read, if_pos hd]
    rw [allSlots, List.take_append_of_le_length (hb.symm ▸ hd)] at hQ
    exact hQ
  · rw [read, if_neg hd]
    refine twp_seq (indread_spec 0 _ fun a ha => hin a (List.mem_append_left _ ha)) fun bs₀ d₀ ⟨hd₀, h₀⟩ => ?_
    subst hd₀
    refine twp_seq (indread_spec 1 _ fun a ha => hin a (List.mem_append_right _ (List.mem_append_left _ ha)))
      fun bs₁ d₁ ⟨hd₁, h₁⟩ => ?_
    subst hd₁
    refine twp_seq (indread_spec 2 _ fun a ha => hin a (List.mem_append_right _ (List.mem_append_right _ ha)))
      fun bs₂ d₂ ⟨hd₂, h₂⟩ => ?_
    subst hd₂
    rw [h₀, h₁, h₂]
    exact hQ

theorem read_spec {Q : List Waddr → LDisk → Prop} (hr : IrecRep d x) (hin : ∀ a ∈ indNodes d x, a < n)
    (hQ : Q (blockList d x) d) : twp n (read x) Q d := readBlocks_spec hr.blocks hr.len hin hQ

/-! ## The parts of a record -/

/-- The block number at an offset behind the direct ones. -/
def treesSlot (d : LDisk) (p q r off : Nat) : Waddr :=
  if off < nIndirect then walk d 0 p off
  else if off - nIndirect < nIndirect ^ 2 then walk d 1 q (off - nIndirect)
  else walk d 2 r (off - nIndirect - nIndirect ^ 2)

theorem slot_eq (d : LDisk) (x : Irec) (off : Nat) : slot d x off =
    if off < NDirect then (irBlocks x).getD off 0
    else treesSlot d (irIndPtr x) (irDindPtr x) (irTindPtr x) (off - NDirect) := rfl

namespace Forest

/-- The trees of a record with the roots `p`, `q` and `r`. -/
def trees (p q r : Nat) : Forest (nIndirect ^ 1 + (nIndirect ^ 2 + nIndirect ^ 3)) :=
  (tree 0 p).join ((tree 1 q).join (tree 2 r))

/-- A record with the direct blocks `bs`. -/
def record (bs : List Waddr) (p q r : Nat) : Forest (NDirect + (nIndirect ^ 1 + (nIndirect ^ 2 + nIndirect ^ 3))) :=
  (leaves bs NDirect).join (trees p q r)

theorem walk_trees (d : LDisk) (p q r : Nat) : (trees p q r).walk d = treesSlot d p q r := by
  funext off
  simp only [trees, join, tree, treesSlot, Nat.zero_add, Nat.reduceAdd, Nat.pow_one]

theorem walk_record (d : LDisk) (bs : List Waddr) (p q r off : Nat) : (record bs p q r).walk d off =
    if off < NDirect then bs.getD off 0 else treesSlot d p q r (off - NDirect) := by
  rw [← walk_trees]
  rfl

end Forest

/-- The record `x` as a forest. -/
def forest (x : Irec) : Forest (NDirect + (nIndirect ^ 1 + (nIndirect ^ 2 + nIndirect ^ 3))) :=
  .record (irBlocks x) (irIndPtr x) (irDindPtr x) (irTindPtr x)

theorem walk_forest (d : LDisk) (x : Irec) : (forest x).walk d = slot d x := by
  funext off
  rw [forest, Forest.walk_record, slot_eq]

theorem path_forest (d : LDisk) (x : Irec) : (forest x).path d = slotPath d x := by
  funext off
  simp only [forest, Forest.record, Forest.trees, Forest.join, Forest.tree, Forest.leaves, slotPath, Nat.zero_add,
    Nat.reduceAdd, Nat.pow_one]

theorem forest_updIrec {len p q r : Nat} {bs : List Waddr} (hp : p < 2 ^ 64) (hq : q < 2 ^ 64) (hr : r < 2 ^ 64) :
    forest (updIrec x len p q r bs) = .record bs p q r := by
  rw [forest, irIndPtr_updIrec hp, irDindPtr_updIrec hq, irTindPtr_updIrec hr, irBlocks_updIrec]

/-! ## Shrinking -/

theorem localStart_zero : localStart 0 = 0 := rfl

theorem localStart_one : localStart 1 = nIndirect := by decide

theorem localStart_two : localStart 2 = nIndirect + nIndirect ^ 2 := by decide

theorem indshrinkHelper_spec (hx : DataOk bxp n) (lvl : Nat) {bn nl : Nat} (hc : CacheRep bxp d c)
    (ho : Owned bxp d (nodes d lvl bn)) :
    twp n (indshrinkHelper bxp lvl bn nl c) (fun r d' =>
      NodeCleared bxp d lvl bn (nl - localStart lvl) (nIndirect ^ (lvl + 1) - (nl - localStart lvl)) r d' ∧
      (nl ≤ localStart lvl → r.2 = 0)) d := by
  have hpos := pow_pos' (lvl + 1)
  simp only [indshrinkHelper]
  by_cases hlt : nl < localStart lvl + nIndirect ^ (lvl + 1)
  · rw [if_pos hlt]
    refine twp_mono (fun r d' hnode => ⟨hnode, fun hle => hnode.1.root_eq ?_ ?_⟩) _ (indclear_spec hx lvl hc ho (by omega))
    · omega
    · omega
  · rw [if_neg hlt, Nat.sub_eq_zero_of_le (by omega : nIndirect ^ (lvl + 1) ≤ nl - localStart lvl)]
    exact ⟨nodeCleared_refl hc _, fun hle => by omega⟩

theorem NodeCleared.lt {lvl bn s l : Nat} {r : BmapCacheType × Nat} (hcl : NodeCleared bxp d lvl bn s l r d')
    (hbn : bn < 2 ^ 64) : r.2 < 2 ^ 64 := by
  rcases hcl.2.1 with h | h
  · rw [h]; decide
  · rw [h]; exact hbn

/-- The three trees, shrunk to `nl` blocks, with the roots `p`, `q` and `r`. -/
structure TreesShrunk (bxp : BallocXparams) (d d' : LDisk) (x : Irec) (nl p q r : Nat) : Prop where
  lt₀ : p < 2 ^ 64
  lt₁ : q < 2 ^ 64
  lt₂ : r < 2 ^ 64
  zeroes : Forest.ZeroesTo bxp d d' (.trees (irIndPtr x) (irDindPtr x) (irTindPtr x)) (.trees p q r) (nl - NDirect)
    (nIndirect + nIndirect ^ 2 + nIndirect ^ 3 - (nl - NDirect))
  zero₀ : nl ≤ NDirect → p = 0 ∨ irLen x ≤ NDirect ∧ p = irIndPtr x
  zero₁ : nl ≤ NDirect + nIndirect → q = 0 ∨ irLen x ≤ NDirect ∧ q = irDindPtr x
  zero₂ : nl ≤ NDirect + nIndirect + nIndirect ^ 2 → r = 0 ∨ irLen x ≤ NDirect ∧ r = irTindPtr x
  within : IrecRep d x → (Forest.trees p q r).Within d' (nl - NDirect)

theorem indshrink_spec (hx : DataOk bxp n) (hc : CacheRep bxp d c) (ho : Owned bxp d (indNodes d x)) (nl : Nat) :
    twp n (indshrink bxp x (nl - NDirect) c) (fun r d' => TreesShrunk bxp d d' x nl r.2.1 r.2.2.1 r.2.2.2 ∧
      CacheRep bxp d' r.1) d := by
  -- the trees are cleared one after the other, each beside the two others
  have ho₀ : Owned bxp d ((Forest.trees (irIndPtr x) (irDindPtr x) (irTindPtr x)).nodes d) := ho
  refine twp_seq (indshrinkHelper_spec hx 0 hc (ho₀.sublist (List.sublist_append_left _ _)))
    fun ⟨c₁, p⟩ d₁ ⟨hcl₁, hz₁⟩ => ?_
  have hZ₁ : Forest.ZeroesTo bxp d d₁ (.trees (irIndPtr x) (irDindPtr x) (irTindPtr x))
      (.trees p (irDindPtr x) (irTindPtr x)) _ _ := Forest.zeroes_left hcl₁.1.toZeroes hx ho₀ (Nat.le_refl _)
  have ho₁ := hZ₁.owned ho₀
  have ho₁' := ho₁.sublist (List.sublist_append_right _ _)
  refine twp_seq (indshrinkHelper_spec hx 1 hcl₁.2.2 (ho₁'.sublist (List.sublist_append_left _ _)))
    fun ⟨c₂, q⟩ d₂ ⟨hcl₂, hz₂⟩ => ?_
  have hleft₂ : Forest.ZeroesTo bxp d₁ d₂ (.join (.tree 1 (irDindPtr x)) (.tree 2 (irTindPtr x)))
      (.join (.tree 1 q) (.tree 2 (irTindPtr x))) _ _ := Forest.zeroes_left hcl₂.1.toZeroes hx ho₁' (Nat.le_refl _)
  have hZ₂ : Forest.ZeroesTo bxp d₁ d₂ (.trees p (irDindPtr x) (irTindPtr x)) (.trees p q (irTindPtr x)) _ _ :=
    Forest.zeroes_right hleft₂ hx ho₁
  have ho₂ := hZ₂.owned ho₁
  have ho₂' := ho₂.sublist (List.sublist_append_right _ _)
  refine twp_seq (indshrinkHelper_spec hx 2 hcl₂.2.2 (ho₂'.sublist (List.sublist_append_right _ _)))
    fun ⟨c₃, r⟩ d₃ ⟨hcl₃, hz₃⟩ => ?_
  have hright₃ : Forest.ZeroesTo bxp d₂ d₃ (.join (.tree 1 q) (.tree 2 (irTindPtr x))) (.join (.tree 1 q) (.tree 2 r)) _ _ :=
    Forest.zeroes_right hcl₃.1.toZeroes hx ho₂'
  have hZ₃ : Forest.ZeroesTo bxp d₂ d₃ (.trees p q (irTindPtr x)) (.trees p q r) _ _ :=
    Forest.zeroes_right hright₃ hx ho₂
  have hwithin : (Forest.trees p q r).Within d₃ (nl - NDirect) := by
    have hw₀ := ((Forest.within_of_clears hcl₁.1).congr (hleft₂.beside hx (ho₁.perm List.perm_append_comm))).congr
      (hright₃.beside hx (ho₂.perm List.perm_append_comm))
    have hw₁ := (Forest.within_of_clears hcl₂.1).congr (hcl₃.1.beside hx (ho₂'.perm List.perm_append_comm))
    have hw₂ := Forest.within_of_clears hcl₃.1
    refine hw₀.join (Forest.Within.join (hw₁.mono ?_) (hw₂.mono ?_))
    · simp only [localStart_zero, localStart_one, Nat.zero_add, Nat.pow_one]
      omega
    · simp only [localStart_zero, localStart_two, Nat.zero_add, Nat.reduceAdd, Nat.pow_one]
      generalize nIndirect ^ 2 = S
      omega
  have hmeet₁ : nIndirect ^ (0 + 1) + (nl - NDirect - localStart 1) =
      nl - NDirect - localStart 0 + (nIndirect ^ (0 + 1) - (nl - NDirect - localStart 0)) := by
    simp only [localStart_zero, localStart_one, Nat.zero_add, Nat.pow_one]
    omega
  have hmeet₂ : nIndirect ^ (0 + 1) + (nIndirect ^ (1 + 1) + (nl - NDirect - localStart 2)) =
      nl - NDirect - localStart 0 + (nIndirect ^ (0 + 1) - (nl - NDirect - localStart 0) +
        (nIndirect ^ (1 + 1) - (nl - NDirect - localStart 1))) := by
    simp only [localStart_zero, localStart_one, localStart_two, Nat.zero_add, Nat.reduceAdd, Nat.pow_one]
    generalize nIndirect ^ 2 = S
    omega
  have hlen : nIndirect ^ (0 + 1) - (nl - NDirect - localStart 0) + (nIndirect ^ (1 + 1) - (nl - NDirect - localStart 1)) +
      (nIndirect ^ (2 + 1) - (nl - NDirect - localStart 2)) =
        nIndirect + nIndirect ^ 2 + nIndirect ^ 3 - (nl - NDirect) := by
    simp only [localStart_zero, localStart_one, localStart_two, Nat.zero_add, Nat.reduceAdd, Nat.pow_one]
    generalize nIndirect ^ 2 = S, nIndirect ^ 3 = T
    omega
  have hZ := (hZ₁.trans hZ₂ hmeet₁).trans hZ₃ hmeet₂
  rw [hlen] at hZ
  rw [localStart_one] at hz₂
  rw [localStart_two] at hz₃
  refine ⟨⟨hcl₁.lt (irIndPtr_lt x), hcl₂.lt (irDindPtr_lt x), hcl₃.lt (irTindPtr_lt x), hZ, fun h => .inl (hz₁ ?_),
    fun h => .inl (hz₂ ?_), fun h => .inl (hz₃ ?_), fun _ => hwithin⟩, hcl₃.2.2⟩
  · exact Nat.le_of_eq (Nat.sub_eq_zero_of_le h)
  · omega
  · generalize nIndirect ^ 2 = S at h ⊢
    omega

/-- What shrinking to `nl` blocks does. -/
structure Shrinks (bxp : BallocXparams) (d d' : LDisk) (x x' : Irec) (nl : Nat) : Prop
    extends Zeroes bxp d d' (indNodes d x) (indNodes d' x') (slot d x) (slot d' x') (slotPath d x) (slotPath d' x') nl
      (nBlocks - nl) where
  past : ZeroPast d' x'
  rep : IrecRep d x → IrecRep d' x'
  /-- The nodes that are left are on the way to the blocks that are left. -/
  within : IrecRep d x → ∀ a ∈ indNodes d' x', ∃ off < nl, a ∈ slotPath d' x' off
  len : irLen x' = nl
  attrs : irAttrs x' = irAttrs x

theorem slot_of_le {off : Nat} (h : nBlocks ≤ off) : slot d x off = 0 := by
  rw [nBlocks] at h
  rw [slot]
  generalize hS : nIndirect ^ 2 = S, hT : nIndirect ^ 3 = T at h
  rw [if_neg (by omega), if_neg (by omega), if_neg (by omega)]
  exact walk_of_le 2 _ (by rw [hT]; omega)

theorem Shrinks.slots {x' : Irec} {nl : Nat} (hs : Shrinks bxp d d' x x' nl) (off : Nat) :
    slot d' x' off = if off < nl then slot d x off else 0 := by
  rw [hs.val]
  by_cases h : off < nl
  · rw [if_pos h, if_neg (by omega)]
  · rw [if_neg h]
    by_cases hin : nl ≤ off ∧ off < nl + (nBlocks - nl)
    · rw [if_pos hin]
    · rw [if_neg hin, slot_of_le (by omega)]

theorem Shrinks.blockList_eq {x' : Irec} {nl : Nat} (hs : Shrinks bxp d d' x x' nl) (hle : nl ≤ irLen x) :
    blockList d' x' = (blockList d x).take nl := by
  rw [blockList, blockList, hs.len, ← List.map_take, List.take_range, Nat.min_eq_left hle]
  refine List.map_congr_left fun off hoff => ?_
  rw [hs.slots, if_pos (List.mem_range.1 hoff)]

/-- Where all blocks that are left have a number, the nodes that are left are those on the way to them. -/
theorem Shrinks.mem_nodes {x' : Irec} {nl : Nat} (hs : Shrinks bxp d d' x x' nl) (hr : IrecRep d x)
    (hne : ∀ off < nl, slot d x off ≠ 0) {a : Nat} : a ∈ indNodes d' x' ↔ ∃ off < nl, a ∈ slotPath d x off := by
  have hpath : ∀ off < nl, slotPath d' x' off = slotPath d x off := fun off hlt => hs.path off (by
    rw [hs.slots, if_pos hlt]
    exact hne off hlt)
  constructor
  · intro ha
    obtain ⟨off, hlt, hin⟩ := hs.within hr a ha
    exact ⟨off, hlt, hpath off hlt ▸ hin⟩
  · rintro ⟨off, hlt, hin⟩
    rw [← hpath off hlt] at hin
    exact slotPath_sub hin

/-- The record after its trees are shrunk. -/
theorem TreesShrunk.shrinks {nl p q r : Nat} (ht : TreesShrunk bxp d d' x nl p q r) (hx : DataOk bxp n)
    (ho : Owned bxp d (indNodes d x)) (hr : ZeroPast d x) (hnl : nl < 2 ^ 64) (hle : nl ≤ irLen x) :
    Shrinks bxp d d' x (updIrec x nl p q r (updRangeFast (irBlocks x) nl (NDirect - nl) 0)) nl := by
  have hlen := @irLen_updIrec x nl p q r (updRangeFast (irBlocks x) nl (NDirect - nl) 0) hnl
  -- first the direct blocks, then the trees behind them
  have hdirect : Forest.ZeroesTo bxp d d (.leaves (irBlocks x) NDirect)
      (.leaves (updRangeFast (irBlocks x) nl (NDirect - nl) 0) NDirect) nl (NDirect - nl) :=
    ⟨.refl _, fun _ h => h, fun off => getD_updRangeFast _ _ _ _ _, fun _ _ _ => rfl, fun _ _ => rfl, fun _ _ h => h⟩
  have hleft : Forest.ZeroesTo bxp d d (forest x)
      (.record (updRangeFast (irBlocks x) nl (NDirect - nl) 0) (irIndPtr x) (irDindPtr x) (irTindPtr x)) _ _ :=
    Forest.zeroes_left hdirect hx ho (Nat.le_refl _)
  have hright : Forest.ZeroesTo bxp d d' _ (.record (updRangeFast (irBlocks x) nl (NDirect - nl) 0) p q r) _ _ :=
    Forest.zeroes_right (G := .leaves (updRangeFast (irBlocks x) nl (NDirect - nl) 0) NDirect) ht.zeroes hx ho
  have hall := hleft.trans hright (by omega)
  have hsum : NDirect - nl + (nIndirect + nIndirect ^ 2 + nIndirect ^ 3 - (nl - NDirect)) = nBlocks - nl := by
    rw [nBlocks]
    generalize nIndirect ^ 2 = S, nIndirect ^ 3 = T
    omega
  rw [hsum, ← @forest_updIrec x nl p q r _ ht.lt₀ ht.lt₁ ht.lt₂, walk_forest, walk_forest, path_forest, path_forest] at hall
  have hslots := hall.val
  have hpast : ZeroPast d' (updIrec x nl p q r (updRangeFast (irBlocks x) nl (NDirect - nl) 0)) := by
    refine ⟨?_, ?_, fun off hoff => ?_⟩
    · rw [irBlocks_updIrec, length_updRangeFast, hr.blocks]
    · rw [hlen]
      exact Nat.le_trans hle hr.len
    · rw [hlen] at hoff
      by_cases hin : nl ≤ off ∧ off < nl + (nBlocks - nl)
      · rw [hslots, if_pos hin]
      · exact slot_of_le (by omega)
  refine ⟨hall, hpast, fun hrep => ⟨hpast, fun h => ?_, fun h => ?_, fun h => ?_⟩, fun hrep a ha => ?_, hlen, rfl⟩
  · rw [hlen] at h
    rw [irIndPtr_updIrec ht.lt₀]
    rcases ht.zero₀ h with h₀ | ⟨hl, h₀⟩
    · exact h₀
    · rw [h₀, hrep.ind hl]
  · rw [hlen] at h
    rw [irDindPtr_updIrec ht.lt₁]
    rcases ht.zero₁ h with h₀ | ⟨hl, h₀⟩
    · exact h₀
    · rw [h₀, hrep.dind (Nat.le_add_right_of_le hl)]
  · rw [hlen] at h
    rw [irTindPtr_updIrec ht.lt₂]
    rcases ht.zero₂ h with h₀ | ⟨hl, h₀⟩
    · exact h₀
    · rw [h₀, hrep.tind (Nat.le_add_right_of_le (Nat.le_add_right_of_le hl))]
  · have hw : (Forest.record (updRangeFast (irBlocks x) nl (NDirect - nl) 0) p q r).Within d' nl :=
      Forest.Within.join (fun a ha => absurd ha List.not_mem_nil) (ht.within hrep)
    rw [← @forest_updIrec x nl p q r _ ht.lt₀ ht.lt₁ ht.lt₂] at hw
    obtain ⟨off, hlt, _, hin⟩ := hw a ha
    rw [path_forest] at hin
    exact ⟨off, hlt, hin⟩

theorem shrink_spec (hx : DataOk bxp n) (hc : CacheRep bxp d c) (hr : ZeroPast d x) (ho : Owned bxp d (indNodes d x))
    (nr : Nat) :
    twp n (shrink bxp x nr c) (fun r d' => Shrinks bxp d d' x r.2 (irLen x - nr) ∧ CacheRep bxp d' r.1) d := by
  have hlen64 := hr.len_lt
  have hnl : irLen x - nr < 2 ^ 64 := by omega
  have hnl' : irLen x - nr ≤ irLen x := Nat.sub_le _ _
  simp only [shrink]
  generalize irLen x - nr = nl at hnl hnl' ⊢
  by_cases hd : irLen x ≤ NDirect
  · -- the trees have zeros only, and stay
    rw [if_pos hd]
    have hz : Forest.ZeroesTo bxp d d (.trees (irIndPtr x) (irDindPtr x) (irTindPtr x))
        (.trees (irIndPtr x) (irDindPtr x) (irTindPtr x)) (nl - NDirect)
        (nIndirect + nIndirect ^ 2 + nIndirect ^ 3 - (nl - NDirect)) := by
      refine Zeroes.of_zero fun off _ _ => ?_
      have := hr.zero (NDirect + off) (by omega)
      rwa [slot_eq, if_neg (by omega), Nat.add_sub_cancel_left, ← Forest.walk_trees] at this
    have ht : TreesShrunk bxp d d x nl (irIndPtr x) (irDindPtr x) (irTindPtr x) := by
      refine ⟨irIndPtr_lt x, irDindPtr_lt x, irTindPtr_lt x, hz, fun _ => .inr ⟨hd, rfl⟩, fun _ => .inr ⟨hd, rfl⟩,
        fun _ => .inr ⟨hd, rfl⟩, fun hrep a ha => ?_⟩
      have hnil : (Forest.trees (irIndPtr x) (irDindPtr x) (irTindPtr x)).nodes d = [] := by
        rw [hrep.ind hd, hrep.dind (Nat.le_add_right_of_le hd), hrep.tind (Nat.le_add_right_of_le (Nat.le_add_right_of_le hd))]
        simp [Forest.trees, Forest.join, Forest.tree]
      rw [hnil] at ha
      cases ha
    exact ⟨ht.shrinks hx ho hr hnl hnl', hc⟩
  · rw [if_neg hd]
    refine twp_seq (indshrink_spec hx hc ho nl) ?_
    rintro ⟨c', p, q, r⟩ d' ⟨ht, hc'⟩
    exact ⟨ht.shrinks hx ho hr hnl hnl', hc'⟩

/-! ## Growing -/

/-- The three trees with one more entry, at `o`. -/
structure TreesGrown (bxp : BallocXparams) (d d' : LDisk) (x : Irec) (o : Nat) (w : Waddr) (p q r : Nat) : Prop where
  lt₀ : p < 2 ^ 64
  lt₁ : q < 2 ^ 64
  lt₂ : r < 2 ^ 64
  puts : Forest.PutsTo bxp d d' (.trees (irIndPtr x) (irDindPtr x) (irTindPtr x)) (.trees p q r) o w
  same₁ : o < nIndirect → q = irDindPtr x
  same₂ : o < nIndirect + nIndirect ^ 2 → r = irTindPtr x

theorem indgrow_spec (hx : DataOk bxp n) (hc : CacheRep bxp d c) (ho : Owned bxp d (indNodes d x)) {o : Nat} {w : Waddr}
    (hlt : o < nIndirect + nIndirect ^ 2 + nIndirect ^ 3) :
    twp n (indgrow bxp x o w c) (fun r d' =>
      (r.2.1 ≠ 0 → TreesGrown bxp d d' x o w r.2.2.1 r.2.2.2.1 r.2.2.2.2 ∧ CacheRep bxp d' r.1) ∧
      (r.2.1 = 0 → Fails bxp d r.1 d')) d := by
  have hbound := hx.bound
  have ho₀ : Owned bxp d ((Forest.trees (irIndPtr x) (irDindPtr x) (irTindPtr x)).nodes d) := ho
  have ho₁ := ho₀.sublist (List.sublist_append_right _ _)
  simp only [indgrow]
  by_cases hi : o < nIndirect
  · rw [if_pos hi]
    have hi' : o < nIndirect ^ (0 + 1) := by rw [Nat.pow_one]; exact hi
    refine twp_seq (indput_spec hx 0 hc (ho₀.sublist (List.sublist_append_left _ _)) hi')
      fun ⟨c', v⟩ d' hput => ⟨fun hv => ?_, hput.fails⟩
    obtain ⟨hp, hvlt, hc'⟩ := hput.done hv
    have hputs : Forest.PutsTo bxp d d' (.tree 0 (irIndPtr x)) (.tree 0 v) o w := hp
    exact ⟨⟨Nat.lt_trans hvlt hbound, irDindPtr_lt x, irTindPtr_lt x, Forest.puts_left hputs hx ho₀ hi', fun _ => rfl,
      fun _ => rfl⟩, hc'⟩
  generalize hS : nIndirect ^ 2 = S at hlt ⊢
  rw [if_neg hi]
  by_cases hdi : o - nIndirect < S
  · rw [if_pos hdi]
    have hdi' : o - nIndirect < nIndirect ^ (1 + 1) := hS.symm ▸ hdi
    refine twp_seq (indput_spec hx 1 hc (ho₁.sublist (List.sublist_append_left _ _)) hdi')
      fun ⟨c', v⟩ d' hput => ⟨fun hv => ?_, hput.fails⟩
    obtain ⟨hp, hvlt, hc'⟩ := hput.done hv
    have hputs : Forest.PutsTo bxp d d' (.tree 1 (irDindPtr x)) (.tree 1 v) (o - nIndirect) w := hp
    have hall := Forest.puts_right (Forest.puts_left hputs hx ho₁ hdi') hx ho₀
    rw [show nIndirect ^ (0 + 1) + (o - nIndirect) = o by rw [Nat.zero_add, Nat.pow_one]; omega] at hall
    exact ⟨⟨irIndPtr_lt x, Nat.lt_trans hvlt hbound, irTindPtr_lt x, hall, fun h => absurd h hi, fun _ => rfl⟩, hc'⟩
  · rw [if_neg hdi]
    have hlt' : o - nIndirect - S < nIndirect ^ (2 + 1) := by
      generalize nIndirect ^ (2 + 1) = T at hlt ⊢
      omega
    refine twp_seq (indput_spec hx 2 hc (ho₁.sublist (List.sublist_append_right _ _)) hlt')
      fun ⟨c', v⟩ d' hput => ⟨fun hv => ?_, hput.fails⟩
    obtain ⟨hp, hvlt, hc'⟩ := hput.done hv
    have hputs : Forest.PutsTo bxp d d' (.tree 2 (irTindPtr x)) (.tree 2 v) (o - nIndirect - S) w := hp
    have hall := Forest.puts_right (Forest.puts_right hputs hx ho₁) hx ho₀
    have hoff : nIndirect ^ (0 + 1) + (nIndirect ^ (1 + 1) + (o - nIndirect - S)) = o := by
      simp only [Nat.zero_add, Nat.reduceAdd, Nat.pow_one, hS]
      omega
    rw [hoff] at hall
    refine ⟨⟨irIndPtr_lt x, irDindPtr_lt x, Nat.lt_trans hvlt hbound, hall, fun h => absurd h hi, fun h => ?_⟩, hc'⟩
    rw [hS] at h
    omega

/-- What growing by the block `w` does. -/
structure Grows (bxp : BallocXparams) (d d' : LDisk) (x x' : Irec) (w : Waddr) : Prop
    extends Puts bxp d d' (indNodes d x) (indNodes d' x') (slot d x) (slot d' x') (slotPath d x) (slotPath d' x')
      (irLen x) w where
  past : ZeroPast d' x'
  rep : IrecRep d x → IrecRep d' x'
  len : irLen x' = irLen x + 1
  attrs : irAttrs x' = irAttrs x

theorem Grows.blockList_eq {x' : Irec} {w : Waddr} (hg : Grows bxp d d' x x' w) :
    blockList d' x' = blockList d x ++ [w] := by
  rw [blockList, blockList, hg.len, List.range_succ, List.map_append, List.map_singleton, hg.val, if_pos rfl,
    List.append_left_inj]
  refine List.map_congr_left fun off hoff => ?_
  have := List.mem_range.1 hoff
  rw [hg.val, if_neg (by omega)]

/-- Zeros stay behind the new block. -/
theorem ZeroPast.grow {x' : Irec} {w : Waddr} (hr : ZeroPast d x) (hlen : irLen x < nBlocks)
    (hb : (irBlocks x').length = NDirect) (hlen' : irLen x' = irLen x + 1)
    (hslots : ∀ off, slot d' x' off = if off = irLen x then w else slot d x off) : ZeroPast d' x' := by
  refine ⟨hb, by rw [hlen']; exact hlen, fun off hoff => ?_⟩
  rw [hlen'] at hoff
  rw [hslots, if_neg (by omega), hr.zero off (by omega)]

theorem TreesGrown.grows {w : Waddr} {p q r : Nat} (ht : TreesGrown bxp d d' x (irLen x - NDirect) w p q r)
    (hx : DataOk bxp n) (ho : Owned bxp d (indNodes d x)) (hr : ZeroPast d x) (hlen : irLen x < nBlocks)
    (hd : NDirect ≤ irLen x) : Grows bxp d d' x (updIrec x (irLen x + 1) p q r (irBlocks x)) w := by
  have hlen' := @irLen_updIrec x (irLen x + 1) p q r (irBlocks x) hr.len_lt
  have hall : Forest.PutsTo bxp d d' (forest x) (.record (irBlocks x) p q r) _ _ :=
    Forest.puts_right (G := .leaves (irBlocks x) NDirect) ht.puts hx ho
  rw [← @forest_updIrec x (irLen x + 1) p q r _ ht.lt₀ ht.lt₁ ht.lt₂, Nat.add_sub_of_le hd, Forest.PutsTo, walk_forest,
    walk_forest, path_forest, path_forest] at hall
  have hpast : ZeroPast d' (updIrec x (irLen x + 1) p q r (irBlocks x)) := hr.grow hlen hr.blocks hlen' hall.val
  refine ⟨hall, hpast, fun hrep => ⟨hpast, fun h => ?_, fun h => ?_, fun h => ?_⟩, hlen', rfl⟩
  · rw [hlen'] at h
    omega
  · rw [hlen'] at h
    rw [irDindPtr_updIrec ht.lt₁, ht.same₁ (by omega), hrep.dind (by omega)]
  · rw [hlen'] at h
    have h₂ := ht.same₂
    have hz := hrep.tind
    generalize nIndirect ^ 2 = S at h h₂ hz
    rw [irTindPtr_updIrec ht.lt₂, h₂ (by omega), hz (by omega)]

/-- Growing when only the record changes. -/
theorem grows_of_same_trees {x' : Irec} {w : Waddr} (hr : ZeroPast d x) (hlen : irLen x < nBlocks)
    (hp : irIndPtr x' = irIndPtr x) (hq : irDindPtr x' = irDindPtr x) (ht : irTindPtr x' = irTindPtr x)
    (hb : (irBlocks x').length = NDirect) (hslots : ∀ off, slot d x' off = if off = irLen x then w else slot d x off)
    (hlen' : irLen x' = irLen x + 1) (hattrs : irAttrs x' = irAttrs x) : Grows bxp d d x x' w := by
  have hnodes : indNodes d x' = indNodes d x := by rw [indNodes, indNodes, hp, hq, ht]
  have hpath : slotPath d x' = slotPath d x := by
    funext off
    rw [slotPath, slotPath, hp, hq, ht]
  have hpast : ZeroPast d x' := hr.grow hlen hb hlen' hslots
  refine ⟨⟨by rw [hnodes], fun _ h => h, hslots, fun _ _ _ _ => rfl, fun a ha => .inl (hnodes ▸ ha),
    fun _ _ => by rw [hpath], fun a ha => .inl (hnodes ▸ ha)⟩, hpast,
    fun hrep => ⟨hpast, fun h => ?_, fun h => ?_, fun h => ?_⟩, hlen', hattrs⟩
  · rw [hlen'] at h
    rw [hp, hrep.ind (by omega)]
  · rw [hlen'] at h
    rw [hq, hrep.dind (by omega)]
  · rw [hlen'] at h
    rw [ht, hrep.tind (Nat.le_of_succ_le h)]

theorem grow_spec (hx : DataOk bxp n) (hc : CacheRep bxp d c) (hr : ZeroPast d x) (ho : Owned bxp d (indNodes d x))
    (hlen : irLen x < nBlocks) {w : Waddr} :
    twp n (grow bxp x w c) (fun r d' => (∀ x', r.2 = .ok x' → Grows bxp d d' x x' w ∧ CacheRep bxp d' r.1) ∧
      ∀ e, r.2 = .error e → e = .ENOSPCBLOCK ∧ Fails bxp d r.1 d') d := by
  simp only [grow]
  by_cases hd : irLen x < NDirect
  · rw [if_pos hd]
    refine ⟨?_, fun e h => (nomatch h)⟩
    rintro x' ⟨⟩
    have hp := @irIndPtr_updIrec x (irLen x + 1) (irIndPtr x) (irDindPtr x) (irTindPtr x) ((irBlocks x).set (irLen x) w)
      (irIndPtr_lt x)
    have hq := @irDindPtr_updIrec x (irLen x + 1) (irIndPtr x) (irDindPtr x) (irTindPtr x) ((irBlocks x).set (irLen x) w)
      (irDindPtr_lt x)
    have ht := @irTindPtr_updIrec x (irLen x + 1) (irIndPtr x) (irDindPtr x) (irTindPtr x) ((irBlocks x).set (irLen x) w)
      (irTindPtr_lt x)
    refine ⟨grows_of_same_trees hr hlen hp hq ht ?_ (fun off => ?_) (irLen_updIrec hr.len_lt) rfl, hc⟩
    · rw [irBlocks_updIrec, List.length_set, hr.blocks]
    · rw [slot_eq, slot_eq, hp, hq, ht, irBlocks_updIrec, getD_set_eq _ _ (hr.blocks.symm ▸ hd)]
      by_cases h : off < NDirect
      · rw [if_pos h, if_pos h]
      · rw [if_neg h, if_neg h, if_neg (by omega)]
  · rw [if_neg hd]
    by_cases hw : w = 0
    · rw [if_pos hw]
      refine ⟨?_, fun e h => (nomatch h)⟩
      rintro x' ⟨⟩
      refine ⟨grows_of_same_trees hr hlen rfl rfl rfl hr.blocks (fun off => ?_) (irLen_updLen hr.len_lt) rfl, hc⟩
      by_cases he : off = irLen x
      · rw [if_pos he, hw]
        exact hr.zero off (Nat.le_of_eq he.symm)
      · rw [if_neg he]
        rfl
    · rw [if_neg hw]
      refine twp_seq (indgrow_spec hx hc ho (w := w) (o := irLen x - NDirect) ?_) fun ⟨c', v, p, q, r⟩ d' ⟨hgrow, hfail⟩ => ?_
      · rw [nBlocks] at hlen
        generalize nIndirect ^ 2 = S, nIndirect ^ 3 = T at hlen ⊢
        omega
      · by_cases hv : v = 0
        · simp only [if_pos hv]
          refine ⟨fun x' h => (nomatch h), ?_⟩
          rintro e ⟨⟩
          exact ⟨rfl, hfail hv⟩
        · simp only [if_neg hv]
          refine ⟨?_, fun e h => (nomatch h)⟩
          rintro x' ⟨⟩
          obtain ⟨ht, hc'⟩ := hgrow hv
          exact ⟨ht.grows hx ho hr hlen (Nat.le_of_not_lt hd), hc'⟩

end Fscq.BlockPtr
