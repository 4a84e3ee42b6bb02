import Fscq.Fs.BlockTree
import Mathlib.Data.List.Flatten

/-!
# Clearing entries of a tree

`Clears` says what clearing a range of entries does to the disk: the cleared entries are zero and the others stay, the
nodes that are not needed any more are free, no block is lost or handed out twice, and nothing else is written. It
composes (`Clears.trans`), lifts from a subtree to a list of trees (`NodeClears.setChild`) and, by writing back the
root, from the list of subtrees to the tree (`updateBlock_spec`). The programs are put together from these
(`indclear_spec`).
-/

namespace Fscq.BlockPtr

open TxnLogic BmapAllocCache
open BmapAlloc (freeList size DataOk)

/-! ## Lists of pointers -/

section Lists

variable {A : Type}

theorem updRange_eq (l : List A) (v : A) : ∀ (len start : Nat), start + len ≤ l.length →
    updRange l start len v = l.take start ++ List.replicate len v ++ l.drop (start + len)
  | 0, start, _ => by simp [updRange]
  | len + 1, start, h => by
    rw [updRange, updRange_eq l v len (start + 1) (by omega), List.replicate_succ, List.take_add_one,
      List.getElem?_eq_getElem (by omega : start < l.length), Option.toList_some, List.append_assoc, List.append_assoc,
      List.set_append_right _ _ (by rw [List.length_take]; omega), List.length_take, Nat.min_eq_left (by omega), Nat.sub_self,
      show start + 1 + len = start + (len + 1) by omega]
    simp

theorem length_updRange (l : List A) (v : A) : ∀ (len start : Nat), (updRange l start len v).length = l.length
  | 0, _ => rfl
  | len + 1, start => by rw [updRange, List.length_set, length_updRange l v len]

theorem getD_updRange (l : List A) (v x : A) {start len : Nat} (h : start + len ≤ l.length) (i : Nat) :
    (updRange l start len v).getD i x = if start ≤ i ∧ i < start + len then v else l.getD i x := by
  rw [updRange_eq l v len start h, List.append_assoc]
  simp only [List.getD_eq_getElem?_getD, List.getElem?_append, List.length_take, List.length_replicate,
    Nat.min_eq_left (by omega : start ≤ l.length), List.getElem?_take, List.getElem?_replicate, List.getElem?_drop]
  by_cases h₁ : i < start
  · rw [if_pos h₁, if_pos h₁, if_neg (by omega)]
  · rw [if_neg h₁]
    by_cases h₂ : i < start + len
    · rw [if_pos (by omega), if_pos (by omega), if_pos (by omega)]; rfl
    · rw [if_neg (by omega), if_neg (by omega), show start + len + (i - start - len) = i by omega]

theorem split_at {i : Nat} (E : List Waddr) (h : i < E.length) :
    ∃ B C, E = B ++ E.getD i 0 :: C ∧ B.length = i ∧ ∀ w, E.set i w = B ++ w :: C := by
  refine ⟨E.take i, E.drop (i + 1), ?_, by rw [List.length_take]; omega, fun w => ?_⟩
  · rw [List.getD_eq_getElem?_getD, List.getElem?_eq_getElem h]
    exact (List.take_append_drop i E).symm.trans (by rw [List.drop_eq_getElem_cons h]; rfl)
  · rw [List.set_eq_take_append_cons_drop, if_pos h]

end Lists

/-! ## Ownership -/

variable {n : Nat} {d d₁ d' : LDisk} {bxp : BallocXparams} {lvl : Nat} {E E' : List Waddr} {c : BmapCacheType}

/-- The blocks `O` are data blocks, each once, and none of them is free. -/
structure Owned (bxp : BallocXparams) (d : LDisk) (O : List Nat) : Prop where
  nodup : (O ++ freeList bxp d).Nodup
  lt : ∀ a ∈ O, a < size bxp

namespace Owned

variable {O P : List Nat}

theorem nil (bxp : BallocXparams) (d : LDisk) : Owned bxp d [] :=
  ⟨by rw [List.nil_append]; exact BmapAlloc.nodup_freeList _ _, fun _ ha => absurd ha List.not_mem_nil⟩

theorem sublist (ho : Owned bxp d O) (h : P.Sublist O) : Owned bxp d P :=
  ⟨ho.nodup.sublist (h.append_right _), fun a ha => ho.lt a (h.subset ha)⟩

theorem not_free (ho : Owned bxp d O) {a : Nat} (ha : a ∈ O) : a ∉ freeList bxp d := fun hf =>
  (List.nodup_append.1 ho.nodup).2.2 a ha a hf rfl

theorem perm (ho : Owned bxp d O) (h : P.Perm O) : Owned bxp d P :=
  ⟨((h.append_right _).nodup_iff).2 ho.nodup, fun a ha => ho.lt a (h.subset ha)⟩

end Owned

/-! ## Freeing whole trees -/

/-- The blocks of `O` are freed, and only the bitmap is written. -/
structure Frees (bxp : BallocXparams) (d d' : LDisk) (O : List Nat) : Prop where
  own : (freeList bxp d').Perm (O ++ freeList bxp d)
  frame : ∀ a, ¬ bxp.InBitmap a → d' a = d a

theorem Frees.data_eq {O : List Nat} (hf : Frees bxp d d' O) (hx : DataOk bxp n) {a : Nat} (ha : a < size bxp) :
    d' a = d a :=
  hf.frame a (hx.not_inBitmap ha)

theorem freeBlock_spec (hx : DataOk bxp n) (hc : CacheRep bxp d c) {bn : Nat} (h0 : bn ≠ 0) (ho : Owned bxp d [bn]) :
    twp n (BmapAllocCache.free bxp bn c) (fun c' d' => Frees bxp d d' [bn] ∧ CacheRep bxp d' c') d := by
  have hmem : bn ∈ [bn] := List.mem_singleton_self bn
  exact twp_mono (fun c' d' ⟨hp, hc', hfr⟩ => ⟨⟨hp, hfr⟩, hc'⟩) _
    (free_spec hx.toOk hc (ho.not_free hmem) (ho.lt bn hmem) h0)

theorem Frees.owned {O P : List Nat} (hf : Frees bxp d d' O) (ho : Owned bxp d (O ++ P)) : Owned bxp d' P := by
  refine ⟨?_, fun a ha => ho.lt a (List.mem_append_right _ ha)⟩
  have hperm : (P ++ freeList bxp d').Perm (O ++ P ++ freeList bxp d) := by
    have hown := List.perm_iff_count.1 hf.own
    rw [List.perm_iff_count]
    intro a
    simp only [List.count_append] at hown ⊢
    have := hown a
    omega
  exact hperm.nodup_iff.2 ho.nodup

theorem Frees.trans {O P : List Nat} (hf : Frees bxp d d₁ O) (hf' : Frees bxp d₁ d' P) : Frees bxp d d' (O ++ P) := by
  refine ⟨?_, fun a ha => (hf'.frame a ha).trans (hf.frame a ha)⟩
  have h₁ := List.perm_iff_count.1 hf.own
  have h₂ := List.perm_iff_count.1 hf'.own
  rw [List.perm_iff_count]
  intro a
  simp only [List.count_append] at h₁ h₂ ⊢
  have := h₁ a
  have := h₂ a
  omega

theorem Frees.kids_eq {O : List Nat} (hf : Frees bxp d d' O) (hx : DataOk bxp n)
    (h : ∀ a ∈ kids d lvl E, a < size bxp) : kids d' lvl E = kids d lvl E :=
  kids_congr fun a ha => hf.data_eq hx (h a ha)

/-- Freeing a list of trees, given how one of them is freed. -/
theorem clearLoop_spec (hx : DataOk bxp n) {p : Waddr → BmapCacheType → TBody BmapCacheType}
    (hp : ∀ w c d, CacheRep bxp d c → Owned bxp d (nodes d lvl w.toNat) →
      twp n (p w c) (fun c' d' => Frees bxp d d' (nodes d lvl w.toNat) ∧ CacheRep bxp d' c') d) :
    ∀ (E : List Waddr) {c : BmapCacheType} {d : LDisk}, CacheRep bxp d c → Owned bxp d (kids d lvl E) →
      twp n (.forEach p E c) (fun c' d' => Frees bxp d d' (kids d lvl E) ∧ CacheRep bxp d' c') d
  | [], _, _, hc, _ => ⟨⟨.refl _, fun _ _ => rfl⟩, hc⟩
  | w :: E, c, d, hc, ho => by
    rw [kids_cons] at ho
    refine twp_seq (hp w c d hc (ho.sublist (List.sublist_append_left _ _))) fun c₁ d₁ ⟨hf₁, hc₁⟩ => ?_
    have hkids : kids d₁ lvl E = kids d lvl E :=
      hf₁.kids_eq hx fun a ha => ho.lt a (List.mem_append_right _ ha)
    have ho₁ : Owned bxp d₁ (kids d₁ lvl E) := hkids ▸ hf₁.owned ho
    refine twp_mono (fun c₂ d₂ ⟨hf₂, hc₂⟩ => ⟨?_, hc₂⟩) _ (clearLoop_spec hx hp E hc₁ ho₁)
    rw [hkids] at hf₂
    exact hf₁.trans hf₂

theorem indclearAll_spec (hx : DataOk bxp n) : ∀ (lvl root : Nat) {c : BmapCacheType} {d : LDisk}, CacheRep bxp d c →
    Owned bxp d (nodes d lvl root) →
    twp n (indclearAll bxp lvl root c) (fun c' d' => Frees bxp d d' (nodes d lvl root) ∧ CacheRep bxp d' c') d := by
  intro lvl
  induction lvl with
  | zero =>
    intro root c d hc ho
    by_cases h0 : root = 0
    · rw [indclearAll, if_pos h0, h0, nodes_zero]
      exact ⟨⟨.refl _, fun _ _ => rfl⟩, hc⟩
    · rw [nodes, if_neg h0] at ho ⊢
      rw [indclearAll, if_neg h0]
      exact freeBlock_spec hx hc h0 ho
  | succ lvl ih =>
    intro root c d hc ho
    by_cases h0 : root = 0
    · rw [indclearAll, if_pos h0, h0, nodes_zero]
      exact ⟨⟨.refl _, fun _ _ => rfl⟩, hc⟩
    · rw [nodes_succ d lvl h0] at ho ⊢
      rw [indclearAll, if_neg h0]
      have hroot := ho.lt root List.mem_cons_self
      refine twp_bind _ (readEntries_spec (hx.lt_disk hroot) ?_)
      -- first the subtrees, then the root
      have hperm : (kids d lvl (entries d root) ++ [root]).Perm (root :: kids d lvl (entries d root)) :=
        List.perm_append_singleton _ _
      have ho' := ho.perm hperm
      refine twp_seq (clearLoop_spec hx (fun w c d hc ho => ih w.toNat hc ho) (entries d root) hc
        (ho'.sublist (List.sublist_append_left _ _))) ?_
      rintro c₁ d₁ ⟨hf₁, hc₁⟩
      refine twp_mono ?_ _ (freeBlock_spec hx hc₁ h0 (hf₁.owned ho'))
      rintro c₂ d₂ ⟨hf₂, hc₂⟩
      refine ⟨?_, hc₂⟩
      have hf := hf₁.trans hf₂
      exact ⟨hf.own.trans (hperm.append_right _), hf.frame⟩

/-! ## Clearing a range -/

/-- What is below a node of height `lvl`, by its list of pointers. -/
def below (d : LDisk) : Nat → List Waddr → List Nat
  | 0, _ => []
  | lvl + 1, E => kids d lvl E

/-- The entry at an offset of a node of height `lvl`, by its list of pointers. -/
def look (d : LDisk) : Nat → List Waddr → Nat → Waddr
  | 0, E, off => E.getD off 0
  | lvl + 1, E, off => walkL d lvl E off

/-- The nodes on the way to an offset below a node of height `lvl`, by its list of pointers. -/
def trail (d : LDisk) : Nat → List Waddr → Nat → List Nat
  | 0, _, _ => []
  | lvl + 1, E, off => pathL d lvl E off

theorem path_eq_trail (d : LDisk) (lvl off : Nat) {bn : Nat} (h : bn ≠ 0) :
    path d lvl bn off = bn :: trail d lvl (entries d bn) off := by
  cases lvl with
  | zero => simp [path, trail, h]
  | succ lvl => exact path_succ d lvl off h

theorem trail_congr {d d' : LDisk} {lvl : Nat} {E : List Waddr} (h : ∀ a ∈ below d lvl E, d' a = d a) (off : Nat) :
    trail d' lvl E off = trail d lvl E off := by
  cases lvl with
  | zero => rfl
  | succ lvl => exact pathL_congr h off

theorem nodes_eq_below (d : LDisk) (lvl : Nat) {bn : Nat} (h : bn ≠ 0) :
    nodes d lvl bn = bn :: below d lvl (entries d bn) := by
  cases lvl with
  | zero => simp [nodes, below, h]
  | succ lvl => exact nodes_succ d lvl h

theorem walk_eq_look (d : LDisk) (lvl off : Nat) {bn : Nat} (h : bn ≠ 0) :
    walk d lvl bn off = look d lvl (entries d bn) off := by
  cases lvl with
  | zero => simp [walk, look, h]
  | succ lvl => exact walk_succ d lvl off h

theorem below_congr {d d' : LDisk} {lvl : Nat} {E : List Waddr} (h : ∀ a ∈ below d lvl E, d' a = d a) :
    below d' lvl E = below d lvl E := by
  cases lvl with
  | zero => rfl
  | succ lvl => exact kids_congr h

theorem look_congr {d d' : LDisk} {lvl : Nat} {E : List Waddr} (h : ∀ a ∈ below d lvl E, d' a = d a) (off : Nat) :
    look d' lvl E off = look d lvl E off := by
  cases lvl with
  | zero => rfl
  | succ lvl => exact walkL_congr h off

theorem below_zeros (d : LDisk) (lvl m : Nat) : below d lvl (List.replicate m 0) = [] := by
  cases lvl with
  | zero => rfl
  | succ lvl => exact kids_replicate_zero d lvl m

theorem getD_zeros (m i : Nat) : (List.replicate m (0 : Waddr)).getD i 0 = 0 := by
  rw [List.getD_eq_getElem?_getD, List.getElem?_replicate]
  split <;> rfl

theorem exists_ne_zero (hlen : E.length = 512) (hz : E ≠ List.replicate nIndirect 0) :
    ∃ i < 512, E.getD i 0 ≠ 0 := by
  by_contra hcon
  refine hz (List.eq_replicate_iff.2 ⟨hlen, fun w hw => ?_⟩)
  obtain ⟨i, hi, rfl⟩ := List.getElem_of_mem hw
  by_contra hne
  refine hcon ⟨i, hlen ▸ hi, ?_⟩
  rw [List.getD_eq_getElem?_getD, List.getElem?_eq_getElem hi]
  exact hne

theorem look_zeros (d : LDisk) (lvl m off : Nat) : look d lvl (List.replicate m 0) off = 0 := by
  cases lvl with
  | zero => exact getD_zeros m off
  | succ lvl => rw [look, walkL, getD_zeros]; exact walk_zero d lvl _

/-- The entries `f` of the nodes `O` become the entries `f'` of the nodes `O'`: those in the range are zero, the others
stay, and the nodes that went away are free. The ways `g` to the entries become the ways `g'`. -/
structure Zeroes (bxp : BallocXparams) (d d' : LDisk) (O O' : List Nat) (f f' : Nat → Waddr) (g g' : Nat → List Nat)
    (start len : Nat) : Prop where
  own : (O' ++ freeList bxp d').Perm (O ++ freeList bxp d)
  sub : ∀ a ∈ O', a ∈ O
  val : ∀ off, f' off = if start ≤ off ∧ off < start + len then 0 else f off
  frame : ∀ a, a ∉ O → ¬ bxp.InBitmap a → d' a = d a
  path : ∀ off, f' off ≠ 0 → g' off = g off
  /-- A node that becomes a block of zeros does not stay. -/
  tidy : ∀ a ∈ O', entries d' a = List.replicate nIndirect 0 → entries d a = List.replicate nIndirect 0

/-- `Zeroes`, where the nodes that are not needed for the entries outside the range, of `M`, go away. -/
structure Clears (bxp : BallocXparams) (d d' : LDisk) (O O' : List Nat) (f f' : Nat → Waddr) (g g' : Nat → List Nat)
    (M start len : Nat) : Prop extends Zeroes bxp d d' O O' f f' g g' start len where
  /-- Nodes do not move. -/
  stay : ∀ off, ∀ a ∈ g off, a ∈ O' → a ∈ g' off
  spare : ∀ a ∈ O', ∃ off < M, ¬(start ≤ off ∧ off < start + len) ∧ a ∈ g' off

/-- `Clears` for the tree at `bn`, whose root is `v` afterwards. -/
def NodeClears (bxp : BallocXparams) (d d' : LDisk) (lvl bn v start len : Nat) : Prop :=
  Clears bxp d d' (nodes d lvl bn) (nodes d' lvl v) (walk d lvl bn) (walk d' lvl v) (path d lvl bn) (path d' lvl v)
    (nIndirect ^ (lvl + 1)) start len

/-- `Clears` below a node of height `lvl` whose pointers `E` become `E'`. -/
def ListClears (bxp : BallocXparams) (d d' : LDisk) (lvl : Nat) (E E' : List Waddr) (start len : Nat) : Prop :=
  Clears bxp d d' (below d lvl E) (below d' lvl E') (look d lvl E) (look d' lvl E') (trail d lvl E) (trail d' lvl E')
    (nIndirect ^ (lvl + 1)) start len

section Ranges

variable {O O₁ O' P : List Nat} {f f₁ f' : Nat → Waddr} {g g₁ g' : Nat → List Nat} {M start start' len len' : Nat}

namespace Zeroes

theorem owned (hz : Zeroes bxp d d' O O' f f' g g' start len) (ho : Owned bxp d O) : Owned bxp d' O' :=
  ⟨hz.own.nodup_iff.2 ho.nodup, fun a ha => ho.lt a (hz.sub a ha)⟩

/-- An entry that is not zero was there before. -/
theorem val_of_ne (hz : Zeroes bxp d d' O O' f f' g g' start len) {off : Nat} (h : f' off ≠ 0) :
    f off = f' off ∧ ¬(start ≤ off ∧ off < start + len) := by
  have hval := hz.val off
  split at hval
  · exact absurd hval h
  · exact ⟨hval.symm, by assumption⟩

/-- Two ranges that meet. -/
theorem trans (h₁ : Zeroes bxp d d₁ O O₁ f f₁ g g₁ start len) (h₂ : Zeroes bxp d₁ d' O₁ O' f₁ f' g₁ g' start' len')
    (hmeet : start' = start + len) : Zeroes bxp d d' O O' f f' g g' start (len + len') := by
  refine ⟨h₂.own.trans h₁.own, fun a ha => h₁.sub a (h₂.sub a ha), fun off => ?_, fun a ha hb => ?_, fun off hoff => ?_,
    fun a ha hz => h₁.tidy a (h₂.sub a ha) (h₂.tidy a ha hz)⟩
  · rw [h₂.val off, h₁.val off]
    by_cases hin : start ≤ off ∧ off < start + (len + len')
    · rw [if_pos hin]
      by_cases hlt : off < start + len
      · rw [if_neg (by omega), if_pos (by omega)]
      · rw [if_pos (by omega)]
    · rw [if_neg hin, if_neg (by omega), if_neg (by omega)]
  · exact (h₂.frame a (fun h => ha (h₁.sub a h)) hb).trans (h₁.frame a ha hb)
  · rw [h₂.path off hoff, h₁.path off]
    rw [(h₂.val_of_ne hoff).1]
    exact hoff

/-- Zeros stay zeros. -/
theorem of_zero (h : ∀ off, start ≤ off → off < start + len → f off = 0) : Zeroes bxp d d O O f f g g start len := by
  refine ⟨.refl _, fun _ h => h, fun off => ?_, fun _ _ _ => rfl, fun _ _ => rfl, fun _ _ h => h⟩
  by_cases hin : start ≤ off ∧ off < start + len
  · rw [if_pos hin, h off hin.1 hin.2]
  · rw [if_neg hin]

/-- Blocks beside the tree are not touched. -/
theorem beside (hz : Zeroes bxp d d' O O' f f' g g' start len) (hx : DataOk bxp n) (ho : Owned bxp d (O ++ P)) :
    ∀ a ∈ P, d' a = d a := fun a ha => by
  refine hz.frame a (fun h => ?_) (hx.not_inBitmap (ho.lt a (List.mem_append_right _ ha)))
  exact (List.nodup_append.1 (List.nodup_append.1 ho.nodup).1).2.2 a h a ha rfl

end Zeroes

namespace Clears

/-- Two ranges that meet, with no node on both sides of the point where they meet. -/
theorem trans (h₁ : Clears bxp d d₁ O O₁ f f₁ g g₁ M start len) (h₂ : Clears bxp d₁ d' O₁ O' f₁ f' g₁ g' M start' len')
    (hmeet : start' = start + len)
    (hside : ∀ a ∈ O', ∀ off off', off < start' → start' ≤ off' → a ∈ g' off → a ∉ g' off') :
    Clears bxp d d' O O' f f' g g' M start (len + len') := by
  refine ⟨h₁.toZeroes.trans h₂.toZeroes hmeet,
    fun off a ha hin => h₂.stay off a (h₁.stay off a ha (h₂.sub a hin)) hin, fun a ha => ?_⟩
  obtain ⟨off₁, hlt₁, hout₁, hin₁⟩ := h₁.spare a (h₂.sub a ha)
  obtain ⟨off₂, hlt₂, hout₂, hin₂⟩ := h₂.spare a ha
  have hin₁' := h₂.stay off₁ a hin₁ ha
  by_cases h : start' ≤ off₁ ∧ off₁ < start' + len'
  · refine ⟨off₂, hlt₂, fun hr => ?_, hin₂⟩
    exact hside a ha off₂ off₁ (by omega) h.1 hin₂ hin₁'
  · exact ⟨off₁, hlt₁, by omega, hin₁'⟩

theorem of_zero (h : ∀ off, start ≤ off → off < start + len → f off = 0)
    (hspare : ∀ a ∈ O, ∃ off < M, ¬(start ≤ off ∧ off < start + len) ∧ a ∈ g off) :
    Clears bxp d d O O f f g g M start len :=
  ⟨Zeroes.of_zero h, fun _ _ h _ => h, hspare⟩

theorem refl (bxp : BallocXparams) (d : LDisk) {O : List Nat} (f : Nat → Waddr) {g : Nat → List Nat} (start : Nat)
    (h : ∀ a ∈ O, ∃ off < M, a ∈ g off) : Clears bxp d d O O f f g g M start 0 :=
  of_zero (fun off _ _ => by omega) fun a ha =>
    (h a ha).imp fun off ⟨hlt, hin⟩ => ⟨hlt, by omega, hin⟩

end Clears

end Ranges

/-- A tree that is cleared as a whole is empty. -/
theorem NodeClears.root_eq {bn v start len : Nat} (hcl : NodeClears bxp d d' lvl bn v start len) (hs : start = 0)
    (hl : len = nIndirect ^ (lvl + 1)) : v = 0 := by
  by_contra h0
  obtain ⟨off, hlt, hout, _⟩ := hcl.spare v (self_mem_nodes d' lvl h0)
  omega

theorem pow_pos' (lvl : Nat) : 0 < nIndirect ^ lvl := Nat.pow_pos (by decide)

theorem getD_set_eq {i j : Nat} (E : List Waddr) (w : Waddr) (hi : i < E.length) :
    (E.set i w).getD j 0 = if j = i then w else E.getD j 0 := by
  rw [List.getD_eq_getElem?_getD, List.getElem?_set, List.getD_eq_getElem?_getD]
  by_cases h : i = j
  · rw [if_pos h, if_pos hi, if_pos h.symm]; rfl
  · rw [if_neg h, if_neg fun he => h he.symm]

theorem child_lt {i off : Nat} (hi : i < 512) (hoff : off < nIndirect ^ (lvl + 1)) :
    i * nIndirect ^ (lvl + 1) + off < nIndirect ^ (lvl + 2) := by
  have hpow : nIndirect ^ (lvl + 2) = 512 * nIndirect ^ (lvl + 1) := Nat.pow_succ'
  have hlt := Nat.mul_le_mul_right (nIndirect ^ (lvl + 1)) hi
  rw [Nat.succ_mul] at hlt
  omega

/-- An offset is in a part of child `i` iff its child is `i` and the rest is in the part. -/
theorem in_child_iff {N i s l off : Nat} (hN : 0 < N) (hl : s + l ≤ N) :
    i * N + s ≤ off ∧ off < i * N + s + l ↔ off / N = i ∧ s ≤ off % N ∧ off % N < s + l := by
  have hdiv := Nat.div_add_mod off N
  have hmod := Nat.mod_lt off hN
  constructor
  · rintro ⟨h₁, h₂⟩
    have hi : off / N = i := by
      refine Nat.div_eq_of_lt_le (by omega) ?_
      rw [Nat.succ_mul]; omega
    rw [hi, Nat.mul_comm] at hdiv
    exact ⟨hi, by omega, by omega⟩
  · rintro ⟨rfl, h₁, h₂⟩
    rw [Nat.mul_comm]
    exact ⟨by omega, by omega⟩

theorem nodes_getD_sublist (d : LDisk) (lvl : Nat) {i : Nat} (hi : i < E.length) :
    (nodes d lvl (E.getD i 0).toNat).Sublist (kids d lvl E) := by
  obtain ⟨B, C, hE, _⟩ := split_at E hi
  conv_rhs => rw [hE]
  rw [kids_append, kids_cons]
  exact (List.sublist_append_left _ _).trans (List.sublist_append_right _ _)

/-- The nodes of two children are different. -/
theorem nodes_disjoint_of_ne (hnd : (kids d lvl E).Nodup) {i j : Nat} (hi : i < E.length) (hij : j ≠ i) {a : Nat}
    (ha : a ∈ nodes d lvl (E.getD j 0).toNat) : a ∉ nodes d lvl (E.getD i 0).toNat := fun hn => by
  obtain ⟨B, C, hE, hB, _⟩ := split_at E hi
  have hkids : kids d lvl E = kids d lvl B ++ (nodes d lvl (E.getD i 0).toNat ++ kids d lvl C) := by
    conv_lhs => rw [hE]
    rw [kids_append, kids_cons]
  rw [hkids, List.nodup_append, List.nodup_append] at hnd
  -- the nodes of another child are in `B` or in `C`
  have hmem : a ∈ kids d lvl B ∨ a ∈ kids d lvl C := by
    rw [hE, List.getD_eq_getElem?_getD, List.getElem?_append] at ha
    by_cases hlt : j < B.length
    · rw [if_pos hlt, ← List.getD_eq_getElem?_getD] at ha
      exact .inl (nodes_getD_sub_kids ha)
    · obtain ⟨m, hm⟩ : ∃ m, j - B.length = m + 1 := ⟨j - B.length - 1, by omega⟩
      rw [if_neg hlt, hm, List.getElem?_cons_succ, ← List.getD_eq_getElem?_getD] at ha
      exact .inr (nodes_getD_sub_kids ha)
  rcases hmem with h | h
  · exact hnd.2.2 a h a (List.mem_append_left _ hn) rfl
  · exact hnd.2.1.2.2 a hn a h rfl

/-- What changes below a node when its child `i` becomes the tree at `v`: the other children are as before. -/
structure SetChild (d d' : LDisk) (lvl : Nat) (E : List Waddr) (i v : Nat) (K L : List Nat) : Prop where
  kids : kids d lvl E = K ++ (nodes d lvl (E.getD i 0).toNat ++ L)
  kids' : BlockPtr.kids d' lvl (E.set i (BitVec.ofNat 64 v)) = K ++ (nodes d' lvl v ++ L)
  same : ∀ a ∈ K ++ L, d' a = d a
  other : ∀ a ∈ K ++ L, ∃ j < E.length, j ≠ i ∧ a ∈ nodes d lvl (E.getD j 0).toNat
  walk : ∀ off, walkL d' lvl (E.set i (BitVec.ofNat 64 v)) off =
    if off / nIndirect ^ (lvl + 1) = i then BlockPtr.walk d' lvl v (off % nIndirect ^ (lvl + 1)) else walkL d lvl E off
  path : ∀ off, pathL d' lvl (E.set i (BitVec.ofNat 64 v)) off =
    if off / nIndirect ^ (lvl + 1) = i then BlockPtr.path d' lvl v (off % nIndirect ^ (lvl + 1)) else pathL d lvl E off

/-- When only the child `i` changes, and into free blocks at most, the other children are as before. -/
theorem tree_setChild {i v : Nat} (hx : DataOk bxp n) (ho : Owned bxp d (kids d lvl E)) (hi : i < E.length)
    (hv : v < 2 ^ 64) (hframe : ∀ a, a ∉ nodes d lvl (E.getD i 0).toNat → a ∉ freeList bxp d → ¬ bxp.InBitmap a → d' a = d a) :
    ∃ K L, SetChild d d' lvl E i v K L := by
  have hv' : (BitVec.ofNat 64 v).toNat = v := by rw [BitVec.toNat_ofNat, Nat.mod_eq_of_lt hv]
  have hnd : (kids d lvl E).Nodup := (List.nodup_append.1 ho.nodup).1
  have hother : ∀ a ∈ kids d lvl E, a ∉ nodes d lvl (E.getD i 0).toNat → d' a = d a := fun a ha hn =>
    hframe a hn (ho.not_free ha) (hx.not_inBitmap (ho.lt a ha))
  have hchild : ∀ j, j ≠ i → ∀ a ∈ nodes d lvl (E.getD j 0).toNat, d' a = d a := fun j hj a ha =>
    hother a (nodes_getD_sub_kids ha) (nodes_disjoint_of_ne hnd hi hj ha)
  obtain ⟨B, C, hE, hB, hset⟩ := split_at E hi
  have hkids : kids d lvl E = kids d lvl B ++ (nodes d lvl (E.getD i 0).toNat ++ kids d lvl C) := by
    conv_lhs => rw [hE]
    rw [kids_append, kids_cons]
  rw [hkids, List.nodup_append, List.nodup_append] at hnd
  have hsameB : ∀ a ∈ kids d lvl B, d' a = d a := fun a ha =>
    hother a (by rw [hkids]; simp [ha]) fun h => hnd.2.2 a ha a (List.mem_append_left _ h) rfl
  have hsameC : ∀ a ∈ kids d lvl C, d' a = d a := fun a ha =>
    hother a (by rw [hkids]; simp [ha]) fun h => hnd.2.1.2.2 a h a ha rfl
  refine ⟨kids d lvl B, kids d lvl C, hkids, ?_, fun a ha => ?_, fun a ha => ?_, fun off => ?_, fun off => ?_⟩
  · rw [hset, kids_append, kids_cons, hv', kids_congr hsameB, kids_congr hsameC]
  · rcases List.mem_append.1 ha with h | h
    · exact hsameB a h
    · exact hsameC a h
  · have hin : a ∈ kids d lvl E := by
      rw [hkids]
      rcases List.mem_append.1 ha with h | h <;> simp [h]
    obtain ⟨j, hj, hmem⟩ := mem_kids.1 hin
    refine ⟨j, hj, ?_, hmem⟩
    rintro rfl
    rcases List.mem_append.1 ha with h | h
    · exact hnd.2.2 a h a (List.mem_append_left _ hmem) rfl
    · exact hnd.2.1.2.2 a hmem a h rfl
  · rw [walkL, getD_set_eq E _ hi]
    by_cases hj : off / nIndirect ^ (lvl + 1) = i
    · rw [if_pos hj, if_pos hj, hv']
    · rw [if_neg hj, if_neg hj]
      exact walk_congr (hchild _ hj) _
  · rw [pathL, getD_set_eq E _ hi]
    by_cases hj : off / nIndirect ^ (lvl + 1) = i
    · rw [if_pos hj, if_pos hj, hv']
    · rw [if_neg hj, if_neg hj]
      exact path_congr (hchild _ hj) _

/-- A node of another child is needed outside the child `i`. -/
theorem exists_beside {i j s l a : Nat} (hl : s + l ≤ nIndirect ^ (lvl + 1)) (hj : j < 512)
    (hij : j ≠ i) (ha : a ∈ nodes d lvl (E.getD j 0).toNat) :
    ∃ off < nIndirect ^ (lvl + 2), ¬(i * nIndirect ^ (lvl + 1) + s ≤ off ∧ off < i * nIndirect ^ (lvl + 1) + s + l) ∧
      off / nIndirect ^ (lvl + 1) = j ∧ a ∈ pathL d lvl E off := by
  obtain ⟨off, hoff, ha⟩ := exists_path ha
  have hdiv := child_div j hoff
  refine ⟨j * nIndirect ^ (lvl + 1) + off, child_lt hj hoff, fun h => hij ?_, hdiv, ?_⟩
  · rw [← ((in_child_iff (pow_pos' _) hl).1 h).1, hdiv]
  · rw [pathL_child d E hoff]
    exact ha

/-- Clearing a part of one subtree, seen from the node above. -/
theorem NodeClears.setChild {i v s l : Nat} (hcl : NodeClears bxp d d' lvl (E.getD i 0).toNat v s l) (hx : DataOk bxp n)
    (ho : Owned bxp d (kids d lvl E)) (hlen : E.length = 512) (hi : i < 512) (hv : v < 2 ^ 64) (hl : s + l ≤ nIndirect ^ (lvl + 1)) :
    ListClears bxp d d' (lvl + 1) E (E.set i (BitVec.ofNat 64 v)) (i * nIndirect ^ (lvl + 1) + s) l := by
  have hnd : (kids d lvl E).Nodup := (List.nodup_append.1 ho.nodup).1
  obtain ⟨K, L, hset⟩ := tree_setChild hx ho (hlen.symm ▸ hi) hv fun a ha _ hb => hcl.frame a ha hb
  refine ⟨⟨?_, fun a ha => ?_, fun off => ?_, fun a ha hb => ?_, fun off hoff => ?_, fun a ha hz => ?_⟩,
    fun off a ha hin => ?_, fun a ha => ?_⟩
  · have hown := List.perm_iff_count.1 hcl.own
    rw [below, below, hset.kids, hset.kids', List.perm_iff_count]
    intro a
    simp only [List.count_append] at hown ⊢
    have := hown a
    omega
  · rw [below, hset.kids'] at ha
    rw [below, hset.kids]
    simp only [List.mem_append] at ha ⊢
    rcases ha with h | h | h
    · exact .inl h
    · exact .inr (.inl (hcl.sub a h))
    · exact .inr (.inr h)
  · rw [look, look, hset.walk]
    by_cases hj : off / nIndirect ^ (lvl + 1) = i
    · rw [if_pos hj, hcl.val, walkL, hj]
      congr 1
      rw [eq_iff_iff, in_child_iff (pow_pos' _) hl]
      exact ⟨fun h => ⟨hj, h⟩, fun h => h.2⟩
    · rw [if_neg hj, if_neg fun h => hj ((in_child_iff (pow_pos' _) hl).1 h).1]
  · refine hcl.frame a (fun h => ha ?_) hb
    rw [below]
    exact nodes_getD_sub_kids h
  · rw [look, hset.walk] at hoff
    rw [trail, trail, hset.path]
    by_cases hj : off / nIndirect ^ (lvl + 1) = i
    · rw [if_pos hj] at hoff ⊢
      rw [hcl.path _ hoff, pathL, hj]
    · rw [if_neg hj]
  · rw [below, hset.kids'] at ha
    have hkeep : a ∈ K ++ L → entries d a = List.replicate nIndirect 0 := fun h => by
      rw [← entries_congr (hset.same a h)]
      exact hz
    rcases List.mem_append.1 ha with h | h
    · exact hkeep (List.mem_append_left _ h)
    rcases List.mem_append.1 h with h | h
    · exact hcl.tidy a h hz
    · exact hkeep (List.mem_append_right _ h)
  · rw [trail, pathL] at ha
    rw [below, hset.kids'] at hin
    rw [trail, hset.path]
    by_cases hj : off / nIndirect ^ (lvl + 1) = i
    · rw [hj] at ha
      have hnot : a ∉ K ++ L := fun h => by
        obtain ⟨j, hjlt, hne, hmem⟩ := hset.other a h
        exact nodes_disjoint_of_ne hnd (hlen.symm ▸ hi) hne hmem (path_sub_nodes ha)
      rw [List.mem_append, not_or] at hnot
      rw [if_pos hj]
      refine hcl.stay _ a ha ?_
      rcases List.mem_append.1 hin with h | h
      · exact absurd h hnot.1
      · exact (List.mem_append.1 h).resolve_right hnot.2
    · rw [if_neg hj]
      exact ha
  · rw [below, hset.kids'] at ha
    have hkeep : a ∈ K ++ L → ∃ off < nIndirect ^ (lvl + 2), ¬(i * nIndirect ^ (lvl + 1) + s ≤ off ∧
        off < i * nIndirect ^ (lvl + 1) + s + l) ∧ a ∈ trail d' (lvl + 1) (E.set i (BitVec.ofNat 64 v)) off := fun h => by
      obtain ⟨j, hj, hij, hmem⟩ := hset.other a h
      obtain ⟨off, hlt, hout, hdiv, hin⟩ := exists_beside hl (hlen ▸ hj) hij hmem
      refine ⟨off, hlt, hout, ?_⟩
      rw [trail, hset.path, if_neg (by rw [hdiv]; exact hij)]
      exact hin
    rcases List.mem_append.1 ha with h | h
    · exact hkeep (List.mem_append_left _ h)
    rcases List.mem_append.1 h with h | h
    · obtain ⟨off, hlt, hout, hin⟩ := hcl.spare a h
      refine ⟨i * nIndirect ^ (lvl + 1) + off, child_lt hi hlt, by omega, ?_⟩
      rw [trail, hset.path, if_pos (child_div i hlt), child_mod i hlt]
      exact hin
    · exact hkeep (List.mem_append_right _ h)

/-! ## Writing back a node -/

/-- What clearing a part of the tree at `bn` returns. -/
def NodeCleared (bxp : BallocXparams) (d : LDisk) (lvl bn start len : Nat) (r : BmapCacheType × Nat) (d' : LDisk) : Prop :=
  NodeClears bxp d d' lvl bn r.2 start len ∧ (r.2 = 0 ∨ r.2 = bn) ∧ CacheRep bxp d' r.1

section UpdateBlock

variable {bn s l : Nat}

/-- A pointer that is left is needed outside the range. -/
theorem ListClears.exists_outside (hcl : ListClears bxp d d₁ lvl E E' s l) (hlen : E'.length = 512)
    (hz : E' ≠ List.replicate nIndirect 0) : ∃ off < nIndirect ^ (lvl + 1), ¬(s ≤ off ∧ off < s + l) := by
  obtain ⟨i, hi, hne⟩ := exists_ne_zero hlen hz
  cases lvl with
  | zero => exact ⟨i, by simpa using hi, (hcl.val_of_ne hne).2⟩
  | succ lvl =>
    have hne' : (E'.getD i 0).toNat ≠ 0 := fun h => hne (BitVec.eq_of_toNat_eq h)
    obtain ⟨off, hlt, hout, _⟩ := hcl.spare _ (nodes_getD_sub_kids (self_mem_nodes d₁ lvl hne'))
    exact ⟨off, hlt, hout⟩

/-- The root is kept, with the new pointers in it. -/
theorem ListClears.keep (hcl : ListClears bxp d d₁ lvl (entries d bn) E' s l) (hx : DataOk bxp n) (h0 : bn ≠ 0)
    (ho : Owned bxp d (nodes d lvl bn)) (he : entries d' bn = E') (hlen : E'.length = 512)
    (hz : E' ≠ List.replicate nIndirect 0) (hother : ∀ a, a ≠ bn → d' a = d₁ a) : NodeClears bxp d d' lvl bn bn s l := by
  rw [nodes_eq_below d lvl h0] at ho
  have hbn : bn ∉ below d lvl (entries d bn) := (List.nodup_cons.1 (List.nodup_append.1 ho.nodup).1).1
  have hsame : ∀ a ∈ below d₁ lvl E', d' a = d₁ a := fun a ha => hother a fun h => hbn (h ▸ hcl.sub a ha)
  have hfree : freeList bxp d' = freeList bxp d₁ := BmapAlloc.freeList_congr fun a ha =>
    hother a fun h => hx.not_inBitmap (ho.lt bn List.mem_cons_self) (h ▸ ha)
  have hbelow : below d' lvl (entries d' bn) = below d₁ lvl E' := by rw [he, below_congr hsame]
  have hlook : ∀ off, look d' lvl (entries d' bn) off = look d₁ lvl E' off := fun off => by rw [he, look_congr hsame]
  refine ⟨⟨?_, fun a ha => ?_, fun off => ?_, fun a ha hb => ?_, fun off hoff => ?_, fun a ha hza => ?_⟩,
    fun off a ha hin => ?_, fun a ha => ?_⟩
  · rw [nodes_eq_below d' lvl h0, nodes_eq_below d lvl h0, hbelow, hfree]
    exact hcl.own.cons bn
  · rw [nodes_eq_below d' lvl h0, hbelow] at ha
    rw [nodes_eq_below d lvl h0]
    rcases List.mem_cons.1 ha with h | h
    · exact h ▸ List.mem_cons_self
    · exact List.mem_cons_of_mem _ (hcl.sub a h)
  · rw [walk_eq_look d' lvl off h0, walk_eq_look d lvl off h0, hlook]
    exact hcl.val off
  · rw [nodes_eq_below d lvl h0, List.mem_cons, not_or] at ha
    exact (hother a ha.1).trans (hcl.frame a ha.2 hb)
  · rw [walk_eq_look d' lvl off h0, hlook] at hoff
    rw [path_eq_trail d' lvl off h0, path_eq_trail d lvl off h0, he, trail_congr hsame, hcl.path off hoff]
  · rw [nodes_eq_below d' lvl h0, hbelow] at ha
    rcases List.mem_cons.1 ha with rfl | h
    · exact absurd (he.symm.trans hza) hz
    · exact hcl.tidy a h (by rw [← entries_congr (hsame a h)]; exact hza)
  · rw [path_eq_trail d lvl off h0] at ha
    rw [nodes_eq_below d' lvl h0, hbelow] at hin
    rw [path_eq_trail d' lvl off h0, he, trail_congr hsame]
    rcases List.mem_cons.1 hin with h | h
    · exact h ▸ List.mem_cons_self
    rcases List.mem_cons.1 ha with h' | h'
    · exact h' ▸ List.mem_cons_self
    · exact List.mem_cons_of_mem _ (hcl.stay off a h' h)
  · rw [nodes_eq_below d' lvl h0, hbelow] at ha
    rcases List.mem_cons.1 ha with rfl | h
    · obtain ⟨off, hlt, hout⟩ := hcl.exists_outside hlen hz
      refine ⟨off, hlt, hout, ?_⟩
      rw [path_eq_trail d' lvl off h0]
      exact List.mem_cons_self
    · obtain ⟨off, hlt, hout, hin⟩ := hcl.spare a h
      refine ⟨off, hlt, hout, ?_⟩
      rw [path_eq_trail d' lvl off h0, he, trail_congr hsame]
      exact List.mem_cons_of_mem _ hin

/-- The root has only zeros, and is freed. -/
theorem ListClears.drop {m : Nat} (hcl : ListClears bxp d d₁ lvl (entries d bn) (List.replicate m 0) s l) (h0 : bn ≠ 0)
    (hf : Frees bxp d₁ d' [bn]) : NodeClears bxp d d' lvl bn 0 s l := by
  have hown : (freeList bxp d₁).Perm (below d lvl (entries d bn) ++ freeList bxp d) := by
    have := hcl.own
    rwa [below_zeros, List.nil_append] at this
  have hnone : ∀ a, a ∉ nodes d' lvl 0 := fun a ha => by
    rw [nodes_zero] at ha
    cases ha
  refine ⟨⟨?_, fun a ha => absurd ha (hnone a), fun off => ?_, fun a ha hb => ?_, fun off hoff => ?_,
    fun a ha => absurd ha (hnone a)⟩, fun _ a _ ha => absurd ha (hnone a), fun a ha => absurd ha (hnone a)⟩
  · rw [nodes_zero, nodes_eq_below d lvl h0]
    exact hf.own.trans (hown.cons bn)
  · rw [walk_zero, walk_eq_look d lvl off h0, ← hcl.val off, look_zeros]
  · rw [nodes_eq_below d lvl h0, List.mem_cons, not_or] at ha
    exact (hf.frame a hb).trans (hcl.frame a ha.2 hb)
  · exact absurd (walk_zero d' lvl off) hoff

theorem updateBlock_spec (hx : DataOk bxp n) (h0 : bn ≠ 0) (ho : Owned bxp d (nodes d lvl bn)) (hlen : E'.length = 512)
    (hcl : ListClears bxp d d₁ lvl (entries d bn) E' s l) (hc : CacheRep bxp d₁ c) :
    twp n (updateBlock bxp bn (entries d bn) E' c) (NodeCleared bxp d lvl bn s l) d₁ := by
  have ho' := ho
  rw [nodes_eq_below d lvl h0] at ho'
  have hlt := ho'.lt bn List.mem_cons_self
  have hbn : bn ∉ below d lvl (entries d bn) ++ freeList bxp d := (List.nodup_cons.1 ho'.nodup).1
  by_cases hz : E' = List.replicate nIndirect 0
  · rw [updateBlock, if_pos hz]
    rw [hz] at hcl
    have hnf : bn ∉ freeList bxp d₁ := fun h =>
      hbn (hcl.own.mem_iff.1 (List.mem_append_right _ h))
    have ho₁ : Owned bxp d₁ [bn] := by
      refine ⟨List.nodup_cons.2 ⟨hnf, BmapAlloc.nodup_freeList _ _⟩, fun a ha => ?_⟩
      rw [List.mem_singleton.1 ha]
      exact hlt
    refine twp_seq (freeBlock_spec hx hc h0 ho₁) fun c' d' ⟨hf, hc'⟩ => ?_
    exact ⟨hcl.drop h0 hf, .inl rfl, hc'⟩
  · rw [updateBlock, if_neg hz]
    by_cases he : entries d bn = E'
    · rw [if_pos he]
      have hbn₁ : d₁ bn = d bn :=
        hcl.frame bn (fun h => hbn (List.mem_append_left _ h)) (hx.not_inBitmap hlt)
      exact ⟨hcl.keep hx h0 ho ((entries_congr hbn₁).trans he) hlen hz fun _ _ => rfl, .inr rfl, hc⟩
    · rw [if_neg he]
      refine twp_seq (writeEntries_spec (hx.lt_disk hlt) h0 hlen) fun _ d' ⟨he', hother, _⟩ => ?_
      refine ⟨hcl.keep hx h0 ho he' hlen hz hother, .inr rfl, hc.congr fun a ha => hother a ?_⟩
      rintro rfl
      exact hx.not_inBitmap hlt ha

end UpdateBlock

/-! ## The programs -/

/-- What clearing a part of the trees of height `lvl` at `E` returns. -/
def ListCleared (bxp : BallocXparams) (d : LDisk) (lvl : Nat) (E : List Waddr) (start len : Nat)
    (r : BmapCacheType × List Waddr) (d' : LDisk) : Prop :=
  ListClears bxp d d' (lvl + 1) E r.2 start len ∧ r.2.length = 512 ∧ CacheRep bxp d' r.1

theorem NodeCleared.setChild {i s l : Nat} {r : BmapCacheType × Nat}
    (hcl : NodeCleared bxp d lvl (E.getD i 0).toNat s l r d') (hx : DataOk bxp n) (ho : Owned bxp d (kids d lvl E))
    (hlen : E.length = 512) (hi : i < 512) (hl : s + l ≤ nIndirect ^ (lvl + 1)) :
    ListCleared bxp d lvl E (i * nIndirect ^ (lvl + 1) + s) l (r.1, E.set i (BitVec.ofNat 64 r.2)) d' := by
  obtain ⟨hnode, hv, hc⟩ := hcl
  have hv' : r.2 < 2 ^ 64 := by
    rcases hv with h | h
    · rw [h]; decide
    · rw [h]; exact (E.getD i 0).isLt
  exact ⟨hnode.setChild hx ho hlen hi hv' hl, by rw [List.length_set, hlen], hc⟩

/-- There is nothing to clear in an empty child. -/
theorem listCleared_zero {i s l : Nat} (hi : (E.getD i 0).toNat = 0) (hlen : E.length = 512) (hc : CacheRep bxp d c)
    (hl : s + l ≤ nIndirect ^ (lvl + 1)) :
    ListCleared bxp d lvl E (i * nIndirect ^ (lvl + 1) + s) l (c, E) d := by
  refine ⟨Clears.of_zero (fun off h₁ h₂ => ?_) fun a ha => ?_, hlen, hc⟩
  · obtain ⟨hdiv, _⟩ := (in_child_iff (pow_pos' _) hl).1 ⟨h₁, h₂⟩
    rw [look, walkL, hdiv, hi, walk_zero]
  · obtain ⟨j, hj, hmem⟩ := mem_kids.1 ha
    have hij : j ≠ i := by
      rintro rfl
      rw [hi, nodes_zero] at hmem
      cases hmem
    obtain ⟨off, hlt, hout, _, hin⟩ := exists_beside hl (hlen ▸ hj) hij hmem
    exact ⟨off, hlt, hout, hin⟩

theorem listCleared_refl (hlen : E.length = 512) (hc : CacheRep bxp d c) (start : Nat) :
    ListCleared bxp d lvl E start 0 (c, E) d := by
  refine ⟨Clears.refl bxp d _ start fun a ha => ?_, hlen, hc⟩
  obtain ⟨j, hj, hmem⟩ := mem_kids.1 ha
  obtain ⟨off, hlt, hin⟩ := exists_path hmem
  refine ⟨j * nIndirect ^ (lvl + 1) + off, child_lt (hlen ▸ hj) hlt, ?_⟩
  rw [trail, pathL_child d E hlt]
  exact hin

/-- Two ranges that meet where a child begins. -/
theorem ListCleared.trans {r r' : BmapCacheType × List Waddr} {s l s' l' : Nat}
    (h₁ : ListCleared bxp d lvl E s l r d₁) (h₂ : ListCleared bxp d₁ lvl r.2 s' l' r' d') (ho : Owned bxp d (kids d lvl E))
    (hchild : nIndirect ^ (lvl + 1) ∣ s') (hmeet : s' = s + l) : ListCleared bxp d lvl E s (l + l') r' d' := by
  obtain ⟨i, hi⟩ := hchild
  rw [Nat.mul_comm] at hi
  have ho' : Owned bxp d' (kids d' lvl r'.2) := h₂.1.owned (h₁.1.owned ho)
  refine ⟨Clears.trans h₁.1 h₂.1 hmeet fun a _ off off' hlt hle hin hin' => ?_, h₂.2⟩
  have hdiv : off / nIndirect ^ (lvl + 1) < i := (Nat.div_lt_iff_lt_mul (pow_pos' _)).2 (hi ▸ hlt)
  have hdiv' : i ≤ off' / nIndirect ^ (lvl + 1) := (Nat.le_div_iff_mul_le (pow_pos' _)).2 (hi ▸ hle)
  have hmem := path_sub_nodes hin
  have hj : off / nIndirect ^ (lvl + 1) < r'.2.length := by
    by_contra hge
    rw [List.getD_eq_getElem?_getD, List.getElem?_eq_none (by omega)] at hmem
    simp at hmem
  refine nodes_disjoint_of_ne (List.nodup_append.1 ho'.nodup).1 hj ?_ (path_sub_nodes hin') hmem
  omega

/-- The trees `i, ..., i + k - 1` are freed. -/
theorem Frees.listClears {i k : Nat} (hf : Frees bxp d d' (kids d lvl ((E.drop i).take k))) (hx : DataOk bxp n)
    (ho : Owned bxp d (kids d lvl E)) (hlen : E.length = 512) (hik : i + k ≤ E.length) :
    ListClears bxp d d' (lvl + 1) E (updRange E i k 0) (i * nIndirect ^ (lvl + 1)) (k * nIndirect ^ (lvl + 1)) := by
  have hE : E = E.take i ++ ((E.drop i).take k ++ E.drop (i + k)) := by
    rw [← List.drop_drop, List.take_append_drop, List.take_append_drop]
  have hkids : kids d lvl E = kids d lvl (E.take i) ++ (kids d lvl ((E.drop i).take k) ++ kids d lvl (E.drop (i + k))) := by
    conv_lhs => rw [hE]
    rw [kids_append, kids_append]
  have hsame : ∀ a ∈ kids d lvl E, d' a = d a := fun a ha => hf.data_eq hx (ho.lt a ha)
  have hkids' : kids d' lvl (updRange E i k 0) = kids d lvl (E.take i) ++ kids d lvl (E.drop (i + k)) := by
    rw [updRange_eq E 0 k i hik, kids_append, kids_append, kids_replicate_zero, List.append_nil,
      kids_congr fun a ha => hsame a (by rw [hkids]; simp [ha]), kids_congr fun a ha => hsame a (by rw [hkids]; simp [ha])]
  have hsub : ∀ a ∈ kids d' lvl (updRange E i k 0), a ∈ kids d lvl E := fun a ha => by
    rw [hkids', List.mem_append] at ha
    rw [hkids]
    rcases ha with h | h
    · exact List.mem_append_left _ h
    · exact List.mem_append_right _ (List.mem_append_right _ h)
  have hpath : ∀ off, ¬(i ≤ off / nIndirect ^ (lvl + 1) ∧ off / nIndirect ^ (lvl + 1) < i + k) →
      pathL d' lvl (updRange E i k 0) off = pathL d lvl E off := fun off hout => by
    rw [← pathL_congr hsame off, pathL, pathL, getD_updRange E 0 0 hik, if_neg hout]
  have hiff : ∀ off, i * nIndirect ^ (lvl + 1) ≤ off ∧ off < i * nIndirect ^ (lvl + 1) + k * nIndirect ^ (lvl + 1) ↔
      i ≤ off / nIndirect ^ (lvl + 1) ∧ off / nIndirect ^ (lvl + 1) < i + k := fun off => by
    rw [Nat.le_div_iff_mul_le (pow_pos' _), Nat.div_lt_iff_lt_mul (pow_pos' _), Nat.add_mul]
  have hgone : ∀ j, i ≤ j ∧ j < i + k → ∀ a ∈ nodes d lvl (E.getD j 0).toNat, a ∉ kids d' lvl (updRange E i k 0) := by
    intro j hj a ha hin
    obtain ⟨j', hj', hmem⟩ := mem_kids.1 hin
    rw [getD_updRange E 0 0 hik] at hmem
    rw [length_updRange] at hj'
    by_cases hr : i ≤ j' ∧ j' < i + k
    · rw [if_pos hr] at hmem
      simp at hmem
    · rw [if_neg hr, nodes_congr fun b hb => hsame b (nodes_getD_sub_kids hb)] at hmem
      refine nodes_disjoint_of_ne (List.nodup_append.1 ho.nodup).1 hj' ?_ ha hmem
      rintro rfl
      exact hr hj
  refine ⟨⟨?_, hsub, fun off => ?_, fun a _ hb => hf.frame a hb, fun off hoff => ?_, fun a ha hz => ?_⟩,
    fun off a ha hin => ?_, fun a ha => ?_⟩
  · have hown := List.perm_iff_count.1 hf.own
    rw [below, below, hkids', hkids, List.perm_iff_count]
    intro a
    simp only [List.count_append] at hown ⊢
    have := hown a
    omega
  · rw [look, look, ← walkL_congr hsame off, walkL, walkL, getD_updRange E 0 0 hik]
    by_cases hin : i ≤ off / nIndirect ^ (lvl + 1) ∧ off / nIndirect ^ (lvl + 1) < i + k
    · rw [if_pos hin, if_pos ((hiff off).2 hin)]
      exact walk_zero d' lvl _
    · rw [if_neg hin, if_neg fun h => hin ((hiff off).1 h)]
  · rw [look, walkL, getD_updRange E 0 0 hik] at hoff
    refine hpath off fun hin => hoff ?_
    rw [if_pos hin]
    exact walk_zero d' lvl _
  · rw [← entries_congr (hsame a (hsub a ha))]
    exact hz
  · rw [trail] at ha ⊢
    rw [hpath off fun hr => hgone _ hr a (path_sub_nodes ha) hin]
    exact ha
  · obtain ⟨j, hj, hmem⟩ := mem_kids.1 (hsub a ha)
    obtain ⟨off, hlt, hin⟩ := exists_path hmem
    have hdiv := child_div j hlt
    have hout : ¬(i ≤ (j * nIndirect ^ (lvl + 1) + off) / nIndirect ^ (lvl + 1) ∧
        (j * nIndirect ^ (lvl + 1) + off) / nIndirect ^ (lvl + 1) < i + k) := fun hr =>
      hgone _ hr a (by rw [hdiv]; exact hmem) ha
    refine ⟨j * nIndirect ^ (lvl + 1) + off, child_lt (hlen ▸ hj) hlt, fun h => hout ((hiff _).1 h), ?_⟩
    rw [trail, hpath _ hout, pathL_child d E hlt]
    exact hin

theorem indclearAligned_spec (hx : DataOk bxp n) (hc : CacheRep bxp d c) (ho : Owned bxp d (kids d lvl E))
    (hlen : E.length = 512) {i k : Nat} (hik : i + k ≤ 512) :
    twp n (indclearAligned bxp lvl E (i * nIndirect ^ (lvl + 1)) (k * nIndirect ^ (lvl + 1)) c)
      (fun c' d' => ListCleared bxp d lvl E (i * nIndirect ^ (lvl + 1)) (k * nIndirect ^ (lvl + 1))
        (c', updRange E i k 0) d') d := by
  have hslice : (kids d lvl ((E.drop i).take k)).Sublist (kids d lvl E) :=
    ((List.take_sublist _ _).trans (List.drop_sublist _ _)).flatMap _
  simp only [indclearAligned, Nat.mul_div_cancel _ (pow_pos' (lvl + 1))]
  refine twp_mono (fun c' d' ⟨hf, hc'⟩ => ⟨hf.listClears hx ho hlen (by omega), by rw [length_updRange, hlen], hc'⟩) _
    (clearLoop_spec hx (fun w c d hc ho => indclearAll_spec hx lvl w.toNat hc ho) _ hc (ho.sublist hslice))

/-- Clearing entries of a leaf. -/
theorem listClears_leaf {s l : Nat} (hlen : E.length = 512) (hl : s + l ≤ 512) :
    ListClears bxp d d 0 E (updRange E s l 0) s l :=
  ⟨⟨.refl _, fun _ h => h, fun off => getD_updRange E 0 0 (hlen.symm ▸ hl) off, fun _ _ _ => rfl, fun _ _ => rfl,
    fun _ ha => absurd ha List.not_mem_nil⟩, fun _ _ h _ => h, fun _ ha => absurd ha List.not_mem_nil⟩

/-- Read the child `i`, clear a part of it and write it back. -/
theorem clearChild_spec (hx : DataOk bxp n) {i s l : Nat} (hc : CacheRep bxp d c) (ho : Owned bxp d (kids d lvl E))
    (hlen : E.length = 512) (hi : i < 512) (hl : s + l ≤ nIndirect ^ (lvl + 1))
    {p : List Waddr → TBody (BmapCacheType × List Waddr)}
    (hp : (E.getD i 0).toNat ≠ 0 → Owned bxp d (nodes d lvl (E.getD i 0).toNat) →
      twp n (p (entries d (E.getD i 0).toNat)) (fun r d' => r.2.length = 512 ∧ CacheRep bxp d' r.1 ∧
        ListClears bxp d d' lvl (entries d (E.getD i 0).toNat) r.2 s l) d) :
    twp n (if (E.getD i 0).toNat = 0 then pure (c, E) else do
        let indbns ← LogRecArray.read indSig (E.getD i 0).toNat 1
        let (ms, indbns') ← p indbns
        let (ms, v) ← updateBlock bxp (E.getD i 0).toNat indbns indbns' ms
        pure (ms, E.set i (BitVec.ofNat 64 v)))
      (ListCleared bxp d lvl E (i * nIndirect ^ (lvl + 1) + s) l) d := by
  by_cases h0 : (E.getD i 0).toNat = 0
  · rw [if_pos h0]
    exact listCleared_zero h0 hlen hc hl
  · rw [if_neg h0]
    have ho' := ho.sublist (nodes_getD_sublist d lvl (hlen.symm ▸ hi))
    have hlt := ho'.lt _ (self_mem_nodes d lvl h0)
    refine twp_bind _ (readEntries_spec (hx.lt_disk hlt) ?_)
    refine twp_seq (hp h0 ho') fun ⟨c₁, E₁⟩ d₁ ⟨hlen₁, hc₁, hcl⟩ => ?_
    refine twp_seq (updateBlock_spec hx h0 ho' hlen₁ hcl hc₁) fun r d₂ hnode => ?_
    exact hnode.setChild hx ho hlen hi hl

theorem Owned.below {bn : Nat} (ho : Owned bxp d (nodes d lvl bn)) (h0 : bn ≠ 0) :
    Owned bxp d (below d lvl (entries d bn)) := by
  rw [nodes_eq_below d lvl h0] at ho
  exact ho.sublist (List.sublist_cons_self _ _)

theorem indclearFromAligned_spec (hx : DataOk bxp n) : ∀ (lvl : Nat) {E : List Waddr} {c : BmapCacheType} {d : LDisk}
    {i len : Nat}, CacheRep bxp d c → Owned bxp d (kids d lvl E) → E.length = 512 → len ≤ nIndirect ^ (lvl + 1) →
    (len ≠ 0 → i < 512) →
    twp n (indclearFromAligned bxp lvl E (i * nIndirect ^ (lvl + 1)) len c)
      (ListCleared bxp d lvl E (i * nIndirect ^ (lvl + 1)) len) d
  | 0, E, c, d, i, len, hc, ho, hlen, hl, hi => by
    by_cases h0 : len = 0
    · rw [indclearFromAligned, if_pos h0, h0]
      exact listCleared_refl hlen hc _
    · rw [indclearFromAligned, if_neg h0]
      simp only [Nat.mul_div_cancel _ (pow_pos' 1)]
      have hchild := clearChild_spec (s := 0) (l := len) hx hc ho hlen (hi h0) (by omega)
        (p := fun indbns => pure (c, updRange indbns 0 len 0)) fun _ _ =>
          ⟨by rw [length_updRange, length_entries], hc, listClears_leaf (length_entries _ _) (by simpa using hl)⟩
      rw [Nat.add_zero] at hchild
      exact hchild
  | lvl + 1, E, c, d, i, len, hc, ho, hlen, hl, hi => by
    by_cases h0 : len = 0
    · rw [indclearFromAligned, if_pos h0, h0]
      exact listCleared_refl hlen hc _
    · rw [indclearFromAligned, if_neg h0]
      simp only [Nat.mul_div_cancel _ (pow_pos' (lvl + 2))]
      have hchild := clearChild_spec (s := 0) (l := len) hx hc ho hlen (hi h0) (by omega)
        (p := fun indbns => do
          let ms ← indclearAligned bxp lvl indbns 0 (len / nIndirect ^ (lvl + 1) * nIndirect ^ (lvl + 1)) c
          indclearFromAligned bxp lvl (updRange indbns 0 (len / nIndirect ^ (lvl + 1)) 0)
            (len / nIndirect ^ (lvl + 1) * nIndirect ^ (lvl + 1)) (len % nIndirect ^ (lvl + 1)) ms) ?_
      · rw [Nat.add_zero] at hchild
        simp only [Body.bind_assoc] at hchild
        exact hchild
      · intro hne ho'
        have ho₁ := ho'.below hne
        have hl' : len ≤ nIndirect ^ (lvl + 1) * 512 := by rwa [Nat.pow_succ] at hl
        have hk : len / nIndirect ^ (lvl + 1) ≤ 512 := Nat.div_le_of_le_mul hl'
        have haligned := indclearAligned_spec (i := 0) (k := len / nIndirect ^ (lvl + 1)) hx hc ho₁ (length_entries _ _)
          (by omega)
        rw [Nat.zero_mul] at haligned
        refine twp_seq haligned fun c₁ d₁ hcl₁ => ?_
        refine twp_mono (fun r d₂ hcl₂ => ?_) _ (indclearFromAligned_spec hx lvl hcl₁.2.2 (hcl₁.1.owned ho₁) hcl₁.2.1
          (Nat.le_of_lt (Nat.mod_lt _ (pow_pos' _))) fun hmod => ?_)
        · have hcl := hcl₁.trans hcl₂ ho₁ (Nat.dvd_mul_left _ _) (Nat.zero_add _).symm
          rw [Nat.div_add_mod'] at hcl
          exact ⟨hcl.2.1, hcl.2.2, hcl.1⟩
        · -- a child that is cleared in part is not past the end
          refine Nat.lt_of_le_of_ne hk fun he => hmod ?_
          have hdm := Nat.div_add_mod' len (nIndirect ^ (lvl + 1))
          rw [he] at hdm
          generalize len % nIndirect ^ (lvl + 1) = m at hdm ⊢
          omega

theorem divup_of_mod_eq_zero {m N : Nat} (hN : 0 < N) (h : m % N = 0) : divup m N = m / N := by
  have hdm := Nat.div_add_mod m N
  conv_lhs => rw [divup, ← hdm, h, Nat.add_zero, Nat.add_sub_assoc hN, Nat.mul_add_div hN,
    Nat.div_eq_of_lt (by omega : N - 1 < N)]
  rfl

theorem divup_of_mod_ne_zero {m N : Nat} (hN : 0 < N) (h : m % N ≠ 0) : divup m N = m / N + 1 := by
  have hdm := Nat.div_add_mod m N
  have hlt := Nat.mod_lt m hN
  generalize m / N = q, m % N = r at h hdm hlt
  have hm : m + N - 1 = N * (q + 1) + (r - 1) := by rw [Nat.mul_add, Nat.mul_one]; omega
  rw [divup, hm, Nat.mul_add_div hN, Nat.div_eq_of_lt (by omega : r - 1 < N), Nat.add_zero]

theorem roundup_of_mod_eq_zero {m N : Nat} (hN : 0 < N) (h : m % N = 0) : roundup m N = m := by
  rw [roundup, divup_of_mod_eq_zero hN h]
  exact Nat.div_mul_cancel (Nat.dvd_of_mod_eq_zero h)

theorem roundup_sub_of_mod_ne_zero {m N : Nat} (hN : 0 < N) (h : m % N ≠ 0) : roundup m N - m = N - m % N := by
  have hdm := Nat.div_add_mod' m N
  have hlt := Nat.mod_lt m hN
  rw [roundup, divup_of_mod_ne_zero hN h, Nat.succ_mul]
  omega

theorem indclearToAligned_spec (hx : DataOk bxp n) : ∀ (lvl : Nat) {E : List Waddr} {c : BmapCacheType} {d : LDisk}
    {start : Nat}, CacheRep bxp d c → Owned bxp d (kids d lvl E) → E.length = 512 →
    (start % nIndirect ^ (lvl + 1) ≠ 0 → start / nIndirect ^ (lvl + 1) < 512) →
    twp n (indclearToAligned bxp lvl E start c)
      (ListCleared bxp d lvl E start (roundup start (nIndirect ^ (lvl + 1)) - start)) d
  | 0, E, c, d, start, hc, ho, hlen, hi => by
    by_cases h0 : start % nIndirect ^ 1 = 0
    · rw [indclearToAligned, if_pos h0, roundup_of_mod_eq_zero (pow_pos' _) h0, Nat.sub_self]
      exact listCleared_refl hlen hc _
    · have hlt := Nat.mod_lt start (pow_pos' 1)
      rw [indclearToAligned, if_neg h0, roundup_sub_of_mod_ne_zero (pow_pos' _) h0]
      have hchild := clearChild_spec (s := start % nIndirect ^ 1) (l := nIndirect ^ 1 - start % nIndirect ^ 1) hx hc ho hlen
        (hi h0) (Nat.le_of_eq (Nat.add_sub_of_le (Nat.le_of_lt hlt)))
        (p := fun indbns => pure (c, updRange indbns (start % nIndirect) (nIndirect - start % nIndirect) 0)) fun _ _ => by
          rw [Nat.pow_one] at hlt ⊢
          exact ⟨by rw [length_updRange, length_entries], hc,
            listClears_leaf (length_entries _ _) (Nat.le_of_eq (Nat.add_sub_of_le (Nat.le_of_lt hlt)))⟩
      rw [Nat.div_add_mod'] at hchild
      exact hchild
  | lvl + 1, E, c, d, start, hc, ho, hlen, hi => by
    by_cases h0 : start % nIndirect ^ (lvl + 2) = 0
    · rw [indclearToAligned, if_pos h0, roundup_of_mod_eq_zero (pow_pos' _) h0, Nat.sub_self]
      exact listCleared_refl hlen hc _
    · rw [indclearToAligned, if_neg h0, roundup_sub_of_mod_ne_zero (pow_pos' _) h0]
      have hlt := Nat.mod_lt start (pow_pos' (lvl + 2))
      have hchild := clearChild_spec (s := start % nIndirect ^ (lvl + 2))
        (l := nIndirect ^ (lvl + 2) - start % nIndirect ^ (lvl + 2)) hx hc ho hlen (hi h0)
        (Nat.le_of_eq (Nat.add_sub_of_le (Nat.le_of_lt hlt)))
        (p := fun indbns => do
          let (ms, indbns') ← indclearToAligned bxp lvl indbns (start % nIndirect ^ (lvl + 2)) c
          let ms ← indclearAligned bxp lvl indbns' (roundup (start % nIndirect ^ (lvl + 2)) (nIndirect ^ (lvl + 1)))
            (nIndirect ^ (lvl + 2) - roundup (start % nIndirect ^ (lvl + 2)) (nIndirect ^ (lvl + 1))) ms
          pure (ms, updRange indbns' (divup (start % nIndirect ^ (lvl + 2)) (nIndirect ^ (lvl + 1)))
            (nIndirect - divup (start % nIndirect ^ (lvl + 2)) (nIndirect ^ (lvl + 1))) 0)) ?_
      · rw [Nat.div_add_mod'] at hchild
        simp only [Body.bind_assoc] at hchild
        exact hchild
      · intro hne ho'
        generalize start % nIndirect ^ (lvl + 2) = start' at hlt ⊢
        have ho₁ := ho'.below hne
        have hN : nIndirect ^ (lvl + 2) = 512 * nIndirect ^ (lvl + 1) := Nat.pow_succ'
        have hdiv : start' / nIndirect ^ (lvl + 1) < 512 := div_pow_lt hlt
        have hup : divup start' (nIndirect ^ (lvl + 1)) ≤ 512 := by
          rw [divup_le_iff (pow_pos' _)]
          omega
        refine twp_seq (indclearToAligned_spec hx lvl hc ho₁ (length_entries _ _) fun _ => hdiv) fun ⟨c₁, E₁⟩ d₁ hcl₁ => ?_
        have haligned := indclearAligned_spec (i := divup start' (nIndirect ^ (lvl + 1)))
          (k := 512 - divup start' (nIndirect ^ (lvl + 1))) hx hcl₁.2.2 (hcl₁.1.owned ho₁) hcl₁.2.1 (by omega)
        rw [Nat.sub_mul, ← hN] at haligned
        refine twp_seq haligned fun c₂ d₂ hcl₂ => ?_
        have hle := le_roundup start' (pow_pos' (lvl + 1))
        have hup' := Nat.mul_le_mul_right (nIndirect ^ (lvl + 1)) hup
        have hcl := hcl₁.trans hcl₂ ho₁ (Nat.dvd_mul_left _ _) (by rw [roundup]; omega)
        rw [show roundup start' (nIndirect ^ (lvl + 1)) - start' +
          (nIndirect ^ (lvl + 2) - divup start' (nIndirect ^ (lvl + 1)) * nIndirect ^ (lvl + 1)) =
            nIndirect ^ (lvl + 2) - start' by rw [roundup]; omega] at hcl
        exact ⟨hcl.2.1, hcl.2.2, hcl.1⟩

theorem indclearMultipleBlocks_spec (hx : DataOk bxp n) {start len : Nat} (hc : CacheRep bxp d c)
    (ho : Owned bxp d (kids d lvl E)) (hlen : E.length = 512) (hle : start + len ≤ 512 * nIndirect ^ (lvl + 1))
    (hpast : roundup start (nIndirect ^ (lvl + 1)) - start ≤ len) :
    twp n (indclearMultipleBlocks bxp lvl E start len c) (ListCleared bxp d lvl E start len) d := by
  have hN := pow_pos' (lvl + 1)
  simp only [indclearMultipleBlocks]
  generalize hNe : nIndirect ^ (lvl + 1) = N at *
  have hto := @indclearToAligned_spec _ _ hx lvl _ _ _ start hc ho hlen
  rw [hNe] at hto
  have hge : start ≤ roundup start N := le_roundup start hN
  refine twp_seq (hto fun hmod => ?_) fun ⟨c₁, E₁⟩ d₁ hcl₁ => ?_
  · rw [Nat.div_lt_iff_lt_mul hN]
    rcases Nat.lt_or_ge start (512 * N) with h | h
    · exact h
    · rw [show start = 512 * N by omega, Nat.mul_mod_left] at hmod
      exact absurd rfl hmod
  · have hstart : start + (roundup start N - start) = divup start N * N := by rw [Nat.add_sub_of_le hge]; rfl
    have hdm := Nat.div_add_mod' (len - (roundup start N - start)) N
    have hsum : divup start N * N + (len - (roundup start N - start)) ≤ 512 * N := by rw [← hstart]; omega
    rw [hstart, Nat.mul_div_cancel _ hN, ← Nat.add_mul]
    generalize hlen' : len - (roundup start N - start) = len' at *
    generalize hk : len' / N = k, hm : len' % N = m at *
    have hik : divup start N + k ≤ 512 := by
      refine Nat.le_of_mul_le_mul_right ?_ hN
      rw [Nat.add_mul]
      omega
    have haligned := indclearAligned_spec hx hcl₁.2.2 (hcl₁.1.owned ho) hcl₁.2.1 hik
    rw [hNe] at haligned
    refine twp_seq haligned fun c₂ d₂ hcl₂ => ?_
    have hm' : m < N := hm ▸ Nat.mod_lt _ hN
    have hfrom := @indclearFromAligned_spec _ _ hx lvl _ _ _ (divup start N + k) m hcl₂.2.2
      (hcl₂.1.owned (hcl₁.1.owned ho)) hcl₂.2.1 (by rw [hNe]; omega) fun hne => by
        refine Nat.lt_of_le_of_ne hik fun he => hne ?_
        rw [← hdm, ← Nat.add_assoc, ← Nat.add_mul, he] at hsum
        omega
    rw [hNe] at hfrom
    refine twp_mono (fun r d₃ hcl₃ => ?_) _ hfrom
    have hchild : ∀ i, nIndirect ^ (lvl + 1) ∣ i * N := fun i => hNe ▸ Nat.dvd_mul_left _ _
    have hcl := (hcl₁.trans hcl₂ ho (hchild _) hstart.symm).trans hcl₃ ho (hchild _)
      (by rw [Nat.add_mul, ← hstart, Nat.add_assoc])
    rwa [show roundup start N - start + k * N + m = len by omega] at hcl

theorem nodeCleared_empty {start len : Nat} (hc : CacheRep bxp d c) : NodeCleared bxp d lvl 0 start len (c, 0) d := by
  refine ⟨.of_zero (fun off _ _ => walk_zero d lvl off) fun a ha => ?_, .inl rfl, hc⟩
  rw [nodes_zero] at ha
  cases ha

theorem nodeCleared_refl {root : Nat} (hc : CacheRep bxp d c) (start : Nat) :
    NodeCleared bxp d lvl root start 0 (c, root) d :=
  ⟨Clears.refl bxp d _ start fun _ ha => exists_path ha, .inr rfl, hc⟩

theorem indclear_spec (hx : DataOk bxp n) : ∀ (lvl : Nat) {root start len : Nat} {c : BmapCacheType} {d : LDisk},
    CacheRep bxp d c → Owned bxp d (nodes d lvl root) → start + len ≤ nIndirect ^ (lvl + 1) →
    twp n (indclear bxp lvl root start len c) (NodeCleared bxp d lvl root start len) d
  | 0, root, start, len, c, d, hc, ho, hl => by
    by_cases h0 : root = 0
    · rw [indclear, if_pos h0, h0]
      exact nodeCleared_empty hc
    · rw [indclear, if_neg h0]
      by_cases hz : len = 0
      · rw [if_pos hz, hz]
        exact nodeCleared_refl hc _
      · rw [if_neg hz]
        refine twp_bind _ (readEntries_spec (hx.lt_disk (ho.lt _ (self_mem_nodes d 0 h0))) ?_)
        exact updateBlock_spec hx h0 ho (by rw [length_updRange, length_entries])
          (listClears_leaf (length_entries _ _) (by simpa using hl)) hc
  | lvl + 1, root, start, len, c, d, hc, ho, hl => by
    by_cases h0 : root = 0
    · rw [indclear, if_pos h0, h0]
      exact nodeCleared_empty hc
    · rw [indclear, if_neg h0]
      by_cases hz : len = 0
      · rw [if_pos hz, hz]
        exact nodeCleared_refl hc _
      · rw [if_neg hz]
        refine twp_bind _ (readEntries_spec (hx.lt_disk (ho.lt _ (self_mem_nodes d _ h0))) ?_)
        have ho₁ : Owned bxp d (kids d lvl (entries d root)) := ho.below h0
        have hl' : start + len ≤ 512 * nIndirect ^ (lvl + 1) := by rwa [Nat.pow_succ, Nat.mul_comm] at hl
        have hmlt := Nat.mod_lt start (pow_pos' (lvl + 1))
        have hdm := Nat.div_add_mod' start (nIndirect ^ (lvl + 1))
        have hpow : nIndirect ^ (lvl + 1 + 1) = 512 * nIndirect ^ (lvl + 1) := Nat.pow_succ'
        refine twp_seq (P := ListCleared bxp d lvl (entries d root) start len) ?_
          fun ⟨c₁, E₁⟩ d₁ h => updateBlock_spec hx h0 ho h.2.1 h.1 h.2.2
        by_cases hone : len ≤ nIndirect ^ (lvl + 1) - start % nIndirect ^ (lvl + 1)
        · -- the range lies in one child
          simp only [if_pos hone]
          have hi : start / nIndirect ^ (lvl + 1) < 512 := by
            rw [Nat.div_lt_iff_lt_mul (pow_pos' _)]
            omega
          have hsub := nodes_getD_sublist d lvl ((length_entries d root).symm ▸ hi)
          have hl₁ : start % nIndirect ^ (lvl + 1) + len ≤ nIndirect ^ (lvl + 1) := by
            generalize start % nIndirect ^ (lvl + 1) = m at *
            omega
          refine twp_seq (indclear_spec hx lvl hc (ho₁.sublist hsub) hl₁) fun r d₁ hnode => ?_
          have hcl := hnode.setChild hx ho₁ (length_entries _ _) hi hl₁
          rw [hdm] at hcl
          exact hcl
        · simp only [if_neg hone]
          refine indclearMultipleBlocks_spec hx hc ho₁ (length_entries _ _) hl' ?_
          by_cases hmod : start % nIndirect ^ (lvl + 1) = 0
          · rw [roundup_of_mod_eq_zero (pow_pos' _) hmod]
            omega
          · rw [roundup_sub_of_mod_ne_zero (pow_pos' _) hmod]
            omega

end Fscq.BlockPtr
