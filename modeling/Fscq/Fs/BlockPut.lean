import Fscq.Fs.BlockClear

/-!
# Storing an entry in a tree

`Puts` is what storing one entry does: this entry is new and the others stay, the nodes that were needed for it were free
before and are on the way to it, no block is lost or handed out twice, and nothing else is written. When there is no block
for a node, only the bitmap is written (`Fails`).
-/

namespace Fscq.BlockPtr

open TxnLogic BmapAllocCache
open BmapAlloc (freeList size DataOk)

variable {n : Nat} {d d₁ d₂ d' : LDisk} {bxp : BallocXparams} {lvl : Nat} {E E' : List Waddr} {c : BmapCacheType}
  {off : Nat} {w : Waddr}

/-- The entries `f` of the nodes `O` become the entries `f'` of the nodes `O'`, with `w` at `off`. The ways `g` to the
entries become the ways `g'`. -/
structure Puts (bxp : BallocXparams) (d d' : LDisk) (O O' : List Nat) (f f' : Nat → Waddr) (g g' : Nat → List Nat)
    (off : Nat) (w : Waddr) : Prop where
  own : (O' ++ freeList bxp d').Perm (O ++ freeList bxp d)
  free : ∀ a ∈ freeList bxp d', a ∈ freeList bxp d
  val : ∀ off', f' off' = if off' = off then w else f off'
  frame : ∀ a, a ∉ O → a ∉ freeList bxp d → ¬ bxp.InBitmap a → d' a = d a
  /-- New nodes are written. -/
  new : ∀ a ∈ O', a ∈ O ∨ d'.plain a
  path : ∀ off', f off' ≠ 0 → g' off' = g off'
  newPath : ∀ a ∈ O', a ∈ O ∨ a ∈ g' off

/-- Blocks beside the tree are not touched. -/
theorem Puts.beside {O O' P : List Nat} {f f' : Nat → Waddr} {g g' : Nat → List Nat}
    (hp : Puts bxp d d' O O' f f' g g' off w) (hx : DataOk bxp n) (ho : Owned bxp d (O ++ P)) :
    ∀ a ∈ P, d' a = d a := fun a ha => by
  have hmem := List.mem_append_right O ha
  refine hp.frame a (fun h => ?_) (ho.not_free hmem) (hx.not_inBitmap (ho.lt a hmem))
  exact (List.nodup_append.1 (List.nodup_append.1 ho.nodup).1).2.2 a h a ha rfl

def NodePuts (bxp : BallocXparams) (d d' : LDisk) (lvl bn v off : Nat) (w : Waddr) : Prop :=
  Puts bxp d d' (nodes d lvl bn) (nodes d' lvl v) (walk d lvl bn) (walk d' lvl v) (path d lvl bn) (path d' lvl v) off w

def ListPuts (bxp : BallocXparams) (d d' : LDisk) (lvl : Nat) (E E' : List Waddr) (off : Nat) (w : Waddr) : Prop :=
  Puts bxp d d' (below d lvl E) (below d' lvl E') (look d lvl E) (look d' lvl E') (trail d lvl E) (trail d' lvl E') off w

/-- Storing in one subtree, seen from the node above. -/
theorem NodePuts.setChild {v : Nat} (hN : off < 512 * nIndirect ^ (lvl + 1))
    (hp : NodePuts bxp d d' lvl (E.getD (off / nIndirect ^ (lvl + 1)) 0).toNat v (off % nIndirect ^ (lvl + 1)) w)
    (hx : DataOk bxp n) (ho : Owned bxp d (kids d lvl E)) (hlen : E.length = 512) (hv : v < 2 ^ 64) :
    ListPuts bxp d d' (lvl + 1) E (E.set (off / nIndirect ^ (lvl + 1)) (BitVec.ofNat 64 v)) off w := by
  have hi : off / nIndirect ^ (lvl + 1) < E.length := by rw [hlen, Nat.div_lt_iff_lt_mul (pow_pos' _)]; exact hN
  obtain ⟨K, L, hset⟩ := tree_setChild hx ho hi hv hp.frame
  refine ⟨?_, hp.free, fun off' => ?_, fun a ha => hp.frame a fun h => ha ?_, fun a ha => ?_, fun off' hoff => ?_,
    fun a ha => ?_⟩
  · have hown := List.perm_iff_count.1 hp.own
    rw [below, below, hset.kids, hset.kids', List.perm_iff_count]
    intro a
    simp only [List.count_append] at hown ⊢
    have := hown a
    omega
  · have hdm := Nat.div_add_mod off (nIndirect ^ (lvl + 1))
    have hdm' := Nat.div_add_mod off' (nIndirect ^ (lvl + 1))
    rw [look, look, hset.walk]
    by_cases hj : off' / nIndirect ^ (lvl + 1) = off / nIndirect ^ (lvl + 1)
    · rw [if_pos hj, hp.val, walkL, hj]
      congr 1
      rw [eq_iff_iff]
      constructor
      · intro h
        rw [← hdm, ← hdm', hj, h]
      · rintro rfl
        rfl
    · rw [if_neg hj, if_neg fun h => hj (by rw [h])]
  · rw [below]
    exact nodes_getD_sub_kids h
  · rw [below, hset.kids', List.mem_append, List.mem_append] at ha
    rw [below, hset.kids, List.mem_append, List.mem_append]
    rcases ha with h | h | h
    · exact .inl (.inl h)
    · exact (hp.new a h).imp (fun h => .inr (.inl h)) id
    · exact .inl (.inr (.inr h))
  · rw [look, walkL] at hoff
    rw [trail, trail, hset.path]
    by_cases hj : off' / nIndirect ^ (lvl + 1) = off / nIndirect ^ (lvl + 1)
    · rw [hj] at hoff
      rw [if_pos hj, hp.path _ hoff, pathL, hj]
    · rw [if_neg hj]
  · rw [below, hset.kids', List.mem_append, List.mem_append] at ha
    rw [below, hset.kids, List.mem_append, List.mem_append, trail, hset.path, if_pos rfl]
    rcases ha with h | h | h
    · exact .inl (.inl h)
    · exact (hp.newPath a h).imp (fun h => .inr (.inl h)) id
    · exact .inl (.inr (.inr h))

/-- The new pointers are in the root. -/
theorem ListPuts.keep {ir : Nat} (hp : ListPuts bxp d d₁ lvl E E' off w) (hx : DataOk bxp n) (h0 : ir ≠ 0)
    (ho : Owned bxp d (ir :: below d lvl E)) (he : entries d' ir = E') (hother : ∀ a, a ≠ ir → d' a = d₁ a)
    (hmono : ∀ a, d₁.plain a → d'.plain a) :
    Puts bxp d d' (ir :: below d lvl E) (nodes d' lvl ir) (look d lvl E) (walk d' lvl ir)
      (fun off => ir :: trail d lvl E off) (path d' lvl ir) off w := by
  have hir : ir ∉ below d lvl E ++ freeList bxp d := (List.nodup_cons.1 ho.nodup).1
  have hsame : ∀ a ∈ below d₁ lvl E', d' a = d₁ a := fun a ha => hother a fun h =>
    hir (hp.own.mem_iff.1 (List.mem_append_left _ (h ▸ ha)))
  have hfree : freeList bxp d' = freeList bxp d₁ := BmapAlloc.freeList_congr fun a ha =>
    hother a fun h => hx.not_inBitmap (ho.lt ir List.mem_cons_self) (h ▸ ha)
  refine ⟨?_, fun a ha => hp.free a (hfree ▸ ha), fun off' => ?_, fun a ha hf hb => ?_, fun a ha => ?_, fun off' hoff => ?_,
    fun a ha => ?_⟩
  · rw [nodes_eq_below d' lvl h0, he, below_congr hsame, hfree]
    exact hp.own.cons ir
  · rw [walk_eq_look d' lvl off' h0, he, look_congr hsame]
    exact hp.val off'
  · rw [List.mem_cons, not_or] at ha
    exact (hother a ha.1).trans (hp.frame a ha.2 hf hb)
  · rw [nodes_eq_below d' lvl h0, he, below_congr hsame] at ha
    rcases List.mem_cons.1 ha with rfl | h
    · exact .inl List.mem_cons_self
    · exact (hp.new a h).imp (List.mem_cons_of_mem _) (hmono a)
  · rw [path_eq_trail d' lvl off' h0, he, trail_congr hsame, hp.path off' hoff]
  · rw [nodes_eq_below d' lvl h0, he, below_congr hsame] at ha
    rw [path_eq_trail d' lvl off h0, he, trail_congr hsame]
    rcases List.mem_cons.1 ha with rfl | h
    · exact .inl List.mem_cons_self
    · exact (hp.newPath a h).imp (List.mem_cons_of_mem _) (List.mem_cons_of_mem _)

/-- There was no free block left, and only the bitmap was written. -/
structure Fails (bxp : BallocXparams) (d : LDisk) (c : BmapCacheType) (d' : LDisk) : Prop where
  free : freeList bxp d' = []
  frame : ∀ a, ¬ bxp.InBitmap a → d' a = d a
  cache : CacheRep bxp d' c

/-- What `indput` returns: the new root when there are blocks enough, else 0. -/
structure NodePut (bxp : BallocXparams) (d : LDisk) (lvl bn off : Nat) (w : Waddr) (r : BmapCacheType × Nat) (d' : LDisk) :
    Prop where
  done : r.2 ≠ 0 → NodePuts bxp d d' lvl bn r.2 off w ∧ r.2 < size bxp ∧ CacheRep bxp d' r.1
  fails : r.2 = 0 → Fails bxp d r.1 d'

/-- The root to write to: it is owned, over the pointers `E` that the tree has so far. -/
structure RootOk (bxp : BallocXparams) (d d₁ : LDisk) (lvl root ir : Nat) (E : List Waddr) : Prop where
  nonzero : ir ≠ 0
  owned : Owned bxp d₁ (ir :: below d₁ lvl E)
  lift : ∀ {d' : LDisk} {off : Nat} {w : Waddr},
    Puts bxp d₁ d' (ir :: below d₁ lvl E) (nodes d' lvl ir) (look d₁ lvl E) (walk d' lvl ir)
      (fun off => ir :: trail d₁ lvl E off) (path d' lvl ir) off w →
      (root = 0 → d'.plain ir) → NodePuts bxp d d' lvl root ir off w
  frame : ∀ a, ¬ bxp.InBitmap a → d₁ a = d a
  same : root ≠ 0 → d₁ = d ∧ ir = root
  len : E.length = 512

/-- The pointers of a tree; an empty tree has zeros. -/
def rootEntries (d : LDisk) (root : Nat) : List Waddr := if root = 0 then List.replicate nIndirect 0 else entries d root

theorem indputRoot_spec (hx : DataOk bxp n) (hc : CacheRep bxp d c) {root : Nat} (ho : Owned bxp d (nodes d lvl root)) :
    twp n (indputRoot bxp root c) (fun r d₁ => (∀ ir, r.2 = some ir →
      RootOk bxp d d₁ lvl root ir (rootEntries d root) ∧ CacheRep bxp d₁ r.1) ∧ (r.2 = none → Fails bxp d r.1 d₁)) d := by
  by_cases h0 : root = 0
  · rw [indputRoot, if_pos h0, rootEntries, if_pos h0]
    refine twp_mono (fun r d₁ h => ?_) _ (alloc_spec hx.toOk hc)
    rcases h with ⟨hnone, hd, hfree, hc₁⟩ | ⟨bn, l, rfl, hmem, hperm, hl, hframe⟩
    · refine ⟨fun ir hir => ?_, fun _ => ⟨hd ▸ hfree, fun a _ => by rw [hd], hc₁⟩⟩
      rw [hnone] at hir
      cases hir
    · refine ⟨fun ir hir => ?_, fun h => (nomatch h)⟩
      obtain rfl : bn = ir := Option.some.inj hir
      obtain ⟨hlt, hne, _⟩ := BmapAlloc.mem_freeList.1 hmem
      refine ⟨⟨hne, ?_, fun {d' off w} hp hir => ?_, hframe, fun h => absurd h0 h, List.length_replicate⟩, fun l' hl' => ?_⟩
      · rw [below_zeros]
        refine ⟨hperm.nodup_iff.1 (BmapAlloc.nodup_freeList _ _), fun a ha => ?_⟩
        rw [List.mem_singleton.1 ha]
        exact hlt
      · rw [below_zeros] at hp
        rw [h0]
        refine ⟨?_, fun a ha => hperm.mem_iff.2 (List.mem_cons_of_mem _ (hp.free a ha)), fun off' => ?_, fun a _ hf hb => ?_,
          fun a ha => .inr ?_, fun off' hoff => absurd (walk_zero d lvl off') hoff, fun a ha => .inr ?_⟩
        · rw [nodes_zero]
          exact hp.own.trans hperm.symm
        · rw [hp.val, look_zeros, walk_zero]
        · have hf' : a ≠ bn ∧ a ∉ freeList bxp d₁ := by
            rw [hperm.mem_iff, List.mem_cons, not_or] at hf
            exact hf
          exact (hp.frame a (by simpa using hf'.1) hf'.2 hb).trans (hframe a hb)
        · rcases hp.new a ha with h | h
          · rw [List.mem_singleton.1 h]
            exact hir h0
          · exact h
        · rcases hp.newPath a ha with h | h
          · rw [List.mem_singleton.1 h, path_eq_trail d' lvl off hne]
            exact List.mem_cons_self
          · exact h
      · cases hl'
        exact hl
  · rw [indputRoot, if_neg h0, rootEntries, if_neg h0]
    refine ⟨fun ir hir => ?_, fun h => (nomatch h)⟩
    obtain rfl : root = ir := Option.some.inj hir
    have hnodes := nodes_eq_below d lvl h0
    refine ⟨⟨h0, hnodes ▸ ho, fun {d' off w} hp _ => ?_, fun _ _ => rfl, fun _ => ⟨rfl, rfl⟩, length_entries _ _⟩, hc⟩
    have hwalk : walk d lvl root = look d lvl (entries d root) := funext fun off => walk_eq_look d lvl off h0
    have hpath : path d lvl root = fun off => root :: trail d lvl (entries d root) off :=
      funext fun off => path_eq_trail d lvl off h0
    rw [NodePuts, hnodes, hwalk, hpath]
    exact hp

/-- Writing the new pointers to the root. -/
theorem RootOk.put {root ir : Nat} (hr : RootOk bxp d d₁ lvl root ir E) (hx : DataOk bxp n)
    (hp : ListPuts bxp d₁ d₂ lvl E E' off w) (hc : CacheRep bxp d₂ c) (he : entries d' ir = E')
    (hother : ∀ a, a ≠ ir → d' a = d₂ a) (hplain : root = 0 → d'.plain ir) (hmono : ∀ a, d₂.plain a → d'.plain a) :
    NodePut bxp d lvl root off w (c, ir) d' := by
  have hlt := hr.owned.lt ir List.mem_cons_self
  refine ⟨fun _ => ⟨hr.lift (hp.keep hx hr.nonzero hr.owned he hother hmono) hplain, hlt, hc.congr fun a ha => hother a ?_⟩,
    fun h => absurd h hr.nonzero⟩
  rintro rfl
  exact hx.not_inBitmap hlt ha

theorem indput_spec (hx : DataOk bxp n) : ∀ (lvl : Nat) {root off : Nat} {w : Waddr} {c : BmapCacheType} {d : LDisk},
    CacheRep bxp d c → Owned bxp d (nodes d lvl root) → off < nIndirect ^ (lvl + 1) →
    twp n (indput bxp lvl root off w c) (NodePut bxp d lvl root off w) d
  | 0, root, off, w, c, d, hc, ho, hoff => by
    rw [indput]
    refine twp_seq (indputRoot_spec hx hc ho) fun ⟨c₁, r⟩ d₁ ⟨hroot, hnone⟩ => ?_
    cases r with
    | none => exact ⟨fun h => absurd rfl h, fun _ => hnone rfl⟩
    | some ir =>
      obtain ⟨hr, hc₁⟩ := hroot ir rfl
      have hir := hx.lt_disk (hr.owned.lt ir List.mem_cons_self)
      have hoff' : off < 512 := by simpa using hoff
      have hp : ListPuts bxp d₁ d₁ 0 (rootEntries d root) ((rootEntries d root).set off w) off w :=
        ⟨.refl _, fun _ h => h, fun off' => getD_set_eq _ _ (hr.len.symm ▸ hoff'), fun _ _ _ _ => rfl,
          fun _ h => .inl h, fun _ _ => rfl, fun _ h => .inl h⟩
      by_cases h0 : root = 0
      · simp only [if_pos h0]
        refine twp_seq (writeEntries_spec hir hr.nonzero (by simp)) fun _ d₂ ⟨he, hother, hplain⟩ => ?_
        rw [rootEntries, if_pos h0] at hp hr
        exact hr.put hx hp hc₁ he hother (fun _ => hplain ir (.inl rfl)) fun a ha => hplain a (.inr ha)
      · simp only [if_neg h0]
        obtain ⟨rfl, rfl⟩ := hr.same h0
        refine twp_seq (putEntry_spec hir hr.nonzero hoff') fun _ d₂ ⟨he, hother, hplain⟩ => ?_
        rw [rootEntries, if_neg h0] at hp hr
        exact hr.put hx hp hc₁ he hother (fun _ => hplain ir (.inl rfl)) fun a ha => hplain a (.inr ha)
  | lvl + 1, root, off, w, c, d, hc, ho, hoff => by
    rw [indput]
    refine twp_seq (indputRoot_spec hx hc ho) fun ⟨c₁, r⟩ d₁ ⟨hroot, hnone⟩ => ?_
    cases r with
    | none => exact ⟨fun h => absurd rfl h, fun _ => hnone rfl⟩
    | some ir =>
      obtain ⟨hr, hc₁⟩ := hroot ir rfl
      have hir := hx.lt_disk (hr.owned.lt ir List.mem_cons_self)
      have hoff' : off < 512 * nIndirect ^ (lvl + 1) := by rwa [Nat.pow_succ, Nat.mul_comm] at hoff
      have hi := div_pow_lt hoff
      have hblocks : twp n (indputGetBlocks (root == 0) ir) (fun r d' => d' = d₁ ∧ r = rootEntries d root) d₁ := by
        by_cases h0 : root = 0
        · rw [indputGetBlocks, rootEntries, if_pos h0, h0]
          exact ⟨rfl, rfl⟩
        · obtain ⟨rfl, rfl⟩ := hr.same h0
          rw [indputGetBlocks, rootEntries, if_neg h0, if_neg (by simpa using h0)]
          exact readEntries_spec hir ⟨rfl, rfl⟩
      refine twp_seq hblocks fun E d₁' ⟨hd, hE⟩ => ?_
      subst hd
      rw [← hE] at hr
      have ho₁ : Owned bxp d₁' (kids d₁' lvl E) := hr.owned.sublist (List.sublist_cons_self _ _)
      have hsub := nodes_getD_sublist d₁' lvl (hr.len.symm ▸ hi)
      refine twp_seq (indput_spec hx lvl hc₁ (ho₁.sublist hsub) (Nat.mod_lt _ (pow_pos' _))) fun ⟨c₂, v⟩ d₂ hput => ?_
      by_cases hv : v = 0
      · simp only [if_pos hv]
        obtain ⟨hfree, hframe, hc₂⟩ := hput.fails hv
        exact ⟨fun h => absurd rfl h, fun _ => ⟨hfree, fun a ha => (hframe a ha).trans (hr.frame a ha), hc₂⟩⟩
      · simp only [if_neg hv]
        obtain ⟨hnode, hlt, hc₂⟩ := hput.done hv
        have hbound := hx.bound
        have hp := hnode.setChild hoff' hx ho₁ hr.len (by omega)
        rw [indputUpdIfNecessary]
        by_cases hsame : v = (E.getD (off / nIndirect ^ (lvl + 1)) 0).toNat
        · -- the child is where it was
          rw [if_pos hsame]
          have hset : E.set (off / nIndirect ^ (lvl + 1)) (BitVec.ofNat 64 v) = E := by
            rw [hsame, BitVec.ofNat_toNat, BitVec.setWidth_eq, List.getD_eq_getElem?_getD,
              List.getElem?_eq_getElem (hr.len.symm ▸ hi)]
            exact List.set_getElem_self _
          rw [hset] at hp
          have h0 : root ≠ 0 := by
            rintro rfl
            rw [hE, rootEntries, if_pos rfl, getD_zeros] at hsame
            exact hv hsame
          obtain ⟨rfl, rfl⟩ := hr.same h0
          have hir' : ir ∉ kids d₁' lvl E ++ freeList bxp d₁' := (List.nodup_cons.1 hr.owned.nodup).1
          have hd₂ : d₂ ir = d₁' ir := by
            refine hnode.frame ir (fun h => ?_) (fun h => ?_)
              (hx.not_inBitmap (hr.owned.lt ir List.mem_cons_self))
            · exact hir' (List.mem_append_left _ (nodes_getD_sub_kids h))
            · exact hir' (List.mem_append_right _ h)
          refine hr.put hx hp hc₂ ?_ (fun _ _ => rfl) (fun h => absurd h h0) fun _ h => h
          rw [entries_congr hd₂, hE, rootEntries, if_neg h0]
        · rw [if_neg hsame]
          refine twp_seq (writeEntries_spec hir hr.nonzero (by rw [List.length_set, hr.len])) fun _ d₃ ⟨he, hother, hplain⟩ => ?_
          exact hr.put hx hp hc₂ he hother (fun _ => hplain ir (.inl rfl)) fun a ha => hplain a (.inr ha)

end Fscq.BlockPtr
