import Fscq.Fs.BlockPut

/-!
# Trees side by side

The block list of an inode is in several places, one after the other: the record and three trees. A `Forest` is such a
place with `M` entries, and `join` puts one behind the other. Zeroing or storing entries of one part is the same for the
whole, at the offset where the part begins (`zeroes_left`, `zeroes_right`, `puts_left`, `puts_right`), since the nodes of
the other parts are not touched.
-/

namespace Fscq.BlockPtr

open TxnLogic BmapAllocCache
open BmapAlloc (freeList size DataOk)

/-- `M` entries that are found through nodes. They depend on the nodes only. -/
structure Forest (M : Nat) where
  nodes : LDisk → List Nat
  walk : LDisk → Nat → Waddr
  path : LDisk → Nat → List Nat
  congr : ∀ {d d' : LDisk}, (∀ a ∈ nodes d, d' a = d a) → nodes d' = nodes d ∧ walk d' = walk d ∧ path d' = path d

namespace Forest

variable {n M K : Nat} {d d₁ d' : LDisk} {bxp : BallocXparams}

/-- Entries that are not on the disk. -/
def leaves (bs : List Waddr) (M : Nat) : Forest M where
  nodes _ := []
  walk _ off := bs.getD off 0
  path _ _ := []
  congr _ := ⟨rfl, rfl, rfl⟩

/-- The tree of height `lvl` at `bn`. -/
def tree (lvl bn : Nat) : Forest (nIndirect ^ (lvl + 1)) where
  nodes d := BlockPtr.nodes d lvl bn
  walk d := BlockPtr.walk d lvl bn
  path d := BlockPtr.path d lvl bn
  congr h := ⟨nodes_congr h, funext (walk_congr h), funext (path_congr h)⟩

def join (F : Forest M) (G : Forest K) : Forest (M + K) where
  nodes d := F.nodes d ++ G.nodes d
  walk d off := if off < M then F.walk d off else G.walk d (off - M)
  path d off := if off < M then F.path d off else G.path d (off - M)
  congr h := by
    obtain ⟨hnF, hwF, hpF⟩ := F.congr fun a ha => h a (List.mem_append_left _ ha)
    obtain ⟨hnG, hwG, hpG⟩ := G.congr fun a ha => h a (List.mem_append_right _ ha)
    exact ⟨by rw [hnF, hnG], by rw [hwF, hwG], by rw [hpF, hpG]⟩

/-- All nodes are on the way to one of the first `k` entries. -/
def Within (d : LDisk) (F : Forest M) (k : Nat) : Prop := ∀ a ∈ F.nodes d, ∃ off < k, off < M ∧ a ∈ F.path d off

theorem Within.congr {F : Forest M} {k : Nat} (h : F.Within d k) (hsame : ∀ a ∈ F.nodes d, d' a = d a) : F.Within d' k := by
  obtain ⟨hn, _, hp⟩ := F.congr hsame
  unfold Within
  rw [hn, hp]
  exact h

theorem Within.mono {F : Forest M} {k k' : Nat} (h : F.Within d k) (hk : k ≤ k') : F.Within d k' := fun a ha => by
  obtain ⟨off, hlt, hM, hin⟩ := h a ha
  exact ⟨off, Nat.lt_of_lt_of_le hlt hk, hM, hin⟩

theorem Within.join {F : Forest M} {G : Forest K} {k : Nat} (hF : F.Within d k) (hG : G.Within d (k - M)) :
    (F.join G).Within d k := fun a ha => by
  rcases List.mem_append.1 ha with h | h
  · obtain ⟨off, hk, hM, hin⟩ := hF a h
    refine ⟨off, hk, by omega, ?_⟩
    simp only [Forest.join]
    rw [if_pos hM]
    exact hin
  · obtain ⟨off, hk, hK, hin⟩ := hG a h
    refine ⟨M + off, by omega, by omega, ?_⟩
    simp only [Forest.join]
    rw [if_neg (by omega), Nat.add_sub_cancel_left]
    exact hin

/-- Clearing the end of a tree leaves the nodes for the beginning. -/
theorem within_of_clears {lvl bn v k : Nat} (hcl : NodeClears bxp d d' lvl bn v k (nIndirect ^ (lvl + 1) - k)) :
    (tree lvl v).Within d' k := fun a ha => by
  obtain ⟨off, hlt, hout, hin⟩ := hcl.spare a ha
  exact ⟨off, by omega, hlt, hin⟩

/-! ## Zeroing -/

/-- `F` on the disk `d` becomes `F'` on the disk `d'`, with zeros in the range. -/
def ZeroesTo (bxp : BallocXparams) (d d' : LDisk) (F F' : Forest M) (start len : Nat) : Prop :=
  Zeroes bxp d d' (F.nodes d) (F'.nodes d') (F.walk d) (F'.walk d') (F.path d) (F'.path d') start len

section Zeroing

variable {F F' : Forest M} {G : Forest K} {s l : Nat}

theorem zeroes_left (h : ZeroesTo bxp d d' F F' s l) (hx : DataOk bxp n) (ho : Owned bxp d ((F.join G).nodes d))
    (hl : l ≤ M - s) : ZeroesTo bxp d d' (F.join G) (F'.join G) s l := by
  have hsame := h.beside hx ho
  obtain ⟨hn, hw, hp⟩ := G.congr hsame
  refine ⟨?_, fun a ha => ?_, fun off => ?_, fun a ha => h.frame a fun hin => ha (List.mem_append_left _ hin),
    fun off hoff => ?_, fun a ha hz => ?_⟩
  · have hown := List.perm_iff_count.1 h.own
    simp only [join]
    rw [hn, List.perm_iff_count]
    intro a
    simp only [List.count_append] at hown ⊢
    have := hown a
    omega
  · simp only [join] at ha ⊢
    rw [hn, List.mem_append] at ha
    rcases ha with hin | hin
    · exact List.mem_append_left _ (h.sub a hin)
    · exact List.mem_append_right _ hin
  · simp only [join]
    rw [hw]
    by_cases hM : off < M
    · rw [if_pos hM, if_pos hM]
      exact h.val off
    · rw [if_neg hM, if_neg hM, if_neg (by omega)]
  · simp only [join] at hoff ⊢
    by_cases hM : off < M
    · rw [if_pos hM] at hoff ⊢
      rw [if_pos hM, h.path off hoff]
    · rw [if_neg hM, if_neg hM, hp]
  · simp only [join] at ha
    rw [hn, List.mem_append] at ha
    rcases ha with hin | hin
    · exact h.tidy a hin hz
    · rw [← entries_congr (hsame a hin)]
      exact hz

theorem zeroes_right (h : ZeroesTo bxp d d' F F' s l) (hx : DataOk bxp n) (ho : Owned bxp d ((G.join F).nodes d)) :
    ZeroesTo bxp d d' (G.join F) (G.join F') (K + s) l := by
  have hsame := h.beside hx (ho.perm List.perm_append_comm)
  obtain ⟨hn, hw, hp⟩ := G.congr hsame
  refine ⟨?_, fun a ha => ?_, fun off => ?_, fun a ha => h.frame a fun hin => ha (List.mem_append_right _ hin),
    fun off hoff => ?_, fun a ha hz => ?_⟩
  · have hown := List.perm_iff_count.1 h.own
    simp only [join]
    rw [hn, List.perm_iff_count]
    intro a
    simp only [List.count_append] at hown ⊢
    have := hown a
    omega
  · simp only [join] at ha ⊢
    rw [hn, List.mem_append] at ha
    rcases ha with hin | hin
    · exact List.mem_append_left _ hin
    · exact List.mem_append_right _ (h.sub a hin)
  · simp only [join]
    rw [hw]
    by_cases hK : off < K
    · rw [if_pos hK, if_pos hK, if_neg (by omega)]
    · rw [if_neg hK, if_neg hK, h.val]
      congr 1
      rw [eq_iff_iff]
      omega
  · simp only [join] at hoff ⊢
    by_cases hK : off < K
    · rw [if_pos hK, if_pos hK, hp]
    · rw [if_neg hK] at hoff ⊢
      rw [if_neg hK, h.path _ hoff]
  · simp only [join] at ha
    rw [hn, List.mem_append] at ha
    rcases ha with hin | hin
    · rw [← entries_congr (hsame a hin)]
      exact hz
    · exact h.tidy a hin hz

end Zeroing

/-! ## Storing -/

/-- `F` on the disk `d` becomes `F'` on the disk `d'`, with `w` at `off`. -/
def PutsTo (bxp : BallocXparams) (d d' : LDisk) (F F' : Forest M) (off : Nat) (w : Waddr) : Prop :=
  Puts bxp d d' (F.nodes d) (F'.nodes d') (F.walk d) (F'.walk d') (F.path d) (F'.path d') off w

section Storing

variable {F F' : Forest M} {G : Forest K} {o : Nat} {w : Waddr}

theorem puts_left (h : PutsTo bxp d d' F F' o w) (hx : DataOk bxp n) (ho : Owned bxp d ((F.join G).nodes d)) (hlt : o < M) :
    PutsTo bxp d d' (F.join G) (F'.join G) o w := by
  obtain ⟨hn, hw, hp⟩ := G.congr (h.beside hx ho)
  refine ⟨?_, h.free, fun off => ?_, fun a ha => h.frame a fun hin => ha (List.mem_append_left _ hin), fun a ha => ?_,
    fun off hoff => ?_, fun a ha => ?_⟩
  · have hown := List.perm_iff_count.1 h.own
    simp only [join]
    rw [hn, List.perm_iff_count]
    intro a
    simp only [List.count_append] at hown ⊢
    have := hown a
    omega
  · simp only [join]
    rw [hw]
    by_cases hM : off < M
    · rw [if_pos hM, if_pos hM]
      exact h.val off
    · rw [if_neg hM, if_neg hM, if_neg (by omega)]
  · simp only [join] at ha ⊢
    rw [hn, List.mem_append] at ha
    rcases ha with hin | hin
    · exact (h.new a hin).imp (List.mem_append_left _) id
    · exact .inl (List.mem_append_right _ hin)
  · simp only [join] at hoff ⊢
    by_cases hM : off < M
    · rw [if_pos hM] at hoff ⊢
      rw [if_pos hM, h.path off hoff]
    · rw [if_neg hM, if_neg hM, hp]
  · simp only [join] at ha ⊢
    rw [hn, List.mem_append] at ha
    rw [if_pos hlt]
    rcases ha with hin | hin
    · exact (h.newPath a hin).imp (List.mem_append_left _) id
    · exact .inl (List.mem_append_right _ hin)

theorem puts_right (h : PutsTo bxp d d' F F' o w) (hx : DataOk bxp n) (ho : Owned bxp d ((G.join F).nodes d)) :
    PutsTo bxp d d' (G.join F) (G.join F') (K + o) w := by
  obtain ⟨hn, hw, hp⟩ := G.congr (h.beside hx (ho.perm List.perm_append_comm))
  refine ⟨?_, h.free, fun off => ?_, fun a ha => h.frame a fun hin => ha (List.mem_append_right _ hin), fun a ha => ?_,
    fun off hoff => ?_, fun a ha => ?_⟩
  · have hown := List.perm_iff_count.1 h.own
    simp only [join]
    rw [hn, List.perm_iff_count]
    intro a
    simp only [List.count_append] at hown ⊢
    have := hown a
    omega
  · simp only [join]
    rw [hw]
    by_cases hK : off < K
    · rw [if_pos hK, if_pos hK, if_neg (by omega)]
    · rw [if_neg hK, if_neg hK, h.val]
      congr 1
      rw [eq_iff_iff]
      omega
  · simp only [join] at ha ⊢
    rw [hn, List.mem_append] at ha
    rcases ha with hin | hin
    · exact .inl (List.mem_append_left _ hin)
    · exact (h.new a hin).imp (List.mem_append_right _) id
  · simp only [join] at hoff ⊢
    by_cases hK : off < K
    · rw [if_pos hK, if_pos hK, hp]
    · rw [if_neg hK] at hoff ⊢
      rw [if_neg hK, h.path _ hoff]
  · simp only [join] at ha ⊢
    rw [hn, List.mem_append] at ha
    rw [if_neg (by omega), Nat.add_sub_cancel_left]
    rcases ha with hin | hin
    · exact .inl (List.mem_append_left _ hin)
    · exact (h.newPath a hin).imp (List.mem_append_right _) id

end Storing

end Forest

end Fscq.BlockPtr
