import Fscq.Fuse.Defs
import Mathlib.Data.List.GetD

/-!
# Byte ranges and their blocks

How `computeRangesInt` cuts a range: an empty range gives nothing or an empty piece, a range inside one block one piece,
and a longer range a piece up to the end of the block and the pieces of the rest (`ranges_zero`, `ranges_short`,
`ranges_long`). So the pieces cut a range exactly (`Cuts`, `ranges_cut_exactly`). `File.byte` is the byte of a file at a
position, and `writeBytes` the reference for writes.
-/

namespace Fscq.Fuse

theorem blocksize_eq : blocksize = 4096 := rfl

/-! ## Pieces of a range -/

theorem enumFromTo_nil {a b : Int} (h : b < a) : enumFromTo a b = [] := by
  rw [enumFromTo, show (b - a + 1).toNat = 0 by omega]; rfl

theorem enumFromTo_cons {a b : Int} (h : a ≤ b) : enumFromTo a b = a :: enumFromTo (a + 1) b := by
  rw [enumFromTo, show (b - a + 1).toNat = (b - (a + 1) + 1).toNat + 1 by omega, List.range_succ_eq_map, List.map_cons,
    List.map_map, enumFromTo]
  refine congrArg₂ List.cons (by simp) (List.map_congr_left fun i _ => ?_)
  simp only [Function.comp_apply, Nat.succ_eq_add_one]
  omega

theorem ranges_zero (o : Nat) :
    computeRangesInt o 0 = if o % 4096 = 0 then [] else [⟨(o / 4096 : Nat), (o % 4096 : Nat), 0⟩] := by
  simp only [computeRangesInt, blocksize_eq]
  split
  · rename_i h
    rw [enumFromTo_nil (by omega)]
    rfl
  · rename_i h
    rw [enumFromTo_cons (by omega), enumFromTo_nil (by omega)]
    simp only [List.length_cons, List.length_nil, Nat.zero_add, Nat.sub_self, List.replicate_zero, List.append_nil,
      List.nil_append, List.zip_cons_cons, List.zip_nil_right, List.map_cons, List.map_nil, List.cons.injEq, and_true,
      BlockRange.mk.injEq]
    omega

theorem ranges_short {o c : Nat} (hc : 0 < c) (hle : o % 4096 + c ≤ 4096) :
    computeRangesInt o c = [⟨(o / 4096 : Nat), (o % 4096 : Nat), c⟩] := by
  simp only [computeRangesInt, blocksize_eq]
  rw [enumFromTo_cons (by omega), enumFromTo_nil (by omega)]
  simp only [List.length_cons, List.length_nil, Nat.zero_add, Nat.sub_self, List.replicate_zero, List.append_nil,
    List.nil_append, List.zip_cons_cons, List.zip_nil_right, List.map_cons, List.map_nil, List.cons.injEq, and_true,
    BlockRange.mk.injEq]
  omega

theorem ranges_long {o c : Nat} (hlt : 4096 < o % 4096 + c) :
    computeRangesInt o c = ⟨(o / 4096 : Nat), (o % 4096 : Nat), (4096 - o % 4096 : Nat)⟩ ::
      computeRangesInt (o + (4096 - o % 4096) : Nat) (c - (4096 - o % 4096) : Nat) := by
  have hstart : ((o + (4096 - o % 4096) : Nat) : Int) % 4096 = 0 := by omega
  have hfirst : ((o + (4096 - o % 4096) : Nat) : Int) / 4096 = (o : Int) / 4096 + 1 := by omega
  have hend : ((o + (4096 - o % 4096) : Nat) : Int) + (c - (4096 - o % 4096) : Nat) - 1 = o + c - 1 := by omega
  simp only [computeRangesInt, blocksize_eq, hstart, hfirst, hend]
  -- both sides list the blocks after the first
  obtain ⟨k, hk⟩ : ∃ k, (enumFromTo ((o : Int) / 4096 + 1) ((o + c - 1) / 4096)).length = k + 1 := by
    rw [enumFromTo_cons (by omega)]; exact ⟨_, List.length_cons⟩
  rw [enumFromTo_cons (a := (o : Int) / 4096) (by omega)]
  simp only [List.length_cons, hk, Nat.add_sub_cancel, List.replicate_succ, List.cons_append, List.nil_append,
    List.zip_cons_cons, List.map_cons, List.cons.injEq, BlockRange.mk.injEq, and_true]
  omega

/-! ## Bytes of a list -/

theorem take_drop_eq_map_range (l : Bytes) {off cnt : Nat} (h : off + cnt ≤ l.length) :
    (l.drop off).take cnt = (List.range cnt).map fun j => l.getD (off + j) 0 := by
  refine List.ext_getElem (by simp; omega) fun j h₁ h₂ => ?_
  simp only [List.length_map, List.length_range] at h₂
  simp [List.getD_eq_getElem?_getD, List.getElem?_eq_getElem (show off + j < l.length by omega)]

theorem map_range_add (g : Nat → UInt8) (a b : Nat) :
    (List.range (a + b)).map g = (List.range a).map g ++ (List.range b).map fun j => g (a + j) := by
  rw [List.range_add, List.map_append, List.map_map]; rfl

theorem getD_splice {old piece : Bytes} {off : Nat} (hlen : off + piece.length ≤ old.length) (j : Nat) :
    (old.take off ++ (piece ++ old.drop (off + piece.length))).getD j 0 =
      if off ≤ j ∧ j < off + piece.length then piece.getD (j - off) 0 else old.getD j 0 := by
  simp only [List.getD_eq_getElem?_getD, List.getElem?_append, List.length_take, List.getElem?_take,
    List.getElem?_drop, Nat.min_eq_left (Nat.le_of_add_right_le hlen)]
  by_cases h₁ : j < off
  · rw [if_pos h₁, if_pos h₁, if_neg (by omega)]
  · rw [if_neg h₁]
    by_cases h₂ : j < off + piece.length
    · rw [if_pos (by omega), if_pos (by omega)]
    · rw [if_neg (by omega), if_neg (by omega), show off + piece.length + (j - off - piece.length) = j by omega]

/-- What a write does to a byte string: gaps are filled with zeros. -/
def writeBytes (s : Bytes) (o : Nat) (b : Bytes) : Bytes :=
  (s ++ List.replicate (o - s.length) 0).take o ++ b ++ s.drop (o + b.length)

/-- The intersection of a range with a byte string. -/
def readBytes (s : Bytes) (o c : Nat) : Bytes := (s.drop o).take c

theorem length_writeBytes (s : Bytes) (o : Nat) (b : Bytes) :
    (writeBytes s o b).length = max s.length (o + b.length) := by
  simp [writeBytes]; omega

theorem getD_writeBytes (s : Bytes) (o : Nat) (b : Bytes) (i : Nat) :
    (writeBytes s o b).getD i 0 = if o ≤ i ∧ i < o + b.length then b.getD (i - o) 0 else s.getD i 0 := by
  have hlen : (s ++ List.replicate (o - s.length) 0).length = max s.length o := by simp; omega
  have hmin : min o (max s.length o) = o := by omega
  have hpre : (s ++ List.replicate (o - s.length) 0)[i]?.getD 0 = s[i]?.getD 0 := by
    simp only [List.getElem?_append, List.getElem?_replicate]
    split
    · rfl
    · rename_i h
      rw [List.getElem?_eq_none (by omega)]
      split <;> rfl
  rw [writeBytes, List.getD_eq_getElem?_getD, List.getElem?_append, List.length_append, List.length_take, hlen, hmin,
    List.getElem?_append, List.length_take, hlen, hmin, List.getElem?_take, List.getElem?_drop,
    List.getD_eq_getElem?_getD, List.getD_eq_getElem?_getD]
  by_cases h₁ : i < o
  · rw [if_pos (by omega), if_pos h₁, if_pos h₁, if_neg (by omega), hpre]
  · by_cases h₂ : i < o + b.length
    · rw [if_pos h₂, if_neg h₁, if_pos (by omega)]
    · rw [if_neg h₂, if_neg (by omega), show o + b.length + (i - (o + b.length)) = i by omega]

/-! ## Bytes of a file -/

def File.byte (f : File) (i : Nat) : UInt8 := (f.blocks.getD (i / 4096) []).getD (i % 4096) 0

/-- All blocks have the size of a block. -/
def File.BlocksOk (f : File) : Prop := ∀ b ∈ f.blocks, b.length = 4096

theorem File.byte_eq {f : File} {blk : Nat} (h : blk < f.blocks.length) {j : Nat} (hj : j < 4096) :
    f.byte (blk * 4096 + j) = f.blocks[blk].getD j 0 := by
  rw [byte, show (blk * 4096 + j) / 4096 = blk by omega, show (blk * 4096 + j) % 4096 = j by omega,
    List.getD_eq_getElem f.blocks [] h]

theorem File.byte_set (f : File) {blk : Nat} (h : blk < f.blocks.length) (b : Bytes) (sz : BitVec 64) (i : Nat) :
    File.byte ⟨f.blocks.set blk b, sz⟩ i = if i / 4096 = blk then b.getD (i % 4096) 0 else f.byte i := by
  simp only [byte, List.getD_eq_getElem?_getD, List.getElem?_set, h, if_true]
  split
  · rename_i he
    rw [if_pos he.symm]; rfl
  · rename_i he
    rw [if_neg (Ne.symm he)]

/-- Zero blocks at the end add no bytes. -/
theorem File.byte_append_zero (bl : List Bytes) (sz sz' : BitVec 64) (n i : Nat) :
    File.byte ⟨bl ++ List.replicate n zeroBlock, sz⟩ i = File.byte ⟨bl, sz'⟩ i := by
  have hz : ∀ j, zeroBlock.getD j 0 = 0 := fun j => by
    simp only [zeroBlock, List.getD_eq_getElem?_getD, List.getElem?_replicate]
    split <;> rfl
  simp only [byte]
  by_cases hlt : i / 4096 < bl.length
  · rw [List.getD_append _ _ _ _ hlt]
  · rw [List.getD_append_right _ _ _ _ (by omega), List.getD_eq_default bl [] (by omega)]
    by_cases hn : i / 4096 - bl.length < n
    · rw [List.getD_replicate _ hn, hz]; rfl
    · rw [List.getD_eq_default (List.replicate n zeroBlock) [] (by rw [List.length_replicate]; omega)]

/-! ## Pieces of a buffer -/

section Pieces

variable {o p k : Nat} {b : Bytes}

/-- The part of the buffer that goes to the `k` bytes at `p`. -/
def bufPiece (o : Nat) (b : Bytes) (p k : Nat) : Bytes := (b.drop (p - o)).take k

theorem length_bufPiece (hp : o ≤ p) (hk : p + k ≤ o + b.length) : (bufPiece o b p k).length = k := by
  simp [bufPiece]; omega

theorem getD_bufPiece {j : Nat} (hj : j < k) : (bufPiece o b p k).getD j 0 = b.getD (p - o + j) 0 := by
  simp [bufPiece, List.getD_eq_getElem?_getD, hj]

/-- A range with its part of the buffer. -/
def withPiece (o : Nat) (b : Bytes) (r : BlockRange) : BlockRange × Bytes :=
  (r, (b.drop (r.blk * blocksize + r.off - o).toNat).take r.count.toNat)

theorem computeRangePieces_eq (o : Nat) (b : Bytes) :
    computeRangePieces o b = (computeRangesInt o b.length).map (withPiece o b) := by
  simp only [computeRangePieces]
  generalize computeRangesInt o b.length = rs
  induction rs with
  | nil => rfl
  | cons r rs ih => rw [List.map_cons, List.zip_cons_cons, ih]; rfl

theorem withPiece_eq (hp : o ≤ p) : withPiece o b ⟨(p / 4096 : Nat), (p % 4096 : Nat), k⟩ =
    (⟨(p / 4096 : Nat), (p % 4096 : Nat), k⟩, bufPiece o b p k) := by
  have hoff : ((p / 4096 : Nat) * blocksize + (p % 4096 : Nat) - (o : Int)).toNat = p - o := by
    rw [blocksize_eq]; omega
  simp only [withPiece, bufPiece, hoff, Int.toNat_natCast]

end Pieces

/-! ## What the pieces cover -/

def BlockRange.start (r : BlockRange) : Int := r.blk * blocksize + r.off

def BlockRange.stop (r : BlockRange) : Int := r.start + r.count

/-- The ranges cut the `n` positions from `off` on: they lie in consecutive blocks, each after the one before it, and have just
these positions. -/
structure Cuts (off n : Int) (rs : List BlockRange) : Prop where
  blocks : ∀ (i : Nat) (r : BlockRange), rs[i]? = some r → r.blk = off / blocksize + i
  bounds : ∀ r ∈ rs, 0 ≤ r.off ∧ 1 ≤ r.count ∧ r.off + r.count ≤ blocksize
  ordered : rs.Pairwise fun r r' => r.stop ≤ r'.start
  union : ∀ q, (∃ r ∈ rs, r.start ≤ q ∧ q < r.stop) ↔ off ≤ q ∧ q < off + n

section Cuts

variable {o p c : Nat} {b : Bytes}

/-- A range inside one block. -/
theorem cuts_short (hc : 0 < c) (hle : p % 4096 + c ≤ 4096) :
    Cuts p c [⟨(p / 4096 : Nat), (p % 4096 : Nat), c⟩] where
  blocks i r hr := by
    obtain ⟨hi, rfl⟩ := List.getElem?_eq_some_iff.mp hr
    rw [List.length_singleton] at hi
    simp only [List.getElem_singleton, blocksize_eq]
    omega
  bounds r hr := by
    rw [List.mem_singleton] at hr
    subst hr
    simp only [blocksize_eq]
    omega
  ordered := List.pairwise_singleton _ _
  union q := by
    simp only [List.mem_singleton, exists_eq_left, BlockRange.start, BlockRange.stop, blocksize_eq]
    omega

/-- A piece up to the end of its block, before the pieces of the rest. -/
theorem Cuts.cons {rs : List BlockRange} (hlt : 4096 < p % 4096 + c)
    (hrs : Cuts (p + (4096 - p % 4096) : Nat) (c - (4096 - p % 4096) : Nat) rs) :
    Cuts p c (⟨(p / 4096 : Nat), (p % 4096 : Nat), (4096 - p % 4096 : Nat)⟩ :: rs) where
  blocks i r hr := by
    cases i with
    | zero =>
      rw [List.getElem?_cons_zero, Option.some.injEq] at hr
      subst hr
      simp only [blocksize_eq]
      omega
    | succ i =>
      have hblk := hrs.blocks i r hr
      rw [blocksize_eq] at hblk ⊢
      omega
  bounds r hr := by
    rcases List.mem_cons.mp hr with rfl | hr
    · simp only [blocksize_eq]
      omega
    · exact hrs.bounds r hr
  ordered := by
    refine List.pairwise_cons.mpr ⟨fun r hr => ?_, hrs.ordered⟩
    -- the start of a later piece is a position of the rest
    have hb := hrs.bounds r hr
    have hstart := (hrs.union r.start).mp ⟨r, hr, by rw [BlockRange.stop]; omega⟩
    rw [BlockRange.stop, BlockRange.start, blocksize_eq]
    simp only
    omega
  union q := by
    have hrest := hrs.union q
    simp only [List.mem_cons, exists_eq_or_imp, hrest]
    simp only [BlockRange.start, BlockRange.stop, blocksize_eq]
    omega

theorem cuts_ranges (c : Nat) : ∀ p : Nat, 0 < c → Cuts p c (computeRangesInt p c) := by
  -- on the length: the pieces after the first are those of the rest of the range
  induction c using Nat.strongRecOn with
  | ind c ih =>
    intro p hc
    by_cases hshort : p % 4096 + c ≤ 4096
    · rw [ranges_short hc hshort]
      exact cuts_short hc hshort
    · rw [ranges_long (by omega)]
      exact (ih (c - (4096 - p % 4096)) (by omega) _ (by omega)).cons (by omega)

/-- The pieces of a buffer from the position `p` on are its bytes from there on. -/
theorem flatten_pieces (c : Nat) : ∀ p : Nat, 0 < c → o ≤ p → p + c = o + b.length →
    (((computeRangesInt p c).map (withPiece o b)).map Prod.snd).flatten = b.drop (p - o) := by
  induction c using Nat.strongRecOn with
  | ind c ih =>
    intro p hc hp hend
    by_cases hshort : p % 4096 + c ≤ 4096
    · rw [ranges_short hc hshort, List.map_singleton, withPiece_eq hp, List.map_singleton, List.flatten_singleton, bufPiece]
      exact List.take_of_length_le (by rw [List.length_drop]; omega)
    · have hrest := ih (c - (4096 - p % 4096)) (by omega) (p + (4096 - p % 4096)) (by omega) (by omega) (by omega)
      rw [ranges_long (by omega), List.map_cons, withPiece_eq hp, List.map_cons, List.flatten_cons, hrest, bufPiece,
        show p + (4096 - p % 4096) - o = p - o + (4096 - p % 4096) by omega, ← List.drop_drop, List.take_append_drop]

theorem length_withPiece {r : BlockRange} (hcount : 1 ≤ r.count) (hstart : (o : Int) ≤ r.start)
    (hstop : r.stop ≤ (o + b.length : Nat)) : ((withPiece o b r).2.length : Int) = r.count := by
  rw [BlockRange.stop] at hstop
  rw [withPiece, List.length_take, List.length_drop, ← BlockRange.start]
  omega

/-- The ranges of a buffer cut its positions, and the pieces of the buffer have the lengths of their ranges and are together
the buffer. -/
theorem ranges_cut_exactly {off : Int} (ho : 0 ≤ off) {buf : Bytes} (hbuf : 1 ≤ buf.length) :
    Cuts off buf.length (computeRangesInt off buf.length) ∧
    (computeRangePieces off buf).map Prod.fst = computeRangesInt off buf.length ∧
    ((computeRangePieces off buf).map Prod.snd).flatten = buf ∧
    ∀ q ∈ computeRangePieces off buf, (q.2.length : Int) = q.1.count := by
  obtain ⟨o, rfl⟩ := Int.eq_ofNat_of_zero_le ho
  have hcuts := cuts_ranges buf.length o hbuf
  rw [computeRangePieces_eq]
  refine ⟨hcuts, ?_, ?_, fun q hq => ?_⟩
  · rw [List.map_map]
    exact List.map_id _
  · rw [flatten_pieces buf.length o hbuf (Nat.le_refl o) rfl, Nat.sub_self, List.drop_zero]
  · obtain ⟨r, hr, rfl⟩ := List.mem_map.mp hq
    obtain ⟨-, hcount, -⟩ := hcuts.bounds r hr
    -- both ends of the piece are positions of the buffer
    have hfirst := (hcuts.union r.start).mp ⟨r, hr, Int.le_refl _, by rw [BlockRange.stop]; omega⟩
    have hlast := (hcuts.union (r.stop - 1)).mp ⟨r, hr, by rw [BlockRange.stop]; omega, by omega⟩
    exact length_withPiece hcount hfirst.1 (by omega)

theorem ranges_cut_exactly_small :
    Cuts 4090 10 (computeRangesInt 4090 10) ∧
    (computeRangePieces 4090 (List.replicate 10 7)).map Prod.fst = computeRangesInt 4090 10 ∧
    ((computeRangePieces 4090 (List.replicate 10 7)).map Prod.snd).flatten = List.replicate 10 7 ∧
    ∀ q ∈ computeRangePieces 4090 (List.replicate 10 7), (q.2.length : Int) = q.1.count :=
  @ranges_cut_exactly 4090 (by decide) (List.replicate 10 7) (by decide)

end Cuts

end Fscq.Fuse
