import Fscq.Fuse.Ranges

/-!
# Files are byte strings

A file represents a byte string when its size is the length of the string, it has just the blocks that the string needs,
and its bytes are those of the string, with zeros up to the end of the last block (`Rep`). Reads return the bytes of
their range (`fscqRead_spec`), writes replace theirs (`fscqWrite_spec`), and so over any history of calls.
-/

namespace Fscq.Fuse

open BlockPtr (nBlocks)

variable {α β : Type} {f f' : File} {s : Bytes}

theorem bind_run {x : StateT File Option α} {g : α → StateT File Option β} {a : α} (h : x f = some (a, f')) :
    (x >>= g) f = g a f' := by
  simp only [bind, StateT.bind, h, Option.bind_some]

theorem pure_run (a : α) : (pure a : StateT File Option α) f = some (a, f) := rfl

/-- The file represents the byte string. -/
structure Rep (f : File) (s : Bytes) : Prop where
  size : f.size.toNat = s.length
  blocksOk : f.BlocksOk
  count : f.blocks.length = (s.length + 4095) / 4096
  limit : f.blocks.length ≤ nBlocks
  bytes : ∀ i, f.byte i = s.getD i 0

theorem Rep.length_lt (h : Rep f s) : s.length < 2 ^ 63 := by
  have hc := h.count
  have hl := h.limit
  simp only [nBlocks, INODE.NDirect, BlockPtr.nIndirect] at hl
  omega

/-! ## Reads -/

theorem File.read_run {blk : Nat} (h : blk < f.blocks.length) : File.read blk f = some (f.blocks[blk], f) := by
  simp [File.read, h]

variable (fail : Option Errno)

theorem readPiece_run (hok : f.BlocksOk) {p k : Nat} (hblk : p / 4096 < f.blocks.length) (hk : p % 4096 + k ≤ 4096) :
    readPiece (fileCalls fail) ⟨(p / 4096 : Nat), (p % 4096 : Nat), k⟩ f =
      some ((List.range k).map fun j => f.byte (p + j), f) := by
  have hlen : f.blocks[p / 4096].length = 4096 := hok _ (List.getElem_mem hblk)
  refine (bind_run (File.read_run hblk)).trans ?_
  rw [pure_run, Int.toNat_natCast, Int.toNat_natCast, take_drop_eq_map_range _ (by omega)]
  refine congrArg (fun l => some (l, f)) (List.map_congr_left fun j hj => ?_)
  have hj' : j < k := List.mem_range.mp hj
  rw [← File.byte_eq hblk (by omega), show p / 4096 * 4096 + (p % 4096 + j) = p + j by omega]

theorem mapM_cons_run {g : BlockRange → StateT File Option Bytes} {r : BlockRange} {rs : List BlockRange} {b : Bytes}
    {bs : List Bytes} (h : g r f = some (b, f)) (hs : rs.mapM g f = some (bs, f)) :
    (r :: rs).mapM g f = some (b :: bs, f) := by
  rw [List.mapM_cons, bind_run h, bind_run hs, pure_run]

theorem mapM_readPiece_run (hok : f.BlocksOk) (c : Nat) : ∀ p, p + c ≤ f.blocks.length * 4096 →
    (0 < c ∨ p < f.blocks.length * 4096 ∨ p % 4096 = 0) → ∃ bs,
      (computeRangesInt p c).mapM (readPiece (fileCalls fail)) f = some (bs, f) ∧
      bs.flatten = (List.range c).map fun j => f.byte (p + j) := by
  -- on the bytes left: the pieces after the first are those of the rest of the range
  induction c using Nat.strongRecOn with
  | ind c ih =>
    intro p hp hin
    by_cases hz : c = 0
    · subst hz
      rw [Int.natCast_zero, ranges_zero]
      split
      · exact ⟨[], by rw [List.mapM_nil, pure_run], rfl⟩
      · have h := readPiece_run fail hok (p := p) (k := 0) (by omega) (by omega)
        exact ⟨[[]], mapM_cons_run h (by rw [List.mapM_nil, pure_run]), rfl⟩
    · by_cases hshort : p % 4096 + c ≤ 4096
      · rw [ranges_short (by omega) hshort]
        have h := readPiece_run fail hok (p := p) (k := c) (by omega) hshort
        exact ⟨_, mapM_cons_run h (by rw [List.mapM_nil, pure_run]), by simp⟩
      · rw [ranges_long (by omega)]
        have h := readPiece_run fail hok (p := p) (k := 4096 - p % 4096) (by omega) (by omega)
        obtain ⟨bs, hbs, hflat⟩ := ih (c - (4096 - p % 4096)) (by omega) (p + (4096 - p % 4096)) (by omega) (by omega)
        refine ⟨_, mapM_cons_run h hbs, ?_⟩
        have hsplit := map_range_add (fun j => f.byte (p + j)) (4096 - p % 4096) (c - (4096 - p % 4096))
        rw [show 4096 - p % 4096 + (c - (4096 - p % 4096)) = c by omega] at hsplit
        rw [List.flatten_cons, hflat, hsplit]
        simp only [Nat.add_assoc]

theorem toFileOffset_of_lt {n : Nat} (h : n < 2 ^ 63) : toFileOffset n = n := by
  rw [toFileOffset, BitVec.toInt_ofInt, Int.bmod_eq_of_le (by omega) (by omega)]

/-- The bytes up to the size. -/
def File.contents (f : File) : Bytes := (List.range f.size.toNat).map f.byte

theorem File.getD_contents {i : Nat} (h : i < f.size.toNat) : f.contents.getD i 0 = f.byte i := by
  rw [contents, List.getD_eq_getElem _ _ (by rwa [List.length_map, List.length_range]), List.getElem_map, List.getElem_range]

theorem Rep.contents (h : Rep f s) : f.contents = s := by
  refine List.ext_getElem (by rw [File.contents, List.length_map, List.length_range, h.size]) fun i _ hi => ?_
  simp only [File.contents, List.getElem_map, List.getElem_range]
  rw [h.bytes, List.getD_eq_getElem s 0 hi]

theorem fscqRead_run (hok : f.BlocksOk) (hin : f.size.toNat ≤ f.blocks.length * 4096) (hlt : f.size.toNat < 2 ^ 63)
    (count offset : Nat) : fscqRead (fileCalls fail) count offset f = some (readBytes f.contents offset count, f) := by
  have hget : (fileCalls fail).fileGetSz f = some (f.size, f) := rfl
  have hlen : f.contents.length = f.size.toNat := by rw [File.contents, List.length_map, List.length_range]
  have hoff : min (offset : Int) f.size.toNat = (min offset f.size.toNat : Nat) := by omega
  have hcnt : min (count : Int) (toByteCount (toByteCount f.size.toNat - toByteCount (min offset f.size.toNat : Nat))) =
      (min count (f.size.toNat - offset) : Nat) := by
    simp only [toByteCount]; omega
  obtain ⟨bs, hbs, hflat⟩ := mapM_readPiece_run fail hok (min count (f.size.toNat - offset))
    (min offset f.size.toNat) (by omega) (by omega)
  unfold fscqRead
  rw [bind_run hget]
  simp only [toFileOffset_of_lt hlt, hoff, hcnt]
  rw [bind_run hbs, pure_run, hflat]
  refine congrArg (fun l => some (l, f)) ?_
  by_cases ho : offset ≤ f.size.toNat
  · have hread : readBytes f.contents offset count = (f.contents.drop offset).take (min count (f.size.toNat - offset)) := by
      rw [readBytes, ← hlen, ← List.length_drop, ← List.take_eq_take_min]
    rw [hread, take_drop_eq_map_range _ (by omega), Nat.min_eq_left ho]
    refine List.map_congr_left fun j hj => (File.getD_contents ?_).symm
    have hj' := List.mem_range.1 hj
    omega
  · rw [readBytes, List.drop_eq_nil_of_le (by omega), show min count (f.size.toNat - offset) = 0 by omega]
    rw [List.take_nil]; rfl

/-- **A read** returns the bytes of its range. -/
theorem fscqRead_spec (h : Rep f s) (count offset : Nat) :
    fscqRead (fileCalls fail) count offset f = some (readBytes s offset count, f) := by
  have hin : f.size.toNat ≤ f.blocks.length * 4096 := by
    have hc := h.count
    have hsize := h.size
    omega
  have hrun := fscqRead_run fail h.blocksOk hin (h.size ▸ h.length_lt) count offset
  rwa [h.contents] at hrun

/-! ## Writes -/

/-- The file in the middle of a write of `b` at `o`: it has room, and the bytes up to `p` are written. -/
structure Writing (s : Bytes) (o : Nat) (b : Bytes) (p : Nat) (f : File) : Prop where
  size : f.size.toNat = s.length
  blocksOk : f.BlocksOk
  count : f.blocks.length = (max s.length (o + b.length) + 4095) / 4096
  limit : f.blocks.length ≤ nBlocks
  bytes : ∀ i, f.byte i = if o ≤ i ∧ i < p then b.getD (i - o) 0 else s.getD i 0

variable {fail} {o p k : Nat} {b : Bytes}

/-- The new block holds the piece, and around it what the file held. -/
def IsNewBlock (f : File) (o : Nat) (b : Bytes) (p k : Nat) (nb : Bytes) : Prop :=
  nb.length = 4096 ∧ ∀ j < 4096, nb.getD j 0 =
    if p % 4096 ≤ j ∧ j < p % 4096 + k then b.getD (p / 4096 * 4096 + j - o) 0 else f.byte (p / 4096 * 4096 + j)

theorem isNewBlock_splice {old : Bytes} (hlen : old.length = 4096) (hp : o ≤ p) (hk : p + k ≤ o + b.length)
    (hpk : p % 4096 + k ≤ 4096)
    (hold : ∀ j < 4096, j < p % 4096 ∨ p % 4096 + k ≤ j → old.getD j 0 = f.byte (p / 4096 * 4096 + j)) :
    IsNewBlock f o b p k (old.take (p % 4096) ++ (bufPiece o b p k ++ old.drop (p % 4096 + k))) := by
  have hpiece := length_bufPiece hp hk
  refine ⟨by simp [hpiece, hlen]; omega, fun j hj => ?_⟩
  have hs := @getD_splice old (bufPiece o b p k) (p % 4096) (by omega) j
  rw [hpiece] at hs
  rw [hs]
  by_cases hin : p % 4096 ≤ j ∧ j < p % 4096 + k
  · rw [if_pos hin, if_pos hin, getD_bufPiece (by omega)]
    congr 1; omega
  · rw [if_neg hin, if_neg hin]
    exact hold j hj (by omega)

theorem newBlock_run (hw : Writing s o b p f) (hp : o ≤ p) (hstart : p = o ∨ p % 4096 = 0)
    (hk0 : 0 < k ∨ p % 4096 ≠ 0) (hk : p + k ≤ o + b.length) (hpk : p % 4096 + k ≤ 4096) : ∃ nb,
      newBlock (fileCalls fail) s.length ⟨(p / 4096 : Nat), (p % 4096 : Nat), k⟩ (bufPiece o b p k) f = some (nb, f) ∧
      IsNewBlock f o b p k nb := by
  have hcount := hw.count
  have htoNat : (((p % 4096 : Nat) : Int) + (k : Int)).toNat = p % 4096 + k := by omega
  have hbs := blocksize_eq
  unfold newBlock
  by_cases hwhole : (k : Int) = blocksize
  · refine ⟨_, by rw [if_pos hwhole]; exact pure_run _, ?_, fun j hj => ?_⟩
    · rw [length_bufPiece hp hk]; omega
    · rw [if_pos (by omega), getD_bufPiece (by omega)]
      congr 1; omega
  by_cases hzero : (s.length : Int) ≤ (p / 4096 : Nat) * blocksize ∨
      ((p % 4096 : Nat) : Int) = 0 ∧ (s.length : Int) ≤ (p / 4096 : Nat) * blocksize + k
  · -- nothing of the old file is around the piece
    refine ⟨_, by rw [if_neg hwhole, if_pos hzero, bind_run (pure_run _)]; exact pure_run _, ?_⟩
    simp only [Int.toNat_natCast, htoNat]
    refine isNewBlock_splice (List.length_replicate ..) hp hk hpk fun j hj hout => ?_
    rw [hbs] at hzero
    have hout' : ¬(o ≤ p / 4096 * 4096 + j ∧ p / 4096 * 4096 + j < p) := by omega
    rw [hw.bytes, if_neg hout', List.getD_eq_default s _ (by omega)]
    exact List.getD_replicate _ hj
  · have hblk : p / 4096 < f.blocks.length := by omega
    have hread : (fileCalls fail).readFblock ((p / 4096 : Nat) : Int) f = some (f.blocks[p / 4096], f) :=
      File.read_run hblk
    refine ⟨_, by rw [if_neg hwhole, if_neg hzero, bind_run hread]; exact pure_run _, ?_⟩
    simp only [Int.toNat_natCast, htoNat]
    refine isNewBlock_splice (hw.blocksOk _ (List.getElem_mem hblk)) hp hk hpk fun j hj _ => ?_
    rw [File.byte_eq hblk hj]

theorem IsNewBlock.writing {nb : Bytes} (hnb : IsNewBlock f o b p k nb) (hw : Writing s o b p f) (hp : o ≤ p)
    (hk0 : 0 < k ∨ p % 4096 ≠ 0) (hk : p + k ≤ o + b.length) (hpk : p % 4096 + k ≤ 4096) :
    Writing s o b (p + k) { f with blocks := f.blocks.set (p / 4096) nb } := by
  have hcount := hw.count
  have hblk : p / 4096 < f.blocks.length := by omega
  refine ⟨hw.size, fun x hx => ?_, by rw [List.length_set]; exact hcount, by rw [List.length_set]; exact hw.limit,
    fun i => ?_⟩
  · rcases List.mem_or_eq_of_mem_set hx with hx | rfl
    · exact hw.blocksOk x hx
    · exact hnb.1
  · rw [File.byte_set f hblk]
    by_cases hi : i / 4096 = p / 4096
    · rw [if_pos hi, hnb.2 _ (by omega), show p / 4096 * 4096 + i % 4096 = i by omega]
      by_cases hin : p % 4096 ≤ i % 4096 ∧ i % 4096 < p % 4096 + k
      · rw [if_pos hin, if_pos (by omega)]
      · rw [if_neg hin, hw.bytes]
        refine if_congr ?_ rfl rfl
        omega
    · rw [if_neg hi, hw.bytes]
      refine if_congr ?_ rfl rfl
      omega

/-- One piece: the bytes up to its end are written. -/
theorem writePiece_run (doLog : Bool) (c : Nat) (hw : Writing s o b p f) (hp : o ≤ p)
    (hstart : p = o ∨ p % 4096 = 0) (hk0 : 0 < k ∨ p % 4096 ≠ 0) (hk : p + k ≤ o + b.length)
    (hpk : p % 4096 + k ≤ 4096) (hc : c + k < 2 ^ 64) : ∃ f',
      writePiece (fileCalls fail) doLog s.length (.writeOK c)
        (⟨(p / 4096 : Nat), (p % 4096 : Nat), k⟩, bufPiece o b p k) f = some (.writeOK (c + k : Nat), f') ∧
      Writing s o b (p + k) f' := by
  have hcount := hw.count
  obtain ⟨nb, hrun, hnb⟩ := newBlock_run hw hp hstart hk0 hk hpk
  have hupd : File.update ((p / 4096 : Nat) : Int) nb f = some ((), { f with blocks := f.blocks.set (p / 4096) nb }) := by
    rw [File.update, Int.toNat_natCast, if_pos ⟨by omega, by omega, hnb.1⟩]
  refine ⟨_, ?_, hnb.writing hw hp hk0 hk hpk⟩
  have hcnt : toByteCount ((c : Int) + (k : Int)) = (c + k : Nat) := by
    rw [toByteCount]; omega
  unfold writePiece
  simp only [hcnt]
  rw [bind_run hrun]
  cases doLog
  · exact bind_run hupd
  · exact bind_run hupd

theorem Writing.end_le (hw : Writing s o b p f) : o + b.length < 2 ^ 63 := by
  have hc := hw.count
  have hl := hw.limit
  simp only [nBlocks, INODE.NDirect, BlockPtr.nIndirect] at hl
  omega

/-- All pieces from `p` on. -/
theorem foldlM_writePiece_run (doLog : Bool) (n : Nat) : ∀ (p : Nat) (f : File), Writing s o b p f → o ≤ p →
    (p = o ∨ p % 4096 = 0) → 0 < n → p + n = o + b.length → ∃ f',
      ((computeRangesInt p n).map (withPiece o b)).foldlM (writePiece (fileCalls fail) doLog s.length)
        (.writeOK (p - o : Nat)) f = some (.writeOK b.length, f') ∧ Writing s o b (o + b.length) f' := by
  induction n using Nat.strongRecOn with
  | ind n ih =>
    intro p f hw hp hstart hn hend
    have hlt := hw.end_le
    by_cases hshort : p % 4096 + n ≤ 4096
    · obtain ⟨f', hrun, hw'⟩ :=
        writePiece_run doLog (p - o) hw hp hstart (.inl hn) (by omega) hshort (by omega)
      rw [ranges_short hn hshort, List.map_cons, withPiece_eq hp, List.foldlM_cons, bind_run hrun,
        show p - o + n = b.length by omega]
      exact ⟨f', rfl, hend ▸ hw'⟩
    · -- the piece ends with its block, and the next one starts with a block
      obtain ⟨f₁, hrun, hw₁⟩ := writePiece_run (k := 4096 - p % 4096) doLog (p - o) hw hp hstart
        (by omega) (by omega) (by omega) (by omega)
      rw [ranges_long (by omega), List.map_cons, withPiece_eq hp, List.foldlM_cons, bind_run hrun,
        show p - o + (4096 - p % 4096) = p + (4096 - p % 4096) - o by omega]
      exact ih (n - (4096 - p % 4096)) (by omega) _ f₁ hw₁ (by omega) (by omega) (by omega) (by omega)

/-- The pieces of an empty buffer: none, or an empty one inside a block. -/
theorem foldlM_writePiece_nil (doLog : Bool) (hw : Writing s o [] o f) : ∃ f',
    ((computeRangesInt o 0).map (withPiece o [])).foldlM (writePiece (fileCalls fail) doLog s.length)
      (.writeOK 0) f = some (.writeOK 0, f') ∧ Writing s o [] o f' := by
  rw [ranges_zero]
  split
  · exact ⟨f, rfl, hw⟩
  · obtain ⟨f', hrun, hw'⟩ := writePiece_run (k := 0) doLog 0 hw (Nat.le_refl o) (.inl rfl) (.inr (by omega))
      (Nat.le_refl _) (by omega) (by omega)
    have hpiece := withPiece_eq (b := []) (k := 0) (Nat.le_refl o)
    rw [Int.natCast_zero] at hpiece hrun
    rw [List.map_cons, hpiece, List.foldlM_cons]
    exact ⟨f', bind_run hrun, hw'⟩

/-- The room for the write: a longer file, or an error and the file as it was. -/
theorem writeRoom_run (h : Rep f s) (o : Nat) (b : Bytes) :
    (∃ doLog f', writeRoom (fileCalls fail) s.length (o + b.length : Nat) o b f = some ((.ok (), doLog), f') ∧
      Writing s o b o f' ∧ (s.length < o + b.length → fail = none ∧ o + b.length ≤ nBlocks * 4096)) ∨
    (s.length < o + b.length ∧ (fail ≠ none ∨ nBlocks * 4096 < o + b.length) ∧
      writeRoom (fileCalls fail) s.length (o + b.length : Nat) o b f = some ((.error (fail.getD .EFBIG), true), f)) := by
  have hc := h.count
  have hl := h.limit
  have hnone : ∀ i, ¬(o ≤ i ∧ i < o) := fun i => by omega
  unfold writeRoom
  by_cases hgrow : (s.length : Int) < (o + b.length : Nat)
  · rw [if_pos hgrow]
    by_cases hok : fail = none ∧ (0 : Int) ≤ ((o + b.length : Nat) + 4095) / 4096 ∧
        (((o + b.length : Nat) : Int) + 4095) / 4096 ≤ nBlocks
    · left
      have hn : ((((o + b.length : Nat) : Int) + 4095) / 4096).toNat = (o + b.length + 4095) / 4096 := by omega
      have htrunc : (fileCalls fail).fileTruncate ((((o + b.length : Nat) : Int) + 4095) / 4096) f = some (.ok (),
          { f with blocks := f.blocks ++ List.replicate ((o + b.length + 4095) / 4096 - f.blocks.length) zeroBlock }) := by
        refine (if_pos hok).trans ?_
        rw [hn, List.take_of_length_le (by rw [List.length_append, List.length_replicate]; omega)]
      refine ⟨true, _, (bind_run htrunc).trans (pure_run _), ⟨h.size, fun x hx => ?_, ?_, ?_, fun i => ?_⟩,
        fun _ => ⟨hok.1, by omega⟩⟩
      · rcases List.mem_append.mp hx with hx | hx
        · exact h.blocksOk x hx
        · rw [(List.mem_replicate.mp hx).2]; exact List.length_replicate ..
      · simp only [List.length_append, List.length_replicate]; omega
      · simp only [List.length_append, List.length_replicate]; omega
      · rw [if_neg (hnone i), File.byte_append_zero f.blocks _ f.size]
        exact h.bytes i
    · right
      have htrunc : (fileCalls fail).fileTruncate ((((o + b.length : Nat) : Int) + 4095) / 4096) f =
          some (.error (fail.getD .EFBIG), f) := if_neg hok
      refine ⟨by omega, ?_, by rw [bind_run htrunc]; exact pure_run _⟩
      by_cases hs : fail = none
      · right; by_contra hle; exact hok ⟨hs, by omega, by omega⟩
      · exact .inl hs
  · left
    rw [if_neg hgrow, ite_self]
    exact ⟨false, f, pure_run _, ⟨h.size, h.blocksOk, by omega, hl, fun i => by rw [if_neg (hnone i), h.bytes]⟩,
      fun hlt => absurd hlt (by omega)⟩

/-- The size after the last piece. -/
theorem Writing.rep (hw : Writing s o b (o + b.length) f) {sz : BitVec 64}
    (hsz : sz.toNat = max s.length (o + b.length)) : Rep { f with size := sz } (writeBytes s o b) := by
  refine ⟨?_, hw.blocksOk, ?_, hw.limit, fun i => ?_⟩
  · rw [hsz, length_writeBytes]
  · rw [length_writeBytes]; exact hw.count
  · rw [getD_writeBytes]; exact hw.bytes i

/-- **A write** replaces the bytes of its range, or fails and changes nothing. -/
theorem fscqWrite_spec (h : Rep f s) (b : Bytes) (o : Nat) :
    (∃ f', fscqWrite (fileCalls fail) b o f = some (.ok b.length, f') ∧ Rep f' (writeBytes s o b) ∧
      (s.length < o + b.length → fail = none ∧ o + b.length ≤ nBlocks * 4096)) ∨
    (s.length < o + b.length ∧ (fail ≠ none ∨ nBlocks * 4096 < o + b.length) ∧
      fscqWrite (fileCalls fail) b o f = some (.error (errnoToPosix (fail.getD .EFBIG)), f)) := by
  have hget : (fileCalls fail).fileGetSz f = some (f.size, f) := rfl
  have hendpos : (o : Int) + b.length = (o + b.length : Nat) := by omega
  unfold fscqWrite
  rw [bind_run hget]
  simp only [h.size, hendpos]
  rcases writeRoom_run h o b with ⟨doLog, f₁, hroom, hw, hfits⟩ | ⟨hgrow, hspace, hroom⟩
  · left
    rw [bind_run hroom]
    have hlt := hw.end_le
    obtain ⟨f₂, hfold, hw₂⟩ : ∃ f₂, ((computeRangesInt o b.length).map (withPiece o b)).foldlM
        (writePiece (fileCalls fail) doLog s.length) (.writeOK 0) f₁ = some (.writeOK b.length, f₂) ∧
        Writing s o b (o + b.length) f₂ := by
      rcases Nat.eq_zero_or_pos b.length with hnil | hpos
      · obtain rfl := List.eq_nil_of_length_eq_zero hnil
        exact foldlM_writePiece_nil doLog hw
      · have hstart : (0 : Int) = (o - o : Nat) := by rw [Nat.sub_self, Int.natCast_zero]
        rw [hstart]
        exact foldlM_writePiece_run doLog b.length o f₁ hw (Nat.le_refl o) (.inl rfl) hpos rfl
    simp only [computeRangePieces_eq]
    rw [bind_run hfold]
    by_cases hgrow : (s.length : Int) < (o + b.length : Nat)
    · have hset : (fileCalls fail).fileSetSz (BitVec.ofInt 64 (o + b.length : Nat)) f₂ =
          some (.ok (), { f₂ with size := BitVec.ofInt 64 (o + b.length : Nat) }) := rfl
      simp only [if_pos hgrow]
      rw [bind_run hset]
      refine ⟨_, pure_run _, hw₂.rep ?_, hfits⟩
      rw [BitVec.toNat_ofInt]
      omega
    · simp only [if_neg hgrow]
      rw [bind_run (pure_run _)]
      exact ⟨_, pure_run _, hw₂.rep (by rw [hw₂.size]; omega), hfits⟩
  · right
    rw [bind_run hroom]
    exact ⟨hgrow, hspace, pure_run _⟩

theorem rep_nil : Rep ⟨[], 0⟩ [] :=
  ⟨rfl, fun _ hx => absurd hx List.not_mem_nil, rfl, Nat.zero_le _, fun _ => rfl⟩

theorem fscqOpen_trunc_run (f : File) : fscqOpen (fileCalls none) true f = some (.ok (), ⟨[], 0⟩) := by
  have htrunc : (fileCalls none).fileTruncate 0 f = some (.ok (), { f with blocks := [] }) := by
    simp [fileCalls, File.truncate]
  have hset : (fileCalls none).fileSetSz 0 { f with blocks := [] } = some (.ok (), ⟨[], 0⟩) := rfl
  rw [fscqOpen, if_pos rfl, bind_run htrunc, bind_run hset]
  exact pure_run _

/-! ## Histories -/

/-- A call on the open file. A write says with what error the truncation that it may make fails, if it does. -/
inductive FileOp
  | write (fail : Option Errno) (b : Bytes) (hb : b ≠ []) (offset : Nat)
  | read (count offset : Nat)
  | openFile (trunc : Bool)

inductive FileOut
  | wrote (r : Except PosixErrno Int)
  | bytes (b : Bytes)
  | opened (r : Except PosixErrno Unit)

def runFileOp : FileOp → StateT File Option FileOut
  | .write fail b _ offset => do pure (.wrote (← fscqWrite (fileCalls fail) b offset))
  | .read count offset => do pure (.bytes (← fscqRead (fileCalls none) count offset))
  | .openFile trunc => do pure (.opened (← fscqOpen (fileCalls none) trunc))

/-- A newly created file. -/
def newFile : File := ⟨[], 0⟩

/-- The reference: a call on a byte string, its answer and the new byte string. -/
inductive RefStep : FileOp → Bytes → FileOut → Bytes → Prop
  | write {fail b hb o} {s : Bytes} : RefStep (.write fail b hb o) s (.wrote (.ok b.length)) (writeBytes s o b)
  | writeErr {fail b hb o e} {s : Bytes} : s.length < o + b.length → (fail ≠ none ∨ nBlocks * 4096 < o + b.length) →
      RefStep (.write fail b hb o) s (.wrote (.error e)) s
  | read {c o} {s : Bytes} : RefStep (.read c o) s (.bytes (readBytes s o c)) s
  | openFile {trunc} {s : Bytes} : RefStep (.openFile trunc) s (.opened (.ok ())) (if trunc then [] else s)

inductive RefRun : List FileOp → Bytes → List FileOut → Bytes → Prop
  | nil {s : Bytes} : RefRun [] s [] s
  | cons {op ops} {s s' s'' : Bytes} {out outs} : RefStep op s out s' → RefRun ops s' outs s'' →
      RefRun (op :: ops) s (out :: outs) s''

theorem runFileOp_refines (h : Rep f s) (op : FileOp) :
    ∃ out f' s', runFileOp op f = some (out, f') ∧ RefStep op s out s' ∧ Rep f' s' := by
  cases op with
  | write fail b hb o =>
    rcases fscqWrite_spec h b o with ⟨f', hrun, h', _⟩ | ⟨hgrow, hspace, hrun⟩
    · exact ⟨_, f', _, bind_run hrun, .write, h'⟩
    · exact ⟨_, f, s, bind_run hrun, .writeErr hgrow hspace, h⟩
  | read c o => exact ⟨_, f, s, bind_run (fscqRead_spec none h c o), .read, h⟩
  | openFile trunc =>
    cases trunc with
    | true => exact ⟨_, _, _, bind_run (fscqOpen_trunc_run f), .openFile, rep_nil⟩
    | false => exact ⟨_, f, _, bind_run (pure_run _), .openFile, h⟩

theorem runFileOps_refines (ops : List FileOp) : ∀ {f : File} {s : Bytes}, Rep f s →
    ∃ outs f' s', ops.mapM runFileOp f = some (outs, f') ∧ RefRun ops s outs s' ∧ Rep f' s' := by
  induction ops with
  | nil => exact fun {f s} h => ⟨[], f, s, by rw [List.mapM_nil, pure_run], .nil, h⟩
  | cons op ops ih =>
    intro f s h
    obtain ⟨out, f₁, s₁, hrun, hstep, h₁⟩ := runFileOp_refines h op
    obtain ⟨outs, f₂, s₂, hruns, hrest, h₂⟩ := ih h₁
    exact ⟨out :: outs, f₂, s₂, by rw [List.mapM_cons, bind_run hrun, bind_run hruns, pure_run], .cons hstep hrest, h₂⟩

/-- **Files are byte strings**: every history of calls on a new file answers as the reference does. -/
theorem byte_file_refinement (ops : List FileOp) :
    ∃ outs f s, ops.mapM runFileOp newFile = some (outs, f) ∧ RefRun ops [] outs s ∧ Rep f s :=
  runFileOps_refines ops rep_nil

end Fscq.Fuse
