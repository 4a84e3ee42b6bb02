import Fscq.Fs.BlockList
import Mathlib.Data.List.GetD

/-!
# Reading a range of blocks

`readRange` reads the block numbers of a part of a file. The range is cut along the direct blocks and the three trees, and
in a tree into the end of one subtree, whole subtrees and the start of another one.

- `slice` is a part of a function on offsets; slices are put together (`slice_append`, `cut_append`);
- every program reads a slice of `walk` (`indreadToAligned_spec`, `indreadFromAligned_spec`, `indreadRange_spec`);
- the four parts are the slice of the block list (`readRange_spec`).
-/

namespace Fscq.BlockPtr

open TxnLogic BmapAllocCache INODE
open BmapAlloc (freeList size DataOk)

/-! ## Programs -/

def indreadAligned (lvl : Nat) (indbns : List Waddr) : TBody (List Waddr) :=
  .forEach (fun bn r => do
    let blks ← indread lvl bn.toNat
    pure (blks ++ r)) indbns.reverse []

/-- The entries from `start` to the end of the tree. -/
def indreadToAligned : Nat → Nat → Nat → TBody (List Waddr)
  | 0, ir, start => if ir = 0 then pure (List.replicate (nIndirect ^ 1 - start) 0) else do
    let indbns ← LogRecArray.read indSig ir 1
    pure (indbns.drop start)
  | lvl + 1, ir, start => if ir = 0 then pure (List.replicate (nIndirect ^ (lvl + 2) - start) 0) else do
    let indbns ← LogRecArray.read indSig ir 1
    let N := nIndirect ^ (lvl + 1)
    let r ← indreadAligned lvl (indbns.drop (start / N + 1))
    let ir' := indbns.getD (start / N) 0
    let r' ← indreadToAligned lvl ir'.toNat (start % N)
    pure (r' ++ r)

/-- The first `len` entries of the tree. -/
def indreadFromAligned : Nat → Nat → Nat → TBody (List Waddr)
  | 0, ir, len => if ir = 0 then pure (List.replicate len 0) else do
    let indbns ← LogRecArray.read indSig ir 1
    pure (indbns.take len)
  | lvl + 1, ir, len => if ir = 0 then pure (List.replicate len 0) else do
    let indbns ← LogRecArray.read indSig ir 1
    let N := nIndirect ^ (lvl + 1)
    let r ← indreadAligned lvl (indbns.take (len / N))
    if len % N = 0 then pure r
    else do
      let ir' := indbns.getD (len / N) 0
      let r' ← indreadFromAligned lvl ir'.toNat (len % N)
      pure (r ++ r')

def indreadMultipleBlocks (lvl : Nat) (indbns : List Waddr) (start len : Nat) : TBody (List Waddr) := do
  let N := nIndirect ^ (lvl + 1)
  let rl ← indreadToAligned lvl (indbns.getD (start / N) 0).toNat (start % N)
  let start' := start + (N - start % N)
  let len' := len - (N - start % N)
  let rm ← indreadAligned lvl ((indbns.drop (start' / N)).take (len' / N))
  let len'' := len' % N
  let start'' := start' + len' / N * N
  let rr ← indreadFromAligned lvl (indbns.getD (start'' / N) 0).toNat len''
  pure (rl ++ (rm ++ rr))

def indreadRange : Nat → Nat → Nat → Nat → TBody (List Waddr)
  | 0, root, start, len =>
    if len = 0 then pure []
    else if start + len = nIndirect * nIndirect ^ 0 then indreadToAligned 0 root start
    else if root = 0 then pure (List.replicate len 0)
    else do
      let indbns ← LogRecArray.read indSig root 1
      pure ((indbns.drop start).take len)
  | lvl + 1, root, start, len =>
    let N := nIndirect ^ (lvl + 1)
    if len = 0 then pure []
    else if start + len = nIndirect * N then indreadToAligned (lvl + 1) root start
    else if root = 0 then pure (List.replicate len 0)
    else do
      let indbns ← LogRecArray.read indSig root 1
      if len ≤ N - start % N then indreadRange lvl (indbns.getD (start / N) 0).toNat (start % N) len
      else indreadMultipleBlocks lvl indbns start len

def indreadRangeHelper (lvl bn start len : Nat) : TBody (List Waddr) :=
  let localstart := localStart lvl
  let maxlen := nIndirect ^ (lvl + 1)
  if localstart < start + len then
    if start < localstart + maxlen then
      let start' := start - localstart
      let len' := len - (localstart - start)
      let len'' := min len' (maxlen - start')
      indreadRange lvl bn start' len''
    else pure []
  else pure []

def readRange (ir : Irec) (start len : Nat) : TBody (List Waddr) := do
  let rdir := ((irBlocks ir).drop start).take len
  let len := len - (NDirect - start)
  let start := start - NDirect
  let rind ← indreadRangeHelper 0 (irIndPtr ir) start len
  let rdind ← indreadRangeHelper 1 (irDindPtr ir) start len
  let rtind ← indreadRangeHelper 2 (irTindPtr ir) start len
  pure (rdir ++ (rind ++ (rdind ++ rtind)))

/-! ## Slices -/

section Slices

variable {A : Type} {f g : Nat → A} {s l m : Nat}

/-- The values at `s, ..., s + l - 1`. -/
def slice (f : Nat → A) (s l : Nat) : List A := (List.range' s l).map f

@[simp] theorem length_slice (f : Nat → A) (s l : Nat) : (slice f s l).length = l := by simp [slice]

@[simp] theorem slice_zero (f : Nat → A) (s : Nat) : slice f s 0 = [] := rfl

theorem slice_append (f : Nat → A) (s m l : Nat) : slice f s m ++ slice f (s + m) l = slice f s (m + l) := by
  rw [slice, slice, slice, ← List.map_append, List.range'_append_1]

theorem slice_congr (h : ∀ i, s ≤ i → i < s + l → f i = g i) : slice f s l = slice g s l := by
  refine List.map_congr_left fun i hi => ?_
  obtain ⟨h₁, h₂⟩ := List.mem_range'_1.1 hi
  exact h i h₁ h₂

theorem slice_shift (f : Nat → A) (c s l : Nat) : slice f (c + s) l = slice (fun i => f (c + i)) s l := by
  rw [slice, slice, ← List.map_add_range', List.map_map]
  rfl

theorem slice_const (v : A) (s l : Nat) : slice (fun _ => v) s l = List.replicate l v := by
  rw [slice, List.map_const', List.length_range']

theorem take_drop_eq_slice (E : List A) (v : A) (h : s + l ≤ E.length) :
    (E.drop s).take l = slice (fun i => E.getD i v) s l := by
  refine List.ext_getElem (by simp; omega) fun i h₁ h₂ => ?_
  have hi : i < l := by simpa using h₂
  have hlt : s + i < E.length := by omega
  simp [slice, List.getD_eq_getElem?_getD, hlt]

theorem map_range_eq_slice (f : Nat → A) (l : Nat) : (List.range l).map f = slice f 0 l := by
  rw [slice, List.range_eq_range']

/-- The part of `[s, t)` that lies in `[lo, hi)`. -/
def cut (f : Nat → A) (s t lo hi : Nat) : List A := slice f (max s lo) (min t hi - max s lo)

theorem cut_append (f : Nat → A) {s t lo mid hi : Nat} (h₁ : lo ≤ mid) (h₂ : mid ≤ hi) :
    cut f s t lo mid ++ cut f s t mid hi = cut f s t lo hi := by
  rcases Nat.le_total mid s with h | h
  · have hempty : min t mid - max s lo = 0 := by omega
    rw [cut, cut, cut, hempty, slice_zero, List.nil_append, show max s mid = max s lo by omega]
  rcases Nat.le_total t mid with h' | h'
  · have hempty : min t hi - max s mid = 0 := by omega
    rw [cut, cut, cut, hempty, slice_zero, List.append_nil, show min t mid = min t hi by omega]
  · have hmid : max s mid = max s lo + (min t mid - max s lo) := by omega
    rw [cut, cut, hmid, slice_append, cut]
    congr 1
    omega

end Slices

/-! ## Reading a part of a tree -/

variable {n : Nat} {d : LDisk} {lvl bn start len : Nat} {E : List Waddr} {x : Irec}

/-- A part of one child, seen from the node above. -/
theorem slice_child (d : LDisk) (lvl : Nat) (E : List Waddr) (i : Nat) {s l : Nat} (h : s + l ≤ nIndirect ^ (lvl + 1)) :
    slice (walk d lvl (E.getD i 0).toNat) s l = slice (walkL d lvl E) (i * nIndirect ^ (lvl + 1) + s) l := by
  rw [slice_shift]
  refine slice_congr fun o _ ho => ?_
  have hlt : o < nIndirect ^ (lvl + 1) := by omega
  rw [walkL, Nat.mul_comm i, Nat.mul_add_div (pow_pos' _), Nat.mul_add_mod, Nat.div_eq_of_lt hlt, Nat.mod_eq_of_lt hlt,
    Nat.add_zero]

theorem nodes_take_drop {i k : Nat} (h : ∀ a ∈ kids d lvl E, a < n) :
    ∀ w ∈ (E.drop i).take k, ∀ a ∈ nodes d lvl w.toNat, a < n := fun _ hw a ha =>
  h a (nodes_sub_kids (List.mem_of_mem_drop (List.mem_of_mem_take hw)) ha)

theorem indreadAligned_spec {i k : Nat} (hin : ∀ a ∈ kids d lvl E, a < n) (hik : i + k ≤ E.length) :
    twp n (indreadAligned lvl ((E.drop i).take k)) (fun r d' => d' = d ∧
      r = slice (walkL d lvl E) (i * nIndirect ^ (lvl + 1)) (k * nIndirect ^ (lvl + 1))) d := by
  have hloop := readLoop_spec (p := fun w => indread lvl w.toNat)
    (g := fun w => (List.range (nIndirect ^ (lvl + 1))).map (walk d lvl w.toNat))
    fun w hw => indread_spec lvl w.toNat (nodes_take_drop (i := i) (k := k) hin w hw)
  refine twp_mono (fun r d' ⟨hd, hr⟩ => ⟨hd, ?_⟩) _ hloop
  have hlen : ((E.drop i).take k).length = k := by
    rw [List.length_take, List.length_drop]
    omega
  rw [hr, flatMap_map_range (fun w => walk d lvl w.toNat) (pow_pos' _), hlen, map_range_eq_slice,
    ← Nat.add_zero (i * nIndirect ^ (lvl + 1)), slice_shift]
  refine slice_congr fun o _ ho => ?_
  have hj : o / nIndirect ^ (lvl + 1) < k := by
    rw [Nat.div_lt_iff_lt_mul (pow_pos' _)]
    omega
  rw [walkL, Nat.mul_comm i, Nat.mul_add_div (pow_pos' _), Nat.mul_add_mod, List.getD_eq_getElem?_getD,
    List.getElem?_take_of_lt hj, List.getElem?_drop, ← List.getD_eq_getElem?_getD]

theorem slice_walk_zero (d : LDisk) (lvl s l : Nat) : slice (walk d lvl 0) s l = List.replicate l 0 := by
  rw [← slice_const 0 s l]
  exact slice_congr fun o _ _ => walk_zero d lvl o

theorem drop_entries {d : LDisk} {bn : Nat} (i : Nat) : (entries d bn).drop i = ((entries d bn).drop i).take (512 - i) := by
  exact (List.take_of_length_le (Nat.le_of_eq (by rw [List.length_drop, length_entries]))).symm

theorem kids_lt {bn : Nat} (hin : ∀ a ∈ nodes d (lvl + 1) bn, a < n) (h0 : bn ≠ 0) :
    ∀ a ∈ kids d lvl (entries d bn), a < n := fun a ha => hin a (by
  rw [nodes_succ d lvl h0]
  exact List.mem_cons_of_mem _ ha)

theorem indreadToAligned_spec : ∀ (lvl : Nat) {bn start : Nat}, (∀ a ∈ nodes d lvl bn, a < n) →
    start < nIndirect ^ (lvl + 1) →
    twp n (indreadToAligned lvl bn start) (fun r d' => d' = d ∧
      r = slice (walk d lvl bn) start (nIndirect ^ (lvl + 1) - start)) d := by
  intro lvl
  induction lvl with
  | zero =>
    intro bn start hin hlt
    by_cases h0 : bn = 0
    · rw [indreadToAligned, if_pos h0, h0, slice_walk_zero]
      exact ⟨rfl, rfl⟩
    · rw [indreadToAligned, if_neg h0]
      refine twp_bind _ (readEntries_spec (hin bn (self_mem_nodes d 0 h0)) ⟨rfl, ?_⟩)
      replace hlt : start < 512 := by simpa using hlt
      rw [drop_entries, take_drop_eq_slice (entries d bn) 0 (by rw [length_entries]; omega), Nat.pow_one]
      exact slice_congr fun o _ _ => by rw [walk, if_neg h0]
  | succ lvl ih =>
    intro bn start hin hlt
    by_cases h0 : bn = 0
    · rw [indreadToAligned, if_pos h0, h0, slice_walk_zero]
      exact ⟨rfl, rfl⟩
    · rw [indreadToAligned, if_neg h0]
      have hkids := kids_lt hin h0
      have hi := div_pow_lt hlt
      have hpow : nIndirect ^ (lvl + 2) = 512 * nIndirect ^ (lvl + 1) := Nat.pow_succ'
      have hdm := Nat.div_add_mod' start (nIndirect ^ (lvl + 1))
      have hmod := Nat.mod_lt start (pow_pos' (lvl + 1))
      refine twp_bind _ (readEntries_spec (hin bn (self_mem_nodes d _ h0)) ?_)
      have hrest := @indreadAligned_spec n d lvl (entries d bn) (start / nIndirect ^ (lvl + 1) + 1)
        (512 - (start / nIndirect ^ (lvl + 1) + 1)) hkids (by rw [length_entries]; omega)
      rw [← drop_entries] at hrest
      refine twp_seq hrest ?_
      rintro r d₁ ⟨hd₁, hr⟩
      rw [hd₁]
      refine twp_seq (ih (fun a ha => hkids a (nodes_getD_sub_kids ha)) hmod) ?_
      rintro r' d₂ ⟨hd₂, hr'⟩
      refine ⟨hd₂, ?_⟩
      rw [hr, hr', slice_child d lvl _ _ (Nat.le_of_eq (Nat.add_sub_of_le (Nat.le_of_lt hmod))), hdm]
      generalize start / nIndirect ^ (lvl + 1) = i, start % nIndirect ^ (lvl + 1) = o at *
      generalize nIndirect ^ (lvl + 1) = N at *
      have hnext : (i + 1) * N = start + (N - o) := by rw [Nat.succ_mul]; omega
      have hle : (i + 1) * N ≤ 512 * N := Nat.mul_le_mul_right N hi
      rw [Nat.sub_mul, hnext, slice_append, show N - o + (512 * N - (start + (N - o))) = nIndirect ^ (lvl + 2) - start by omega]
      exact slice_congr fun off _ _ => (walk_succ d lvl off h0).symm

theorem indreadFromAligned_spec : ∀ (lvl : Nat) {bn len : Nat}, (∀ a ∈ nodes d lvl bn, a < n) →
    len ≤ nIndirect ^ (lvl + 1) →
    twp n (indreadFromAligned lvl bn len) (fun r d' => d' = d ∧ r = slice (walk d lvl bn) 0 len) d := by
  intro lvl
  induction lvl with
  | zero =>
    intro bn len hin hle
    by_cases h0 : bn = 0
    · rw [indreadFromAligned, if_pos h0, h0, slice_walk_zero]
      exact ⟨rfl, rfl⟩
    · rw [indreadFromAligned, if_neg h0]
      refine twp_bind _ (readEntries_spec (hin bn (self_mem_nodes d 0 h0)) ⟨rfl, ?_⟩)
      replace hle : len ≤ 512 := by simpa using hle
      have htake := take_drop_eq_slice (s := 0) (l := len) (entries d bn) 0 (by rw [length_entries]; omega)
      rw [List.drop_zero] at htake
      rw [htake]
      exact slice_congr fun o _ _ => by rw [walk, if_neg h0]
  | succ lvl ih =>
    intro bn len hin hle
    by_cases h0 : bn = 0
    · rw [indreadFromAligned, if_pos h0, h0, slice_walk_zero]
      exact ⟨rfl, rfl⟩
    · rw [indreadFromAligned, if_neg h0]
      have hkids := kids_lt hin h0
      have hle' : len ≤ nIndirect ^ (lvl + 1) * 512 := by rwa [Nat.pow_succ] at hle
      have hdm := Nat.div_add_mod' len (nIndirect ^ (lvl + 1))
      have hmod := Nat.mod_lt len (pow_pos' (lvl + 1))
      have hwalk : slice (walk d (lvl + 1) bn) 0 len = slice (walkL d lvl (entries d bn)) 0 len :=
        slice_congr fun off _ _ => walk_succ d lvl off h0
      refine twp_bind _ (readEntries_spec (hin bn (self_mem_nodes d _ h0)) ?_)
      have hwhole := @indreadAligned_spec n d lvl (entries d bn) 0 (len / nIndirect ^ (lvl + 1)) hkids (by
        rw [length_entries, Nat.zero_add]
        exact Nat.div_le_of_le_mul hle')
      rw [List.drop_zero, Nat.zero_mul] at hwhole
      refine twp_seq hwhole ?_
      rintro r d₁ ⟨hd₁, hr⟩
      rw [hd₁]
      by_cases hz : len % nIndirect ^ (lvl + 1) = 0
      · rw [if_pos hz]
        rw [hz, Nat.add_zero] at hdm
        exact ⟨rfl, by rw [hr, hdm, hwalk]⟩
      · rw [if_neg hz]
        refine twp_seq (ih (fun a ha => hkids a (nodes_getD_sub_kids ha)) (Nat.le_of_lt hmod)) ?_
        rintro r' d₂ ⟨hd₂, hr'⟩
        refine ⟨hd₂, ?_⟩
        rw [hr, hr', slice_child d lvl _ _ (by omega), Nat.add_zero, hwalk]
        have happ := slice_append (walkL d lvl (entries d bn)) 0 (len / nIndirect ^ (lvl + 1) * nIndirect ^ (lvl + 1))
          (len % nIndirect ^ (lvl + 1))
        rwa [hdm, Nat.zero_add] at happ

/-- Where the children of a range over more than one child are. -/
theorem range_children {N start len : Nat} (hN : 0 < N) (hle : start + len ≤ 512 * N) (hpast : N - start % N < len) :
    start + (N - start % N) = (start / N + 1) * N ∧ start / N + 1 + (len - (N - start % N)) / N ≤ 512 := by
  have hmod := Nat.mod_lt start hN
  have hdm := Nat.div_add_mod' start N
  have hnext : start + (N - start % N) = (start / N + 1) * N := by
    rw [Nat.succ_mul]
    omega
  refine ⟨hnext, Nat.le_of_mul_le_mul_right ?_ hN⟩
  have hdm' := Nat.div_add_mod' (len - (N - start % N)) N
  rw [Nat.add_mul _ _ N, ← hnext]
  omega

/-- A range over more than one child: the end of the first, whole children, the start of the last. -/
theorem indreadMultipleBlocks_spec (hin : ∀ a ∈ kids d lvl E, a < n) (hlen : E.length = 512)
    (hle : start + len ≤ 512 * nIndirect ^ (lvl + 1))
    (hpast : nIndirect ^ (lvl + 1) - start % nIndirect ^ (lvl + 1) < len) :
    twp n (indreadMultipleBlocks lvl E start len) (fun r d' => d' = d ∧ r = slice (walkL d lvl E) start len) d := by
  have hN := pow_pos' (lvl + 1)
  have hmod := Nat.mod_lt start hN
  have hdm := Nat.div_add_mod' start (nIndirect ^ (lvl + 1))
  obtain ⟨hnext, hik⟩ := range_children hN hle hpast
  simp only [indreadMultipleBlocks]
  rw [hnext, Nat.mul_div_cancel _ hN, ← Nat.add_mul, Nat.mul_div_cancel _ hN]
  have hdm' := Nat.div_add_mod' (len - (nIndirect ^ (lvl + 1) - start % nIndirect ^ (lvl + 1))) (nIndirect ^ (lvl + 1))
  have hmod' := Nat.mod_lt (len - (nIndirect ^ (lvl + 1) - start % nIndirect ^ (lvl + 1))) hN
  have hchild : ∀ i, ∀ a ∈ nodes d lvl (E.getD i 0).toNat, a < n := fun _ a ha => hin a (nodes_getD_sub_kids ha)
  refine twp_seq (indreadToAligned_spec lvl (hchild _) hmod) fun rl d₁ ⟨hd₁, hrl⟩ => ?_
  rw [hd₁]
  refine twp_seq (indreadAligned_spec hin (by rw [hlen]; exact hik)) fun rm d₂ ⟨hd₂, hrm⟩ => ?_
  rw [hd₂]
  refine twp_seq (indreadFromAligned_spec lvl (hchild _) (Nat.le_of_lt hmod')) fun rr d₃ ⟨hd₃, hrr⟩ => ⟨hd₃, ?_⟩
  rw [hrl, hrm, hrr, slice_child d lvl _ _ (Nat.le_of_eq (Nat.add_sub_of_le (Nat.le_of_lt hmod))),
    slice_child d lvl _ _ (by omega), hdm, Nat.add_mul (start / nIndirect ^ (lvl + 1) + 1)]
  simp only [Nat.add_zero]
  rw [slice_append, hdm', ← hnext, slice_append, Nat.add_sub_of_le (Nat.le_of_lt hpast)]

theorem indreadRange_spec : ∀ (lvl : Nat) {bn start len : Nat}, (∀ a ∈ nodes d lvl bn, a < n) →
    start + len ≤ nIndirect ^ (lvl + 1) →
    twp n (indreadRange lvl bn start len) (fun r d' => d' = d ∧ r = slice (walk d lvl bn) start len) d
  | 0, bn, start, len, hin, hle => by
    rw [indreadRange]
    by_cases hz : len = 0
    · rw [if_pos hz, hz]
      exact ⟨rfl, rfl⟩
    rw [if_neg hz]
    replace hle : start + len ≤ 512 := by simpa using hle
    by_cases hend : start + len = nIndirect * nIndirect ^ 0
    · rw [if_pos hend]
      replace hend : start + len = 512 := by simpa using hend
      have hto := @indreadToAligned_spec n d 0 bn start hin (by
        show start < 512
        omega)
      rwa [show nIndirect ^ (0 + 1) - start = len from Nat.sub_eq_of_eq_add (by rw [Nat.add_comm len]; exact hend.symm)]
        at hto
    rw [if_neg hend]
    by_cases h0 : bn = 0
    · rw [if_pos h0, h0, slice_walk_zero]
      exact ⟨rfl, rfl⟩
    rw [if_neg h0]
    refine twp_bind _ (readEntries_spec (hin bn (self_mem_nodes d 0 h0)) ⟨rfl, ?_⟩)
    rw [take_drop_eq_slice (entries d bn) 0 (by rw [length_entries]; omega)]
    exact slice_congr fun o _ _ => by rw [walk, if_neg h0]
  | lvl + 1, bn, start, len, hin, hle => by
    have hpow : nIndirect ^ (lvl + 2) = nIndirect * nIndirect ^ (lvl + 1) := Nat.pow_succ'
    rw [indreadRange]
    by_cases hz : len = 0
    · simp only [hz]
      exact ⟨rfl, rfl⟩
    simp only [if_neg hz]
    by_cases hend : start + len = nIndirect * nIndirect ^ (lvl + 1)
    · rw [if_pos hend]
      have hto := @indreadToAligned_spec n d (lvl + 1) bn start hin (by omega)
      rwa [hpow, ← hend, Nat.add_sub_cancel_left] at hto
    rw [if_neg hend]
    by_cases h0 : bn = 0
    · rw [if_pos h0, h0, slice_walk_zero]
      exact ⟨rfl, rfl⟩
    rw [if_neg h0]
    have hkids := kids_lt hin h0
    have hwalk : slice (walk d (lvl + 1) bn) start len = slice (walkL d lvl (entries d bn)) start len :=
      slice_congr fun off _ _ => walk_succ d lvl off h0
    have hdm := Nat.div_add_mod' start (nIndirect ^ (lvl + 1))
    have hmod := Nat.mod_lt start (pow_pos' (lvl + 1))
    rw [hwalk]
    refine twp_bind _ (readEntries_spec (hin bn (self_mem_nodes d _ h0)) ?_)
    by_cases hone : len ≤ nIndirect ^ (lvl + 1) - start % nIndirect ^ (lvl + 1)
    · rw [if_pos hone]
      have hfit : start % nIndirect ^ (lvl + 1) + len ≤ nIndirect ^ (lvl + 1) := by
        generalize start % nIndirect ^ (lvl + 1) = o at *
        omega
      have hchild := slice_child d lvl (entries d bn) (start / nIndirect ^ (lvl + 1)) hfit
      rw [hdm] at hchild
      rw [← hchild]
      exact indreadRange_spec lvl (fun a ha => hkids a (nodes_getD_sub_kids ha)) hfit
    · rw [if_neg hone]
      refine indreadMultipleBlocks_spec hkids (length_entries _ _) ?_ (by omega)
      rw [hpow] at hle
      exact hle

/-! ## Reading a part of the block list -/

theorem indreadRangeHelper_spec (lvl : Nat) (hin : ∀ a ∈ nodes d lvl bn, a < n) :
    twp n (indreadRangeHelper lvl bn start len) (fun r d' => d' = d ∧
      r = cut (fun off => walk d lvl bn (off - localStart lvl)) start (start + len) (localStart lvl)
        (localStart lvl + nIndirect ^ (lvl + 1))) d := by
  simp only [indreadRangeHelper, cut]
  generalize localStart lvl = ls
  have hrec := @indreadRange_spec n d lvl bn (start - ls) (min (len - (ls - start)) (nIndirect ^ (lvl + 1) - (start - ls))) hin
  generalize nIndirect ^ (lvl + 1) = N at *
  by_cases h₁ : ls < start + len
  · by_cases h₂ : start < ls + N
    · rw [if_pos h₁, if_pos h₂]
      refine twp_mono (fun r d' ⟨hd, hr⟩ => ⟨hd, ?_⟩) _ (hrec (by omega))
      rw [hr, show max start ls = ls + (start - ls) by omega, slice_shift]
      simp only [Nat.add_sub_cancel_left]
      congr 1
      omega
    · rw [if_pos h₁, if_neg h₂, show min (start + len) (ls + N) - max start ls = 0 by omega]
      exact ⟨rfl, rfl⟩
  · rw [if_neg h₁, show min (start + len) (ls + N) - max start ls = 0 by omega]
    exact ⟨rfl, rfl⟩

theorem cut_congr {A : Type} {f g : Nat → A} {s t lo hi : Nat} (h : ∀ i, lo ≤ i → i < hi → f i = g i) :
    cut f s t lo hi = cut g s t lo hi := slice_congr fun i h₁ h₂ => h i (by omega) (by omega)

theorem cut_shift {A : Type} (f : Nat → A) (c s t lo hi : Nat) :
    cut (fun off => f (c + off)) (s - c) (t - c) lo hi = cut f s t (c + lo) (c + hi) := by
  have hstart : c + max (s - c) lo = max s (c + lo) := by omega
  rw [cut, cut, ← slice_shift, hstart]
  congr 1
  omega

/-- The part of the trees that one helper reads. -/
theorem cut_trees₀ (d : LDisk) (p q r s t : Nat) :
    cut (fun off => walk d 0 p (off - localStart 0)) s t (localStart 0) (localStart 0 + nIndirect ^ 1) =
      cut (treesSlot d p q r) s t 0 nIndirect := by
  rw [show localStart 0 = 0 from rfl, Nat.zero_add, Nat.pow_one]
  refine cut_congr fun i _ hi => ?_
  rw [treesSlot, if_pos hi, Nat.sub_zero]

theorem cut_trees₁ (d : LDisk) (p q r s t : Nat) :
    cut (fun off => walk d 1 q (off - localStart 1)) s t (localStart 1) (localStart 1 + nIndirect ^ 2) =
      cut (treesSlot d p q r) s t nIndirect (nIndirect + nIndirect ^ 2) := by
  rw [localStart_one]
  refine cut_congr fun i hlo hi => ?_
  rw [treesSlot]
  generalize nIndirect ^ 2 = S at hi ⊢
  rw [if_neg (Nat.not_lt.2 hlo), if_pos (by omega)]

theorem cut_trees₂ (d : LDisk) (p q r s t : Nat) :
    cut (fun off => walk d 2 r (off - localStart 2)) s t (localStart 2) (localStart 2 + nIndirect ^ 3) =
      cut (treesSlot d p q r) s t (nIndirect + nIndirect ^ 2) (nIndirect + nIndirect ^ 2 + nIndirect ^ 3) := by
  rw [localStart_two]
  refine cut_congr fun i hlo hi => ?_
  rw [treesSlot]
  generalize nIndirect ^ 2 = S at hlo hi ⊢
  rw [if_neg (by omega), if_neg (by omega), Nat.sub_sub]

/-- The range behind the direct blocks, read from the three trees. -/
theorem readTrees_spec (hin : ∀ a ∈ indNodes d x, a < n) (rdir : List Waddr) :
    twp n (do
      let rind ← indreadRangeHelper 0 (irIndPtr x) start len
      let rdind ← indreadRangeHelper 1 (irDindPtr x) start len
      let rtind ← indreadRangeHelper 2 (irTindPtr x) start len
      pure (rdir ++ (rind ++ (rdind ++ rtind))))
      (fun r d' => d' = d ∧ r = rdir ++ cut (treesSlot d (irIndPtr x) (irDindPtr x) (irTindPtr x)) start (start + len) 0
        (nIndirect + nIndirect ^ 2 + nIndirect ^ 3)) d := by
  have h₀ := @indreadRangeHelper_spec n d (irIndPtr x) start len 0 fun a ha => hin a (List.mem_append_left _ ha)
  have h₁ := @indreadRangeHelper_spec n d (irDindPtr x) start len 1 fun a ha =>
    hin a (List.mem_append_right _ (List.mem_append_left _ ha))
  have h₂ := @indreadRangeHelper_spec n d (irTindPtr x) start len 2 fun a ha =>
    hin a (List.mem_append_right _ (List.mem_append_right _ ha))
  refine twp_seq h₀ fun r₀ d₀ ⟨hd₀, hr₀⟩ => ?_
  rw [hd₀]
  refine twp_seq h₁ fun r₁ d₁ ⟨hd₁, hr₁⟩ => ?_
  rw [hd₁]
  refine twp_seq h₂ fun r₂ d₂ ⟨hd₂, hr₂⟩ => ⟨hd₂, ?_⟩
  rw [hr₀, hr₁, hr₂, cut_trees₀ d _ (irDindPtr x) (irTindPtr x), cut_trees₁ d (irIndPtr x) _ (irTindPtr x),
    cut_trees₂ d (irIndPtr x) (irDindPtr x)]
  rw [cut_append _ (Nat.le_add_right _ _) (Nat.le_add_right _ _), cut_append _ (Nat.zero_le _)]
  generalize nIndirect ^ 2 = S
  omega

theorem cut_direct (d : LDisk) (hb : (irBlocks x).length = NDirect) (start len : Nat) :
    ((irBlocks x).drop start).take len = cut (slot d x) start (start + len) 0 NDirect := by
  rw [cut, Nat.max_zero]
  by_cases h : start ≤ NDirect
  · have hmin : min (start + len) NDirect - start = min len (NDirect - start) := by omega
    rw [List.take_eq_take_min, List.length_drop, hb, hmin, take_drop_eq_slice (irBlocks x) 0 (by omega)]
    refine slice_congr fun i _ hi => ?_
    rw [slot, if_pos (by omega)]
  · have hmin : min (start + len) NDirect - start = 0 := by omega
    rw [hmin, List.drop_eq_nil_of_le (by omega), List.take_nil, slice_zero]

theorem take_drop_blockList (d : LDisk) (hle : start + len ≤ irLen x) :
    ((blockList d x).drop start).take len = slice (slot d x) start len := by
  rw [take_drop_eq_slice (blockList d x) 0 (by rwa [length_blockList])]
  refine slice_congr fun i _ hi => ?_
  rw [blockList, List.getD_eq_getElem?_getD, getElem?_map_range _ (by omega)]
  rfl

theorem readRange_spec (hb : (irBlocks x).length = NDirect) (hlen : irLen x ≤ nBlocks)
    (hin : ∀ a ∈ indNodes d x, a < n) (hle : start + len ≤ irLen x) :
    twp n (readRange x start len) (fun r d' => d' = d ∧ r = ((blockList d x).drop start).take len) d := by
  rw [readRange]
  refine twp_mono (fun r d' ⟨hd, hres⟩ => ⟨hd, ?_⟩) _ (readTrees_spec hin _)
  have hend : start - NDirect + (len - (NDirect - start)) = start + len - NDirect := by omega
  have htrees : treesSlot d (irIndPtr x) (irDindPtr x) (irTindPtr x) = fun off => slot d x (NDirect + off) := by
    funext off
    rw [slot_eq, if_neg (by omega), Nat.add_sub_cancel_left]
  have htotal : NDirect + (nIndirect + nIndirect ^ 2 + nIndirect ^ 3) = nBlocks := by decide
  rw [hres, hend, htrees, cut_shift, cut_direct d hb, Nat.add_zero, htotal,
    cut_append _ (Nat.zero_le _) (by decide), take_drop_blockList d hle, cut, Nat.max_zero,
    Nat.min_eq_left (Nat.le_trans hle hlen), Nat.add_sub_cancel_left]

/-- The record `x` and its trees, which lie inside the disk, hold the block list `l` and zeros behind it. -/
structure Represents (n : Nat) (d : LDisk) (x : Irec) (l : List Waddr) : Prop where
  blocks : (irBlocks x).length = NDirect
  len : irLen x ≤ nBlocks
  inDisk : ∀ a ∈ indNodes d x, a < n
  zero : ∀ off, irLen x ≤ off → slot d x off = 0
  list : blockList d x = l

/-- Reading a range gives the part of the list, and so the part of what `read` gives. -/
theorem read_range_agrees {l : List Waddr} (hr : Represents n d x l) (hle : start + len ≤ l.length) :
    twp n (readRange x start len) (fun r d' => d' = d ∧ r = (l.drop start).take len) d ∧
    twp n (read x) (fun r d' => d' = d ∧ r = l) d ∧
    ((readRange x start len).run d).1 = (((read x).run d).1.drop start).take len := by
  have hlen : irLen x = l.length := by rw [← hr.list, length_blockList]
  have hrange := readRange_spec hr.blocks hr.len hr.inDisk (hlen ▸ hle)
  have hread : twp n (read x) (fun r d' => d' = d ∧ r = l) d :=
    readBlocks_spec hr.blocks hr.len hr.inDisk ⟨rfl, hr.list⟩
  rw [hr.list] at hrange
  refine ⟨hrange, hread, ?_⟩
  rw [(twp_run hrange).2, (twp_run hread).2]

/-- A record with seven direct blocks and a node. -/
def oneNode : Irec := (9, (0, 0, 0, 0, 0, 0, 0, 0, 0, ()), 1, 0, 0, [11, 12, 13, 14, 15, 16, 17], ())

/-- The node has two pointers. -/
def withNode (d : LDisk) : LDisk := d.set 1 (indSig.block2val ([18, 19] ++ List.replicate 510 0))

theorem entries_withNode (d : LDisk) : entries (withNode d) 1 = [18, 19] ++ List.replicate 510 0 := by
  rw [entries, withNode, Disk.set_self]
  exact indSig.val2block_block2val ⟨by rw [List.length_append, List.length_replicate]; rfl, fun _ _ => trivial⟩

theorem indNodes_oneNode (d : LDisk) : indNodes d oneNode = [1] := by
  simp [indNodes, oneNode, nodes, irIndPtr, irDindPtr, irTindPtr]

theorem slot_oneNode (d : LDisk) (off : Nat) :
    slot (withNode d) oneNode off = ([11, 12, 13, 14, 15, 16, 17, 18, 19] : List Waddr).getD off 0 := by
  have hptr : irIndPtr oneNode = 1 ∧ irDindPtr oneNode = 0 ∧ irTindPtr oneNode = 0 := ⟨rfl, rfl, rfl⟩
  have hlist : ([11, 12, 13, 14, 15, 16, 17, 18, 19] : List Waddr) = irBlocks oneNode ++ [18, 19] := rfl
  have hlen : (irBlocks oneNode).length = NDirect := rfl
  rw [slot, hptr.1, hptr.2.1, hptr.2.2, hlist]
  simp only [walk_zero, ite_self]
  split
  · rw [List.getD_append _ _ _ _ (by rwa [hlen])]
  · rename_i hge
    rw [List.getD_append_right _ _ _ _ (by rw [hlen]; omega), hlen]
    split
    · rw [walk, if_neg Nat.one_ne_zero, entries_withNode]
      by_cases h2 : off - NDirect < 2
      · rw [List.getD_append _ _ _ _ h2]
      · rw [List.getD_append_right _ _ _ _ (Nat.le_of_not_lt h2), getD_zeros, List.getD_eq_default _ _ (Nat.le_of_not_lt h2)]
    · rename_i hfar
      exact (List.getD_eq_default _ _ (Nat.le_trans (by decide) (Nat.le_of_not_lt hfar))).symm

theorem represents_oneNode {n : Nat} (hn : 1 < n) (d : LDisk) :
    Represents n (withNode d) oneNode [11, 12, 13, 14, 15, 16, 17, 18, 19] where
  blocks := rfl
  len := by decide
  inDisk a ha := by
    rw [indNodes_oneNode, List.mem_singleton] at ha
    rwa [ha]
  zero off hoff := by
    rw [slot_oneNode]
    exact List.getD_eq_default _ _ hoff
  list := by
    have hslot : slot (withNode d) oneNode = fun off => ([11, 12, 13, 14, 15, 16, 17, 18, 19] : List Waddr).getD off 0 :=
      funext (slot_oneNode d)
    rw [blockList, hslot]
    rfl

/-- Three blocks, the last one through the node. -/
theorem read_range_agrees_small :
    twp 10 (readRange oneNode 5 3) (fun r d' => d' = withNode ⟨fun _ => 0, fun _ => True⟩ ∧ r = [16, 17, 18])
      (withNode ⟨fun _ => 0, fun _ => True⟩) :=
  (read_range_agrees (represents_oneNode (by decide) _) (by decide)).1

end Fscq.BlockPtr
