import Fscq.Rec.Basic

/-!
# Arrays of records packed into blocks

A block has `valulen` bits. A `RASig` fixes a record type and how many of its records fill a block exactly;
`val2block` and `block2val` convert between a block and its records, and `ipack` packs a list of records into blocks,
padding the last one with zero records. Unpacking the blocks of a list gives back the list and its padding
(`flatMap_val2block_nopadIpack`), and packing what was unpacked gives back the blocks (`ipack_flatMap_val2block`).
-/

namespace Fscq

def valulen : Nat := 32768

def addrlen : Nat := 64

def hashlen : Nat := 32

/-- The contents of a disk block. -/
abbrev Valu := BitVec valulen

abbrev Waddr := BitVec 64

instance : Inhabited Valu := ⟨0⟩

/-! ## Rounding and chunks -/

def divup (n unitsz : Nat) : Nat := (n + unitsz - 1) / unitsz

def roundup (n unitsz : Nat) : Nat := divup n unitsz * unitsz

def setlen {A : Type} (l : List A) (n : Nat) (d : A) : List A := l.take n ++ List.replicate (n - l.length) d

def listChunk' {A : Type} (l : List A) (sz : Nat) (d : A) : Nat → List (List A)
  | 0 => []
  | nr + 1 => setlen l sz d :: listChunk' (l.drop sz) sz d nr

def nopadListChunk' {A : Type} (l : List A) (sz : Nat) : Nat → List (List A)
  | 0 => []
  | nr + 1 => l.take sz :: nopadListChunk' (l.drop sz) sz nr

/-- Cut `l` into chunks of length `sz`, padding the last one with `d`. -/
def listChunk {A : Type} (l : List A) (sz : Nat) (d : A) : List (List A) := listChunk' l sz d (divup l.length sz)

/-- Cut `l` into chunks of length `sz`; the last one may be shorter. -/
def nopadListChunk {A : Type} (l : List A) (sz : Nat) : List (List A) := nopadListChunk' l sz (divup l.length sz)

theorem divup_le_iff {n k sz : Nat} (hsz : 0 < sz) : divup n sz ≤ k ↔ n ≤ k * sz := by
  rw [divup, ← Nat.lt_succ_iff, Nat.div_lt_iff_lt_mul hsz, Nat.succ_mul]
  omega

theorem divup_mul (k : Nat) {sz : Nat} (hsz : 0 < sz) : divup (k * sz) sz = k := by
  have h₁ : divup (k * sz) sz ≤ k := (divup_le_iff hsz).2 (Nat.le_refl _)
  have h₂ : k * sz ≤ divup (k * sz) sz * sz := (divup_le_iff hsz).1 (Nat.le_refl _)
  exact Nat.le_antisymm h₁ (Nat.le_of_mul_le_mul_right h₂ hsz)

theorem le_roundup (n : Nat) {sz : Nat} (hsz : 0 < sz) : n ≤ divup n sz * sz := (divup_le_iff hsz).1 (Nat.le_refl _)

theorem divup_zero {sz : Nat} (hsz : 0 < sz) : divup 0 sz = 0 := by
  rw [divup, Nat.div_eq_of_lt]; omega

@[simp] theorem length_listChunk' {A : Type} (sz : Nat) (d : A) : ∀ (nr : Nat) (l : List A),
    (listChunk' l sz d nr).length = nr
  | 0, _ => rfl
  | nr + 1, l => by rw [listChunk', List.length_cons, length_listChunk' sz d nr]

@[simp] theorem length_nopadListChunk' {A : Type} (sz : Nat) : ∀ (nr : Nat) (l : List A),
    (nopadListChunk' l sz nr).length = nr
  | 0, _ => rfl
  | nr + 1, l => by rw [nopadListChunk', List.length_cons, length_nopadListChunk' sz nr]

/-! ## Blocks of records -/

/-- Records that fill a block. -/
structure RASig where
  itemtype : Rec.Typ
  itemsPerVal : Nat
  blocksz_ok : valulen = Rec.len (.ArrayF itemtype itemsPerVal)

namespace RASig

variable (R : RASig)

abbrev Item : Type := Rec.data R.itemtype

def item0 : R.Item := Rec.ofWord R.itemtype 0

abbrev blocktype : Rec.Typ := .ArrayF R.itemtype R.itemsPerVal

abbrev Block : Type := Rec.data R.blocktype

def val2word (v : Valu) : BitVec (Rec.len R.blocktype) := v.cast R.blocksz_ok

def word2val (w : BitVec (Rec.len R.blocktype)) : Valu := w.cast R.blocksz_ok.symm

def block2val (b : List R.Item) : Valu := R.word2val (Rec.toWord R.blocktype b)

def val2block (v : Valu) : List R.Item := Rec.ofWord R.blocktype (R.val2word v)

def block0 : List R.Item := R.val2block 0

def ipack (items : List R.Item) : List Valu := (listChunk items R.itemsPerVal R.item0).map R.block2val

def nopadIpack (items : List R.Item) : List Valu := (nopadListChunk items R.itemsPerVal).map R.block2val

def iunpack (r : List R.Item) (v : Valu) : List R.Item := r ++ R.val2block v

theorem itemsPerVal_pos : 0 < R.itemsPerVal := by
  rcases Nat.eq_zero_or_pos R.itemsPerVal with h0 | hpos
  · have hlen := R.blocksz_ok
    rw [Rec.len, h0, Nat.zero_mul] at hlen
    exact absurd hlen (by decide)
  · exact hpos

@[simp] theorem block2val_val2block (v : Valu) : R.block2val (R.val2block v) = v := by
  rw [block2val, val2block, Rec.toWord_ofWord]
  simp [word2val, val2word]

theorem toNat_block2val (b : List R.Item) :
    (R.block2val b).toNat = (Rec.arrayToWord (Rec.toWord R.itemtype) R.itemsPerVal b).toNat := by
  rw [block2val, word2val, BitVec.toNat_cast]; rfl

theorem val2block_block2val {b : List R.Item} (hb : Rec.WellFormed R.blocktype b) :
    R.val2block (R.block2val b) = b := by
  rw [val2block, block2val, word2val, val2word, BitVec.cast_cast, BitVec.cast_eq, Rec.ofWord_toWord _ _ hb]

@[simp] theorem length_val2block (v : Valu) : (R.val2block v).length = R.itemsPerVal :=
  (Rec.wellFormed_ofWord R.blocktype (R.val2word v)).1

theorem wellFormed_val2block {v : Valu} {x : R.Item} (hx : x ∈ R.val2block v) : Rec.WellFormed R.itemtype x :=
  (Rec.wellFormed_ofWord R.blocktype (R.val2word v)).2 x hx

theorem length_flatMap_val2block (vl : List Valu) :
    (vl.flatMap R.val2block).length = vl.length * R.itemsPerVal := by
  induction vl with
  | nil => simp
  | cons v vl ih => rw [List.flatMap_cons, List.length_append, ih, length_val2block, List.length_cons, Nat.succ_mul,
      Nat.add_comm]

theorem foldl_iunpack (vl : List Valu) (acc : List R.Item) :
    vl.foldl R.iunpack acc = acc ++ vl.flatMap R.val2block := by
  induction vl generalizing acc with
  | nil => simp
  | cons v vl ih => rw [List.foldl_cons, ih, iunpack, List.flatMap_cons, List.append_assoc]

theorem ipack_flatMap_val2block (vl : List Valu) : R.ipack (vl.flatMap R.val2block) = vl := by
  have hchunk : ∀ vl : List Valu,
      (listChunk' (vl.flatMap R.val2block) R.itemsPerVal R.item0 vl.length).map R.block2val = vl := by
    intro vl
    induction vl with
    | nil => rfl
    | cons v vl ih =>
      have htake : (R.val2block v ++ vl.flatMap R.val2block).take R.itemsPerVal = R.val2block v := by
        rw [List.take_append_of_le_length (by simp), ← R.length_val2block v, List.take_length]
      have hdrop : (R.val2block v ++ vl.flatMap R.val2block).drop R.itemsPerVal = vl.flatMap R.val2block := by
        rw [← R.length_val2block v, List.drop_left]
      have hpad : R.itemsPerVal - (R.val2block v ++ vl.flatMap R.val2block).length = 0 := by
        rw [List.length_append, length_val2block]; omega
      rw [List.flatMap_cons, List.length_cons, listChunk', setlen, htake, hdrop, hpad, List.replicate_zero,
        List.append_nil, List.map_cons, block2val_val2block, ih]
  rw [ipack, listChunk, length_flatMap_val2block, divup_mul _ R.itemsPerVal_pos]
  exact hchunk vl

theorem length_ipack (items : List R.Item) : (R.ipack items).length = divup items.length R.itemsPerVal := by
  simp [ipack, listChunk]

theorem length_nopadIpack (items : List R.Item) :
    (R.nopadIpack items).length = divup items.length R.itemsPerVal := by
  simp [nopadIpack, nopadListChunk]

theorem wellFormed_item0 : Rec.WellFormed R.itemtype R.item0 := Rec.wellFormed_ofWord _ _

/-- A short block is packed as if it were padded with zero records. -/
theorem block2val_pad (b : List R.Item) (k : Nat) :
    R.block2val (b ++ List.replicate k R.item0) = R.block2val b := by
  have hz : Rec.toWord R.itemtype R.item0 = 0 := Rec.toWord_ofWord _ _
  rw [block2val, block2val]
  exact congrArg R.word2val (Rec.arrayToWord_pad hz R.itemsPerVal b k)

/-- Unpacking a packed block gives its records and the padding. -/
theorem val2block_block2val_pad {b : List R.Item} (hlen : b.length ≤ R.itemsPerVal)
    (hwf : ∀ x ∈ b, Rec.WellFormed R.itemtype x) :
    R.val2block (R.block2val b) = b ++ List.replicate (R.itemsPerVal - b.length) R.item0 := by
  rw [← R.block2val_pad b (R.itemsPerVal - b.length)]
  apply R.val2block_block2val
  refine ⟨by rw [List.length_append, List.length_replicate]; omega, fun x hx => ?_⟩
  rcases List.mem_append.1 hx with hx | hx
  · exact hwf x hx
  · rw [List.eq_of_mem_replicate hx]; exact R.wellFormed_item0

theorem flatMap_val2block_nopadChunk : ∀ (nr : Nat) (l : List R.Item), l.length ≤ nr * R.itemsPerVal →
    (∀ x ∈ l, Rec.WellFormed R.itemtype x) →
    ((nopadListChunk' l R.itemsPerVal nr).map R.block2val).flatMap R.val2block =
      l ++ List.replicate (nr * R.itemsPerVal - l.length) R.item0
  | 0, l, hl, _ => by
    rw [Nat.zero_mul] at hl
    rw [List.length_eq_zero_iff.1 (Nat.le_zero.1 hl)]; simp [nopadListChunk']
  | nr + 1, l, hl, hwf => by
    rw [Nat.succ_mul] at hl
    have ih := flatMap_val2block_nopadChunk nr (l.drop R.itemsPerVal) (by rw [List.length_drop]; omega)
      fun x hx => hwf x (List.mem_of_mem_drop hx)
    rw [nopadListChunk', List.map_cons, List.flatMap_cons, ih,
      R.val2block_block2val_pad (List.length_take_le _ _) fun x hx => hwf x (List.mem_of_mem_take hx),
      List.length_take, List.length_drop, Nat.succ_mul]
    rcases Nat.le_total R.itemsPerVal l.length with hge | hlt
    · rw [Nat.min_eq_left hge, Nat.sub_self, List.replicate_zero, List.append_nil, ← List.append_assoc,
        List.take_append_drop]
      congr 2; omega
    · rw [Nat.min_eq_right hlt, List.take_of_length_le hlt, List.drop_of_length_le hlt, List.nil_append,
        List.append_assoc, List.replicate_append_replicate]
      congr 2; omega

theorem flatMap_val2block_nopadIpack {l : List R.Item} (hwf : ∀ x ∈ l, Rec.WellFormed R.itemtype x) :
    (R.nopadIpack l).flatMap R.val2block =
      l ++ List.replicate (roundup l.length R.itemsPerVal - l.length) R.item0 :=
  R.flatMap_val2block_nopadChunk _ l (le_roundup _ R.itemsPerVal_pos) hwf

/-- Padding before or while packing is the same. -/
theorem ipack_eq_nopadIpack (l : List R.Item) : R.ipack l = R.nopadIpack l := by
  have hchunk : ∀ (nr : Nat) (l : List R.Item),
      (listChunk' l R.itemsPerVal R.item0 nr).map R.block2val = (nopadListChunk' l R.itemsPerVal nr).map R.block2val := by
    intro nr
    induction nr with
    | zero => intro l; rfl
    | succ nr ih => intro l; rw [listChunk', nopadListChunk', List.map_cons, List.map_cons, ih, setlen, block2val_pad]
  exact hchunk _ l

/-- Whole blocks of records are read back as they were written. -/
theorem foldl_iunpack_ipack {items : List R.Item} (hwf : ∀ x ∈ items, Rec.WellFormed R.itemtype x)
    (hlen : R.itemsPerVal ∣ items.length) : (R.ipack items).foldl R.iunpack [] = items := by
  obtain ⟨k, hk⟩ := hlen
  rw [Nat.mul_comm] at hk
  have hround : roundup items.length R.itemsPerVal = items.length := by
    rw [roundup, hk, divup_mul k R.itemsPerVal_pos]
  rw [foldl_iunpack, List.nil_append, ipack_eq_nopadIpack, flatMap_val2block_nopadIpack R hwf, hround, Nat.sub_self,
    List.replicate_zero, List.append_nil]

/-- Every block has records, and they are well formed. -/
theorem foldl_iunpack_wellFormed (vl : List Valu) : R.itemsPerVal ∣ (vl.foldl R.iunpack []).length ∧
    ∀ x ∈ vl.foldl R.iunpack [], Rec.WellFormed R.itemtype x := by
  rw [foldl_iunpack, List.nil_append]
  constructor
  · rw [length_flatMap_val2block]
    exact Nat.dvd_mul_left _ _
  · intro x hx
    obtain ⟨v, _, hv⟩ := List.mem_flatMap.1 hx
    exact R.wellFormed_val2block hv

theorem ipack_foldl_iunpack (vl : List Valu) : R.ipack (vl.foldl R.iunpack []) = vl := by
  rw [foldl_iunpack, List.nil_append, ipack_flatMap_val2block]

end RASig

/-! ## The encodings are bijections -/

/-- Records and words, blocks and their records, lists of records and lists of blocks determine each other. -/
theorem record_encoding_bijective :
    (∀ t : Rec.Typ, (∀ r, Rec.WellFormed t r → Rec.ofWord t (Rec.toWord t r) = r) ∧
      (∀ w, Rec.toWord t (Rec.ofWord t w) = w) ∧ ∀ w, Rec.WellFormed t (Rec.ofWord t w)) ∧
    ∀ R : RASig,
      (∀ b, Rec.WellFormed R.blocktype b → R.val2block (R.block2val b) = b) ∧
      (∀ v, R.block2val (R.val2block v) = v) ∧
      (∀ items, (∀ x ∈ items, Rec.WellFormed R.itemtype x) → R.itemsPerVal ∣ items.length →
        (R.ipack items).foldl R.iunpack [] = items) ∧
      ∀ vl : List Valu, R.ipack (vl.foldl R.iunpack []) = vl ∧ R.itemsPerVal ∣ (vl.foldl R.iunpack []).length ∧
        ∀ x ∈ vl.foldl R.iunpack [], Rec.WellFormed R.itemtype x := by
  refine ⟨fun t => ⟨Rec.ofWord_toWord t, Rec.toWord_ofWord t, Rec.wellFormed_ofWord t⟩, fun R => ?_⟩
  refine ⟨fun b hb => R.val2block_block2val hb, R.block2val_val2block, fun items => R.foldl_iunpack_ipack, fun vl => ?_⟩
  exact ⟨R.ipack_foldl_iunpack vl, R.foldl_iunpack_wellFormed vl⟩

end Fscq
