import Fscq.Dir.Name

/-!
# Arrays of records in a file

The blocks of a file hold an array of records: `get` and `put` for one record, `extend` for one more block whose first
record is given, `readall` for all of them and `ifind` for the first one with a property. The array is a function of the
contents of the file (`items`), and each operation is specified by what it does to it.
-/

namespace Fscq

open TxnLogic

namespace FileRecArray

open BFILE (Memstate MsRep IcacheOnly FileDone GrowFail)

section Programs

variable (R : RASig) (xp : FsXparams) (inum : Nat)

def get (ix : Nat) (ms : Memstate) : TBody (Memstate × R.Item) := do
  let (ms, v) ← BFILE.readArray xp inum 0 (ix / R.itemsPerVal) ms
  pure (ms, R.selNVal2block v (ix % R.itemsPerVal))

def put (ix : Nat) (item : R.Item) (ms : Memstate) : TBody Memstate := do
  let (ms, v) ← BFILE.readArray xp inum 0 (ix / R.itemsPerVal) ms
  let v' := R.block2valUpdNVal2block v (ix % R.itemsPerVal) item
  BFILE.writeArray xp inum 0 (ix / R.itemsPerVal) v' ms

/-- Append a block with the item at its first entry. -/
def extend (item : R.Item) (ms : Memstate) : TBody (Memstate × Except Errno Unit) :=
  BFILE.grow xp inum (R.block2val (R.block0.set 0 item)) ms

def readall (ms : Memstate) : TBody (Memstate × List R.Item) := do
  let (ms, nr) ← BFILE.getlen xp inum ms
  BFILE.readRange xp inum 0 nr R.iunpack [] ms

/-- Find the first item that satisfies `cond`. -/
def ifind (cond : R.Item → Nat → Bool) (ms0 : Memstate) : TBody (Memstate × Option (Nat × R.Item)) := do
  let (ms, nr) ← BFILE.getlen xp inum ms0
  .forN (fun i (p : Memstate × Option (Nat × R.Item)) =>
    if p.2.isSome then pure p
    else do
      let (ms, v) ← BFILE.readArray xp inum 0 i p.1
      match ifindList cond (R.val2block v) (i * R.itemsPerVal) with
      | none => pure (ms, none)
      | some ifs => pure (ms, some ifs)) 0 nr (ms, none)

end Programs

/-! ## The array -/

variable {R : RASig} {xp : FsXparams} {inum n : Nat} {d : LDisk} {ms : Memstate}

/-- The records of a file. -/
def items (R : RASig) (data : List Valu) : List R.Item := data.flatMap R.val2block

theorem length_items (R : RASig) (data : List Valu) : (items R data).length = data.length * R.itemsPerVal :=
  R.length_flatMap_val2block data

theorem items_append (R : RASig) (data data' : List Valu) : items R (data ++ data') = items R data ++ items R data' :=
  List.flatMap_append

theorem items_cons (R : RASig) (v : Valu) (data : List Valu) : items R (v :: data) = R.val2block v ++ items R data :=
  List.flatMap_cons

/-- A record is in the block of its index. -/
theorem getElem?_items {data : List Valu} {ix : Nat} (R : RASig) :
    (items R data)[ix]? = (data[ix / R.itemsPerVal]?).bind fun v => (R.val2block v)[ix % R.itemsPerVal]? := by
  have hpos := R.itemsPerVal_pos
  induction data generalizing ix with
  | nil => rfl
  | cons v data ih =>
    rw [items_cons, List.getElem?_append, R.length_val2block]
    by_cases hlt : ix < R.itemsPerVal
    · rw [if_pos hlt, Nat.div_eq_of_lt hlt, Nat.mod_eq_of_lt hlt]
      rfl
    · obtain ⟨k, rfl⟩ : ∃ k, ix = k + R.itemsPerVal := ⟨ix - R.itemsPerVal, by omega⟩
      rw [if_neg hlt, Nat.add_sub_cancel, ih, Nat.add_div_right _ hpos, Nat.add_mod_right, List.getElem?_cons_succ]

theorem items_set {data : List Valu} {ix : Nat} {x : R.Item} {v : Valu} (hwf : Rec.WellFormed R.itemtype x)
    (hv : data[ix / R.itemsPerVal]? = some v) :
    items R (data.set (ix / R.itemsPerVal) (R.block2valUpdNVal2block v (ix % R.itemsPerVal) x)) =
      (items R data).set ix x := by
  have hpos := R.itemsPerVal_pos
  have hmod := Nat.mod_lt ix hpos
  have hlt := (List.getElem?_eq_some_iff.mp hv).1
  have hix : ix < (items R data).length := by
    rw [length_items]
    exact (Nat.div_lt_iff_lt_mul hpos).mp hlt
  refine List.ext_getElem? fun j => ?_
  rw [getElem?_items, List.getElem?_set, List.getElem?_set]
  by_cases hb : ix / R.itemsPerVal = j / R.itemsPerVal
  · rw [if_pos hb, if_pos hlt, Option.bind_some, R.val2block_updN v hmod hwf, List.getElem?_set, R.length_val2block]
    by_cases hj : ix = j
    · subst hj
      rw [if_pos rfl, if_pos hmod, if_pos rfl, if_pos hix]
    · have hm : ix % R.itemsPerVal ≠ j % R.itemsPerVal := fun hm => hj (by
        rw [← Nat.div_add_mod ix R.itemsPerVal, ← Nat.div_add_mod j R.itemsPerVal, hb, hm])
      rw [if_neg hm, if_neg hj, getElem?_items, ← hb, hv, Option.bind_some]
  · rw [if_neg hb, if_neg fun hj => hb (by rw [hj]), getElem?_items]

theorem block0_eq (R : RASig) : R.block0 = List.replicate R.itemsPerVal R.item0 := by
  have hcast : ∀ {m m' : Nat} (h : m = m'), (0 : BitVec m).cast h = 0 := fun h => by subst h; rfl
  rw [RASig.block0, RASig.val2block, RASig.val2word, hcast]
  exact Rec.wordToArray_zero _ _

theorem items_extend {data : List Valu} {x : R.Item} (hwf : Rec.WellFormed R.itemtype x) :
    items R (data ++ [R.block2val (R.block0.set 0 x)]) =
      items R data ++ (List.replicate R.itemsPerVal R.item0).set 0 x := by
  have hblock : Rec.WellFormed R.blocktype (R.block0.set 0 x) := by
    refine ⟨by rw [List.length_set, block0_eq, List.length_replicate], fun y hy => ?_⟩
    rcases List.mem_or_eq_of_mem_set hy with hy | rfl
    · rw [block0_eq] at hy
      rw [List.eq_of_mem_replicate hy]
      exact R.wellFormed_item0
    · exact hwf
  rw [items_append, items_cons, R.val2block_block2val hblock, block0_eq]
  exact congrArg _ (List.append_nil _)

/-! ## The operations -/

theorem icacheOnly_refl (ms : Memstate) : IcacheOnly ms ms := ⟨ms.msICache, rfl⟩

theorem icacheOnly_trans {ms₁ ms₂ : Memstate} (h₁ : IcacheOnly ms ms₁) (h₂ : IcacheOnly ms₁ ms₂) : IcacheOnly ms ms₂ := by
  obtain ⟨ic, rfl⟩ := h₁
  obtain ⟨ic', rfl⟩ := h₂
  exact ⟨ic', rfl⟩

/-- The state after a program that only reads. -/
structure ReadDone (xp : FsXparams) (ms : Memstate) (d : LDisk) (ms' : Memstate) (d' : LDisk) : Prop where
  disk : d' = d
  icache : IcacheOnly ms ms'
  msrep : MsRep xp d ms'

theorem readDone_refl (hm : MsRep xp d ms) : ReadDone xp ms d ms d := ⟨rfl, icacheOnly_refl ms, hm⟩

theorem ReadDone.fileDone {ms' : Memstate} {d' : LDisk} (h : ReadDone xp ms d ms' d') :
    FileDone xp inum (file xp d inum) ms d ms' d' := by
  obtain ⟨rfl, hic, hm⟩ := h
  exact BFILE.fileDone_icacheOnly hic hm

variable {extra : List Nat} (hxp : xp.Ok n) (hb : BRep xp d extra) (hm : MsRep xp d ms) (hi : inum < xp.nInodes)
include hxp hb hm hi

theorem get_spec {ix : Nat} (hix : ix < (items R (file xp d inum).data).length) :
    twp n (get R xp inum ix ms) (fun r d' => ReadDone xp ms d r.1 d' ∧
      (items R (file xp d inum).data)[ix]? = some r.2) d := by
  have hpos := R.itemsPerVal_pos
  rw [length_items] at hix
  have hblk : 0 + ix / R.itemsPerVal < (file xp d inum).data.length := by
    rw [Nat.zero_add]
    exact (Nat.div_lt_iff_lt_mul hpos).mpr hix
  refine twp_seq (BFILE.read_spec hxp hb hm hi hblk) fun ⟨ms', v⟩ d' ⟨hd, hv, hic, hm'⟩ => ?_
  rw [Nat.zero_add] at hv
  refine ⟨⟨hd, hic, hm'⟩, ?_⟩
  have hmod := Nat.mod_lt ix hpos
  have hlt : ix % R.itemsPerVal < (R.val2block v).length := by rwa [R.length_val2block]
  rw [getElem?_items, hv, Option.bind_some, R.selNVal2block_eq v hmod, List.getD_eq_getElem?_getD,
    List.getElem?_eq_getElem hlt]
  rfl

theorem put_spec {ix : Nat} {x : R.Item} (hix : ix < (items R (file xp d inum).data).length)
    (hwf : Rec.WellFormed R.itemtype x) :
    twp n (put R xp inum ix x ms) (fun ms' d' => ∃ data, items R data = (items R (file xp d inum).data).set ix x ∧
      FileDone xp inum ⟨data, (file xp d inum).attr⟩ ms d ms' d') d := by
  have hpos := R.itemsPerVal_pos
  rw [length_items] at hix
  have hblk : 0 + ix / R.itemsPerVal < (file xp d inum).data.length := by
    rw [Nat.zero_add]
    exact (Nat.div_lt_iff_lt_mul hpos).mpr hix
  refine twp_seq (BFILE.read_spec hxp hb hm hi hblk) fun ⟨ms₁, v⟩ d₁ ⟨hd, hv, hic, hm₁⟩ => ?_
  subst hd
  refine twp_mono (fun ms' d' ⟨hdone, _⟩ => ?_) _ (BFILE.write_spec hxp hb hm₁ hi hblk)
  rw [Nat.zero_add] at hv hdone
  exact ⟨_, items_set hwf hv, (BFILE.fileDone_icacheOnly hic hm₁).trans hdone⟩

theorem extend_spec {x : R.Item} (hwf : Rec.WellFormed R.itemtype x) :
    twp n (extend R xp inum x ms) (fun r d' => (r.2 = .ok () → ∃ data,
      items R data = items R (file xp d inum).data ++ (List.replicate R.itemsPerVal R.item0).set 0 x ∧
      FileDone xp inum ⟨data, (file xp d inum).attr⟩ ms d r.1 d') ∧
      ∀ e, r.2 = .error e → GrowFail xp inum ms d r.1 d') d :=
  twp_mono (fun _ _ ⟨hok, herr⟩ => ⟨fun h => ⟨_, items_extend hwf, (hok h).toFileDone⟩, herr⟩) _
    (BFILE.grow_spec hxp hb hm hi _)

theorem readall_spec : twp n (readall R xp inum ms) (fun r d' => ReadDone xp ms d r.1 d' ∧
    r.2 = items R (file xp d inum).data) d := by
  refine twp_seq (BFILE.getlen_spec hxp hm hi) fun ⟨ms₀, nr⟩ d₀ ⟨hd, hnr, hic, hm₀⟩ => ?_
  subst hd
  obtain rfl : nr = (file xp d₀ inum).data.length := hnr
  have hloop := twp_forN (n := n) (d := d₀) (f := fun i (p : Memstate × List R.Item) => do
      let (ms, v) ← BFILE.readArray xp inum 0 i p.1
      pure (ms, R.iunpack p.2 v))
    (I := fun i p d' => ReadDone xp ms d₀ p.1 d' ∧ p.2 = items R ((file xp d₀ inum).data.take i))
    (file xp d₀ inum).data.length 0 (l := (ms₀, [])) ?_ ⟨⟨rfl, hic, hm₀⟩, rfl⟩
  · rw [Nat.zero_add, List.take_length] at hloop
    exact hloop
  · rintro i ⟨ms₁, l⟩ d₁ _ hlt ⟨⟨rfl, hic₁, hm₁⟩, rfl⟩
    refine twp_seq (BFILE.read_spec hxp hb hm₁ hi (by omega)) fun ⟨ms₂, v⟩ d₂ ⟨hd, hv, hic₂, hm₂⟩ => ?_
    subst hd
    rw [Nat.zero_add] at hv
    refine ⟨⟨rfl, icacheOnly_trans hic₁ hic₂, hm₂⟩, ?_⟩
    rw [List.take_add_one, hv, items_append, RASig.iunpack]
    exact congrArg _ (List.append_nil _).symm

/-- The first record with the property, in the order of the array. -/
theorem ifind_spec (cond : R.Item → Nat → Bool) : twp n (ifind R xp inum cond ms) (fun r d' =>
    ReadDone xp ms d r.1 d' ∧ r.2 = ifindList cond (items R (file xp d inum).data) 0) d := by
  refine twp_seq (BFILE.getlen_spec hxp hm hi) fun ⟨ms₀, nr⟩ d₀ ⟨hd, hnr, hic, hm₀⟩ => ?_
  subst hd
  obtain rfl : nr = (file xp d₀ inum).data.length := hnr
  have hloop := twp_forN (n := n) (d := d₀) (f := fun i (p : Memstate × Option (Nat × R.Item)) =>
      if p.2.isSome then pure p
      else do
        let (ms, v) ← BFILE.readArray xp inum 0 i p.1
        match ifindList cond (R.val2block v) (i * R.itemsPerVal) with
        | none => pure (ms, none)
        | some ifs => pure (ms, some ifs))
    (I := fun i p d' => ReadDone xp ms d₀ p.1 d' ∧ p.2 = ifindList cond (items R ((file xp d₀ inum).data.take i)) 0)
    (file xp d₀ inum).data.length 0 (l := (ms₀, none)) ?_ ⟨⟨rfl, hic, hm₀⟩, rfl⟩
  · rw [Nat.zero_add, List.take_length] at hloop
    exact hloop
  · rintro i ⟨ms₁, r⟩ d₁ _ hlt ⟨⟨rfl, hic₁, hm₁⟩, rfl⟩
    have hblk : i < (file xp d₁ inum).data.length := by omega
    have hstep : ifindList cond (items R ((file xp d₁ inum).data.take (i + 1))) 0 =
        if (ifindList cond (items R ((file xp d₁ inum).data.take i)) 0).isSome then
          ifindList cond (items R ((file xp d₁ inum).data.take i)) 0
        else ifindList cond (R.val2block (file xp d₁ inum).data[i]) (i * R.itemsPerVal) := by
      rw [List.take_add_one, List.getElem?_eq_getElem hblk, items_append, LogRecArray.ifindList_append, length_items,
        List.length_take, Nat.min_eq_left (Nat.le_of_lt hblk), Nat.zero_add, Option.toList_some, items_cons]
      rw [show items R [] = [] from rfl, List.append_nil]
    split
    · rename_i hs
      exact ⟨⟨rfl, hic₁, hm₁⟩, by rw [hstep, if_pos hs]⟩
    · rename_i hs
      refine twp_seq (BFILE.read_spec hxp hb hm₁ hi (by omega)) fun ⟨ms₂, v⟩ d₂ ⟨hd, hv, hic₂, hm₂⟩ => ?_
      subst hd
      rw [Nat.zero_add, List.getElem?_eq_getElem hblk] at hv
      obtain rfl := Option.some.inj hv
      have hres : ∀ o : Option (Nat × R.Item),
          twp n (match o with | none => pure (ms₂, none) | some ifs => pure (ms₂, some ifs))
            (fun (r : Memstate × Option (Nat × R.Item)) d => d = d₂ ∧ r = (ms₂, o)) d₂ := by
        rintro (_ | _) <;> exact ⟨rfl, rfl⟩
      refine twp_mono (fun r d' ⟨h₁, h₂⟩ => ?_) _ (hres _)
      subst h₂
      exact ⟨⟨h₁, icacheOnly_trans hic₁ hic₂, hm₂⟩, by rw [hstep, if_neg hs]⟩

end FileRecArray

end Fscq
