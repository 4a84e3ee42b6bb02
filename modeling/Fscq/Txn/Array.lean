import Fscq.Cache.Spec
import Fscq.Rec.Shift
import Fscq.Txn.Agree

/-!
# Arrays of records in a transaction

`LogRecArray` keeps an array of records in consecutive blocks: `get` and `put` for one record, `read` and `write` for
all of them, `ifind` for the first one with a property. The contents of the array are a function of the disk (`item`), so
an operation is specified by what it does to it. `LogRecArrayCache` keeps the records it has seen in memory.
-/

namespace Fscq

open TxnLogic

/-- Bodies of transactions on the blocks of the log. -/
abbrev TBody (α : Type) := Body Valu α

abbrev LDisk := Disk Valu

namespace LOG

def readArray (a i : Nat) : TBody Valu := .readAt (a + i)

def writeArray (a i : Nat) (v : Valu) : TBody Unit := .writeAt (a + i) v

def readRange {A : Type} (a nr : Nat) (vfold : A → Valu → A) (v0 : A) : TBody A :=
  .forN (fun i pf => do
    let v ← readArray a i
    pure (vfold pf v)) 0 nr v0

def writeRange (a : Nat) (l : List Valu) : TBody Unit :=
  .forN (fun i _ => writeArray a i (l.getD i 0)) 0 l.length ()

variable {n : Nat} {d : LDisk}

theorem readRange_spec {A : Type} {a nr : Nat} {vfold : A → Valu → A} {v0 : A} (ha : a + nr ≤ n) :
    twp n (readRange a nr vfold v0)
      (fun r d' => d' = d ∧ r = ((List.range nr).map fun i => d (a + i)).foldl vfold v0) d := by
  have hloop := twp_forN (n := n) (d := d) (f := fun i pf => do
      let v ← readArray a i
      pure (vfold pf v))
    (I := fun i r d' => d' = d ∧ r = ((List.range i).map fun i => d (a + i)).foldl vfold v0) nr 0 (l := v0) ?_ ⟨rfl, rfl⟩
  · rwa [Nat.zero_add] at hloop
  · rintro i r d' _ hi ⟨rfl, rfl⟩
    refine ⟨by omega, rfl, ?_⟩
    rw [List.range_succ, List.map_append, List.foldl_append]; rfl

/-- The blocks of `l` from `a` on. -/
def updRange (d : LDisk) (a : Nat) (l : List Valu) : LDisk :=
  ⟨fun x => if a ≤ x ∧ x < a + l.length then l.getD (x - a) 0 else d x, fun x => (a ≤ x ∧ x < a + l.length) ∨ d.plain x⟩

theorem updRange_apply (d : LDisk) (a : Nat) (l : List Valu) (x : Nat) :
    updRange d a l x = if a ≤ x ∧ x < a + l.length then l.getD (x - a) 0 else d x := rfl

theorem writeRange_spec {a : Nat} {l : List Valu} (ha : a + l.length ≤ n) (h0 : a ≠ 0) :
    twp n (writeRange a l) (fun _ d' => d' = updRange d a l) d := by
  have hloop := twp_forN (n := n) (d := d) (f := fun i (_ : Unit) => writeArray a i (l.getD i 0))
    (I := fun i _ d' => (∀ x, d' x = if a ≤ x ∧ x < a + i then l.getD (x - a) 0 else d x) ∧
      ∀ x, d'.plain x ↔ (a ≤ x ∧ x < a + i) ∨ d.plain x) l.length 0 (l := ()) ?_ ?_
  · rw [Nat.zero_add] at hloop
    exact twp_mono (fun _ d' h => Disk.ext h.1 h.2) _ hloop
  · rintro i _ d' _ hi ⟨hval, hplain⟩
    refine ⟨by omega, by omega, fun x => ?_, fun x => ?_⟩
    · by_cases hx : x = a + i
      · subst hx
        rw [Disk.set_self, if_pos (by omega), Nat.add_sub_cancel_left]
      · rw [Disk.set_of_ne hx, hval]
        exact if_congr (by omega) rfl rfl
    · rw [Disk.plain_set, hplain, ← or_assoc]
      exact or_congr (by omega) Iff.rfl
  · exact ⟨fun x => by rw [if_neg (by omega)], fun x => ⟨.inr, fun h => h.resolve_left (by omega)⟩⟩

end LOG

/-! ## Arrays of records -/

def ifindList {A : Type} (cond : A → Nat → Bool) : List A → Nat → Option (Nat × A)
  | [], _ => none
  | x :: xs, start => if cond x start then some (start, x) else ifindList cond xs (start + 1)

theorem ifindList_eq_none_iff {A : Type} {cond : A → Nat → Bool} : ∀ {l : List A} {start : Nat},
    ifindList cond l start = none ↔ ∀ i x, l[i]? = some x → cond x (start + i) = false
  | [], start => by simp [ifindList]
  | y :: l, start => by
    rw [ifindList]
    by_cases hc : cond y start
    · simp only [hc, if_true, reduceCtorEq, false_iff]
      intro h
      have h0 := h 0 y rfl
      simp [hc] at h0
    · rw [if_neg hc, ifindList_eq_none_iff]
      constructor
      · rintro h (_ | i) x hx
        · cases hx
          simpa using hc
        · have := h i x hx
          rwa [Nat.add_right_comm, Nat.add_assoc] at this
      · intro h i x hx
        have := h (i + 1) x hx
        rwa [← Nat.add_assoc, Nat.add_right_comm] at this

/-- The search gives the first element with the property, and its index. -/
theorem ifindList_eq_some_iff {A : Type} {cond : A → Nat → Bool} {ix : Nat} {x : A} : ∀ {l : List A} {start : Nat},
    ifindList cond l start = some (ix, x) ↔
      ∃ j, ix = start + j ∧ l[j]? = some x ∧ cond x ix = true ∧
        ∀ i y, i < j → l[i]? = some y → cond y (start + i) = false
  | [], start => by simp [ifindList]
  | z :: l, start => by
    rw [ifindList]
    by_cases hc : cond z start
    · rw [if_pos hc, Option.some_inj, Prod.mk.injEq]
      constructor
      · rintro ⟨rfl, rfl⟩
        exact ⟨0, rfl, rfl, hc, fun i y hi => absurd hi (Nat.not_lt_zero i)⟩
      · rintro ⟨_ | j, rfl, hx, _, hbefore⟩
        · cases hx
          exact ⟨rfl, rfl⟩
        · have := hbefore 0 z (Nat.succ_pos j) rfl
          simp [hc] at this
    · rw [if_neg hc, ifindList_eq_some_iff]
      constructor
      · rintro ⟨j, rfl, hx, hcond, hbefore⟩
        refine ⟨j + 1, by omega, hx, hcond, ?_⟩
        rintro (_ | i) y hi hy
        · cases hy
          simpa using hc
        · have := hbefore i y (by omega) hy
          rwa [Nat.add_right_comm, Nat.add_assoc] at this
      · rintro ⟨_ | j, rfl, hx, hcond, hbefore⟩
        · cases hx
          exact absurd hcond hc
        · refine ⟨j, by omega, hx, hcond, fun i y hi hy => ?_⟩
          have := hbefore (i + 1) y (by omega) hy
          rwa [← Nat.add_assoc, Nat.add_right_comm] at this

namespace LogRecArray

variable (R : RASig)

def get (start ix : Nat) : TBody R.Item := do
  let v ← LOG.readArray start (ix / R.itemsPerVal)
  pure (R.selNVal2block v (ix % R.itemsPerVal))

def put (start ix : Nat) (item : R.Item) : TBody Unit := do
  let v ← LOG.readArray start (ix / R.itemsPerVal)
  let v' := R.block2valUpdNVal2block v (ix % R.itemsPerVal) item
  LOG.writeArray start (ix / R.itemsPerVal) v'

/-- Read `nblocks` blocks from the beginning. -/
def read (start nblocks : Nat) : TBody (List R.Item) := LOG.readRange start nblocks R.iunpack []

/-- Write all items from the beginning. -/
def write (start : Nat) (items : List R.Item) : TBody Unit := LOG.writeRange start (R.ipack items)

/-- Set all items to zero. -/
def init (start len : Nat) : TBody Unit := LOG.writeRange start (List.replicate len 0)

/-- Find the first item that satisfies `cond`. -/
def ifind (start len : Nat) (cond : R.Item → Nat → Bool) : TBody (Option (Nat × R.Item)) :=
  .forN (fun i ret =>
    if ret.isSome then pure ret
    else do
      let v ← LOG.readArray start i
      match ifindList cond (R.val2block v) (i * R.itemsPerVal) with
      | none => pure none
      | some ifs => pure (some ifs)) 0 len none

/-- The record at index `ix` of the array that starts at block `start`. -/
def item (start : Nat) (d : LDisk) (ix : Nat) : R.Item :=
  (R.val2block (d (start + ix / R.itemsPerVal))).getD (ix % R.itemsPerVal) R.item0

variable {R} {n : Nat} {d d' : LDisk} {start ix : Nat}

theorem wellFormed_item (start : Nat) (d : LDisk) (ix : Nat) : Rec.WellFormed R.itemtype (item R start d ix) := by
  have hlt : ix % R.itemsPerVal < (R.val2block (d (start + ix / R.itemsPerVal))).length := by
    rw [R.length_val2block]; exact Nat.mod_lt _ R.itemsPerVal_pos
  rw [item, List.getD_eq_getElem?_getD, List.getElem?_eq_getElem hlt]
  exact R.wellFormed_val2block (List.getElem_mem hlt)

/-- The record depends on its block only. -/
theorem item_congr (h : d' (start + ix / R.itemsPerVal) = d (start + ix / R.itemsPerVal)) :
    item R start d' ix = item R start d ix := by
  rw [item, item, h]

theorem get_spec {Q : R.Item → LDisk → Prop} (ha : start + ix / R.itemsPerVal < n) (hQ : Q (item R start d ix) d) :
    twp n (get R start ix) Q d := by
  have hsel := R.selNVal2block_eq (d (start + ix / R.itemsPerVal)) (Nat.mod_lt ix R.itemsPerVal_pos)
  exact ⟨ha, twp_ret.2 (hsel ▸ hQ)⟩

/-- The disk after one record is replaced. -/
def putItem (d : LDisk) (start ix : Nat) (x : R.Item) : LDisk :=
  d.set (start + ix / R.itemsPerVal)
    (R.block2valUpdNVal2block (d (start + ix / R.itemsPerVal)) (ix % R.itemsPerVal) x)

theorem put_spec {Q : Unit → LDisk → Prop} {x : R.Item} (ha : start + ix / R.itemsPerVal < n) (h0 : start ≠ 0)
    (hQ : Q () (putItem d start ix x)) : twp n (put R start ix x) Q d :=
  ⟨ha, Nat.ne_of_gt (Nat.add_pos_left (Nat.pos_of_ne_zero h0) _), ha, hQ⟩

theorem putItem_of_ne {x : R.Item} {a : Nat} (h : a ≠ start + ix / R.itemsPerVal) : putItem d start ix x a = d a :=
  Disk.set_of_ne h _ _

theorem putItem_putItem (d : LDisk) (start ix : Nat) (x y : R.Item) :
    putItem (putItem d start ix x) start ix y = putItem d start ix y := by
  have hlt := Nat.mod_lt ix R.itemsPerVal_pos
  simp only [putItem, Disk.set_self, R.block2valUpdNVal2block_twice _ hlt, Disk.set_set]

theorem item_putItem {x : R.Item} (hwf : Rec.WellFormed R.itemtype x) (j : Nat) :
    item R start (putItem d start ix x) j = if j = ix then x else item R start d j := by
  have hpos := R.itemsPerVal_pos
  have hlt := Nat.mod_lt ix hpos
  by_cases hb : j / R.itemsPerVal = ix / R.itemsPerVal
  · rw [item, putItem, hb, Disk.set_self, R.val2block_updN _ hlt hwf, List.getD_eq_getElem?_getD,
      List.getElem?_set, R.length_val2block]
    by_cases hj : j = ix
    · subst hj
      rw [if_pos rfl, if_pos hlt, if_pos rfl]; rfl
    · have hm : ix % R.itemsPerVal ≠ j % R.itemsPerVal := fun hm => hj (by
        rw [← Nat.div_add_mod j R.itemsPerVal, ← Nat.div_add_mod ix R.itemsPerVal, hb, hm])
      rw [if_neg hm, if_neg hj, item, hb, List.getD_eq_getElem?_getD]
  · rw [if_neg fun hj => hb (by rw [hj])]
    exact item_congr (putItem_of_ne (by omega))

theorem map_item_eq_flatMap (start : Nat) (d : LDisk) (k : Nat) :
    (List.range (k * R.itemsPerVal)).map (item R start d) =
      ((List.range k).map fun i => d (start + i)).flatMap R.val2block := by
  induction k with
  | zero => simp
  | succ k ih =>
    have hblock : ((List.range R.itemsPerVal).map fun i => item R start d (k * R.itemsPerVal + i)) =
        R.val2block (d (start + k)) := by
      refine List.ext_getElem (by simp) fun i h₁ h₂ => ?_
      have hi : i < R.itemsPerVal := by simpa using h₁
      have hdiv : (k * R.itemsPerVal + i) / R.itemsPerVal = k := by
        rw [Nat.mul_comm, Nat.mul_add_div R.itemsPerVal_pos, Nat.div_eq_of_lt hi, Nat.add_zero]
      simp [item, hdiv, Nat.mod_eq_of_lt hi, List.getD_eq_getElem?_getD, List.getElem?_eq_getElem h₂]
    rw [Nat.succ_mul, List.range_add, List.map_append, List.map_map, ih, List.range_succ, List.map_append,
      List.flatMap_append, List.map_singleton, List.flatMap_singleton, ← hblock]
    rfl

/-- All records of the first `nblocks` blocks. -/
theorem read_spec {nblocks : Nat} (ha : start + nblocks ≤ n) :
    twp n (read R start nblocks)
      (fun r d' => d' = d ∧ r = (List.range (nblocks * R.itemsPerVal)).map (item R start d)) d := by
  refine twp_mono (fun r d' ⟨hd, hr⟩ => ⟨hd, ?_⟩) _ (LOG.readRange_spec ha)
  rw [hr, R.foldl_iunpack, List.nil_append, map_item_eq_flatMap]

theorem map_updRange (d : LDisk) (start : Nat) (l : List Valu) :
    ((List.range l.length).map fun i => LOG.updRange d start l (start + i)) = l := by
  refine List.ext_getElem (by simp) fun i h₁ h₂ => ?_
  simp [LOG.updRange, h₂]

/-- Writing all records of an array. -/
theorem write_spec {len : Nat} {items : List R.Item} (hlen : items.length = len * R.itemsPerVal)
    (hwf : ∀ x ∈ items, Rec.WellFormed R.itemtype x) (ha : start + len ≤ n) (h0 : start ≠ 0) :
    twp n (write R start items) (fun _ d' =>
      (List.range (len * R.itemsPerVal)).map (item R start d') = items ∧
      (∀ a, ¬(start ≤ a ∧ a < start + len) → d' a = d a) ∧
      ∀ a, (start ≤ a ∧ a < start + len) ∨ d.plain a → d'.plain a) d := by
  have hblocks : (R.ipack items).length = len := by
    rw [R.length_ipack, hlen, divup_mul _ R.itemsPerVal_pos]
  refine twp_mono (fun _ d' hd => ?_) _ (LOG.writeRange_spec (by omega) h0)
  subst hd
  refine ⟨?_, fun a ha => if_neg (by rwa [hblocks]), fun a ha => by rwa [← hblocks] at ha⟩
  have hmap := map_updRange d start (R.ipack items)
  rw [hblocks] at hmap
  rw [map_item_eq_flatMap, hmap, R.ipack_eq_nopadIpack, R.flatMap_val2block_nopadIpack hwf, hlen, roundup,
    divup_mul _ R.itemsPerVal_pos, Nat.sub_self, List.replicate_zero, List.append_nil]

/-- Formatting zeroes the blocks. -/
theorem init_spec {len : Nat} (ha : start + len ≤ n) (h0 : start ≠ 0) :
    twp n (init start len) (fun _ d' => ∀ a, d' a = if start ≤ a ∧ a < start + len then 0 else d a) d := by
  refine twp_mono (fun _ d' hd a => ?_) _ (LOG.writeRange_spec (by rwa [List.length_replicate]) h0)
  rw [hd, LOG.updRange_apply, List.length_replicate]
  by_cases ha : start ≤ a ∧ a < start + len
  · rw [if_pos ha, if_pos ha, List.getD_eq_getElem?_getD, List.getElem?_replicate, if_pos (by omega)]; rfl
  · rw [if_neg ha, if_neg ha]

theorem ifindList_append {A : Type} (cond : A → Nat → Bool) : ∀ (xs ys : List A) (start : Nat),
    ifindList cond (xs ++ ys) start =
      if (ifindList cond xs start).isSome then ifindList cond xs start else ifindList cond ys (start + xs.length)
  | [], ys, start => rfl
  | x :: xs, ys, start => by
    rw [List.cons_append, ifindList, ifindList]
    by_cases hc : cond x start
    · simp [hc]
    · rw [if_neg hc, if_neg hc, ifindList_append cond xs ys, List.length_cons, Nat.add_right_comm, Nat.add_assoc start]

/-- The first record with the property, in the order of the array. -/
theorem ifind_spec {len : Nat} {cond : R.Item → Nat → Bool} (ha : start + len ≤ n) :
    twp n (ifind R start len cond) (fun r d' => d' = d ∧
      r = ifindList cond ((List.range (len * R.itemsPerVal)).map (item R start d)) 0) d := by
  have hloop := twp_forN (n := n) (d := d) (f := fun i (ret : Option (Nat × R.Item)) =>
      if ret.isSome then pure ret
      else do
        let v ← LOG.readArray start i
        match ifindList cond (R.val2block v) (i * R.itemsPerVal) with
        | none => pure none
        | some ifs => pure (some ifs))
    (I := fun i r d' => d' = d ∧ r = ifindList cond ((List.range (i * R.itemsPerVal)).map (item R start d)) 0)
    len 0 (l := none) ?_ ⟨rfl, by simp [ifindList]⟩
  · rwa [Nat.zero_add] at hloop
  · rintro i r d' _ hi ⟨rfl, rfl⟩
    have hstep : ifindList cond ((List.range ((i + 1) * R.itemsPerVal)).map (item R start d')) 0 =
        if (ifindList cond ((List.range (i * R.itemsPerVal)).map (item R start d')) 0).isSome then
          ifindList cond ((List.range (i * R.itemsPerVal)).map (item R start d')) 0
        else ifindList cond (R.val2block (d' (start + i))) (i * R.itemsPerVal) := by
      rw [map_item_eq_flatMap, List.range_succ, List.map_append, List.flatMap_append, List.map_singleton,
        List.flatMap_singleton, ← map_item_eq_flatMap, ifindList_append, List.length_map, List.length_range, Nat.zero_add]
    split
    · rename_i hs
      exact ⟨rfl, by rw [hstep, if_pos hs]⟩
    · rename_i hs
      refine ⟨by omega, ?_⟩
      have hres : ∀ o : Option (Nat × R.Item),
          twp n (match o with | none => pure none | some ifs => pure (some ifs)) (fun r d => d = d' ∧ r = o) d' := by
        rintro (_ | _) <;> exact ⟨rfl, rfl⟩
      refine twp_mono (fun r d ⟨h₁, h₂⟩ => ⟨h₁, ?_⟩) _ (hres _)
      rw [h₂, hstep, if_neg hs]

end LogRecArray

/-! ## Arrays of records with a cache -/

namespace LogRecArrayCache

variable (R : RASig)

abbrev Cache : Type := AddrMap R.Item

def cache0 : Cache R := ∅

variable {R}

def getArray (start ix : Nat) (cache : Cache R) : TBody (Cache R × R.Item) :=
  match cache[ix]? with
  | some v => pure (cache, v)
  | none => do
    let v ← LogRecArray.get R start ix
    pure (cache.insert ix v, v)

def putArray (start ix : Nat) (item : R.Item) (cache : Cache R) : TBody (Cache R) := do
  LogRecArray.put R start ix item
  pure (cache.insert ix item)

/-- The cache agrees with the disk, on an array of `m` records. -/
def CacheRep (start m : Nat) (d : LDisk) (cache : Cache R) : Prop :=
  ∀ ix x, cache[ix]? = some x → ix < m ∧ x = LogRecArray.item R start d ix

variable {n m : Nat} {d d' : LDisk} {start ix : Nat} {c cache : Cache R}

theorem cacheRep_cache0 (start m : Nat) (d : LDisk) : CacheRep (R := R) start m d (cache0 R) := fun ix x hx => by
  simp [cache0] at hx

theorem CacheRep.congr (hc : CacheRep start m d c)
    (h : ∀ ix, ix < m → LogRecArray.item R start d' ix = LogRecArray.item R start d ix) : CacheRep start m d' c :=
  fun ix x hx => by
    obtain ⟨hlt, he⟩ := hc ix x hx
    exact ⟨hlt, by rw [h ix hlt]; exact he⟩

theorem CacheRep.insert {x : R.Item} (hc : ∀ j y, j ≠ ix → cache[j]? = some y → j < m ∧ y = LogRecArray.item R start d' j)
    (hix : ix < m) (hx : x = LogRecArray.item R start d' ix) : CacheRep start m d' (cache.insert ix x) := fun j y hy => by
  rw [Bufcache.getElem?_insert'] at hy
  by_cases hj : ix = j
  · rw [if_pos hj, Option.some_inj] at hy
    subst hj
    exact ⟨hix, by rw [← hy, hx]⟩
  · rw [if_neg hj] at hy
    exact hc j y (Ne.symm hj) hy

theorem getArray_spec (hc : CacheRep start m d c) (hix : ix < m) (ha : start + ix / R.itemsPerVal < n) :
    twp n (getArray start ix c)
      (fun r d' => d' = d ∧ r.2 = LogRecArray.item R start d ix ∧ CacheRep start m d r.1) d := by
  unfold getArray
  split
  · rename_i v hv
    exact ⟨rfl, (hc ix v hv).2, hc⟩
  · exact twp_bind _ (LogRecArray.get_spec ha ⟨rfl, rfl, CacheRep.insert (fun j y _ hy => hc j y hy) hix rfl⟩)

theorem putArray_spec {x : R.Item} (hc : CacheRep start m d c) (hix : ix < m) (hwf : Rec.WellFormed R.itemtype x)
    (ha : start + ix / R.itemsPerVal < n) (h0 : start ≠ 0) :
    twp n (putArray start ix x c)
      (fun c' d' => d' = LogRecArray.putItem d start ix x ∧ CacheRep start m d' c') d := by
  refine twp_bind _ (LogRecArray.put_spec ha h0 ⟨rfl, CacheRep.insert (fun j y hj hy => ?_) hix ?_⟩)
  · rw [LogRecArray.item_putItem hwf, if_neg hj]; exact hc j y hy
  · rw [LogRecArray.item_putItem hwf, if_pos rfl]

/-- Writing a record twice is writing the second one, also when the first one is read in between. -/
theorem putArray_again (d : LDisk) (start ix : Nat) (x : R.Item) (f : R.Item → R.Item) (c : Cache R) :
    Agree (fun c c' _ => c = c') (do
      let c ← putArray start ix x c
      let (c, y) ← getArray start ix c
      putArray start ix (f y) c) (putArray start ix (f x) c) d := by
  have hget : getArray start ix (c.insert ix x) = pure (c.insert ix x, x) := by
    rw [getArray, Std.ExtTreeMap.getElem?_insert_self]
  have hins : (c.insert ix x).insert ix (f x) = c.insert ix (f x) := by
    refine Std.ExtTreeMap.ext_getElem? fun j => ?_
    simp only [Bufcache.getElem?_insert']
    split <;> rfl
  have hrun : ∀ (y : R.Item) (c : Cache R) (d : LDisk),
      (putArray start ix y c).run d = (c.insert ix y, LogRecArray.putItem d start ix y) := fun _ _ _ => rfl
  simp only [Agree, Body.run_bind, hrun, hget, Body.pure_eq, Body.run, hins, LogRecArray.putItem_putItem, and_self]

end LogRecArrayCache

end Fscq
