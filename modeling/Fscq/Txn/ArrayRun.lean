import Fscq.Txn.Array
import Fscq.DiskLog.Defs

/-!
# Runs over an array of records with a cache

`runOps` reads and writes records through the cache, one after the other. The cache cannot be seen: every read returns what
was put last (`lastPut`), the cache agrees with the disk, and the blocks are those of the updated table
(`array_cache_transparent`). A bit of the disk changes only if it belongs to the slot of a record that was put (`InSlot`).
-/

namespace Fscq

open TxnLogic
open PaddedLog (DescSig)

namespace LogRecArrayCache

inductive ArrayOp (R : RASig)
  | get (ix : Nat)
  | put (ix : Nat) (x : R.Item)

variable {R : RASig}

def ArrayOp.Ok (m : Nat) : ArrayOp R → Prop
  | .get ix => ix < m
  | .put ix x => ix < m ∧ Rec.WellFormed R.itemtype x

def runOp (start : Nat) : ArrayOp R → Cache R → TBody (Cache R × Option R.Item)
  | .get ix, c => do
    let (c, x) ← getArray start ix c
    pure (c, some x)
  | .put ix x, c => do
    let c ← putArray start ix x c
    pure (c, none)

def runOps (start : Nat) : List (ArrayOp R) → Cache R → TBody (Cache R × List (Option R.Item))
  | [], c => pure (c, [])
  | op :: ops, c => do
    let (c, r) ← runOp start op c
    let (c, rs) ← runOps start ops c
    pure (c, r :: rs)

/-! ## What a run should do -/

/-- The record that an operation puts at `ix`. -/
def ArrayOp.putAt (ix : Nat) : ArrayOp R → Option R.Item
  | .get _ => none
  | .put j x => if j = ix then some x else none

def lastPut (ix : Nat) : List (ArrayOp R) → Option R.Item
  | [] => none
  | op :: ops => (lastPut ix ops).or (op.putAt ix)

def ArrayOp.update : ArrayOp R → List R.Item → List R.Item
  | .get _, items => items
  | .put ix x, items => items.set ix x

def table (items : List R.Item) (ops : List (ArrayOp R)) : List R.Item := ops.foldl (fun l op => op.update l) items

/-- The blocks from `start` on are those of the table. -/
def Holds (R : RASig) (start len : Nat) (items : List R.Item) (d : LDisk) : Prop :=
  ((List.range len).map fun i => d (start + i)) = R.ipack items

/-- Bit `i` of block `a` belongs to the record at `ix`. -/
def InSlot (R : RASig) (start ix a i : Nat) : Prop :=
  a = start + ix / R.itemsPerVal ∧ ix % R.itemsPerVal * Rec.len R.itemtype ≤ i ∧
    i < ix % R.itemsPerVal * Rec.len R.itemtype + Rec.len R.itemtype

theorem getElem?_update (op : ArrayOp R) (items : List R.Item) (ix : Nat) :
    (op.update items)[ix]? = (items[ix]?).map fun x => (op.putAt ix).getD x := by
  cases op with
  | get j => simp [ArrayOp.update, ArrayOp.putAt]
  | put j y =>
    rw [ArrayOp.update, ArrayOp.putAt, List.getElem?_set]
    by_cases hj : j = ix
    · subst hj
      by_cases hlt : j < items.length
      · simp [hlt]
      · simp [hlt]
    · simp [hj]

theorem length_update (op : ArrayOp R) (items : List R.Item) : (op.update items).length = items.length := by
  cases op <;> simp [ArrayOp.update]

theorem wellFormed_update {op : ArrayOp R} {items : List R.Item} {m : Nat} (hop : op.Ok m)
    (hwf : ∀ x ∈ items, Rec.WellFormed R.itemtype x) : ∀ x ∈ op.update items, Rec.WellFormed R.itemtype x := by
  cases op with
  | get ix => exact hwf
  | put ix y =>
    intro x hx
    rcases List.mem_or_eq_of_mem_set hx with hx | rfl
    · exact hwf x hx
    · exact hop.2

/-! ## The table of a disk -/

/-- Every disk holds the table of its records. -/
theorem holds_items (R : RASig) (start len : Nat) (d : LDisk) :
    Holds R start len ((List.range (len * R.itemsPerVal)).map (LogRecArray.item R start d)) d := by
  rw [Holds, LogRecArray.map_item_eq_flatMap, R.ipack_flatMap_val2block]

variable {start len n : Nat} {items : List R.Item} {d : LDisk} {c : Cache R}

theorem Holds.items_eq (hd : Holds R start len items d) (hlen : items.length = len * R.itemsPerVal)
    (hwf : ∀ x ∈ items, Rec.WellFormed R.itemtype x) :
    (List.range (len * R.itemsPerVal)).map (LogRecArray.item R start d) = items := by
  have hunpack := R.foldl_iunpack_ipack hwf ⟨len, by rw [hlen, Nat.mul_comm]⟩
  rw [LogRecArray.map_item_eq_flatMap, hd, ← hunpack, R.ipack_foldl_iunpack, R.foldl_iunpack, List.nil_append]

theorem Holds.getElem? (hd : Holds R start len items d) (hlen : items.length = len * R.itemsPerVal)
    (hwf : ∀ x ∈ items, Rec.WellFormed R.itemtype x) {ix : Nat} (hix : ix < items.length) :
    items[ix]? = some (LogRecArray.item R start d ix) := by
  have hitems := hd.items_eq hlen hwf
  rw [hlen] at hix
  rw [← hitems, List.getElem?_map, List.getElem?_range hix]
  rfl

theorem holds_of_getElem? (hlen : items.length = len * R.itemsPerVal)
    (h : ∀ ix, ix < items.length → items[ix]? = some (LogRecArray.item R start d ix)) : Holds R start len items d := by
  have hitems : (List.range (len * R.itemsPerVal)).map (LogRecArray.item R start d) = items := by
    refine List.ext_getElem? fun ix => ?_
    by_cases hix : ix < items.length
    · rw [h ix hix, List.getElem?_map, List.getElem?_range (by rwa [← hlen])]
      rfl
    · rw [List.getElem?_eq_none (by simpa [← hlen] using hix), List.getElem?_eq_none (by omega)]
  rw [← hitems]
  exact holds_items R start len d

/-- The cache agrees with the table. -/
def Agrees (items : List R.Item) (cache : Cache R) : Prop :=
  ∀ (ix : Nat) (x : R.Item), cache[ix]? = some x → items[ix]? = some x

theorem Agrees.cacheRep (hc : Agrees items c) (hd : Holds R start len items d) (hlen : items.length = len * R.itemsPerVal)
    (hwf : ∀ x ∈ items, Rec.WellFormed R.itemtype x) : CacheRep start items.length d c := fun ix x hx => by
  have hitem := hc ix x hx
  have hlt : ix < items.length := (List.getElem?_eq_some_iff.1 hitem).1
  rw [hd.getElem? hlen hwf hlt, Option.some_inj] at hitem
  exact ⟨hlt, hitem.symm⟩

theorem agrees_of_cacheRep (hc : CacheRep start items.length d c)
    (hd : Holds R start len items d) (hlen : items.length = len * R.itemsPerVal)
    (hwf : ∀ x ∈ items, Rec.WellFormed R.itemtype x) : Agrees items c := fun ix x hx => by
  obtain ⟨hlt, hitem⟩ := hc ix x hx
  rw [hitem]
  exact hd.getElem? hlen hwf hlt

/-! ## One operation -/

/-- A record that is put changes the bits of its slot only. -/
theorem getLsbD_putItem {ix a i : Nat} (x : R.Item) (h : ¬ InSlot R start ix a i) :
    (LogRecArray.putItem d start ix x a).getLsbD i = (d a).getLsbD i := by
  by_cases ha : a = start + ix / R.itemsPerVal
  · subst ha
    rw [LogRecArray.putItem, Disk.set_self]
    exact R.getLsbD_block2valUpdNVal2block _ (Nat.mod_lt ix R.itemsPerVal_pos) x fun hin => h ⟨rfl, hin⟩
  · rw [LogRecArray.putItem_of_ne ha]

/-- What one operation does to a table. -/
structure OpDone (start len : Nat) (items : List R.Item) (op : ArrayOp R) (d : LDisk) (r : Cache R × Option R.Item)
    (d' : LDisk) : Prop where
  read : ∀ ix, op = .get ix → r.2 = some (items.getD ix R.item0)
  holds : Holds R start len (op.update items) d'
  agrees : Agrees (op.update items) r.1
  bits : ∀ a i, (∀ ix x, op = .put ix x → ¬ InSlot R start ix a i) → (d' a).getLsbD i = (d a).getLsbD i

theorem runOp_spec (h0 : start ≠ 0) (hn : start + len ≤ n) (hlen : items.length = len * R.itemsPerVal)
    (hwf : ∀ x ∈ items, Rec.WellFormed R.itemtype x) (hd : Holds R start len items d) (hc : Agrees items c)
    {op : ArrayOp R} (hop : op.Ok items.length) : twp n (runOp start op c) (OpDone start len items op d) d := by
  have hrep := hc.cacheRep hd hlen hwf
  have hblock : ∀ ix, ix < items.length → start + ix / R.itemsPerVal < n := fun ix hix => by
    have hdiv : ix / R.itemsPerVal < len := Nat.div_lt_of_lt_mul (by rwa [Nat.mul_comm, ← hlen])
    omega
  cases op with
  | get ix =>
    have hix : ix < items.length := hop
    refine twp_seq (getArray_spec hrep hix (hblock ix hix)) fun ⟨c', x⟩ d' ⟨hd', hx, hc'⟩ => ?_
    subst hd'
    refine ⟨fun j hj => ?_, hd, agrees_of_cacheRep hc' hd hlen hwf, fun _ _ _ => rfl⟩
    cases hj
    rw [List.getD_eq_getElem?_getD, hd.getElem? hlen hwf hix]
    exact congrArg some hx
  | put ix x =>
    obtain ⟨hix, hx⟩ := hop
    refine twp_seq (putArray_spec hrep hix hx (hblock ix hix) h0) fun c' d' ⟨hd', hc'⟩ => ?_
    subst hd'
    have hlen' : (items.set ix x).length = len * R.itemsPerVal := by rw [List.length_set, hlen]
    have hop' : (ArrayOp.put ix x).Ok items.length := ⟨hix, hx⟩
    have hwf' : ∀ y ∈ items.set ix x, Rec.WellFormed R.itemtype y := wellFormed_update hop' hwf
    have hholds : Holds R start len (items.set ix x) (LogRecArray.putItem d start ix x) := by
      refine holds_of_getElem? hlen' fun j hj => ?_
      rw [List.length_set] at hj
      rw [LogRecArray.item_putItem hx, List.getElem?_set, hd.getElem? hlen hwf hj]
      by_cases he : ix = j
      · rw [if_pos he, if_pos hix, if_pos he.symm]
      · rw [if_neg he, if_neg (Ne.symm he)]
    refine ⟨fun j hj => ?_, hholds, ?_, fun a i hai => getLsbD_putItem x (hai ix x rfl)⟩
    · cases hj
    · refine agrees_of_cacheRep ?_ hholds hlen' hwf'
      rw [length_update]
      exact hc'

/-! ## Runs -/

/-- What a run returns and leaves, for a table that the disk holds and a cache that agrees with it. -/
structure RunDone (start len : Nat) (items : List R.Item) (ops : List (ArrayOp R)) (d : LDisk)
    (r : Cache R × List (Option R.Item)) (d' : LDisk) : Prop where
  read : ∀ k ix, ops[k]? = some (.get ix) →
    r.2[k]? = some (some ((lastPut ix (ops.take k)).getD (items.getD ix R.item0)))
  holds : Holds R start len (table items ops) d'
  agrees : ∀ (ix : Nat) (x : R.Item), r.1[ix]? = some x → (table items ops)[ix]? = some x ∧ LogRecArray.item R start d' ix = x
  bits : ∀ a i, (∀ ix x, .put ix x ∈ ops → ¬ InSlot R start ix a i) → (d' a).getLsbD i = (d a).getLsbD i

theorem array_cache_transparent (h0 : start ≠ 0) (hn : start + len ≤ n) {ops : List (ArrayOp R)}
    (hlen : items.length = len * R.itemsPerVal) (hwf : ∀ x ∈ items, Rec.WellFormed R.itemtype x)
    (hd : Holds R start len items d) (hc : Agrees items c) (hops : ∀ op ∈ ops, op.Ok items.length) :
    twp n (runOps start ops c) (RunDone start len items ops d) d := by
  induction ops generalizing items d c with
  | nil =>
    refine ⟨fun k ix h => (nomatch h), hd, fun ix x hx => ⟨hc ix x hx, ?_⟩, fun _ _ _ => rfl⟩
    exact ((hc.cacheRep hd hlen hwf ix x hx).2).symm
  | cons op ops ih =>
    have hop : op.Ok items.length := hops op List.mem_cons_self
    refine twp_seq (runOp_spec h0 hn hlen hwf hd hc hop) fun ⟨c₁, r⟩ d₁ h₁ => ?_
    have hlen₁ : (op.update items).length = len * R.itemsPerVal := by rw [length_update, hlen]
    have hops₁ : ∀ op' ∈ ops, op'.Ok (op.update items).length := fun op' h' => by
      rw [length_update]
      exact hops op' (List.mem_cons_of_mem _ h')
    refine twp_seq (ih hlen₁ (wellFormed_update hop hwf) h₁.holds h₁.agrees hops₁) fun ⟨c₂, rs⟩ d₂ h₂ => ?_
    refine ⟨fun k ix hk => ?_, h₂.holds, h₂.agrees, fun a i hai => ?_⟩
    · cases k with
      | zero =>
        have hget : op = .get ix := Option.some_inj.1 hk
        exact congrArg some (h₁.read ix hget)
      | succ k =>
        have hix : ix < items.length := by
          have hok := hops _ (List.mem_of_getElem? hk)
          exact hok
        have hread := h₂.read k ix hk
        have hfirst : (op.update items).getD ix R.item0 = (op.putAt ix).getD (items.getD ix R.item0) := by
          rw [List.getD_eq_getElem?_getD, getElem?_update, List.getD_eq_getElem?_getD, List.getElem?_eq_getElem hix]
          rfl
        have hlast : (lastPut ix ((op :: ops).take (k + 1))).getD (items.getD ix R.item0) =
            (lastPut ix (ops.take k)).getD ((op.putAt ix).getD (items.getD ix R.item0)) := by
          rw [List.take_succ_cons, lastPut]
          cases lastPut ix (ops.take k) <;> rfl
        rw [hfirst] at hread
        rw [hlast]
        exact hread
    · have hrest : (d₂ a).getLsbD i = (d₁ a).getLsbD i :=
        h₂.bits a i fun ix x hx => hai ix x (List.mem_cons_of_mem _ hx)
      rw [hrest]
      exact h₁.bits a i fun ix x hx => hai ix x (hx ▸ List.mem_cons_self)

/-- An address is put at index 3 of a block of zeros, and read again. -/
theorem array_cache_transparent_small :
    ((runOps (R := DescSig) 1 [.put 3 7#64, .get 3] (cache0 DescSig)).run ⟨fun _ => 0, fun _ => True⟩).1.2[1]? =
      some (some (7#64 : DescSig.Item)) := by
  have hlen : ((List.range (1 * DescSig.itemsPerVal)).map
      (LogRecArray.item DescSig 1 ⟨fun _ => 0, fun _ => True⟩)).length = 1 * DescSig.itemsPerVal := by simp
  have hagrees : Agrees ((List.range (1 * DescSig.itemsPerVal)).map
      (LogRecArray.item DescSig 1 ⟨fun _ => 0, fun _ => True⟩)) (cache0 DescSig) := fun ix x hx => by
    simp [cache0] at hx
  have hlt : 3 < 1 * DescSig.itemsPerVal := by decide
  have hops : ∀ op ∈ ([.put 3 7#64, .get 3] : List (ArrayOp DescSig)), op.Ok (1 * DescSig.itemsPerVal) := by
    intro op hop
    rcases List.mem_cons.1 hop with rfl | hop
    · exact ⟨hlt, trivial⟩
    · rw [List.mem_singleton.1 hop]
      exact hlt
  rw [← hlen] at hops
  exact (twp_run (array_cache_transparent (n := 2) Nat.one_ne_zero (Nat.le_refl 2) hlen
    (fun x hx => by
      obtain ⟨ix, _, rfl⟩ := List.mem_map.1 hx
      exact LogRecArray.wellFormed_item _ _ ix)
    (holds_items DescSig 1 1 _) hagrees hops)).read 1 3 rfl

end LogRecArrayCache

end Fscq
