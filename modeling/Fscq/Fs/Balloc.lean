import Fscq.Txn.Array

/-!
# Bitmap allocators

A bitmap of `bmapNBlocks` blocks has one bit for each number: 0 is available, 1 is in use. The numbers that an allocator
may hand out are its free list (`freeList`), a function of the disk; the number 0 is never handed out. `BmapAlloc` works
on the bitmap, `BmapAllocCache` keeps the free list in memory once it has read it.
-/

namespace Fscq

open TxnLogic

structure BallocXparams where
  bmapStart : Nat
  bmapNBlocks : Nat

/-- The blocks of the bitmap. -/
def BallocXparams.InBitmap (xp : BallocXparams) (a : Nat) : Prop := xp.bmapStart ≤ a ∧ a < xp.bmapStart + xp.bmapNBlocks

/-- The bitmap is on the disk, and not at block 0. -/
structure BallocXparams.Ok (xp : BallocXparams) (n : Nat) : Prop where
  inDisk : xp.bmapStart + xp.bmapNBlocks ≤ n
  nonzero : xp.bmapStart ≠ 0

namespace BmapAlloc

abbrev bmpSig : RASig := ⟨.WordF 8, 4096, rfl⟩

def full : BitVec 8 := BitVec.allOnes 8

def avail : BitVec 1 := 0

def inuse : BitVec 1 := 1

def bits (s : BitVec 8) : List (BitVec 1) := Rec.ofWord (.ArrayF (.WordF 1) 8) s

def hasAvail (s : BitVec 8) : Bool := if s = full then false else true

def availNonzero (s : BitVec 8) (i : Nat) : Bool := if i = 0 then hasAvail (s ||| 1) else hasAvail s

def ifindByte (s : BitVec 8) : Option (Nat × BitVec 1) := ifindList (fun b _ => b == avail) (bits s) 0

def setBit (s : BitVec 8) (b : BitVec 1) (index : Nat) : BitVec 8 := Rec.wordUpdN 8 1 index s b

def free (xp : BallocXparams) (bn : Nat) : TBody Unit := do
  let s ← LogRecArray.get bmpSig xp.bmapStart (bn / 8)
  LogRecArray.put bmpSig xp.bmapStart (bn / 8) (setBit s avail (bn % 8))

def ifindAvailNonzero (xp : BallocXparams) : TBody (Option (Nat × Nat × BitVec 8)) := do
  let r ← LogRecArray.ifind bmpSig xp.bmapStart xp.bmapNBlocks availNonzero
  match r with
  | none => pure none
  | some (bn, nonfull) =>
    match ifindByte (if bn = 0 then nonfull ||| 1 else nonfull) with
    | none => pure none -- does not happen
    | some (i, _) => pure (some (bn, i, nonfull))

def alloc (xp : BallocXparams) : TBody (Option Nat) := do
  let r ← ifindAvailNonzero xp
  match r with
  | none => pure none
  | some (bn, index, s) => do
    LogRecArray.put bmpSig xp.bmapStart bn (setBit s inuse index)
    pure (some (bn * 8 + index))

def bitsToFreelist : List (BitVec 1) → Nat → List Nat
  | [], _ => []
  | b :: l, start =>
    let freelist := bitsToFreelist l (start + 1)
    if b = inuse then freelist else if start = 0 then freelist else start :: freelist

def wordToFreelist (b : BitVec 8) (start : Nat) : List Nat := bitsToFreelist (bits b) start

def itemlistToFreelist' : List (BitVec 8) → Nat → List Nat
  | [], _ => []
  | b :: bs, start => wordToFreelist b start ++ itemlistToFreelist' bs (start + 8)

def itemlistToFreelist (bs : List (BitVec 8)) : List Nat := itemlistToFreelist' bs 0

def getFreeBlocks (xp : BallocXparams) : TBody (List Nat) := do
  let r ← LogRecArray.read bmpSig xp.bmapStart xp.bmapNBlocks
  pure (itemlistToFreelist r)

def steal (xp : BallocXparams) (bn : Nat) : TBody Unit := do
  let s ← LogRecArray.get bmpSig xp.bmapStart (bn / 8)
  LogRecArray.put bmpSig xp.bmapStart (bn / 8) (setBit s inuse (bn % 8))

def init (xp : BallocXparams) : TBody Unit := LogRecArray.init xp.bmapStart xp.bmapNBlocks

/-- Formatting with nothing free. -/
def initNofree (xp : BallocXparams) : TBody Unit := do
  LogRecArray.init xp.bmapStart xp.bmapNBlocks
  LogRecArray.write bmpSig xp.bmapStart (List.replicate (xp.bmapNBlocks * bmpSig.itemsPerVal) full)

/-! ## The bits of the bitmap -/

variable {xp : BallocXparams} {n : Nat} {d d' : LDisk} {bn : Nat}

/-- The bit of a number. -/
def bitAt (xp : BallocXparams) (d : LDisk) (bn : Nat) : BitVec 1 :=
  (bits (LogRecArray.item bmpSig xp.bmapStart d (bn / 8))).getD (bn % 8) inuse

/-- How many numbers the bitmap has. -/
def size (xp : BallocXparams) : Nat := xp.bmapNBlocks * valulen

def freeList (xp : BallocXparams) (d : LDisk) : List Nat :=
  (List.range (size xp)).filter fun bn => decide (bn ≠ 0 ∧ bitAt xp d bn = avail)

@[simp] theorem mem_freeList : bn ∈ freeList xp d ↔ bn < size xp ∧ bn ≠ 0 ∧ bitAt xp d bn = avail := by
  simp [freeList]

theorem nodup_freeList (xp : BallocXparams) (d : LDisk) : (freeList xp d).Nodup := List.nodup_range.filter _

/-- A bitmap of data blocks: the blocks it stands for lie before it. -/
structure DataOk (xp : BallocXparams) (n : Nat) : Prop extends xp.Ok n where
  below : size xp ≤ xp.bmapStart
  bound : size xp < 2 ^ 64

theorem DataOk.lt_disk (hx : DataOk xp n) {a : Nat} (ha : a < size xp) : a < n := by
  have h₁ := hx.below
  have h₂ := hx.inDisk
  omega

theorem DataOk.not_inBitmap (hx : DataOk xp n) {a : Nat} (ha : a < size xp) : ¬ xp.InBitmap a := by
  have h₁ := hx.below
  rintro ⟨h₂, _⟩
  omega

theorem length_bits (s : BitVec 8) : (bits s).length = 8 := (Rec.wellFormed_ofWord (.ArrayF (.WordF 1) 8) s).1

theorem bits_setBit (s : BitVec 8) (b : BitVec 1) {i : Nat} (h : i < 8) : bits (setBit s b i) = (bits s).set i b := by
  have hset := Rec.wordToArray_wordUpdNShift (Rec.ofWord (.WordF 1)) (l := 8) (n := 1) h s b
  rw [← Rec.wordUpdN_eq (l := 8) (n := 1) s b h] at hset
  exact hset

theorem blk_lt (hbn : bn < size xp) : bn / 8 / 4096 < xp.bmapNBlocks := by
  simp only [size, valulen] at hbn; omega

/-- The disk after the bit of `bn` is set to `b`. -/
def putBit (xp : BallocXparams) (d : LDisk) (bn : Nat) (b : BitVec 1) : LDisk :=
  LogRecArray.putItem (R := bmpSig) d xp.bmapStart (bn / 8)
    (setBit (LogRecArray.item bmpSig xp.bmapStart d (bn / 8)) b (bn % 8))

theorem bitAt_putBit (b : BitVec 1) (j : Nat) : bitAt xp (putBit xp d bn b) j = if j = bn then b else bitAt xp d j := by
  rw [bitAt, putBit, LogRecArray.item_putItem (R := bmpSig) trivial]
  by_cases hj : j / 8 = bn / 8
  · rw [if_pos hj, bits_setBit _ _ (Nat.mod_lt bn (by decide)), List.getD_eq_getElem?_getD, List.getElem?_set,
      length_bits, if_pos (Nat.mod_lt bn (by decide))]
    by_cases he : j = bn
    · rw [if_pos he, if_pos (by rw [he])]; rfl
    · rw [if_neg he, if_neg (by omega), bitAt, hj, List.getD_eq_getElem?_getD]
  · rw [if_neg hj, if_neg fun he => hj (by rw [he])]; rfl

theorem putBit_frame (hbn : bn < size xp) (b : BitVec 1) {a : Nat} (ha : ¬ xp.InBitmap a) :
    putBit xp d bn b a = d a := by
  have hlt := blk_lt hbn
  refine LogRecArray.putItem_of_ne fun he => ha ?_
  rw [he]
  exact ⟨Nat.le_add_right _ _, Nat.add_lt_add_left hlt _⟩

theorem bitAt_congr (h : ∀ a, xp.InBitmap a → d' a = d a) (hbn : bn < size xp) : bitAt xp d' bn = bitAt xp d bn := by
  have hlt := blk_lt hbn
  rw [bitAt, bitAt, LogRecArray.item_congr (h _ ⟨Nat.le_add_right _ _, Nat.add_lt_add_left hlt _⟩)]

/-- The free list depends on the bitmap only. -/
theorem freeList_congr (h : ∀ a, xp.InBitmap a → d' a = d a) : freeList xp d' = freeList xp d :=
  List.filter_congr fun bn hbn => by rw [bitAt_congr h (List.mem_range.1 hbn)]

theorem setBit_spec {Q : Unit → LDisk → Prop} {b : BitVec 1} (hx : xp.Ok n) (hbn : bn < size xp)
    (hQ : Q () (putBit xp d bn b)) :
    twp n (do
      let s ← LogRecArray.get bmpSig xp.bmapStart (bn / 8)
      LogRecArray.put bmpSig xp.bmapStart (bn / 8) (setBit s b (bn % 8))) Q d := by
  have hlt : xp.bmapStart + bn / 8 / 4096 < n := by have := blk_lt hbn; have := hx.inDisk; omega
  exact twp_bind _ (LogRecArray.get_spec hlt (LogRecArray.put_spec hlt hx.nonzero hQ))

theorem free_spec {Q : Unit → LDisk → Prop} (hx : xp.Ok n) (hbn : bn < size xp) (hQ : Q () (putBit xp d bn avail)) :
    twp n (free xp bn) Q d := setBit_spec hx hbn hQ

theorem steal_spec {Q : Unit → LDisk → Prop} (hx : xp.Ok n) (hbn : bn < size xp) (hQ : Q () (putBit xp d bn inuse)) :
    twp n (steal xp bn) Q d := setBit_spec hx hbn hQ

/-- A free number that is taken leaves the free list. -/
theorem freeList_steal (hbn : bn ∈ freeList xp d) : (freeList xp d).Perm (bn :: freeList xp (putBit xp d bn inuse)) := by
  have hnot : bn ∉ freeList xp (putBit xp d bn inuse) := by
    rw [mem_freeList, bitAt_putBit, if_pos rfl]
    rintro ⟨_, _, h⟩
    exact absurd h (by decide)
  rw [List.perm_ext_iff_of_nodup (nodup_freeList _ _) (List.nodup_cons.2 ⟨hnot, nodup_freeList _ _⟩)]
  intro a
  rw [List.mem_cons, mem_freeList, mem_freeList, bitAt_putBit]
  by_cases ha : a = bn
  · subst ha
    simpa using mem_freeList.1 hbn
  · simp [ha]

/-- A number that is given back enters the free list. -/
theorem freeList_free (hnot : bn ∉ freeList xp d) (hlt : bn < size xp) (h0 : bn ≠ 0) :
    (freeList xp (putBit xp d bn avail)).Perm (bn :: freeList xp d) := by
  rw [List.perm_ext_iff_of_nodup (nodup_freeList _ _) (List.nodup_cons.2 ⟨hnot, nodup_freeList _ _⟩)]
  intro a
  rw [List.mem_cons, mem_freeList, mem_freeList, bitAt_putBit]
  by_cases ha : a = bn
  · subst ha
    simp [hlt, h0]
  · simp [ha]

/-! ## Reading the whole bitmap -/

theorem bitsToFreelist_append : ∀ (l l' : List (BitVec 1)) (start : Nat),
    bitsToFreelist (l ++ l') start = bitsToFreelist l start ++ bitsToFreelist l' (start + l.length)
  | [], _, _ => rfl
  | b :: l, l', start => by
    have ih := bitsToFreelist_append l l' (start + 1)
    rw [List.cons_append, bitsToFreelist, bitsToFreelist, ih, List.length_cons,
      show start + 1 + l.length = start + (l.length + 1) by omega]
    split
    · rfl
    · split <;> rfl

theorem itemlistToFreelist'_eq : ∀ (bs : List (BitVec 8)) (start : Nat),
    itemlistToFreelist' bs start = bitsToFreelist (bs.flatMap bits) start
  | [], _ => rfl
  | b :: bs, start => by
    rw [itemlistToFreelist', itemlistToFreelist'_eq bs, List.flatMap_cons, bitsToFreelist_append, length_bits,
      wordToFreelist]

theorem flatMap_bits (xp : BallocXparams) (d : LDisk) (k : Nat) :
    ((List.range k).map (LogRecArray.item bmpSig xp.bmapStart d)).flatMap bits = (List.range (k * 8)).map (bitAt xp d) := by
  induction k with
  | zero => rfl
  | succ k ih =>
    have hbyte : ((List.range 8).map fun i => bitAt xp d (k * 8 + i)) =
        bits (LogRecArray.item bmpSig xp.bmapStart d k) := by
      refine List.ext_getElem (by simp [length_bits]) fun i h₁ h₂ => ?_
      have hi : i < 8 := by simpa using h₁
      rw [List.getElem_map, List.getElem_range, bitAt, show (k * 8 + i) / 8 = k by omega,
        show (k * 8 + i) % 8 = i by omega, List.getD_eq_getElem?_getD, List.getElem?_eq_getElem h₂]
      rfl
    rw [List.range_succ, List.map_append, List.flatMap_append, ih, List.map_singleton, List.flatMap_singleton, ← hbyte,
      Nat.succ_mul, List.range_add, List.map_append, List.map_map]
    rfl

theorem bitsToFreelist_map (g : Nat → BitVec 1) : ∀ (m start : Nat),
    bitsToFreelist ((List.range' start m).map g) start =
      (List.range' start m).filter fun bn => decide (bn ≠ 0 ∧ g bn = avail)
  | 0, _ => rfl
  | m + 1, start => by
    have ih := bitsToFreelist_map g m (start + 1)
    rw [List.range'_succ, List.map_cons, bitsToFreelist, ih, List.filter_cons]
    rcases BitVec.eq_zero_or_eq_one (g start) with h0 | h1
    · by_cases hs : start = 0
      · simp [hs]
      · simp [h0, hs, inuse, avail]
    · simp [h1, inuse, avail]

theorem getFreeBlocks_spec {Q : List Nat → LDisk → Prop} (hx : xp.Ok n) (hQ : Q (freeList xp d) d) :
    twp n (getFreeBlocks xp) Q d := by
  refine twp_seq (LogRecArray.read_spec hx.inDisk) fun r d' ⟨hd, hr⟩ => ?_
  have hfree : itemlistToFreelist r = freeList xp d := by
    rw [hr, itemlistToFreelist, itemlistToFreelist'_eq, flatMap_bits, List.range_eq_range', bitsToFreelist_map, freeList,
      ← List.range_eq_range', size, Nat.mul_assoc]
    rfl
  rw [twp_pure, hfree, hd]
  exact hQ

/-! ## Formatting -/

theorem init_spec (hx : xp.Ok n) : twp n (init xp) (fun _ d' =>
    (∀ bn, bn ∈ freeList xp d' ↔ bn < size xp ∧ bn ≠ 0) ∧ ∀ a, ¬ xp.InBitmap a → d' a = d a) d := by
  refine twp_mono (fun _ d' hd => ⟨fun bn => ?_, fun a ha => ?_⟩) _ (LogRecArray.init_spec hx.inDisk hx.nonzero)
  · have hzero : bn < size xp → bitAt xp d' bn = avail := fun hbn => by
      have hlt := blk_lt hbn
      have hitem : LogRecArray.item bmpSig xp.bmapStart d' (bn / 8) =
          LogRecArray.item bmpSig 0 ⟨fun _ => 0, fun _ => True⟩ (bn / 8) := by
        rw [LogRecArray.item, hd, if_pos ⟨Nat.le_add_right _ _, Nat.add_lt_add_left hlt _⟩]; rfl
      rw [bitAt, hitem, LogRecArray.item, RASig.getD_val2block _ (Nat.mod_lt _ (by decide))]
      have hword : (BitVec.extractLsb' (bn / 8 % 4096 * 8) 8 (bmpSig.val2word 0) : BitVec 8) = 0 :=
        BitVec.eq_of_getLsbD_eq fun i hi => by simp [RASig.val2word]
      have hbits : ∀ i < 8, (bits 0).getD i inuse = avail := by decide
      exact (congrArg (fun w : BitVec 8 => (bits w).getD (bn % 8) inuse) hword).trans (hbits _ (Nat.mod_lt _ (by decide)))
    rw [mem_freeList]
    exact ⟨fun h => ⟨h.1, h.2.1⟩, fun h => ⟨h.1, h.2, hzero h.1⟩⟩
  · rw [hd]; exact if_neg ha

theorem initNofree_spec (hx : xp.Ok n) : twp n (initNofree xp) (fun _ d' =>
    freeList xp d' = [] ∧ ∀ a, ¬ xp.InBitmap a → d' a = d a) d := by
  refine twp_seq (LogRecArray.init_spec hx.inDisk hx.nonzero) fun _ d₁ hd₁ => ?_
  refine twp_mono (fun _ d' ⟨hitems, hframe, _⟩ => ⟨?_, fun a ha => ?_⟩) _
    (LogRecArray.write_spec (R := bmpSig) List.length_replicate (fun _ _ => trivial) hx.inDisk hx.nonzero)
  · rw [List.eq_nil_iff_forall_not_mem]
    intro bn hbn
    obtain ⟨hlt, _, hbit⟩ := mem_freeList.1 hbn
    have hidx : bn / 8 < xp.bmapNBlocks * bmpSig.itemsPerVal := by
      simp only [size, valulen] at hlt
      show bn / 8 < xp.bmapNBlocks * 4096
      omega
    have hitem : LogRecArray.item bmpSig xp.bmapStart d' (bn / 8) = full := by
      have hget := congrArg (·[bn / 8]?) hitems
      simpa [hidx] using hget
    have hfull : ∀ i < 8, (bits full).getD i inuse ≠ avail := by decide
    rw [bitAt, hitem] at hbit
    exact hfull _ (Nat.mod_lt _ (by decide)) hbit
  · rw [hframe a ha, hd₁]; exact if_neg ha

end BmapAlloc

/-! ## The allocator with a cached free list -/

abbrev BmapCacheType := Option (List Nat)

namespace BmapAllocCache

def freelist0 : BmapCacheType := none

def init (xp : BallocXparams) : TBody BmapCacheType := do
  BmapAlloc.init xp
  pure freelist0

def initNofree (xp : BallocXparams) : TBody BmapCacheType := do
  BmapAlloc.initNofree xp
  pure freelist0

def getFreeBlocks (xp : BallocXparams) (cache : BmapCacheType) : TBody (BmapCacheType × List Nat) :=
  match cache with
  | some x => pure (cache, x)
  | none => do
    let freelist ← BmapAlloc.getFreeBlocks xp
    pure (some freelist, freelist)

def cacheFreeBlock (a : Nat) (cache : BmapCacheType) : BmapCacheType :=
  match cache with
  | some x => some (a :: x)
  | none => none

def alloc (xp : BallocXparams) (cache : BmapCacheType) : TBody (BmapCacheType × Option Nat) := do
  let (cache, freelist) ← getFreeBlocks xp cache
  match freelist with
  | [] => pure (cache, none)
  | bn :: freelist' => do
    BmapAlloc.steal xp bn
    pure (some freelist', some bn)

def free (xp : BallocXparams) (bn : Nat) (cache : BmapCacheType) : TBody BmapCacheType := do
  BmapAlloc.free xp bn
  pure (cacheFreeBlock bn cache)

def steal (xp : BallocXparams) (bn : Nat) (_cache : BmapCacheType) : TBody BmapCacheType := do
  BmapAlloc.steal xp bn
  pure freelist0

def freevec (xp : BallocXparams) (l : List Nat) (cache : BmapCacheType) : TBody BmapCacheType :=
  .forN (fun i cache => free xp (l.getD i 0) cache) 0 l.length cache

open BmapAlloc (freeList size)

/-- A cached free list has the free numbers, in some order. -/
def CacheRep (xp : BallocXparams) (d : LDisk) (c : BmapCacheType) : Prop := ∀ l, c = some l → l.Perm (freeList xp d)

variable {xp : BallocXparams} {n : Nat} {d d' : LDisk} {bn : Nat} {c : BmapCacheType}

theorem cacheRep_freelist0 (xp : BallocXparams) (d : LDisk) : CacheRep xp d freelist0 := fun _ h => nomatch h

theorem CacheRep.congr (hc : CacheRep xp d c) (h : ∀ a, xp.InBitmap a → d' a = d a) : CacheRep xp d' c := fun l hl => by
  rw [BmapAlloc.freeList_congr h]; exact hc l hl

theorem getFreeBlocks_spec (hx : xp.Ok n) (hc : CacheRep xp d c) :
    twp n (getFreeBlocks xp c) (fun r d' => d' = d ∧ r.1 = some r.2 ∧ r.2.Perm (freeList xp d)) d := by
  cases c with
  | some l => exact ⟨rfl, rfl, hc l rfl⟩
  | none => exact twp_bind _ (BmapAlloc.getFreeBlocks_spec hx ⟨rfl, rfl, .refl _⟩)

/-- `alloc` takes a number of the free list, if there is one. -/
theorem alloc_bits (hx : xp.Ok n) (hc : CacheRep xp d c) :
    twp n (alloc xp c) (fun r d' =>
      (r.2 = none ∧ d' = d ∧ freeList xp d = [] ∧ CacheRep xp d' r.1) ∨
      (∃ bn l, r = (some l, some bn) ∧ bn ∈ freeList xp d ∧ (bn :: l).Perm (freeList xp d) ∧
        d' = BmapAlloc.putBit xp d bn BmapAlloc.inuse)) d := by
  refine twp_seq (getFreeBlocks_spec hx hc) fun ⟨c', fl⟩ d₁ ⟨hd, hc', hfl⟩ => ?_
  subst hd
  simp only at hc' hfl
  cases fl with
  | nil => exact Or.inl ⟨rfl, rfl, List.nil_perm.1 hfl, fun l hl => by rw [hc'] at hl; cases hl; exact hfl⟩
  | cons bn fl =>
    have hmem : bn ∈ freeList xp d₁ := hfl.subset List.mem_cons_self
    exact twp_bind _ (BmapAlloc.steal_spec hx (BmapAlloc.mem_freeList.1 hmem).1 (Or.inr ⟨bn, fl, rfl, hmem, hfl, rfl⟩))

theorem alloc_spec (hx : xp.Ok n) (hc : CacheRep xp d c) :
    twp n (alloc xp c) (fun r d' =>
      (r.2 = none ∧ d' = d ∧ freeList xp d = [] ∧ CacheRep xp d' r.1) ∨
      (∃ bn l, r = (some l, some bn) ∧ bn ∈ freeList xp d ∧ (freeList xp d).Perm (bn :: freeList xp d') ∧
        l.Perm (freeList xp d') ∧ ∀ a, ¬ xp.InBitmap a → d' a = d a)) d := by
  refine twp_mono (fun r d' h => h.imp id ?_) _ (alloc_bits hx hc)
  rintro ⟨bn, l, hr, hmem, hl, rfl⟩
  have hperm := BmapAlloc.freeList_steal hmem
  refine ⟨bn, l, hr, hmem, hperm, (List.perm_cons bn).1 (hl.trans hperm), fun a ha => ?_⟩
  exact BmapAlloc.putBit_frame (BmapAlloc.mem_freeList.1 hmem).1 _ ha

theorem CacheRep.free (hc : CacheRep xp d c) (hnot : bn ∉ freeList xp d) (hlt : bn < size xp) (h0 : bn ≠ 0) :
    CacheRep xp (BmapAlloc.putBit xp d bn BmapAlloc.avail) (cacheFreeBlock bn c) := fun l hl => by
  cases c with
  | none => cases hl
  | some x =>
    cases hl
    exact ((hc x rfl).cons bn).trans (BmapAlloc.freeList_free hnot hlt h0).symm

theorem free_spec (hx : xp.Ok n) (hc : CacheRep xp d c) (hnot : bn ∉ freeList xp d) (hlt : bn < size xp) (h0 : bn ≠ 0) :
    twp n (free xp bn c) (fun c' d' => (freeList xp d').Perm (bn :: freeList xp d) ∧ CacheRep xp d' c' ∧
      ∀ a, ¬ xp.InBitmap a → d' a = d a) d := by
  refine twp_bind _ (BmapAlloc.free_spec hx hlt ⟨BmapAlloc.freeList_free hnot hlt h0, ?_, fun a ha => ?_⟩)
  · exact hc.free hnot hlt h0
  · exact BmapAlloc.putBit_frame hlt _ ha

/-- `freevec` gives back all numbers of a list. -/
theorem freevec_spec (hx : xp.Ok n) (hc : CacheRep xp d c) {l : List Nat} (hnd : (l ++ freeList xp d).Nodup)
    (hl : ∀ bn ∈ l, bn < size xp ∧ bn ≠ 0) :
    twp n (freevec xp l c) (fun c' d' => (freeList xp d').Perm (l ++ freeList xp d) ∧ CacheRep xp d' c' ∧
      ∀ a, ¬ xp.InBitmap a → d' a = d a) d := by
  have hloop := twp_forN (n := n) (d := d) (f := fun i cache => free xp (l.getD i 0) cache)
    (I := fun i c' d' => (freeList xp d').Perm (l.take i ++ freeList xp d) ∧ CacheRep xp d' c' ∧
      ∀ a, ¬ xp.InBitmap a → d' a = d a) l.length 0 (l := c) ?_ ⟨.refl _, hc, fun _ _ => rfl⟩
  · rwa [Nat.zero_add, List.take_length] at hloop
  · rintro i c' d' _ hi ⟨hperm, hc', hframe⟩
    rw [Nat.zero_add] at hi
    have hget : l.getD i 0 = l[i] := by rw [List.getD_eq_getElem?_getD, List.getElem?_eq_getElem hi]; rfl
    have hmem : l[i] ∈ l := List.getElem_mem hi
    have hnot : l[i] ∉ freeList xp d' := fun hin => by
      rcases List.mem_append.1 (hperm.subset hin) with hin | hin
      · have hnodup := (List.nodup_append.1 hnd).1
        rw [← List.take_append_drop i l, List.nodup_append, List.drop_eq_getElem_cons hi] at hnodup
        exact hnodup.2.2 _ hin _ List.mem_cons_self rfl
      · exact (List.nodup_append.1 hnd).2.2 _ hmem _ hin rfl
    rw [hget]
    refine twp_mono (fun c'' d'' ⟨hp, hc'', hf⟩ => ⟨?_, hc'', fun a ha => (hf a ha).trans (hframe a ha)⟩) _
      (free_spec hx hc' hnot (hl _ hmem).1 (hl _ hmem).2)
    rw [List.take_add_one, List.getElem?_eq_getElem hi, Option.toList_some, List.append_assoc]
    exact (hp.trans (hperm.cons _)).trans List.perm_middle.symm

theorem init_spec (hx : xp.Ok n) : twp n (init xp) (fun c d' => c = freelist0 ∧
    (∀ bn, bn ∈ freeList xp d' ↔ bn < size xp ∧ bn ≠ 0) ∧ ∀ a, ¬ xp.InBitmap a → d' a = d a) d :=
  twp_seq (BmapAlloc.init_spec hx) fun _ _ hd => ⟨rfl, hd⟩

theorem initNofree_spec (hx : xp.Ok n) : twp n (initNofree xp) (fun c d' => c = freelist0 ∧
    freeList xp d' = [] ∧ ∀ a, ¬ xp.InBitmap a → d' a = d a) d :=
  twp_seq (BmapAlloc.initNofree_spec hx) fun _ _ hd => ⟨rfl, hd⟩

end BmapAllocCache

end Fscq
