import Fscq.Fs.BallocFind

/-!
# Runs of the cached allocator

A run is any sequence of `alloc`, `free`, `steal` and `getFreeBlocks` on a bitmap and its cached free list, from a
formatted bitmap or from any bitmap with an empty cache. The state also has the numbers handed out in the run and not
given back (`held`).

- the invariant `InStep`: a cached free list is the set of free numbers, and what is held is in use;
- one step keeps it (`InStep.step`), so every run does (`cached_alloc_run`).
-/

namespace Fscq

open TxnLogic

namespace BmapAllocCache

open BmapAlloc (freeList size bitAt avail inuse)

inductive Op
  | alloc
  | free (bn : Nat)
  | steal (bn : Nat)
  | getFreeBlocks

structure RunState where
  cache : BmapCacheType
  disk : LDisk
  held : List Nat

/-- The calls that are allowed: a number that is given back is in use, a number that is stolen is free. -/
def Legal (xp : BallocXparams) (s : RunState) : Op → Prop
  | .alloc => True
  | .free bn => bn < size xp ∧ bn ≠ 0 ∧ bitAt xp s.disk bn = inuse
  | .steal bn => bn < size xp ∧ bitAt xp s.disk bn = avail
  | .getFreeBlocks => True

def step (xp : BallocXparams) (s : RunState) : Op → RunState
  | .alloc =>
    let ((cache, r), d) := (alloc xp s.cache).run s.disk
    ⟨cache, d, r.toList ++ s.held⟩
  | .free bn =>
    let (cache, d) := (free xp bn s.cache).run s.disk
    ⟨cache, d, s.held.erase bn⟩
  | .steal bn =>
    let (cache, d) := (steal xp bn s.cache).run s.disk
    ⟨cache, d, bn :: s.held⟩
  | .getFreeBlocks =>
    let ((cache, _), d) := (getFreeBlocks xp s.cache).run s.disk
    ⟨cache, d, s.held⟩

/-- A formatted bitmap, or any bitmap with an empty cache. -/
inductive Start (xp : BallocXparams) : RunState → Prop
  | init (d : LDisk) : Start xp ⟨((init xp).run d).1, ((init xp).run d).2, []⟩
  | initNofree (d : LDisk) : Start xp ⟨((initNofree xp).run d).1, ((initNofree xp).run d).2, []⟩
  | empty (d : LDisk) : Start xp ⟨freelist0, d, []⟩

inductive Reach (xp : BallocXparams) : RunState → Prop
  | start {s : RunState} (h : Start xp s) : Reach xp s
  | step {s : RunState} (o : Op) (h : Reach xp s) (ho : Legal xp s o) : Reach xp (step xp s o)

/-- The cached free list is the set of free numbers, and the numbers that are held are in use, each by one owner. -/
structure InStep (xp : BallocXparams) (s : RunState) : Prop where
  nodup : ∀ l, s.cache = some l → l.Nodup
  zero : ∀ l, s.cache = some l → 0 ∉ l
  mem_iff : ∀ l, s.cache = some l → ∀ bn, bn ∈ l ↔ bn < size xp ∧ bn ≠ 0 ∧ bitAt xp s.disk bn = avail
  held_nodup : s.held.Nodup
  held_inuse : ∀ bn ∈ s.held, bitAt xp s.disk bn = inuse

/-- What `alloc` does in a state: nothing if there is no free number, else it takes one that nobody holds. -/
structure Allocates (xp : BallocXparams) (s : RunState) (r : Option Nat) (d' : LDisk) : Prop where
  none_iff : r = none ↔ ∀ bn < size xp, bn ≠ 0 → bitAt xp s.disk bn = inuse
  same_of_none : r = none → d' = s.disk
  free : ∀ bn, r = some bn → bn < size xp ∧ bn ≠ 0 ∧ bitAt xp s.disk bn = avail
  fresh : ∀ bn, r = some bn → bn ∉ s.held
  bits_eq : ∀ bn, r = some bn → ∀ m, bitAt xp d' m = if m = bn then inuse else bitAt xp s.disk m
  frame : ∀ a, ¬ xp.InBitmap a → d' a = s.disk a

variable {xp : BallocXparams} {n : Nat} {s : RunState} {d : LDisk} {c : BmapCacheType} {bn : Nat}

/-! ## One step -/

theorem free_bits (hx : xp.Ok n) (hlt : bn < size xp) : twp n (free xp bn c) (fun c' d' =>
    c' = cacheFreeBlock bn c ∧ d' = BmapAlloc.putBit xp d bn avail) d :=
  twp_bind _ (BmapAlloc.free_spec hx hlt ⟨rfl, rfl⟩)

theorem steal_bits (hx : xp.Ok n) (hlt : bn < size xp) : twp n (steal xp bn c) (fun c' d' =>
    c' = freelist0 ∧ d' = BmapAlloc.putBit xp d bn inuse) d :=
  twp_bind _ (BmapAlloc.steal_spec hx hlt ⟨rfl, rfl⟩)

theorem InStep.of_cacheRep (hc : CacheRep xp s.disk s.cache) (hnd : s.held.Nodup)
    (hin : ∀ bn ∈ s.held, bitAt xp s.disk bn = inuse) : InStep xp s where
  nodup l hl := (hc l hl).nodup_iff.2 (BmapAlloc.nodup_freeList _ _)
  zero l hl h0 := (BmapAlloc.mem_freeList.1 ((hc l hl).subset h0)).2.1 rfl
  mem_iff l hl _ := (hc l hl).mem_iff.trans BmapAlloc.mem_freeList
  held_nodup := hnd
  held_inuse := hin

theorem InStep.cacheRep (h : InStep xp s) : CacheRep xp s.disk s.cache := fun l hl => by
  rw [List.perm_ext_iff_of_nodup (h.nodup l hl) (BmapAlloc.nodup_freeList _ _)]
  intro bn
  rw [h.mem_iff l hl, BmapAlloc.mem_freeList]

theorem InStep.start (hx : xp.Ok n) (h : Start xp s) : InStep xp s := by
  have hempty : ∀ bn ∈ ([] : List Nat), bitAt xp s.disk bn = inuse := fun _ h => absurd h List.not_mem_nil
  cases h with
  | init d =>
    have hrun := twp_run (init_spec (d := d) hx)
    exact .of_cacheRep (by rw [hrun.1]; exact cacheRep_freelist0 _ _) .nil hempty
  | initNofree d =>
    have hrun := twp_run (initNofree_spec (d := d) hx)
    exact .of_cacheRep (by rw [hrun.1]; exact cacheRep_freelist0 _ _) .nil hempty
  | empty d => exact .of_cacheRep (cacheRep_freelist0 _ _) .nil hempty

/-- A number that is held is not free. -/
theorem InStep.not_held (h : InStep xp s) (hbn : bitAt xp s.disk bn = avail) : bn ∉ s.held := fun hin => by
  rw [h.held_inuse bn hin] at hbn
  exact absurd hbn (by decide)

/-- Taking a number that is free keeps the bits of those that are held. -/
theorem InStep.held_putBit (h : InStep xp s) : ∀ m ∈ bn :: s.held,
    bitAt xp (BmapAlloc.putBit xp s.disk bn inuse) m = inuse := by
  intro m hm
  rw [BmapAlloc.bitAt_putBit]
  by_cases he : m = bn
  · exact if_pos he
  · rw [if_neg he]
    exact h.held_inuse m ((List.mem_cons.1 hm).resolve_left he)

theorem InStep.allocates (hx : xp.Ok n) (h : InStep xp s) :
    Allocates xp s ((alloc xp s.cache).run s.disk).1.2 ((alloc xp s.cache).run s.disk).2 := by
  rcases twp_run (alloc_bits hx h.cacheRep) with ⟨hr, hd, hnone, _⟩ | ⟨bn, l, hr, hmem, _, hd⟩
  · rw [hr, hd]
    refine ⟨⟨fun _ m hm h0 => ?_, fun _ => rfl⟩, fun _ => rfl, ?_, ?_, ?_, fun _ _ => rfl⟩
    · refine BmapAlloc.bit_ne_avail_iff.1 fun hbit => ?_
      have hin : m ∈ freeList xp s.disk := BmapAlloc.mem_freeList.2 ⟨hm, h0, hbit⟩
      rw [hnone] at hin
      exact List.not_mem_nil hin
    · rintro _ ⟨⟩
    · rintro _ ⟨⟩
    · rintro _ ⟨⟩
  · obtain ⟨hlt, h0, hbit⟩ := BmapAlloc.mem_freeList.1 hmem
    rw [hr, hd]
    refine ⟨⟨fun h => (nomatch h), fun hall => ?_⟩, fun h => (nomatch h), ?_, ?_, ?_, fun a ha => ?_⟩
    · rw [hall bn hlt h0] at hbit
      exact absurd hbit (by decide)
    · rintro _ ⟨⟩
      exact ⟨hlt, h0, hbit⟩
    · rintro _ ⟨⟩
      exact h.not_held hbit
    · rintro _ ⟨⟩ m
      exact BmapAlloc.bitAt_putBit inuse m
    · exact BmapAlloc.putBit_frame hlt _ ha

/-- Every call keeps the invariant. -/
theorem InStep.step (hx : xp.Ok n) (h : InStep xp s) (o : Op) (ho : Legal xp s o) : InStep xp (step xp s o) := by
  cases o with
  | alloc =>
    have hrun := twp_run (alloc_bits hx h.cacheRep)
    rw [BmapAllocCache.step]
    generalize (alloc xp s.cache).run s.disk = x at hrun ⊢
    obtain ⟨⟨c, r⟩, d⟩ := x
    rcases hrun with ⟨hr, hd, _, hc⟩ | ⟨bn, l, hr, hmem, hl, hd⟩
    · simp only at hr hd hc
      subst hr hd
      exact .of_cacheRep hc h.held_nodup h.held_inuse
    · cases hr
      simp only at hd
      subst hd
      have hperm := BmapAlloc.freeList_steal hmem
      refine .of_cacheRep (fun l' hl' => ?_) ?_ h.held_putBit
      · cases hl'
        exact (List.perm_cons bn).1 (hl.trans hperm)
      · exact List.nodup_cons.2 ⟨h.not_held (BmapAlloc.mem_freeList.1 hmem).2.2, h.held_nodup⟩
  | free bn =>
    obtain ⟨hlt, h0, hbit⟩ := ho
    have hnot : bn ∉ freeList xp s.disk := fun hin => by
      rw [(BmapAlloc.mem_freeList.1 hin).2.2] at hbit
      exact absurd hbit (by decide)
    have hrun := twp_run (free_bits (d := s.disk) (c := s.cache) hx hlt)
    rw [BmapAllocCache.step]
    generalize (free xp bn s.cache).run s.disk = x at hrun ⊢
    obtain ⟨c, d⟩ := x
    obtain ⟨hc, hd⟩ := hrun
    simp only at hc hd
    subst hc hd
    refine .of_cacheRep (h.cacheRep.free hnot hlt h0) (h.held_nodup.erase bn) fun m hm => ?_
    obtain ⟨hne, hm⟩ := (List.Nodup.mem_erase_iff h.held_nodup).1 hm
    rw [BmapAlloc.bitAt_putBit, if_neg hne]
    exact h.held_inuse m hm
  | steal bn =>
    have hrun := twp_run (steal_bits (d := s.disk) (c := s.cache) hx ho.1)
    rw [BmapAllocCache.step]
    generalize (steal xp bn s.cache).run s.disk = x at hrun ⊢
    obtain ⟨c, d⟩ := x
    obtain ⟨hc, hd⟩ := hrun
    simp only at hc hd
    subst hc hd
    refine .of_cacheRep (cacheRep_freelist0 _ _) ?_ h.held_putBit
    exact List.nodup_cons.2 ⟨h.not_held ho.2, h.held_nodup⟩
  | getFreeBlocks =>
    have hrun := twp_run (getFreeBlocks_spec hx h.cacheRep)
    rw [BmapAllocCache.step]
    generalize (getFreeBlocks xp s.cache).run s.disk = x at hrun ⊢
    obtain ⟨⟨c, r⟩, d⟩ := x
    obtain ⟨hd, hc, hperm⟩ := hrun
    simp only at hd hc hperm
    subst hd hc
    refine .of_cacheRep (fun l hl => ?_) h.held_nodup h.held_inuse
    cases hl
    exact hperm

/-! ## Runs -/

theorem InStep.reach (hx : xp.Ok n) (h : Reach xp s) : InStep xp s := by
  induction h with
  | start h => exact .start hx h
  | step o _ ho ih => exact ih.step hx o ho

/-- In every run the cached free list is the set of free numbers, what is held is held once, and `alloc` hands out a
number that was free. -/
theorem cached_alloc_run (hx : xp.Ok n) (h : Reach xp s) :
    InStep xp s ∧ Allocates xp s ((alloc xp s.cache).run s.disk).1.2 ((alloc xp s.cache).run s.disk).2 :=
  ⟨.reach hx h, (InStep.reach hx h).allocates hx⟩

def zeroBitmap : RunState := ⟨freelist0, ⟨fun _ => 0, fun _ => True⟩, []⟩

theorem cached_alloc_run_small : InStep ⟨1, 1⟩ (step ⟨1, 1⟩ zeroBitmap .alloc) ∧
    Allocates ⟨1, 1⟩ (step ⟨1, 1⟩ zeroBitmap .alloc)
      ((alloc ⟨1, 1⟩ (step ⟨1, 1⟩ zeroBitmap .alloc).cache).run (step ⟨1, 1⟩ zeroBitmap .alloc).disk).1.2
      ((alloc ⟨1, 1⟩ (step ⟨1, 1⟩ zeroBitmap .alloc).cache).run (step ⟨1, 1⟩ zeroBitmap .alloc).disk).2 :=
  @cached_alloc_run ⟨1, 1⟩ 2 _ ⟨by decide, by decide⟩ (.step .alloc (.start (.empty _)) trivial)

end BmapAllocCache

end Fscq
