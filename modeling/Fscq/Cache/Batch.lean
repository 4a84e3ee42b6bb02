import Fscq.Cache.Spec

/-!
# Batch operations of the buffer cache

Ranges and vectors of blocks. `Holds D a vl` says that the blocks from `a` on have the latest values `vl`; `updRange`
and `updVecs` are the disks after a batch of writes, and `syncAddrs` after a batch is made durable. A crash in the
middle of a batch of writes is a crash of the disk after the batch (`covers_updRange`, `covers_updVecs`), since writes
only add values that may come back.
-/

namespace Fscq

open CrashLogic

namespace Bufcache

variable {V K H : Type} {h : K → H} {s : St V K} {cs : Cachestate V} {D : RawDisk V}

/-- The blocks from `a` on have the latest values `vl`. -/
def Holds (D : RawDisk V) (a : Nat) (vl : List V) : Prop :=
  ∀ i (hi : i < vl.length), ∃ old, D (a + i) = some (vl[i], old)

/-- There are `n` blocks from `a` on. -/
def Present (D : RawDisk V) (a n : Nat) : Prop := ∀ i < n, ∃ vs, D (a + i) = some vs

def updRange [Inhabited V] (D : RawDisk V) (a : Nat) (l : List V) : RawDisk V := fun b =>
  if a ≤ b ∧ b < a + l.length then (D b).map fun vs => (l.getD (b - a) default, vsmerge vs) else D b

def updVecs (D : RawDisk V) (a : Nat) (l : List (Nat × V)) : RawDisk V :=
  l.foldl (fun D e => updVs D (a + e.1) e.2) D

def syncAddrs (D : RawDisk V) (l : List Nat) : RawDisk V := fun b =>
  if b ∈ l then (D b).map fun vs => (vs.1, []) else D b

/-! ## The disks after a batch -/

theorem updVs_none {D : RawDisk V} {a b : Nat} {v : V} : updVs D a v b = none ↔ D b = none := by
  by_cases hb : b = a
  · subst hb; simp [updVs]
  · simp [updVs, Function.update_of_ne hb]

theorem updVs_some {D : RawDisk V} {a : Nat} {v : V} {vs : ValuSet V} (hd : D a = some vs) :
    updVs D a v a = some (v, vsmerge vs) := by simp [updVs, hd]

theorem updVs_of_ne {D : RawDisk V} {a b : Nat} {v : V} (hb : b ≠ a) : updVs D a v b = D b := by
  simp [updVs, Function.update_of_ne hb]

theorem present_iff {D : RawDisk V} {a n : Nat} : Present D a n ↔ ∀ i < n, D (a + i) ≠ none := by
  simp only [Present, Option.ne_none_iff_exists']

theorem Holds.present {a : Nat} {vl : List V} (hv : Holds D a vl) : Present D a vl.length := fun i hi => by
  obtain ⟨old, ho⟩ := hv i hi
  exact ⟨_, ho⟩

section UpdRange

variable [Inhabited V]

theorem updRange_nil (D : RawDisk V) (a : Nat) : updRange D a [] = D := by
  funext b
  simp only [updRange, List.length_nil]
  rw [if_neg (by omega)]

theorem updRange_of_notMem {D : RawDisk V} {a b : Nat} {l : List V} (hb : ¬(a ≤ b ∧ b < a + l.length)) :
    updRange D a l b = D b := if_neg hb

theorem updRange_getElem {D : RawDisk V} {a i : Nat} {l : List V} (hi : i < l.length) (hd : D (a + i) ≠ none) :
    ∃ old, updRange D a l (a + i) = some (l[i], old) := by
  obtain ⟨vs, hvs⟩ := Option.ne_none_iff_exists'.1 hd
  refine ⟨vsmerge vs, ?_⟩
  rw [updRange, if_pos ⟨by omega, by omega⟩, hvs, Nat.add_sub_cancel_left]
  simp [List.getD_eq_getElem?_getD, hi]

theorem updRange_ne_none {D : RawDisk V} {a b : Nat} {l : List V} (hd : D b ≠ none) : updRange D a l b ≠ none := by
  rw [updRange]
  split
  · simpa using hd
  · exact hd

/-- Writing one block more. -/
theorem updRange_take_succ (D : RawDisk V) (a : Nat) {l : List V} {i : Nat} (hi : i < l.length) :
    updVs (updRange D a (l.take i)) (a + i) (l.getD i default) = updRange D a (l.take (i + 1)) := by
  funext b
  by_cases hb : b = a + i
  · subst hb
    have h₁ : ¬(a ≤ a + i ∧ a + i < a + (l.take i).length) := by rw [List.length_take]; omega
    have h₂ : a ≤ a + i ∧ a + i < a + (l.take (i + 1)).length := by rw [List.length_take]; omega
    have h₃ : (l.take (i + 1)).getD (a + i - a) default = l.getD i default := by
      rw [Nat.add_sub_cancel_left]
      simp [List.getD_eq_getElem?_getD]
    rw [updVs, Function.update_self, updRange, if_neg h₁, updRange, if_pos h₂, h₃]
  · rw [updVs_of_ne hb, updRange, updRange]
    simp only [List.length_take]
    by_cases hlt : a ≤ b ∧ b < a + i
    · rw [if_pos (by omega), if_pos (by omega)]
      have h₃ : ∀ k, b - a < k → (l.take k).getD (b - a) default = l.getD (b - a) default := fun k hk => by
        simp [List.getD_eq_getElem?_getD, hk]
      rw [h₃ _ (by omega), h₃ _ (by omega)]
    · rw [if_neg (by omega), if_neg (by omega)]

theorem covers_updRange (D : RawDisk V) (a : Nat) (l : List V) : Covers D (updRange D a l) := by
  intro b
  cases hd : D b with
  | none => exact Or.inl ⟨rfl, by simp [updRange, hd]⟩
  | some vs =>
    by_cases hb : a ≤ b ∧ b < a + l.length
    · exact Or.inr ⟨vs, _, rfl, by rw [updRange, if_pos hb, hd]; rfl, List.subset_cons_self _ _⟩
    · exact Or.inr ⟨vs, vs, rfl, by rw [updRange, if_neg hb, hd], fun _ hx => hx⟩

theorem covers_updRange_take (D : RawDisk V) (a : Nat) (l : List V) (i : Nat) :
    Covers (updRange D a (l.take i)) (updRange D a l) := by
  intro b
  simp only [updRange, List.length_take]
  cases hd : D b with
  | none => left; split <;> split <;> simp
  | some vs =>
    right
    by_cases hi : a ≤ b ∧ b < a + min i l.length
    · rw [if_pos hi, if_pos (by omega)]
      refine ⟨_, _, rfl, rfl, ?_⟩
      have h₃ : (l.take i).getD (b - a) default = l.getD (b - a) default := by
        simp [List.getD_eq_getElem?_getD, show b - a < i by omega]
      rw [h₃]
      exact fun _ hx => hx
    · rw [if_neg hi]
      split
      · exact ⟨_, _, rfl, rfl, List.subset_cons_self _ _⟩
      · exact ⟨_, _, rfl, rfl, fun _ hx => hx⟩

end UpdRange

theorem covers_updVecs (a : Nat) : ∀ (l : List (Nat × V)) (D : RawDisk V), Covers D (updVecs D a l)
  | [], D => Covers.refl D
  | e :: l, D => (covers_updVs D (a + e.1) e.2).trans (covers_updVecs a l _)

theorem updVecs_none {a b : Nat} : ∀ {l : List (Nat × V)} {D : RawDisk V}, updVecs D a l b = none ↔ D b = none
  | [], _ => Iff.rfl
  | e :: l, D => by
    show updVecs (updVs D (a + e.1) e.2) a l b = none ↔ _
    rw [updVecs_none, updVs_none]

theorem updVecs_notMem {a b : Nat} : ∀ {l : List (Nat × V)} {D : RawDisk V}, (∀ e ∈ l, b ≠ a + e.1) →
    updVecs D a l b = D b
  | [], _, _ => rfl
  | e :: l, D, hb => by
    show updVecs (updVs D (a + e.1) e.2) a l b = D b
    rw [updVecs_notMem fun e' he' => hb e' (List.mem_cons_of_mem _ he'), updVs_of_ne (hb e List.mem_cons_self)]

theorem updVecs_append (D : RawDisk V) (a : Nat) (l l' : List (Nat × V)) :
    updVecs D a (l ++ l') = updVecs (updVecs D a l) a l' := by
  rw [updVecs, List.foldl_append]; rfl

/-! ## The specifications -/

theorem readRange_spec {A : Type} {a : Nat} {vfold : A → V → A} {a0 : A} {vl : List V} {seen : List K}
    (hr : CacheAt cs D seen s) (hv : Holds D a vl) :
    wp h (readRange (K := K) (H := H) a vl.length vfold a0 cs)
      (fun r s' => CacheAt r.1 D seen s' ∧ r.2 = vl.foldl vfold a0) (CrashAt D seen) s := by
  have hloop := wp_forN (h := h) (s := s) (l := (cs, a0)) (C := CrashAt D seen)
    (f := fun i (p : Cachestate V × A) => do
      let r ← readArray (K := K) (H := H) a i p.1
      pure (r.1, vfold p.2 r.2))
    (I := fun i p s' => CacheAt p.1 D seen s' ∧ p.2 = (vl.take i).foldl vfold a0) vl.length 0
    (fun i p s' _ hi hI => by
      obtain ⟨hp, hacc⟩ := hI
      have hlt : i < vl.length := by omega
      obtain ⟨old, ho⟩ := hv i hlt
      refine wp_seq (read_spec hp ho) (fun _ hc => hc) fun r s'' hread => ⟨hread.1, ?_⟩
      rw [List.take_succ_eq_append_getElem hlt, List.foldl_append, ← hacc, hread.2]; rfl)
    ⟨hr, by simp⟩
  refine wp_mono (fun r s' hI => ⟨hI.1, ?_⟩) (fun _ hc => hc) _ hloop
  rw [hI.2, Nat.zero_add, List.take_length]

theorem writeRange_spec [Inhabited V] {a : Nat} {l : List V} {seen : List K} (hr : CacheAt cs D seen s)
    (hp : Present D a l.length) :
    wp h (writeRange (K := K) (H := H) a l cs) (fun cs' s' => CacheAt cs' (updRange D a l) seen s')
      (CrashAt (updRange D a l) seen) s := by
  have hloop := wp_forN (h := h) (s := s) (l := cs) (C := CrashAt (updRange D a l) seen)
    (f := fun i cs => writeArray (K := K) (H := H) a i (l.getD i default) cs)
    (I := fun i cs s' => CacheAt cs (updRange D a (l.take i)) seen s') l.length 0
    (fun i cs s' _ hi hI => by
      have hlt : i < l.length := by omega
      obtain ⟨vs, hvs⟩ := hp i hlt
      have hat : updRange D a (l.take i) (a + i) = some vs := by
        rw [updRange, if_neg (by rw [List.length_take]; omega), hvs]
      refine wp_mono (fun cs' s'' hI' => ?_) (fun s'' hc => ?_) _ (write_spec hI hat)
      · rwa [updRange_take_succ D a hlt] at hI'
      · exact ⟨hc.1.trans (covers_updRange_take D a l i), hc.2⟩)
    (by rwa [List.take_zero, updRange_nil])
  refine wp_mono (fun r s' hI => ?_) (fun _ hc => hc) _ hloop
  rwa [Nat.zero_add, List.take_length] at hI

theorem writeVecs_spec [Inhabited V] {a : Nat} {l : List (Nat × V)} {seen : List K} (hr : CacheAt cs D seen s)
    (hp : ∀ e ∈ l, D (a + e.1) ≠ none) :
    wp h (writeVecs (K := K) (H := H) a l cs) (fun cs' s' => CacheAt cs' (updVecs D a l) seen s')
      (CrashAt (updVecs D a l) seen) s := by
  have hsplit : ∀ i, updVecs D a l = updVecs (updVecs D a (l.take i)) a (l.drop i) := fun i => by
    rw [← updVecs_append, List.take_append_drop]
  have hloop := wp_forN (h := h) (s := s) (l := cs) (C := CrashAt (updVecs D a l) seen)
    (f := fun i cs =>
      writeArray (K := K) (H := H) a (l.getD i (0, default)).1 (l.getD i (0, default)).2 cs)
    (I := fun i cs s' => CacheAt cs (updVecs D a (l.take i)) seen s') l.length 0
    (fun i cs s' _ hi hI => by
      have hlt : i < l.length := by omega
      have hget : l.getD i (0, default) = l[i] := by simp [List.getD_eq_getElem?_getD, hlt]
      have hne : updVecs D a (l.take i) (a + l[i].1) ≠ none := by
        rw [Ne, updVecs_none]; exact hp _ (List.getElem_mem hlt)
      obtain ⟨vs, hvs⟩ := Option.ne_none_iff_exists'.1 hne
      rw [hget]
      refine wp_mono (fun cs' s'' hI' => ?_) (fun s'' hc => ?_) _ (write_spec hI hvs)
      · rw [List.take_succ_eq_append_getElem hlt, updVecs_append]; exact hI'
      · rw [hsplit i]; exact ⟨hc.1.trans (covers_updVecs a _ _), hc.2⟩)
    (by rw [List.take_zero]; exact hr)
  refine wp_mono (fun r s' hI => ?_) (fun _ hc => hc) _ hloop
  rwa [Nat.zero_add, List.take_length] at hI

/-- After the write-backs of a range, the range is clean, and what was clean still is. -/
theorem syncRange_spec {a n : Nat} {seen : List K} (hr : CacheAt cs D seen s) :
    wp h (syncRange (K := K) (H := H) a n cs) (fun cs' s' => CacheAt cs' D seen s' ∧
      (∀ b, Clean cs b → Clean cs' b) ∧ ∀ i < n, Clean cs' (a + i)) (CrashAt D seen) s := by
  have hloop := wp_forN (h := h) (s := s) (l := cs) (C := CrashAt D seen)
    (f := fun i cs => syncArray (K := K) (H := H) a i cs)
    (I := fun i cs' s' => CacheAt cs' D seen s' ∧ (∀ b, Clean cs b → Clean cs' b) ∧ ∀ j < i, Clean cs' (a + j)) n 0
    (fun i cs₁ s' _ _ ⟨hI, hcl, hdone⟩ => by
      refine wp_mono (fun cs₂ s'' ⟨h₁, h₂, h₃, _⟩ => ⟨h₁, fun b hb => h₃ b (hcl b hb), fun j hj => ?_⟩)
        (fun _ hc => hc) _ (writeback_spec (a + i) hI)
      rcases Nat.lt_succ_iff_lt_or_eq.1 hj with hj | rfl
      · exact h₃ _ (hdone j hj)
      · exact h₂)
    ⟨hr, fun _ hb => hb, by omega⟩
  refine wp_mono (fun r s' hI => ?_) (fun _ hc => hc) _ hloop
  rwa [Nat.zero_add] at hI

theorem syncVecs_spec {a : Nat} {l : List Nat} {seen : List K} (hr : CacheAt cs D seen s) :
    wp h (syncVecs (K := K) (H := H) a l cs) (fun cs' s' => CacheAt cs' D seen s' ∧
      ∀ i ∈ l, Clean cs' (a + i)) (CrashAt D seen) s := by
  have hloop := wp_forEach (h := h) (s := s) (l := cs) (C := CrashAt D seen)
    (f := fun i cs => syncArray (K := K) (H := H) a i cs)
    (I := fun rest cs' s' => CacheAt cs' D seen s' ∧ ∀ i ∈ l, i ∈ rest ∨ Clean cs' (a + i)) l
    (fun x rest cs₁ s' _ ⟨hI, hdone⟩ => by
      refine wp_mono (fun cs₂ s'' ⟨h₁, h₂, h₃, _⟩ => ⟨h₁, fun i hi => ?_⟩) (fun _ hc => hc) _
        (writeback_spec (a + x) hI)
      rcases hdone i hi with hmem | hcl
      · rcases List.mem_cons.1 hmem with rfl | hmem
        · exact Or.inr h₂
        · exact Or.inl hmem
      · exact Or.inr (h₃ _ hcl))
    ⟨hr, fun i hi => Or.inl hi⟩
  refine wp_mono (fun r s' hI => ⟨hI.1, fun i hi => ?_⟩) (fun _ hc => hc) _ hloop
  rcases hI.2 i hi with hmem | hcl
  · cases hmem
  · exact hcl

theorem syncVecsNow_spec {a : Nat} {l : List Nat} {seen : List K} (hr : CacheAt cs D seen s) :
    wp h (syncVecsNow (K := K) (H := H) a l cs)
      (fun cs' s' => CacheAt cs' (syncAddrs D (l.map (a + ·))) seen s') (CrashAt D seen) s := by
  show wp h (syncVecs a l cs >>= endSync) _ _ s
  refine wp_seq (syncVecs_spec hr) (fun _ hc => hc) fun cs' s' ⟨hr', hcl⟩ => endSync_spec hr' fun b => ?_
  by_cases hb : b ∈ l.map (a + ·)
  · obtain ⟨i, hi, rfl⟩ := List.mem_map.1 hb
    exact Or.inr ⟨hcl i hi, by rw [syncAddrs, if_pos hb]⟩
  · exact Or.inl (by rw [syncAddrs, if_neg hb])

/-- Every block of the cache is written back, and the other blocks have nothing to write back. -/
theorem syncAll_spec {seen : List K} (hr : CacheAt cs D seen s) :
    wp h (syncAll (K := K) (H := H) cs) (fun cs' s' => CacheAt cs' (syncMem D) seen s') (CrashAt D seen) s := by
  have hloop := wp_forEach (h := h) (s := s) (l := cs) (C := CrashAt D seen)
    (f := fun i cs => syncArray (K := K) (H := H) 0 i cs)
    (I := fun rest cs' s' => CacheAt cs' D seen s' ∧ ∀ b, b ∈ rest ∨ Clean cs' b) (cs.csMap.toList.map Prod.fst)
    (fun x rest cs₁ s' _ ⟨hI, hdone⟩ => by
      refine wp_mono (fun cs₂ s'' ⟨h₁, h₂, h₃, _⟩ => ⟨h₁, fun b => ?_⟩) (fun _ hc => hc) _ (writeback_spec (0 + x) hI)
      rw [Nat.zero_add] at h₂
      rcases hdone b with hmem | hcl
      · exact (List.mem_cons.1 hmem).elim (fun hb => .inr (hb ▸ h₂)) .inl
      · exact .inr (h₃ b hcl))
    ⟨hr, fun b => ?_⟩
  · show wp h (syncVecs 0 (cs.csMap.toList.map Prod.fst) cs >>= endSync) _ _ s
    refine wp_seq hloop (fun _ hc => hc) fun cs' s' ⟨hr', hcl⟩ => endSync_spec hr' fun b => ?_
    exact .inr ⟨(hcl b).resolve_left List.not_mem_nil, rfl⟩
  · by_cases hb : b ∈ cs.csMap.toList.map Prod.fst
    · exact .inl hb
    · refine .inr fun v hv => hb (List.mem_map.2 ⟨(b, v, true), ?_, rfl⟩)
      exact Std.ExtTreeMap.mem_toList_iff_getElem?_eq_some.2 hv

/-- A fresh cache shows the disk itself. -/
theorem cacheRep_cache0 {n : Nat} (hn : n ≠ 0) (m : RawDisk V) : CacheRep (cache0 n) m m := by
  refine ⟨⟨by simp [cache0], Nat.zero_le _, hn⟩, fun a => ?_⟩
  have hnone : (cache0 n : Cachestate V).csMap[a]? = none := by simp [cache0]
  rw [hnone]
  cases hm : m a with
  | none => trivial
  | some vs => exact ⟨rfl, fun _ hx => hx⟩

theorem init_spec {n : Nat} (hn : n ≠ 0) (s : St V K) :
    wp h (init (K := K) (H := H) n) (fun cs s' => CacheAt cs (syncMem s.disk) s.seen s')
      (CrashAt s.disk s.seen) s :=
  ⟨⟨Covers.refl _, rfl⟩, fun _ hm => ⟨(cacheRep_cache0 hn _).possibleSync hm, rfl⟩⟩

end Bufcache

end Fscq
