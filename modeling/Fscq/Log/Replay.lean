import Fscq.Log.Defs
import Mathlib.Data.List.Perm.Subperm

/-!
# Replaying entries on a disk and in memory

`replayDisk` applies log entries to a disk, `overlay` shows a disk through a map of pending values. Replaying in memory
and showing the disk through the result is replaying on the disk (`overlay_replayMem`), in particular for the elements
of a map (`replayDisk_toList`). Direct writes and syncs commute with both where no entry is in the way.
-/

namespace Fscq

open CrashLogic Bufcache PaddedLog

namespace LogReplay

/-- The disk after the entries of a log are written and synced. -/
def replayDisk (log : Contents) (d : RawDisk Valu) : RawDisk Valu :=
  log.foldl (fun d e => Function.update d e.1 ((d e.1).map fun _ => (e.2, []))) d

/-- The disk seen through a map of later values. -/
def overlay (m : Valumap) (d : RawDisk Valu) : RawDisk Valu := fun a =>
  match m[a]? with
  | some v => (d a).map fun _ => (v, [])
  | none => d a

/-- Entries for addresses of a disk with `n` blocks, none for block 0. -/
def EntsIn (n : Nat) (log : Contents) : Prop := ∀ e ∈ log, e.1 ≠ 0 ∧ e.1 < n

def MapIn (n : Nat) (m : Valumap) : Prop := ∀ a v, m[a]? = some v → a ≠ 0 ∧ a < n

variable {n a b : Nat} {v : Valu} {m : Valumap} {d d' : RawDisk Valu} {log : Contents}

/-! ## Maps -/

theorem getElem?_vmap0 (a : Nat) : vmap0[a]? = none := Std.ExtTreeMap.getElem?_empty

theorem getElem?_replayMem_of_notMem : ∀ (log : Contents) (m : Valumap), (∀ e ∈ log, e.1 ≠ a) →
    (replayMem log m)[a]? = m[a]?
  | [], _, _ => rfl
  | e :: log, m, hn => by
    show (replayMem log (m.insert e.1 e.2))[a]? = _
    rw [getElem?_replayMem_of_notMem log _ fun e' he' => hn e' (List.mem_cons_of_mem _ he'), getElem?_insert',
      if_neg (hn e List.mem_cons_self)]

theorem getElem?_replayMem_of_mem : ∀ (log : Contents) (m : Valumap), (log.map Prod.fst).Nodup → (a, v) ∈ log →
    (replayMem log m)[a]? = some v
  | e :: log, m, hnd, hmem => by
    rw [List.map_cons, List.nodup_cons] at hnd
    show (replayMem log (m.insert e.1 e.2))[a]? = _
    rcases List.mem_cons.1 hmem with rfl | hmem
    · rw [getElem?_replayMem_of_notMem, getElem?_insert', if_pos rfl]
      exact fun e' he' heq => hnd.1 (List.mem_map.2 ⟨e', he', heq⟩)
    · exact getElem?_replayMem_of_mem log _ hnd.2 hmem

theorem getElem?_replayMem_cases : ∀ (log : Contents) (m : Valumap), (replayMem log m)[a]? = some v →
    (a, v) ∈ log ∨ m[a]? = some v
  | [], _, hv => Or.inr hv
  | e :: log, m, hv => by
    rcases getElem?_replayMem_cases log (m.insert e.1 e.2) hv with hmem | hins
    · exact Or.inl (List.mem_cons_of_mem _ hmem)
    · rw [getElem?_insert'] at hins
      split at hins
      · rename_i he
        cases hins
        exact Or.inl (he ▸ List.mem_cons_self)
      · exact Or.inr hins

theorem nodup_keys_toList (m : Valumap) : (m.toList.map Prod.fst).Nodup := by
  rw [List.nodup_iff_pairwise_ne, List.pairwise_map]
  refine (Std.ExtTreeMap.distinct_keys_toList (t := m)).imp fun hne he => hne ?_
  rw [he]; exact Std.ReflCmp.compare_self

/-- A map below `n` has at most `n` elements. -/
theorem MapIn.length_le {n : Nat} {m : Valumap} (hm : MapIn n m) : m.toList.length ≤ n := by
  have hsub : m.toList.map Prod.fst ⊆ List.range n := by
    intro a ha
    obtain ⟨e, he, rfl⟩ := List.mem_map.1 ha
    exact List.mem_range.2 (hm e.1 e.2 (Std.ExtTreeMap.mem_toList_iff_getElem?_eq_some.1 he)).2
  have hle := (List.subperm_of_subset (nodup_keys_toList m) hsub).length_le
  rwa [List.length_map, List.length_range] at hle

theorem replayMem_toList (m : Valumap) : replayMem m.toList vmap0 = m := by
  refine Std.ExtTreeMap.ext_getElem? fun {a} => ?_
  cases hm : m[a]? with
  | some v =>
    exact getElem?_replayMem_of_mem _ _ (nodup_keys_toList m) (Std.ExtTreeMap.mem_toList_iff_getElem?_eq_some.2 hm)
  | none =>
    rw [getElem?_replayMem_of_notMem, getElem?_vmap0]
    rintro ⟨b, v⟩ he rfl
    rw [Std.ExtTreeMap.mem_toList_iff_getElem?_eq_some.1 he] at hm
    cases hm

theorem entsIn_nil (n : Nat) : EntsIn n [] := fun _ he => absurd he List.not_mem_nil

theorem MapIn.toList (hm : MapIn n m) : EntsIn n m.toList := fun e he =>
  hm e.1 e.2 (Std.ExtTreeMap.mem_toList_iff_getElem?_eq_some.1 he)

theorem mapIn_vmap0 (n : Nat) : MapIn n vmap0 := fun a v hv => by
  rw [getElem?_vmap0] at hv; cases hv

theorem MapIn.replayMem (hm : MapIn n m) (hl : EntsIn n log) : MapIn n (replayMem log m) := fun a v hv => by
  rcases getElem?_replayMem_cases log m hv with hmem | hv
  · exact hl (a, v) hmem
  · exact hm a v hv

theorem MapIn.insert (hm : MapIn n m) (ha : a ≠ 0 ∧ a < n) : MapIn n (m.insert a v) := fun b w hw => by
  rw [getElem?_insert'] at hw
  split at hw
  · rename_i he; exact he ▸ ha
  · exact hm b w hw

theorem MapIn.erase (hm : MapIn n m) : MapIn n (m.erase a) := fun b w hw => by
  rw [getElem?_erase'] at hw
  split at hw
  · cases hw
  · exact hm b w hw

theorem contains_iff : m.contains a = true ↔ ∃ v, m[a]? = some v := by
  rw [Std.ExtTreeMap.contains_eq_isSome_getElem?, Option.isSome_iff_exists]

theorem getElem?_of_not_contains (hc : ¬ m.contains a = true) : m[a]? = none := by
  rw [contains_iff] at hc
  cases hm : m[a]? with
  | none => rfl
  | some v => exact absurd ⟨v, hm⟩ hc

theorem mem_mapKeys : a ∈ mapKeys m ↔ ∃ v, m[a]? = some v := by
  rw [mapKeys, List.mem_map]
  constructor
  · rintro ⟨⟨b, v⟩, he, rfl⟩
    exact ⟨v, Std.ExtTreeMap.mem_toList_iff_getElem?_eq_some.1 he⟩
  · rintro ⟨v, hv⟩
    exact ⟨(a, v), Std.ExtTreeMap.mem_toList_iff_getElem?_eq_some.2 hv, rfl⟩

theorem not_overlap {l : List Nat} (ho : ¬ overlap l m = true) : ∀ a ∈ l, m[a]? = none := fun a ha =>
  getElem?_of_not_contains fun hc => ho (List.any_eq_true.2 ⟨a, ha, hc⟩)

/-! ## Overlays -/

theorem overlay_some (hm : m[a]? = some v) : overlay m d a = (d a).map fun _ => (v, []) := by simp only [overlay, hm]

theorem overlay_none (hm : m[a]? = none) : overlay m d a = d a := by simp only [overlay, hm]

theorem overlay_vmap0 (d : RawDisk Valu) : overlay vmap0 d = d := funext fun a => overlay_none (getElem?_vmap0 a)

theorem overlay_ne_none (hd : d a ≠ none) : overlay m d a ≠ none := by
  cases hm : m[a]? with
  | some v => rw [overlay_some hm]; simpa using hd
  | none => rw [overlay_none hm]; exact hd

theorem overlay_insert (m : Valumap) (a : Nat) (v : Valu) (d : RawDisk Valu) :
    overlay (m.insert a v) d = Function.update (overlay m d) a ((overlay m d a).map fun _ => (v, [])) := by
  funext b
  by_cases hb : b = a
  · subst hb
    rw [Function.update_self, overlay_some (v := v) (by rw [getElem?_insert', if_pos rfl])]
    cases hm : m[b]? with
    | some w => rw [overlay_some hm, Option.map_map]; rfl
    | none => rw [overlay_none hm]
  · have hget : (m.insert a v)[b]? = m[b]? := by rw [getElem?_insert', if_neg (Ne.symm hb)]
    rw [Function.update_of_ne hb]
    simp only [overlay, hget]

theorem overlay_replayMem : ∀ (log : Contents) (m : Valumap) (d : RawDisk Valu),
    overlay (replayMem log m) d = replayDisk log (overlay m d)
  | [], _, _ => rfl
  | e :: log, m, d => by
    show overlay (replayMem log (m.insert e.1 e.2)) d = _
    rw [overlay_replayMem log, overlay_insert]; rfl

theorem replayDisk_toList (m : Valumap) (d : RawDisk Valu) : replayDisk m.toList d = overlay m d := by
  rw [← overlay_vmap0 d, ← overlay_replayMem, replayMem_toList, overlay_vmap0]

theorem replayMem_append (l l' : Contents) (m : Valumap) :
    replayMem (l ++ l') m = replayMem l' (replayMem l m) := List.foldl_append

/-- A crash of a disk, seen through the same map. -/
theorem overlay_crash (m : Valumap) (hc : PossibleCrash d d') : PossibleCrash (overlay m d) (overlay m d') := by
  intro a
  cases hm : m[a]? with
  | none => rw [overlay_none hm, overlay_none hm]; exact hc a
  | some v =>
    rw [overlay_some hm, overlay_some hm]
    rcases hc a with ⟨h₁, h₂⟩ | ⟨vs, v', h₁, h₂, _⟩
    · exact Or.inl ⟨by rw [h₁]; rfl, by rw [h₂]; rfl⟩
    · exact Or.inr ⟨(v, []), v, by rw [h₁]; rfl, by rw [h₂]; rfl, List.mem_cons_self⟩

/-! ## Direct writes and syncs -/

theorem overlay_updVs (hm : m[a]? = none) : overlay m (updVs d a v) = updVs (overlay m d) a v := by
  funext b
  by_cases hb : b = a
  · subst hb
    rw [overlay_none hm, updVs, updVs, Function.update_self, Function.update_self, overlay_none hm]
  · rw [updVs_of_ne hb]
    simp only [overlay, updVs_of_ne hb]

theorem overlay_updVecs : ∀ {avl : List (Nat × Valu)} {d : RawDisk Valu}, (∀ e ∈ avl, m[e.1]? = none) →
    overlay m (updVecs d 0 avl) = updVecs (overlay m d) 0 avl
  | [], _, _ => rfl
  | e :: avl, d, hm => by
    show overlay m (updVecs (updVs d (0 + e.1) e.2) 0 avl) = updVecs (updVs (overlay m d) (0 + e.1) e.2) 0 avl
    rw [overlay_updVecs fun e' he' => hm e' (List.mem_cons_of_mem _ he'), overlay_updVs]
    rw [Nat.zero_add]; exact hm e List.mem_cons_self

theorem overlay_syncAddrs (m : Valumap) (d : RawDisk Valu) (l : List Nat) :
    overlay m (syncAddrs d l) = syncAddrs (overlay m d) l := by
  funext a
  cases hm : m[a]? with
  | none => rw [overlay_none hm, syncAddrs, syncAddrs, overlay_none hm]
  | some v =>
    rw [overlay_some hm, syncAddrs, syncAddrs, overlay_some hm]
    split
    · rw [Option.map_map, Option.map_map]; rfl
    · rfl

theorem overlay_syncMem (m : Valumap) (d : RawDisk Valu) : overlay m (syncMem d) = syncMem (overlay m d) := by
  funext a
  cases hm : m[a]? with
  | none => rw [overlay_none hm, syncMem, syncMem, overlay_none hm]
  | some v => rw [overlay_some hm, syncMem, syncMem, overlay_some hm, Option.map_map, Option.map_map]; rfl

theorem replayDisk_updVs : ∀ {log : Contents} {d : RawDisk Valu}, (∀ e ∈ log, e.1 ≠ a) →
    replayDisk log (updVs d a v) = updVs (replayDisk log d) a v
  | [], _, _ => rfl
  | e :: log, d, hn => by
    have hne : e.1 ≠ a := hn e List.mem_cons_self
    show replayDisk log (Function.update (updVs d a v) e.1 ((updVs d a v e.1).map fun _ => (e.2, []))) =
      updVs (replayDisk log (Function.update d e.1 ((d e.1).map fun _ => (e.2, [])))) a v
    rw [← replayDisk_updVs fun e' he' => hn e' (List.mem_cons_of_mem _ he'), updVs_of_ne hne]
    congr 1
    rw [updVs, updVs, Function.update_of_ne (Ne.symm hne), Function.update_comm hne]

theorem replayDisk_syncAddrs (l : List Nat) : ∀ (log : Contents) (d : RawDisk Valu),
    replayDisk log (syncAddrs d l) = syncAddrs (replayDisk log d) l
  | [], _ => rfl
  | e :: log, d => by
    show replayDisk log (Function.update (syncAddrs d l) e.1 ((syncAddrs d l e.1).map fun _ => (e.2, []))) =
      syncAddrs (replayDisk log (Function.update d e.1 ((d e.1).map fun _ => (e.2, [])))) l
    rw [← replayDisk_syncAddrs l log]
    congr 1
    funext a
    by_cases ha : a = e.1
    · subst ha
      rw [Function.update_self, syncAddrs, syncAddrs, Function.update_self]
      split
      · rw [Option.map_map, Option.map_map]; rfl
      · rfl
    · rw [Function.update_of_ne ha, syncAddrs, syncAddrs, Function.update_of_ne ha]

theorem EntsIn.entryValid (hn : n ≤ 2 ^ 64) (hl : EntsIn n log) : ∀ e ∈ log, EntryValid e := fun e he =>
  ⟨(hl e he).1, Nat.lt_of_lt_of_le (hl e he).2 hn⟩

end LogReplay

end Fscq
