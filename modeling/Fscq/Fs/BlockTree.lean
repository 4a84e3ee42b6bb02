import Fscq.Fs.BlockPtr
import Mathlib.Data.List.Induction

/-!
# Trees of indirect blocks

What a tree of indirect blocks holds is a function of the disk: `walk` is the entry at an offset, `path` the nodes on the
way to it, and `nodes` are the blocks of all its nodes. `kids`, `walkL` and `pathL` are the same for a list of subtrees.
All of them depend on the nodes only (`nodes_congr`, `walk_congr`, `path_congr`).
-/

namespace Fscq.BlockPtr

open TxnLogic BmapAllocCache
open BmapAlloc (freeList size)

/-! ## Blocks of pointers -/

/-- The pointers in a block. -/
@[irreducible] def entries (d : LDisk) (bn : Nat) : List Waddr := indSig.val2block (d bn)

@[simp] theorem length_entries (d : LDisk) (bn : Nat) : (entries d bn).length = 512 := by
  rw [entries]; exact indSig.length_val2block _

variable {n : Nat} {d d' : LDisk} {bn : Nat}

theorem entries_congr (h : d' bn = d bn) : entries d' bn = entries d bn := by rw [entries, entries, h]

theorem item_eq_entries {off : Nat} (h : off < 512) : LogRecArray.item indSig bn d off = (entries d bn).getD off 0 := by
  have hdiv : off / indSig.itemsPerVal = 0 := Nat.div_eq_of_lt h
  have hmod : off % indSig.itemsPerVal = off := Nat.mod_eq_of_lt h
  rw [LogRecArray.item, hdiv, hmod, entries]
  rfl

theorem readEntries_spec {Q : List Waddr → LDisk → Prop} (hbn : bn < n) (hQ : Q (entries d bn) d) :
    twp n (LogRecArray.read indSig bn 1) Q d := by
  refine twp_mono (fun r d' ⟨hd, hr⟩ => ?_) _ (LogRecArray.read_spec (R := indSig) (d := d) hbn)
  rw [hr, LogRecArray.map_item_eq_flatMap, hd]
  simpa [entries] using hQ

theorem getEntry_spec {Q : Waddr → LDisk → Prop} {off : Nat} (hbn : bn < n) (hoff : off < 512)
    (hQ : Q ((entries d bn).getD off 0) d) : twp n (LogRecArray.get indSig bn off) Q d := by
  have hdiv : off / indSig.itemsPerVal = 0 := Nat.div_eq_of_lt hoff
  refine LogRecArray.get_spec (by rw [hdiv]; exact hbn) ?_
  rw [item_eq_entries hoff]
  exact hQ

theorem writeEntries_spec {new : List Waddr} (hbn : bn < n) (h0 : bn ≠ 0) (hlen : new.length = 512) :
    twp n (LogRecArray.write indSig bn new) (fun _ d' => entries d' bn = new ∧ (∀ a, a ≠ bn → d' a = d a) ∧
      ∀ a, a = bn ∨ d.plain a → d'.plain a) d := by
  have hone : new.length = 1 * indSig.itemsPerVal := by rw [hlen]; rfl
  have hwrite := LogRecArray.write_spec (R := indSig) (d := d) hone (fun x (_ : x ∈ new) => trivial) hbn h0
  refine twp_mono (fun _ d' ⟨hitems, hframe, hplain⟩ => ⟨?_, fun a ha => hframe a (by omega), fun a ha => ?_⟩) _ hwrite
  · rw [LogRecArray.map_item_eq_flatMap] at hitems
    simpa [entries] using hitems
  · exact hplain a (ha.imp (fun h => by omega) id)

theorem putEntry_spec {off : Nat} {x : Waddr} (hbn : bn < n) (h0 : bn ≠ 0) (hoff : off < 512) :
    twp n (LogRecArray.put indSig bn off x)
      (fun _ d' => entries d' bn = (entries d bn).set off x ∧ (∀ a, a ≠ bn → d' a = d a) ∧
        ∀ a, a = bn ∨ d.plain a → d'.plain a) d := by
  have hdiv : off / indSig.itemsPerVal = 0 := Nat.div_eq_of_lt hoff
  have hmod : off % indSig.itemsPerVal = off := Nat.mod_eq_of_lt hoff
  refine LogRecArray.put_spec (R := indSig) (by rw [hdiv]; exact hbn) h0 ⟨?_, fun a ha => ?_, fun a ha => ?_⟩
  · rw [entries, LogRecArray.putItem, hdiv, hmod, Nat.add_zero, Disk.set_self,
      RASig.val2block_updN (R := indSig) _ hoff trivial, entries]
  · exact LogRecArray.putItem_of_ne (R := indSig) (by rw [hdiv]; exact ha)
  · rw [LogRecArray.putItem, hdiv]
    exact ha

/-! ## Trees -/

/-- The entry at an offset of a tree of height `lvl`. -/
def walk (d : LDisk) : Nat → Nat → Nat → Waddr
  | 0, bn, off => if bn = 0 then 0 else (entries d bn).getD off 0
  | lvl + 1, bn, off => if bn = 0 then 0 else
    walk d lvl ((entries d bn).getD (off / nIndirect ^ (lvl + 1)) 0).toNat (off % nIndirect ^ (lvl + 1))

/-- The blocks of the nodes. -/
def nodes (d : LDisk) : Nat → Nat → List Nat
  | 0, bn => if bn = 0 then [] else [bn]
  | lvl + 1, bn => if bn = 0 then [] else bn :: (entries d bn).flatMap fun w => nodes d lvl w.toNat

/-- The nodes of a list of trees. -/
def kids (d : LDisk) (lvl : Nat) (E : List Waddr) : List Nat := E.flatMap fun w => nodes d lvl w.toNat

/-- The entry at an offset of a list of trees. -/
def walkL (d : LDisk) (lvl : Nat) (E : List Waddr) (off : Nat) : Waddr :=
  walk d lvl (E.getD (off / nIndirect ^ (lvl + 1)) 0).toNat (off % nIndirect ^ (lvl + 1))

/-- The nodes on the way to an offset. -/
def path (d : LDisk) : Nat → Nat → Nat → List Nat
  | 0, bn, _ => if bn = 0 then [] else [bn]
  | lvl + 1, bn, off => if bn = 0 then [] else
    bn :: path d lvl ((entries d bn).getD (off / nIndirect ^ (lvl + 1)) 0).toNat (off % nIndirect ^ (lvl + 1))

def pathL (d : LDisk) (lvl : Nat) (E : List Waddr) (off : Nat) : List Nat :=
  path d lvl (E.getD (off / nIndirect ^ (lvl + 1)) 0).toNat (off % nIndirect ^ (lvl + 1))

variable {lvl : Nat} {E : List Waddr}

@[simp] theorem walk_zero (d : LDisk) (lvl off : Nat) : walk d lvl 0 off = 0 := by cases lvl <;> simp [walk]

@[simp] theorem nodes_zero (d : LDisk) (lvl : Nat) : nodes d lvl 0 = [] := by cases lvl <;> simp [nodes]

@[simp] theorem path_zero (d : LDisk) (lvl off : Nat) : path d lvl 0 off = [] := by cases lvl <;> simp [path]

theorem path_succ (d : LDisk) (lvl off : Nat) (h : bn ≠ 0) :
    path d (lvl + 1) bn off = bn :: pathL d lvl (entries d bn) off := by rw [path, if_neg h, pathL]

theorem walk_succ (d : LDisk) (lvl off : Nat) (h : bn ≠ 0) :
    walk d (lvl + 1) bn off = walkL d lvl (entries d bn) off := by rw [walk, if_neg h, walkL]

theorem nodes_succ (d : LDisk) (lvl : Nat) (h : bn ≠ 0) : nodes d (lvl + 1) bn = bn :: kids d lvl (entries d bn) := by
  rw [nodes, if_neg h, kids]

theorem self_mem_nodes (d : LDisk) (lvl : Nat) (h : bn ≠ 0) : bn ∈ nodes d lvl bn := by
  cases lvl <;> simp [nodes, h]

@[simp] theorem kids_cons (d : LDisk) (lvl : Nat) (w : Waddr) (E : List Waddr) :
    kids d lvl (w :: E) = nodes d lvl w.toNat ++ kids d lvl E := rfl

@[simp] theorem kids_append (d : LDisk) (lvl : Nat) (E E' : List Waddr) :
    kids d lvl (E ++ E') = kids d lvl E ++ kids d lvl E' := List.flatMap_append

@[simp] theorem kids_replicate_zero (d : LDisk) (lvl m : Nat) : kids d lvl (List.replicate m 0) = [] := by
  simp [kids]

theorem nodes_sub_kids {w : Waddr} (hw : w ∈ E) {a : Nat} (ha : a ∈ nodes d lvl w.toNat) : a ∈ kids d lvl E :=
  List.mem_flatMap.2 ⟨w, hw, ha⟩

theorem nodes_getD_sub_kids {i : Nat} {a : Nat} (ha : a ∈ nodes d lvl (E.getD i 0).toNat) : a ∈ kids d lvl E := by
  by_cases hi : i < E.length
  · rw [List.getD_eq_getElem?_getD, List.getElem?_eq_getElem hi] at ha
    exact nodes_sub_kids (List.getElem_mem hi) ha
  · rw [List.getD_eq_getElem?_getD, List.getElem?_eq_none (by omega)] at ha
    simp at ha

theorem path_sub_nodes : ∀ {lvl bn off a : Nat}, a ∈ path d lvl bn off → a ∈ nodes d lvl bn
  | 0, bn, off, a, h => h
  | lvl + 1, bn, off, a, h => by
    by_cases h0 : bn = 0
    · rw [h0, path_zero] at h
      cases h
    · rw [path_succ d lvl off h0] at h
      rw [nodes_succ d lvl h0]
      rcases List.mem_cons.1 h with rfl | h
      · exact List.mem_cons_self
      · exact List.mem_cons_of_mem _ (nodes_getD_sub_kids (path_sub_nodes h))

/-- A tree depends on its nodes only. -/
theorem tree_congr : ∀ {lvl bn : Nat}, (∀ a ∈ nodes d lvl bn, d' a = d a) →
    nodes d' lvl bn = nodes d lvl bn ∧ ∀ off, walk d' lvl bn off = walk d lvl bn off
  | 0, bn, h => by
    by_cases h0 : bn = 0
    · simp [h0]
    · have he := entries_congr (h bn (self_mem_nodes d 0 h0))
      exact ⟨by simp [nodes], fun off => by rw [walk, walk, he]⟩
  | lvl + 1, bn, h => by
    by_cases h0 : bn = 0
    · simp [h0]
    · have he := entries_congr (h bn (self_mem_nodes d _ h0))
      have hkid : ∀ w ∈ entries d bn, nodes d' lvl w.toNat = nodes d lvl w.toNat ∧
          ∀ off, walk d' lvl w.toNat off = walk d lvl w.toNat off := fun w hw => by
        refine tree_congr fun a ha => h a ?_
        rw [nodes_succ d lvl h0]
        exact List.mem_cons_of_mem _ (nodes_sub_kids hw ha)
      refine ⟨?_, fun off => ?_⟩
      · rw [nodes_succ d' lvl h0, nodes_succ d lvl h0, he]
        exact congrArg (bn :: ·) (List.flatMap_congr fun w hw => (hkid w hw).1)
      · rw [walk_succ d' lvl off h0, walk_succ d lvl off h0, he, walkL, walkL]
        by_cases hi : off / nIndirect ^ (lvl + 1) < (entries d bn).length
        · rw [List.getD_eq_getElem?_getD, List.getElem?_eq_getElem hi]
          exact (hkid _ (List.getElem_mem hi)).2 _
        · rw [List.getD_eq_getElem?_getD, List.getElem?_eq_none (by omega)]
          simp

theorem nodes_congr (h : ∀ a ∈ nodes d lvl bn, d' a = d a) : nodes d' lvl bn = nodes d lvl bn := (tree_congr h).1

theorem walk_congr (h : ∀ a ∈ nodes d lvl bn, d' a = d a) (off : Nat) : walk d' lvl bn off = walk d lvl bn off :=
  (tree_congr h).2 off

theorem kids_congr (h : ∀ a ∈ kids d lvl E, d' a = d a) : kids d' lvl E = kids d lvl E :=
  List.flatMap_congr fun _ hw => nodes_congr fun a ha => h a (nodes_sub_kids hw ha)

theorem walkL_congr (h : ∀ a ∈ kids d lvl E, d' a = d a) (off : Nat) : walkL d' lvl E off = walkL d lvl E off :=
  walk_congr (fun a ha => h a (nodes_getD_sub_kids ha)) _

theorem path_congr : ∀ {lvl bn : Nat}, (∀ a ∈ nodes d lvl bn, d' a = d a) → ∀ off, path d' lvl bn off = path d lvl bn off
  | 0, bn, _, off => rfl
  | lvl + 1, bn, h, off => by
    by_cases h0 : bn = 0
    · simp [h0]
    · rw [path_succ d' lvl off h0, path_succ d lvl off h0, entries_congr (h bn (self_mem_nodes d _ h0)), pathL, pathL]
      refine congrArg (bn :: ·) (path_congr (fun a ha => h a ?_) _)
      rw [nodes_succ d lvl h0]
      exact List.mem_cons_of_mem _ (nodes_getD_sub_kids ha)

theorem pathL_congr (h : ∀ a ∈ kids d lvl E, d' a = d a) (off : Nat) : pathL d' lvl E off = pathL d lvl E off :=
  path_congr (fun a ha => h a (nodes_getD_sub_kids ha)) _

theorem mem_kids {a : Nat} : a ∈ kids d lvl E ↔ ∃ i < E.length, a ∈ nodes d lvl (E.getD i 0).toNat := by
  constructor
  · intro h
    obtain ⟨w, hw, ha⟩ := List.mem_flatMap.1 h
    obtain ⟨i, hi, rfl⟩ := List.getElem_of_mem hw
    refine ⟨i, hi, ?_⟩
    rw [List.getD_eq_getElem?_getD, List.getElem?_eq_getElem hi]
    exact ha
  · rintro ⟨i, _, ha⟩
    exact nodes_getD_sub_kids ha

theorem child_div {N off : Nat} (i : Nat) (h : off < N) : (i * N + off) / N = i := by
  rw [Nat.mul_comm, Nat.mul_add_div (Nat.zero_lt_of_lt h), Nat.div_eq_of_lt h, Nat.add_zero]

theorem child_mod {N off : Nat} (i : Nat) (h : off < N) : (i * N + off) % N = off := by
  rw [Nat.mul_comm, Nat.mul_add_mod, Nat.mod_eq_of_lt h]

theorem pathL_child (d : LDisk) (E : List Waddr) {i off : Nat} (h : off < nIndirect ^ (lvl + 1)) :
    pathL d lvl E (i * nIndirect ^ (lvl + 1) + off) = path d lvl (E.getD i 0).toNat off := by
  rw [pathL, child_div i h, child_mod i h]

/-- Every node is on the way to some offset. -/
theorem exists_path : ∀ {lvl bn a : Nat}, a ∈ nodes d lvl bn → ∃ off < nIndirect ^ (lvl + 1), a ∈ path d lvl bn off
  | 0, bn, a, h => ⟨0, Nat.pow_pos (by decide), h⟩
  | lvl + 1, bn, a, h => by
    by_cases h0 : bn = 0
    · rw [h0, nodes_zero] at h
      cases h
    rw [nodes_succ d lvl h0] at h
    rcases List.mem_cons.1 h with rfl | h
    · refine ⟨0, Nat.pow_pos (by decide), ?_⟩
      rw [path_succ d lvl 0 h0]
      exact List.mem_cons_self
    · obtain ⟨i, hi, ha⟩ := mem_kids.1 h
      obtain ⟨off, hoff, ha⟩ := exists_path ha
      rw [length_entries] at hi
      have hlt := Nat.mul_le_mul_right (nIndirect ^ (lvl + 1)) hi
      rw [Nat.succ_mul] at hlt
      refine ⟨i * nIndirect ^ (lvl + 1) + off, ?_, ?_⟩
      · have hpow : nIndirect ^ (lvl + 1 + 1) = 512 * nIndirect ^ (lvl + 1) := Nat.pow_succ'
        omega
      · rw [path_succ d lvl _ h0, pathL_child d _ hoff]
        exact List.mem_cons_of_mem _ ha

/-! ## Reading a tree -/

theorem div_pow_lt {off : Nat} (h : off < nIndirect ^ (lvl + 2)) : off / nIndirect ^ (lvl + 1) < 512 := by
  rw [Nat.div_lt_iff_lt_mul (Nat.pow_pos (by decide)), Nat.mul_comm]
  rwa [Nat.pow_succ] at h

theorem indget_spec {Q : Waddr → LDisk → Prop} : ∀ {lvl bn off : Nat}, (∀ a ∈ nodes d lvl bn, a < n) →
    off < nIndirect ^ (lvl + 1) → Q (walk d lvl bn off) d → twp n (indget lvl bn off) Q d
  | 0, bn, off, hin, hoff, hQ => by
    by_cases h0 : bn = 0
    · rw [indget, if_pos h0]
      rw [h0, walk_zero] at hQ
      exact hQ
    · rw [indget, if_neg h0, Nat.pow_zero, Nat.div_one]
      rw [walk, if_neg h0] at hQ
      exact getEntry_spec (hin bn (self_mem_nodes d 0 h0)) (by simpa using hoff) hQ
  | lvl + 1, bn, off, hin, hoff, hQ => by
    by_cases h0 : bn = 0
    · rw [indget, if_pos h0]
      rw [h0, walk_zero] at hQ
      exact hQ
    · rw [indget, if_neg h0]
      rw [walk, if_neg h0] at hQ
      refine twp_bind _ (getEntry_spec (hin bn (self_mem_nodes d _ h0)) (div_pow_lt hoff) ?_)
      refine indget_spec (fun a ha => hin a ?_) (Nat.mod_lt _ (Nat.pow_pos (by decide))) hQ
      rw [nodes_succ d lvl h0]
      exact List.mem_cons_of_mem _ (nodes_getD_sub_kids ha)

theorem flatMap_map_range {A : Type} (f : Waddr → Nat → A) {N : Nat} (hN : 0 < N) (E : List Waddr) :
    (E.flatMap fun w => (List.range N).map (f w)) =
      (List.range (E.length * N)).map fun off => f (E.getD (off / N) 0) (off % N) := by
  induction E using List.reverseRecOn with
  | nil => simp
  | append_singleton E w ih =>
    rw [List.flatMap_append, ih, List.flatMap_singleton, List.length_append, List.length_singleton, Nat.succ_mul,
      List.range_add, List.map_append, List.map_map]
    congr 1
    · refine List.map_congr_left fun off hoff => ?_
      have hlt : off / N < E.length := (Nat.div_lt_iff_lt_mul hN).2 (List.mem_range.1 hoff)
      rw [List.getD_eq_getElem?_getD, List.getD_eq_getElem?_getD, List.getElem?_append_left hlt]
    · refine List.map_congr_left fun off hoff => ?_
      have hlt := List.mem_range.1 hoff
      simp only [Function.comp_apply]
      rw [Nat.mul_comm E.length N, Nat.mul_add_div hN, Nat.div_eq_of_lt hlt, Nat.mul_add_mod, Nat.mod_eq_of_lt hlt]
      simp

theorem map_walk_zero (d : LDisk) (lvl m : Nat) : (List.range m).map (walk d lvl 0) = List.replicate m 0 := by
  rw [List.eq_replicate_iff]
  simp

/-- The subtrees are read from the last to the first. -/
theorem readLoop_spec {p : Waddr → TBody (List Waddr)} {g : Waddr → List Waddr}
    (h : ∀ w ∈ E, twp n (p w) (fun v d' => d' = d ∧ v = g w) d) :
    twp n (.forEach (fun b r => do
      let v ← p b
      pure (v ++ r)) E.reverse []) (fun r d' => d' = d ∧ r = E.flatMap g) d := by
  have hstep : ∀ (w : Waddr) (rest r : List Waddr) (d' : LDisk), (w :: rest) <:+ E.reverse →
      (d' = d ∧ r = (E.drop (w :: rest).length).flatMap g) →
      twp n (do
        let v ← p w
        pure (v ++ r)) (fun r d' => d' = d ∧ r = (E.drop rest.length).flatMap g) d' := by
    rintro w rest r d' ⟨t, ht⟩ ⟨rfl, rfl⟩
    have hE : E = rest.reverse ++ w :: t.reverse := by
      have hrev := congrArg List.reverse ht
      simpa using hrev.symm
    have hdrop : E.drop rest.length = w :: E.drop (rest.length + 1) := by
      have hlen : rest.length = rest.reverse.length := List.length_reverse.symm
      rw [hE, hlen, List.drop_left, List.drop_append, List.drop_eq_nil_of_le (by omega), Nat.add_sub_cancel_left]
      rfl
    refine twp_seq (h w (by rw [hE]; simp)) fun v d₁ ⟨hd, hv⟩ => ⟨hd, ?_⟩
    rw [hdrop, List.flatMap_cons, hv, List.length_cons]
  exact twp_forEach (I := fun rest r d' => d' = d ∧ r = (E.drop rest.length).flatMap g) E.reverse hstep
    ⟨rfl, by simp⟩

theorem indread_spec : ∀ (lvl bn : Nat), (∀ a ∈ nodes d lvl bn, a < n) →
    twp n (indread lvl bn) (fun r d' => d' = d ∧ r = (List.range (nIndirect ^ (lvl + 1))).map (walk d lvl bn)) d
  | 0, bn, hin => by
    by_cases h0 : bn = 0
    · rw [indread, if_pos h0, h0, map_walk_zero]
      exact ⟨rfl, rfl⟩
    · rw [indread, if_neg h0]
      refine readEntries_spec (hin bn (self_mem_nodes d 0 h0)) ⟨rfl, ?_⟩
      refine List.ext_getElem (by simp) fun i h₁ h₂ => ?_
      simp [walk, h0, List.getD_eq_getElem?_getD, List.getElem?_eq_getElem h₁]
  | lvl + 1, bn, hin => by
    by_cases h0 : bn = 0
    · rw [indread, if_pos h0, h0, map_walk_zero]
      exact ⟨rfl, rfl⟩
    · rw [indread, if_neg h0]
      refine twp_bind _ (readEntries_spec (hin bn (self_mem_nodes d _ h0)) ?_)
      have hkids : ∀ w ∈ entries d bn, ∀ a ∈ nodes d lvl w.toNat, a < n := fun w hw a ha => hin a (by
        rw [nodes_succ d lvl h0]
        exact List.mem_cons_of_mem _ (nodes_sub_kids hw ha))
      have hloop := readLoop_spec (p := fun w => indread lvl w.toNat)
        (g := fun w => (List.range (nIndirect ^ (lvl + 1))).map (walk d lvl w.toNat))
        fun w hw => indread_spec lvl w.toNat (hkids w hw)
      refine twp_mono (fun r d' ⟨hd, hr⟩ => ⟨hd, ?_⟩) _ hloop
      rw [hr, flatMap_map_range (fun w => walk d lvl w.toNat) (Nat.pow_pos (by decide)), length_entries,
        Nat.mul_comm 512,
        ← Nat.pow_succ]
      exact List.map_congr_left fun off _ => (walk_succ d lvl off h0).symm

end Fscq.BlockPtr
