import Fscq.Rec.Array
import Mathlib.Data.List.Flatten

/-!
# Blocks as lists of bytes

`valu2list` and `list2valu` take a block apart into bytes, the lowest first, and put it together again. `patch` replaces a
range of a list; the bytes of a list of blocks are patched by replacing blocks (`flatMap_set`).
-/

namespace Fscq

/-! ## Ranges of a list -/

section Lists

variable {A B : Type} {l data data' : List A} {p q k m c : Nat}

def getSublist (l : List A) (off len : Nat) : List A := (l.drop off).take len

/-- The list with a range replaced. -/
def patch (l : List A) (p : Nat) (data : List A) : List A := l.take p ++ (data ++ l.drop (p + data.length))

theorem length_getSublist (h : p + k ≤ l.length) : (getSublist l p k).length = k := by
  rw [getSublist, List.length_take, List.length_drop]
  omega

theorem getSublist_append (l : List A) (p k m : Nat) : getSublist l p k ++ getSublist l (p + k) m = getSublist l p (k + m) := by
  rw [getSublist, getSublist, getSublist, List.take_add, List.drop_drop]

theorem getSublist_take (h : p + k ≤ m) : getSublist (l.take m) p k = getSublist l p k := by
  rw [getSublist, getSublist, List.drop_take, List.take_take, Nat.min_eq_left (by omega)]

theorem length_patch (h : p + data.length ≤ l.length) : (patch l p data).length = l.length := by
  rw [patch, List.length_append, List.length_append, List.length_take, List.length_drop]
  omega

theorem getElem?_patch (h : p + data.length ≤ l.length) (i : Nat) :
    (patch l p data)[i]? = if p ≤ i ∧ i < p + data.length then data[i - p]? else l[i]? := by
  have htake : (l.take p).length = p := List.length_take_of_le (by omega)
  rw [patch, List.getElem?_append, htake]
  split
  case isTrue hip => rw [if_neg (by omega), List.getElem?_take_of_lt hip]
  case isFalse hip =>
    rw [List.getElem?_append]
    split
    case isTrue hid => rw [if_pos (by omega)]
    case isFalse hid =>
      rw [if_neg (by omega), List.getElem?_drop]
      exact congrArg (l[·]?) (by omega)

theorem patch_nil (l : List A) (p : Nat) : patch l p [] = l := by
  rw [patch, List.nil_append, List.length_nil, Nat.add_zero, List.take_append_drop]

/-- A range may be replaced in two steps. -/
theorem patch_patch (h : p + (data ++ data').length ≤ l.length) :
    patch (patch l p data) (p + data.length) data' = patch l p (data ++ data') := by
  rw [List.length_append] at h
  have hlen : (patch l p data).length = l.length := length_patch (by omega)
  refine List.ext_getElem? fun i => ?_
  rw [getElem?_patch (by omega), getElem?_patch (by omega), getElem?_patch (by rw [List.length_append]; omega),
    List.length_append, List.getElem?_append]
  split
  case isTrue hi =>
    rw [if_pos (by omega), if_neg (by omega)]
    exact congrArg (data'[·]?) (by omega)
  case isFalse hi =>
    by_cases hp : p ≤ i ∧ i < p + data.length
    · rw [if_pos hp, if_pos (by omega), if_pos (by omega)]
    · rw [if_neg hp, if_neg (by omega)]

theorem take_patch (h : p + data.length ≤ l.length) (hm : p + data.length ≤ m) :
    (patch l p data).take m = patch (l.take m) p data := by
  refine List.ext_getElem? fun i => ?_
  rw [getElem?_patch (by rw [List.length_take]; omega), List.getElem?_take, getElem?_patch h, List.getElem?_take]
  by_cases him : i < m
  · rw [if_pos him, if_pos him]
  · rw [if_neg him, if_neg (by omega), if_neg him]

theorem drop_patch (h : p + data.length ≤ l.length) (hm : p + data.length ≤ m) : (patch l p data).drop m = l.drop m := by
  refine List.ext_getElem? fun i => ?_
  rw [List.getElem?_drop, List.getElem?_drop, getElem?_patch h, if_neg (by omega)]

theorem patch_append_right (h : p + data.length ≤ l.length) (l' l'' : List A) :
    l' ++ patch l p data ++ l'' = patch (l' ++ l ++ l'') (l'.length + p) data := by
  rw [patch, patch, List.append_assoc l' l, List.take_length_add_append, List.take_append_of_le_length (by omega),
    Nat.add_assoc, List.drop_length_add_append, List.drop_append_of_le_length h]
  simp only [List.append_assoc]

/-! ### Lists in chunks -/

variable {f : B → List A} {bs : List B} {b b' : B}

/-- The chunks before one, the chunk, and the chunks behind it. -/
theorem flatMap_eq (f : B → List A) (hb : bs[k]? = some b) :
    bs.flatMap f = (bs.take k).flatMap f ++ f b ++ (bs.drop (k + 1)).flatMap f := by
  obtain ⟨hk, hget⟩ := List.getElem?_eq_some_iff.1 hb
  rw [List.append_assoc, ← List.flatMap_cons, ← List.flatMap_append, ← hget, ← List.drop_eq_getElem_cons hk,
    List.take_append_drop]

theorem length_flatMap_of_length (hf : ∀ b, (f b).length = c) (bs : List B) : (bs.flatMap f).length = bs.length * c := by
  rw [List.length_flatMap, List.map_congr_left fun b _ => hf b, List.map_const', List.sum_replicate_nat]

theorem length_take_flatMap (hf : ∀ b, (f b).length = c) (hb : bs[k]? = some b) : ((bs.take k).flatMap f).length = k * c := by
  obtain ⟨hk, -⟩ := List.getElem?_eq_some_iff.1 hb
  rw [length_flatMap_of_length hf, List.length_take_of_le (Nat.le_of_lt hk)]

/-- A range inside one chunk. -/
theorem getSublist_chunk (hf : ∀ b, (f b).length = c) (hb : bs[k]? = some b) (h : p + m ≤ c) :
    getSublist (f b) p m = getSublist (bs.flatMap f) (k * c + p) m := by
  rw [flatMap_eq f hb, ← length_take_flatMap hf hb, getSublist, getSublist, List.append_assoc, List.drop_length_add_append,
    List.drop_append_of_le_length (by rw [hf]; omega), List.take_append_of_le_length (by rw [List.length_drop, hf]; omega)]

/-- Replacing a range inside one chunk. -/
theorem flatMap_set (hf : ∀ b, (f b).length = c) (hb : bs[k]? = some b) (h : p + data.length ≤ c)
    (hb' : f b' = patch (f b) p data) : (bs.set k b').flatMap f = patch (bs.flatMap f) (k * c + p) data := by
  obtain ⟨hk, -⟩ := List.getElem?_eq_some_iff.1 hb
  have hset : (bs.set k b')[k]? = some b' := List.getElem?_set_self hk
  rw [flatMap_eq f hset, hb', List.take_set_of_le (Nat.le_refl k), List.drop_set_of_lt (Nat.lt_succ_self k),
    patch_append_right (by rwa [hf]), length_take_flatMap hf hb, ← flatMap_eq f hb]

end Lists

/-! ## Blocks -/

/-- The size of a block in bytes. -/
def valubytes : Nat := valulen / 8

theorem valulen_eq : valulen = valubytes * 8 := rfl

abbrev Byte := BitVec 8

def valu2list (v : Valu) : List Byte := Rec.wordToArray id valubytes (v.cast valulen_eq)

/-- Shorter lists are filled up with zeros, and longer ones give zero. -/
def list2valu (l : List Byte) : Valu :=
  if l.length ≤ valubytes then (Rec.arrayToWord id valubytes l).cast valulen_eq.symm else 0

theorem length_valu2list (v : Valu) : (valu2list v).length = valubytes := Rec.length_wordToArray id valubytes _

theorem valu2list_list2valu {l : List Byte} (h : l.length = valubytes) : valu2list (list2valu l) = l := by
  rw [list2valu, if_pos (Nat.le_of_eq h), valu2list, BitVec.cast_cast, BitVec.cast_eq]
  exact Rec.wordToArray_arrayToWord h fun _ _ => rfl

end Fscq
