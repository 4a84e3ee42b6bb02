import Fscq.Crash.Prog
import Fscq.Rec.Bytes
import Mathlib.Data.List.Forall2
import Mathlib.Data.List.GetD

/-!
# Value sets of blocks as value sets of bytes

A block on the disk is its current value with the older values that a crash may bring back; `valuset2bytesets` makes of it one
such set for each byte, and `bytesets2valuset` a set of blocks again. Both peel columns off a list of rows (`peel`), which is a
transposition, and twice the identity (`peel_peel`). `updNList` writes a range of bytes: every byte may then be what it may be
after the write of the whole block (`byteset_conversions`).
-/

namespace Fscq

open CrashLogic (ValuSet)

/-! ## Columns of a list of rows -/

section Peel

variable {A : Type} {vs : List (List A)} {k : Nat}

def selN' (i : Nat) (default : A) (l : List A) : A := l.getD i default

/-- The first `k` columns, with a default where a row is too short. -/
def peel (default : A) : List (List A) → Nat → List (List A)
  | _, 0 => []
  | [], _ + 1 => []
  | v :: vs, i + 1 => (v :: vs).map (selN' 0 default) :: peel default ((v :: vs).map (List.drop 1)) i

theorem peel_succ (default : A) (h : vs ≠ []) (i : Nat) :
    peel default vs (i + 1) = vs.map (selN' 0 default) :: peel default (vs.map (List.drop 1)) i := by
  cases vs with
  | nil => exact absurd rfl h
  | cons v vs => rfl

theorem map_map_cancel {B : Type} {f : A → B} {g : B → A} {l : List A} (h : ∀ x ∈ l, g (f x) = x) :
    (l.map f).map g = l := by
  rw [List.map_map]
  exact (List.map_congr_left h).trans (List.map_id l)

/-- A column has an entry of each row. -/
theorem peel_eq (default : A) (k : Nat) : ∀ {vs : List (List A)}, vs ≠ [] →
    peel default vs k = (List.range k).map fun i => vs.map (selN' i default) := by
  induction k with
  | zero => exact fun _ => by rw [peel, List.range_zero, List.map_nil]
  | succ k ih =>
    intro vs hvs
    have hdrop : ∀ i, (vs.map (List.drop 1)).map (selN' i default) = vs.map (selN' (i + 1) default) := fun i => by
      rw [List.map_map]
      refine List.map_congr_left fun l _ => ?_
      simp only [Function.comp_apply, selN', List.getD_eq_getElem?_getD, List.getElem?_drop, Nat.add_comm 1 i]
    rw [peel_succ default hvs, ih (by simpa using hvs), List.range_succ_eq_map, List.map_cons, List.map_map]
    exact congrArg _ (List.map_congr_left fun i _ => hdrop i)

theorem length_peel (default : A) (h : vs ≠ []) (k : Nat) : (peel default vs k).length = k := by
  rw [peel_eq default k h, List.length_map, List.length_range]

/-- The columns of the columns are the rows. -/
theorem peel_peel (default : A) (hvs : vs ≠ []) (hk : 0 < k) (hlen : ∀ l ∈ vs, l.length = k) :
    peel default (peel default vs k) vs.length = vs := by
  have hne : peel default vs k ≠ [] := fun h => by
    have hlen' := length_peel default hvs k
    rw [h, List.length_nil] at hlen'
    omega
  rw [peel_eq default _ hne]
  refine List.ext_getElem (by rw [List.length_map, List.length_range]) fun j h₁ h₂ => ?_
  have hrow : vs[j].length = k := hlen _ (List.getElem_mem h₂)
  rw [List.getElem_map, List.getElem_range, peel_eq default k hvs, List.map_map]
  refine List.ext_getElem (by rw [List.length_map, List.length_range, hrow]) fun i h₃ h₄ => ?_
  rw [List.getElem_map, List.getElem_range, Function.comp_apply]
  simp [selN', List.getD_eq_getElem?_getD, h₂, h₄]

end Peel

/-! ## The conversions -/

abbrev Byteset : Type := Byte × List Byte

section Sets

variable {A : Type}

def list2byteset (default : A) : List A → A × List A
  | [] => (default, [])
  | h :: t => (h, t)

def byteset2list (nel : A × List A) : List A := nel.1 :: nel.2

theorem list2byteset_byteset2list (default : A) (nel : A × List A) : list2byteset default (byteset2list nel) = nel := rfl

theorem byteset2list_list2byteset (default : A) {l : List A} (h : l ≠ []) : byteset2list (list2byteset default l) = l := by
  cases l with
  | nil => exact absurd rfl h
  | cons a l => rfl

end Sets

def byteset0 : Byteset := (0, [])

def valu0 : Valu := 0

def valuset2bytesetsRec : List (List Byte) → Nat → List (List Byte) := peel 0

def valuset2bytesets (vs : ValuSet Valu) : List Byteset :=
  (valuset2bytesetsRec ((byteset2list vs).map valu2list) valubytes).map (list2byteset 0)

def bytesets2valusetRec : List (List Byte) → Nat → List (List Byte) := peel 0

def bytesets2valuset (bs : List Byteset) : ValuSet Valu :=
  list2byteset valu0 ((bytesets2valusetRec (bs.map byteset2list) (byteset2list (bs.getD 0 byteset0)).length).map list2valu)

/-- New values before what is there; what is missing there has no older values. -/
def mergeBs : List Byte → List Byteset → List Byteset
  | [], _ => []
  | hb :: tb, [] => (hb, []) :: mergeBs tb []
  | hb :: tb, hbs :: tbs => (hb, hbs.1 :: hbs.2) :: mergeBs tb tbs

def updNList (l : List Byteset) (off : Nat) (l1 : List Byte) : List Byteset :=
  l.take off ++ mergeBs l1 (getSublist l off l1.length) ++ l.drop (off + l1.length)

/-! ## They are inverse -/

section Inverse

variable {v : Valu} {old : List Valu} {bs : List Byteset} {i : Nat}

def byteAt (i : Nat) (v : Valu) : Byte := (valu2list v).getD i 0

theorem map_valu2list_ne_nil (vs : ValuSet Valu) : (byteset2list vs).map valu2list ≠ [] := List.cons_ne_nil _ _

theorem valuset2bytesets_eq (vs : ValuSet Valu) :
    valuset2bytesets vs = (List.range valubytes).map fun i => (byteAt i vs.1, vs.2.map (byteAt i)) := by
  rw [valuset2bytesets, valuset2bytesetsRec, peel_eq 0 valubytes (map_valu2list_ne_nil vs), List.map_map]
  refine List.map_congr_left fun i _ => ?_
  rw [Function.comp_apply, List.map_map]
  rfl

theorem length_valuset2bytesets (vs : ValuSet Valu) : (valuset2bytesets vs).length = valubytes := by
  rw [valuset2bytesets_eq, List.length_map, List.length_range]

theorem map_byteset2list_valuset2bytesets (vs : ValuSet Valu) :
    (valuset2bytesets vs).map byteset2list = peel 0 ((byteset2list vs).map valu2list) valubytes := by
  rw [valuset2bytesets_eq, List.map_map, peel_eq 0 valubytes (map_valu2list_ne_nil vs)]
  refine List.map_congr_left fun i _ => ?_
  rw [List.map_map]
  rfl

theorem list2valu_valu2list (v : Valu) : list2valu (valu2list v) = v := by
  rw [list2valu, if_pos (Nat.le_of_eq (length_valu2list v)), valu2list, Rec.arrayToWord_wordToArray fun _ => rfl,
    BitVec.cast_cast, BitVec.cast_eq]

theorem bytesets2valuset_valuset2bytesets (vs : ValuSet Valu) : bytesets2valuset (valuset2bytesets vs) = vs := by
  have hlen : (byteset2list ((valuset2bytesets vs).getD 0 byteset0)).length = ((byteset2list vs).map valu2list).length := by
    rw [List.getD_eq_getElem _ _ (by rw [length_valuset2bytesets]; decide)]
    simp [valuset2bytesets_eq, byteset2list]
  have hrows : ∀ l ∈ (byteset2list vs).map valu2list, l.length = valubytes := fun l hl => by
    obtain ⟨v, _, rfl⟩ := List.mem_map.mp hl
    exact length_valu2list v
  rw [bytesets2valuset, bytesets2valusetRec, hlen, map_byteset2list_valuset2bytesets,
    peel_peel 0 (map_valu2list_ne_nil vs) (by decide) hrows, map_map_cancel fun v _ => list2valu_valu2list v,
    list2byteset_byteset2list]

theorem valuset2bytesets_bytesets2valuset {m : Nat} (hbs : bs.length = valubytes) (hm : ∀ b ∈ bs, b.2.length = m) :
    valuset2bytesets (bytesets2valuset bs) = bs := by
  have hne : bs.map byteset2list ≠ [] := fun h => by
    rw [List.map_eq_nil_iff.mp h] at hbs
    exact absurd hbs (by decide)
  have hrows : ∀ l ∈ bs.map byteset2list, l.length = m + 1 := fun l hl => by
    obtain ⟨b, hb, rfl⟩ := List.mem_map.mp hl
    rw [byteset2list, List.length_cons, hm b hb]
  have hlen : (byteset2list (bs.getD 0 byteset0)).length = m + 1 := by
    have hpos : 0 < bs.length := by rw [hbs]; decide
    rw [List.getD_eq_getElem _ _ hpos]
    exact hrows _ (List.mem_map_of_mem (List.getElem_mem hpos))
  -- the columns are the blocks
  have hcols : ((peel 0 (bs.map byteset2list) (m + 1)).map list2valu).map valu2list = peel 0 (bs.map byteset2list) (m + 1) := by
    refine map_map_cancel fun l hl => ?_
    rw [peel_eq 0 _ hne] at hl
    obtain ⟨i, _, rfl⟩ := List.mem_map.mp hl
    exact valu2list_list2valu (by rw [List.length_map, List.length_map, hbs])
  have hlist : (peel 0 (bs.map byteset2list) (m + 1)).map list2valu ≠ [] := fun h => by
    have hlen' := length_peel 0 hne (m + 1)
    rw [List.map_eq_nil_iff.mp h] at hlen'
    exact absurd hlen' (by simp)
  have hpeel := peel_peel 0 hne (Nat.succ_pos m) hrows
  rw [List.length_map, hbs] at hpeel
  rw [valuset2bytesets, valuset2bytesetsRec, bytesets2valuset, bytesets2valusetRec, hlen, byteset2list_list2byteset _ hlist,
    hcols, hpeel, map_map_cancel fun b _ => list2byteset_byteset2list 0 b]

end Inverse

/-! ## Writing bytes -/

section Write

variable {v : Valu} {old : List Valu} {data : List Byte} {off : Nat}

theorem mergeBs_eq : ∀ {lb : List Byte} {lbs : List Byteset}, lb.length = lbs.length →
    mergeBs lb lbs = List.zipWith (fun b bs => (b, bs.1 :: bs.2)) lb lbs
  | [], [], _ => rfl
  | _ :: _, _ :: _, h => congrArg _ (mergeBs_eq (Nat.succ.inj h))

/-- Inside the range the new values come before the old ones, and the rest stays. -/
theorem getElem?_updNList {l : List Byteset} (h : off + data.length ≤ l.length) (i : Nat) :
    (updNList l off data)[i]? =
      if off ≤ i ∧ i < off + data.length then (data[i - off]?).bind fun b => l[i]?.map fun bs => (b, bs.1 :: bs.2)
      else l[i]? := by
  have hlen : data.length = (getSublist l off data.length).length := (length_getSublist h).symm
  have hpatch : updNList l off data =
      patch l off (List.zipWith (fun b bs => (b, bs.1 :: bs.2)) data (getSublist l off data.length)) := by
    rw [updNList, mergeBs_eq hlen, patch, List.length_zipWith, ← hlen, Nat.min_self, List.append_assoc]
  rw [hpatch, getElem?_patch (by rwa [List.length_zipWith, ← hlen, Nat.min_self]), List.length_zipWith, ← hlen, Nat.min_self]
  split
  case isTrue hi =>
    have hget : (getSublist l off data.length)[i - off]? = l[i]? := by
      rw [getSublist, List.getElem?_take_of_lt (by omega), List.getElem?_drop]
      exact congrArg (l[·]?) (by omega)
    rw [List.getElem?_zipWith, hget]
    cases data[i - off]? <;> cases l[i]? <;> rfl
  case isFalse hi => rfl

theorem length_updNList {l : List Byteset} (h : off + data.length ≤ l.length) : (updNList l off data).length = l.length := by
  have hlen : data.length = (getSublist l off data.length).length := (length_getSublist h).symm
  rw [updNList, mergeBs_eq hlen, List.length_append, List.length_append, List.length_take, List.length_drop,
    List.length_zipWith, ← hlen]
  omega

theorem byteAt_patch (h : off + data.length ≤ valubytes) (i : Nat) :
    byteAt i (list2valu (patch (valu2list v) off data)) =
      if off ≤ i ∧ i < off + data.length then data.getD (i - off) 0 else byteAt i v := by
  have hlen : off + data.length ≤ (valu2list v).length := by rwa [length_valu2list]
  rw [byteAt, valu2list_list2valu (by rw [length_patch hlen, length_valu2list]), List.getD_eq_getElem?_getD,
    getElem?_patch hlen, byteAt]
  split
  case isTrue hi => rw [List.getD_eq_getElem?_getD]
  case isFalse hi => rw [List.getD_eq_getElem?_getD]

/-- The same current byte, and the same possible bytes. -/
def SameBytes (b b' : Byteset) : Prop := b.1 = b'.1 ∧ ∀ x, x ∈ byteset2list b ↔ x ∈ byteset2list b'

theorem sameBytes_updNList (h : off + data.length ≤ valubytes) : List.Forall₂ SameBytes
    (updNList (valuset2bytesets (v, old)) off data)
    (valuset2bytesets (list2valu (patch (valu2list v) off data), v :: old)) := by
  have hlen : off + data.length ≤ (valuset2bytesets (v, old)).length := by rwa [length_valuset2bytesets]
  have hget : ∀ (w : ValuSet Valu) {i : Nat}, i < valubytes →
      (valuset2bytesets w)[i]? = some (byteAt i w.1, w.2.map (byteAt i)) := fun w i hi => by
    rw [valuset2bytesets_eq, List.getElem?_map, List.getElem?_range hi, Option.map_some]
  refine List.forall₂_iff_get.mpr ⟨?_, fun i h₁ h₂ => ?_⟩
  · rw [length_updNList hlen, length_valuset2bytesets, length_valuset2bytesets]
  · rw [length_valuset2bytesets] at h₂
    have hleft := getElem?_updNList hlen i
    have hright := hget (list2valu (patch (valu2list v) off data), v :: old) h₂
    rw [hget _ h₂] at hleft
    simp only [byteAt_patch h] at hright
    rw [List.getElem?_eq_getElem (by rwa [length_valuset2bytesets])] at hright
    rw [List.getElem?_eq_getElem h₁] at hleft
    rw [List.get_eq_getElem, List.get_eq_getElem, Option.some.inj hright]
    split at hleft
    case isTrue hi =>
      rw [List.getElem?_eq_getElem (show i - off < data.length by omega)] at hleft
      rw [Option.some.inj hleft, if_pos hi, List.getD_eq_getElem _ _ (show i - off < data.length by omega)]
      exact ⟨rfl, fun x => Iff.rfl⟩
    case isFalse hi =>
      -- the current byte is one of the older values of the other set, too
      rw [Option.some.inj hleft, if_neg hi]
      exact ⟨rfl, fun x => by simp [byteset2list]⟩

end Write

/-- The conversions are inverse to each other, on blocks and on their value sets, and a write of bytes allows at each byte the
values that a write of the block with them allows. -/
theorem byteset_conversions :
    (∀ vs, bytesets2valuset (valuset2bytesets vs) = vs) ∧
    (∀ (bs : List Byteset) (m : Nat), bs.length = valubytes → (∀ b ∈ bs, b.2.length = m) →
      valuset2bytesets (bytesets2valuset bs) = bs) ∧
    (∀ v, (valu2list v).length = valubytes ∧ list2valu (valu2list v) = v) ∧
    (∀ l : List Byte, l.length = valubytes → valu2list (list2valu l) = l) ∧
    ∀ (v : Valu) (old : List Valu) (off : Nat) (data : List Byte), off + data.length ≤ valubytes →
      (valuset2bytesets (v, old)).length = valubytes ∧
      List.Forall₂ SameBytes (updNList (valuset2bytesets (v, old)) off data)
        (valuset2bytesets (list2valu (patch (valu2list v) off data), v :: old)) :=
  ⟨bytesets2valuset_valuset2bytesets, fun _ _ hbs hm => valuset2bytesets_bytesets2valuset hbs hm,
    fun v => ⟨length_valu2list v, list2valu_valu2list v⟩, fun _ => valu2list_list2valu,
    fun v old _ _ h => ⟨length_valuset2bytesets (v, old), sameBytes_updNList h⟩⟩

end Fscq
