import Fscq.Crash.Prog
import Mathlib.Data.List.Flatten
import Mathlib.Data.List.Infix

/-!
# The images that a crash can leave

A run of writes and syncs starts on a disk whose contents are an image, with nothing in flight. What a crash of the run
can leave is again an image: at some sync, all the writes before it in order, and of the writes after it, at every address
independently, none or any one of the values (`afterCrash_iff`).

The writes of a run are kept as groups between syncs, the newest group and the newest write of a group first. Two initial
images that differ can leave the same images after a run; `crashImage_base` and `pointwise_iff` say when.
-/

namespace CrashLogic

inductive DiskOp (V : Type) : Type
  | write (a : Nat) (v : V)
  | sync

abbrev Image (V : Type) := Nat → V

variable {V K H : Type} {h : K → H} {x x' y : Image V} {writes writes' : List (Nat × V)} {gs : List (List (Nat × V))}
  {ops : List (DiskOp V)} {a : Nat} {v : V}

def DiskOp.prog : List (DiskOp V) → Prog V K H Unit
  | [] => .ret ()
  | .write a v :: ops => .write a v (prog ops)
  | .sync :: ops => .sync (prog ops)

/-- The groups of writes, the newest first; the writes since the last sync are a group too. -/
def DiskOp.record : List (List (Nat × V)) → DiskOp V → List (List (Nat × V))
  | [], .write a v => [[(a, v)]]
  | g :: gs, .write a v => ((a, v) :: g) :: gs
  | gs, .sync => [] :: gs

def DiskOp.groups (ops : List (DiskOp V)) : List (List (Nat × V)) := ops.foldl record [[]]

/-- The writes before the first sync. -/
def DiskOp.beforeSync : List (DiskOp V) → List (Nat × V)
  | .write a v :: ops => (a, v) :: beforeSync ops
  | _ => []

namespace DiskOp

theorem foldl_record : ∀ (ops : List (DiskOp V)) (writes : List (Nat × V)) (gs : List (List (Nat × V))),
    ∃ newer, ops.foldl record (writes :: gs) = newer ++ ((beforeSync ops).reverse ++ writes) :: gs
  | [], _, _ => ⟨[], rfl⟩
  | .write a v :: ops, writes, gs => by
    obtain ⟨newer, hnewer⟩ := foldl_record ops ((a, v) :: writes) gs
    exact ⟨newer, by rw [List.foldl_cons, record, hnewer, beforeSync, List.reverse_cons, List.append_assoc]; rfl⟩
  | .sync :: ops, writes, gs => by
    obtain ⟨newer, hnewer⟩ := foldl_record ops [] (writes :: gs)
    refine ⟨newer ++ [(beforeSync ops).reverse ++ []], ?_⟩
    rw [List.foldl_cons, record, hnewer, List.append_assoc]
    rfl

/-- The oldest group. -/
theorem groups_eq (ops : List (DiskOp V)) : ∃ newer, groups ops = newer ++ [(beforeSync ops).reverse] := by
  obtain ⟨newer, hnewer⟩ := foldl_record ops [] []
  exact ⟨newer, by rw [groups, hnewer, List.append_nil]⟩

theorem mem_foldl_record : ∀ (ops : List (DiskOp V)) (writes : List (Nat × V)) (gs : List (List (Nat × V))),
    (a, v) ∈ (ops.foldl record (writes :: gs)).flatten ↔ .write a v ∈ ops ∨ (a, v) ∈ (writes :: gs).flatten
  | [], _, _ => by simp
  | .write b w :: ops, writes, gs => by
    rw [List.foldl_cons, record, mem_foldl_record]
    simp [or_assoc, or_left_comm]
  | .sync :: ops, writes, gs => by
    rw [List.foldl_cons, record, mem_foldl_record]
    simp

theorem mem_groups : (a, v) ∈ (groups ops).flatten ↔ .write a v ∈ ops := by
  rw [groups, mem_foldl_record]
  simp

end DiskOp

namespace Image

/-- The disk that holds an image, with nothing in flight. -/
def disk (x : Image V) : RawDisk V := fun a => some (x a, [])

/-- The image after some writes, the newest first. -/
def apply (x : Image V) : List (Nat × V) → Image V
  | [] => x
  | (a, v) :: writes => Function.update (x.apply writes) a v

/-- At every address none of the writes has reached the disk, or any one of them. -/
def Mixed (x : Image V) (writes : List (Nat × V)) (y : Image V) : Prop := ∀ a, y a = x a ∨ (a, y a) ∈ writes

/-- At some sync: all groups before it, and some of the writes after it. -/
def CrashImage (x : Image V) (gs : List (List (Nat × V))) (y : Image V) : Prop :=
  ∃ last others, (last :: others) <:+ gs ∧ (x.apply others.flatten).Mixed last y

/-- What the asynchronous disk can hold after a crash of a run. -/
def AfterCrash (x : Image V) (ops : List (DiskOp V)) (y : Image V) : Prop :=
  ∃ s : St V Unit, (Exec id ⟨x.disk, []⟩ (DiskOp.prog ops) (.crashed s) ∨
    Exec id ⟨x.disk, []⟩ (DiskOp.prog ops) (.finished s ())) ∧ PossibleCrash s.disk y.disk

/-! ## Writes -/

theorem apply_append (x : Image V) (writes' : List (Nat × V)) : ∀ writes : List (Nat × V),
    x.apply (writes ++ writes') = (x.apply writes').apply writes
  | [] => rfl
  | (a, v) :: writes => by rw [List.cons_append, apply, apply, apply_append x writes' writes]

theorem apply_congr (hx : x a = x' a) : ∀ writes : List (Nat × V), x.apply writes a = x'.apply writes a
  | [] => hx
  | (b, v) :: writes => by
    rw [apply, apply, Function.update_apply, Function.update_apply, apply_congr hx writes]

theorem apply_eq_or_mem (x : Image V) (a : Nat) : ∀ writes : List (Nat × V),
    x.apply writes a = x a ∨ (a, x.apply writes a) ∈ writes
  | [] => .inl rfl
  | (b, v) :: writes => by
    rw [apply, Function.update_apply]
    by_cases hab : a = b
    · subst hab
      rw [if_pos rfl]
      exact .inr List.mem_cons_self
    · rw [if_neg hab]
      exact (apply_eq_or_mem x a writes).imp_right (List.mem_cons_of_mem _)

theorem apply_of_not_mem : ∀ {writes : List (Nat × V)}, (∀ v, (a, v) ∉ writes) → x.apply writes a = x a
  | [], _ => rfl
  | (b, v) :: writes, h => by
    have hab : a ≠ b := by
      rintro rfl
      exact h v List.mem_cons_self
    rw [apply, Function.update_of_ne hab]
    exact apply_of_not_mem fun w hw => h w (List.mem_cons_of_mem _ hw)

theorem apply_mem : ∀ {writes : List (Nat × V)}, (a, v) ∈ writes → (a, x.apply writes a) ∈ writes
  | (b, w) :: writes, h => by
    rw [apply, Function.update_apply]
    by_cases hab : a = b
    · subst hab
      rw [if_pos rfl]
      exact List.mem_cons_self
    · rw [if_neg hab]
      have hmem : (a, v) ∈ writes := (List.mem_cons.1 h).resolve_left fun he => hab (Prod.mk.inj he).1
      exact List.mem_cons_of_mem _ (apply_mem hmem)

/-- Where there is a write the image before makes no difference. -/
theorem apply_congr_of_mem : ∀ {writes : List (Nat × V)}, (a, v) ∈ writes → x.apply writes a = x'.apply writes a
  | (b, w) :: writes, h => by
    rw [apply, apply, Function.update_apply, Function.update_apply]
    by_cases hab : a = b
    · rw [if_pos hab, if_pos hab]
    · rw [if_neg hab, if_neg hab]
      exact apply_congr_of_mem ((List.mem_cons.1 h).resolve_left fun he => hab (Prod.mk.inj he).1)

/-- Writes whose values are those of an image leave it at their addresses. -/
theorem apply_of_agrees {writes : List (Nat × V)} (hw : ∀ p ∈ writes, y p.1 = p.2)
    (hx : ∀ a, (∀ v, (a, v) ∉ writes) → y a = x a) : x.apply writes = y := by
  funext a
  by_cases h : ∃ v, (a, v) ∈ writes
  · obtain ⟨v, hv⟩ := h
    exact (hw _ (apply_mem hv)).symm
  · have h' : ∀ v, (a, v) ∉ writes := fun v hv => h ⟨v, hv⟩
    rw [apply_of_not_mem h', hx a h']

/-! ## What is in flight -/

namespace Mixed

theorem base (x : Image V) (writes : List (Nat × V)) : x.Mixed writes x := fun _ => .inl rfl

theorem all (x : Image V) (writes : List (Nat × V)) : x.Mixed writes (x.apply writes) := fun a =>
  apply_eq_or_mem x a writes

theorem mono (hm : x.Mixed writes y) (hs : writes ⊆ writes') : x.Mixed writes' y := fun a =>
  (hm a).imp_right fun h => hs h

end Mixed

theorem crashImage_nil : ¬ CrashImage x [] y := fun ⟨_, _, hs, _⟩ => by
  cases List.eq_nil_of_suffix_nil hs

theorem crashImage_cons : CrashImage x (writes :: gs) y ↔ (x.apply gs.flatten).Mixed writes y ∨ CrashImage x gs y := by
  constructor
  · rintro ⟨last, others, hs, hm⟩
    rcases List.suffix_cons_iff.1 hs with heq | hs'
    · cases heq
      exact .inl hm
    · exact .inr ⟨last, others, hs', hm⟩
  · rintro (hm | ⟨last, others, hs, hm⟩)
    · exact ⟨writes, gs, List.suffix_rfl, hm⟩
    · exact ⟨last, others, hs.trans (List.suffix_cons _ _), hm⟩

theorem crashImage_self (x : Image V) (newer : List (List (Nat × V))) (oldest : List (Nat × V)) :
    CrashImage x (newer ++ [oldest]) x := ⟨oldest, [], List.suffix_append _ _, Mixed.base x _⟩

/-- The value sets after some writes. -/
def flying (x : Image V) : List (Nat × V) → Nat → ValuSet V
  | [], a => (x a, [])
  | (b, v) :: writes, a => if a = b then (v, vsmerge (flying x writes a)) else flying x writes a

def flyingDisk (x : Image V) (writes : List (Nat × V)) : RawDisk V := fun a => some (flying x writes a)

theorem flying_fst (x : Image V) (a : Nat) : ∀ writes : List (Nat × V), (flying x writes a).1 = x.apply writes a
  | [] => rfl
  | (b, v) :: writes => by
    rw [flying, apply, Function.update_apply]
    split
    · rfl
    · exact flying_fst x a writes

theorem mem_flying (x : Image V) (a : Nat) (v : V) : ∀ writes : List (Nat × V),
    v ∈ vsmerge (flying x writes a) ↔ v = x a ∨ (a, v) ∈ writes
  | [] => by simp [flying, vsmerge]
  | (b, w) :: writes => by
    have ih := mem_flying x a v writes
    rw [flying]
    split
    case isTrue hab =>
      subst hab
      rw [vsmerge, List.mem_cons, ih, List.mem_cons, Prod.mk.injEq]
      tauto
    case isFalse hab =>
      rw [ih, List.mem_cons, Prod.mk.injEq]
      tauto

theorem flyingDisk_write (x : Image V) (writes : List (Nat × V)) (a : Nat) (v : V) :
    Function.update (flyingDisk x writes) a (some (v, vsmerge (flying x writes a))) =
      flyingDisk x ((a, v) :: writes) := by
  funext b
  rw [Function.update_apply, flyingDisk, flyingDisk, flying]
  split
  case isTrue hab => rw [hab]
  case isFalse hab => rfl

theorem flyingDisk_sync (x : Image V) (writes : List (Nat × V)) :
    syncMem (flyingDisk x writes) = (x.apply writes).disk := by
  funext a
  rw [syncMem, flyingDisk, disk, Option.map_some, flying_fst]

theorem Mixed.possibleCrash (hm : x.Mixed writes y) : PossibleCrash (flyingDisk x writes) y.disk :=
  fun a => .inr ⟨_, y a, rfl, rfl, (mem_flying x a (y a) writes).2 (hm a)⟩

/-- A disk after some writes, of which it may have dropped older values on its own. -/
def Holds (x : Image V) (writes : List (Nat × V)) (m : RawDisk V) : Prop :=
  ∀ a, ∃ l, m a = some (x.apply writes a, l) ∧ ∀ v ∈ x.apply writes a :: l, v = x a ∨ (a, v) ∈ writes

theorem holds_disk (x : Image V) : x.Holds [] x.disk := fun _ => ⟨[], rfl, fun _ hv => .inl (List.mem_singleton.1 hv)⟩

namespace Holds

variable {m m' : RawDisk V}

theorem write {vs : ValuSet V} (hm : x.Holds writes m) (ha : m a = some vs)
    (hs : PossibleSync (Function.update m a (some (v, vsmerge vs))) m') : x.Holds ((a, v) :: writes) m' := fun b => by
  obtain ⟨l, hl, hall⟩ := hm b
  rw [apply, Function.update_apply]
  rcases hs b with ⟨hn, _⟩ | ⟨w, k, k', hk, hk', hsub⟩
  · rw [Function.update_apply] at hn
    split at hn
    · cases hn
    · cases hl.symm.trans hn
  · rw [Function.update_apply] at hk
    split at hk
    case isTrue hab =>
      subst hab
      cases hk
      cases ha.symm.trans hl
      refine ⟨k', by rw [if_pos rfl, hk'], fun u hu => ?_⟩
      rcases List.mem_cons.1 hu with rfl | hu
      · rw [if_pos rfl]
        exact .inr List.mem_cons_self
      · exact (hall u (hsub hu)).imp_right (List.mem_cons_of_mem _)
    case isFalse hab =>
      cases hl.symm.trans hk
      rw [if_neg hab]
      exact ⟨k', hk', fun u hu => (hall u (List.cons_subset_cons _ hsub hu)).imp_right (List.mem_cons_of_mem _)⟩

theorem sync (hm : x.Holds writes m) (hs : PossibleSync (syncMem m) m') : (x.apply writes).Holds [] m' := fun a => by
  obtain ⟨l, hl, _⟩ := hm a
  rcases hs a with ⟨hn, _⟩ | ⟨w, k, k', hk, hk', hsub⟩
  · rw [syncMem, hl] at hn
    cases hn
  · rw [syncMem, hl] at hk
    cases hk
    cases List.subset_nil.1 hsub
    exact ⟨[], hk', fun _ hv => .inl (List.mem_singleton.1 hv)⟩

theorem crash (hm : x.Holds writes m) (hc : PossibleCrash m y.disk) : x.Mixed writes y := fun a => by
  obtain ⟨l, hl, hall⟩ := hm a
  rcases hc a with ⟨_, hn⟩ | ⟨vs, v', hvs, hy, hmem⟩
  · cases hn
  · cases hl.symm.trans hvs
    obtain rfl : y a = v' := (Prod.mk.inj (Option.some.inj hy)).1
    exact hall _ hmem

end Holds

/-! ## Runs -/

/-- The images that a crash can leave from here on, with some writes in flight. -/
def Leaves : Image V → List (Nat × V) → List (DiskOp V) → Image V → Prop
  | x, writes, [], y => x.Mixed writes y
  | x, writes, .write a v :: ops, y => Leaves x ((a, v) :: writes) ops y
  | x, writes, .sync :: ops, y => x.Mixed writes y ∨ Leaves (x.apply writes) [] ops y

theorem Mixed.leaves : ∀ {ops : List (DiskOp V)} {writes : List (Nat × V)}, x.Mixed writes y → Leaves x writes ops y
  | [], _, hm => hm
  | .write a v :: ops, writes, hm => by
    have hm' : x.Mixed ((a, v) :: writes) y := hm.mono (List.subset_cons_self _ _)
    exact hm'.leaves
  | .sync :: _, _, hm => .inl hm

/-- A run crashes or finishes with a disk that holds what is in flight. -/
theorem Holds.leaves : ∀ {ops : List (DiskOp V)} {x : Image V} {writes : List (Nat × V)} {m : RawDisk V}
    {seen : List Unit} {s : St V Unit}, x.Holds writes m →
    (Exec id ⟨m, seen⟩ (DiskOp.prog ops) (.crashed s) ∨ Exec id ⟨m, seen⟩ (DiskOp.prog ops) (.finished s ())) →
    PossibleCrash s.disk y.disk → Leaves x writes ops y
  | [], x, writes, m, seen, s, hm, he, hc => by
    rcases he with he | he
    · cases he
    · cases he
      exact hm.crash hc
  | .write a v :: ops, x, writes, m, seen, s, hm, he, hc => by
    rcases he with he | he
    · cases he with
      | write _ _ _ _ vs m' _ ha hs he => exact (hm.write ha hs).leaves (.inl he) hc
      | writeCrash => exact Mixed.leaves (hm.crash hc)
    · cases he with
      | write _ _ _ _ vs m' _ ha hs he => exact (hm.write ha hs).leaves (.inr he) hc
  | .sync :: ops, x, writes, m, seen, s, hm, he, hc => by
    rcases he with he | he
    · cases he with
      | sync _ _ m' _ hs he => exact .inr ((hm.sync hs).leaves (.inl he) hc)
      | syncCrash => exact .inl (hm.crash hc)
    · cases he with
      | sync _ _ m' _ hs he => exact .inr ((hm.sync hs).leaves (.inr he) hc)

theorem Leaves.exec : ∀ {ops : List (DiskOp V)} {x : Image V} {writes : List (Nat × V)}, Leaves x writes ops y →
    ∃ s : St V Unit, (Exec id ⟨flyingDisk x writes, []⟩ (DiskOp.prog ops) (.crashed s) ∨
      Exec id ⟨flyingDisk x writes, []⟩ (DiskOp.prog ops) (.finished s ())) ∧ PossibleCrash s.disk y.disk
  | [], x, writes, hl => ⟨_, .inr (.ret _ _), Mixed.possibleCrash hl⟩
  | .write a v :: ops, x, writes, hl => by
    have hl' : Leaves x ((a, v) :: writes) ops y := hl
    obtain ⟨s, he, hc⟩ := hl'.exec
    have hs := PossibleSync.refl (flyingDisk x ((a, v) :: writes))
    rw [← flyingDisk_write] at he hs
    exact ⟨s, he.imp (.write _ _ _ _ _ _ _ rfl hs) (.write _ _ _ _ _ _ _ rfl hs), hc⟩
  | .sync :: ops, x, writes, hl => by
    rcases hl with hm | hl
    · exact ⟨_, .inl (.syncCrash _ _), hm.possibleCrash⟩
    · obtain ⟨s, he, hc⟩ := Leaves.exec hl
      have hs : PossibleSync (syncMem (flyingDisk x writes)) (flyingDisk (x.apply writes) []) := by
        rw [flyingDisk_sync]
        exact PossibleSync.refl _
      exact ⟨s, he.imp (.sync _ _ _ _ hs) (.sync _ _ _ _ hs), hc⟩

theorem crashImage_record : ∀ (ops : List (DiskOp V)) (writes : List (Nat × V)) (gs : List (List (Nat × V))),
    CrashImage x (ops.foldl DiskOp.record (writes :: gs)) y ↔
      CrashImage x gs y ∨ Leaves (x.apply gs.flatten) writes ops y
  | [], _, _ => crashImage_cons.trans or_comm
  | .write a v :: ops, writes, gs => crashImage_record ops ((a, v) :: writes) gs
  | .sync :: ops, writes, gs => by
    rw [List.foldl_cons, DiskOp.record, crashImage_record, crashImage_cons, Leaves, List.flatten_cons, apply_append]
    tauto

/-- What the asynchronous disk can hold after a crash: at some sync the groups before it, and of the writes after it at
every address none or any one. -/
theorem afterCrash_iff : x.AfterCrash ops y ↔ CrashImage x (DiskOp.groups ops) y := by
  rw [DiskOp.groups, crashImage_record, or_iff_right crashImage_nil, List.flatten_nil, apply]
  exact ⟨fun ⟨s, he, hc⟩ => (holds_disk x).leaves he hc, fun hl => hl.exec⟩

/-! ## Two initial images -/

/-- Two images agree, or the oldest writes have the values of both. -/
def Alike (x x' : Image V) (oldest : List (Nat × V)) : Prop := ∀ a, x a = x' a ∨ (a, x a) ∈ oldest ∧ (a, x' a) ∈ oldest

theorem Alike.mixed (ha : x.Alike x' writes) : x.Mixed writes y ↔ x'.Mixed writes y := by
  refine forall_congr' fun a => ?_
  rcases ha a with he | ⟨hx, hx'⟩
  · rw [he]
  · refine ⟨fun h => .inr ?_, fun h => .inr ?_⟩
    · rcases h with h | h
      · rwa [h]
      · exact h
    · rcases h with h | h
      · rwa [h]
      · exact h

theorem suffix_concat_cases {last oldest : List (Nat × V)} {others newer : List (List (Nat × V))}
    (hs : (last :: others) <:+ newer ++ [oldest]) : others = [] ∧ last = oldest ∨ oldest ∈ others := by
  have hlast : (last :: others).getLast? = some oldest := by
    rw [List.getLast?_eq_some_getLast (List.cons_ne_nil _ _), hs.getLast, List.getLast_concat]
  cases others with
  | nil => exact .inl ⟨rfl, Option.some.inj hlast⟩
  | cons g others =>
    rw [List.getLast?_cons_cons] at hlast
    exact .inr (List.mem_of_getLast? hlast)

/-- After the groups before a sync two images that are alike are alike for the writes after it. -/
theorem Alike.apply {last oldest : List (Nat × V)} {others newer : List (List (Nat × V))} (ha : x.Alike x' oldest)
    (hs : (last :: others) <:+ newer ++ [oldest]) : (x.apply others.flatten).Alike (x'.apply others.flatten) last := by
  rcases suffix_concat_cases hs with ⟨rfl, rfl⟩ | hmem
  · exact ha
  · refine fun a => .inl ?_
    rcases ha a with he | ⟨hx, _⟩
    · exact apply_congr he _
    · exact apply_congr_of_mem (List.mem_flatten.2 ⟨oldest, hmem, hx⟩)

theorem Alike.crashImage {oldest : List (Nat × V)} (ha : x.Alike x' oldest) (newer : List (List (Nat × V))) :
    CrashImage x (newer ++ [oldest]) y ↔ CrashImage x' (newer ++ [oldest]) y :=
  exists_congr fun _ => exists_congr fun _ => and_congr_right fun hs => (ha.apply hs).mixed

/-- Alike is exactly what it takes for the same images at every single sync. -/
theorem alike_iff {oldest : List (Nat × V)} (newer : List (List (Nat × V))) : x.Alike x' oldest ↔
    ∀ last others, (last :: others) <:+ newer ++ [oldest] → ∀ y,
      (x.apply others.flatten).Mixed last y ↔ (x'.apply others.flatten).Mixed last y := by
  refine ⟨fun ha last others hs y => (ha.apply hs).mixed, fun hall a => ?_⟩
  have hall' := hall oldest [] (List.suffix_append _ _)
  rcases (hall' x).1 (Mixed.base x _) a with he | hx
  · exact .inl he
  · exact ((hall' x').2 (Mixed.base x' _) a).imp Eq.symm fun hx' => ⟨hx, hx'⟩

/-- An image that is a crash image of another one has values of the run wherever the other one has. -/
theorem CrashImage.mem (hc : CrashImage x gs y) (hx : (a, x a) ∈ gs.flatten) : (a, y a) ∈ gs.flatten := by
  obtain ⟨last, others, hs, hm⟩ := hc
  have hsub : (last :: others).flatten ⊆ gs.flatten := (List.Sublist.flatten hs.sublist).subset
  rw [List.flatten_cons] at hsub
  rcases hm a with he | hmem
  · rw [he]
    rcases apply_eq_or_mem x a others.flatten with hb | hb
    · rwa [hb]
    · exact hsub (List.mem_append_right _ hb)
  · exact hsub (List.mem_append_left _ hmem)

end Image

end CrashLogic
