import Fscq.Dir.DirSpec

/-!
# Runs of a directory

A directory file is used by `link`, `unlink`, `lookup` and `readdir` in any order, and `link` gets any hint. What the
directory holds is a function of the history of calls and replies (`current`): the entry that was last linked under a name
and not unlinked since. In every run the entries on disk are this map, so every reply is the one of the map
(`directory_run`). A `link` that fails may take blocks from the allocator for good; these are in no file, and the run goes on.
-/

namespace Fscq

open TxnLogic

namespace DIR

open BFILE (Memstate MsRep GrowFail)

inductive Call
  | link (name : Filename) (inum : Nat) (isdir : Bool) (ix0 : Nat)
  | unlink (name : Filename)
  | lookup (name : Filename)
  | readdir

inductive Reply
  | done (ix : Nat) (r : Except Errno Unit)
  | found (r : Option (Nat × Bool))
  | listed (l : List (Filename × (Nat × Bool)))

def call (xp : FsXparams) (dnum : Nat) (ms : Memstate) : Call → TBody (Memstate × Reply)
  | .link name inum isdir ix0 => do
    let (ms, ix, r) ← link xp dnum name inum isdir ix0 ms
    pure (ms, .done ix r)
  | .unlink name => do
    let (ms, ix, r) ← unlink xp dnum name ms
    pure (ms, .done ix r)
  | .lookup name => do
    let (ms, r) ← lookup xp dnum name ms
    pure (ms, .found r)
  | .readdir => do
    let (ms, l) ← readdir xp dnum ms
    pure (ms, .listed l)

/-! ## Histories -/

/-- What a call did to the entry of a name. -/
def update (m : Filename → Option (Nat × Bool)) : Call → Reply → Filename → Option (Nat × Bool)
  | .link name inum isdir _, .done _ (.ok _) => Function.update m name (some (inum, isdir))
  | .unlink name, .done _ (.ok _) => Function.update m name none
  | _, _ => m

/-- The entry last linked under a name and not unlinked since; the last call comes first. -/
def current : List (Call × Reply) → Filename → Option (Nat × Bool)
  | [] => fun _ => none
  | (c, r) :: hist => update (current hist) c r

/-- `link` is for a name that is not there, with an inode number. -/
def Legal (m : Filename → Option (Nat × Bool)) : Call → Prop
  | .link name inum _ _ => m name = none ∧ inum ≠ 0 ∧ inum < 2 ^ 64
  | _ => True

/-- Runs from the memory state `ms₀` and the disk `d₀`. -/
inductive Run (xp : FsXparams) (dnum : Nat) (ms₀ : Memstate) (d₀ : LDisk) : List (Call × Reply) → Memstate → LDisk → Prop
  | start : Run xp dnum ms₀ d₀ [] ms₀ d₀
  | step {hist : List (Call × Reply)} {ms : Memstate} {d : LDisk} (c : Call) (h : Run xp dnum ms₀ d₀ hist ms d)
      (hc : Legal (current hist) c) : Run xp dnum ms₀ d₀ ((c, ((call xp dnum ms c).run d).1.2) :: hist)
        ((call xp dnum ms c).run d).1.1 ((call xp dnum ms c).run d).2

/-- The reply that the map `m` gives. The disk after the call says why a `link` failed. -/
def Answers (xp : FsXparams) (dnum : Nat) (al : Bool) (m : Filename → Option (Nat × Bool)) (d d' : LDisk) :
    Call → Reply → Prop
  | .link _ _ _ _, .done _ r => ∀ e, r = .error e → (∀ de ∈ dents xp d dnum, isValid de = true) ∧
      (BlockPtr.nBlocks ≤ (file xp d dnum).data.length ∨ freeOf xp d' al = []) ∧ dents xp d' dnum = dents xp d dnum
  | .unlink name, .done _ r => r = .ok () ↔ m name ≠ none
  | .lookup name, .found r => r = m name
  | .readdir, .listed l => (l.map Prod.fst).Nodup ∧ ∀ name v, (name, v) ∈ l ↔ m name = some v
  | _, _ => False

/-- The entries on disk are the map. -/
structure Holds (xp : FsXparams) (dnum : Nat) (m : Filename → Option (Nat × Bool)) (d : LDisk) : Prop where
  ok : EntriesOk (entries (dents xp d dnum))
  map : ∀ name, (entries (dents xp d dnum)).lookup name = m name

/-- No two places in use have one name. -/
theorem EntriesOk.slots {des : List Dent} (h : EntriesOk (entries des)) {i j : Nat} {de de' : Dent} (hi : des[i]? = some de)
    (hj : des[j]? = some de') (hv : isValid de = true) (hv' : isValid de' = true) (hname : deName de = deName de') : i = j := by
  have hnd : ((des.filter isValid).map deName).Nodup := by
    have := h.nodup
    rw [entries, List.map_map] at this
    exact this
  clear h
  induction des generalizing i j with
  | nil => simp at hi
  | cons x des ih =>
    have hin : ∀ {k : Nat} {y : Dent}, des[k]? = some y → isValid y = true → deName y ∈ (des.filter isValid).map deName :=
      fun hk hy => List.mem_map_of_mem (List.mem_filter.mpr ⟨List.mem_of_getElem? hk, hy⟩)
    have hrest : ((des.filter isValid).map deName).Nodup := by
      refine List.Nodup.sublist ?_ hnd
      exact ((List.sublist_cons_self x des).filter _).map _
    cases i with
    | zero =>
      cases j with
      | zero => rfl
      | succ j =>
        cases hi
        rw [List.filter_cons_of_pos hv, List.map_cons, List.nodup_cons] at hnd
        exact absurd (hname ▸ hin hj hv') hnd.1
    | succ i =>
      cases j with
      | zero =>
        cases hj
        rw [List.filter_cons_of_pos hv', List.map_cons, List.nodup_cons] at hnd
        exact absurd (hname ▸ hin hi hv) hnd.1
      | succ j => exact congrArg (· + 1) (ih hi hj hrest)

/-! ## One call -/

section Step

variable {xp : FsXparams} {n dnum : Nat} {d d' : LDisk} {ms ms' : Memstate} {m : Filename → Option (Nat × Bool)}

/-- The state between two calls. -/
structure Inv (xp : FsXparams) (dnum : Nat) (m : Filename → Option (Nat × Bool)) (ms : Memstate) (d : LDisk) : Prop
    extends Holds xp dnum m d where
  brep : ∃ extra, BRep xp d extra
  msrep : MsRep xp d ms

theorem Inv.read (h : Inv xp dnum m ms d) (hread : FileRecArray.ReadDone xp ms d ms' d') : Inv xp dnum m ms' d' := by
  obtain ⟨rfl, _, hm⟩ := hread
  exact ⟨h.toHolds, h.brep, hm⟩

theorem lookup_cons' {A B : Type} [DecidableEq A] (k : A) (v : B) (l : List (A × B)) (a : A) :
    ((k, v) :: l).lookup a = Function.update (fun a => l.lookup a) k (some v) a := by
  by_cases ha : a = k
  · subst ha
    simp
  · rw [Function.update_of_ne ha, List.lookup_cons, beq_false_of_ne ha]

theorem Inv.linked (h : Inv xp dnum m ms d) (hw : Rewrites xp dnum ms d ms' d') {name : Filename} {v : Nat × Bool}
    (h0 : v.1 ≠ 0) (hno : m name = none) (hp : (entries (dents xp d' dnum)).Perm ((name, v) :: entries (dents xp d dnum))) :
    Inv xp dnum (Function.update m name (some v)) ms' d' := by
  obtain ⟨extra, hb⟩ := h.brep
  have hok := h.ok.link h0 ((h.map name).trans hno) hp
  refine ⟨⟨hok, fun a => ?_⟩, ⟨extra, hw.done.brep hb⟩, hw.done.msrep⟩
  rw [lookup_perm hok.nodup hp, lookup_cons', funext h.map]

theorem Inv.unlinked (h : Inv xp dnum m ms d) (hw : Rewrites xp dnum ms d ms' d') {name : Filename} {v : Nat × Bool}
    (hp : (entries (dents xp d dnum)).Perm ((name, v) :: entries (dents xp d' dnum))) :
    Inv xp dnum (Function.update m name none) ms' d' := by
  obtain ⟨extra, hb⟩ := h.brep
  have hok := h.ok.unlink hp
  refine ⟨⟨hok, fun a => ?_⟩, ⟨extra, hw.done.brep hb⟩, hw.done.msrep⟩
  have hmap := h.map a
  rw [lookup_perm h.ok.nodup hp, lookup_cons'] at hmap
  by_cases ha : a = name
  · subst ha
    have hnd := (hp.map Prod.fst).nodup_iff.mp h.ok.nodup
    rw [Function.update_self]
    exact lookup_eq_none_iff_not_mem.mpr (List.nodup_cons.mp hnd).1
  · rw [Function.update_of_ne ha] at hmap ⊢
    exact hmap

/-- A directory that could not grow is as before. -/
theorem Inv.failed (h : Inv xp dnum m ms d) (hxp : xp.Ok n) (hi : dnum < xp.nInodes) (hf : GrowFail xp dnum ms d ms' d') :
    Inv xp dnum m ms' d' ∧ dents xp d' dnum = dents xp d dnum := by
  obtain ⟨extra, hb⟩ := h.brep
  have hdents : dents xp d' dnum = dents xp d dnum := by rw [dents, dents, hf.file_eq hxp hb hi]
  obtain ⟨lost, hb'⟩ := hf.brep hxp hb hi
  exact ⟨⟨⟨hdents ▸ h.ok, fun a => hdents ▸ h.map a⟩, ⟨_, hb'⟩, hf.msrep⟩, hdents⟩

/-- A call gives the reply of the map and keeps the invariant. -/
theorem call_spec (hxp : xp.Ok n) (hi : dnum < xp.nInodes) (h : Inv xp dnum m ms d) {c : Call} (hc : Legal m c) :
    twp n (call xp dnum ms c)
      (fun r d' => Inv xp dnum (update m c r.2) r.1 d' ∧ Answers xp dnum ms.msAlloc m d d' c r.2) d := by
  obtain ⟨extra, hb⟩ := h.brep
  cases c with
  | link name inum isdir ix0 =>
    obtain ⟨hno, h0, hlt⟩ := hc
    refine twp_seq (link_spec hxp hb h.msrep hi hlt name isdir ix0) fun ⟨ms₁, ix, r⟩ d₁ hlink => ?_
    cases r with
    | ok _ =>
      obtain ⟨hw, hp⟩ := hlink.ok rfl
      exact ⟨h.linked hw h0 hno hp, fun e he => (nomatch he)⟩
    | error e =>
      obtain ⟨hf, hfull⟩ := hlink.error e rfl
      obtain ⟨hinv, hdents⟩ := h.failed hxp hi hf
      exact ⟨hinv, fun _ _ => ⟨hfull, hf.why.imp And.left id, hdents⟩⟩
  | unlink name =>
    refine twp_seq (unlink_spec hxp hb h.msrep hi h.ok name) fun ⟨ms₁, ix, r⟩ d₁ ⟨hnone, hsome⟩ => ?_
    rw [h.map] at hnone hsome
    cases hm : m name with
    | none =>
      obtain ⟨hr, hread⟩ := hnone hm
      simp only at hr
      subst hr
      exact ⟨h.read hread, by simp [Answers, hm]⟩
    | some v =>
      obtain ⟨hr, hw, hp⟩ := hsome v hm
      simp only at hr
      subst hr
      exact ⟨h.unlinked hw hp, by simp [Answers, hm]⟩
  | lookup name =>
    refine twp_seq (lookup_spec hxp hb h.msrep hi h.ok name) fun ⟨ms₁, r⟩ d₁ ⟨hread, hr⟩ => ?_
    exact ⟨h.read hread, hr.trans (h.map name)⟩
  | readdir =>
    refine twp_seq (readdir_spec hxp hb h.msrep hi) fun ⟨ms₁, l⟩ d₁ ⟨hread, hl⟩ => ⟨h.read hread, ?_⟩
    simp only at hl
    subst hl
    refine ⟨h.ok.nodup, fun name v => ?_⟩
    rw [← h.map, lookup_eq_some_iff_mem h.ok.nodup]

end Step

/-! ## Runs -/

variable {xp : FsXparams} {n dnum : Nat} {d₀ d : LDisk} {ms₀ ms : Memstate} {hist : List (Call × Reply)}

theorem Inv.start (hb : BRep xp d₀ []) (hm : MsRep xp d₀ ms₀) (hempty : (file xp d₀ dnum).data = []) :
    Inv xp dnum (current []) ms₀ d₀ := by
  have hnil : dents xp d₀ dnum = [] := by rw [dents, hempty]; rfl
  refine ⟨⟨?_, fun name => ?_⟩, ⟨[], hb⟩, hm⟩
  · rw [hnil]
    exact ⟨fun _ he => absurd he List.not_mem_nil, .nil⟩
  · rw [hnil]
    rfl

theorem Run.inv (hxp : xp.Ok n) (hi : dnum < xp.nInodes) (hinv : Inv xp dnum (current []) ms₀ d₀)
    (h : Run xp dnum ms₀ d₀ hist ms d) : Inv xp dnum (current hist) ms d := by
  induction h with
  | start => exact hinv
  | step c _ hc ih => exact (twp_run (call_spec hxp hi ih hc)).1

/-- The directory is the map of its history: the entries on disk are what was linked and not unlinked, each name is at one
place, and the next call gives the reply of this map. -/
structure IsMap (xp : FsXparams) (n dnum : Nat) (hist : List (Call × Reply)) (ms : Memstate) (d : LDisk) : Prop where
  map : ∀ name, (entries (dents xp d dnum)).lookup name = current hist name
  slots : ∀ (i j : Nat) (de de' : Dent), (dents xp d dnum)[i]? = some de → (dents xp d dnum)[j]? = some de' →
    isValid de = true → isValid de' = true → deName de = deName de' → i = j
  replies : ∀ c, Legal (current hist) c → twp n (call xp dnum ms c)
    (fun r d' => Answers xp dnum ms.msAlloc (current hist) d d' c r.2) d

/-- Every run on a directory that starts empty, with any hints. -/
theorem directory_run (hxp : xp.Ok n) (hb : BRep xp d₀ []) (hm : MsRep xp d₀ ms₀) (hi : dnum < xp.nInodes)
    (hempty : (file xp d₀ dnum).data = []) (h : Run xp dnum ms₀ d₀ hist ms d) : IsMap xp n dnum hist ms d := by
  have hinv := h.inv hxp hi (.start hb hm hempty)
  refine ⟨hinv.map, fun i j de de' hi hj hv hv' hname => hinv.ok.slots hi hj hv hv' hname, fun c hc => ?_⟩
  exact twp_mono (fun _ _ h => h.2) _ (call_spec hxp hi hinv hc)

open BFILE (smallXp formatted formatted_done)

/-- A name is linked with a hint outside of the empty directory, and unlinked. -/
theorem directory_run_small : ∃ hist ms d, hist.length = 2 ∧ Run smallXp 1 formatted.1 formatted.2 hist ms d ∧
    IsMap smallXp 33795 1 hist ms d := by
  have hempty : (file smallXp formatted.2 1).data = [] := by
    rw [file, formatted_done.table.blks_eq (by decide)]
    rfl
  have hrun : Run smallXp 1 formatted.1 formatted.2 _ _ _ :=
    .step (.unlink 7) (.step (.link 7 5 true 100) .start ⟨rfl, by decide, by decide⟩) trivial
  exact ⟨_, _, _, rfl, hrun,
    directory_run BFILE.smallXp_ok formatted_done.brep formatted_done.msrep (by decide) hempty hrun⟩

end DIR

end Fscq
