import Fscq.Dir.Dir

/-!
# What the directory programs do

`entries` are the entries in use with their names as words, and `dirents` with their names as strings; `EntriesOk` and
`DirOk` say that the names are different (and valid) and the inode numbers not zero. `DIR.lookup` and `DIR.readdir` return
what these lists say, `link` adds an entry whatever the hint is, and `unlink` removes one. A directory that cannot grow is
as before.
-/

namespace Fscq

open TxnLogic

/-! ## Association lists -/

section Assoc

variable {A B : Type} [BEq A] [LawfulBEq A]

theorem lookup_eq_some_iff_mem {l : List (A × B)} (hnd : (l.map Prod.fst).Nodup) {k : A} {v : B} :
    l.lookup k = some v ↔ (k, v) ∈ l := by
  induction l with
  | nil => simp
  | cons p l ih =>
    obtain ⟨k', v'⟩ := p
    rw [List.map_cons, List.nodup_cons] at hnd
    rw [List.lookup_cons, List.mem_cons, Prod.mk.injEq]
    by_cases hk : k = k'
    · subst hk
      simp only [beq_self_eq_true, Option.some.injEq]
      refine ⟨fun h => .inl ⟨trivial, h.symm⟩, ?_⟩
      rintro (⟨_, rfl⟩ | hmem)
      · rfl
      · exact absurd (List.mem_map_of_mem (f := Prod.fst) hmem) hnd.1
    · have hbeq : (k == k') = false := by simpa using hk
      simp only [hbeq]
      rw [ih hnd.2]
      exact ⟨.inr, fun h => h.resolve_left fun h => hk h.1⟩

theorem lookup_eq_none_iff_not_mem {l : List (A × B)} {k : A} : l.lookup k = none ↔ k ∉ l.map Prod.fst := by
  induction l with
  | nil => simp
  | cons p l ih =>
    obtain ⟨k', v'⟩ := p
    rw [List.lookup_cons, List.map_cons, List.mem_cons]
    by_cases hk : k = k'
    · simp [hk]
    · have hbeq : (k == k') = false := by simpa using hk
      simp only [hbeq]
      rw [ih]
      exact ⟨fun h hmem => h (hmem.resolve_left hk), fun h hmem => h (.inr hmem)⟩

/-- The order does not matter for a list without two entries of one key. -/
theorem lookup_perm {l l' : List (A × B)} (hnd : (l.map Prod.fst).Nodup) (hp : l.Perm l') (k : A) :
    l.lookup k = l'.lookup k := by
  have hnd' := (hp.map Prod.fst).nodup_iff.mp hnd
  refine Option.ext fun v => ?_
  rw [lookup_eq_some_iff_mem hnd, lookup_eq_some_iff_mem hnd', hp.mem_iff]

end Assoc

/-! ## Finding -/

theorem ifindList_some {A : Type} {cond : A → Nat → Bool} {l : List A} {k ix : Nat} {x : A}
    (h : ifindList cond l k = some (ix, x)) : ∃ j, ix = k + j ∧ l[j]? = some x ∧ cond x ix = true := by
  obtain ⟨j, hix, hj, hc, _⟩ := ifindList_eq_some_iff.1 h
  exact ⟨j, hix, hj, hc⟩

theorem ifindList_none {A : Type} {p : A → Bool} {l : List A} {k : Nat}
    (h : ifindList (fun x _ => p x) l k = none) : ∀ x ∈ l, p x = false := by
  intro x hx
  obtain ⟨i, hi⟩ := List.getElem?_of_mem hx
  exact ifindList_eq_none_iff.1 h i x hi

namespace DIR

open SDIR (isValidSname sname2wname wname2sname)

/-! ## Entries -/

theorem wellFormed_mkDent (name : Filename) (inum : Nat) (isdir : Bool) :
    Rec.WellFormed dentType (mkDent name inum isdir) :=
  ⟨trivial, trivial, trivial, trivial, trivial, trivial⟩

theorem dent0_eq : dent0 = (0, 0, 0, 0, 0, ()) := by
  refine (Rec.wordToRec_zero _ _ _).trans (Prod.ext rfl ?_)
  refine (Rec.wordToRec_zero _ _ _).trans (Prod.ext rfl ?_)
  refine (Rec.wordToRec_zero _ _ _).trans (Prod.ext rfl ?_)
  refine (Rec.wordToRec_zero _ _ _).trans (Prod.ext rfl ?_)
  exact Rec.wordToRec_zero _ _ _

theorem isValid_dent0 : isValid dent0 = false := by
  rw [dent0_eq]
  rfl

@[simp] theorem isValid_mkDent (name : Filename) (inum : Nat) (isdir : Bool) : isValid (mkDent name inum isdir) = true :=
  rfl

@[simp] theorem isDir_mkDent (name : Filename) (inum : Nat) (isdir : Bool) : isDir (mkDent name inum isdir) = isdir := by
  cases isdir <;> rfl

theorem deInum_mkDent (name : Filename) {inum : Nat} (isdir : Bool) (h : inum < 2 ^ 64) :
    deInum (mkDent name inum isdir) = inum := by
  simp only [deInum, mkDent]
  exact toNat_ofNat_of_lt h

/-- What an entry says. -/
def went (de : Dent) : Filename × (Nat × Bool) := (deName de, (deInum de, isDir de))

/-- The entries in use. -/
def entries (des : List Dent) : List (Filename × (Nat × Bool)) := (des.filter isValid).map went

theorem entries_append (des des' : List Dent) : entries (des ++ des') = entries des ++ entries des' := by
  simp [entries]

theorem mem_entries {des : List Dent} {e : Filename × (Nat × Bool)} :
    e ∈ entries des ↔ ∃ de ∈ des, isValid de = true ∧ went de = e := by
  simp [entries, and_assoc]

theorem entries_cons (de : Dent) (des : List Dent) :
    entries (de :: des) = if isValid de = true then went de :: entries des else entries des := by
  by_cases h : isValid de = true <;> simp [entries, h]

/-- An entry is taken into use. -/
theorem entries_set_valid {des : List Dent} {ix : Nat} {old new : Dent} (hold : des[ix]? = some old)
    (hov : isValid old = false) (hnv : isValid new = true) : (entries (des.set ix new)).Perm (went new :: entries des) := by
  obtain ⟨hlt, rfl⟩ := List.getElem?_eq_some_iff.mp hold
  have hdes : des = des.take ix ++ des[ix] :: des.drop (ix + 1) := by
    rw [List.getElem_cons_drop, List.take_append_drop]
  have hset : des.set ix new = des.take ix ++ new :: des.drop (ix + 1) := List.set_eq_take_append_cons_drop.trans (if_pos hlt)
  have hold' : entries des = entries (des.take ix) ++ entries (des.drop (ix + 1)) := by
    conv_lhs => rw [hdes]
    rw [entries_append, entries_cons, hov, if_neg Bool.false_ne_true]
  rw [hset, entries_append, entries_cons, if_pos hnv, hold']
  exact List.perm_middle

/-- An entry is cleared. -/
theorem entries_set_invalid {des : List Dent} {ix : Nat} {old new : Dent} (hold : des[ix]? = some old)
    (hov : isValid old = true) (hnv : isValid new = false) : (entries des).Perm (went old :: entries (des.set ix new)) := by
  have hlt := (List.getElem?_eq_some_iff.mp hold).1
  have hnew : (des.set ix new)[ix]? = some new := by rw [List.getElem?_set, if_pos rfl, if_pos hlt]
  have hback : (des.set ix new).set ix old = des := by
    rw [List.set_set]
    obtain ⟨_, rfl⟩ := List.getElem?_eq_some_iff.mp hold
    exact List.set_getElem_self hlt
  have h := entries_set_valid hnew hnv hov
  rwa [hback] at h

theorem entries_extend {des : List Dent} {new : Dent} (hnv : isValid new = true) {k : Nat} (hk : 0 < k) :
    entries (des ++ (List.replicate k dent0).set 0 new) = entries des ++ [went new] := by
  obtain ⟨k, rfl⟩ := Nat.exists_eq_succ_of_ne_zero (Nat.ne_of_gt hk)
  have hrest : entries (List.replicate k dent0) = [] := by
    simp [entries, isValid_dent0]
  rw [entries_append, List.replicate_succ, List.set_cons_zero, entries_cons, if_pos hnv, hrest]

theorem went_mkDent (name : Filename) {inum : Nat} (isdir : Bool) (h : inum < 2 ^ 64) :
    went (mkDent name inum isdir) = (name, (inum, isdir)) := by
  simp only [went, isDir_mkDent, deInum_mkDent _ _ h]
  rfl

/-! ### The entries as a map -/

structure EntriesOk (l : List (Filename × (Nat × Bool))) : Prop where
  inum : ∀ e ∈ l, e.2.1 ≠ 0
  nodup : (l.map Prod.fst).Nodup

theorem EntriesOk.link {l l' : List (Filename × (Nat × Bool))} {e : Filename × (Nat × Bool)} (h : EntriesOk l)
    (h0 : e.2.1 ≠ 0) (hno : l.lookup e.1 = none) (hp : l'.Perm (e :: l)) : EntriesOk l' := by
  refine ⟨fun e' he' => ?_, ?_⟩
  · rcases List.mem_cons.mp (hp.mem_iff.mp he') with rfl | he'
    · exact h0
    · exact h.inum e' he'
  · rw [(hp.map Prod.fst).nodup_iff, List.map_cons, List.nodup_cons]
    exact ⟨lookup_eq_none_iff_not_mem.mp hno, h.nodup⟩

theorem EntriesOk.unlink {l l' : List (Filename × (Nat × Bool))} {e : Filename × (Nat × Bool)} (h : EntriesOk l)
    (hp : l.Perm (e :: l')) : EntriesOk l' := by
  refine ⟨fun e' he' => h.inum e' (hp.mem_iff.mpr (List.mem_cons_of_mem _ he')), ?_⟩
  have hnd := (hp.map Prod.fst).nodup_iff.mp h.nodup
  exact (List.nodup_cons.mp hnd).2

/-- The first entry that `lookup` finds is the one of the map. -/
theorem EntriesOk.ifindList_lookupF {des : List Dent} (hok : EntriesOk (entries des)) (name : Filename) :
    (ifindList (lookupF name) des 0).map (fun r => (deInum r.2, isDir r.2)) = (entries des).lookup name := by
  cases hr : ifindList (lookupF name) des 0 with
  | none =>
    have hnone := ifindList_none hr
    refine (lookup_eq_none_iff_not_mem.mpr fun hmem => ?_).symm
    obtain ⟨_, hv, rfl⟩ := List.mem_map.mp hmem
    obtain ⟨de, hde, hval, rfl⟩ := mem_entries.mp hv
    have := hnone de hde
    simp [hval, nameIs, went] at this
  | some r =>
    obtain ⟨ix, de⟩ := r
    obtain ⟨j, _, hj, hc⟩ := ifindList_some hr
    simp only [lookupF, nameIs, Bool.and_eq_true, Bool.if_false_right, Bool.and_true, decide_eq_true_eq] at hc
    have hent : went de = (name, (deInum de, isDir de)) := by rw [went, ← hc.2]
    exact ((lookup_eq_some_iff_mem hok.nodup).mpr (mem_entries.mpr ⟨de, List.mem_of_getElem? hj, hc.1, hent⟩)).symm

/-! ### Names as strings -/

/-- What an entry says, with the name as a string. -/
def ent (de : Dent) : Sname × (Nat × Bool) := (wname2sname (deName de), (deInum de, isDir de))

/-- The entries in use. -/
def dirents (des : List Dent) : List (Sname × (Nat × Bool)) := (des.filter isValid).map ent

theorem dirents_eq (des : List Dent) : dirents des = (entries des).map SDIR.readdirTrans := by
  rw [entries, List.map_map]
  rfl

structure DirOk (des : List Dent) : Prop where
  name : ∀ de ∈ des, isValid de = true → ∃ s, isValidSname s = true ∧ deName de = sname2wname s
  inum : ∀ de ∈ des, isValid de = true → deInum de ≠ 0
  nodup : ((dirents des).map Prod.fst).Nodup

/-- The directory as a map. -/
def dirMap (des : List Dent) (s : Sname) : Option (Nat × Bool) := (dirents des).lookup s

/-- All names are those of valid strings. -/
def NamesOk (l : List (Filename × (Nat × Bool))) : Prop := ∀ e ∈ l, ∃ s, isValidSname s = true ∧ e.1 = sname2wname s

theorem readdirTrans_valid {s : Sname} (hs : isValidSname s = true) (v : Nat × Bool) :
    SDIR.readdirTrans (sname2wname s, v) = (s, v) := by
  rw [SDIR.readdirTrans, SDIR.wname2sname_sname2wname hs]

theorem dirents_names_nodup {des : List Dent} (hn : NamesOk (entries des)) :
    ((dirents des).map Prod.fst).Nodup ↔ ((entries des).map Prod.fst).Nodup := by
  have hmap : (dirents des).map Prod.fst = ((entries des).map Prod.fst).map wname2sname := by
    rw [dirents_eq, List.map_map, List.map_map]
    rfl
  rw [hmap]
  refine ⟨fun h => h.of_map _, fun h => h.map_on fun x hx y hy hxy => ?_⟩
  obtain ⟨e, he, rfl⟩ := List.mem_map.mp hx
  obtain ⟨e', he', rfl⟩ := List.mem_map.mp hy
  obtain ⟨s, hs, hname⟩ := hn e he
  obtain ⟨s', hs', hname'⟩ := hn e' he'
  rw [hname, hname', SDIR.wname2sname_sname2wname hs, SDIR.wname2sname_sname2wname hs'] at hxy
  rw [hname, hname', hxy]

theorem dirOk_iff {des : List Dent} : DirOk des ↔ EntriesOk (entries des) ∧ NamesOk (entries des) := by
  constructor
  · intro h
    have hn : NamesOk (entries des) := fun e he => by
      obtain ⟨de, hde, hv, rfl⟩ := mem_entries.mp he
      exact h.name de hde hv
    refine ⟨⟨fun e he => ?_, (dirents_names_nodup hn).mp h.nodup⟩, hn⟩
    obtain ⟨de, hde, hv, rfl⟩ := mem_entries.mp he
    exact h.inum de hde hv
  · rintro ⟨h, hn⟩
    exact ⟨fun de hde hv => hn _ (mem_entries.mpr ⟨de, hde, hv, rfl⟩),
      fun de hde hv => h.inum _ (mem_entries.mpr ⟨de, hde, hv, rfl⟩), (dirents_names_nodup hn).mpr h.nodup⟩

namespace DirOk

variable {des des' : List Dent} (hok : DirOk des)
include hok

theorem entriesOk : EntriesOk (entries des) := (dirOk_iff.mp hok).1

theorem dirMap_of_invalid {s : Sname} (hs : ¬ isValidSname s = true) : dirMap des s = none := by
  refine lookup_eq_none_iff_not_mem.mpr fun hmem => hs ?_
  rw [dirents_eq] at hmem
  obtain ⟨_, hv, rfl⟩ := List.mem_map.mp hmem
  obtain ⟨e, he, rfl⟩ := List.mem_map.mp hv
  obtain ⟨s, hs', hname⟩ := (dirOk_iff.mp hok).2 e he
  rw [SDIR.readdirTrans, hname, SDIR.wname2sname_sname2wname hs']
  exact hs'

theorem dirMap_valid {s : Sname} (hs : isValidSname s = true) : dirMap des s = (entries des).lookup (sname2wname s) := by
  refine Option.ext fun v => ?_
  rw [dirMap, lookup_eq_some_iff_mem hok.nodup, lookup_eq_some_iff_mem hok.entriesOk.nodup, dirents_eq, List.mem_map]
  constructor
  · rintro ⟨e, he, heq⟩
    obtain ⟨s', hs', hname⟩ := (dirOk_iff.mp hok).2 e he
    obtain ⟨w, v'⟩ := e
    obtain rfl : w = sname2wname s' := hname
    rw [readdirTrans_valid hs'] at heq
    cases heq
    exact he
  · exact fun he => ⟨_, he, readdirTrans_valid hs v⟩

/-- A directory with one entry more. -/
theorem link {name : Sname} {v : Nat × Bool} (hs : isValidSname name = true) (h0 : v.1 ≠ 0) (hno : dirMap des name = none)
    (hp : (entries des').Perm ((sname2wname name, v) :: entries des)) :
    DirOk des' ∧ (dirents des').Perm ((name, v) :: dirents des) := by
  refine ⟨dirOk_iff.mpr ⟨hok.entriesOk.link h0 ((hok.dirMap_valid hs).symm.trans hno) hp, fun e he => ?_⟩, ?_⟩
  · rcases List.mem_cons.mp (hp.mem_iff.mp he) with rfl | he
    · exact ⟨name, hs, rfl⟩
    · exact (dirOk_iff.mp hok).2 e he
  · have h := hp.map SDIR.readdirTrans
    rwa [List.map_cons, readdirTrans_valid hs, ← dirents_eq, ← dirents_eq] at h

/-- A directory with one entry less. -/
theorem unlink {name : Sname} {v : Nat × Bool} (hs : isValidSname name = true)
    (hp : (entries des).Perm ((sname2wname name, v) :: entries des')) :
    DirOk des' ∧ (dirents des).Perm ((name, v) :: dirents des') := by
  refine ⟨dirOk_iff.mpr ⟨hok.entriesOk.unlink hp, fun e he => ?_⟩, ?_⟩
  · exact (dirOk_iff.mp hok).2 e (hp.mem_iff.mpr (List.mem_cons_of_mem _ he))
  · have h := hp.map SDIR.readdirTrans
    rwa [List.map_cons, readdirTrans_valid hs, ← dirents_eq, ← dirents_eq] at h

end DirOk

/-! ## The programs -/

open BFILE (Memstate MsRep FileDone GrowFail)
open FileRecArray (ReadDone items readDone_refl)

/-- The entries of a directory on disk. -/
def dents (xp : FsXparams) (d : LDisk) (i : Nat) : List Dent := items dentSig (file xp d i).data

/-- A program that writes the blocks of the directory `dnum`. -/
structure Rewrites (xp : FsXparams) (dnum : Nat) (ms : Memstate) (d : LDisk) (ms' : Memstate) (d' : LDisk) : Prop where
  done : FileDone xp dnum (file xp d' dnum) ms d ms' d'
  attr : (file xp d' dnum).attr = (file xp d dnum).attr

variable {xp : FsXparams} {n dnum : Nat} {d : LDisk} {ms : Memstate} {extra : List Nat}

theorem Rewrites.after {ms₁ ms' : Memstate} {d' : LDisk} (h : Rewrites xp dnum ms₁ d ms' d')
    (hread : ReadDone xp ms d ms₁ d) : Rewrites xp dnum ms d ms' d' := ⟨hread.fileDone.trans h.done, h.attr⟩

/-- The places in use stay. -/
def Keeps (des des' : List Dent) : Prop :=
  ∀ (ix : Nat) (de : Dent), des[ix]? = some de → isValid de = true → des'[ix]? = some de

theorem keeps_set {des : List Dent} {ix : Nat} {old : Dent} (hold : des[ix]? = some old) (hov : isValid old = false)
    (new : Dent) : Keeps des (des.set ix new) := by
  intro j de hj hv
  have hne : ix ≠ j := by
    rintro rfl
    rw [hold, Option.some_inj] at hj
    rw [hj, hv] at hov
    cases hov
  rwa [List.getElem?_set_ne hne]

theorem keeps_append (des des' : List Dent) : Keeps des (des ++ des') := by
  intro j de hj _
  rwa [List.getElem?_append_left (List.getElem?_eq_some_iff.mp hj).1]

/-- The directory has the entry, or no place is free and it cannot grow. -/
structure LinkDone (xp : FsXparams) (dnum : Nat) (e : Filename × (Nat × Bool)) (ms : Memstate) (d : LDisk)
    (r : Memstate × Nat × Except Errno Unit) (d' : LDisk) : Prop where
  ok : r.2.2 = .ok () → Rewrites xp dnum ms d r.1 d' ∧
    (entries (dents xp d' dnum)).Perm (e :: entries (dents xp d dnum))
  error : ∀ err, r.2.2 = .error err → GrowFail xp dnum ms d r.1 d' ∧ ∀ de ∈ dents xp d dnum, isValid de = true
  keeps : Keeps (dents xp d dnum) (dents xp d' dnum)

theorem LinkDone.after {e : Filename × (Nat × Bool)} {ms₁ : Memstate} {r : Memstate × Nat × Except Errno Unit} {d' : LDisk}
    (h : LinkDone xp dnum e ms₁ d r d') (hread : ReadDone xp ms d ms₁ d) : LinkDone xp dnum e ms d r d' :=
  ⟨fun hok => ⟨(h.ok hok).1.after hread, (h.ok hok).2⟩, fun err herr =>
    ⟨(h.error err herr).1.after hread.icache, (h.error err herr).2⟩, h.keeps⟩

section Specs

variable (hxp : xp.Ok n) (hb : BRep xp d extra) (hm : MsRep xp d ms) (hi : dnum < xp.nInodes)
include hxp hb hm hi

theorem ifindLookupF_spec (name : Filename) : twp n (ifindLookupF xp dnum name ms) (fun r d' => ReadDone xp ms d r.1 d' ∧
    r.2 = ifindList (lookupF name) (dents xp d dnum) 0) d :=
  FileRecArray.ifind_spec hxp hb hm hi _

theorem readdir_spec : twp n (readdir xp dnum ms) (fun r d' => ReadDone xp ms d r.1 d' ∧
    r.2 = entries (dents xp d dnum)) d := by
  refine twp_seq (FileRecArray.readall_spec (R := dentSig) hxp hb hm hi) fun ⟨ms', l⟩ d' ⟨hread, hl⟩ => ?_
  refine ⟨hread, ?_⟩
  obtain rfl : l = dents xp d dnum := hl
  rfl

/-- One entry is replaced. -/
theorem put_spec {ix : Nat} {x : Dent} (hix : ix < (dents xp d dnum).length) (hwf : Rec.WellFormed dentType x) :
    twp n (FileRecArray.put dentSig xp dnum ix x ms)
      (fun ms' d' => Rewrites xp dnum ms d ms' d' ∧ dents xp d' dnum = (dents xp d dnum).set ix x) d := by
  refine twp_mono (fun ms' d' ⟨data, hdata, hdone⟩ => ?_) _ (FileRecArray.put_spec (R := dentSig) hxp hb hm hi hix hwf)
  have hself := hdone.self
  refine ⟨⟨by rwa [hself], by rw [hself]⟩, ?_⟩
  rw [dents, hself]
  exact hdata

section Find

variable (hok : EntriesOk (entries (dents xp d dnum)))
include hok

theorem lookup_spec (name : Filename) : twp n (lookup xp dnum name ms)
    (fun r d' => ReadDone xp ms d r.1 d' ∧ r.2 = (entries (dents xp d dnum)).lookup name) d := by
  refine twp_seq (ifindLookupF_spec hxp hb hm hi _) fun ⟨ms', r⟩ d' ⟨hread, hr⟩ => ?_
  have hmap := hok.ifindList_lookupF name
  simp only at hr
  rw [← hr] at hmap
  rcases r with _ | ⟨ix, de⟩ <;> exact ⟨hread, hmap⟩

theorem unlink_spec (name : Filename) : twp n (unlink xp dnum name ms) (fun r d' =>
    ((entries (dents xp d dnum)).lookup name = none → r.2.2 = .error .ENOENT ∧ ReadDone xp ms d r.1 d') ∧
    ∀ v, (entries (dents xp d dnum)).lookup name = some v → r.2.2 = .ok () ∧ Rewrites xp dnum ms d r.1 d' ∧
      (entries (dents xp d dnum)).Perm ((name, v) :: entries (dents xp d' dnum))) d := by
  refine twp_seq (ifindLookupF_spec hxp hb hm hi _) fun ⟨ms₁, r⟩ d₁ ⟨hread, hr⟩ => ?_
  obtain rfl : r = _ := hr
  have hmap := hok.ifindList_lookupF name
  cases hf : ifindList (lookupF name) (dents xp d dnum) 0 with
  | none =>
    rw [hf] at hmap
    refine ⟨fun _ => ⟨rfl, hread⟩, fun v hv => ?_⟩
    rw [hv] at hmap
    cases hmap
  | some r =>
    obtain ⟨ix, de⟩ := r
    rw [hf] at hmap
    obtain ⟨j, hix, hj, hc⟩ := ifindList_some hf
    obtain rfl : ix = j := by omega
    simp only [lookupF, nameIs, Bool.and_eq_true, Bool.if_false_right, Bool.and_true, decide_eq_true_eq] at hc
    have hperm := entries_set_invalid hj hc.1 isValid_dent0
    obtain ⟨hd, hic, hm₁⟩ := hread
    subst hd
    have hwf0 : Rec.WellFormed dentType dent0 := dentSig.wellFormed_item0
    refine twp_seq (put_spec hxp hb hm₁ hi (List.getElem?_eq_some_iff.mp hj).1 hwf0) fun ms₂ d₂ ⟨hdone, hdents⟩ => ?_
    refine ⟨fun hnone => ?_, fun v hv => ⟨rfl, hdone.after ⟨rfl, hic, hm₁⟩, ?_⟩⟩
    · rw [hnone] at hmap
      cases hmap
    · rw [hv] at hmap
      have hent : went de = (name, v) := by
        rw [went, ← hc.2]
        exact congrArg _ (Option.some.inj hmap)
      rw [hdents, ← hent]
      exact hperm

end Find

section Link

variable {inum : Nat} (hlt : inum < 2 ^ 64) (name : Filename) (isdir : Bool)
include hlt

/-- The entry goes to a free place. -/
theorem putEntry_spec {ix : Nat} {old : Dent} (hold : (dents xp d dnum)[ix]? = some old) (hinv : isValid old = false) :
    twp n (FileRecArray.put dentSig xp dnum ix (mkDent name inum isdir) ms)
      (fun ms' d' => LinkDone xp dnum (name, (inum, isdir)) ms d (ms', ix + 1, .ok ()) d') d := by
  have hperm := entries_set_valid hold hinv (isValid_mkDent name inum isdir)
  rw [went_mkDent name isdir hlt] at hperm
  refine twp_mono (fun ms' d' ⟨hdone, hdents⟩ => ⟨fun _ => ⟨hdone, by rwa [hdents]⟩, fun _ h => (nomatch h), ?_⟩) _
    (put_spec hxp hb hm hi (List.getElem?_eq_some_iff.mp hold).1 (wellFormed_mkDent _ _ _))
  rw [hdents]
  exact keeps_set hold hinv _

theorem link'_spec : twp n (link' xp dnum name inum isdir ms) (LinkDone xp dnum (name, (inum, isdir)) ms d) d := by
  refine twp_seq (FileRecArray.ifind_spec hxp hb hm hi _) fun ⟨ms₁, r⟩ d₁ ⟨hread, hr⟩ => ?_
  obtain ⟨hd, hic, hm₁⟩ := hread
  subst hd
  have hread₁ : ReadDone xp ms d₁ ms₁ d₁ := ⟨rfl, hic, hm₁⟩
  rcases r with _ | ⟨ix, de⟩
  · refine twp_seq (FileRecArray.extend_spec (R := dentSig) hxp hb hm₁ hi (wellFormed_mkDent name inum isdir))
      fun ⟨ms₂, r₂⟩ d₂ ⟨hext, hfail⟩ => LinkDone.after ?_ hread₁
    cases r₂ with
    | error e =>
      have hf := hfail e rfl
      have hfile : dents xp d₂ dnum = dents xp d₁ dnum := by rw [dents, dents, hf.file_eq hxp hb hi]
      refine ⟨fun h => (nomatch h), fun _ _ => ⟨hf, fun de hde => ?_⟩, fun ix de hix _ => by rwa [hfile]⟩
      simpa using ifindList_none (p := fun de => !isValid de) hr.symm de hde
    | ok _ =>
      obtain ⟨data, hdata, hdone⟩ := hext rfl
      have hself := hdone.self
      have hdents : dents xp d₂ dnum = dents xp d₁ dnum ++
          (List.replicate dentSig.itemsPerVal dent0).set 0 (mkDent name inum isdir) := by
        rw [dents, hself]
        exact hdata
      refine ⟨fun _ => ⟨⟨by rwa [hself], by rw [hself]⟩, ?_⟩, fun _ h => (nomatch h), ?_⟩
      · rw [hdents, entries_extend (isValid_mkDent name inum isdir) dentSig.itemsPerVal_pos, went_mkDent name isdir hlt]
        exact List.perm_append_singleton _ _
      · rw [hdents]
        exact keeps_append _ _
  · obtain ⟨j, hix, hj, hc⟩ := ifindList_some hr.symm
    obtain rfl : ix = j := by omega
    exact twp_seq (putEntry_spec hxp hb hm₁ hi hlt name isdir hj (by simpa using hc)) fun ms₂ d₂ hput => hput.after hread₁

theorem link_spec (ix0 : Nat) :
    twp n (link xp dnum name inum isdir ix0 ms) (LinkDone xp dnum (name, (inum, isdir)) ms d) d := by
  refine twp_seq (BFILE.getlen_spec hxp hm hi) fun ⟨ms₁, len⟩ d₁ ⟨hd, hlen, hic, hm₁⟩ => ?_
  subst hd
  have hread₁ : ReadDone xp ms d₁ ms₁ d₁ := ⟨rfl, hic, hm₁⟩
  simp only
  split
  · rename_i hix
    have hix' : ix0 < (dents xp d₁ dnum).length := by
      rw [dents, FileRecArray.length_items]
      rwa [← (show len = _ from hlen)]
    refine twp_seq (FileRecArray.get_spec (R := dentSig) hxp hb hm₁ hi hix') fun ⟨ms₂, res⟩ d₂ ⟨hread₂, hres⟩ => ?_
    obtain ⟨hd, hic₂, hm₂⟩ := hread₂
    subst hd
    have hread₂ : ReadDone xp ms d₂ ms₂ d₂ := ⟨rfl, FileRecArray.icacheOnly_trans hic hic₂, hm₂⟩
    cases hval : isValid res with
    | true =>
      simp only
      exact twp_mono (fun r d' hl => hl.after hread₂) _ (link'_spec hxp hb hm₂ hi hlt name isdir)
    | false =>
      simp only
      exact twp_seq (putEntry_spec hxp hb hm₂ hi hlt name isdir hres hval) fun ms₃ d₃ hput => hput.after hread₂
  · exact twp_mono (fun r d' hl => hl.after hread₁) _ (link'_spec hxp hb hm₁ hi hlt name isdir)

end Link

end Specs

/-! ### Directories of valid names -/

/-- A program on the directory `dnum`: it is a directory again. -/
structure DirDone (xp : FsXparams) (dnum : Nat) (ms : Memstate) (d : LDisk) (ms' : Memstate) (d' : LDisk) : Prop where
  done : FileDone xp dnum (file xp d' dnum) ms d ms' d'
  attr : (file xp d' dnum).attr = (file xp d dnum).attr
  dirOk : DirOk (dents xp d' dnum)

/-- The directory has the entry `e` more. -/
structure Linked (xp : FsXparams) (dnum : Nat) (e : Sname × (Nat × Bool)) (ms : Memstate) (d : LDisk) (ms' : Memstate)
    (d' : LDisk) : Prop extends DirDone xp dnum ms d ms' d' where
  perm : (dirents (dents xp d' dnum)).Perm (e :: dirents (dents xp d dnum))

/-- The directory has the entry `e` no more. -/
structure Unlinked (xp : FsXparams) (dnum : Nat) (e : Sname × (Nat × Bool)) (ms : Memstate) (d : LDisk) (ms' : Memstate)
    (d' : LDisk) : Prop extends DirDone xp dnum ms d ms' d' where
  perm : (dirents (dents xp d dnum)).Perm (e :: dirents (dents xp d' dnum))

end DIR

namespace SDIR

open BFILE (Memstate MsRep GrowFail)
open DIR (dents DirOk dirMap dirents Linked Unlinked)
open FileRecArray (ReadDone)

variable {xp : FsXparams} {n dnum : Nat} {d : LDisk} {ms : Memstate} {extra : List Nat}
  (hxp : xp.Ok n) (hb : BRep xp d extra) (hm : MsRep xp d ms) (hi : dnum < xp.nInodes)
include hxp hb hm hi

theorem readdir_spec : twp n (readdir xp dnum ms) (fun r d' => ReadDone xp ms d r.1 d' ∧
    r.2 = dirents (dents xp d dnum)) d :=
  twp_seq (DIR.readdir_spec hxp hb hm hi) fun _ _ ⟨hread, hr⟩ => ⟨hread, by rw [DIR.dirents_eq, ← hr]⟩

variable (hok : DirOk (dents xp d dnum))
include hok

theorem lookup_spec (name : Sname) : twp n (lookup xp dnum name ms)
    (fun r d' => ReadDone xp ms d r.1 d' ∧ r.2 = dirMap (dents xp d dnum) name) d := by
  unfold lookup
  split
  · rename_i hs
    rw [hok.dirMap_valid hs]
    exact DIR.lookup_spec hxp hb hm hi hok.entriesOk _
  · rename_i hs
    exact ⟨FileRecArray.readDone_refl hm, (hok.dirMap_of_invalid hs).symm⟩

theorem unlink_spec {name : Sname} {v : Nat × Bool} (hv : dirMap (dents xp d dnum) name = some v) :
    twp n (unlink xp dnum name ms) (fun r d' => r.2.2 = .ok () ∧ Unlinked xp dnum (name, v) ms d r.1 d') d := by
  have hs : isValidSname name = true := by
    by_contra hs
    rw [hok.dirMap_of_invalid hs] at hv
    cases hv
  rw [unlink, if_pos hs]
  rw [hok.dirMap_valid hs] at hv
  refine twp_mono (fun r d' hspec => ?_) _ (DIR.unlink_spec hxp hb hm hi hok.entriesOk _)
  obtain ⟨hr, hdone, hp⟩ := hspec.2 v hv
  obtain ⟨hok', hp'⟩ := hok.unlink hs hp
  exact ⟨hr, ⟨hdone.done, hdone.attr, hok'⟩, hp'⟩

/-- What `link` returns for a name that is not there. -/
structure LinkDone (xp : FsXparams) (dnum : Nat) (e : Sname × (Nat × Bool)) (ms : Memstate) (d : LDisk)
    (r : Memstate × Nat × Except Errno Unit) (d' : LDisk) : Prop where
  ok : r.2.2 = .ok () → Linked xp dnum e ms d r.1 d'
  error : ∀ err, r.2.2 = .error err → (isValidSname e.1 = false ∧ r.1 = ms ∧ d' = d) ∨ GrowFail xp dnum ms d r.1 d'
  keeps : DIR.Keeps (dents xp d dnum) (dents xp d' dnum)

theorem link_spec {name : Sname} {inum : Nat} {isdir : Bool} (h0 : inum ≠ 0) (hlt : inum < 2 ^ 64)
    (hno : dirMap (dents xp d dnum) name = none) (ix0 : Nat) : twp n (link xp dnum name inum isdir ix0 ms)
      (LinkDone xp dnum (name, (inum, isdir)) ms d) d := by
  unfold link
  split
  · rename_i hs
    refine twp_mono (fun r d' hspec => ⟨fun hr => ?_, fun err herr => .inr (hspec.error err herr).1, hspec.keeps⟩) _
      (DIR.link_spec hxp hb hm hi hlt (sname2wname name) isdir ix0)
    obtain ⟨hdone, hp⟩ := hspec.ok hr
    obtain ⟨hok', hp'⟩ := hok.link hs h0 hno hp
    exact ⟨⟨hdone.done, hdone.attr, hok'⟩, hp'⟩
  · rename_i hs
    exact ⟨fun h => (nomatch h), fun _ _ => .inl ⟨by simpa using hs, rfl, rfl⟩, fun _ _ hix _ => hix⟩

end SDIR

end Fscq
