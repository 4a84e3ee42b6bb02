import Fscq.Dir.DirCacheRun

/-!
# Names in a directory

The word of a name holds its bytes and ends with zeros, so that valid strings and valid words are in bijection. Two entries
have one word exactly if they have one string, and in every run `readdir` lists the strings that were linked and not unlinked
since (`name_encoding_bijective`).
-/

namespace Fscq

open TxnLogic

namespace SDIR

/-! ## Characters -/

/-- A character of the source: its bits, lowest first. -/
structure Ascii where
  (a₁ a₂ a₃ a₄ a₅ a₆ a₇ a₈ : Bool)

def wbit (len pos : Nat) : BitVec len := BitVec.ofNat len (2 ^ pos)

def ifw {len : Nat} (b : Bool) (pos : Nat) : BitVec len := if b = true then wbit len pos else 0

def ascii2byte : Ascii → BitVec 8
  | ⟨a₁, a₂, a₃, a₄, a₅, a₆, a₇, a₈⟩ =>
    ifw a₁ 0 ||| ifw a₂ 1 ||| ifw a₃ 2 ||| ifw a₄ 3 ||| ifw a₅ 4 ||| ifw a₆ 5 ||| ifw a₇ 6 ||| ifw a₈ 7

def wbitset {len : Nat} (pos : Nat) (w : BitVec len) : Bool := if w &&& wbit len pos = 0 then false else true

def byte2ascii (b : BitVec 8) : Ascii :=
  ⟨wbitset 0 b, wbitset 1 b, wbitset 2 b, wbitset 3 b, wbitset 4 b, wbitset 5 b, wbitset 6 b, wbitset 7 b⟩

theorem byte2ascii_ascii2byte : ∀ a, byte2ascii (ascii2byte a) = a
  | ⟨a₁, a₂, a₃, a₄, a₅, a₆, a₇, a₈⟩ => by
    cases a₁ <;> cases a₂ <;> cases a₃ <;> cases a₄ <;> cases a₅ <;> cases a₆ <;> cases a₇ <;> cases a₈ <;> rfl

theorem ascii2byte_byte2ascii : ∀ b, ascii2byte (byte2ascii b) = b := by decide

/-! ## Padding -/

def padstring2name (nbytes : Nat) (s : Sname) : BitVec (nbytes * 8) := Rec.arrayToWord id nbytes s

def stringPad : Nat → Sname → Sname
  | 0, _ => []
  | nbytes + 1, [] => 0 :: stringPad nbytes []
  | nbytes + 1, a :: s => a :: stringPad nbytes s

def string2name (nbytes : Nat) (s : Sname) : BitVec (nbytes * 8) := padstring2name nbytes (stringPad nbytes s)

def name2string (nbytes : Nat) (name : BitVec (nbytes * 8)) : Sname := stringUnpad (name2padstring nbytes name)

inductive Zerostring : Sname → Prop
  | nil : Zerostring []
  | cons {s : Sname} : Zerostring s → Zerostring (0 :: s)

/-- No byte that is not zero follows a zero byte. -/
inductive WellFormedPad : Sname → Prop
  | zero {s : Sname} : Zerostring s → WellFormedPad s
  | cons {s : Sname} {c : BitVec 8} : WellFormedPad s → c ≠ 0 → WellFormedPad (c :: s)

def WnameValid (w : DIR.Filename) : Prop := WellFormedPad (name2padstring namelen w)

theorem stringPad_nil : ∀ nbytes, stringPad nbytes [] = List.replicate nbytes 0
  | 0 => rfl
  | nbytes + 1 => by rw [stringPad, stringPad_nil nbytes, List.replicate_succ]

theorem zerostring_replicate : ∀ k, Zerostring (List.replicate k 0)
  | 0 => .nil
  | k + 1 => .cons (zerostring_replicate k)

theorem Zerostring.eq_replicate : ∀ {s : Sname}, Zerostring s → s = List.replicate s.length 0
  | _, .nil => rfl
  | _, .cons h => by
    rw [List.length_cons, List.replicate_succ, ← h.eq_replicate]

/-- The padded definition is the one without padding. -/
theorem string2name'_eq : ∀ (nbytes : Nat) (s : Sname), string2name' nbytes s = string2name nbytes s
  | 0, _ => rfl
  | nbytes + 1, [] => by
    have hpad := Rec.arrayToWord_pad (f := (id : BitVec 8 → BitVec 8)) (z := 0) rfl (nbytes + 1) [] (nbytes + 1)
    rw [string2name, padstring2name, stringPad_nil]
    exact hpad.symm
  | nbytes + 1, a :: s => by
    have ih := string2name'_eq nbytes s
    rw [string2name', string2name, padstring2name] at ih ⊢
    rw [stringPad, Rec.arrayToWord, Rec.arrayToWord, ih]

theorem wellFormedPad_append {s : Sname} (hs : isNozero s = true) (k : Nat) : WellFormedPad (s ++ List.replicate k 0) := by
  induction s with
  | nil => exact .zero (zerostring_replicate k)
  | cons c s ih =>
    by_cases hc : c = 0
    · simp [isNozero, hc] at hs
    · simp only [isNozero, hc, if_false] at hs
      exact .cons (ih hs) hc

theorem stringPad_stringUnpad {s : Sname} (h : WellFormedPad s) : stringPad s.length (stringUnpad s) = s := by
  induction h with
  | zero h =>
    cases h with
    | nil => rfl
    | cons h =>
      rw [stringUnpad, if_pos rfl, stringPad_nil, ← (Zerostring.cons h).eq_replicate]
  | cons _ hc ih => rw [stringUnpad, if_neg hc, List.length_cons, stringPad, ih]

theorem isNozero_stringUnpad : ∀ s, isNozero (stringUnpad s) = true
  | [] => rfl
  | a :: s => by
    rw [stringUnpad]
    split
    · rfl
    · rename_i ha
      rw [isNozero, if_neg ha, isNozero_stringUnpad s]

theorem length_stringUnpad_le : ∀ s, (stringUnpad s).length ≤ s.length
  | [] => Nat.le_refl _
  | a :: s => by
    rw [stringUnpad]
    split
    · exact Nat.zero_le _
    · exact Nat.succ_le_succ (length_stringUnpad_le s)

/-! ## Strings and words -/

theorem length_name2padstring (nbytes : Nat) (name : BitVec (nbytes * 8)) : (name2padstring nbytes name).length = nbytes :=
  Rec.length_wordToArray _ _ _

theorem wnameValid_sname2wname {s : Sname} (hs : isValidSname s = true) : WnameValid (sname2wname s) := by
  rw [isValidSname, Bool.and_eq_true, decide_eq_true_iff] at hs
  have hpad := name2padstring_string2name hs.2
  rw [WnameValid, sname2wname, hpad]
  exact wellFormedPad_append hs.1 _

theorem isValidSname_wname2sname (w : DIR.Filename) : isValidSname (wname2sname w) = true := by
  rw [isValidSname, Bool.and_eq_true, decide_eq_true_iff]
  have hlen : (name2padstring namelen w).length = namelen := length_name2padstring namelen w
  exact ⟨isNozero_stringUnpad _, hlen ▸ length_stringUnpad_le (name2padstring namelen w)⟩

theorem sname2wname_wname2sname {w : DIR.Filename} (hw : WnameValid w) : sname2wname (wname2sname w) = w := by
  have hlen : (name2padstring namelen w).length = namelen := length_name2padstring namelen w
  have hpad := stringPad_stringUnpad hw
  rw [hlen] at hpad
  rw [sname2wname, string2name'_eq, string2name, wname2sname, hpad]
  exact Rec.arrayToWord_wordToArray (f := (id : BitVec 8 → BitVec 8)) (g := id) (fun _ => rfl) namelen w

theorem sname2wname_eq_iff {s t : Sname} (hs : isValidSname s = true) (ht : isValidSname t = true) :
    sname2wname s = sname2wname t ↔ s = t :=
  ⟨sname2wname_inj hs ht, congrArg sname2wname⟩

end SDIR

/-! ## Runs -/

namespace CacheOneDir

open BFILE (Memstate MsRep)
open DIR (dents DirOk dirMap dirents isValid deName)
open SDIR

/-- What a call did to the entries of the directories. -/
def update (m : Nat → Sname → Option (Nat × Bool)) : Call → Reply → Nat → Sname → Option (Nat × Bool)
  | .link dnum name inum isdir, .done (.ok _) => Function.update m dnum (Function.update (m dnum) name (some (inum, isdir)))
  | .unlink dnum name, .done (.ok _) => Function.update m dnum (Function.update (m dnum) name none)
  | _, _ => m

/-- For each directory, the entry last linked under a name and not unlinked since; the last call comes first. -/
def current : List (Call × Reply) → Nat → Sname → Option (Nat × Bool)
  | [] => fun _ _ => none
  | (c, r) :: hist => update (current hist) c r

/-- Calls are on existing inodes, and `link` gets an inode number. The names are any strings. -/
def Numbers (xp : FsXparams) : Call → Prop
  | .lookup dnum _ | .unlink dnum _ | .readdir dnum => dnum < xp.nInodes
  | .link dnum _ inum _ => dnum < xp.nInodes ∧ inum ≠ 0 ∧ inum < 2 ^ 64

inductive CallRun (xp : FsXparams) (ms₀ : Memstate) (d₀ : LDisk) : List (Call × Reply) → Memstate → LDisk → Prop
  | start : CallRun xp ms₀ d₀ [] ms₀ d₀
  | step {hist : List (Call × Reply)} {ms : Memstate} {d : LDisk} (c : Call) (h : CallRun xp ms₀ d₀ hist ms d)
      (hc : Numbers xp c) : CallRun xp ms₀ d₀ ((c, ((cachedCall xp c ms).run d).1.2) :: hist)
        ((cachedCall xp c ms).run d).1.1 ((cachedCall xp c ms).run d).2

/-- The directories on disk hold the entries of the map. -/
structure Named (xp : FsXparams) (m : Nat → Sname → Option (Nat × Bool)) (ms : Memstate) (d : LDisk) : Prop
    extends Valid xp d ms where
  dirOk : ∀ i < xp.nInodes, DirOk (dents xp d i)
  map : ∀ i < xp.nInodes, ∀ name, dirMap (dents xp d i) name = m i name

section Step

variable {xp : FsXparams} {n dnum : Nat} {d d' : LDisk} {ms ms' : Memstate} {m : Nat → Sname → Option (Nat × Bool)}

/-- A call that changes one directory. -/
theorem Named.kept (h : Named xp m ms d) (hk : DirKept xp dnum ms d ms' d') {f : Sname → Option (Nat × Bool)}
    (hmap : ∀ name, dirMap (dents xp d' dnum) name = f name) : Named xp (Function.update m dnum f) ms' d' where
  toValid := h.toValid.dirKept hk
  dirOk i hi := by
    by_cases hne : i = dnum
    · exact hne ▸ hk.dirOk
    · rw [dents, (hk.other i hi hne).1]
      exact h.dirOk i hi
  map i hi name := by
    by_cases hne : i = dnum
    · subst hne
      rw [Function.update_self, hmap]
    · rw [Function.update_of_ne hne, dents, (hk.other i hi hne).1]
      exact h.map i hi name

theorem Named.read (h : Named xp m ms d) (hi : dnum < xp.nInodes) (hk : DirKept xp dnum ms d ms' d) : Named xp m ms' d := by
  have hkept := h.kept hk (f := m dnum) (h.map dnum hi)
  rwa [Function.update_eq_self] at hkept

/-- The reply of a call is that of the map; `readdir` lists each entry once. -/
def Lists (m : Nat → Sname → Option (Nat × Bool)) : Call → Reply → Prop
  | .lookup dnum name, .found r => r = m dnum name
  | .readdir dnum, .listed l => (l.map Prod.fst).Nodup ∧ ∀ name v, (name, v) ∈ l ↔ m dnum name = some v
  | .link _ _ _ _, .done _ => True
  | .unlink dnum name, .done r => r = .ok () ↔ m dnum name ≠ none
  | _, _ => False

theorem cachedCall_named (hxp : xp.Ok n) (h : Named xp m ms d) {c : Call} (hc : Numbers xp c) :
    twp n (cachedCall xp c ms) (fun r d' => Named xp (update m c r.2) r.1 d' ∧ Lists m c r.2) d := by
  obtain ⟨extra, hb⟩ := h.brep
  cases c with
  | lookup dnum name =>
    refine twp_seq (lookup_spec hxp hb h.msrep hc (h.dirOk _ hc) (h.cache dnum hc (h.dirOk _ hc)) name) ?_
    rintro ⟨ms₁, r⟩ d₁ ⟨hd, hk, hr⟩
    subst hd
    exact ⟨h.read hc hk, hr.trans (h.map dnum hc name)⟩
  | link dnum name inum isdir =>
    obtain ⟨hi, h0, hlt⟩ := hc
    refine twp_seq (link_spec hxp hb h.msrep hi (h.dirOk _ hi) (h.cache dnum hi (h.dirOk _ hi)) h0 hlt) ?_
    rintro ⟨ms₁, r⟩ d₁ hlink
    refine ⟨?_, trivial⟩
    cases r with
    | ok _ =>
      obtain ⟨_, hk, hp⟩ := hlink.ok rfl
      refine h.kept hk fun s => ?_
      rw [dirMap_linked hk.dirOk hp, h.map dnum hi, Function.update_apply]
      simp only [eq_comm]
    | error e =>
      obtain ⟨ms₂, hk, ⟨hms, hd⟩ | hf⟩ := hlink.error e rfl
      · simp only at hms
        subst hms
        subst hd
        exact h.read hi hk
      · have h₂ := h.read hi hk
        refine ⟨h₂.toValid.growFail hxp hi hf, fun i hi' => ?_, fun i hi' name' => ?_⟩
        · rw [dents, hf.file_eq hxp hb hi']
          exact h₂.dirOk i hi'
        · rw [dents, hf.file_eq hxp hb hi']
          exact h₂.map i hi' name'
  | unlink dnum name =>
    refine twp_seq (unlink_spec hxp hb h.msrep hc (h.dirOk _ hc) (h.cache dnum hc (h.dirOk _ hc)) name) ?_
    rintro ⟨ms₁, r⟩ d₁ ⟨hsome, hnone⟩
    have hm := h.map dnum hc name
    cases hmap : dirMap (dents xp d dnum) name with
    | none =>
      obtain ⟨hr, hd, hk⟩ := hnone hmap
      simp only at hr
      subst hr
      subst hd
      rw [hmap] at hm
      exact ⟨h.read hc hk, by simp [Lists, ← hm]⟩
    | some v =>
      obtain ⟨hr, hk, hp⟩ := hsome v hmap
      simp only at hr
      subst hr
      rw [hmap] at hm
      refine ⟨h.kept hk fun s => ?_, by simp [Lists, ← hm]⟩
      rw [dirMap_unlinked (h.dirOk _ hc) hp, h.map dnum hc, Function.update_apply]
      simp only [eq_comm]
  | readdir dnum =>
    refine twp_seq (readdir_spec hxp hb h.msrep hc (h.dirOk _ hc) (h.cache dnum hc (h.dirOk _ hc))) ?_
    rintro ⟨ms₁, l⟩ d₁ ⟨hd, hk, hl⟩
    subst hd
    obtain rfl : l = dirents (dents xp d₁ dnum) := hl
    refine ⟨h.read hc hk, (h.dirOk _ hc).nodup, fun name v => ?_⟩
    rw [← h.map dnum hc, dirMap, lookup_eq_some_iff_mem (h.dirOk _ hc).nodup]

end Step

variable {xp : FsXparams} {n : Nat} {d₀ d : LDisk} {ms₀ ms : Memstate} {hist : List (Call × Reply)}

theorem Named.start (hb : BRep xp d₀ []) (hm : MsRep xp d₀ ms₀) (hcache : ms₀.msCache = ∅)
    (hempty : ∀ i < xp.nInodes, (file xp d₀ i).data = []) : Named xp (current []) ms₀ d₀ := by
  have hnil : ∀ i < xp.nInodes, dents xp d₀ i = [] := fun i hi => by rw [dents, hempty i hi]; rfl
  refine ⟨⟨⟨[], hb⟩, hm, fun i _ _ dc hint hget => ?_⟩, fun i hi => ?_, fun i hi name => ?_⟩
  · rw [hcache] at hget
    simp at hget
  · rw [hnil i hi]
    exact ⟨fun _ he => absurd he List.not_mem_nil, fun _ he => absurd he List.not_mem_nil, .nil⟩
  · rw [hnil i hi]
    rfl

theorem CallRun.named (hxp : xp.Ok n) (hinv : Named xp (current []) ms₀ d₀) (h : CallRun xp ms₀ d₀ hist ms d) :
    Named xp (current hist) ms d := by
  induction h with
  | start => exact hinv
  | step c _ hc ih => exact (twp_run (cachedCall_named hxp ih hc)).1

/-- In a directory, entries have one word if and only if they have one string. -/
theorem Named.deName_eq_iff {m : Nat → Sname → Option (Nat × Bool)} (h : Named xp m ms d) {i : Nat} (hi : i < xp.nInodes)
    {de de' : DIR.Dent} (hde : de ∈ dents xp d i) (hde' : de' ∈ dents xp d i) (hv : isValid de = true)
    (hv' : isValid de' = true) : deName de = deName de' ↔ (DIR.ent de).1 = (DIR.ent de').1 := by
  obtain ⟨s, hs, hname⟩ := (h.dirOk i hi).name de hde hv
  obtain ⟨s', hs', hname'⟩ := (h.dirOk i hi).name de' hde' hv'
  rw [DIR.ent, DIR.ent, hname, hname', wname2sname_sname2wname hs, wname2sname_sname2wname hs', sname2wname_eq_iff hs hs']

/-- Strings and words of names are in bijection, and a directory keeps the strings: after every run from empty directories,
entries have one word if and only if they have one string, and the calls reply what was linked and not unlinked since. -/
theorem name_encoding_bijective (hxp : xp.Ok n) (hb : BRep xp d₀ []) (hm : MsRep xp d₀ ms₀) (hcache : ms₀.msCache = ∅)
    (hempty : ∀ i < xp.nInodes, (file xp d₀ i).data = []) (h : CallRun xp ms₀ d₀ hist ms d) :
    (∀ a, byte2ascii (ascii2byte a) = a) ∧ (∀ b, ascii2byte (byte2ascii b) = b) ∧
    (∀ s, isValidSname s = true → wname2sname (sname2wname s) = s ∧ WnameValid (sname2wname s)) ∧
    (∀ w, WnameValid w → sname2wname (wname2sname w) = w ∧ isValidSname (wname2sname w) = true) ∧
    (∀ nbytes s, string2name' nbytes s = string2name nbytes s) ∧
    (∀ i < xp.nInodes, ∀ de ∈ dents xp d i, ∀ de' ∈ dents xp d i, isValid de = true → isValid de' = true →
      (deName de = deName de' ↔ (DIR.ent de).1 = (DIR.ent de').1)) ∧
    ∀ c, Numbers xp c → twp n (cachedCall xp c ms) (fun r _ => Lists (current hist) c r.2) d := by
  have hinv := h.named hxp (.start hb hm hcache hempty)
  refine ⟨byte2ascii_ascii2byte, ascii2byte_byte2ascii, fun s hs => ⟨wname2sname_sname2wname hs, wnameValid_sname2wname hs⟩,
    fun w hw => ⟨sname2wname_wname2sname hw, isValidSname_wname2sname w⟩, string2name'_eq, fun i hi de hde de' hde' hv hv' => ?_,
    fun c hc => ?_⟩
  · exact hinv.deName_eq_iff hi hde hde' hv hv'
  · exact twp_mono (fun _ _ hr => hr.2) _ (cachedCall_named hxp hinv hc)

open BFILE (smallXp formatted formatted_done)

/-- Two names are linked, and one of them is listed after the other is unlinked. -/
theorem name_encoding_bijective_small : ∃ hist ms d, hist.length = 3 ∧ CallRun smallXp formatted.1 formatted.2 hist ms d ∧
    ∀ c, Numbers smallXp c → twp 33795 (cachedCall smallXp c ms) (fun r _ => Lists (current hist) c r.2) d := by
  have hempty : ∀ i < smallXp.nInodes, (file smallXp formatted.2 i).data = [] := fun i hi => by
    rw [file, formatted_done.table.blks_eq hi]
    rfl
  have hdir : 1 < smallXp.nInodes := by decide
  have h64 : 6 < 2 ^ 64 := by decide
  have hrun : CallRun smallXp formatted.1 formatted.2 _ _ _ :=
    .step (.unlink 1 [97]) (.step (.link 1 [97, 98] 6 false) (.step (.link 1 [97] 6 true) .start ⟨hdir, by decide, h64⟩)
      ⟨hdir, by decide, h64⟩) hdir
  obtain ⟨_, _, _, _, _, _, hcalls⟩ := name_encoding_bijective BFILE.smallXp_ok formatted_done.brep formatted_done.msrep
    formatted_done.cache_eq hempty hrun
  exact ⟨_, _, _, rfl, hrun, hcalls⟩

end CacheOneDir

end Fscq
