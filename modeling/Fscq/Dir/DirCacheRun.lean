import Fscq.Dir.DirLike

/-!
# Runs with and without the directory cache

`cached` runs calls on directories with `CacheOneDir`, and `plain` runs them with `SDIR` after looking the name up; it keeps
no map of a directory, only the number that the last `link` or `unlink` returned for it, as the hint of the next `link`.
Between the calls inodes are reset, transactions end or abort (memory state and disk are those from its start again), and
a crash loses all caches and falls back to a disk that was committed. In every run both give the same replies, and
what is cached for a directory is the directory on disk (`dir_cache_transparent`).
-/

namespace Fscq

open TxnLogic

namespace CacheOneDir

open BFILE (Memstate MsRep Like SameRes GrowFail cacheGet cachePut)
open DIR (dents DirOk dirMap Keeps)

inductive Call
  | lookup (dnum : Nat) (name : Sname)
  | link (dnum : Nat) (name : Sname) (inum : Nat) (isdir : Bool)
  | unlink (dnum : Nat) (name : Sname)
  | readdir (dnum : Nat)

inductive Reply
  | found (r : Option (Nat × Bool))
  | done (r : Except Errno Unit)
  | listed (l : List (Sname × (Nat × Bool)))

inductive Event
  | call (c : Call)
  | reset (inum : Nat)
  | commit
  | abort
  /-- Recovery to the committed disk at this place, the last one first. -/
  | recover (k : Nat)

/-! ## The two implementations -/

/-- Calls on directories, with a memory state `σ`. -/
structure Impl (σ : Type) where
  call : Call → σ → TBody (σ × Reply)
  reset : Nat → σ → TBody σ
  recovered : σ

def cachedCall (xp : FsXparams) : Call → Memstate → TBody (Memstate × Reply)
  | .lookup dnum name, ms => do
    let (ms, r) ← lookup xp dnum name ms
    pure (ms, .found r)
  | .link dnum name inum isdir, ms => do
    let (ms, r) ← link xp dnum name inum isdir ms
    pure (ms, .done r)
  | .unlink dnum name, ms => do
    let (ms, r) ← unlink xp dnum name ms
    pure (ms, .done r)
  | .readdir dnum, ms => do
    let (ms, l) ← readdir xp dnum ms
    pure (ms, .listed l)

def cached (xp : FsXparams) : Impl Memstate := ⟨cachedCall xp, BFILE.reset xp, BFILE.msEmpty⟩

/-- A memory state with a hint for each directory. -/
abbrev Hinted : Type := Memstate × (Nat → Nat)

def plainCall (xp : FsXparams) : Call → Hinted → TBody (Hinted × Reply)
  | .lookup dnum name, (ms, hints) => do
    let (ms, r) ← SDIR.lookup xp dnum name ms
    pure ((ms, hints), .found r)
  | .link dnum name inum isdir, (ms, hints) => do
    let (ms, r) ← SDIR.lookup xp dnum name ms
    match r with
    | some _ => pure ((ms, hints), .done (.error .EEXIST))
    | none => do
      let (ms, ix, r) ← SDIR.link xp dnum name inum isdir (hints dnum) ms
      match r with
      | .error e => pure ((ms, hints), .done (.error e))
      | .ok _ => pure ((ms, Function.update hints dnum ix), .done r)
  | .unlink dnum name, (ms, hints) => do
    let (ms, r) ← SDIR.lookup xp dnum name ms
    match r with
    | none => pure ((ms, hints), .done (.error .ENOENT))
    | some _ => do
      let (ms, ix, r) ← SDIR.unlink xp dnum name ms
      pure ((ms, Function.update hints dnum ix), .done r)
  | .readdir dnum, (ms, hints) => do
    let (ms, l) ← SDIR.readdir xp dnum ms
    pure ((ms, hints), .listed l)

def plain (xp : FsXparams) : Impl Hinted where
  call := plainCall xp
  reset inum p := do
    let ms ← BFILE.reset xp inum p.1
    pure (ms, Function.update p.2 inum 0)
  recovered := (BFILE.msEmpty, fun _ => 0)

/-! ## Runs -/

structure Machine (σ : Type) where
  mem : σ
  disk : LDisk
  /-- The start of the transaction. -/
  saved : σ × LDisk
  /-- What was committed before. -/
  older : List LDisk

def start {σ : Type} (mem : σ) (d : LDisk) : Machine σ := ⟨mem, d, (mem, d), []⟩

/-- After a crash no block has an older value. -/
def settle (d : LDisk) : LDisk := ⟨d.val, fun _ => True⟩

variable {σ : Type}

def Machine.recover (s : Machine σ) (mem : σ) (k : Nat) : Machine σ :=
  start mem (settle (((s.saved.2 :: s.older)[k]?).getD s.saved.2))

def step (I : Impl σ) (s : Machine σ) : Event → Machine σ × List Reply
  | .call c =>
    let r := (I.call c s.mem).run s.disk
    ({ s with mem := r.1.1, disk := r.2 }, [r.1.2])
  | .reset inum =>
    let r := (I.reset inum s.mem).run s.disk
    ({ s with mem := r.1, disk := r.2 }, [])
  | .commit => ({ s with saved := (s.mem, s.disk), older := s.saved.2 :: s.older }, [])
  | .abort => ({ s with mem := s.saved.1, disk := s.saved.2 }, [])
  | .recover k => (s.recover I.recovered k, [])

def run (I : Impl σ) : Machine σ → List Event → Machine σ × List Reply
  | s, [] => (s, [])
  | s, e :: es =>
    let r := step I s e
    let rest := run I r.1 es
    (rest.1, r.2 ++ rest.2)

/-- Calls are on directories, and entries have inode numbers. -/
def CallOk (xp : FsXparams) (d : LDisk) : Call → Prop
  | .lookup dnum _ | .unlink dnum _ | .readdir dnum => dnum < xp.nInodes ∧ DirOk (dents xp d dnum)
  | .link dnum _ inum _ => dnum < xp.nInodes ∧ DirOk (dents xp d dnum) ∧ inum ≠ 0 ∧ inum < 2 ^ 64

def Legal (xp : FsXparams) (d : LDisk) : Event → Prop
  | .call c => CallOk xp d c
  | .reset inum => inum < xp.nInodes
  | _ => True

def LegalRun (xp : FsXparams) (I : Impl σ) : Machine σ → List Event → Prop
  | _, [] => True
  | s, e :: es => Legal xp s.disk e ∧ LegalRun xp I (step I s e).1 es

/-- What is cached for a directory is the directory. -/
def CacheOk (xp : FsXparams) (d : LDisk) (ms : Memstate) : Prop :=
  ∀ i, i < xp.nInodes → DirOk (dents xp d i) → DcacheAt xp d i ms

/-! ## The cache stays valid -/

section Valid

variable {xp : FsXparams} {n dnum inum : Nat} {d d' : LDisk} {ms ms' : Memstate}

structure Valid (xp : FsXparams) (d : LDisk) (ms : Memstate) : Prop where
  brep : ∃ extra, BRep xp d extra
  msrep : MsRep xp d ms
  cache : CacheOk xp d ms

/-- What is cached for a file that stays. -/
theorem CacheOk.at_of_eq (h : CacheOk xp d ms) {i : Nat} (hi : i < xp.nInodes) (hfile : file xp d' i = file xp d i)
    (hcache : ms'.msCache[i]? = ms.msCache[i]?) (hok : DirOk (dents xp d' i)) : DcacheAt xp d' i ms' := by
  have hdents : dents xp d' i = dents xp d i := by rw [dents, dents, hfile]
  rw [hdents] at hok
  intro dc hint hget
  rw [hcache] at hget
  rw [hdents]
  exact h i hi hok dc hint hget

theorem Valid.dirKept (h : Valid xp d ms) (hk : DirKept xp dnum ms d ms' d') : Valid xp d' ms' := by
  obtain ⟨extra, hb⟩ := h.brep
  refine ⟨⟨extra, hk.brep hb⟩, hk.msrep, fun i hi hok => ?_⟩
  by_cases hne : i = dnum
  · rw [hne]
    exact hk.dcache
  · exact h.cache.at_of_eq hi (hk.other i hi hne).1 (hk.cache_other i hne) hok

theorem Valid.growFail (h : Valid xp d ms) (hxp : xp.Ok n) (hi : dnum < xp.nInodes) (hf : GrowFail xp dnum ms d ms' d') :
    Valid xp d' ms' := by
  obtain ⟨extra, hb⟩ := h.brep
  obtain ⟨lost, hb'⟩ := hf.brep hxp hb hi
  exact ⟨⟨_, hb'⟩, hf.msrep, fun i hi' hok =>
    h.cache.at_of_eq hi' (hf.file_eq hxp hb hi') (by rw [hf.cache_eq]) hok⟩

theorem Valid.reset (h : Valid xp d ms) (hr : BFILE.ResetDone xp inum ms d ms' d') : Valid xp d' ms' := by
  obtain ⟨extra, hb⟩ := h.brep
  refine ⟨⟨extra, hr.brep hb⟩, hr.msrep, fun i hi hok => ?_⟩
  have hcache : ms'.msCache[i]? = if inum = i then none else ms.msCache[i]? := by
    rw [hr.cache_eq, Bufcache.getElem?_erase']
  by_cases hne : i = inum
  · intro dc hint hget
    rw [hcache, if_pos hne.symm] at hget
    cases hget
  · rw [if_neg fun h => hne h.symm] at hcache
    exact h.cache.at_of_eq hi (hr.other i hi hne).1 hcache hok

/-- Every call leaves a valid cache, a failed one, too. -/
theorem cachedCall_valid (hxp : xp.Ok n) (h : Valid xp d ms) {c : Call} (hc : CallOk xp d c) :
    twp n (cachedCall xp c ms) (fun r d' => Valid xp d' r.1) d := by
  obtain ⟨extra, hb⟩ := h.brep
  cases c with
  | lookup dnum name =>
    obtain ⟨hi, hok⟩ := hc
    refine twp_seq (lookup_spec hxp hb h.msrep hi hok (h.cache dnum hi hok) name) fun _ d₁ ⟨hd, hk, _⟩ => ?_
    subst hd
    exact h.dirKept hk
  | link dnum name inum isdir =>
    obtain ⟨hi, hok, h0, hlt⟩ := hc
    refine twp_seq (link_spec hxp hb h.msrep hi hok (h.cache dnum hi hok) h0 hlt) fun ⟨ms₁, r⟩ d₁ hlink => ?_
    cases r with
    | ok _ => exact h.dirKept (hlink.ok rfl).2.1
    | error e =>
      obtain ⟨ms₂, hk, hcase⟩ := hlink.error e rfl
      rcases hcase with ⟨hms, hd⟩ | hf
      · simp only at hms
        subst hms
        subst hd
        exact h.dirKept hk
      · exact (h.dirKept hk).growFail hxp hi hf
  | unlink dnum name =>
    obtain ⟨hi, hok⟩ := hc
    refine twp_seq (unlink_spec hxp hb h.msrep hi hok (h.cache dnum hi hok) name) fun ⟨ms₁, r⟩ d₁ ⟨hsome, hnone⟩ => ?_
    cases hmap : dirMap (dents xp d dnum) name with
    | none =>
      obtain ⟨_, hd, hk⟩ := hnone hmap
      subst hd
      exact h.dirKept hk
    | some v => exact h.dirKept (hsome v hmap).2.1
  | readdir dnum =>
    obtain ⟨hi, hok⟩ := hc
    refine twp_seq (readdir_spec hxp hb h.msrep hi hok (h.cache dnum hi hok)) fun _ d₁ ⟨hd, hk, _⟩ => ?_
    subst hd
    exact h.dirKept hk

end Valid

/-! ## The hints -/

/-- The hints in a cache. -/
def hintsOf (bfc : BFcacheType) (i : Nat) : Nat := (bfc[i]?.map Prod.snd).getD 0

theorem hintsOf_insert (c : BFcacheType) (dnum : Nat) (dc : DcacheType) (ix : Nat) :
    hintsOf (c.insert dnum (dc, ix)) = Function.update (hintsOf c) dnum ix := by
  funext i
  rw [hintsOf, Bufcache.getElem?_insert']
  by_cases hi : dnum = i
  · subst hi
    rw [if_pos rfl, Function.update_self]
    rfl
  · rw [if_neg hi, Function.update_of_ne fun h => hi h.symm]
    rfl

theorem hintsOf_erase (c : BFcacheType) (inum : Nat) : hintsOf (c.erase inum) = Function.update (hintsOf c) inum 0 := by
  funext i
  rw [hintsOf, Bufcache.getElem?_erase']
  by_cases hi : inum = i
  · subst hi
    rw [if_pos rfl, Function.update_self]
    rfl
  · rw [if_neg hi, Function.update_of_ne fun h => hi h.symm]
    rfl

/-! ## One call of each -/

section Compare

variable {xp : FsXparams} {n dnum : Nat} {d : LDisk} {ms ms' : Memstate} {extra : List Nat}

/-- The replies are equal, the memory states are alike, and the hints are those in the cache. -/
def Match (r : Memstate × Reply) (r' : Hinted × Reply) (_ : LDisk) : Prop :=
  r'.2 = r.2 ∧ Like r.1 r'.1.1 ∧ r'.1.2 = hintsOf r.1.msCache

/-- Only caches changed, and no hint. -/
structure Filled (ms ms₁ : Memstate) : Prop where
  like : Like ms ms₁
  hints : hintsOf ms₁.msCache = hintsOf ms.msCache

theorem filled_icacheOnly (h : BFILE.IcacheOnly ms ms') : Filled ms ms' := by
  obtain ⟨ic, rfl⟩ := h
  exact ⟨⟨ic, ms.msCache, rfl⟩, rfl⟩

variable (hxp : xp.Ok n) (hb : BRep xp d extra) (hm : MsRep xp d ms) (hi : dnum < xp.nInodes)
  (hok : DirOk (dents xp d dnum)) (hc : DcacheAt xp d dnum ms)
include hxp hb hm hi hok hc

theorem getDcache_filled : twp n (getDcache xp dnum ms) (fun r d' => d' = d ∧ Filled ms r.1 ∧
    r.2.2 = hintsOf ms.msCache dnum ∧ DirKept xp dnum ms d r.1 d ∧ ∀ name, r.2.1[name]? = dirMap (dents xp d dnum) name) d := by
  have hfill : twp n (getDcache xp dnum ms) (fun r _ => Filled ms r.1 ∧ r.2.2 = hintsOf ms.msCache dnum) d := by
    rw [getDcache]
    cases hget : cacheGet dnum ms with
    | none =>
      have hzero : hintsOf ms.msCache dnum = 0 := by
        rw [hintsOf, (show ms.msCache[dnum]? = none from hget)]
        rfl
      refine twp_seq (SDIR.readdir_spec hxp hb hm hi) ?_
      rintro ⟨ms₁, files⟩ d₁ ⟨hread, _⟩
      obtain ⟨hl, hh⟩ := filled_icacheOnly hread.icache
      refine ⟨⟨hl.trans (BFILE.like_cachePut _ _ _), ?_⟩, hzero.symm⟩
      refine (hintsOf_insert _ _ _ _).trans ?_
      rw [hh, ← hzero, Function.update_eq_self]
    | some r =>
      refine ⟨⟨Like.refl ms, rfl⟩, ?_⟩
      rw [hintsOf, (show ms.msCache[dnum]? = some r from hget)]
      rfl
  refine twp_mono ?_ _ (twp_and (getDcache_spec hxp hb hm hi hok hc) hfill)
  rintro _ _ ⟨⟨hd, hk, hdc⟩, hf, hh⟩
  exact ⟨hd, hf, hh, hk, hdc⟩

theorem lookup_filled (name : Sname) : twp n (lookup xp dnum name ms) (fun r d' => d' = d ∧ Filled ms r.1 ∧
    DirKept xp dnum ms d r.1 d ∧ r.2 = dirMap (dents xp d dnum) name) d :=
  twp_seq (getDcache_filled hxp hb hm hi hok hc) fun _ _ ⟨hd, hf, _, hk, hdc⟩ => ⟨hd, hf, hk, hdc name⟩

variable (hm' : MsRep xp d ms') (hl : Like ms ms')
include hm' hl

omit hm hc hl in
theorem plain_lookup (name : Sname) : twp n (SDIR.lookup xp dnum name ms') (fun r d' => d' = d ∧
    BFILE.IcacheOnly ms' r.1 ∧ MsRep xp d r.1 ∧ r.2 = dirMap (dents xp d dnum) name) d :=
  twp_mono (fun _ _ ⟨hread, hr⟩ => ⟨hread.disk, hread.icache, hread.msrep, hr⟩) _ (SDIR.lookup_spec hxp hb hm' hi hok name)

theorem link_match {name : Sname} {inum : Nat} (h0 : inum ≠ 0) (hlt : inum < 2 ^ 64) (isdir : Bool) :
    Agree Match (cachedCall xp (.link dnum name inum isdir) ms)
      (plainCall xp (.link dnum name inum isdir) (ms', hintsOf ms.msCache)) d := by
  simp only [cachedCall, plainCall, link, Body.bind_assoc]
  refine agree_seq (agree_read (lookup_filled hxp hb hm hi hok hc name) (plain_lookup hxp hb hi hok hm' name)) ?_
  rintro ⟨ms₁, r⟩ ⟨ms₁', r'⟩ d₁ ⟨rfl, ⟨hf₁, hk₁, hr⟩, hic, hm₁', hr'⟩
  simp only at hr hr' hf₁ hic
  subst hr hr'
  have hl₁ : Like ms₁ ms₁' := hf₁.like.symm.trans (hl.trans (BFILE.IcacheOnly.like hic))
  cases hmap : dirMap (dents xp d₁ dnum) name with
  | some v => exact agree_ret ⟨rfl, hl₁, hf₁.hints.symm⟩
  | none =>
    simp only [link', Body.bind_assoc]
    refine agree_left (getDcache_filled hxp hb hk₁.msrep hi hok hk₁.dcache) ?_
    rintro ⟨ms₂, dc, hint⟩ ⟨hf₂, hhint, hk₂, _⟩
    simp only at hhint hf₂
    rw [hf₁.hints] at hhint
    subst hhint
    have hhints₂ := hf₂.hints.trans hf₁.hints
    refine agree_seq (agree_twp (SDIR.link_like hxp hb hk₂.msrep hm₁' (hf₂.like.symm.trans hl₁) hi name inum isdir _)
      (SDIR.link_spec hxp hb hk₂.msrep hi hok h0 hlt hmap _)) ?_
    rintro ⟨ms₃, ix, r⟩ ⟨ms₃', ix', r'⟩ d₂ ⟨⟨heq, hl₃⟩, hlink⟩
    cases heq
    cases r with
    | error e =>
      refine agree_ret ⟨rfl, hl₃, ?_⟩
      rcases hlink.error e rfl with ⟨_, hms, _⟩ | hfail
      · simp only at hms
        rw [hms, hhints₂]
      · rw [hfail.cache_eq, hhints₂]
    | ok _ =>
      refine agree_ret ⟨rfl, (BFILE.like_cachePut _ _ _).symm.trans hl₃, ?_⟩
      refine Eq.trans ?_ (hintsOf_insert _ _ _ _).symm
      rw [(hlink.ok rfl).done.cache_eq, hhints₂]

theorem unlink_match (name : Sname) : Agree Match (cachedCall xp (.unlink dnum name) ms)
    (plainCall xp (.unlink dnum name) (ms', hintsOf ms.msCache)) d := by
  simp only [cachedCall, plainCall, unlink, Body.bind_assoc]
  refine agree_seq (agree_read (getDcache_filled hxp hb hm hi hok hc) (plain_lookup hxp hb hi hok hm' name)) ?_
  rintro ⟨ms₁, dc, hint⟩ ⟨ms₁', r'⟩ d₁ ⟨rfl, ⟨hf₁, _, hk₁, hdc⟩, hic, hm₁', hr'⟩
  simp only at hr' hf₁ hic hdc
  subst hr'
  have hl₁ : Like ms₁ ms₁' := hf₁.like.symm.trans (hl.trans (BFILE.IcacheOnly.like hic))
  simp only [hdc name]
  cases hmap : dirMap (dents xp d₁ dnum) name with
  | none => exact agree_ret ⟨rfl, hl₁, hf₁.hints.symm⟩
  | some v =>
    simp only [Body.bind_assoc]
    refine agree_seq (agree_twp (SDIR.unlink_like hxp hb hk₁.msrep hm₁' hl₁ hi name)
      (SDIR.unlink_spec hxp hb hk₁.msrep hi hok hmap)) ?_
    rintro ⟨ms₂, ix, r⟩ ⟨ms₂', ix', r'⟩ d₂ ⟨⟨heq, hl₂⟩, _, hun⟩
    cases heq
    refine agree_ret ⟨rfl, (BFILE.like_cachePut _ _ _).symm.trans hl₂, ?_⟩
    refine Eq.trans ?_ (hintsOf_insert _ _ _ _).symm
    rw [hun.done.cache_eq, hf₁.hints]

omit hm hc hl in
/-- The caches of the plain run agree with the disk after a call. -/
theorem plainLink_msRep {name : Sname} {inum : Nat} (h0 : inum ≠ 0) (hlt : inum < 2 ^ 64) (isdir : Bool) (hints : Nat → Nat) :
    twp n (plainCall xp (.link dnum name inum isdir) (ms', hints)) (fun r d' => MsRep xp d' r.1.1) d := by
  refine twp_seq (plain_lookup hxp hb hi hok hm' name) fun ⟨ms₁, r⟩ d₁ ⟨hd, _, hm₁, hr⟩ => ?_
  simp only at hr
  subst hd hr
  cases hmap : dirMap (dents xp d₁ dnum) name with
  | some v => exact hm₁
  | none =>
    refine twp_seq (SDIR.link_spec hxp hb hm₁ hi hok h0 hlt hmap _) fun ⟨ms₂, ix, r⟩ d₂ hlink => ?_
    cases r with
    | ok _ => exact (hlink.ok rfl).done.msrep
    | error e =>
      rcases hlink.error e rfl with ⟨_, hms, hd⟩ | hf
      · simp only at hms
        subst hms hd
        exact hm₁
      · exact hf.msrep

omit hm hc hl in
theorem plainUnlink_msRep (name : Sname) (hints : Nat → Nat) :
    twp n (plainCall xp (.unlink dnum name) (ms', hints)) (fun r d' => MsRep xp d' r.1.1) d := by
  refine twp_seq (plain_lookup hxp hb hi hok hm' name) fun ⟨ms₁, r⟩ d₁ ⟨hd, _, hm₁, hr⟩ => ?_
  simp only at hr
  subst hd hr
  cases hmap : dirMap (dents xp d₁ dnum) name with
  | none => exact hm₁
  | some v => exact twp_seq (SDIR.unlink_spec hxp hb hm₁ hi hok hmap) fun _ _ h => h.2.done.msrep

end Compare

/-! ## Both runs -/

section Runs

variable {xp : FsXparams} {n : Nat} {d : LDisk} {ms : Memstate} {p : Hinted}

/-- The memory states of both runs, on one disk. -/
structure Paired (xp : FsXparams) (ms : Memstate) (p : Hinted) (d : LDisk) : Prop where
  valid : Valid xp d ms
  msrep : MsRep xp d p.1
  like : Like ms p.1
  hints : p.2 = hintsOf ms.msCache

theorem call_paired (hxp : xp.Ok n) (h : Paired xp ms p d) {c : Call} (hc : CallOk xp d c) :
    Agree (fun r r' d' => r'.2 = r.2 ∧ Paired xp r.1 r'.1 d') (cachedCall xp c ms) (plainCall xp c p) d := by
  obtain ⟨ms', hints⟩ := p
  obtain rfl : hints = hintsOf ms.msCache := h.hints
  have hvalid := cachedCall_valid hxp h.valid hc
  obtain ⟨extra, hb⟩ := h.valid.brep
  have hmatch : Agree Match (cachedCall xp c ms) (plainCall xp c (ms', hintsOf ms.msCache)) d ∧
      twp n (plainCall xp c (ms', hintsOf ms.msCache)) (fun r d' => MsRep xp d' r.1.1) d := by
    cases c with
    | lookup dnum name =>
      obtain ⟨hi, hok⟩ := hc
      have hplain := plain_lookup hxp hb hi hok h.msrep name
      refine ⟨agree_seq (agree_read (lookup_filled hxp hb h.valid.msrep hi hok (h.valid.cache dnum hi hok) name) hplain) ?_,
        twp_seq hplain fun _ _ ⟨hd, _, hm, _⟩ => hd ▸ hm⟩
      rintro ⟨ms₁, _⟩ ⟨ms₁', _⟩ d₁ ⟨rfl, ⟨hf, _, rfl⟩, hic, _, rfl⟩
      exact agree_ret ⟨rfl, hf.like.symm.trans (h.like.trans (BFILE.IcacheOnly.like hic)), hf.hints.symm⟩
    | link dnum name inum isdir =>
      obtain ⟨hi, hok, h0, hlt⟩ := hc
      exact ⟨link_match hxp hb h.valid.msrep hi hok (h.valid.cache dnum hi hok) h.msrep h.like h0 hlt isdir,
        plainLink_msRep hxp hb hi hok h.msrep h0 hlt isdir _⟩
    | unlink dnum name =>
      obtain ⟨hi, hok⟩ := hc
      exact ⟨unlink_match hxp hb h.valid.msrep hi hok (h.valid.cache dnum hi hok) h.msrep h.like name,
        plainUnlink_msRep hxp hb hi hok h.msrep name _⟩
    | readdir dnum =>
      obtain ⟨hi, hok⟩ := hc
      have hread : ∀ {ms₁ : Memstate}, MsRep xp d ms₁ → twp n (SDIR.readdir xp dnum ms₁) (fun r d' => d' = d ∧
          BFILE.IcacheOnly ms₁ r.1 ∧ MsRep xp d r.1 ∧ r.2 = DIR.dirents (dents xp d dnum)) d := fun hm =>
        twp_mono (fun _ _ ⟨hread, hr⟩ => ⟨hread.disk, hread.icache, hread.msrep, hr⟩) _ (SDIR.readdir_spec hxp hb hm hi)
      refine ⟨agree_seq (agree_read (hread h.valid.msrep) (hread h.msrep)) ?_,
        twp_seq (hread h.msrep) fun _ _ ⟨hd, _, hm, _⟩ => hd ▸ hm⟩
      rintro ⟨ms₁, _⟩ ⟨ms₁', _⟩ d₁ ⟨rfl, ⟨hic, _, rfl⟩, hic', _, rfl⟩
      exact agree_ret ⟨rfl, h.like.icacheOnly hic hic', (filled_icacheOnly hic).hints.symm⟩
  refine agree_mono (fun r r' d' ⟨⟨hr, hl, hh⟩, hv, hm⟩ => ⟨hr, hv, hm, hl, hh⟩) (agree_twp₂ hmatch.1 hvalid hmatch.2)

theorem reset_paired (hxp : xp.Ok n) (h : Paired xp ms p d) {inum : Nat} (hi : inum < xp.nInodes) :
    Agree (fun ms p d' => Paired xp ms p d') (BFILE.reset xp inum ms) ((plain xp).reset inum p) d := by
  obtain ⟨extra, hb⟩ := h.valid.brep
  refine agree_right (agree_mono (fun ms₁ ms₁' d₁ ⟨hl, hr, hr'⟩ => ?_)
    (agree_twp₂ (BFILE.reset_like hxp hb h.valid.msrep h.msrep h.like hi) (BFILE.reset_spec hxp hb h.valid.msrep hi)
      (BFILE.reset_spec hxp hb h.msrep hi)))
  refine ⟨h.valid.reset hr, hr'.msrep, hl, ?_⟩
  rw [hr.cache_eq, hintsOf_erase, h.hints]

theorem synced_settle (d : LDisk) : Synced d (settle d) := ⟨fun _ => rfl, fun _ _ => trivial⟩

/-- A disk that was committed and is read after a crash. -/
theorem paired_recovered (hb : ∃ extra, BRep xp d extra) :
    Paired xp BFILE.msEmpty (BFILE.msEmpty, fun _ => 0) (settle d) := by
  have hnone : ∀ i : Nat, BFILE.msEmpty.msCache[i]? = none := fun _ => Std.ExtTreeMap.getElem?_empty
  have hm : MsRep xp (settle d) BFILE.msEmpty := BFILE.msRep_empty xp fun _ => trivial
  obtain ⟨extra, hb⟩ := hb
  refine ⟨⟨⟨extra, (synced_settle d).brep hb⟩, hm, fun i _ _ dc hint hget => ?_⟩, hm, Like.refl _, ?_⟩
  · rw [hnone] at hget
    cases hget
  · funext i
    rw [hintsOf, hnone]
    rfl

/-- Both machines: the same disks, and memory states that match. -/
structure Both (xp : FsXparams) (s : Machine Memstate) (t : Machine Hinted) : Prop where
  now : Paired xp s.mem t.mem s.disk
  disk : t.disk = s.disk
  saved : Paired xp s.saved.1 t.saved.1 s.saved.2
  savedDisk : t.saved.2 = s.saved.2
  older : t.older = s.older
  olderRep : ∀ d ∈ s.older, ∃ extra, BRep xp d extra

theorem both_start (h : Paired xp ms p d) : Both xp (start ms d) (start p d) :=
  ⟨h, rfl, h, rfl, rfl, fun _ hd => absurd hd List.not_mem_nil⟩

variable {s : Machine Memstate} {t : Machine Hinted}

theorem Both.committed (h : Both xp s t) (k : Nat) : (((t.saved.2 :: t.older)[k]?).getD t.saved.2) =
      (((s.saved.2 :: s.older)[k]?).getD s.saved.2) ∧
    ∃ extra, BRep xp (((s.saved.2 :: s.older)[k]?).getD s.saved.2) extra := by
  refine ⟨by rw [h.savedDisk, h.older], ?_⟩
  cases hk : (s.saved.2 :: s.older)[k]? with
  | none => exact h.saved.valid.brep
  | some d =>
    rcases List.mem_cons.mp (List.mem_of_getElem? hk) with rfl | hd
    · exact h.saved.valid.brep
    · exact h.olderRep d hd

theorem Both.step (hxp : xp.Ok n) (h : Both xp s t) {e : Event} (he : Legal xp s.disk e) :
    (step (plain xp) t e).2 = (step (cached xp) s e).2 ∧ Both xp (step (cached xp) s e).1 (step (plain xp) t e).1 := by
  obtain ⟨mem, disk, saved, older⟩ := t
  obtain ⟨hnow, rfl, hsaved, hsd, rfl, hor⟩ := h
  cases e with
  | call c =>
    obtain ⟨⟨hr, hp⟩, hd⟩ := call_paired hxp hnow he
    exact ⟨congrArg (fun r => [r]) hr, hp, hd, hsaved, hsd, rfl, hor⟩
  | reset inum =>
    obtain ⟨hp, hd⟩ := reset_paired hxp hnow he
    exact ⟨rfl, hp, hd, hsaved, hsd, rfl, hor⟩
  | commit =>
    refine ⟨rfl, hnow, rfl, hnow, rfl, congrArg (· :: s.older) hsd, fun d hd => ?_⟩
    rcases List.mem_cons.mp hd with rfl | hd
    · exact hsaved.valid.brep
    · exact hor d hd
  | abort => exact ⟨rfl, hsaved, hsd, hsaved, hsd, rfl, hor⟩
  | recover k =>
    obtain ⟨hd, hb⟩ := Both.committed ⟨hnow, rfl, hsaved, hsd, rfl, hor⟩ k
    have hrec := both_start (paired_recovered hb)
    refine ⟨rfl, ?_⟩
    simp only [CacheOneDir.step, Machine.recover, hd]
    exact hrec

theorem Both.run (hxp : xp.Ok n) (h : Both xp s t) {es : List Event} (hes : LegalRun xp (cached xp) s es) :
    (run (plain xp) t es).2 = (run (cached xp) s es).2 ∧ Both xp (run (cached xp) s es).1 (run (plain xp) t es).1 := by
  induction es generalizing s t with
  | nil => exact ⟨rfl, h⟩
  | cons e es ih =>
    obtain ⟨hreply, hstep⟩ := h.step hxp hes.1
    obtain ⟨hreplies, hrun⟩ := ih hstep hes.2
    exact ⟨congrArg₂ (· ++ ·) hreply hreplies, hrun⟩

/-- A cached hint never makes `link` write over an entry in use. -/
theorem link_keeps (hxp : xp.Ok n) (h : Valid xp d ms) {dnum inum : Nat} (hi : dnum < xp.nInodes) (hok : DirOk (dents xp d dnum))
    (h0 : inum ≠ 0) (hlt : inum < 2 ^ 64) (name : Sname) (isdir : Bool) :
    Keeps (dents xp d dnum) (dents xp ((link xp dnum name inum isdir ms).run d).2 dnum) := by
  obtain ⟨extra, hb⟩ := h.brep
  have hlink : twp n (link xp dnum name inum isdir ms) (LinkDone xp dnum name (inum, isdir) ms d) d :=
    link_spec hxp hb h.msrep hi hok (h.cache dnum hi hok) h0 hlt
  exact (twp_run hlink).keeps

/-- The cache of directories does not show. -/
theorem dir_cache_transparent (hxp : xp.Ok n) (hb : BRep xp d []) (hm : MsRep xp d ms) (hc : CacheOk xp d ms) (es : List Event)
    (hes : LegalRun xp (cached xp) (start ms d) es) :
    (run (plain xp) (start (ms, hintsOf ms.msCache) d) es).2 = (run (cached xp) (start ms d) es).2 ∧
    CacheOk xp (run (cached xp) (start ms d) es).1.disk (run (cached xp) (start ms d) es).1.mem ∧
    ∀ dnum name inum isdir, CallOk xp (run (cached xp) (start ms d) es).1.disk (.link dnum name inum isdir) →
      Keeps (dents xp (run (cached xp) (start ms d) es).1.disk dnum)
        (dents xp ((link xp dnum name inum isdir (run (cached xp) (start ms d) es).1.mem).run
          (run (cached xp) (start ms d) es).1.disk).2 dnum) := by
  have hstart : Paired xp ms (ms, hintsOf ms.msCache) d := ⟨⟨⟨[], hb⟩, hm, hc⟩, hm, Like.refl ms, rfl⟩
  obtain ⟨hreplies, hboth⟩ := (both_start hstart).run hxp hes
  refine ⟨hreplies, hboth.now.valid.cache, fun dnum name inum isdir hcall => ?_⟩
  obtain ⟨hi, hok, h0, hlt⟩ := hcall
  exact link_keeps hxp hboth.now.valid hi hok h0 hlt name isdir

open BFILE (smallXp formatted formatted_done)

theorem legalRun_abort {ms : Memstate} {c c' : Call} (hc : CallOk xp d c) (hc' : CallOk xp d c') (k : Nat) :
    LegalRun xp (cached xp) (start ms d) [.call c, .abort, .call c', .recover k] :=
  ⟨hc, trivial, hc', trivial, trivial⟩

/-- A link that is aborted, a lookup, and a crash. -/
theorem dir_cache_transparent_small : ∃ es : List Event, es.length = 4 ∧
    LegalRun smallXp (cached smallXp) (start formatted.1 formatted.2) es ∧
    (run (plain smallXp) (start (formatted.1, hintsOf formatted.1.msCache) formatted.2) es).2 =
      (run (cached smallXp) (start formatted.1 formatted.2) es).2 := by
  have hnil : dents smallXp formatted.2 1 = [] := by
    rw [dents, file, formatted_done.table.blks_eq (by decide)]
    rfl
  have hdir : DirOk (dents smallXp formatted.2 1) := by
    rw [hnil]
    exact ⟨fun _ h => absurd h List.not_mem_nil, fun _ h => absurd h List.not_mem_nil, .nil⟩
  have hcache : CacheOk smallXp formatted.2 formatted.1 := fun i _ _ dc hint hget => by
    rw [formatted_done.cache_eq] at hget
    cases hget
  have hlt : 1 < smallXp.nInodes := by decide
  have hlink : CallOk smallXp formatted.2 (.link 1 [97] 5 false) := ⟨hlt, hdir, by decide, by decide⟩
  have hlookup : CallOk smallXp formatted.2 (.lookup 1 [97]) := ⟨hlt, hdir⟩
  have hes : LegalRun smallXp (cached smallXp) (start formatted.1 formatted.2) _ := legalRun_abort hlink hlookup 0
  exact ⟨_, rfl, hes,
    (dir_cache_transparent BFILE.smallXp_ok formatted_done.brep formatted_done.msrep hcache _ hes).1⟩

end Runs

end CacheOneDir

end Fscq
