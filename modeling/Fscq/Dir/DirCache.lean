import Fscq.Dir.DirSpec

/-!
# Directories with a cache

`CacheOneDir` keeps, for the directories it has seen, a map from names to entries in memory (`msCache`), with a hint where
a free entry may be. It is filled from the directory at the first use. `DcacheAt` says that what is cached for a directory
is the directory; the operations keep it and touch the cache of no other inode.
-/

namespace Fscq

open TxnLogic

namespace CacheOneDir

open BFILE (Memstate MsRep FileDone GrowFail cacheGet cachePut)

section Programs

variable (xp : FsXparams) (dnum : Nat)

def fillCache' : List (Sname × (Nat × Bool)) → DcacheType → DcacheType
  | [], ocache => ocache
  | f :: files, ocache => fillCache' files (ocache.insert f.1 f.2)

def fillCache (files : List (Sname × (Nat × Bool))) : DcacheType := fillCache' files ∅

def initCache (ms : Memstate) : TBody (Memstate × (DcacheType × Nat)) := do
  let (ms, files) ← SDIR.readdir xp dnum ms
  let ocache := fillCache files
  pure (cachePut dnum (ocache, 0) ms, (ocache, 0))

def getDcache (ms : Memstate) : TBody (Memstate × (DcacheType × Nat)) :=
  match cacheGet dnum ms with
  | none => initCache xp dnum ms
  | some r => pure (ms, r)

def lookup (name : Sname) (ms : Memstate) : TBody (Memstate × Option (Nat × Bool)) := do
  let (ms, cache) ← getDcache xp dnum ms
  pure (ms, cache.1[name]?)

def unlink (name : Sname) (ms : Memstate) : TBody (Memstate × Except Errno Unit) := do
  let (ms, cache) ← getDcache xp dnum ms
  match cache.1[name]? with
  | none => pure (ms, .error .ENOENT)
  | some _ => do
    let (ms, ix, r) ← SDIR.unlink xp dnum name ms
    pure (cachePut dnum (cache.1.erase name, ix) ms, r)

/-- Link, when the name is not there. -/
def link' (name : Sname) (inum : Nat) (isdir : Bool) (ms : Memstate) : TBody (Memstate × Except Errno Unit) := do
  let (ms, cache) ← getDcache xp dnum ms
  let (ms, ix, r) ← SDIR.link xp dnum name inum isdir cache.2 ms
  match r with
  | .error e => pure (ms, .error e)
  | .ok _ => pure (cachePut dnum (cache.1.insert name (inum, isdir), ix) ms, r)

def link (name : Sname) (inum : Nat) (isdir : Bool) (ms : Memstate) : TBody (Memstate × Except Errno Unit) := do
  let (ms, lookupRes) ← lookup xp dnum name ms
  match lookupRes with
  | some _ => pure (ms, .error .EEXIST)
  | none => link' xp dnum name inum isdir ms

def readdir (ms : Memstate) : TBody (Memstate × List (Sname × (Nat × Bool))) := SDIR.readdir xp dnum ms

end Programs

/-! ## The cache -/

open DIR (dents DirOk dirMap dirents DirDone Linked Unlinked)
open FileRecArray (ReadDone)

/-- What is cached for the directory is the directory. -/
def DcacheAt (xp : FsXparams) (d : LDisk) (dnum : Nat) (ms : Memstate) : Prop :=
  ∀ dc hint, ms.msCache[dnum]? = some (dc, hint) → ∀ name, dc[name]? = dirMap (dents xp d dnum) name

theorem getElem?_dcache_insert (m : DcacheType) (k a : Sname) (v : Nat × Bool) :
    (m.insert k v)[a]? = if k = a then some v else m[a]? := by
  rw [Std.ExtTreeMap.getElem?_insert]
  simp

theorem getElem?_dcache_erase (m : DcacheType) (k a : Sname) : (m.erase k)[a]? = if k = a then none else m[a]? := by
  rw [Std.ExtTreeMap.getElem?_erase]
  simp

theorem getElem?_cachePut (dnum : Nat) (dc : DcacheType × Nat) (ms : Memstate) (i : Nat) :
    (cachePut dnum dc ms).msCache[i]? = if dnum = i then some dc else ms.msCache[i]? :=
  Bufcache.getElem?_insert' _ _ _ _

theorem getElem?_fillCache' {name : Sname} : ∀ {files : List (Sname × (Nat × Bool))} {dc : DcacheType},
    (files.map Prod.fst).Nodup → (fillCache' files dc)[name]? = (files.lookup name).or dc[name]?
  | [], dc, _ => rfl
  | (s, v) :: files, dc, hnd => by
    rw [List.map_cons, List.nodup_cons] at hnd
    rw [fillCache', getElem?_fillCache' hnd.2, getElem?_dcache_insert, List.lookup_cons]
    by_cases hs : s = name
    · subst hs
      simp only [beq_self_eq_true, if_pos, lookup_eq_none_iff_not_mem.mpr hnd.1, Option.none_or, Option.some_or]
    · have hbeq : (name == s) = false := by simpa using fun h => hs h.symm
      simp only [hbeq, if_neg hs]

theorem getElem?_fillCache {name : Sname} {files : List (Sname × (Nat × Bool))} (hnd : (files.map Prod.fst).Nodup) :
    (fillCache files)[name]? = files.lookup name := by
  rw [fillCache, getElem?_fillCache' hnd, Std.ExtTreeMap.getElem?_empty, Option.or_none]

/-- The map after an entry is added. -/
theorem dirMap_linked {des des' : List DIR.Dent} {name : Sname} {v : Nat × Bool} (hok' : DirOk des')
    (hp : (dirents des').Perm ((name, v) :: dirents des)) (s : Sname) :
    dirMap des' s = if name = s then some v else dirMap des s := by
  rw [dirMap, lookup_perm hok'.nodup hp, List.lookup_cons, dirMap]
  by_cases hs : name = s
  · subst hs
    simp
  · have hbeq : (s == name) = false := by simpa using fun h => hs h.symm
    simp only [hbeq, if_neg hs]

/-- The map after an entry is removed. -/
theorem dirMap_unlinked {des des' : List DIR.Dent} {name : Sname} {v : Nat × Bool} (hok : DirOk des)
    (hp : (dirents des).Perm ((name, v) :: dirents des')) (s : Sname) :
    dirMap des' s = if name = s then none else dirMap des s := by
  have hnd := (hp.map Prod.fst).nodup_iff.mp hok.nodup
  rw [List.map_cons, List.nodup_cons] at hnd
  rw [dirMap, dirMap, lookup_perm hok.nodup hp, List.lookup_cons]
  by_cases hs : name = s
  · subst hs
    simp only [if_pos, lookup_eq_none_iff_not_mem.mpr hnd.1]
  · have hbeq : (s == name) = false := by simpa using fun h => hs h.symm
    simp only [hbeq, if_neg hs]

/-! ## The operations -/

/-- The state after a program on the directory `dnum`: it is a directory, what is cached for it is the directory, and the
other files and what is cached for them are as before. -/
structure DirKept (xp : FsXparams) (dnum : Nat) (ms : Memstate) (d : LDisk) (ms' : Memstate) (d' : LDisk) : Prop
    extends FileStep xp ms.msAlloc dnum (file xp d' dnum) d d' where
  attr : (file xp d' dnum).attr = (file xp d dnum).attr
  dirOk : DirOk (dents xp d' dnum)
  msrep : MsRep xp d' ms'
  alloc_eq : ms'.msAlloc = ms.msAlloc
  iallocC_eq : ms'.msIAllocC = ms.msIAllocC
  cache_other : ∀ j, j ≠ dnum → ms'.msCache[j]? = ms.msCache[j]?
  dcache : DcacheAt xp d' dnum ms'

variable {xp : FsXparams} {n dnum : Nat} {d d₁ d' : LDisk} {ms ms₁ ms' : Memstate}

theorem DirKept.trans (h₁ : DirKept xp dnum ms d ms₁ d₁) (h₂ : DirKept xp dnum ms₁ d₁ ms' d') :
    DirKept xp dnum ms d ms' d' where
  toFileStep := h₁.toFileStep.trans (h₁.alloc_eq ▸ h₂.toFileStep)
  attr := h₂.attr.trans h₁.attr
  dirOk := h₂.dirOk
  msrep := h₂.msrep
  alloc_eq := h₂.alloc_eq.trans h₁.alloc_eq
  iallocC_eq := h₂.iallocC_eq.trans h₁.iallocC_eq
  cache_other j hj := (h₂.cache_other j hj).trans (h₁.cache_other j hj)
  dcache := h₂.dcache

/-- The caches do not depend on the cached entries. -/
theorem msRep_cachePut {dc : DcacheType × Nat} (hm : MsRep xp d ms) : MsRep xp d (cachePut dnum dc ms) :=
  ⟨hm.alloc, hm.ialloc, hm.icache, hm.dirty, hm.clean⟩

theorem dcacheAt_cachePut {dc : DcacheType} {hint : Nat} (h : ∀ name, dc[name]? = dirMap (dents xp d dnum) name) :
    DcacheAt xp d dnum (cachePut dnum (dc, hint) ms) := by
  intro dc' hint' hget name
  rw [getElem?_cachePut, if_pos rfl] at hget
  cases hget
  exact h name

/-- The cache of the directory after a program of the layer below. -/
theorem dirKept_cachePut {dc : DcacheType} {hint : Nat} (hdone : DirDone xp dnum ms d ms' d')
    (h : ∀ name, dc[name]? = dirMap (dents xp d' dnum) name) : DirKept xp dnum ms d (cachePut dnum (dc, hint) ms') d' where
  toFileStep := hdone.done.toFileStep
  attr := hdone.attr
  dirOk := hdone.dirOk
  msrep := msRep_cachePut hdone.done.msrep
  alloc_eq := hdone.done.alloc_eq
  iallocC_eq := hdone.done.iallocC_eq
  cache_other j hj := by rw [getElem?_cachePut, if_neg fun h => hj h.symm, hdone.done.cache_eq]
  dcache := dcacheAt_cachePut h

/-- What `link` returns. When it fails the cache is filled, and no file has changed. -/
structure LinkDone (xp : FsXparams) (dnum : Nat) (name : Sname) (v : Nat × Bool) (ms : Memstate) (d : LDisk)
    (r : Memstate × Except Errno Unit) (d' : LDisk) : Prop where
  ok : r.2 = .ok () → dirMap (dents xp d dnum) name = none ∧ DirKept xp dnum ms d r.1 d' ∧
    (dirents (dents xp d' dnum)).Perm ((name, v) :: dirents (dents xp d dnum))
  error : ∀ e, r.2 = .error e → ∃ ms₁, DirKept xp dnum ms d ms₁ d ∧
    (r.1 = ms₁ ∧ d' = d ∨ GrowFail xp dnum ms₁ d r.1 d')
  keeps : DIR.Keeps (dents xp d dnum) (dents xp d' dnum)

section Specs

variable {extra : List Nat} (hxp : xp.Ok n) (hb : BRep xp d extra) (hm : MsRep xp d ms) (hi : dnum < xp.nInodes)
  (hok : DirOk (dents xp d dnum)) (hc : DcacheAt xp d dnum ms)
include hok

theorem dirDone_read (hread : ReadDone xp ms d ms' d') : DirDone xp dnum ms d ms' d := by
  obtain ⟨rfl, hic, hm'⟩ := hread
  exact ⟨BFILE.fileDone_icacheOnly hic hm', rfl, hok⟩

include hc

theorem dirKept_read (hread : ReadDone xp ms d ms' d') : DirKept xp dnum ms d ms' d where
  toFileStep := BFILE.fileStep_refl _
  attr := rfl
  dirOk := hok
  msrep := hread.msrep
  alloc_eq := (dirDone_read hok hread).done.alloc_eq
  iallocC_eq := (dirDone_read hok hread).done.iallocC_eq
  cache_other j _ := by rw [(dirDone_read hok hread).done.cache_eq]
  dcache dc hint hget := by
    rw [(dirDone_read hok hread).done.cache_eq] at hget
    exact hc dc hint hget

include hxp hb hm hi

theorem readdir_spec : twp n (readdir xp dnum ms) (fun r d' => d' = d ∧ DirKept xp dnum ms d r.1 d ∧
    r.2 = dirents (dents xp d dnum)) d :=
  twp_mono (fun _ _ ⟨hread, hr⟩ => ⟨hread.disk, dirKept_read hok hc hread, hr⟩) _ (SDIR.readdir_spec hxp hb hm hi)

theorem getDcache_spec : twp n (getDcache xp dnum ms) (fun r d' => d' = d ∧ DirKept xp dnum ms d r.1 d ∧
    ∀ name, r.2.1[name]? = dirMap (dents xp d dnum) name) d := by
  rw [getDcache]
  cases hget : cacheGet dnum ms with
  | none =>
    refine twp_seq (SDIR.readdir_spec hxp hb hm hi) fun ⟨ms₁, files⟩ d₁ ⟨hread, hfiles⟩ => ?_
    obtain rfl : files = dirents (dents xp d dnum) := hfiles
    have hfill : ∀ name, (fillCache (dirents (dents xp d dnum)))[name]? = dirMap (dents xp d dnum) name :=
      fun name => getElem?_fillCache hok.nodup
    exact ⟨hread.disk, dirKept_cachePut (dirDone_read hok hread) hfill, hfill⟩
  | some r =>
    exact ⟨rfl, dirKept_read hok hc (FileRecArray.readDone_refl hm), fun name => hc r.1 r.2 hget name⟩

theorem lookup_spec (name : Sname) : twp n (lookup xp dnum name ms) (fun r d' => d' = d ∧ DirKept xp dnum ms d r.1 d ∧
    r.2 = dirMap (dents xp d dnum) name) d :=
  twp_seq (getDcache_spec hxp hb hm hi hok hc) fun _ _ ⟨hd, hkept, hr⟩ => ⟨hd, hkept, hr name⟩

theorem unlink_spec (name : Sname) : twp n (unlink xp dnum name ms) (fun r d' =>
    (∀ v, dirMap (dents xp d dnum) name = some v → r.2 = .ok () ∧ DirKept xp dnum ms d r.1 d' ∧
      (dirents (dents xp d dnum)).Perm ((name, v) :: dirents (dents xp d' dnum))) ∧
    (dirMap (dents xp d dnum) name = none → r.2 = .error .ENOENT ∧ d' = d ∧ DirKept xp dnum ms d r.1 d)) d := by
  refine twp_seq (getDcache_spec hxp hb hm hi hok hc) fun ⟨ms₁, dc, hint⟩ d₁ ⟨hd, hkept, hdc⟩ => ?_
  subst hd
  simp only at hdc ⊢
  rw [hdc name]
  cases hmap : dirMap (dents xp d₁ dnum) name with
  | none => exact ⟨fun _ h => (nomatch h), fun _ => ⟨rfl, rfl, hkept⟩⟩
  | some v =>
    refine twp_seq (SDIR.unlink_spec hxp hb hkept.msrep hi hok hmap) fun ⟨ms₂, ix, r⟩ d₂ ⟨hr, hun⟩ => ?_
    refine ⟨fun v' hv' => ?_, fun h => nomatch h⟩
    cases hv'
    refine ⟨hr, hkept.trans (dirKept_cachePut hun.toDirDone fun s => ?_), hun.perm⟩
    rw [getElem?_dcache_erase, hdc, dirMap_unlinked hok hun.perm]

theorem link_spec {name : Sname} {inum : Nat} {isdir : Bool} (h0 : inum ≠ 0) (hlt : inum < 2 ^ 64) :
    twp n (link xp dnum name inum isdir ms) (LinkDone xp dnum name (inum, isdir) ms d) d := by
  refine twp_seq (lookup_spec hxp hb hm hi hok hc name) fun ⟨ms₁, res⟩ d₁ ⟨hd, hkept₁, hres⟩ => ?_
  subst hd
  obtain rfl : res = _ := hres
  simp only
  cases hmap : dirMap (dents xp d₁ dnum) name with
  | some v => exact ⟨fun h => (nomatch h), fun _ _ => ⟨ms₁, hkept₁, .inl ⟨rfl, rfl⟩⟩, fun _ _ hix _ => hix⟩
  | none =>
    refine twp_seq (getDcache_spec hxp hb hkept₁.msrep hi hok hkept₁.dcache) fun ⟨ms₂, dc, hint⟩ d₂ ⟨hd, hkept₂, hdc⟩ => ?_
    subst hd
    have hkept := hkept₁.trans hkept₂
    refine twp_seq (SDIR.link_spec hxp hb hkept₂.msrep hi hok h0 hlt hmap hint) fun ⟨ms₃, ix, r⟩ d₃ hlink => ?_
    cases r with
    | error e =>
      refine ⟨fun h => (nomatch h), fun _ _ => ⟨ms₂, hkept, ?_⟩, hlink.keeps⟩
      exact (hlink.error e rfl).imp (fun h => h.2) id
    | ok _ =>
      have hl := hlink.ok rfl
      refine ⟨fun _ => ⟨hmap, hkept.trans (dirKept_cachePut hl.toDirDone fun s => ?_), hl.perm⟩, fun _ h => (nomatch h),
        hlink.keeps⟩
      rw [getElem?_dcache_insert, hdc, dirMap_linked hl.dirOk hl.perm]

end Specs

end CacheOneDir

end Fscq
