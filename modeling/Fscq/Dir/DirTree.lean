import Fscq.Dir.NodeSpec

/-!
# The operations on directory trees

`namei` resolves a path, `mkfile` and `mkdir` allocate an inode and link it, `delete` removes a file or an empty directory
and `rename` moves an entry, removing the one it replaces. Each of them runs inside a transaction.
-/

namespace Fscq

open TxnLogic BFILE

namespace DIRTREE

section Programs

variable (xp : FsXparams) (dnum : Nat)

def nameiStep (fn : Sname) : Memstate × Nat × Bool × Except Errno Unit → TBody (Memstate × Nat × Bool × Except Errno Unit)
  | (ms, inum, isdir, .error e) => pure (ms, inum, isdir, .error e)
  | (ms, inum, isdir, .ok _) =>
    if isdir = true then do
      let (ms, r) ← CacheOneDir.lookup xp inum fn ms
      match r with
      | some (inum, isdir) => pure (ms, inum, isdir, .ok ())
      | none => pure (ms, inum, isdir, .error .ENOENT)
    else pure (ms, inum, isdir, .error .ENOTDIR)

def namei (fnlist : List Sname) (ms : Memstate) : TBody (Memstate × Except Errno (Nat × Bool)) := do
  let (ms, inum, isdir, valid) ← .forEach (nameiStep xp) fnlist (ms, dnum, true, .ok ())
  match valid with
  | .ok _ => pure (ms, .ok (inum, isdir))
  | .error e => pure (ms, .error e)

/-- `mkfile` and `mkdir` differ in the flag of the new entry. -/
def mknode (isdir : Bool) (name : Sname) (fms : Memstate) : TBody (Memstate × Except Errno Nat) := do
  let (ialc, oi) ← IAlloc.alloc xp fms.msIAllocC
  let fms := { fms with msIAllocC := ialc }
  match oi with
  | none => pure (fms, .error .ENOSPCINODE)
  | some inum => do
    let (fms, ok) ← CacheOneDir.link xp dnum name inum isdir fms
    match ok with
    | .ok _ => pure (fms, .ok inum)
    | .error e => pure (fms, .error e)

def mkfile (name : Sname) (fms : Memstate) : TBody (Memstate × Except Errno Nat) := mknode xp dnum false name fms

def mkdir (name : Sname) (fms : Memstate) : TBody (Memstate × Except Errno Nat) := mknode xp dnum true name fms

/-- If the inode may be removed: a file, or an empty directory. -/
def deletable (inum : Nat) (isdir : Bool) (ms : Memstate) : TBody (Memstate × Bool) :=
  if isdir = false then pure (ms, true)
  else do
    let (ms, l) ← CacheOneDir.readdir xp inum ms
    match l with
    | [] => pure (ms, true)
    | _ :: _ => pure (ms, false)

/-- Empty the file and free its inode. -/
def resetFree (inum : Nat) (ms : Memstate) : TBody Memstate := do
  let ms ← BFILE.reset xp inum ms
  let ialc ← IAlloc.free xp inum ms.msIAllocC
  pure { ms with msIAllocC := ialc }

def delete (name : Sname) (ms : Memstate) : TBody (Memstate × Except Errno Unit) := do
  let (ms, oi) ← CacheOneDir.lookup xp dnum name ms
  match oi with
  | none => pure (ms, .error .ENOENT)
  | some (inum, isdir) => do
    let (ms, ok) ← deletable xp inum isdir ms
    if ok = false then pure (ms, .error .ENOTEMPTY)
    else do
      let (ms, ok) ← CacheOneDir.unlink xp dnum name ms
      match ok with
      | .ok _ => do
        let ms ← resetFree xp inum ms
        pure (ms, .ok ())
      | .error e => pure (ms, .error e)

/-- The second half of `rename`: the entry is already unlinked, and goes to `dstname` in `ddst`. -/
def renameTo (ddst : Nat) (dstname : Sname) (inum : Nat) (isdir : Bool) (ms : Memstate) :
    TBody (Memstate × Except Errno Unit) := do
  let (ms, odst) ← CacheOneDir.lookup xp ddst dstname ms
  match odst with
  | none => CacheOneDir.link xp ddst dstname inum isdir ms
  | some _ => do
    let (ms, ok) ← delete xp ddst dstname ms
    match ok with
    | .ok _ => CacheOneDir.link xp ddst dstname inum isdir ms
    | .error e => pure (ms, .error e)

def rename (srcpath : List Sname) (srcname : Sname) (dstpath : List Sname) (dstname : Sname) (ms : Memstate) :
    TBody (Memstate × Except Errno Unit) := do
  let (ms, osrcdir) ← namei xp dnum srcpath ms
  match osrcdir with
  | .error _ => pure (ms, .error .ENOENT)
  | .ok (_, false) => pure (ms, .error .ENOTDIR)
  | .ok (dsrc, true) => do
    let (ms, osrc) ← CacheOneDir.lookup xp dsrc srcname ms
    match osrc with
    | none => pure (ms, .error .ENOENT)
    | some (inum, inumIsdir) => do
      -- the result of the unlink is not looked at
      let (ms, _) ← CacheOneDir.unlink xp dsrc srcname ms
      let (ms, odstdir) ← namei xp dnum dstpath ms
      match odstdir with
      | .error _ => pure (ms, .error .ENOENT)
      | .ok (_, false) => pure (ms, .error .ENOTDIR)
      | .ok (ddst, true) => renameTo xp ddst dstname inum inumIsdir ms

end Programs

/-! ## The operations on nodes -/

open Dirtree (Kind)
open NodeRep (lookup_spec readdir_spec unlink_spec link_spec ialloc_spec)

variable {xp : FsXparams} {n dnum : Nat} {d : LDisk} {ms : Memstate} {Z : FsNodes} {ents : List (Sname × (Nat × Bool))}

/-- What a new node is. -/
def newKind (isdir : Bool) : FsKind := if isdir then .dir [] else .file dirfile0

theorem newKind_or (isdir : Bool) : newKind isdir = .file dirfile0 ∨ newKind isdir = .dir [] := by
  cases isdir
  · exact .inl rfl
  · exact .inr rfl

/-- The entry of a directory says what the node is. -/
structure EntryOk (Z : FsNodes) (dnum : Nat) (v : Nat × Bool) : Prop where
  ne : v.1 ≠ dnum
  node : ∃ c, Z v.1 = some c ∧ c.isdir = v.2

variable (hxp : xp.Ok n) (hr : NodeRep xp d ms Z)
include hxp hr

theorem mknode_spec (hino : xp.nInodes ≤ 2 ^ 64) (hi : Z dnum = some (.dir ents)) (isdir : Bool) (name : Sname) :
    twp n (mknode xp dnum isdir name ms) (fun r d' => ∀ inum, r.2 = .ok inum →
      Z inum = none ∧ ents.lookup name = none ∧ ∀ ents', ents'.Perm ((name, (inum, isdir)) :: ents) →
        NodeDone xp (Function.update (Function.update Z inum (some (newKind isdir))) dnum (some (.dir ents'))) ms d r.1 d') d := by
  refine twp_seq (ialloc_spec hxp hr) fun ⟨ialc, oi⟩ d₁ halloc => ?_
  cases oi with
  | none => exact fun _ h => nomatch h
  | some inum =>
    obtain ⟨hz, h0, hlt, _, hdone⟩ := halloc inum rfl
    have hdone₁ := hdone _ (newKind_or isdir)
    have hne : dnum ≠ inum := by
      rintro rfl
      rw [hz] at hi
      cases hi
    have hi₁ : Function.update Z inum (some (newKind isdir)) dnum = some (.dir ents) := by
      rw [Function.update_of_ne hne, hi]
    refine twp_seq (link_spec hxp hdone₁.rep hi₁ h0 (by omega)) fun ⟨ms₂, ok⟩ d₂ hlink => ?_
    cases ok with
    | error e => exact fun _ h => nomatch h
    | ok _ =>
      intro inum' hres
      cases hres
      obtain ⟨hno, hlinked⟩ := hlink rfl
      exact ⟨hz, hno, fun ents' hperm => hdone₁.trans (hlinked ents' hperm)⟩

theorem deletable_spec {v : Nat × Bool} (hv : EntryOk Z dnum v) :
    twp n (deletable xp v.1 v.2 ms) (fun r d' => d' = d ∧ NodeDone xp Z ms d r.1 d ∧
      (r.2 = true → v.2 = true → Z v.1 = some (.dir []))) d := by
  rw [deletable]
  obtain ⟨c, hc, hkind⟩ := hv.node
  split
  · rename_i hf
    refine ⟨rfl, .refl hr, fun _ ht => ?_⟩
    rw [hf] at ht
    cases ht
  · rename_i hf
    cases c with
    | file f => exact absurd hkind.symm hf
    | dir ents' =>
      refine twp_seq (readdir_spec hxp hr hc) fun ⟨ms₁, l⟩ d₁ ⟨hd, hdone, hperm⟩ => ?_
      cases l with
      | nil =>
        refine ⟨hd, hdone, fun _ _ => ?_⟩
        rw [hc, List.nil_perm.mp hperm]
      | cons a l => exact ⟨hd, hdone, fun h => nomatch h⟩

theorem delete_spec {name : Sname} (hi : Z dnum = some (.dir ents)) (hents : ∀ v, ents.lookup name = some v → EntryOk Z dnum v) :
    twp n (delete xp dnum name ms) (fun r d' => r.2 = .ok () → ∃ v, ents.lookup name = some v ∧
      (v.2 = true → Z v.1 = some (.dir [])) ∧ ∀ ents', ents.Perm ((name, v) :: ents') →
        NodeDone xp (Function.update (Function.update Z dnum (some (.dir ents'))) v.1 none) ms d r.1 d') d := by
  refine twp_seq (lookup_spec hxp hr hi name) fun ⟨ms₁, oi⟩ d₁ ⟨hd, hdone₁, hlook⟩ => ?_
  subst hd
  obtain rfl : oi = ents.lookup name := hlook
  simp only
  cases hv : ents.lookup name with
  | none => exact fun h => nomatch h
  | some v =>
    have hent := hents _ hv
    refine twp_seq (deletable_spec hxp hdone₁.rep hent) fun ⟨ms₂, ok⟩ d₂ ⟨hd, hdone₂, hempty⟩ => ?_
    subst hd
    simp only
    cases ok with
    | false => exact fun h => nomatch h
    | true =>
      refine twp_seq (unlink_spec hxp hdone₂.rep hi hv) fun ⟨ms₃, r⟩ d₃ ⟨hok, hdone₃⟩ => ?_
      obtain rfl : r = .ok () := hok
      obtain ⟨c, hc, _⟩ := hent.node
      have hmem := (lookup_eq_some_iff_mem (hr.names_nodup hi)).mp hv
      have : Nonempty { ents' // ents.Perm ((name, v) :: ents') } := ⟨⟨_, List.perm_cons_erase hmem⟩⟩
      -- the unlinked node is still a node, and now its inode becomes free
      refine twp_seq (twp_forall fun x : { ents' // ents.Perm ((name, v) :: ents') } =>
        NodeRep.resetFree_spec (c := c) hxp (hdone₃ x.1 x.2).rep (by rw [Function.update_of_ne hent.ne, hc]))
        fun ms₄ d₄ hdone₄ _ => ?_
      refine ⟨v, rfl, hempty rfl, fun ents' hperm => ?_⟩
      exact ((hdone₁.trans hdone₂).trans (hdone₃ ents' hperm)).trans (hdone₄ ⟨ents', hperm⟩)

theorem renameTo_spec {ddst inum : Nat} {dstname : Sname} (hi : Z ddst = some (.dir ents))
    (hents : ∀ v, ents.lookup dstname = some v → EntryOk Z ddst v) (isdir : Bool) (h0 : inum ≠ 0)
    (hlt : inum < 2 ^ 64) : twp n (renameTo xp ddst dstname inum isdir ms) (fun r d' => r.2 = .ok () →
      (ents.lookup dstname = none ∧ ∀ ents', ents'.Perm ((dstname, (inum, isdir)) :: ents) →
        NodeDone xp (Function.update Z ddst (some (.dir ents'))) ms d r.1 d') ∨
      ∃ v, ents.lookup dstname = some v ∧ (v.2 = true → Z v.1 = some (.dir [])) ∧
        ∀ ents₀ ents', ents.Perm ((dstname, v) :: ents₀) → ents'.Perm ((dstname, (inum, isdir)) :: ents₀) →
          NodeDone xp (Function.update (Function.update Z v.1 none) ddst (some (.dir ents'))) ms d r.1 d') d := by
  refine twp_seq (lookup_spec hxp hr hi dstname) fun ⟨ms₁, odst⟩ d₁ ⟨hd, hdone₁, hlook⟩ => ?_
  subst hd
  obtain rfl : odst = ents.lookup dstname := hlook
  simp only
  cases hv : ents.lookup dstname with
  | none =>
    refine twp_mono (fun r d' hlink hok => .inl ⟨rfl, fun ents' hperm => ?_⟩) _ (link_spec hxp hdone₁.rep hi h0 hlt)
    exact hdone₁.trans ((hlink hok).2 ents' hperm)
  | some v =>
    refine twp_seq (delete_spec hxp hdone₁.rep hi hents) fun ⟨ms₂, r⟩ d₂ hdel => ?_
    cases r with
    | error e => exact fun h => nomatch h
    | ok _ =>
      obtain ⟨v', hv', hempty, hdone₂⟩ := hdel rfl
      rw [hv] at hv'
      cases hv'
      have hne := (hents v hv).ne
      have hmem := (lookup_eq_some_iff_mem (hr.names_nodup hi)).mp hv
      have : Nonempty { ents₀ // ents.Perm ((dstname, v) :: ents₀) } := ⟨⟨_, List.perm_cons_erase hmem⟩⟩
      have hdir : ∀ ents₀, Function.update (Function.update Z ddst (some (.dir ents₀))) v.1 none ddst = some (.dir ents₀) :=
        fun ents₀ => by rw [Function.update_of_ne hne.symm, Function.update_self]
      refine twp_mono (fun r d' hlink hok => .inr ⟨v, rfl, hempty, fun ents₀ ents' hperm₀ hperm => ?_⟩) _
        (twp_forall fun x : { ents₀ // ents.Perm ((dstname, v) :: ents₀) } =>
          link_spec hxp (hdone₂ x.1 x.2).rep (hdir x.1) h0 hlt)
      have hdone₃ := (hlink ⟨ents₀, hperm₀⟩ hok).2 ents' hperm
      rw [Function.update_comm hne, Function.update_idem, Function.update_comm hne.symm] at hdone₃
      exact (hdone₁.trans (hdone₂ ents₀ hperm₀)).trans hdone₃

end DIRTREE

end Fscq
