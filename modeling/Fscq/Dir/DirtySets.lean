import Fscq.Dir.TreeSpec
import Fscq.Txn.Writes

/-!
# The dirty sets that programs change

A program on a file changes no other dirty set than that of the file, and adds only blocks that it writes. `DirtyRule P inum`
says that what the programs on the file `inum` do keeps `P`, a property of the addresses written so far and of the dirty
sets; then `P` holds for what they return. A program on a directory is a program on one file, too.
-/

namespace Fscq

open TxnLogic

namespace BFILE

variable {P : (Nat → Prop) → DBlocksType → Prop} {W : Nat → Prop} {ms : Memstate} {xp : FsXparams} {inum : Nat}

/-- More writes do not matter. -/
structure Growing (P : (Nat → Prop) → DBlocksType → Prop) : Prop where
  mono : ∀ {W W' db}, (∀ a, W a → W' a) → P W db → P W' db

structure DirtyRule (P : (Nat → Prop) → DBlocksType → Prop) (inum : Nat) : Prop extends Growing P where
  put : ∀ {W db bn}, W bn → P W db → P W (putDirty inum bn db)
  remove : ∀ {W db} l, P W db → P W (removeDirtyVec inum l db)

/-- A program that does not touch the dirty sets. -/
theorem Growing.after {α : Type} {db : DBlocksType} (hP : Growing P) (h : P W db) (p : TBody α) :
    Writes (fun W _ => P W db) p W := writes_of_mono hP.mono p h

/-! ## Files -/

section Reads

variable (hP : Growing P) (h : P W ms.msDBlocks)
include hP h

theorem getlen_dirty : Writes (fun W r => P W r.1.msDBlocks) (getlen xp inum ms) W :=
  writes_seq (hP.after h _) fun _ _ h' => h'

theorem read_dirty (off : Nat) : Writes (fun W r => P W r.1.msDBlocks) (read xp inum off ms) W :=
  writes_seq (hP.after h _) fun _ _ h₁ => writes_seq (hP.after h₁ _) fun _ _ h₂ => h₂

theorem write_dirty (off : Nat) (v : Valu) : Writes (fun W r => P W r.msDBlocks) (write xp inum off v ms) W :=
  writes_seq (hP.after h _) fun _ _ h₁ => writes_seq (hP.after h₁ _) fun _ _ h₂ => h₂

end Reads

section Resize

variable (hP : DirtyRule P inum) (h : P W ms.msDBlocks)
include hP h

/-- The new block is dirty, and it was written. -/
theorem grow_dirty (v : Valu) : Writes (fun W r => P W r.1.msDBlocks) (grow xp inum v ms) W := by
  refine writes_seq (hP.after h _) fun _ _ h₁ => writes_ite (writes_seq (hP.after h₁ _) fun W₂ r h₂ => ?_) h₁
  obtain ⟨cms, _ | bn⟩ := r
  · exact h₂
  · refine writes_seq (hP.after h₂ _) fun W₃ r h₃ => ?_
    obtain ⟨ic, cms', _ | _⟩ := r
    · exact h₃
    · exact hP.put (.inl rfl) (hP.mono (fun _ => .inr) h₃)

theorem shrink_dirty (nr : Nat) : Writes (fun W r => P W r.msDBlocks) (shrink xp inum nr ms) W :=
  writes_seq (hP.after h _) fun _ _ h₁ => writes_seq (hP.after h₁ _) fun _ _ h₂ =>
    writes_seq (hP.after h₂ _) fun _ _ h₃ => hP.remove _ h₃

theorem grown_dirty (l : List Valu) : Writes (fun W r => P W r.1.msDBlocks) (grown xp inum l ms) W := by
  refine writes_forN (fun i W r hr => ?_) _ _ h
  obtain ⟨ms, _ | _⟩ := r
  · exact hr
  · exact grow_dirty hP hr _

theorem truncate_dirty (newsz : Nat) : Writes (fun W r => P W r.1.msDBlocks) (truncate xp inum newsz ms) W :=
  writes_seq (getlen_dirty hP.toGrowing h) fun _ _ h₁ =>
    writes_ite (writes_seq (shrink_dirty hP h₁ _) fun _ _ h₂ => h₂) (grown_dirty hP h₁ _)

end Resize

end BFILE

open BFILE (Memstate Growing DirtyRule)

/-! ## Directories -/

section Directories

variable {P : (Nat → Prop) → DBlocksType → Prop} {W : Nat → Prop} {ms : Memstate} {xp : FsXparams} {dnum : Nat}

section Reads

variable (hP : Growing P) (h : P W ms.msDBlocks)
include hP h

theorem FileRecArray.get_dirty (R : RASig) (ix : Nat) :
    Writes (fun W r => P W r.1.msDBlocks) (FileRecArray.get R xp dnum ix ms) W :=
  writes_seq (BFILE.read_dirty hP h _) fun _ _ h' => h'

theorem FileRecArray.put_dirty (R : RASig) (ix : Nat) (item : R.Item) :
    Writes (fun W r => P W r.msDBlocks) (FileRecArray.put R xp dnum ix item ms) W :=
  writes_seq (BFILE.read_dirty hP h _) fun _ _ h' => BFILE.write_dirty hP h' _ _

theorem FileRecArray.ifind_dirty (R : RASig) (cond : R.Item → Nat → Bool) :
    Writes (fun W r => P W r.1.msDBlocks) (FileRecArray.ifind R xp dnum cond ms) W := by
  refine writes_seq (BFILE.getlen_dirty hP h) fun _ _ h₁ => writes_forN (fun i W p hp => writes_ite hp ?_) _ _ h₁
  refine writes_seq (BFILE.read_dirty hP hp _) fun _ r h' => ?_
  obtain ⟨ms', v⟩ := r
  simp only
  cases ifindList cond (R.val2block v) (i * R.itemsPerVal) <;> exact h'

theorem FileRecArray.readall_dirty (R : RASig) :
    Writes (fun W r => P W r.1.msDBlocks) (FileRecArray.readall R xp dnum ms) W := by
  refine writes_seq (BFILE.getlen_dirty hP h) fun _ _ h₁ => writes_forN (fun i W p hp => ?_) _ _ h₁
  exact writes_seq (BFILE.read_dirty hP hp _) fun _ _ h' => h'

theorem CacheOneDir.readdir_dirty : Writes (fun W r => P W r.1.msDBlocks) (CacheOneDir.readdir xp dnum ms) W := by
  have hdir : Writes (fun W r => P W r.1.msDBlocks) (DIR.readdir xp dnum ms) W :=
    writes_seq (FileRecArray.readall_dirty hP h _) fun _ _ h₁ => h₁
  exact writes_seq hdir fun _ _ h₂ => h₂

theorem CacheOneDir.getDcache_dirty : Writes (fun W r => P W r.1.msDBlocks) (CacheOneDir.getDcache xp dnum ms) W := by
  rw [CacheOneDir.getDcache]
  cases BFILE.cacheGet dnum ms with
  | none => exact writes_seq (CacheOneDir.readdir_dirty hP h) fun _ _ h₁ => h₁
  | some r => exact h

theorem CacheOneDir.lookup_dirty (name : Sname) :
    Writes (fun W r => P W r.1.msDBlocks) (CacheOneDir.lookup xp dnum name ms) W :=
  writes_seq (CacheOneDir.getDcache_dirty hP h) fun _ _ h₁ => h₁

theorem DIR.unlink_dirty (name : DIR.Filename) :
    Writes (fun W r => P W r.1.msDBlocks) (DIR.unlink xp dnum name ms) W := by
  refine writes_seq (FileRecArray.ifind_dirty hP h _ _) fun W₁ r h₁ => ?_
  obtain ⟨ms₁, _ | ⟨ix, de⟩⟩ := r
  · exact h₁
  · exact writes_seq (FileRecArray.put_dirty hP h₁ _ _ _) fun _ _ h₂ => h₂

theorem CacheOneDir.unlink_dirty (name : Sname) :
    Writes (fun W r => P W r.1.msDBlocks) (CacheOneDir.unlink xp dnum name ms) W := by
  refine writes_seq (CacheOneDir.getDcache_dirty hP h) fun W₁ r h₁ => ?_
  obtain ⟨ms₁, cache⟩ := r
  simp only
  cases cache.1[name]? with
  | none => exact h₁
  | some v =>
    have hdir : Writes (fun W r => P W r.1.msDBlocks) (SDIR.unlink xp dnum name ms₁) W₁ :=
      writes_ite (DIR.unlink_dirty hP h₁ _) h₁
    exact writes_seq hdir fun _ _ h₂ => h₂

theorem DIRTREE.namei_dirty (path : List Sname) :
    Writes (fun W r => P W r.1.msDBlocks) (DIRTREE.namei xp dnum path ms) W := by
  refine writes_seq (P := fun W (r : Memstate × Nat × Bool × Except Errno Unit) => P W r.1.msDBlocks)
    (writes_forEach (fun fn W r hr => ?_) path h) fun W₁ r h₁ => ?_
  · obtain ⟨ms, inum, isdir, _ | _⟩ := r
    · exact hr
    · refine writes_ite (writes_seq (CacheOneDir.lookup_dirty hP hr fn) fun W₂ r h₂ => ?_) hr
      obtain ⟨ms₂, _ | v⟩ := r <;> exact h₂
  · obtain ⟨ms, inum, isdir, _ | _⟩ := r <;> exact h₁

end Reads

section Link

variable (hP : DirtyRule P dnum) (h : P W ms.msDBlocks)
include hP h

theorem DIR.link'_dirty (name : DIR.Filename) (inum : Nat) (isdir : Bool) :
    Writes (fun W r => P W r.1.msDBlocks) (DIR.link' xp dnum name inum isdir ms) W := by
  refine writes_seq (FileRecArray.ifind_dirty hP.toGrowing h _ _) fun W₁ r h₁ => ?_
  obtain ⟨ms₁, _ | ⟨ix, de⟩⟩ := r
  · exact writes_seq (BFILE.grow_dirty hP h₁ _) fun _ _ h₂ => h₂
  · exact writes_seq (FileRecArray.put_dirty hP.toGrowing h₁ _ _ _) fun _ _ h₂ => h₂

theorem DIR.link_dirty (name : DIR.Filename) (inum : Nat) (isdir : Bool) (ix0 : Nat) :
    Writes (fun W r => P W r.1.msDBlocks) (DIR.link xp dnum name inum isdir ix0 ms) W := by
  refine writes_seq (BFILE.getlen_dirty hP.toGrowing h) fun _ _ h₁ => writes_ite ?_ (DIR.link'_dirty hP h₁ _ _ _)
  refine writes_seq (FileRecArray.get_dirty hP.toGrowing h₁ _ _) fun _ r h₂ => ?_
  obtain ⟨ms₂, res⟩ := r
  simp only
  cases DIR.isValid res
  · exact writes_seq (FileRecArray.put_dirty hP.toGrowing h₂ _ _ _) fun _ _ h₃ => h₃
  · exact DIR.link'_dirty hP h₂ _ _ _

theorem CacheOneDir.link_dirty (name : Sname) (inum : Nat) (isdir : Bool) :
    Writes (fun W r => P W r.1.msDBlocks) (CacheOneDir.link xp dnum name inum isdir ms) W := by
  refine writes_seq (CacheOneDir.lookup_dirty hP.toGrowing h name) fun W₁ r h₁ => ?_
  obtain ⟨ms₁, _ | v⟩ := r
  · refine writes_seq (CacheOneDir.getDcache_dirty hP.toGrowing h₁) fun W₂ r h₂ => ?_
    have hdir : Writes (fun W r => P W r.1.msDBlocks) (SDIR.link xp dnum name inum isdir r.2.2 r.1) W₂ :=
      writes_ite (DIR.link_dirty hP h₂ _ _ _ _) h₂
    refine writes_seq hdir fun W₃ r h₃ => ?_
    obtain ⟨ms₃, ix, _ | _⟩ := r <;> exact h₃
  · exact h₁

end Link

end Directories

/-! ## The rule of a file -/

namespace BFILE

variable {ms : Memstate} {xp : FsXparams} {n inum : Nat} {d : LDisk}

theorem getDirty_putDirty_of_ne {i bn : Nat} (hi : i ≠ inum) (db : DBlocksType) :
    getDirty i (putDirty inum bn db) = getDirty i db := by
  rw [getDirty, putDirty, Bufcache.getElem?_insert', if_neg fun h => hi h.symm, getDirty]

theorem getDirty_removeDirtyVec_of_ne {i : Nat} (hi : i ≠ inum) (l : List Nat) (db : DBlocksType) :
    getDirty i (removeDirtyVec inum l db) = getDirty i db := by
  rw [removeDirtyVec]
  cases db[inum]? with
  | none => rfl
  | some s => rw [getDirty, Bufcache.getElem?_insert', if_neg fun h => hi h.symm, getDirty]

/-- The dirty sets after programs on the file `inum`: the others are as in `db₀`, and what is new was written. -/
structure DirtyOnly (db₀ : DBlocksType) (inum : Nat) (W : Nat → Prop) (db : DBlocksType) : Prop where
  other : ∀ i, i ≠ inum → getDirty i db = getDirty i db₀
  written : ∀ b ∈ getDirty inum db, b ∈ getDirty inum db₀ ∨ W b

theorem dirtyOnly_refl (db₀ : DBlocksType) (inum : Nat) (W : Nat → Prop) : DirtyOnly db₀ inum W db₀ :=
  ⟨fun _ _ => rfl, fun _ => .inl⟩

theorem dirtyRule (db₀ : DBlocksType) (inum : Nat) : DirtyRule (DirtyOnly db₀ inum) inum where
  mono hW h := ⟨h.other, fun b hb => (h.written b hb).imp id (hW b)⟩
  put hw h := by
    refine ⟨fun i hi => (getDirty_putDirty_of_ne hi _).trans (h.other i hi), fun b hb => ?_⟩
    rcases mem_getDirty_putDirty.1 hb with ⟨-, rfl⟩ | hb
    · exact .inr hw
    · exact h.written b hb
  remove l h := by
    refine ⟨fun i hi => (getDirty_removeDirtyVec_of_ne hi l _).trans (h.other i hi), fun b hb => ?_⟩
    exact h.written b (mem_getDirty_removeDirtyVec.1 hb).2

theorem growing_same (db₀ : DBlocksType) : Growing fun _ db => db = db₀ := ⟨fun _ h => h⟩

/-- What a program does, with what it does to the dirty sets. -/
theorem twp_dirty {α : Type} {p : TBody α} {Q : α → LDisk → Prop} {P : (Nat → Prop) → α → Prop} (hp : twp n p Q d)
    (hd : Writes P p fun _ => False) : twp n p (fun r d' => Q r d' ∧ ∃ W, P W r ∧ ∀ a, W a → d'.plain a) d :=
  twp_writes hp hd fun _ h => h.elim

end BFILE

end Fscq
