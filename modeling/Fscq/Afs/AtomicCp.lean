import Fscq.Afs.ByteCalls
import Fscq.Afs.FirstFile
import Fscq.Afs.TempFile

/-!
# Atomic copy

`atomicCp` copies a file: it writes the copy to a temporary file in the root and renames that to the destination. The version
of `AtomicCp.v` copies one block, and the one of `ByteAtomicCp.v` all bytes. After a power failure `atomicCpRecover` mounts
the file system and removes the temporary file. However often the power fails, the destination then is as it was before, or
the whole copy (`atomic_cp_crash_safe`).
-/

namespace Fscq

open TxnLogic CrashLogic
open Dirtree (findSubtree findDirlist findName addToDir)
open AFS (Memstate tenBytes bytes_tenBytes)
open INODE (ABytes)
open FsRun (Result)
open Bytefile (bytesOf length_bytesOf)
open BFILE (resize)

/-! ## The programs -/

namespace ATOMICCP

/-- The bytes of `.temp`. -/
def tempFn : Sname := [46, 116, 101, 109, 112]

def Off0 : Nat := 0

section Programs

variable (shouldFlushall : Bool) (xp : FsXparams) (theDnum srcInum tinum : Nat)

/-- Copies an existing source into an existing, empty destination. -/
def copydata (mscs : Memstate) : FProg (Memstate × Except Errno Unit) := do
  let (mscs, attr) ← AFS.fileGetAttr xp srcInum mscs
  let (mscs, b) ← AFS.readFblock xp srcInum Off0 mscs
  let mscs ← AFS.updateFblockD xp tinum Off0 b mscs
  let mscs ← AFS.fileSync xp tinum mscs
  let (mscs, ok) ← AFS.fileSetAttr shouldFlushall xp tinum attr mscs
  pure (mscs, ok)

def copy2temp (mscs : Memstate) : FProg (Memstate × Bool) := do
  let (mscs, ok) ← AFS.fileTruncate shouldFlushall xp tinum 1 mscs
  match ok with
  | .error _ => pure (mscs, false)
  | .ok _ => do
    let (mscs, ok) ← copydata shouldFlushall xp srcInum tinum mscs
    match ok with
    | .error _ => pure (mscs, false)
    | .ok _ => pure (mscs, true)

def copyAndRename (dstbase : List Sname) (dstname : Sname) (mscs : Memstate) : FProg (Memstate × Bool) := do
  let (mscs, ok) ← copy2temp shouldFlushall xp srcInum tinum mscs
  match ok with
  | false => do
    let mscs ← AFS.treeSync xp mscs
    pure (mscs, false)
  | true => do
    let (mscs, r) ← AFS.rename shouldFlushall xp theDnum [] tempFn dstbase dstname mscs
    match r with
    | .ok _ => do
      let mscs ← AFS.treeSync xp mscs
      pure (mscs, true)
    | .error _ => do
      let mscs ← AFS.treeSync xp mscs
      pure (mscs, false)

omit tinum

def atomicCp (dstbase : List Sname) (dstname : Sname) (mscs : Memstate) : FProg (Memstate × Bool) := do
  let (mscs, r) ← AFS.create shouldFlushall xp theDnum tempFn mscs
  match r with
  | .error _ => pure (mscs, false)
  | .ok tinum => do
    let mscs ← AFS.treeSync xp mscs
    let (mscs, ok) ← copyAndRename shouldFlushall xp theDnum srcInum tinum dstbase dstname mscs
    pure (mscs, ok)

end Programs

/-- Mounts the file system, and removes the temporary file. -/
def atomicCpRecover (shouldFlushall : Bool) (theDnum cachesize : Nat) : FProg (Except Errno (Memstate × FsXparams)) := do
  let recoverRes ← AFS.recover cachesize
  match recoverRes with
  | .error e => pure (.error e)
  | .ok (mscs, fsxp) => do
    let (mscs, r) ← AFS.lookup fsxp theDnum [tempFn] mscs
    match r with
    | .error _ => pure (.ok (mscs, fsxp))
    | .ok _ => do
      let (mscs, ok) ← AFS.delete shouldFlushall fsxp theDnum tempFn mscs
      let mscs ← AFS.treeSync fsxp mscs
      match ok with
      | .error e => pure (.error e)
      | .ok _ => pure (.ok (mscs, fsxp))

end ATOMICCP

namespace Bytefile

section Programs

variable (shouldFlushall : Bool) (xp : FsXparams) (theDnum srcInum tinum : Nat)

def copydata (mscs : Memstate) : FProg (Memstate × Except Errno Unit) := do
  let (mscs, attr) ← AFS.fileGetAttr xp srcInum mscs
  let (mscs, data) ← read xp srcInum 0 (ABytes attr).toNat mscs
  let mscs ← dwrite xp tinum 0 data mscs
  let mscs ← AFS.fileSync xp tinum mscs
  let (mscs, ok) ← AFS.fileSetAttr shouldFlushall xp tinum attr mscs
  pure (mscs, ok)

def copy2temp (mscs : Memstate) : FProg (Memstate × Except Errno Unit) := do
  let (mscs, attr) ← AFS.fileGetAttr xp srcInum mscs
  let (mscs, ok) ← AFS.fileTruncate shouldFlushall xp tinum (roundup (ABytes attr).toNat valubytes / valubytes) mscs
  match ok with
  | .error _ => pure (mscs, ok)
  | .ok _ => do
    let (mscs, tattr) ← AFS.fileGetAttr xp tinum mscs
    let (mscs, ok) ← AFS.fileSetAttr shouldFlushall xp tinum (ABytes attr, tattr.2) mscs
    match ok with
    | .ok _ => do
      let (mscs, ok) ← copydata shouldFlushall xp srcInum tinum mscs
      pure (mscs, ok)
    | .error _ => pure (mscs, ok)

def copyAndRename (dstbase : List Sname) (dstname : Sname) (mscs : Memstate) : FProg (Memstate × Except Errno Unit) := do
  let (mscs, ok) ← copy2temp shouldFlushall xp srcInum tinum mscs
  match ok with
  | .error _ => do
    let mscs ← AFS.treeSync xp mscs
    pure (mscs, ok)
  | .ok _ => do
    let (mscs, r) ← AFS.rename shouldFlushall xp theDnum [] ATOMICCP.tempFn dstbase dstname mscs
    let mscs ← AFS.treeSync xp mscs
    pure (mscs, r)

end Programs

end Bytefile

namespace ByteAtomicCp

open ATOMICCP (tempFn)

def atomicCp (shouldFlushall : Bool) (xp : FsXparams) (theDnum srcInum : Nat) (dstbase : List Sname) (dstname : Sname)
    (mscs : Memstate) : FProg (Memstate × Except Errno Unit) := do
  let (mscs, r) ← AFS.create shouldFlushall xp theDnum tempFn mscs
  match r with
  | .error e => pure (mscs, .error e)
  | .ok tinum => do
    let mscs ← AFS.treeSync xp mscs
    let (mscs, ok) ← Bytefile.copyAndRename shouldFlushall xp theDnum srcInum tinum dstbase dstname mscs
    pure (mscs, ok)

end ByteAtomicCp

/-! ## What a power failure may leave -/

namespace TreeSeq

open ATOMICCP (tempFn)

/-- The bytes of a file, up to its size. -/
def contents (f : File) : List Byte := (bytesOf f.data).take (ABytes f.attr).toNat

section Copy

variable (copies : File → Prop) (V₀ : Version) (Vs₀ : Treeseq) (dst : List Sname) (dstname : Sname)

/-- The tree of a version from before, or that of `V₀` with the copy in its place. -/
inductive Recovered (T : FsTree) : Prop
  | before {U : Version} : U ∈ V₀ :: Vs₀ → U.Falls T → Recovered T
  | copied {i : Nat} {f : File} {V : Version} : copies f → Placed V₀ dst dstname i f V → V.Falls T →
      findSubtree (dst ++ [dstname]) T = some (.file i f) → Recovered T

/-- There may be a temporary file, too. -/
structure Interrupted (T : FsTree) : Prop where
  ok : (Version.settled T).Ok
  tree : Recovered copies V₀ Vs₀ dst dstname T ∨
    ∃ i g T₁, Recovered copies V₀ Vs₀ dst dstname T₁ ∧ T = addToDir tempFn (.file i g) T₁

end Copy

/-- The versions have a temporary file, and `P` holds of it in the newest. -/
def Held (h : HashKey → HashVal) (xp : FsXparams) (n : Nat) (V₀ : Version) (i : Nat) (P : File → Version → Prop)
    (ams : Memstate) (s : St Valu HashKey) : Prop :=
  ∃ f V Vs, P f V ∧ TempSeq V₀ tempFn i f V Vs ∧ Up h xp n V Vs ams s

variable {h : HashKey → HashVal} {xp : FsXparams} {n : Nat} {V₀ V : Version} {Vs₀ Vs : Treeseq} {ams : Memstate}
  {s : St Valu HashKey} {c : Call} {T : FsTree} {i srcInum : Nat} {f src : File} {srcpath dst : List Sname} {dstname : Sname}
  {copies : File → Prop}

/-! ## Copying to the temporary file -/

section Copying

variable (hl : FsLayout xp n) (hx : xp.fsxpLog.AboveZero) (fl : Bool) (hV₀ : V₀.Ok) (hno : findSubtree [tempFn] V₀.tree = none)

section Held

include hV₀ hno

theorem TempSeq.interrupted {oc : Option Call} (ht : TempSeq V₀ tempFn i f V Vs) (hc : ∀ c, oc = some c → c.OnFile i)
    (hs : Crash (V :: Vs) oc T) : Interrupted copies V₀ Vs₀ dst dstname T := by
  obtain ⟨g, T₁, hf, hT⟩ := ht.crash hV₀ hno hc hs
  exact ⟨hs.ok ht.ok, .inr ⟨i, g, T₁, .before List.mem_cons_self hf, hT⟩⟩

theorem TempSeq.fallen (ht : TempSeq V₀ tempFn i f V Vs) (hf : Fallen h xp n (Crash (V :: Vs) none) s) :
    Fallen h xp n (Interrupted copies V₀ Vs₀ dst dstname) s :=
  hf.mono fun _ hc => ht.interrupted hV₀ hno (fun _ heq => by cases heq) hc

/-- A call on the temporary file. -/
theorem TempSeq.ask {β : Type} {r : β → Result} {m : β → Memstate} {p : FProg β} (ht : TempSeq V₀ tempFn i f V Vs)
    (hc : c.OnFile i) (hp : wp h p (fun b => Reaches h xp n (Step (V :: Vs) c (r b)) (m b))
      (Fallen h xp n (Crash (V :: Vs) (some c))) s) :
    wp h p (fun b s' => ∃ V' Vs', Step (V :: Vs) c (r b) (V' :: Vs') ∧ TempSeq V₀ tempFn i (fileAfter c (r b) f) V' Vs' ∧
      Up h xp n V' Vs' (m b) s') (Fallen h xp n (Interrupted copies V₀ Vs₀ dst dstname)) s := by
  refine wp_mono ?_ (fun _ hf => hf.mono fun T hcr => ht.interrupted hV₀ hno (fun c' heq => ?_) hcr) _ hp
  · rintro b s' ⟨V', Vs', hstep, hu'⟩
    exact ⟨V', Vs', hstep, ht.step hV₀ hno hc hstep, hu'⟩
  · cases heq
    exact hc

end Held

section Blocks

include hl hx hV₀ hno

/-- The blocks of the source, while there is a temporary file `f`. -/
def sourceBlocks (i : Nat) (f : File) (hsrc : findSubtree srcpath V₀.tree = some (.file srcInum src)) :
    Bytefile.Blocks h xp srcInum (ABytes src.attr).toNat (Fallen h xp n (Interrupted copies V₀ Vs₀ dst dstname)) where
  holds data ams s := data = src.data ∧ Held h xp n V₀ i (fun g _ => g = f) ams s
  attr := by
    rintro data ams s ⟨rfl, g, V, Vs, rfl, ht, hu⟩
    refine wp_mono ?_ (fun _ hf => ht.fallen hV₀ hno hf) _ (hu.fileGetAttr hl hx (ht.now.find_file hV₀ hno hsrc))
    rintro x s' ⟨hattr, hu'⟩
    exact ⟨by rw [hattr], rfl, g, V, Vs, rfl, ht, hu'⟩
  get := by
    rintro data ams s off v ⟨rfl, g, V, Vs, rfl, ht, hu⟩ hv
    refine wp_mono ?_ (fun _ hf => ht.fallen hV₀ hno hf) _
      (hu.readFblock hl hx (ht.now.find_file hV₀ hno hsrc) ht.now.ok.tree.inodes hv)
    rintro x s' ⟨hval, hu'⟩
    exact ⟨hval, rfl, g, V, Vs, rfl, ht, hu'⟩

/-- The blocks of the temporary file. -/
def tempBlocks (i : Nat) (attr : INODE.Iattr) :
    Bytefile.Blocks h xp i (ABytes attr).toNat (Fallen h xp n (Interrupted copies V₀ Vs₀ dst dstname)) where
  holds data ams s := Held h xp n V₀ i (fun g _ => g = ⟨data, attr⟩) ams s
  attr := by
    rintro data ams s ⟨g, V, Vs, rfl, ht, hu⟩
    refine wp_mono ?_ (fun _ hf => ht.fallen hV₀ hno hf) _ (hu.fileGetAttr hl hx (ht.now.find hV₀))
    rintro x s' ⟨hattr, hu'⟩
    exact ⟨by rw [hattr], _, V, Vs, rfl, ht, hu'⟩
  get := by
    rintro data ams s off v ⟨g, V, Vs, rfl, ht, hu⟩ hv
    refine wp_mono ?_ (fun _ hf => ht.fallen hV₀ hno hf) _
      (hu.readFblock hl hx (ht.now.find hV₀) ht.now.ok.tree.inodes hv)
    rintro x s' ⟨hval, hu'⟩
    exact ⟨hval, _, V, Vs, rfl, ht, hu'⟩

theorem tempBlocks_writable (i : Nat) (attr : INODE.Iattr) :
    (tempBlocks hl hx hV₀ hno i attr : Bytefile.Blocks h xp i _
      (Fallen h xp n (Interrupted copies V₀ Vs₀ dst dstname))).Writable := by
  refine ⟨?_⟩
  rintro data ams s off ⟨g, V, Vs, rfl, ht, hu⟩ hoff v
  refine wp_mono ?_ (fun _ hf => hf) _ (ht.ask hV₀ hno (c := .updateFblockD i off v) (m := id) rfl
    (hu.updateFblockD hl hx ⟨_, _, ht.now.find hV₀, hoff⟩ v))
  rintro ams' s' ⟨V', Vs', _, ht', hu'⟩
  exact ⟨_, V', Vs', rfl, ht', hu'⟩

/-- The copy is finished: it is as `copies` says, and has no older values. -/
def Finished (copies : File → Prop) (i : Nat) (f : File) (V : Version) : Prop := copies f ∧ ∀ off w, ¬ V.old i off w

/-- The end of `copydata`. -/
theorem syncSetAttr_spec (ht : TempSeq V₀ tempFn i f V Vs) (hu : Up h xp n V Vs ams s) (attr : INODE.Iattr)
    (hf : copies ⟨f.data, attr⟩) :
    wp h (do
      let mscs ← AFS.fileSync xp i ams
      let (mscs, ok) ← AFS.fileSetAttr fl xp i attr mscs
      pure (mscs, ok))
      (fun x => Held h xp n V₀ i (fun g V' => x.2 = .ok () → Finished copies i g V') x.1)
      (Fallen h xp n (Interrupted copies V₀ Vs₀ dst dstname)) s := by
  refine wp_seq (ht.ask hV₀ hno (c := .fileSync i) (m := id) rfl (hu.fileSync hl hx (ht.now.find hV₀))) (fun _ hf => hf) ?_
  rintro ams₁ s₁ ⟨V₁, Vs₁, hsync, ht₁, hu₁⟩
  have hone := hsync.fileSync_old ht.now.ok
  refine wp_seq (ht₁.ask hV₀ hno (c := .basic (.fileSetAttr i attr)) rfl
    (hu₁.fileSetAttr hl hx fl (ht₁.now.find hV₀) attr)) (fun _ hf => hf) ?_
  rintro ⟨ams₂, ok⟩ s₂ ⟨V₂, Vs₂, hset, ht₂, hu₂⟩
  refine ⟨_, V₂, Vs₂, ?_, ht₂, hu₂⟩
  rintro rfl
  exact ⟨hf, fun off w hold => hone off w (hset.old_le hold)⟩

end Blocks

theorem length_resize (l : List Valu) (sz : Nat) : (resize l sz).length = sz := by
  rw [resize, List.length_append, List.length_take, List.length_replicate]
  omega

section Copydata

variable (hsrc : findSubtree srcpath V₀.tree = some (.file srcInum src))
include hl hx hV₀ hno hsrc

/-- The copy is one block. -/
theorem ATOMICCP.copydata_spec {b : Valu} (hb : src.data[0]? = some b) (hroom : 0 < f.data.length)
    (hcopies : copies ⟨f.data.set 0 b, src.attr⟩) (ht : TempSeq V₀ tempFn i f V Vs) (hu : Up h xp n V Vs ams s) :
    wp h (ATOMICCP.copydata fl xp srcInum i ams)
      (fun x => Held h xp n V₀ i (fun g V' => x.2 = .ok () → Finished copies i g V') x.1)
      (Fallen h xp n (Interrupted copies V₀ Vs₀ dst dstname)) s := by
  have hfind := ht.now.find_file hV₀ hno hsrc
  refine wp_seq (hu.fileGetAttr hl hx hfind) (fun _ hf => ht.fallen hV₀ hno hf) ?_
  rintro ⟨ams₁, attr⟩ s₁ ⟨rfl, hu₁⟩
  refine wp_seq (hu₁.readFblock hl hx hfind ht.now.ok.tree.inodes hb) (fun _ hf => ht.fallen hV₀ hno hf) ?_
  rintro ⟨ams₂, b⟩ s₂ ⟨rfl, hu₂⟩
  refine wp_seq (ht.ask hV₀ hno (c := .updateFblockD i 0 b) (m := id) rfl
    (hu₂.updateFblockD hl hx ⟨_, _, ht.now.find hV₀, hroom⟩ b)) (fun _ hf => hf) ?_
  rintro ams₃ s₃ ⟨V₃, Vs₃, _, ht₃, hu₃⟩
  exact syncSetAttr_spec hl hx fl hV₀ hno ht₃ hu₃ src.attr hcopies

/-- The file has the attributes and the bytes of the source. -/
def SameBytes (src f : File) : Prop := f.attr = src.attr ∧ contents f = contents src

theorem Bytefile.copydata_spec (hsize : (ABytes src.attr).toNat ≤ (bytesOf src.data).length)
    (hroom : (ABytes src.attr).toNat ≤ (bytesOf f.data).length) (ht : TempSeq V₀ tempFn i f V Vs) (hu : Up h xp n V Vs ams s) :
    wp h (Bytefile.copydata fl xp srcInum i ams)
      (fun x => Held h xp n V₀ i (fun g V' => x.2 = .ok () → Finished (SameBytes src) i g V') x.1)
      (Fallen h xp n (Interrupted (SameBytes src) V₀ Vs₀ dst dstname)) s := by
  have hfind := ht.now.find_file hV₀ hno hsrc
  refine wp_seq (hu.fileGetAttr hl hx hfind) (fun _ hf => ht.fallen hV₀ hno hf) ?_
  rintro ⟨ams₁, attr⟩ s₁ ⟨rfl, hu₁⟩
  refine wp_seq ((sourceBlocks hl hx hV₀ hno i f hsrc).read ⟨rfl, f, V, Vs, rfl, ht, hu₁⟩ 0 (ABytes src.attr).toNat
    (by omega) (by omega)) (fun _ hf => hf) ?_
  rintro ⟨ams₂, data⟩ s₂ ⟨rfl, -, g, V₂, Vs₂, rfl, ht₂, hu₂⟩
  have hlen : (getSublist (bytesOf src.data) 0 (ABytes src.attr).toNat).length = (ABytes src.attr).toNat :=
    length_getSublist (by omega)
  refine wp_seq ((tempBlocks_writable hl hx hV₀ hno i g.attr).dwrite 0 ⟨g, V₂, Vs₂, rfl, ht₂, hu₂⟩
    (by rw [hlen]; omega)) (fun _ hf => hf) ?_
  rintro ams₃ s₃ ⟨blocks, _, hbytes, _, V₃, Vs₃, rfl, ht₃, hu₃⟩
  refine syncSetAttr_spec hl hx fl hV₀ hno ht₃ hu₃ src.attr ⟨rfl, ?_⟩
  rw [contents, contents, hbytes, patch, List.take_zero, List.nil_append, List.take_append_of_le_length (Nat.le_of_eq hlen.symm),
    getSublist, List.drop_zero, List.take_take, Nat.min_self]

theorem ATOMICCP.copy2temp_spec {b : Valu} (hb : src.data[0]? = some b) (ht : TempSeq V₀ tempFn i f V Vs)
    (hu : Up h xp n V Vs ams s) :
    wp h (ATOMICCP.copy2temp fl xp srcInum i ams)
      (fun x => Held h xp n V₀ i (fun g V' => x.2 = true → Finished (· = ⟨[b], src.attr⟩) i g V') x.1)
      (Fallen h xp n (Interrupted (· = ⟨[b], src.attr⟩) V₀ Vs₀ dst dstname)) s := by
  refine wp_seq (ht.ask hV₀ hno (c := .basic (.fileTruncate i 1)) rfl (hu.fileTruncate hl hx fl (ht.now.find hV₀) 1))
    (fun _ hf => hf) ?_
  rintro ⟨ams₁, e | u⟩ s₁ ⟨V₁, Vs₁, _, ht₁, hu₁⟩
  · exact ⟨_, V₁, Vs₁, (fun hok => by cases hok), ht₁, hu₁⟩
  have hlen : (fileAfter (.basic (.fileTruncate i 1)) (.done (.ok u)) f).data.length = 1 := length_resize f.data 1
  generalize fileAfter (.basic (.fileTruncate i 1)) (.done (.ok u)) f = f₁ at hlen ht₁
  obtain ⟨v, hv⟩ := List.length_eq_one_iff.1 hlen
  refine wp_seq (ATOMICCP.copydata_spec hl hx fl hV₀ hno hsrc hb (hlen ▸ Nat.one_pos) (by rw [hv]; rfl) ht₁ hu₁)
    (fun _ hf => hf) ?_
  rintro ⟨ams₂, e | u⟩ s₂ ⟨g, V₂, Vs₂, hfin, ht₂, hu₂⟩
  · exact ⟨g, V₂, Vs₂, (fun hok => by cases hok), ht₂, hu₂⟩
  · exact ⟨g, V₂, Vs₂, fun _ => hfin rfl, ht₂, hu₂⟩

theorem Bytefile.copy2temp_spec (hsize : (ABytes src.attr).toNat ≤ (bytesOf src.data).length)
    (ht : TempSeq V₀ tempFn i f V Vs) (hu : Up h xp n V Vs ams s) :
    wp h (Bytefile.copy2temp fl xp srcInum i ams)
      (fun x => Held h xp n V₀ i (fun g V' => x.2 = .ok () → Finished (SameBytes src) i g V') x.1)
      (Fallen h xp n (Interrupted (SameBytes src) V₀ Vs₀ dst dstname)) s := by
  refine wp_seq (hu.fileGetAttr hl hx (ht.now.find_file hV₀ hno hsrc)) (fun _ hf => ht.fallen hV₀ hno hf) ?_
  rintro ⟨ams₁, attr⟩ s₁ ⟨rfl, hu₁⟩
  refine wp_seq (ht.ask hV₀ hno (c := .basic (.fileTruncate i (roundup (ABytes src.attr).toNat valubytes / valubytes))) rfl
    (hu₁.fileTruncate hl hx fl (ht.now.find hV₀) _)) (fun _ hf => hf) ?_
  rintro ⟨ams₂, e | u⟩ s₂ ⟨V₂, Vs₂, _, ht₂, hu₂⟩
  · exact ⟨_, V₂, Vs₂, (fun hok => by cases hok), ht₂, hu₂⟩
  refine wp_seq (hu₂.fileGetAttr hl hx (ht₂.now.find hV₀)) (fun _ hf => ht₂.fallen hV₀ hno hf) ?_
  rintro ⟨ams₃, tattr⟩ s₃ ⟨rfl, hu₃⟩
  refine wp_seq (ht₂.ask hV₀ hno (c := .basic (.fileSetAttr i _)) rfl (hu₃.fileSetAttr hl hx fl (ht₂.now.find hV₀) _))
    (fun _ hf => hf) ?_
  rintro ⟨ams₄, e | u'⟩ s₄ ⟨V₄, Vs₄, _, ht₄, hu₄⟩
  · exact ⟨_, V₄, Vs₄, (fun hok => by cases hok), ht₄, hu₄⟩
  refine wp_seq (Bytefile.copydata_spec hl hx fl hV₀ hno hsrc hsize ?_ ht₄ hu₄) (fun _ hf => hf) fun _ _ hheld => hheld
  rw [length_bytesOf, fileAfter, fileAfter, length_resize, roundup, Nat.mul_div_cancel _ (by decide)]
  exact le_roundup _ (by decide)

end Copydata

/-! ## The whole program -/

/-- How a copy ends. -/
inductive Ended (copies : File → Prop) (V₀ : Version) (Vs₀ : Treeseq) (dst : List Sname) (dstname : Sname) :
    Bool → Version → Treeseq → Prop
  | done {i : Nat} {f : File} {V : Version} : copies f → Placed V₀ dst dstname i f V → Ended copies V₀ Vs₀ dst dstname true V []
  | notCreated : Ended copies V₀ Vs₀ dst dstname false V₀ Vs₀
  | failed {i : Nat} {f : File} {V : Version} : TempVersion V₀ tempFn i f V → Ended copies V₀ Vs₀ dst dstname false V []

theorem Version.Falls.ok {U : Version} (hU : U.Ok) (hf : U.Falls T) : (Version.settled T).Ok := by
  have hcr : Crash [U] none T := ⟨[U], .inl rfl, U, List.mem_singleton_self U, hf⟩
  refine hcr.ok fun W hW => ?_
  rwa [List.mem_singleton.1 hW]

section Before

variable (hVs₀ : ∀ U ∈ V₀ :: Vs₀, U.Ok)
include hVs₀

theorem interrupted_before {U : Version} (hU : U ∈ V₀ :: Vs₀) (hf : U.Falls T) : Interrupted copies V₀ Vs₀ dst dstname T :=
  ⟨hf.ok (hVs₀ U hU), .inl (.before hU hf)⟩

include hno

theorem interrupted_temp (ht : TempVersion V₀ tempFn i f V) (hf : V.Falls T) : Interrupted copies V₀ Vs₀ dst dstname T := by
  obtain ⟨g, T₁, hT₁, hT⟩ := ht.falls (hVs₀ V₀ List.mem_cons_self) hno hf
  exact ⟨hf.ok ht.ok, .inr ⟨i, g, T₁, .before List.mem_cons_self hT₁, hT⟩⟩

theorem TempSeq.falls (ht : TempSeq V₀ tempFn i f V Vs) : ∀ U ∈ V :: Vs, ∀ T, U.Falls T →
    Interrupted copies V₀ Vs₀ dst dstname T := by
  intro U hU T hf
  obtain ⟨g, hg⟩ := ht.all U hU
  exact interrupted_temp hno hVs₀ hg hf

/-- After the rename. -/
theorem Placed.falls {V' : Version} (hp : Placed V₀ dst dstname i f V') (hc : copies f) (ht : TempSeq V₀ tempFn i f V Vs) :
    ∀ U ∈ V' :: V :: Vs, ∀ T, U.Falls T → Interrupted copies V₀ Vs₀ dst dstname T := by
  intro U hU T hf
  rcases List.mem_cons.1 hU with rfl | hU
  · exact ⟨hf.ok hp.ok, .inl (.copied hc hp hf (hp.find_falls hf))⟩
  · exact ht.falls hno hVs₀ U hU T hf

/-- After the temporary file is made. -/
theorem TempVersion.created_falls (ht : TempVersion V₀ tempFn i f V) : ∀ U ∈ V :: V₀ :: Vs₀, ∀ T, U.Falls T →
    Interrupted copies V₀ Vs₀ dst dstname T := by
  intro U hU T hf
  rcases List.mem_cons.1 hU with rfl | hU
  · exact interrupted_temp hno hVs₀ ht hf
  · exact interrupted_before hVs₀ hU hf

include hl hx

/-- Makes the temporary file. -/
theorem create_spec (hu : Up h xp n V₀ Vs₀ ams s) :
    wp h (AFS.create fl xp 1 tempFn ams)
      (fun x s' => (∃ e, x.2 = .error e ∧ Up h xp n V₀ Vs₀ x.1 s') ∨
        ∃ i V, x.2 = .ok i ∧ TempVersion V₀ tempFn i dirfile0 V ∧ Up h xp n V (V₀ :: Vs₀) x.1 s')
      (Fallen h xp n (Interrupted copies V₀ Vs₀ dst dstname)) s := by
  have hroot : ∃ ents, findSubtree [] V₀.tree = some (.dir 1 ents) := by
    obtain ⟨ents, htree⟩ := (hVs₀ V₀ List.mem_cons_self).root_dir
    exact ⟨ents, by rw [Dirtree.findSubtree_nil, htree]⟩
  obtain ⟨ents, hroot⟩ := hroot
  refine wp_mono ?_ (fun _ hf => hf.mono fun T hcr => ?_) _ (hu.create hl hx fl hroot tempFn)
  · rintro ⟨ams₁, e | i⟩ s₁ ⟨V, Vs, hstep, hu₁⟩
    · cases hstep.error (.inl rfl)
      exact .inl ⟨e, rfl, hu₁⟩
    · obtain ⟨ht, rfl⟩ := hstep.create_temp hVs₀
      exact .inr ⟨i, V, rfl, ht, hu₁⟩
  · rcases hcr.of_basic with ⟨U, hU, hf⟩ | ⟨r, T', hu, hf⟩
    · exact interrupted_before hVs₀ hU hf
    · have hstep : Step (V₀ :: Vs₀) _ _ _ := .update hu
      cases hu with
      | basic hu =>
        cases hu with
        | create => exact interrupted_temp hno hVs₀ (hstep.create_temp hVs₀).1 hf

/-- Puts the finished copy in its place. -/
theorem rename_spec (ht : TempSeq V₀ tempFn i f V Vs) (hf : Finished copies i f V) (hu : Up h xp n V Vs ams s) :
    wp h (AFS.rename fl xp 1 [] tempFn dst dstname ams)
      (fun x s' => (∃ e, x.2 = .error e ∧ Up h xp n V Vs x.1 s') ∨
        ∃ V', x.2 = .ok () ∧ Placed V₀ dst dstname i f V' ∧ Up h xp n V' (V :: Vs) x.1 s')
      (Fallen h xp n (Interrupted copies V₀ Vs₀ dst dstname)) s := by
  have hV₀ := hVs₀ V₀ List.mem_cons_self
  obtain ⟨ents, htree⟩ := ht.now.ok.root_dir
  have hroot : findSubtree [] V.tree = some (.dir 1 ents) := by rw [Dirtree.findSubtree_nil, htree]
  refine wp_mono ?_ (fun _ hfallen => hfallen.mono fun T hcr => ?_) _ (hu.rename hl hx fl hroot [] tempFn dst dstname)
  · rintro ⟨ams₁, e | u⟩ s₁ ⟨V', Vs', hstep, hu₁⟩
    · cases hstep.error (.inr rfl)
      exact .inl ⟨e, rfl, hu₁⟩
    · obtain ⟨hp, rfl⟩ := ht.rename hV₀ hno hf.2 hstep
      exact .inr ⟨V', rfl, hp, hu₁⟩
  · rcases hcr.of_basic with ⟨U, hU, hfalls⟩ | ⟨r, T', hu, hfalls⟩
    · exact ht.falls hno hVs₀ U hU T hfalls
    · have hstep : Step (V :: Vs) _ _ _ := .update hu
      cases hu with
      | basic hu =>
        cases hu with
        | rename =>
          have hplaced := (ht.rename hV₀ hno hf.2 hstep).1
          exact ⟨hfalls.ok hplaced.ok, .inl (.copied hf.1 hplaced hfalls (hplaced.find_falls hfalls))⟩

omit hno hVs₀ in
/-- Syncing, when each version may be mounted after a power failure. -/
theorem treeSync_spec (hu : Up h xp n V Vs ams s) (hf : ∀ U ∈ V :: Vs, ∀ T, U.Falls T → Interrupted copies V₀ Vs₀ dst dstname T) :
    wp h (AFS.treeSync xp ams) (fun ams' s' => Up h xp n V [] ams' s')
      (Fallen h xp n (Interrupted copies V₀ Vs₀ dst dstname)) s := by
  refine wp_mono (fun _ _ hu => hu) (fun _ hfallen => hfallen.mono fun T hcr => ?_) _ (hu.treeSync hl hx)
  obtain ⟨Vs', hVs', U, hU, hfalls⟩ := hcr
  rcases hVs' with rfl | ⟨c, r, heq, _⟩
  · exact hf U hU T hfalls
  · cases heq

theorem ATOMICCP.copyAndRename_spec {b : Valu} (hsrc : findSubtree srcpath V₀.tree = some (.file srcInum src))
    (hb : src.data[0]? = some b) (ht : TempSeq V₀ tempFn i f V Vs) (hu : Up h xp n V Vs ams s) :
    wp h (ATOMICCP.copyAndRename fl xp 1 srcInum i dst dstname ams)
      (fun x s' => ∃ V Vs, Ended (· = ⟨[b], src.attr⟩) V₀ Vs₀ dst dstname x.2 V Vs ∧ Up h xp n V Vs x.1 s')
      (Fallen h xp n (Interrupted (· = ⟨[b], src.attr⟩) V₀ Vs₀ dst dstname)) s := by
  refine wp_seq (ATOMICCP.copy2temp_spec hl hx fl (hVs₀ V₀ List.mem_cons_self) hno hsrc hb ht hu) (fun _ hf => hf) ?_
  rintro ⟨ams₁, _ | _⟩ s₁ ⟨g, V₁, Vs₁, hfin, ht₁, hu₁⟩
  · refine wp_seq (treeSync_spec hl hx hu₁ (ht₁.falls hno hVs₀)) (fun _ hf => hf) ?_
    exact fun ams₂ s₂ hu₂ => ⟨V₁, [], .failed ht₁.now, hu₂⟩
  refine wp_seq (rename_spec hl hx fl hno hVs₀ ht₁ (hfin rfl) hu₁) (fun _ hf => hf) ?_
  rintro ⟨ams₂, r⟩ s₂ (⟨e, rfl, hu₂⟩ | ⟨V₂, rfl, hp, hu₂⟩)
  · refine wp_seq (treeSync_spec hl hx hu₂ (ht₁.falls hno hVs₀)) (fun _ hf => hf) ?_
    exact fun ams₃ s₃ hu₃ => ⟨V₁, [], .failed ht₁.now, hu₃⟩
  · refine wp_seq (treeSync_spec hl hx hu₂ (hp.falls hno hVs₀ (hfin rfl).1 ht₁)) (fun _ hf => hf) ?_
    exact fun ams₃ s₃ hu₃ => ⟨V₂, [], .done (hfin rfl).1 hp, hu₃⟩

theorem Bytefile.copyAndRename_spec (hsrc : findSubtree srcpath V₀.tree = some (.file srcInum src))
    (hsize : (ABytes src.attr).toNat ≤ (bytesOf src.data).length) (ht : TempSeq V₀ tempFn i f V Vs) (hu : Up h xp n V Vs ams s) :
    wp h (Bytefile.copyAndRename fl xp 1 srcInum i dst dstname ams)
      (fun x s' => ∃ V Vs, Ended (SameBytes src) V₀ Vs₀ dst dstname x.2.isOk V Vs ∧ Up h xp n V Vs x.1 s')
      (Fallen h xp n (Interrupted (SameBytes src) V₀ Vs₀ dst dstname)) s := by
  refine wp_seq (Bytefile.copy2temp_spec hl hx fl (hVs₀ V₀ List.mem_cons_self) hno hsrc hsize ht hu) (fun _ hf => hf) ?_
  rintro ⟨ams₁, e | u⟩ s₁ ⟨g, V₁, Vs₁, hfin, ht₁, hu₁⟩
  · refine wp_seq (treeSync_spec hl hx hu₁ (ht₁.falls hno hVs₀)) (fun _ hf => hf) ?_
    exact fun ams₂ s₂ hu₂ => ⟨V₁, [], .failed ht₁.now, hu₂⟩
  refine wp_seq (rename_spec hl hx fl hno hVs₀ ht₁ (hfin rfl) hu₁) (fun _ hf => hf) ?_
  rintro ⟨ams₂, r⟩ s₂ (⟨e, rfl, hu₂⟩ | ⟨V₂, rfl, hp, hu₂⟩)
  · refine wp_seq (treeSync_spec hl hx hu₂ (ht₁.falls hno hVs₀)) (fun _ hf => hf) ?_
    exact fun ams₃ s₃ hu₃ => ⟨V₁, [], .failed ht₁.now, hu₃⟩
  · refine wp_seq (treeSync_spec hl hx hu₂ (hp.falls hno hVs₀ (hfin rfl).1 ht₁)) (fun _ hf => hf) ?_
    exact fun ams₃ s₃ hu₃ => ⟨V₂, [], .done (hfin rfl).1 hp, hu₃⟩

theorem ATOMICCP.atomicCp_spec {b : Valu} (hsrc : findSubtree srcpath V₀.tree = some (.file srcInum src))
    (hb : src.data[0]? = some b) (hu : Up h xp n V₀ Vs₀ ams s) :
    wp h (ATOMICCP.atomicCp fl xp 1 srcInum dst dstname ams)
      (fun x s' => ∃ V Vs, Ended (· = ⟨[b], src.attr⟩) V₀ Vs₀ dst dstname x.2 V Vs ∧ Up h xp n V Vs x.1 s')
      (Fallen h xp n (Interrupted (· = ⟨[b], src.attr⟩) V₀ Vs₀ dst dstname)) s := by
  refine wp_seq (create_spec hl hx fl hno hVs₀ hu) (fun _ hf => hf) ?_
  rintro ⟨ams₁, r⟩ s₁ (⟨e, rfl, hu₁⟩ | ⟨i, V₁, rfl, ht, hu₁⟩)
  · exact ⟨V₀, Vs₀, .notCreated, hu₁⟩
  refine wp_seq (treeSync_spec hl hx hu₁ (ht.created_falls hno hVs₀)) (fun _ hf => hf) fun ams₂ s₂ hu₂ => ?_
  exact wp_seq (ATOMICCP.copyAndRename_spec hl hx fl hno hVs₀ hsrc hb ht.single hu₂) (fun _ hf => hf) fun _ _ hend => hend

/-- The whole program: a copy ends in its place, or there is an error. -/
theorem ByteAtomicCp.atomicCp_spec (hsrc : findSubtree srcpath V₀.tree = some (.file srcInum src))
    (hsize : (ABytes src.attr).toNat ≤ (bytesOf src.data).length) (hu : Up h xp n V₀ Vs₀ ams s) :
    wp h (ByteAtomicCp.atomicCp fl xp 1 srcInum dst dstname ams)
      (fun x s' => ∃ V Vs, Ended (SameBytes src) V₀ Vs₀ dst dstname x.2.isOk V Vs ∧ Up h xp n V Vs x.1 s')
      (Fallen h xp n (Interrupted (SameBytes src) V₀ Vs₀ dst dstname)) s := by
  refine wp_seq (create_spec hl hx fl hno hVs₀ hu) (fun _ hf => hf) ?_
  rintro ⟨ams₁, r⟩ s₁ (⟨e, rfl, hu₁⟩ | ⟨i, V₁, rfl, ht, hu₁⟩)
  · exact ⟨V₀, Vs₀, .notCreated, hu₁⟩
  refine wp_seq (treeSync_spec hl hx hu₁ (ht.created_falls hno hVs₀)) (fun _ hf => hf) fun ams₂ s₂ hu₂ => ?_
  exact wp_seq (Bytefile.copyAndRename_spec hl hx fl hno hVs₀ hsrc hsize ht.single hu₂) (fun _ hf => hf) fun _ _ hend => hend

end Before

/-! ## Recovery -/

section Recovery

variable (hg : SB.GoodSize xp) (hmagic : xp.fsxpMagic = SB.magicNumber) {cachesize : Nat} (hn : cachesize ≠ 0)
  (hVs₀ : ∀ U ∈ V₀ :: Vs₀, U.Ok) (hfree : ∀ U ∈ V₀ :: Vs₀, findSubtree [tempFn] U.tree = none) (hne : dst ++ [dstname] ≠ [tempFn])

section Free

include hVs₀ hfree hne

theorem Recovered.free (hr : Recovered copies V₀ Vs₀ dst dstname T) : findSubtree [tempFn] T = none := by
  cases hr with
  | before hU hf => exact hf.free (hfree _ hU)
  | copied _ hp hf _ => exact hf.free (hp.free (hVs₀ V₀ List.mem_cons_self) (hfree V₀ List.mem_cons_self) hne)

omit hfree hne in
theorem Recovered.ok (hr : Recovered copies V₀ Vs₀ dst dstname T) : (Version.settled T).Ok := by
  cases hr with
  | before hU hf => exact hf.ok (hVs₀ _ hU)
  | copied _ hp hf _ => exact hf.ok hp.ok

omit hfree hne in
theorem Recovered.interrupted (hr : Recovered copies V₀ Vs₀ dst dstname T) : Interrupted copies V₀ Vs₀ dst dstname T :=
  ⟨hr.ok hVs₀, .inl hr⟩

end Free

/-- A mounted tree that is left again. -/
theorem interrupted_idle (hi : Interrupted copies V₀ Vs₀ dst dstname T) {T' : FsTree} (hcr : Crash [.settled T] none T') :
    Interrupted copies V₀ Vs₀ dst dstname T' := by
  obtain ⟨U, hU, hf⟩ := hcr.idle
  rw [List.mem_singleton.1 hU] at hf
  rwa [settled_falls hi.ok hf]

include hl in
theorem interrupted_up (hi : Interrupted copies V₀ Vs₀ dst dstname T) (hu : Up h xp n (.settled T) [] ams s) :
    Fallen h xp n (Interrupted copies V₀ Vs₀ dst dstname) s := by
  intro d hd
  obtain ⟨T', hcr, hdn⟩ := hu.crash hl _ hd
  exact ⟨T', interrupted_idle hi hcr, hdn⟩

/-- The end of a recovery. The temporary file is gone; or the log did not take its removal, there is an error, and the file is
still there. -/
inductive Mended (h : HashKey → HashVal) (xp : FsXparams) (n : Nat) (copies : File → Prop) (V₀ : Version) (Vs₀ : Treeseq)
    (dst : List Sname) (dstname : Sname) : Except Errno (Memstate × FsXparams) → St Valu HashKey → Prop
  | removed {T : FsTree} {ams : Memstate} {s : St Valu HashKey} : findSubtree [tempFn] T = none →
      Recovered copies V₀ Vs₀ dst dstname T → Up h xp n (.settled T) [] ams s →
      Mended h xp n copies V₀ Vs₀ dst dstname (.ok (ams, xp)) s
  | kept {T : FsTree} {i : Nat} {g : File} {ams : Memstate} {e : Errno} {s : St Valu HashKey} : findSubtree [tempFn] T = none →
      Recovered copies V₀ Vs₀ dst dstname T → Up h xp n (.settled (addToDir tempFn (.file i g) T)) [] ams s →
      Mended h xp n copies V₀ Vs₀ dst dstname (.error e) s

include hl hx hg hmagic hn hVs₀ hfree hne

theorem atomicCpRecover_spec (hi : Interrupted copies V₀ Vs₀ dst dstname T) (hdn : Down h xp n T s) :
    wp h (ATOMICCP.atomicCpRecover fl 1 cachesize)
      (fun x s' => Mended h xp n copies V₀ Vs₀ dst dstname x s' ∧ Fallen h xp n (Interrupted copies V₀ Vs₀ dst dstname) s')
      (Fallen h xp n (Interrupted copies V₀ Vs₀ dst dstname)) s := by
  refine wp_seq (hdn.recover hl hx hg hmagic hn) (fun s' hc d hd => ⟨T, hi, hc d hd⟩) ?_
  rintro x s₁ ⟨ams₁, rfl, hu₁⟩
  obtain ⟨ents, htree⟩ := hi.ok.root_dir
  have hroot : findSubtree [] (Version.settled T).tree = some (.dir 1 ents) := by rw [Dirtree.findSubtree_nil, htree]
  refine wp_seq (hu₁.lookup hl hx hi.ok.tree.inodes hroot [tempFn]) (fun _ hf => hf.mono fun _ => interrupted_idle hi) ?_
  rintro ⟨ams₂, r⟩ s₂ ⟨hr, hu₂⟩
  have hr : ∀ v, r = .ok v ↔ (findSubtree [tempFn] T).map (fun u => (u.inum, u.isdir)) = some v := by
    rw [← Dirtree.findName_eq]
    have htree : T = .dir 1 ents := htree
    rw [htree]
    exact hr
  rcases hi.tree with hrec | ⟨i, g, T₁, hrec, rfl⟩
  · -- there is no temporary file
    have hfree₁ := hrec.free hVs₀ hfree hne
    rw [hfree₁] at hr
    cases r with
    | ok v => cases (hr v).1 rfl
    | error e => exact ⟨.removed hfree₁ hrec hu₂, interrupted_up hl hi hu₂⟩
  have hfree₁ := hrec.free hVs₀ hfree hne
  have hok₁ := hrec.ok hVs₀
  have hdir : T₁.isdir = true := hok₁.root.2
  have hold : ∀ U ∈ [Version.settled (addToDir tempFn (.file i g) T₁)], ∀ T', U.Falls T' →
      Interrupted copies V₀ Vs₀ dst dstname T' := by
    intro U hU T' hf
    rw [List.mem_singleton.1 hU] at hf
    rwa [settled_falls hi.ok hf]
  have hnew : ∀ T', (Version.settled T₁).Falls T' → Interrupted copies V₀ Vs₀ dst dstname T' := by
    intro T' hf
    rw [settled_falls hok₁ hf]
    exact hrec.interrupted hVs₀
  rw [Dirtree.findSubtree_addToDir hdir, Dirtree.findSubtree_nil] at hr
  cases r with
  | error e => cases (hr (i, false)).2 rfl
  | ok v =>
    refine wp_seq (hu₂.delete hl hx fl hroot tempFn) (fun _ hf => hf.mono fun T' hcr => ?_) ?_
    · rcases hcr.of_basic with ⟨U, hU, hf⟩ | ⟨r, T'', hu, hf⟩
      · exact hold U hU T' hf
      · have hstep : Step [Version.settled (addToDir tempFn (.file i g) T₁)] _ _ _ := .update hu
        cases hu with
        | basic hu =>
          cases hu with
          | delete =>
            rw [(List.cons.inj (hstep.delete_temp hi.ok hfree₁)).1] at hf
            exact hnew T' hf
    rintro ⟨ams₃, e | u⟩ s₃ ⟨V₃, Vs₃, hstep, hu₃⟩
    · cases hstep.error (.inr rfl)
      refine wp_seq (treeSync_spec hl hx hu₃ hold) (fun _ hf => hf) fun ams₄ s₄ hu₄ => ?_
      exact ⟨.kept hfree₁ hrec hu₄, interrupted_up hl hi hu₄⟩
    · cases hstep.delete_temp hi.ok hfree₁
      refine wp_seq (treeSync_spec hl hx hu₃ fun U hU T' hf => ?_) (fun _ hf => hf) fun ams₄ s₄ hu₄ => ?_
      · rcases List.mem_cons.1 hU with rfl | hU
        · exact hnew T' hf
        · exact hold U hU T' hf
      · exact ⟨.removed hfree₁ hrec hu₄, interrupted_up hl (hrec.interrupted hVs₀) hu₄⟩

/-- A copy, with as many power failures as there are in it and in its recovery. -/
theorem recover_run {α : Type} {p : FProg α} {Q : α → St Valu HashKey → Prop} {o : Outcome Valu HashKey (α ⊕ _)}
    (hp : wp h p Q (Fallen h xp n (Interrupted copies V₀ Vs₀ dst dstname)) s)
    (ho : ExecRecover h (ATOMICCP.atomicCpRecover fl 1 cachesize) s p o) :
    Allowed (fun x s' => x.elim (Q · s') (Mended h xp n copies V₀ Vs₀ dst dstname · s')) (fun _ => False) o := by
  have hrec : Recovers h (ATOMICCP.atomicCpRecover fl 1 cachesize) (Mended h xp n copies V₀ Vs₀ dst dstname)
      fun s => ∃ T, Interrupted copies V₀ Vs₀ dst dstname T ∧ Down h xp n T s := by
    rintro s ⟨T, hi, hdn⟩
    exact wp_mono (fun _ _ hend => hend.1) (fun _ hf => hf) _
      (atomicCpRecover_spec hl hx fl hg hmagic hn hVs₀ hfree hne hi hdn)
  exact recover_exec hrec ho hp

end Recovery

end Copying

/-! ## The file system -/

/-- There is a source to copy, and no version has a file with the temporary name. -/
structure Copyable (srcpath : List Sname) (srcInum : Nat) (P : File → Prop) (V : Version) (Vs : Treeseq) : Prop where
  source : ∃ src, findSubtree srcpath V.tree = some (.file srcInum src) ∧ P src
  free : ∀ U ∈ V :: Vs, findSubtree [tempFn] U.tree = none

/-- How a copy and its recoveries end. -/
def CopyRuns (h : HashKey → HashVal) (xp : FsXparams) (n : Nat) (copies : File → Prop) (V₀ : Version) (Vs₀ : Treeseq)
    (dst : List Sname) (dstname : Sname) {α : Type} (ok : α → Bool) (p : FProg (Memstate × α)) (s : St Valu HashKey) : Prop :=
  ∀ (fl : Bool) (cachesize : Nat) (o : Outcome Valu HashKey ((Memstate × α) ⊕ Except Errno (Memstate × FsXparams))),
    cachesize ≠ 0 → ExecRecover h (ATOMICCP.atomicCpRecover fl 1 cachesize) s p o →
    Allowed (fun x s' => x.elim
      (fun y => ∃ V Vs, Ended copies V₀ Vs₀ dst dstname (ok y.2) V Vs ∧ Up h xp n V Vs y.1 s')
      fun y => Mended h xp n copies V₀ Vs₀ dst dstname y s') (fun _ => False) o

section Format

variable {dataBitmaps inodeBitmaps logDescrBlocks : Nat} (hd : dataBitmaps ≠ 0) (hi : inodeBitmaps ≠ 0)
  (hi' : inodeBitmaps ≤ valulen * valulen) (hsize : AFS.rawSize dataBitmaps inodeBitmaps logDescrBlocks < 2 ^ 64)
include hd hi hi' hsize

/-- Whenever and however often the power fails in a copy and in its recovery. -/
theorem atomic_cp_crash_safe (h : HashKey → HashVal) : ∀ es ams s srcpath srcInum dst dstname fl,
    Life h dataBitmaps inodeBitmaps logDescrBlocks es (some ams) s → Legal es → dst ++ [dstname] ≠ [tempFn] →
    (∀ V Vs, Trace es (V :: Vs) →
      Copyable srcpath srcInum (fun src => (ABytes src.attr).toNat ≤ src.data.length * valubytes) V Vs) →
    ∃ V₀ Vs₀ src, Trace es (V₀ :: Vs₀) ∧ findSubtree srcpath V₀.tree = some (.file srcInum src) ∧
      CopyRuns h (AFS.computeXparams dataBitmaps inodeBitmaps logDescrBlocks SB.magicNumber)
        (AFS.diskSize dataBitmaps inodeBitmaps) (SameBytes src) V₀ Vs₀ dst dstname Except.isOk
        (ByteAtomicCp.atomicCp fl (AFS.computeXparams dataBitmaps inodeBitmaps logDescrBlocks SB.magicNumber) 1 srcInum
          dst dstname ams) s := by
  intro es ams s srcpath srcInum dst dstname fl hlife hleg hne hcopy
  have hl := AFS.fsLayout_computeXparams hd hi' hsize
  have hx := AFS.aboveZero_computeXparams dataBitmaps inodeBitmaps logDescrBlocks SB.magicNumber
  obtain ⟨_, htr, V₀, Vs₀, rfl, hu⟩ := hlife.agrees hd hi hi' hsize hleg
  obtain ⟨⟨src, hsrc, hlen⟩, hfree⟩ := hcopy V₀ Vs₀ htr
  rw [← length_bytesOf] at hlen
  refine ⟨V₀, Vs₀, src, htr, hsrc, fun fl' cachesize o hn ho => ?_⟩
  exact recover_run hl hx fl' (AFS.goodSize_computeXparams hsize) rfl hn htr.ok hfree hne
    (ByteAtomicCp.atomicCp_spec hl hx fl (hfree V₀ List.mem_cons_self) htr.ok hsrc hlen hu) ho

/-- The copy of one block. -/
theorem atomic_cp_block_crash_safe (h : HashKey → HashVal) : ∀ es ams s srcpath srcInum dst dstname fl,
    Life h dataBitmaps inodeBitmaps logDescrBlocks es (some ams) s → Legal es → dst ++ [dstname] ≠ [tempFn] →
    (∀ V Vs, Trace es (V :: Vs) → Copyable srcpath srcInum (fun src => 0 < src.data.length) V Vs) →
    ∃ V₀ Vs₀ src b, Trace es (V₀ :: Vs₀) ∧ findSubtree srcpath V₀.tree = some (.file srcInum src) ∧ src.data[0]? = some b ∧
      CopyRuns h (AFS.computeXparams dataBitmaps inodeBitmaps logDescrBlocks SB.magicNumber)
        (AFS.diskSize dataBitmaps inodeBitmaps) (· = ⟨[b], src.attr⟩) V₀ Vs₀ dst dstname id
        (ATOMICCP.atomicCp fl (AFS.computeXparams dataBitmaps inodeBitmaps logDescrBlocks SB.magicNumber) 1 srcInum
          dst dstname ams) s := by
  intro es ams s srcpath srcInum dst dstname fl hlife hleg hne hcopy
  have hl := AFS.fsLayout_computeXparams hd hi' hsize
  have hx := AFS.aboveZero_computeXparams dataBitmaps inodeBitmaps logDescrBlocks SB.magicNumber
  obtain ⟨_, htr, V₀, Vs₀, rfl, hu⟩ := hlife.agrees hd hi hi' hsize hleg
  obtain ⟨⟨src, hsrc, hlen⟩, hfree⟩ := hcopy V₀ Vs₀ htr
  have hb : src.data[0]? = some (src.data[0]) := List.getElem?_eq_getElem hlen
  refine ⟨V₀, Vs₀, src, _, htr, hsrc, hb, fun fl' cachesize o hn ho => ?_⟩
  exact recover_run hl hx fl' (AFS.goodSize_computeXparams hsize) rfl hn htr.ok hfree hne
    (ATOMICCP.atomicCp_spec hl hx fl (hfree V₀ List.mem_cons_self) htr.ok hsrc hb hu) ho

end Format

/-! ## A file to copy -/

/-- A file of ten bytes, and its first byte is one. -/
def sourceFile (i : Nat) : List Event := .call (.updateFblockD i 0 1) (.written true) :: tenFile i

theorem legal_sourceFile (i : Nat) : Legal (sourceFile i) :=
  (find_tenFile i).legal_written (fun f hf => by rw [hf]; exact Nat.one_pos) (legal_tenFile i)

theorem find_sourceFile (i : Nat) : Finds (sourceFile i) [[97]] i (· = ⟨[1], tenBytes⟩) :=
  (find_tenFile i).written.mono fun f' ⟨f, hf, hset⟩ => by rw [hset, hf]; rfl

/-- A direct write makes no files. -/
theorem Step.write_free {off : Nat} {v : Valu} {r : Result} {Us Us' : Treeseq} {i : Nat} {p : List Sname}
    (h : Step Us (.updateFblockD i off v) r Us') (hfree : ∀ U ∈ Us, findSubtree p U.tree = none) :
    ∀ U ∈ Us', findSubtree p U.tree = none := by
  cases h with
  | update hu => cases hu
  | updateFblockD =>
    intro U hU
    obtain ⟨k, hk, rfl⟩ := List.mem_mapIdx.1 hU
    have hold := hfree _ (List.getElem_mem hk)
    split
    · exact (Dirtree.findSubtree_mapFiles _ p _).trans (congrArg _ hold)
    · exact hold

theorem free_sourceFile {i : Nat} {Vs : Treeseq} (h : Trace (sourceFile i) Vs) : ∀ U ∈ Vs, findSubtree [tempFn] U.tree = none := by
  obtain ⟨V, Vs, rfl⟩ := List.exists_cons_of_ne_nil h.ne_nil
  obtain ⟨V₁, Vs₁, htr₁, hstep⟩ := trace_call h
  obtain ⟨htree₁, htr₀⟩ := trace_tenFile htr₁
  refine hstep.write_free fun U hU => ?_
  rcases List.mem_cons.1 hU with rfl | hU
  · rw [htree₁]
    rfl
  obtain ⟨V₀, Vs₀, rfl⟩ := List.exists_cons_of_ne_nil htr₀.ne_nil
  obtain ⟨htree₀, hold⟩ := trace_newFile htr₀
  rcases List.mem_cons.1 hU with rfl | hU
  · rw [htree₀]
    rfl
  · rcases hold U hU with h | h <;> rw [h] <;> rfl

theorem copyable_sourceFile {P : File → Prop} {i : Nat} (hP : P ⟨[1], tenBytes⟩) (V : Version) (Vs : Treeseq)
    (htr : Trace (sourceFile i) (V :: Vs)) : Copyable [[97]] i P V Vs :=
  ⟨((find_sourceFile i).mono fun _ hf => hf ▸ hP) V Vs htr, free_sourceFile htr⟩

theorem exists_sourceFile : ∃ i h ams s, Life h 1 1 256 (sourceFile i) (some ams) s := by
  obtain ⟨i, h₀, ams₀, s₀, hlife₀, ha₀, hlen₀⟩ := exists_tenFile
  obtain ⟨h, ams, s, hlife, _⟩ := hlife₀.updateFblockD ha₀ (by omega) (legal_sourceFile i)
  exact ⟨i, h, ams, s, hlife⟩

theorem atomic_cp_crash_safe_small : ∃ h i ams s, Life h 1 1 256 (sourceFile i) (some ams) s ∧
    ∃ V₀ Vs₀ src, Trace (sourceFile i) (V₀ :: Vs₀) ∧ findSubtree [[97]] V₀.tree = some (.file i src) ∧
      CopyRuns h (AFS.computeXparams 1 1 256 SB.magicNumber) (AFS.diskSize 1 1) (SameBytes src) V₀ Vs₀ [] [98]
        Except.isOk (ByteAtomicCp.atomicCp true (AFS.computeXparams 1 1 256 SB.magicNumber) 1 i [] [98] ams) s := by
  obtain ⟨i, h, ams, s, hlife⟩ := exists_sourceFile
  refine ⟨h, i, ams, s, hlife, atomic_cp_crash_safe (by decide) (by decide) (by decide) (by decide) h (sourceFile i) ams s [[97]] i
    [] [98] true hlife (legal_sourceFile i) (by decide) (copyable_sourceFile ?_)⟩
  rw [bytes_tenBytes]
  decide

theorem atomic_cp_block_crash_safe_small : ∃ h i ams s, Life h 1 1 256 (sourceFile i) (some ams) s ∧
    ∃ V₀ Vs₀ src b, Trace (sourceFile i) (V₀ :: Vs₀) ∧ findSubtree [[97]] V₀.tree = some (.file i src) ∧ src.data[0]? = some b ∧
      CopyRuns h (AFS.computeXparams 1 1 256 SB.magicNumber) (AFS.diskSize 1 1) (· = ⟨[b], src.attr⟩) V₀ Vs₀
        [] [98] id (ATOMICCP.atomicCp true (AFS.computeXparams 1 1 256 SB.magicNumber) 1 i [] [98] ams) s := by
  obtain ⟨i, h, ams, s, hlife⟩ := exists_sourceFile
  exact ⟨h, i, ams, s, hlife, atomic_cp_block_crash_safe (by decide) (by decide) (by decide) (by decide) h (sourceFile i) ams s
    [[97]] i [] [98] true hlife (legal_sourceFile i) (by decide) (copyable_sourceFile Nat.one_pos)⟩

end TreeSeq

end Fscq
