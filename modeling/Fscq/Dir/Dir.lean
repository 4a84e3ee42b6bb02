import Fscq.Dir.FileRecArray

/-!
# Directories

A directory is a file of entries (`Dent`), each with a name, an inode number, a flag for directories and a flag that says
if the entry is in use. `DIR` works with names as words and `SDIR` with strings. What a directory means is the list of its
entries in use (`dirents`), without two of one name (`DirOk`); linking adds an entry to it, unlinking removes one.
-/

namespace Fscq

open TxnLogic

namespace DIR

open BFILE (Memstate MsRep FileDone)

abbrev dentType : Rec.Typ := .RecF
  [("name", .WordF filenameLen), ("inum", .WordF 64), ("valid", .WordF 1), ("isdir", .WordF 1), ("unused", .WordF (addrlen - 2))]

abbrev dentSig : RASig := ⟨dentType, valulen / Rec.len dentType, rfl⟩

abbrev Dent : Type := dentSig.Item

def dent0 : Dent := dentSig.item0

def bit2bool (bit : BitVec 1) : Bool := if bit = 0 then false else true

def bool2bit (b : Bool) : BitVec 1 := if b = true then 1 else 0

def deName (de : Dent) : Filename := de.1

def deInum (de : Dent) : Nat := de.2.1.toNat

def deValid (de : Dent) : BitVec 1 := de.2.2.1

def deIsDir (de : Dent) : BitVec 1 := de.2.2.2.1

def mkDent (name : Filename) (inum : Nat) (isdir : Bool) : Dent :=
  (name, BitVec.ofNat 64 inum, 1, bool2bit isdir, dent0.2.2.2.2)

def isDir (de : Dent) : Bool := bit2bool (deIsDir de)

def isValid (de : Dent) : Bool := bit2bool (deValid de)

def nameIs (n : Filename) (de : Dent) : Bool := if n = deName de then true else false

/-! ## Programs -/

section Programs

variable (xp : FsXparams) (dnum : Nat)

def lookupF (name : Filename) (de : Dent) (_ : Nat) : Bool := isValid de && nameIs name de

def ifindLookupF (name : Filename) (ms : Memstate) : TBody (Memstate × Option (Nat × Dent)) :=
  FileRecArray.ifind dentSig xp dnum (lookupF name) ms

def ifindInvalid (ms : Memstate) : TBody (Memstate × Option (Nat × Dent)) :=
  FileRecArray.ifind dentSig xp dnum (fun de _ => !isValid de) ms

def lookup (name : Filename) (ms : Memstate) : TBody (Memstate × Option (Nat × Bool)) := do
  let (ms, r) ← ifindLookupF xp dnum name ms
  match r with
  | none => pure (ms, none)
  | some (_, de) => pure (ms, some (deInum de, isDir de))

def readdir (ms : Memstate) : TBody (Memstate × List (Filename × (Nat × Bool))) := do
  let (ms, dents) ← FileRecArray.readall dentSig xp dnum ms
  pure (ms, (dents.filter isValid).map fun de => (deName de, (deInum de, isDir de)))

def unlink (name : Filename) (ms : Memstate) : TBody (Memstate × Nat × Except Errno Unit) := do
  let (ms, r) ← ifindLookupF xp dnum name ms
  match r with
  | none => pure (ms, 0, .error .ENOENT)
  | some (ix, _) => do
    let ms ← FileRecArray.put dentSig xp dnum ix dent0 ms
    pure (ms, ix, .ok ())

def link' (name : Filename) (inum : Nat) (isdir : Bool) (ms : Memstate) : TBody (Memstate × Nat × Except Errno Unit) := do
  let de := mkDent name inum isdir
  let (ms, r) ← ifindInvalid xp dnum ms
  match r with
  | some (ix, _) => do
    let ms ← FileRecArray.put dentSig xp dnum ix de ms
    pure (ms, ix + 1, .ok ())
  | none => do
    let (ms, ok) ← FileRecArray.extend dentSig xp dnum de ms
    pure (ms, 0, ok)

/-- Link with a hint where a free entry may be. -/
def link (name : Filename) (inum : Nat) (isdir : Bool) (ix0 : Nat) (ms : Memstate) :
    TBody (Memstate × Nat × Except Errno Unit) := do
  let de := mkDent name inum isdir
  let (ms, len) ← BFILE.getlen xp dnum ms
  if ix0 < len * dentSig.itemsPerVal then do
    let (ms, res) ← FileRecArray.get dentSig xp dnum ix0 ms
    match isValid res with
    | true => link' xp dnum name inum isdir ms
    | false => do
      let ms ← FileRecArray.put dentSig xp dnum ix0 de ms
      pure (ms, ix0 + 1, .ok ())
  else link' xp dnum name inum isdir ms

end Programs

end DIR

namespace SDIR

open BFILE (Memstate)

section Programs

variable (xp : FsXparams) (dnum : Nat)

def lookup (name : Sname) (ms : Memstate) : TBody (Memstate × Option (Nat × Bool)) :=
  if isValidSname name = true then DIR.lookup xp dnum (sname2wname name) ms else pure (ms, none)

def unlink (name : Sname) (ms : Memstate) : TBody (Memstate × Nat × Except Errno Unit) :=
  if isValidSname name = true then DIR.unlink xp dnum (sname2wname name) ms else pure (ms, 0, .error .ENAMETOOLONG)

def link (name : Sname) (inum : Nat) (isdir : Bool) (ix0 : Nat) (ms : Memstate) :
    TBody (Memstate × Nat × Except Errno Unit) :=
  if isValidSname name = true then DIR.link xp dnum (sname2wname name) inum isdir ix0 ms
  else pure (ms, 0, .error .ENAMETOOLONG)

def readdirTrans (di : DIR.Filename × (Nat × Bool)) : Sname × (Nat × Bool) := (wname2sname di.1, di.2)

def readdir (ms : Memstate) : TBody (Memstate × List (Sname × (Nat × Bool))) := do
  let (ms, r) ← DIR.readdir xp dnum ms
  pure (ms, r.map readdirTrans)

end Programs

end SDIR

end Fscq
