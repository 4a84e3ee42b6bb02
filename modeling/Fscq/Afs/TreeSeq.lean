import Fscq.Afs.CrashRun
import Fscq.Dir.FileData

/-!
# Tree sequences

What an application may rely on when it also writes to files directly, past the log. The abstract state is the sequence of
the tree now and of those that a power failure may fall back to, newest first (`Treeseq`); with each tree there are the
older values of the blocks of its files. A call that goes through the log adds a tree. A direct write is seen in each tree
since which the file has kept the block (`Kept`), and leaves the value from before as an older one; `fileSync` drops the
older values of a file there, `treeSync` drops the older trees, and `umount` drops everything but the tree now. A power
failure picks one of the trees, and for each block of its files the value or an older one (`Version.Falls`).
-/

namespace Fscq

open Dirtree (findSubtree findDirlist treeGraft updateSubtree mapFiles HasNode InodesDistinct NamesDistinct)
open INODE (iattrUpd iattr0)
open AFS (Memstate)
open FsRun (Result)

namespace TreeSeq

/-! ## Calls -/

/-- The calls of `FsRun`, with those that write past the log and the ones that do not put their memory state back. -/
inductive Call
  | basic (c : FsRun.Call)
  | mksock (dnum : Nat) (name : Sname)
  | fileSetSz (inum : Nat) (sz : BitVec 64)
  | updateFblockD (inum off : Nat) (v : Valu)
  | fileSync (inum : Nat)
  | umount

def Call.run (fl : Bool) (xp : FsXparams) : Call → Memstate → FProg (Memstate × Result)
  | .basic c, ams => c.run fl xp ams
  | .mksock dnum name, ams => Prod.map id .inode <$> AFS.mksock fl xp dnum name ams
  | .fileSetSz inum sz, ams => Prod.map id .done <$> AFS.fileSetSz fl xp inum sz ams
  | .updateFblockD inum off v, ams => (fun ams => (ams, .written true)) <$> AFS.updateFblockD xp inum off v ams
  | .fileSync inum, ams => (fun ams => (ams, .synced)) <$> AFS.fileSync xp inum ams
  | .umount, ams => (fun ams => (ams, .synced)) <$> AFS.umount xp ams

def Call.Valid (T : FsTree) : Call → Prop
  | .basic c => c.Valid T
  | .mksock dnum _ => ∃ p ents, findSubtree p T = some (.dir dnum ents)
  | .fileSetSz inum _ | .fileSync inum => ∃ p f, findSubtree p T = some (.file inum f)
  | .updateFblockD inum off _ => HasBlock T inum off
  | .umount => True

/-- What a successful call that goes through the log does to the tree. -/
inductive Updates (T : FsTree) : Call → Result → FsTree → Prop
  | basic {c r T'} : FsRun.Updates T c r T' → Updates T (.basic c) r T'
  | mksock {p dnum ents name inum} : findSubtree p T = some (.dir dnum ents) → findDirlist name ents = none →
      (∀ q u, findSubtree q T = some u → u.inum ≠ inum) →
      Updates T (.mksock dnum name) (.inode (.ok inum))
        (treeGraft dnum ents p name (.file inum ⟨[], iattrUpd iattr0 (.UType 1)⟩) T)
  | fileSetSz {p inum f sz} : findSubtree p T = some (.file inum f) →
      Updates T (.fileSetSz inum sz) (.done (.ok ())) (updateSubtree p (.file inum ⟨f.data, iattrUpd f.attr (.UBytes sz)⟩) T)

/-- A call that fails after it has changed its memory state: what it returns does not agree with the disk. -/
inductive Lost : Call → Result → Prop
  | mkdir {dnum name e} : Lost (.basic (.mkdir dnum name)) (.inode (.error e))
  | mksock {dnum name e} : Lost (.mksock dnum name) (.inode (.error e))
  | fileSetSz {inum sz e} : Lost (.fileSetSz inum sz) (.done (.error e))

/-- The blocks that a call overwrites in the log. -/
def Call.Overwrites : Call → Nat → Nat → Prop
  | .basic (.updateFblock inum off _) => fun i o => i = inum ∧ o = off
  | _ => fun _ _ => False

/-! ## The machine -/

def ValueAt (T : FsTree) (i off : Nat) (v : Valu) : Prop := ∃ p f, findSubtree p T = some (.file i f) ∧ f.data[off]? = some v

/-- A tree that a power failure may fall back to. -/
structure Version where
  tree : FsTree
  /-- The older values of the blocks of files. -/
  old : Nat → Nat → Valu → Prop

/-- A tree with nothing behind it. -/
def Version.settled (T : FsTree) : Version := ⟨T, fun _ _ _ => False⟩

/-- The version after a call through the log: blocks that are new or that it overwrites have no older value. -/
def Version.next (V : Version) (c : Call) (T' : FsTree) : Version :=
  ⟨T', fun i off w => V.old i off w ∧ HasBlock V.tree i off ∧ HasBlock T' i off ∧ ¬ c.Overwrites i off⟩

def setBlock (inum off : Nat) (v : Valu) (T : FsTree) : FsTree :=
  mapFiles (fun i f => if i = inum then ⟨f.data.set off v, f.attr⟩ else f) T

/-- A block is written directly; what was there is an older value now. -/
def Version.write (inum off : Nat) (v : Valu) (V : Version) : Version :=
  ⟨setBlock inum off v V.tree, fun i o w => V.old i o w ∨ (i = inum ∧ o = off ∧ ValueAt V.tree i o w)⟩

/-- Some blocks of a file are synced. -/
def Version.sync (inum : Nat) (K : Nat → Prop) (V : Version) : Version :=
  ⟨V.tree, fun i off w => V.old i off w ∧ ¬ (i = inum ∧ K off)⟩

/-- The versions, newest first. -/
abbrev Treeseq : Type := List Version

/-- The file has kept the block since the version `k`. -/
def Kept (Vs : Treeseq) (k i off : Nat) : Prop := ∀ j, j ≤ k → ∀ V, Vs[j]? = some V → HasBlock V.tree i off

open Classical in
noncomputable def writeBlock (inum off : Nat) (v : Valu) (Vs : Treeseq) : Treeseq :=
  Vs.mapIdx fun k V => if Kept Vs k inum off then V.write inum off v else V

def syncFile (inum : Nat) (Vs : Treeseq) : Treeseq := Vs.mapIdx fun k V => V.sync inum (Kept Vs k inum)

/-- A call that returns. -/
inductive Step : Treeseq → Call → Result → Treeseq → Prop
  | update {V Vs c r T'} : Updates V.tree c r T' → Step (V :: Vs) c r (V.next c T' :: V :: Vs)
  | read {V Vs c r} : FsRun.Reads V.tree c r → Step (V :: Vs) (.basic c) r (V :: Vs)
  | failed {Vs c r} : FsRun.Fails c r → Step Vs (.basic c) r Vs
  | updateFblockD {Vs inum off v} : Kept Vs 0 inum off →
      Step Vs (.updateFblockD inum off v) (.written true) (writeBlock inum off v Vs)
  | fileSync {Vs inum} : Step Vs (.fileSync inum) .synced (syncFile inum Vs)
  | treeSync {V Vs} : Step (V :: Vs) (.basic .treeSync) .synced [V]
  | umount {V Vs} : Step (V :: Vs) .umount .synced [.settled V.tree]

/-- Each block of a file has its value or an older one. -/
structure Survives (old : Nat → Valu → Prop) (f f' : File) : Prop where
  attr : f'.attr = f.attr
  length : f'.data.length = f.data.length
  value : ∀ off v, f'.data[off]? = some v → f.data[off]? = some v ∨ old off v

/-- The version after a power failure: the same tree, with files that have survived. -/
def Version.Falls (V : Version) (T' : FsTree) : Prop :=
  ∃ g, T' = mapFiles g V.tree ∧ ∀ p i f, findSubtree p V.tree = some (.file i f) → Survives (V.old i) f (g i f)

/-- What a power failure during a call leaves: it may be as before the call, or as after it. -/
def Crash (Vs : Treeseq) (c : Option Call) (T' : FsTree) : Prop :=
  ∃ Vs', (Vs' = Vs ∨ ∃ c' r, c = some c' ∧ Step Vs c' r Vs') ∧ ∃ V ∈ Vs', V.Falls T'

inductive Event
  /-- A call returns. -/
  | call (c : Call) (r : Result)
  /-- The power fails, between two calls or in one, and the file system is mounted again. -/
  | crash (c : Option Call)

/-- What the machine may do on a new file system, with the last event first. -/
inductive Trace : List Event → Treeseq → Prop
  | mkfs : Trace [] [.settled (.dir 1 [])]
  | call {es Vs c r Vs'} : Trace es Vs → Step Vs c r Vs' → Trace (.call c r :: es) Vs'
  | crash {es Vs c T'} : Trace es Vs → Crash Vs c T' → Trace (.crash c :: es) [.settled T']

/-- The call is possible whatever state the machine is in. What earlier calls returned says which states these are. -/
def Call.Possible (es : List Event) (c : Call) : Prop := ∀ V Vs, Trace es (V :: Vs) → c.Valid V.tree

/-- The calls are possible, and none of them lost its memory state. -/
def Legal : List Event → Prop
  | [] => True
  | .call c r :: es => Legal es ∧ c.Possible es ∧ ¬ Lost c r
  | .crash c :: es => Legal es ∧ ∀ c', c = some c' → c'.Possible es

/-! ## The nodes of a tree after a call -/

section Nodes

variable {T T' : FsTree} {p : List Sname} {inum i : Nat} {f f' : File} {b : Bool}

theorem hasNode_setFile (hp : findSubtree p T = some (.file inum f)) (h : HasNode (updateSubtree p (.file inum f') T) i b) :
    HasNode T i b := by
  rcases Dirtree.hasNode_updateSubtree h with h | h
  · exact h
  · obtain ⟨rfl, rfl⟩ := Dirtree.hasNode_file h
    exact Dirtree.hasNode_of_find hp

theorem not_hasNode (hnew : ∀ q u, findSubtree q T = some u → u.inum ≠ i) : ¬ HasNode T i b := by
  rintro ⟨q, u, hq, hi, _⟩
  exact hnew q u hq hi

theorem hasNode_newFile {dnum : Nat} {ents : List (Sname × FsTree)} {name : Sname}
    (hp : findSubtree p T = some (.dir dnum ents)) (hnew : ∀ q u, findSubtree q T = some u → u.inum ≠ inum)
    (h : HasNode (treeGraft dnum ents p name (.file inum f) T) i b) : HasNode T i b ∨ ∀ b', ¬ HasNode T i b' := by
  refine (Dirtree.hasNode_treeGraft hp h).imp id fun h b' => ?_
  obtain ⟨rfl, _⟩ := Dirtree.hasNode_file h
  exact not_hasNode hnew

/-- A node of the new tree was the same kind of node before, or has a new number. -/
theorem fsUpdates_nodes {c : FsRun.Call} {r : Result} (hn : NamesDistinct T) (hu : FsRun.Updates T c r T')
    (h : HasNode T' i b) : HasNode T i b ∨ ∀ b', ¬ HasNode T i b' := by
  cases hu with
  | create hp _ hnew => exact hasNode_newFile hp hnew h
  | mkdir hp _ hnew =>
    refine (Dirtree.hasNode_treeGraft hp h).imp id fun h b' => ?_
    rcases Dirtree.hasNode_dir h with ⟨rfl, _⟩ | ⟨name, c, hc, _⟩
    · exact not_hasNode hnew
    · cases hc
  | delete hp => exact .inl (Dirtree.hasNode_treePrune hp hn h)
  | @rename _ _ _ _ srcname _ _ _ snum sents S _ _ _ hr =>
    left
    have hS : findSubtree [srcname] (.dir snum sents) = some S := by simp [hr.moved]
    rw [hr.tree] at h
    rcases Dirtree.hasNode_treeGraft hr.dest h with h | h
    · exact Dirtree.hasNode_treePrune hr.source hn h
    · exact (h.of_sub hS).of_sub hr.source
  | fileTruncate hp | fileSetAttr hp | updateFblock hp => exact .inl (hasNode_setFile hp h)

theorem Updates.nodes {c : Call} {r : Result} (hn : NamesDistinct T) (hu : Updates T c r T') (h : HasNode T' i b) :
    HasNode T i b ∨ ∀ b', ¬ HasNode T i b' := by
  cases hu with
  | basic hu => exact fsUpdates_nodes hn hu h
  | mksock hp _ hnew => exact hasNode_newFile hp hnew h
  | fileSetSz hp => exact .inl (hasNode_setFile hp h)

end Nodes

end TreeSeq

end Fscq
