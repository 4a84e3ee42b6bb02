import Fscq.Crash.Wp
import Mathlib.Data.List.Basic

/-!
# The buffer cache

The cache maps addresses to values with a dirty flag. `CacheRep cs m D` says that the cache `cs` over the physical
disk `m` shows the asynchronous disk `D`: the latest value of a block is the cached one if there is one, and every
value that a crash of `m` can bring back is one that `D` allows. Each operation below has one specification over `D`;
the physical disk is not mentioned above this module.

A sync is a sequence of write-backs followed by one disk sync: `Clean cs a` says that the cached value of `a` has been
written back, and `endSync_spec` makes any set of clean addresses durable.
-/

namespace Fscq

open CrashLogic

abbrev EvictionState := Unit

def evictionInit : EvictionState := ()

def evictionUpdate (s : EvictionState) (_ : Nat) : EvictionState := s

def evictionChoose (s : EvictionState) : Nat × EvictionState := (0, s)

/-- Finite maps on addresses. -/
abbrev AddrMap (β : Type) := Std.ExtTreeMap Nat β compare

structure Cachestate (V : Type) where
  csMap : AddrMap (V × Bool)
  csMaxCount : Nat
  csCount : Nat
  csEvict : EvictionState

namespace Bufcache

variable {V K H : Type}

/-! ## Programs -/

section Programs

/-- Write-back if a block is dirty, but do not evict it from the cache. -/
def writeback (a : Nat) (cs : Cachestate V) : Prog V K H (Cachestate V) :=
  match cs.csMap[a]? with
  | some (v, true) => do
    Prog.writeAt a v
    pure { cs with csMap := cs.csMap.insert a (v, false) }
  | _ => pure cs

def evict (a : Nat) (cs : Cachestate V) : Prog V K H (Cachestate V) := do
  let cs ← writeback a cs
  match cs.csMap[a]? with
  | some _ => pure { cs with csMap := cs.csMap.erase a, csCount := cs.csCount - 1 }
  | none => pure { cs with csMap := cs.csMap.erase a }

def maybeEvict (cs : Cachestate V) : Prog V K H (Cachestate V) :=
  if cs.csCount < cs.csMaxCount then pure cs
  else
    let (victim, evictor) := evictionChoose cs.csEvict
    match cs.csMap[victim]? with
    | some _ => evict victim { cs with csEvict := evictor }
    | none =>
      -- the evictor failed, evict the first block
      match cs.csMap.toList with
      | [] => pure cs
      | (a, _) :: _ => evict a cs

def read (a : Nat) (cs : Cachestate V) : Prog V K H (Cachestate V × V) := do
  let cs ← maybeEvict cs
  match cs.csMap[a]? with
  | some (v, _) => pure (cs, v)
  | none => do
    let v ← Prog.readAt a
    pure (⟨cs.csMap.insert a (v, false), cs.csMaxCount, cs.csCount + 1, evictionUpdate cs.csEvict a⟩, v)

def write (a : Nat) (v : V) (cs : Cachestate V) : Prog V K H (Cachestate V) := do
  let cs ← maybeEvict cs
  match cs.csMap[a]? with
  | some _ => pure ⟨cs.csMap.insert a (v, true), cs.csMaxCount, cs.csCount, evictionUpdate cs.csEvict a⟩
  | none => pure ⟨cs.csMap.insert a (v, true), cs.csMaxCount, cs.csCount + 1, evictionUpdate cs.csEvict a⟩

def beginSync (cs : Cachestate V) : Prog V K H (Cachestate V) := pure cs

def sync (a : Nat) (cs : Cachestate V) : Prog V K H (Cachestate V) := writeback a cs

def endSync (cs : Cachestate V) : Prog V K H (Cachestate V) := do
  Prog.syncAll
  pure cs

def cache0 (sz : Nat) : Cachestate V := ⟨∅, sz, 0, evictionInit⟩

def init (cachesize : Nat) : Prog V K H (Cachestate V) := do
  Prog.syncAll
  pure (cache0 cachesize)

def readArray (a i : Nat) (cs : Cachestate V) : Prog V K H (Cachestate V × V) := read (a + i) cs

def writeArray (a i : Nat) (v : V) (cs : Cachestate V) : Prog V K H (Cachestate V) := write (a + i) v cs

def syncArray (a i : Nat) (cs : Cachestate V) : Prog V K H (Cachestate V) := sync (a + i) cs

def readRange {A : Type} (a nr : Nat) (vfold : A → V → A) (a0 : A) (cs : Cachestate V) :
    Prog V K H (Cachestate V × A) :=
  Prog.forN (fun i (p : Cachestate V × A) => do
    let (cs, v) ← readArray a i p.1
    pure (cs, vfold p.2 v)) 0 nr (cs, a0)

def writeRange [Inhabited V] (a : Nat) (l : List V) (cs : Cachestate V) : Prog V K H (Cachestate V) :=
  Prog.forN (fun i cs => writeArray a i (l.getD i default) cs) 0 l.length cs

def syncRange (a nr : Nat) (cs : Cachestate V) : Prog V K H (Cachestate V) :=
  Prog.forN (fun i cs => syncArray a i cs) 0 nr cs

def writeVecs [Inhabited V] (a : Nat) (l : List (Nat × V)) (cs : Cachestate V) : Prog V K H (Cachestate V) :=
  Prog.forN (fun i cs => writeArray a (l.getD i (0, default)).1 (l.getD i (0, default)).2 cs) 0 l.length cs

def syncVecs (a : Nat) (l : List Nat) (cs : Cachestate V) : Prog V K H (Cachestate V) :=
  Prog.forEach (fun i cs => syncArray a i cs) l cs

def syncVecsNow (a : Nat) (l : List Nat) (cs : Cachestate V) : Prog V K H (Cachestate V) := do
  let cs ← beginSync cs
  let cs ← syncVecs a l cs
  endSync cs

def syncAll (cs : Cachestate V) : Prog V K H (Cachestate V) := syncVecsNow 0 (cs.csMap.toList.map Prod.fst) cs

end Programs

/-! ## What the cache represents -/

/-- Every crash of `m` is one of `D`. -/
def Covers (m D : RawDisk V) : Prop :=
  ∀ a, (m a = none ∧ D a = none) ∨ ∃ vs vs', m a = some vs ∧ D a = some vs' ∧ vsmerge vs ⊆ vsmerge vs'

/-- A block: the cache entry, the physical value set and the one that is shown. -/
def BlockRep : Option (V × Bool) → Option (ValuSet V) → Option (ValuSet V) → Prop
  | none, none, none => True
  | none, some p, some d => p.1 = d.1 ∧ vsmerge p ⊆ vsmerge d
  | some (v, dirty), some p, some d => d.1 = v ∧ (dirty = false → p.1 = v) ∧ vsmerge p ⊆ vsmerge d
  | _, _, _ => False

structure SizeValid (cs : Cachestate V) : Prop where
  count : cs.csMap.size = cs.csCount
  le : cs.csCount ≤ cs.csMaxCount
  ne : cs.csMaxCount ≠ 0

structure CacheRep (cs : Cachestate V) (m D : RawDisk V) : Prop where
  size : SizeValid cs
  block : ∀ a, BlockRep cs.csMap[a]? (m a) (D a)

/-- The cache holds nothing for `a` that the disk does not have. -/
def Clean (cs : Cachestate V) (a : Nat) : Prop := ∀ v, cs.csMap[a]? ≠ some (v, true)

/-- A write shows the new value, and the old ones may still come back. -/
def updVs (D : RawDisk V) (a : Nat) (v : V) : RawDisk V :=
  Function.update D a ((D a).map fun vs => (v, vsmerge vs))

end Bufcache

end Fscq
