import Fscq.Txn.Finishes
import Fscq.Crash.Hashes
import Mathlib.Data.BitVec

/-!
# How much the log hashes

The log hashes the blocks that it writes into the log region, and it checks first that they fit. So a flush hashes no more
keys than the log has blocks, whatever the disk holds (`hashes_flush`).
-/

namespace Fscq

open CrashLogic CrashLogic.Prog

instance : Fintype HashVal := Fintype.ofEquiv (Fin (2 ^ hashlen)) BitVec.equivFin.symm.toEquiv

theorem card_hashVal : Fintype.card HashVal = 2 ^ hashlen := by
  rw [Fintype.card_congr BitVec.equivFin.toEquiv, Fintype.card_fin]

namespace Bufcache

variable {V K H : Type}

theorem hashFree_write (a : Nat) (v : V) (cs : Cachestate V) : (write (K := K) (H := H) a v cs).HashFree := by
  refine (hashFree_maybeEvict cs).bind fun cs' => ?_
  split
  · exact trivial
  · exact trivial

theorem hashFree_endSync (cs : Cachestate V) : (endSync (K := K) (H := H) cs).HashFree := trivial

theorem hashFree_writeRange [Inhabited V] (a : Nat) (l : List V) (cs : Cachestate V) :
    (writeRange (K := K) (H := H) a l cs).HashFree :=
  hashFree_forN (fun _ _ => hashFree_write _ _ _) _ _ _

theorem hashFree_syncRange (a n : Nat) (cs : Cachestate V) : (syncRange (K := K) (H := H) a n cs).HashFree :=
  hashFree_forN (fun _ _ => hashFree_writeback _ _) _ _ _

theorem hashFree_writeVecs [Inhabited V] (a : Nat) (l : List (Nat × V)) (cs : Cachestate V) :
    (writeVecs (K := K) (H := H) a l cs).HashFree :=
  hashFree_forN (fun _ _ => hashFree_write _ _ _) _ _ _

theorem hashFree_syncVecsNow (a : Nat) (l : List Nat) (cs : Cachestate V) : (syncVecsNow (K := K) (H := H) a l cs).HashFree :=
  (hashFree_forEach (fun _ _ => hashFree_writeback _ _) l cs).bind fun cs' => hashFree_endSync cs'

end Bufcache

open Bufcache

theorem Hdr.hashFree_read (xp : LogXparams) (cs : CacheSt) : (Hdr.read xp cs).HashFree :=
  (Bufcache.hashFree_read _ cs).bind fun _ => by exact trivial

theorem Hdr.hashFree_syncNow (xp : LogXparams) (cs : CacheSt) : (Hdr.syncNow xp cs).HashFree :=
  (hashFree_writeback _ cs).bind fun cs' => hashFree_endSync cs'

theorem Hdr.hashes_init (xp : LogXparams) (cs : CacheSt) : (Hdr.init xp cs).Hashes 1 :=
  fun _ => ((hashFree_write _ _ _).bind fun _ => (hashFree_writeback _ _).bind fun cs' => hashFree_endSync cs').hashes

theorem hashes_hashList (x : HashVal) (values : List Valu) : (hashList x values).Hashes values.length :=
  hashes_forEach (fun _ _ => by exact fun _ => trivial) _ _

namespace PaddedLog

/-- What a flush may hash. -/
def logBlocks (xp : LogXparams) : Nat := xp.logDescLen + xp.logLen

theorem hashes_trunc (xp : LogXparams) (cs : CacheSt) : (trunc xp cs).Hashes 1 := by
  refine (Hdr.hashFree_read xp cs).bind_hashes fun r => ?_
  exact fun _ => ((hashFree_write _ _ _).bind fun cs' => Hdr.hashFree_syncNow xp cs').hashes

theorem hashFree_avail (xp : LogXparams) (cs : CacheSt) : (avail xp cs).HashFree :=
  (Hdr.hashFree_read xp cs).bind fun _ => by exact trivial

theorem hashes_extend (xp : LogXparams) (log : Contents) (cs : CacheSt) : (extend xp log cs).Hashes (logBlocks xp) := by
  refine (Hdr.hashFree_read xp cs).bind_hashes ?_
  rintro ⟨cs, nr⟩
  dsimp only
  split
  · rename_i hvalid
    have hdesc : (DescSig.nopadIpack (log.map entAddr)).length ≤ xp.logDescLen := by
      rw [DescSig.length_nopadIpack, List.length_map]
      exact (Nat.le_add_left _ _).trans hvalid.1
    have hdata : (valsNonzero log).length ≤ xp.logLen := by
      rw [valsNonzero, List.length_map, ← ndataLog_eq_length]
      exact (Nat.le_add_left _ _).trans hvalid.2
    refine Hashes.bind (fun x => Hashes.bind_free (fun y => ?_) ((hashes_hashList _ _).mono hdata))
      ((hashes_hashList _ _).mono hdesc)
    refine (hashFree_writeRange _ _ _).bind fun cs₁ => (hashFree_writeRange _ _ _).bind fun cs₂ => ?_
    refine (hashFree_write _ _ _).bind fun cs₃ => (hashFree_syncRange _ _ _).bind fun cs₄ => ?_
    refine (hashFree_syncRange _ _ _).bind fun cs₅ => (hashFree_writeback _ _).bind fun cs₆ => ?_
    exact (hashFree_endSync cs₆).bind fun _ => by exact trivial
  · exact trivial

end PaddedLog

open PaddedLog (logBlocks)

namespace MLog

theorem hashes_apply (xp : LogXparams) (ms : Memstate) : (apply xp ms).Hashes 1 := by
  refine (hashFree_writeVecs _ _ _).bind_hashes fun cs₁ => (hashFree_syncVecsNow _ _ _).bind_hashes fun cs₂ => ?_
  exact (PaddedLog.hashes_trunc xp cs₂).bind_free fun _ => by exact trivial

theorem hashes_flush (xp : LogXparams) (ents : PaddedLog.Contents) (ms : Memstate) :
    (flush xp ents ms).Hashes (1 + logBlocks xp) := by
  unfold flush
  split
  · exact trivial
  refine (PaddedLog.hashFree_avail xp ms.msCache).bind_hashes fun r => Hashes.bind (fun ms' => ?_) ?_
  · refine (PaddedLog.hashes_extend xp ents ms'.msCache).bind_free fun q => ?_
    obtain ⟨cs, _ | _⟩ := q <;> exact trivial
  · split
    · exact hashes_apply xp _
    · exact trivial

theorem hashes_dwrite (xp : LogXparams) (a : Nat) (v : Valu) (ms : Memstate) : (dwrite xp a v ms).Hashes 1 := by
  refine Hashes.bind_free (fun ms' => (hashFree_write _ _ _).bind fun _ => by exact trivial) ?_
  split
  · exact hashes_apply xp ms
  · exact trivial

end MLog

namespace GLog

/-- If all transactions together fit into the log, there is one flush. -/
theorem hashes_flushall {xp : LogXparams} {ms : Memstate} (hsize : ms.msVMap.size ≤ xp.logLen) :
    (flushall xp ms).Hashes (1 + logBlocks xp) := by
  rw [flushall_eq, if_pos hsize]
  exact (MLog.hashes_flush xp _ _).bind_free fun _ => by exact trivial

theorem hashes_flushsync {xp : LogXparams} {ms : Memstate} (hsize : ms.msVMap.size ≤ xp.logLen) :
    (flushsync xp ms).Hashes (2 + logBlocks xp) := by
  have hsum : 2 + logBlocks xp = 1 + logBlocks xp + 1 := by omega
  rw [hsum]
  refine Hashes.bind (fun ms' => ?_) (hashes_flushall hsize)
  exact (MLog.hashes_apply xp ms'.msLL).bind_free fun _ => by exact trivial

theorem hashes_dwrite {xp : LogXparams} {ms : Memstate} (hsize : ms.msVMap.size ≤ xp.logLen) (a : Nat) (v : Valu) :
    (dwrite xp a v ms).Hashes (1 + logBlocks xp + 1) := by
  have hlow : ∀ ms' : Memstate, (dwrite' xp a v ms').Hashes 1 := fun ms' =>
    (MLog.hashes_dwrite xp a v ms'.msLL).bind_free fun _ => by exact trivial
  unfold dwrite
  split
  · exact Hashes.bind hlow (hashes_flushall hsize)
  · exact (hlow ms).mono (Nat.le_add_left _ _)

end GLog

namespace LOG

variable {h : HashKey → HashVal} {xp : LogXparams} {n : Nat} {st : LogState} {ms : Memstate} {s : St Valu HashKey}

/-- The updates of the committed transactions are at blocks of the disk. -/
theorem LRep.size_le (hr : LRep h xp n st ms s) : ms.msLL.msVMap.size ≤ n := by
  rw [← Std.ExtTreeMap.length_toList, hr.low.vmap]
  exact (GLog.mapIn_txnMap hr.low.ents).length_le

theorem hashes_flushall (hr : LRep h xp n st ms s) (hlog : n ≤ xp.logLen) : (flushall xp ms).Hashes (1 + logBlocks xp) :=
  (GLog.hashes_flushall (hr.size_le.trans hlog)).bind_free fun _ => by exact trivial

theorem hashes_flushsync (hr : LRep h xp n st ms s) (hlog : n ≤ xp.logLen) : (flushsync xp ms).Hashes (2 + logBlocks xp) :=
  (GLog.hashes_flushsync (hr.size_le.trans hlog)).bind_free fun _ => by exact trivial

/-- Reading keeps the committed transactions. -/
theorem returns_exec {α : Type} (xp : LogXparams) : ∀ (p : TBody α) (ms : Memstate),
    (exec xp p ms).Returns fun r => r.1.msLL.msVMap = ms.msLL.msVMap
  | .ret _, _ => rfl
  | .read a k, ms => by
    refine Returns.bind (R := fun r => r.1.msLL.msVMap = ms.msLL.msVMap) ?_ ?_
    · rintro ⟨ms', v⟩ hms
      have hrec := returns_exec xp (k v) ms'
      rwa [show ms'.msLL.msVMap = ms.msLL.msVMap from hms] at hrec
    · unfold read GLog.read
      split
      · rfl
      · dsimp only
        split
        · rfl
        · exact Returns.bind (R := fun r => r.1.msVMap = ms.msLL.msVMap) (fun _ hr => by exact hr)
            (returns_seq (fun _ => by exact rfl) _)
  | .write a v k, ms => returns_exec xp k ⟨ms.msTxn.insert a v, ms.msLL⟩

theorem hashes_dwrite {ms : Memstate} (hsize : ms.msLL.msVMap.size ≤ xp.logLen) (a : Nat) (v : Valu) :
    (dwrite xp a v ms).Hashes (1 + logBlocks xp + 1) :=
  (GLog.hashes_dwrite hsize a v).bind_free fun _ => by exact trivial

theorem hashes_init (xp : LogXparams) (cs : CacheSt) : (init xp cs).Hashes 1 := by
  refine Hashes.bind_free (fun _ => by exact trivial) (Hashes.bind_free (fun _ => by exact trivial) ?_)
  exact Hashes.bind_free (fun _ => by exact trivial) (Hdr.hashes_init xp cs)

end LOG

end Fscq
