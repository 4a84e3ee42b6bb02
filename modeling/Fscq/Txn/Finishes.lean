import Fscq.Txn.Exec

/-!
# Transactions that finish

Only flushing hashes. A body, and a commit that does not flush, never meets a collision, so it has a run to the end
(`Exec.finishes`).
-/

namespace Fscq

open CrashLogic TxnLogic

namespace Bufcache

variable {V K H : Type}

theorem hashFree_writeback (a : Nat) (cs : Cachestate V) : (writeback (K := K) (H := H) a cs).HashFree := by
  unfold writeback
  split
  · exact trivial
  · exact trivial

theorem hashFree_evict (a : Nat) (cs : Cachestate V) : (evict (K := K) (H := H) a cs).HashFree := by
  refine (hashFree_writeback a cs).bind fun cs' => ?_
  split
  · exact trivial
  · exact trivial

theorem hashFree_maybeEvict (cs : Cachestate V) : (maybeEvict (K := K) (H := H) cs).HashFree := by
  unfold maybeEvict
  split
  · exact trivial
  · simp only [evictionChoose]
    split
    · exact hashFree_evict _ _
    · split
      · exact trivial
      · exact hashFree_evict _ _

theorem hashFree_read (a : Nat) (cs : Cachestate V) : (read (K := K) (H := H) a cs).HashFree := by
  refine (hashFree_maybeEvict cs).bind fun cs' => ?_
  split
  · exact trivial
  · exact fun _ => trivial

end Bufcache

theorem MLog.hashFree_read (xp : LogXparams) (a : Nat) (ms : MLog.Memstate) : (MLog.read xp a ms).HashFree := by
  unfold MLog.read
  split
  · exact trivial
  · exact (Bufcache.hashFree_read _ _).bind fun _ => by exact trivial

theorem GLog.hashFree_read (xp : LogXparams) (a : Nat) (ms : GLog.Memstate) : (GLog.read xp a ms).HashFree := by
  unfold GLog.read
  split
  · exact trivial
  · exact (MLog.hashFree_read xp a _).bind fun _ => by exact trivial

theorem GLog.hashFree_submit (xp : LogXparams) (ents : PaddedLog.Contents) (ms : GLog.Memstate) :
    (GLog.submit xp ents ms).HashFree := by
  unfold GLog.submit
  split
  · exact trivial
  · exact trivial

namespace LOG

variable {α : Type} {xp : LogXparams}

theorem hashFree_read (a : Nat) (ms : Memstate) : (read xp a ms).HashFree := by
  unfold read
  split
  · exact trivial
  · exact (GLog.hashFree_read xp a _).bind fun _ => by exact trivial

theorem hashFree_exec : ∀ (p : TBody α) (ms : Memstate), (exec xp p ms).HashFree
  | .ret _, _ => trivial
  | .read a k, ms => (hashFree_read a ms).bind fun ⟨ms', v⟩ => hashFree_exec (k v) ms'
  | .write a v k, ms => hashFree_exec k ⟨ms.msTxn.insert a v, ms.msLL⟩

theorem hashFree_commit (ms : Memstate) : (commit false xp ms).HashFree :=
  (GLog.hashFree_submit xp _ _).bind fun _ => by exact trivial

end LOG

end Fscq
