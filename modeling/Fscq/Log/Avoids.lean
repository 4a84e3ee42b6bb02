import Fscq.Crash.Avoids
import Fscq.Log.Spec
import Fscq.Txn.Exec

/-!
# The log stack and block 0

Block 0 holds the layout. No program of the log stack writes it: the cache has no new value for it (`Clean`), and all
regions of the log and the data region lie above it (`LogXparams.AboveZero`).
-/

namespace Fscq

open CrashLogic

/-! ## The cache -/

namespace Bufcache

variable {V K H : Type} {z a : Nat} {b : V} {cs : Cachestate V}

theorem Clean.insert {v : V} {dirty : Bool} (hc : Clean cs z) (h : a = z → dirty = false) {m c : Nat} {e : EvictionState} :
    Clean ⟨cs.csMap.insert a (v, dirty), m, c, e⟩ z := fun w hw => by
  simp only [getElem?_insert'] at hw
  split at hw
  · rename_i ha
    rw [h ha] at hw
    cases hw
  · exact hc w hw

theorem Clean.erase (hc : Clean cs z) {m c : Nat} {e : EvictionState} : Clean ⟨cs.csMap.erase a, m, c, e⟩ z := fun w hw => by
  simp only [getElem?_erase'] at hw
  split at hw
  · cases hw
  · exact hc w hw

theorem writeback_avoids (hc : Clean cs z) (a : Nat) : (writeback (K := K) (H := H) a cs).Avoids z b (Clean · z) := by
  unfold writeback
  split
  · rename_i v hv
    refine ⟨?_, hc.insert fun _ => rfl⟩
    rintro rfl
    exact hc v hv
  · exact hc

theorem evict_avoids (hc : Clean cs z) (a : Nat) : (evict (K := K) (H := H) a cs).Avoids z b (Clean · z) := by
  refine (writeback_avoids hc a).seq fun cs' hc' => ?_
  split
  · exact hc'.erase
  · exact hc'.erase

theorem maybeEvict_avoids (hc : Clean cs z) : (maybeEvict (K := K) (H := H) cs).Avoids z b (Clean · z) := by
  unfold maybeEvict
  split
  · exact hc
  · simp only
    split
    · refine evict_avoids ?_ _
      exact hc
    · split
      · exact hc
      · exact evict_avoids hc _

theorem read_avoids (hc : Clean cs z) (a : Nat) : (read (K := K) (H := H) a cs).Avoids z b (Clean ·.1 z) := by
  refine (maybeEvict_avoids hc).seq fun cs' hc' => ?_
  split
  · exact hc'
  · exact fun v _ => hc'.insert fun _ => rfl

theorem write_avoids (hc : Clean cs z) (ha : a ≠ z) (v : V) : (write (K := K) (H := H) a v cs).Avoids z b (Clean · z) := by
  refine (maybeEvict_avoids hc).seq fun cs' hc' => ?_
  split
  · exact hc'.insert fun h => absurd h ha
  · exact hc'.insert fun h => absurd h ha

theorem endSync_avoids (hc : Clean cs z) : (endSync (K := K) (H := H) cs).Avoids z b (Clean · z) := hc

theorem clean_cache0 (sz : Nat) : Clean (cache0 (V := V) sz) z := fun v hv => by
  simp [cache0] at hv

theorem init_avoids (sz : Nat) : (init (V := V) (K := K) (H := H) sz).Avoids z b (Clean · z) := clean_cache0 sz

/-! ### Ranges and vectors that do not begin at block 0 -/

theorem readRange_avoids {A : Type} (hc : Clean cs 0) (a nr : Nat) (vfold : A → V → A) (a0 : A) :
    (readRange (K := K) (H := H) a nr vfold a0 cs).Avoids 0 b (Clean ·.1 0) :=
  Prog.avoids_forN (fun i _ hp => (read_avoids hp (a + i)).seq fun _ hp' => by exact hp') nr 0 hc

theorem add_ne_zero (ha : a ≠ 0) (i : Nat) : a + i ≠ 0 := by omega

variable [Inhabited V]

theorem writeRange_avoids (hc : Clean cs 0) (ha : a ≠ 0) (l : List V) :
    (writeRange (K := K) (H := H) a l cs).Avoids 0 b (Clean · 0) :=
  Prog.avoids_forN (fun i _ hp => write_avoids hp (add_ne_zero ha i) _) l.length 0 hc

theorem writeVecs_avoids (hc : Clean cs 0) (ha : a ≠ 0) (l : List (Nat × V)) :
    (writeVecs (K := K) (H := H) a l cs).Avoids 0 b (Clean · 0) :=
  Prog.avoids_forN (fun _ _ hp => write_avoids hp (add_ne_zero ha _) _) l.length 0 hc

omit [Inhabited V] in
theorem syncRange_avoids (hc : Clean cs z) (a nr : Nat) : (syncRange (K := K) (H := H) a nr cs).Avoids z b (Clean · z) :=
  Prog.avoids_forN (fun _ _ hp => writeback_avoids hp _) nr 0 hc

omit [Inhabited V] in
theorem syncVecsNow_avoids (hc : Clean cs z) (a : Nat) (l : List Nat) :
    (syncVecsNow (K := K) (H := H) a l cs).Avoids z b (Clean · z) :=
  (Prog.avoids_forEach (fun _ _ hp => writeback_avoids hp _) l hc).seq fun _ hc' => endSync_avoids hc'

end Bufcache

open Bufcache

/-! ## The log on disk -/

/-- Nothing of the log, and no data, is in block 0. -/
structure LogXparams.AboveZero (xp : LogXparams) : Prop where
  data : xp.dataStart ≠ 0
  header : xp.logHeader ≠ 0
  descriptor : xp.logDescriptor ≠ 0
  logData : xp.logData ≠ 0

variable {xp : LogXparams} {cs : CacheSt} {b : Valu}

theorem hashList_avoids (x : HashVal) (values : List Valu) : (hashList x values).Avoids 0 b fun _ => True :=
  Prog.avoids_forEach (fun _ _ _ => by exact fun _ => trivial) values trivial

theorem Hdr.read_avoids (hc : Clean cs 0) : (Hdr.read xp cs).Avoids 0 b (Clean ·.1 0) :=
  (Bufcache.read_avoids hc _).seq fun _ hc' => hc'

theorem Hdr.syncNow_avoids (hc : Clean cs 0) : (Hdr.syncNow xp cs).Avoids 0 b (Clean · 0) :=
  (writeback_avoids hc _).seq fun _ hc' => endSync_avoids hc'

namespace PaddedLog

variable (hx : xp.AboveZero)
include hx

theorem trunc_avoids (hc : Clean cs 0) : (trunc xp cs).Avoids 0 b (Clean · 0) :=
  (Hdr.read_avoids hc).seq fun _ hc₁ _ => (Bufcache.write_avoids hc₁ hx.header _).seq fun _ hc₂ => Hdr.syncNow_avoids hc₂

omit hx in
theorem readAll_avoids (R : RASig) (hc : Clean cs 0) (a nr : Nat) :
    (AsyncRecArray.readAll R a nr cs).Avoids 0 b (Clean ·.1 0) := readRange_avoids hc a nr _ _

omit hx in
theorem read_avoids (hc : Clean cs 0) : (read xp cs).Avoids 0 b (Clean ·.1 0) :=
  (Hdr.read_avoids hc).seq fun _ hc₁ => (readAll_avoids DescSig hc₁ _ _).seq fun _ hc₂ =>
    (readAll_avoids DataSig hc₂ _ _).seq fun _ hc₃ => hc₃

theorem extend_avoids (hc : Clean cs 0) (log : Contents) : (extend xp log cs).Avoids 0 b (Clean ·.1 0) := by
  refine (Hdr.read_avoids hc).seq fun ⟨cs₁, nr⟩ hc₁ => ?_
  simp only
  split
  · refine (hashList_avoids _ _).seq fun _ _ => (hashList_avoids _ _).seq fun _ _ => ?_
    refine (writeRange_avoids hc₁ (add_ne_zero hx.descriptor _) _).seq fun cs₂ hc₂ => ?_
    refine (writeRange_avoids hc₂ (add_ne_zero hx.logData _) _).seq fun cs₃ hc₃ => ?_
    refine (Bufcache.write_avoids hc₃ hx.header _).seq fun cs₄ hc₄ => ?_
    refine (syncRange_avoids hc₄ _ _).seq fun cs₅ hc₅ => (syncRange_avoids hc₅ _ _).seq fun cs₆ hc₆ => ?_
    exact (writeback_avoids hc₆ _).seq fun _ hc₇ => hc₇
  · exact hc₁

theorem recover_avoids (hc : Clean cs 0) : (recover xp cs).Avoids 0 b (Clean · 0) := by
  refine (Hdr.read_avoids hc).seq fun ⟨cs₁, header⟩ hc₁ => ?_
  refine (readAll_avoids DescSig hc₁ _ _).seq fun ⟨cs₂, wal⟩ hc₂ => (readAll_avoids DataSig hc₂ _ _).seq fun ⟨cs₃, vl⟩ hc₃ => ?_
  refine fun _ => (hashList_avoids _ _).seq fun _ _ => (hashList_avoids _ _).seq fun _ _ => ?_
  split
  · exact hc₃
  · refine (readAll_avoids DescSig hc₃ _ _).seq fun ⟨cs₄, wal⟩ hc₄ =>
      (readAll_avoids DataSig hc₄ _ _).seq fun ⟨cs₅, vl⟩ hc₅ => ?_
    refine (hashList_avoids _ _).seq fun _ _ => (hashList_avoids _ _).seq fun _ _ => ?_
    exact (Bufcache.write_avoids hc₅ hx.header _).seq fun _ hc₆ => Hdr.syncNow_avoids hc₆

theorem init_avoids (hc : Clean cs 0) : (init xp cs).Avoids 0 b (Clean · 0) :=
  fun _ => (Bufcache.write_avoids hc hx.header _).seq fun _ hc₁ => Hdr.syncNow_avoids hc₁

end PaddedLog

/-! ## The memory log -/

namespace MLog

variable {ms : Memstate}

theorem read_avoids (hc : Clean ms.msCache 0) (a : Nat) : (read xp a ms).Avoids 0 b (Clean ·.1.msCache 0) := by
  unfold read
  split
  · exact hc
  · exact (Bufcache.read_avoids hc _).seq fun _ hc₁ => by exact hc₁

variable (hx : xp.AboveZero)
include hx

theorem flushNoapply_avoids (hc : Clean ms.msCache 0) (ents : PaddedLog.Contents) :
    (flushNoapply xp ents ms).Avoids 0 b (Clean ·.1.msCache 0) := by
  refine (PaddedLog.extend_avoids hx hc ents).seq fun ⟨cs, ok⟩ hc₁ => ?_
  simp only
  split <;> exact hc₁

theorem apply_avoids (hc : Clean ms.msCache 0) : (apply xp ms).Avoids 0 b (Clean ·.msCache 0) :=
  (writeVecs_avoids hc hx.data _).seq fun _ hc₁ => (syncVecsNow_avoids hc₁ _ _).seq fun _ hc₂ =>
    (PaddedLog.trunc_avoids hx hc₂).seq fun _ hc₃ => hc₃

theorem flush_avoids (hc : Clean ms.msCache 0) (ents : PaddedLog.Contents) : (flush xp ents ms).Avoids 0 b (Clean ·.1.msCache 0) := by
  unfold flush
  split
  · exact hc
  · refine Prog.Avoids.seq (P := (Clean ·.1 0)) ((Hdr.read_avoids hc).seq fun _ hc₁ => by exact hc₁) fun ⟨cs, na⟩ hc₁ => ?_
    refine Prog.Avoids.seq (P := (Clean ·.msCache 0)) ?_ fun _ hc₂ => flushNoapply_avoids hx hc₂ ents
    split
    · exact apply_avoids hx hc₁
    · exact hc₁

theorem dwrite_avoids (hc : Clean ms.msCache 0) (a : Nat) (v : Valu) : (dwrite xp a v ms).Avoids 0 b (Clean ·.msCache 0) := by
  refine Prog.Avoids.seq (P := (Clean ·.msCache 0)) ?_ fun ms' hc' =>
    (Bufcache.write_avoids hc' (add_ne_zero hx.data a) v).seq fun _ hc₂ => by exact hc₂
  split
  · exact apply_avoids hx hc
  · exact hc

omit hx in
theorem dsyncVecs_avoids (hc : Clean ms.msCache 0) (al : List Nat) : (dsyncVecs xp al ms).Avoids 0 b (Clean ·.msCache 0) :=
  (syncVecsNow_avoids hc _ _).seq fun _ hc₁ => by exact hc₁

omit hx in
theorem syncCache_avoids (hc : Clean ms.msCache 0) : (syncCache xp ms).Avoids 0 b (Clean ·.msCache 0) :=
  (syncVecsNow_avoids hc _ _).seq fun _ hc₁ => by exact hc₁

theorem recover_avoids (hc : Clean cs 0) : (recover xp cs).Avoids 0 b (Clean ·.msCache 0) :=
  (PaddedLog.recover_avoids hx hc).seq fun _ hc₁ => (PaddedLog.read_avoids hc₁).seq fun _ hc₂ => by exact hc₂

theorem init_avoids (hc : Clean cs 0) : (init xp cs).Avoids 0 b (Clean ·.msCache 0) :=
  (PaddedLog.init_avoids hx hc).seq fun _ hc₁ => by exact hc₁

end MLog

/-! ## Group commit -/

namespace GLog

variable {ms : Memstate}

theorem read_avoids (hc : Clean ms.msLL.msCache 0) (a : Nat) : (read xp a ms).Avoids 0 b (Clean ·.1.msLL.msCache 0) := by
  unfold read
  split
  · exact hc
  · exact (MLog.read_avoids hc a).seq fun _ hc₁ => by exact hc₁

variable (hx : xp.AboveZero)
include hx

theorem flushall_avoids (hc : Clean ms.msLL.msCache 0) : (flushall xp ms).Avoids 0 b (Clean ·.msLL.msCache 0) := by
  unfold flushall
  split
  · exact (MLog.flush_avoids hx hc _).seq fun _ hc₁ => by exact hc₁
  · refine Prog.Avoids.seq (P := (Clean ·.msCache 0)) (Prog.avoids_forN (fun i mm hmm => ?_) _ 0 hc) fun _ hc₁ => by exact hc₁
    exact (MLog.flush_avoids hx hmm _).seq fun _ hc₁ => by exact hc₁

theorem flushsync_avoids (hc : Clean ms.msLL.msCache 0) : (flushsync xp ms).Avoids 0 b (Clean ·.msLL.msCache 0) :=
  (flushall_avoids hx hc).seq fun _ hc₁ => (MLog.apply_avoids hx hc₁).seq fun _ hc₂ => by exact hc₂

theorem dwrite_avoids (hc : Clean ms.msLL.msCache 0) (a : Nat) (v : Valu) :
    (dwrite xp a v ms).Avoids 0 b (Clean ·.msLL.msCache 0) := by
  have hdirect : ∀ ms : Memstate, Clean ms.msLL.msCache 0 → (dwrite' xp a v ms).Avoids 0 b (Clean ·.msLL.msCache 0) :=
    fun ms hc => (MLog.dwrite_avoids hx hc a v).seq fun _ hc₁ => by exact hc₁
  unfold dwrite
  split
  · exact (flushall_avoids hx hc).seq hdirect
  · exact hdirect ms hc

omit hx in
theorem submit_avoids (hc : Clean ms.msLL.msCache 0) (ents : PaddedLog.Contents) :
    (submit xp ents ms).Avoids 0 b (Clean ·.1.msLL.msCache 0) := by
  unfold submit
  split <;> exact hc

end GLog

/-! ## Transactions -/

namespace LOG

/-- The cache under the log has no new value for block 0. -/
def Spares (ms : Memstate) : Prop := Clean ms.msLL.msLL.msCache 0

variable {ms : Memstate} {α : Type}

theorem avoids_begin {p : Memstate → FProg α} {P : α → Prop} (hp : (p ms).Avoids 0 b P) :
    (begin xp ms >>= p).Avoids 0 b P := hp

theorem exec_avoids : ∀ (p : TxnLogic.Body Valu α) {ms : Memstate}, Spares ms → (exec xp p ms).Avoids 0 b (Spares ·.1)
  | .ret _, _, hc => hc
  | .read a k, ms, hc => by
    refine Prog.Avoids.seq (P := (Spares ·.1)) ?_ fun r hc₁ => exec_avoids (k r.2) hc₁
    unfold read
    split
    · exact hc
    · exact (GLog.read_avoids hc a).seq fun _ hc₁ => by exact hc₁
  | .write a v k, ms, hc => by
    have hc' : Spares ⟨ms.msTxn.insert a v, ms.msLL⟩ := hc
    exact exec_avoids k hc'

variable (hx : xp.AboveZero)
include hx

theorem commit_avoids (hc : Spares ms) (fl : Bool) : (commit fl xp ms).Avoids 0 b (Spares ·.1) := by
  refine (GLog.submit_avoids hc _).seq fun ⟨mm, r⟩ hc₁ => ?_
  simp only
  split
  · exact (GLog.flushall_avoids hx hc₁).seq fun _ hc₂ => by exact hc₂
  · exact hc₁

theorem dwrite_avoids (hc : Spares ms) (a : Nat) (v : Valu) : (dwrite xp a v ms).Avoids 0 b Spares :=
  (GLog.dwrite_avoids hx hc a v).seq fun _ hc₁ => by exact hc₁

theorem flushall_avoids (hc : Spares ms) : (flushall xp ms).Avoids 0 b Spares :=
  (GLog.flushall_avoids hx hc).seq fun _ hc₁ => by exact hc₁

theorem flushsync_avoids (hc : Spares ms) : (flushsync xp ms).Avoids 0 b Spares :=
  (GLog.flushsync_avoids hx hc).seq fun _ hc₁ => by exact hc₁

omit hx in
theorem dsyncVecs_avoids (hc : Spares ms) (al : List Nat) : (dsyncVecs xp al ms).Avoids 0 b Spares :=
  ((MLog.dsyncVecs_avoids hc al).seq (Q := fun mm => Clean mm.msLL.msCache 0) fun _ hc₁ => by exact hc₁).seq fun _ hc₂ => by exact hc₂

omit hx in
theorem syncCache_avoids (hc : Spares ms) : (syncCache xp ms).Avoids 0 b Spares :=
  ((MLog.syncCache_avoids hc).seq (Q := fun mm => Clean mm.msLL.msCache 0) fun _ hc₁ => by exact hc₁).seq fun _ hc₂ => by exact hc₂

theorem recover_avoids (hc : Clean cs 0) : (recover xp cs).Avoids 0 b Spares :=
  ((MLog.recover_avoids hx hc).seq (Q := fun mm => Clean mm.msLL.msCache 0) fun _ hc₁ => by exact hc₁).seq fun _ hc₂ => by exact hc₂

theorem init_avoids (hc : Clean cs 0) : (init xp cs).Avoids 0 b Spares :=
  ((MLog.init_avoids hx hc).seq (Q := fun mm => Clean mm.msLL.msCache 0) fun _ hc₁ => by exact hc₁).seq fun _ hc₂ => by exact hc₂

end LOG

end Fscq
