import Fscq.Afs.Mkfs
import Fscq.Txn.Hashes

/-!
# `mkfs` finishes

On a disk that is large enough `mkfs` ends with a mounted file system, if its log takes as many blocks as there are and if
no two of the blocks that it hashes have one hash (`mkfs_runs`).
-/

namespace Fscq

open CrashLogic CrashLogic.Prog
open PaddedLog (logBlocks)

namespace AFS

variable {h : HashKey → HashVal} {s : St Valu HashKey} {cachesize dataBitmaps inodeBitmaps logDescrBlocks : Nat}

theorem hashFree_sbInit (xp : FsXparams) (cs : CacheSt) : (SB.init xp cs).HashFree :=
  (Bufcache.hashFree_write _ _ cs).bind fun cs₁ => (Bufcache.hashFree_writeback 0 cs₁).bind fun cs₂ => Bufcache.hashFree_endSync cs₂

theorem hashes_mkfsStart (xp : FsXparams) : (mkfsStart cachesize xp).Hashes 1 := by
  have hinit : (Bufcache.init (K := HashKey) (H := HashVal) (V := Valu) cachesize).HashFree := trivial
  refine hinit.bind_hashes fun cs => (hashFree_sbInit xp cs).bind_hashes fun cs₂ => ?_
  exact (LOG.hashes_init xp.fsxpLog cs₂).bind_free fun ms => LOG.hashFree_exec _ ms

/-- The commit does not hash, the flush does. -/
theorem mkfsEnd_runs {xp : FsXparams} {n : Nat} {x : LOG.Memstate × Except Errno BFILE.Memstate} (hl : Layout xp.fsxpLog n)
    (hlog : n ≤ xp.fsxpLog.logLen)
    (hx : ∀ h' : HashKey → HashVal, (∀ k ∈ s.seen, h' k = h k) → Formatting h' xp n x s) (ha : NoCollision h s.seen)
    (hlen : s.seen.length + (2 + logBlocks xp.fsxpLog) ≤ 2 ^ hashlen) :
    Runs h (2 + logBlocks xp.fsxpLog) s (mkfsEnd false xp x) := by
  rw [← card_hashVal] at hlen
  obtain ⟨ms, r⟩ := x
  obtain ⟨_, _, fms, _, _, hok, _⟩ := hx h fun _ _ => rfl
  obtain rfl : r = .ok fms := hok
  have hcommit : ∀ h' : HashKey → HashVal, (∀ k ∈ s.seen, h' k = h k) →
      wp h' (LOG.commit false xp.fsxpLog ms) (fun y s' => ∃ st, LOG.LRep h' xp.fsxpLog n st y.1 s') (fun _ => True) s := by
    intro h' heq
    obtain ⟨d, cur, _, _, hr, _⟩ := hx h' heq
    refine wp_mono ?_ (fun _ _ => trivial) _ (LOG.commit_settles hl false hr)
    rintro y s' ⟨_, st, hr', _⟩
    exact ⟨st, hr'⟩
  have hfree : (LOG.commit false xp.fsxpLog ms).Hashes 0 := (LOG.hashFree_commit ms).hashes
  rw [mkfsEnd, ← Nat.zero_add (2 + logBlocks xp.fsxpLog)]
  refine runs_seq hcommit hfree ha (by omega) fun h' y s' hy ha' hlen' => ?_
  obtain ⟨ms', ok⟩ := y
  cases ok with
  | false => exact ⟨h', fun _ _ => rfl, s', _, .ret _ _, ha', Nat.le_add_right _ _⟩
  | true =>
    obtain ⟨st, hr⟩ := hy h' fun _ _ => rfl
    refine runs_of_hashes (Q := fun _ _ _ => True) (C := fun _ => True) (fun h'' heq => ?_) ?_ ha' (by omega)
    · obtain ⟨_, hr'⟩ := hy h'' heq
      exact wp_seq (LOG.flushsync_spec hl hr') (fun _ _ => trivial) fun _ _ _ => trivial
    · exact (LOG.hashes_flushsync hr hlog).bind_free fun _ => by exact trivial

theorem mkfs_runs (hn : cachesize ≠ 0) (hd : dataBitmaps ≠ 0) (hi : inodeBitmaps ≠ 0)
    (hsize : rawSize dataBitmaps inodeBitmaps logDescrBlocks < 2 ^ 64)
    (hdisk : ∀ a < rawSize dataBitmaps inodeBitmaps logDescrBlocks, s.disk a ≠ none)
    (hlog : diskSize dataBitmaps inodeBitmaps ≤ logDescrBlocks * PaddedLog.DescSig.itemsPerVal) (ha : NoCollision h s.seen)
    (hlen : s.seen.length + (3 + (logDescrBlocks + logDescrBlocks * PaddedLog.DescSig.itemsPerVal)) ≤ 2 ^ hashlen) :
    Runs h (3 + (logDescrBlocks + logDescrBlocks * PaddedLog.DescSig.itemsPerVal)) s
      (mkfs false cachesize dataBitmaps inodeBitmaps logDescrBlocks) := by
  have hl := layout_computeXparams hsize
  have hblocks : logBlocks (computeXparams dataBitmaps inodeBitmaps logDescrBlocks SB.magicNumber).fsxpLog =
      logDescrBlocks + logDescrBlocks * PaddedLog.DescSig.itemsPerVal := rfl
  have hseq := runs_seq (m := 2 + (logDescrBlocks + logDescrBlocks * PaddedLog.DescSig.itemsPerVal))
    (f := mkfsEnd false (computeXparams dataBitmaps inodeBitmaps logDescrBlocks SB.magicNumber))
    (fun h' _ => mkfsStart_spec (h := h') hn hd hi hsize hdisk) (hashes_mkfsStart _) ha
    (by rw [card_hashVal]; omega) fun h' x s' hx ha' hlen' => mkfsEnd_runs hl hlog hx ha' (by omega)
  rw [← mkfs_eq, ← Nat.add_assoc] at hseq
  exact hseq

/-- The smallest file system, made on a disk of zeros. -/
theorem mkfs_small : ∃ h ams s₀ s, (∀ a, s₀.disk a ≠ none) ∧
    Exec h s₀ (mkfs false 10 1 1 256) (.finished s (.ok (ams, smallFs))) ∧ NoCollision h s.seen ∧ s.seen.length ≤ 2 ^ 18 ∧
    ∃ d, LOG.LRep h smallFs.fsxpLog (diskSize 1 1) ⟨d, [], vmap0⟩ ams.msLL s ∧ MkfsDone smallFs ams.fms (ldisk d) := by
  have hten : 10 ≠ 0 := by decide
  have hone : 1 ≠ 0 := by decide
  have hsize : rawSize 1 1 256 < 2 ^ 64 := by decide
  have hdisk : ∀ a, (⟨fun _ => some (0, []), []⟩ : St Valu HashKey).disk a ≠ none := fun _ => Option.some_ne_none _
  have hruns := mkfs_runs (h := fun _ => 0) hten hone hone hsize (fun a _ => hdisk a) (by decide)
    (fun _ hk => absurd hk List.not_mem_nil) (by decide)
  obtain ⟨h, _, s, r, hexec, ha, hlen⟩ := hruns
  obtain ⟨herr, hok⟩ := wp_exec hexec (mkfs_done hten hone hone hsize false fun a _ => hdisk a)
  cases r with
  | error e => exact absurd (herr e rfl).2 (by decide)
  | ok m =>
    obtain ⟨ams, xp⟩ := m
    obtain ⟨rfl, d, _, hr, hdone⟩ := hok ams xp rfl
    exact ⟨h, ams, _, s, hdisk, hexec, ha, hlen.trans (by decide), d, hr, hdone⟩

end AFS

end Fscq
