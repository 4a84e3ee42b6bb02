import Fscq.Log.GroupRun
import Fscq.Txn.Hashes

/-!
# Applying the log is invisible

`MLog.apply` writes the entries of the log to the data region, syncs them and truncates the log. The logical disk is the
same before and after it, and a crash anywhere inside recovers to it (`apply_spec`). A history of applies, each of them
run to its end or cut by crashes and finished by recovery (`ApplyRun`), ends with the disk it started with
(`apply_invisible`), except for what any crash does: a block with several values, after an unsynced direct write, keeps
one of them.
-/

namespace Fscq

open CrashLogic Bufcache PaddedLog LogReplay

namespace MLog

variable {h : HashKey → HashVal} {xp : LogXparams} {n cachesize : Nat} {d r : RawDisk Valu} {ms ms' : Memstate}
  {s s' : St Valu HashKey}

/-- After a crash: a fresh cache and recovery of the log. -/
def recoverMem (xp : LogXparams) (cachesize : Nat) : FProg Memstate := do
  let cs ← Bufcache.init cachesize
  recover xp cs

theorem recoverMem_recovers (hl : Layout xp n) (hn : cachesize ≠ 0) (d : RawDisk Valu) :
    Recovers h (recoverMem xp cachesize) (fun ms s => ∃ r, PossibleCrash d r ∧ MRep h xp n r ms s)
      (fun s => ∃ r, PossibleCrash d r ∧ RecTo h xp n r s.disk s.seen) := by
  rintro s ⟨r, hcr, hR⟩
  refine wp_seq (Bufcache.init_spec hn s) (fun s' hc m hm => ⟨r, hcr, ?_⟩) fun cs s₁ hr₁ => ?_
  · rw [hc.2]
    exact hR.crash (hc.1.possibleCrash hm)
  · have hR₁ : RecTo h xp n r (syncMem s.disk) s₁.seen := hr₁.2 ▸ hR.crash (possibleCrash_syncMem _)
    exact wp_mono (fun _ _ hr => ⟨r, hcr, hr⟩) (fun _ hc m hm => ⟨r, hcr, hc m hm⟩) _ (hR₁.recover_spec hl hr₁.1)

/-- The log is empty and the data region is the logical disk `d`. -/
def AppliedTo (h : HashKey → HashVal) (xp : LogXparams) (n : Nat) (d : RawDisk Valu) (ms : Memstate)
    (s : St Valu HashKey) : Prop :=
  ms.msInLog = vmap0 ∧ ∃ D, MRepAt h xp n BLog.empty D d ms s

/-- One apply, with any number of crashes and interrupted recoveries. -/
theorem apply_recover (hl : Layout xp n) (hn : cachesize ≠ 0) (hr : MRep h xp n d ms s)
    {o : Outcome Valu HashKey (Memstate ⊕ Memstate)}
    (ho : ExecRecover h (recoverMem xp cachesize) s (apply xp ms) o) :
    Allowed (fun r s' => r.elim (fun ms' => AppliedTo h xp n d ms' s')
      (fun ms' => ∃ r, PossibleCrash d r ∧ MRep h xp n r ms' s')) (fun _ => False) o := by
  refine recover_exec (recoverMem_recovers hl hn d) ho
    (wp_mono (fun ms' s' ⟨D', hr'⟩ => ⟨hr'.mem, D', hr'⟩) (fun s' hc m hm => ?_) _ (apply_spec hl hr))
  obtain ⟨r, _, rfl, hcr, hR⟩ := hc m hm
  exact ⟨r, hcr, hR⟩

/-- Applies one after the other, each run to its end or cut by crashes and ended by recovery. -/
inductive ApplyRun (h : HashKey → HashVal) (xp : LogXparams) (cachesize : Nat) (ms : Memstate) (s : St Valu HashKey) :
    Memstate → St Valu HashKey → Prop
  | refl : ApplyRun h xp cachesize ms s ms s
  | step {ms₁ : Memstate} {s₁ s₂ : St Valu HashKey} {r : Memstate ⊕ Memstate} : ApplyRun h xp cachesize ms s ms₁ s₁ →
      ExecRecover h (recoverMem xp cachesize) s₁ (apply xp ms₁) (.finished s₂ r) →
      ApplyRun h xp cachesize ms s (r.elim id id) s₂

/-- The disk itself, or what a crash leaves of its blocks with several values. -/
def Crashed (d r : RawDisk Valu) : Prop := r = d ∨ PossibleCrash d r

theorem Crashed.crash {r' : RawDisk Valu} (hr : Crashed d r) (hc : PossibleCrash r r') : Crashed d r' := by
  rcases hr with rfl | hr
  · exact .inr hc
  · have hplain : Plain r := fun a vs hvs => by
      rcases hr a with ⟨_, h₂⟩ | ⟨_, v, _, h₂, _⟩
      · rw [h₂] at hvs
        cases hvs
      · rw [h₂] at hvs
        cases hvs
        rfl
    rw [hplain.crash_eq hc]
    exact .inr hr

theorem Crashed.eq_of_plain (hp : Plain d) (hr : Crashed d r) : r = d := hr.elim id hp.crash_eq

theorem ApplyRun.mrep (hl : Layout xp n) (hn : cachesize ≠ 0) (hr : MRep h xp n d ms s)
    (hrun : ApplyRun h xp cachesize ms s ms' s') : ∃ r, Crashed d r ∧ MRep h xp n r ms' s' := by
  induction hrun with
  | refl => exact ⟨d, .inl rfl, hr⟩
  | @step ms₁ s₁ s₂ r _ he ih =>
    obtain ⟨d₁, hd₁, hr₁⟩ := ih
    have hall := apply_recover hl hn hr₁ he
    cases r with
    | inl ms₂ =>
      obtain ⟨_, D, hr₂⟩ := hall
      exact ⟨d₁, hd₁, _, D, hr₂⟩
    | inr ms₂ =>
      obtain ⟨r, hcr, hr₂⟩ := hall
      exact ⟨r, hd₁.crash hcr, hr₂⟩

/-- The memory log shows `r`: it represents it, and every read returns the block of `r`. -/
structure Exposes (h : HashKey → HashVal) (xp : LogXparams) (n : Nat) (r : RawDisk Valu) (ms : Memstate)
    (s : St Valu HashKey) : Prop where
  rep : MRep h xp n r ms s
  reads : ∀ a < n, ∀ o, Exec h s (read xp a ms) o → Allowed (fun v _ => ∃ old, r a = some (v.2, old)) (fun _ => True) o

theorem MRep.exposes (hl : Layout xp n) (hr : MRep h xp n r ms s) : Exposes h xp n r ms s :=
  ⟨hr, fun _ ha _ he => wp_exec he (wp_mono (fun _ _ h => h.2.1) (fun _ _ => trivial) _ (read_spec hl hr ha))⟩

/-- What is left of `d`: all of it, but for a crash of blocks with several values. -/
def Leaves (h : HashKey → HashVal) (xp : LogXparams) (n : Nat) (d : RawDisk Valu) (ms : Memstate) (s : St Valu HashKey) :
    Prop :=
  ∃ r, Crashed d r ∧ (Plain d → r = d) ∧ Exposes h xp n r ms s

theorem Crashed.leaves (hl : Layout xp n) (hd : Crashed d r) (hr : MRep h xp n r ms s) : Leaves h xp n d ms s :=
  ⟨r, hd, hd.eq_of_plain, hr.exposes hl⟩

/-- Applying the log shows at no point. An apply leaves the disk it started with and an empty log, and a crash in it or in
a recovery after it leaves that disk too; so does any history of applies, crashes and recoveries, and the next apply
after it. -/
theorem apply_invisible (hl : Layout xp n) (hn : cachesize ≠ 0) (hr : MRep h xp n d ms s) :
    (∀ o, ExecRecover h (recoverMem xp cachesize) s (apply xp ms) o → Allowed (fun x s₁ => x.elim
      (fun ms₁ => AppliedTo h xp n d ms₁ s₁ ∧ Exposes h xp n d ms₁ s₁) (fun ms₁ => Leaves h xp n d ms₁ s₁))
      (fun _ => False) o) ∧
    ∀ ms₁ s₁, ApplyRun h xp cachesize ms s ms₁ s₁ → Leaves h xp n d ms₁ s₁ ∧
      ∀ o, ExecRecover h (recoverMem xp cachesize) s₁ (apply xp ms₁) o → Allowed (fun x s₂ => x.elim
        (fun ms₂ => Leaves h xp n d ms₂ s₂ ∧ ∃ r, AppliedTo h xp n r ms₂ s₂) (fun ms₂ => Leaves h xp n d ms₂ s₂))
        (fun _ => False) o := by
  refine ⟨fun o ho => ?_, fun ms₁ s₁ hrun => ?_⟩
  · have hall := apply_recover hl hn hr ho
    cases o with
    | failed => exact hall
    | collided => trivial
    | crashed => exact hall
    | finished s₁ x =>
      cases x with
      | inl ms₁ =>
        obtain ⟨hmem, D, hr₁⟩ := hall
        exact ⟨⟨hmem, D, hr₁⟩, MRep.exposes hl ⟨_, D, hr₁⟩⟩
      | inr ms₁ =>
        obtain ⟨r, hcr, hr₁⟩ := hall
        exact Crashed.leaves hl (.inr hcr) hr₁
  · obtain ⟨r, hd, hr₁⟩ := hrun.mrep hl hn hr
    refine ⟨hd.leaves hl hr₁, fun o ho => ?_⟩
    have hall := apply_recover hl hn hr₁ ho
    cases o with
    | failed => exact hall
    | collided => trivial
    | crashed => exact hall
    | finished s₂ x =>
      cases x with
      | inl ms₂ =>
        obtain ⟨hmem, D, hr₂⟩ := hall
        exact ⟨hd.leaves hl ⟨_, D, hr₂⟩, r, hmem, D, hr₂⟩
      | inr ms₂ =>
        obtain ⟨r₂, hcr, hr₂⟩ := hall
        exact (hd.crash hcr).leaves hl hr₂

/-- What is flushed is in the log. -/
theorem returns_flush {ents : Contents} (hne : ents.length ≠ 0) : (flush xp ents ms).Returns fun r =>
    r.2 = true → ∃ m, r.1.msInLog = replayMem ents m := by
  rw [flush, if_neg hne]
  refine Prog.returns_seq (fun _ => Prog.returns_seq (fun ms' => Prog.returns_seq (fun ⟨cs, ok⟩ => ?_) _) _) _
  cases ok with
  | true => exact fun _ => ⟨ms'.msInLog, rfl⟩
  | false => exact fun h => nomatch h

/-- A formatted disk after a flush of the block 1: the log holds it. -/
theorem exists_flushed : ∃ h d ms s, MRep h smallXp 100 d ms s ∧ ms.msInLog[1]? = some 5 := by
  obtain ⟨s₀, ms₀, hformat, hseen, _⟩ := GLog.formatGroup_small smallHash
  have hw : ∀ h' : HashKey → HashVal, (∀ k ∈ s₀.seen, h' k = smallHash k) → wp h' (flush smallXp [(1, 5)] ms₀.msLL)
      (fun r s => (∃ d, MRep h' smallXp 100 d r.1 s) ∧ r.2 = true) (fun _ => True) s₀ := by
    intro h' heq
    obtain ⟨d, _, hr⟩ := (GLog.Reachable.format LOG.smallSt_hasLog LOG.smallSt_hasData (hformat.congr rfl heq)).grep
      LOG.layout_small (by decide)
    have hents : EntsIn 100 [((1 : Nat), (5 : Valu))] := fun e he => by
      rw [List.mem_singleton.1 he]
      decide
    exact wp_mono (fun _ _ h => ⟨⟨_, h.1⟩, h.2⟩) (fun _ _ => trivial) _ (flush_spec LOG.layout_small hr.low hents (by decide))
  have ha : NoCollision smallHash s₀.seen := by
    rw [hseen]
    intro k hk k' hk' _
    rw [List.mem_singleton.1 hk, List.mem_singleton.1 hk']
  have hlen : s₀.seen.length + (1 + logBlocks smallXp) ≤ Fintype.card HashVal := by
    rw [hseen, card_hashVal]
    decide
  obtain ⟨h', heq, s, ⟨ms, ok⟩, he, _⟩ := runs_of_hashes hw (hashes_flush _ _ _) ha hlen
  obtain ⟨⟨d, hr⟩, hok⟩ := wp_exec he (hw h' heq)
  obtain ⟨m, hm⟩ := (returns_flush (by decide)).of_exec he rfl hok
  refine ⟨h', d, ms, s, hr, ?_⟩
  rw [show ms.msInLog = _ from hm]
  exact getElem?_replayMem_of_mem _ _ (by decide) List.mem_cons_self

theorem apply_invisible_small : ∃ h d ms s, MRep h smallXp 100 d ms s ∧ ms.msInLog[1]? = some 5 ∧
    (∀ o, ExecRecover h (recoverMem smallXp 10) s (apply smallXp ms) o → Allowed (fun x s₁ => x.elim
      (fun ms₁ => AppliedTo h smallXp 100 d ms₁ s₁ ∧ Exposes h smallXp 100 d ms₁ s₁)
      (fun ms₁ => Leaves h smallXp 100 d ms₁ s₁)) (fun _ => False) o) ∧
    ∀ ms₁ s₁, ApplyRun h smallXp 10 ms s ms₁ s₁ → Leaves h smallXp 100 d ms₁ s₁ ∧
      ∀ o, ExecRecover h (recoverMem smallXp 10) s₁ (apply smallXp ms₁) o → Allowed (fun x s₂ => x.elim
        (fun ms₂ => Leaves h smallXp 100 d ms₂ s₂ ∧ ∃ r, AppliedTo h smallXp 100 r ms₂ s₂)
        (fun ms₂ => Leaves h smallXp 100 d ms₂ s₂)) (fun _ => False) o := by
  obtain ⟨h, d, ms, s, hr, hlog⟩ := exists_flushed
  exact ⟨h, d, ms, s, hr, hlog, apply_invisible LOG.layout_small (by decide) hr⟩

end MLog

end Fscq
