import Fscq.Log.Spec

/-!
# Crash safety of the log stack

`TxnLog` is what a client knows: its active transaction, the transactions it committed, in order, and how many of them
were committed before the last flush. The log stack keeps them as a base disk and pending transactions (`Tracks`), so
after a crash and any number of interrupted recoveries the disk holds the first `k` committed transactions, for some
`k` between the flushed and the issued ones (`logged_run_crash_safe`).
-/

namespace Fscq

open CrashLogic Bufcache PaddedLog LogReplay MLog

/-! ## Disks without older values -/

section Plain

variable {d d' : RawDisk Valu} {n : Nat}

/-- Every block has one value only. -/
def Plain (d : RawDisk Valu) : Prop := ∀ a vs, d a = some vs → vs.2 = []

theorem Plain.crash_eq (hp : Plain d) (hc : PossibleCrash d d') : d' = d := by
  funext a
  rcases hc a with ⟨h₁, h₂⟩ | ⟨⟨v, old⟩, v', h₁, h₂, hv⟩
  · rw [h₁, h₂]
  · have hold : old = [] := hp a _ h₁
    subst hold
    rw [h₁, h₂, List.mem_singleton.1 hv]

theorem Plain.update (hp : Plain d) (e : Entry) :
    Plain (Function.update d e.1 ((d e.1).map fun _ => (e.2, []))) := fun a vs hvs => by
  by_cases ha : a = e.1
  · rw [ha, Function.update_self] at hvs
    obtain ⟨_, _, rfl⟩ := Option.map_eq_some_iff.1 hvs
    rfl
  · rw [Function.update_of_ne ha] at hvs
    exact hp a vs hvs

theorem Plain.replayDisk : ∀ {log : Contents} {d : RawDisk Valu}, Plain d → Plain (replayDisk log d)
  | [], _, hp => hp
  | e :: log, d, hp => by
    have hcons : Plain (LogReplay.replayDisk log (Function.update d e.1 ((d e.1).map fun _ => (e.2, [])))) :=
      Plain.replayDisk (hp.update e)
    exact hcons

theorem plain_dataOf_syncMem (xp : LogXparams) (n : Nat) (m : RawDisk Valu) : Plain (dataOf xp n (syncMem m)) := by
  intro a vs hvs
  rw [dataOf, syncMem] at hvs
  split at hvs
  · obtain ⟨_, _, rfl⟩ := Option.map_eq_some_iff.1 hvs
    rfl
  · cases hvs

end Plain

/-! ## What the client knows -/

/-- The disk after some transactions, oldest first. -/
def applied (d : RawDisk Valu) (ts : List Contents) : RawDisk Valu := ts.foldl (fun d t => replayDisk t d) d

theorem applied_append (d : RawDisk Valu) (ts ts' : List Contents) :
    applied d (ts ++ ts') = applied (applied d ts) ts' := List.foldl_append

theorem applyTxns_eq_applied (ts : List Contents) (d : RawDisk Valu) : GLog.applyTxns ts d = applied d ts.reverse := by
  rw [applied, List.foldl_reverse]; rfl

theorem Plain.applied : ∀ {ts : List Contents} {d : RawDisk Valu}, Plain d → Plain (applied d ts)
  | [], _, hp => hp
  | t :: ts, d, hp => by
    have hcons : Plain (Fscq.applied (LogReplay.replayDisk t d) ts) := Plain.applied hp.replayDisk
    exact hcons

structure TxnLog where
  cur : Valumap
  /-- The transactions for which commit was issued and that fit into the log, in order. -/
  committed : List Contents
  /-- How many of them were committed before the last flush. -/
  durable : Nat

namespace TxnLog

def step (xp : LogXparams) (t : TxnLog) : LogOp → TxnLog
  | .write a v => { t with cur := t.cur.insert a v }
  | .abort | .commitRo => { t with cur := vmap0 }
  | .commit => if t.cur.toList.length ≤ xp.logLen then ⟨vmap0, t.committed ++ [t.cur.toList], t.durable⟩
    else { t with cur := vmap0 }
  | .flushall | .flushsync => { t with durable := t.committed.length }
  | _ => t

def empty : TxnLog := ⟨vmap0, [], 0⟩

def run (xp : LogXparams) (ops : List LogOp) : TxnLog := ops.foldl (step xp) empty

/-- The state of the log stack that goes with what the client knows. -/
structure Tracks (d₀ : RawDisk Valu) (t : TxnLog) (st : LogState) (k : Nat) : Prop where
  cur : st.cur = t.cur
  durable : t.durable ≤ k
  le : k ≤ t.committed.length
  txns : st.txns.reverse = t.committed.drop k
  base : st.base = applied d₀ (t.committed.take k)

variable {d₀ d : RawDisk Valu} {t : TxnLog} {st : LogState} {k : Nat} {xp : LogXparams}

theorem Tracks.newest (ht : Tracks d₀ t st k) : st.newest = applied d₀ t.committed := by
  rw [LogState.newest, applyTxns_eq_applied, ht.txns, ht.base, ← applied_append, List.take_append_drop]

/-- The pending disks are those after the first `j` transactions, `j ≥ k`. -/
theorem Tracks.pending (ht : Tracks d₀ t st k) (hd : st.Pending d) :
    ∃ j, t.durable ≤ j ∧ j ≤ t.committed.length ∧ d = applied d₀ (t.committed.take j) := by
  obtain ⟨ts, hsuf, rfl⟩ := hd
  have hpre : ts.reverse <+: t.committed.drop k := ht.txns ▸ List.reverse_prefix.2 hsuf
  have htake := List.prefix_iff_eq_take.1 hpre
  have hlen := hpre.length_le
  have hdur := ht.durable
  have hle := ht.le
  rw [List.length_drop] at hlen
  refine ⟨k + ts.reverse.length, by omega, by omega, ?_⟩
  rw [applyTxns_eq_applied, ht.base, List.take_add, applied_append, ← htake]

theorem tracks_flush {c : Valumap} (ht : st.newest = applied d₀ t.committed) (hc : st.cur = c) :
    Tracks d₀ ⟨c, t.committed, t.committed.length⟩ st.flush t.committed.length :=
  ⟨hc, Nat.le_refl _, Nat.le_refl _, by rw [List.drop_length]; rfl, by rw [List.take_length]; exact ht⟩

theorem Tracks.commit {fl : Bool} (ht : Tracks d₀ t st k) :
    ∃ k', Tracks d₀ (t.step xp .commit) (st.commit fl xp) k' := by
  have hdur := ht.durable
  have hle := ht.le
  -- the state before a possible flush
  have hstep : Tracks d₀ (t.step xp .commit) (st.commit false xp) k := by
    rw [step, LogState.commit, ht.cur]
    split
    · refine ⟨rfl, hdur, by rw [List.length_append]; exact Nat.le_add_right_of_le hle, ?_, ?_⟩
      · show (t.cur.toList :: st.txns).reverse = _
        rw [List.reverse_cons, ht.txns, List.drop_append_of_le_length hle]
      · show st.base = _
        rw [ht.base, List.take_append_of_le_length hle]
    · exact ⟨rfl, hdur, hle, ht.txns, ht.base⟩
  cases fl with
  | false => exact ⟨k, hstep⟩
  | true =>
    have hf : Tracks d₀ _ (st.commit true xp) _ := tracks_flush hstep.newest hstep.cur
    exact ⟨_, hf.cur, Nat.le_trans hstep.durable hstep.le, hf.le, hf.txns, hf.base⟩

/-- One operation of the log. -/
theorem Tracks.step (xp : LogXparams) (fl : Bool) (ht : Tracks d₀ t st k) {op : LogOp} (hop : ¬ op.Direct) :
    ∃ k', Tracks d₀ (t.step xp op) (st.step fl xp op) k' := by
  cases op with
  | begin | read => exact ⟨k, ht⟩
  | write a v => exact ⟨k, congrArg (·.insert a v) ht.cur, ht.durable, ht.le, ht.txns, ht.base⟩
  | abort | commitRo => exact ⟨k, rfl, ht.durable, ht.le, ht.txns, ht.base⟩
  | commit => exact ht.commit
  | flushall | flushsync => exact ⟨_, tracks_flush ht.newest ht.cur⟩
  | dwrite | dwriteVecs | dsync | dsyncVecs => exact absurd trivial hop

theorem Tracks.run (xp : LogXparams) (fl : Bool) : ∀ {ops : List LogOp} {t : TxnLog} {st : LogState} {k : Nat}, Tracks d₀ t st k →
    (∀ op ∈ ops, ¬ op.Direct) → ∃ k', Tracks d₀ (ops.foldl (TxnLog.step xp) t) (st.run fl xp ops) k'
  | [], _, _, k, ht, _ => ⟨k, ht⟩
  | op :: ops, t, st, k, ht, hops => by
    obtain ⟨k', ht'⟩ := ht.step xp fl (hops op List.mem_cons_self)
    have hrest : ∃ k, Tracks d₀ (ops.foldl (TxnLog.step xp) (t.step xp op)) ((st.step fl xp op).run fl xp ops) k :=
      Tracks.run xp fl ht' fun op' hop' => hops op' (List.mem_cons_of_mem _ hop')
    exact hrest

theorem committed_prefix (xp : LogXparams) (t : TxnLog) (op : LogOp) : t.committed <+: (t.step xp op).committed := by
  cases op with
  | commit =>
    rw [step]
    split
    · exact List.prefix_append _ _
    · exact List.prefix_refl _
  | _ => exact List.prefix_refl _

theorem durable_le (ht : Tracks d₀ t st k) (op : LogOp) : t.durable ≤ (t.step xp op).durable := by
  cases op with
  | commit =>
    rw [step]
    split <;> exact Nat.le_refl _
  | flushall | flushsync => exact Nat.le_trans ht.durable ht.le
  | _ => exact Nat.le_refl _

theorem tracks_empty (d₀ : RawDisk Valu) : Tracks d₀ empty ⟨d₀, [], vmap0⟩ 0 :=
  ⟨rfl, Nat.le_refl _, Nat.le_refl _, rfl, rfl⟩

end TxnLog

/-! ## Crashes -/

namespace LOG

variable {h : HashKey → HashVal} {xp : LogXparams} {n : Nat} {s : St Valu HashKey} {ms : Memstate} {st : LogState}

/-- Recovery after a crash ends in a crash of one of the disks `P`, however often it is interrupted. -/
theorem recoverLog_recovers_mcrash (hl : Layout xp n) {cachesize : Nat} (hn : cachesize ≠ 0)
    (P : RawDisk Valu → Prop) :
    Recovers h (recoverLog xp cachesize)
      (fun ms s => ∃ r d, P d ∧ PossibleCrash d r ∧ LRep h xp n ⟨r, [], vmap0⟩ ms s)
      (fun s => ∃ r d, P d ∧ PossibleCrash d r ∧ RecTo h xp n r s.disk s.seen) := by
  rintro s ⟨r, d, hd, hr, hR⟩
  exact wp_mono (fun _ _ hl => ⟨r, d, hd, hr, hl⟩) (fun _ hc m hm => ⟨r, d, hd, hr, hc m hm⟩) _
    (recoverLog_recovers hl hn r s hR)

/-- An operation, with any number of crashes and recoveries. -/
theorem runOp_recover (hl : Layout xp n) {cachesize : Nat} (hn : cachesize ≠ 0) (fl : Bool) {op : LogOp}
    (hop : op.Valid n) (hr : LRep h xp n st ms s) {o : Outcome Valu HashKey ((Memstate × LogOut) ⊕ Memstate)}
    (ho : ExecRecover h (recoverLog xp cachesize) s (runOp fl xp op ms) o) :
    Allowed (fun r s' => r.elim (fun r => LRep h xp n (st.step fl xp op) r.1 s' ∧ st.OutOk xp op r.2)
      (fun ms' => ∃ r d, (st.Pending d ∨ (st.step fl xp op).Pending d) ∧ PossibleCrash d r ∧
        LRep h xp n ⟨r, [], vmap0⟩ ms' s')) (fun _ => False) o :=
  recover_exec (recoverLog_recovers_mcrash hl hn fun d => st.Pending d ∨ (st.step fl xp op).Pending d) ho
    (runOp_spec hl fl hop hr)

/-- Every read returns the block of `d`. -/
def Exposes (h : HashKey → HashVal) (xp : LogXparams) (n : Nat) (d : RawDisk Valu) (ms : Memstate)
    (s : St Valu HashKey) : Prop :=
  ∀ a < n, ∀ o, Exec h s (read xp a ms) o → Allowed (fun r _ => d a = some (r.2, [])) (fun _ => True) o

theorem LRep.exposes (hl : Layout xp n) {r : RawDisk Valu} (hp : Plain r) (hr : LRep h xp n ⟨r, [], vmap0⟩ ms s) :
    Exposes h xp n r ms s := by
  intro a ha o ho
  have hread := wp_mono (C := fun _ => True) (fun _ _ hp => hp) (fun _ _ => trivial) _ (read_spec hl hr ha)
  have hall := wp_exec ho hread
  cases o with
  | failed => exact hall
  | collided => trivial
  | crashed => trivial
  | finished s' v =>
    obtain ⟨_, old, hv⟩ := hall
    have hview : LogState.view ⟨r, [], vmap0⟩ = r := overlay_vmap0 r
    rw [hview] at hv
    have hold : old = [] := hp a _ hv
    exact hold ▸ hv

/-- A small disk. -/
def smallSt : St Valu HashKey := ⟨fun _ => some (0, []), []⟩

theorem layout_small : Layout smallXp 100 :=
  ⟨smallXp_ok, by decide, fun a ha => by unfold InLog smallXp; simp only; omega⟩

theorem formatLog_small : ∃ s ms, Exec smallHash smallSt (formatLog smallXp 10) (.finished s ms) := by
  have hprog : ∃ (v : HashVal → Valu) (ms : HashVal → Memstate), formatLog smallXp 10 = .sync (.hash defaultKey fun x => .write 0 (v x) (.sync (.ret (ms x)))) :=
    ⟨_, _, rfl⟩
  obtain ⟨v, ms, hp⟩ := hprog
  rw [hp]
  exact ⟨_, _, .sync _ _ _ _ (.refl _) (.hash _ _ _ _ _ (fun _ hk => absurd hk List.not_mem_nil) (.refl _)
    (.write _ _ _ _ _ _ _ rfl (.refl _) (.sync _ _ _ _ (.refl _) (.ret _ _))))⟩

theorem smallSt_hasLog : HasLog smallXp smallSt.disk := fun _ _ => by simp [smallSt]

theorem smallSt_hasData : ∀ a < 100, smallSt.disk (smallXp.dataStart + a) ≠ none := fun _ _ => by simp [smallSt]

/-- Every crash of a run of logged operations, and of the recoveries after it, ends with the first `k` committed
transactions on disk. -/
theorem logged_run_crash_safe (hl : Layout xp n) {cachesize : Nat} (hn : cachesize ≠ 0) (fl : Bool)
    {s₀ s₁ s₂ : St Valu HashKey} {ms₁ ms₂ : Memstate} (hreg : HasLog xp s₀.disk)
    (hdata : ∀ a < n, s₀.disk (xp.dataStart + a) ≠ none)
    (hformat : Exec h s₀ (formatLog xp cachesize) (.finished s₁ ms₁)) {ops : List LogOp} {op : LogOp}
    (hops : ∀ op' ∈ ops ++ [op], op'.Valid n ∧ ¬ op'.Direct)
    (hrun : Exec h s₁ (runOps fl xp ops ms₁) (.finished s₂ ms₂)) :
    (∀ s, ∃ o, Exec h s (recoverLog xp cachesize) o ∧ ∀ s', o ≠ .crashed s') ∧
    ∀ o, ExecRecover h (recoverLog xp cachesize) s₂ (runOp fl xp op ms₂) o →
      o = .collided ∨ ∃ s' r, o = .finished s' r ∧ ∀ ms, r = .inr ms →
        ∃ k, (TxnLog.run xp ops).durable ≤ k ∧ k ≤ (TxnLog.run xp (ops ++ [op])).committed.length ∧
          Exposes h xp n (applied (dataOf xp n (syncMem s₀.disk)) ((TxnLog.run xp (ops ++ [op])).committed.take k))
            ms s' := by
  refine ⟨fun s => Exec.total h _ s, fun o ho => ?_⟩
  have hvalid : ∀ op' ∈ ops, op'.Valid n := fun op' h' => (hops op' (List.mem_append_left _ h')).1
  have hlogged : ∀ op' ∈ ops, ¬ op'.Direct := fun op' h' => (hops op' (List.mem_append_left _ h')).2
  obtain ⟨hopv, hopl⟩ := hops op (List.mem_append_right _ (List.mem_singleton.2 rfl))
  have hr₁ : LRep h xp n ⟨dataOf xp n (syncMem s₀.disk), [], vmap0⟩ ms₁ s₁ := wp_exec hformat (formatLog_spec hl hn hreg hdata)
  have hr₂ : LRep h xp n _ ms₂ s₂ := wp_exec hrun (runOps_spec hl fl hvalid hr₁)
  obtain ⟨k₂, ht₂⟩ : ∃ k, TxnLog.Tracks _ (TxnLog.run xp ops) _ k :=
    (TxnLog.tracks_empty (dataOf xp n (syncMem s₀.disk))).run xp fl hlogged
  obtain ⟨k₃, ht₃⟩ := ht₂.step xp fl hopl
  have hstep : TxnLog.run xp (ops ++ [op]) = (TxnLog.run xp ops).step xp op := by
    rw [TxnLog.run, List.foldl_append]; rfl
  have hall := runOp_recover hl hn fl hopv hr₂ ho
  cases o with
  | failed => exact hall.elim
  | crashed => exact hall.elim
  | collided => exact Or.inl rfl
  | finished s' r =>
    refine Or.inr ⟨s', r, rfl, fun ms hms => ?_⟩
    subst hms
    obtain ⟨r, d, hd, hcr, hrep⟩ := hall
    -- the disk after the first `k` transactions
    obtain ⟨k, hk₁, hk₂, hdk⟩ : ∃ k, (TxnLog.run xp ops).durable ≤ k ∧
        k ≤ ((TxnLog.run xp ops).step xp op).committed.length ∧
        d = applied (dataOf xp n (syncMem s₀.disk)) (((TxnLog.run xp ops).step xp op).committed.take k) := by
      rcases hd with hd | hd
      · obtain ⟨k, h₁, h₂, h₃⟩ := ht₂.pending hd
        obtain ⟨rest, hrest⟩ := TxnLog.committed_prefix xp (TxnLog.run xp ops) op
        rw [← hrest]
        refine ⟨k, h₁, by rw [List.length_append]; exact Nat.le_add_right_of_le h₂, ?_⟩
        rw [List.take_append_of_le_length h₂]; exact h₃
      · obtain ⟨k, h₁, h₂, h₃⟩ := ht₃.pending hd
        exact ⟨k, Nat.le_trans (TxnLog.durable_le ht₂ op) h₁, h₂, h₃⟩
    rw [hstep]
    refine ⟨k, hk₁, hk₂, ?_⟩
    have hplain : Plain d := hdk ▸ (plain_dataOf_syncMem xp n s₀.disk).applied
    rw [← hdk, ← hplain.crash_eq hcr]
    exact hrep.exposes hl (hplain.crash_eq hcr ▸ hplain)

theorem logged_run_crash_safe_small : ∃ s₁ ms₁ s₂ ms₂,
    Exec smallHash smallSt (formatLog smallXp 10) (.finished s₁ ms₁) ∧
    Exec smallHash s₁ (runOps true smallXp [.begin, .write 5 1] ms₁) (.finished s₂ ms₂) ∧
    ∀ o, ExecRecover smallHash (recoverLog smallXp 10) s₂ (runOp true smallXp .commit ms₂) o →
      o = .collided ∨ ∃ s' r, o = .finished s' r ∧ ∀ ms, r = .inr ms → ∃ k,
        (TxnLog.run smallXp [.begin, .write 5 1]).durable ≤ k ∧
        k ≤ (TxnLog.run smallXp ([.begin, .write 5 1] ++ [.commit])).committed.length ∧
        Exposes smallHash smallXp 100 (applied (dataOf smallXp 100 (syncMem smallSt.disk))
          ((TxnLog.run smallXp ([.begin, .write 5 1] ++ [.commit])).committed.take k)) ms s' := by
  obtain ⟨s₁, ms₁, hformat⟩ := formatLog_small
  have hrun : Exec smallHash s₁ (runOps true smallXp [.begin, .write 5 1] ms₁) (.finished s₁ _) := .ret s₁ _
  refine ⟨s₁, ms₁, s₁, _, hformat, hrun, ?_⟩
  refine (logged_run_crash_safe layout_small (by decide) true smallSt_hasLog smallSt_hasData hformat ?_ hrun).2
  simp [LogOp.Valid, LogOp.Direct]
end LOG

end Fscq
