import Fscq.Log.Crash

/-!
# Group commit never drops a transaction

`flushall` throws away the result of `MLog.flush` and empties the list of committed transactions. `flushallOks` is the
same program with the results kept (`flushallOks_fst`). In every state that a run of group commit operations reaches,
with any number of crashes, all the results are true and the logical disk is the same before and after
(`flushall_never_drops`).
-/

namespace Fscq

open CrashLogic Bufcache PaddedLog LogReplay

namespace GLog

open MLog

/-! ## Keeping the results -/

/-- `flushallNomerge` with the results of the flushes. -/
def flushallNomergeOks (xp : LogXparams) (ms : Memstate) : FProg (Memstate × List Bool) := do
  let ts := ms.msTxns
  let (mm, oks) ← Prog.forN (fun i (p : MLog.Memstate × List Bool) => do
    let (mm, r) ← MLog.flush xp (ts.getD (ts.length - i - 1) []) p.1
    pure (mm, p.2 ++ [r])) 0 ts.length (ms.msLL, [])
  pure (⟨vmap0, [], mm⟩, oks)

/-- `flushall` with the results of the flushes. -/
def flushallOks (xp : LogXparams) (ms : Memstate) : FProg (Memstate × List Bool) :=
  if ms.msVMap.size ≤ xp.logLen then do
    let (mm, r) ← MLog.flush xp ms.msVMap.toList ms.msLL
    pure (⟨vmap0, [], mm⟩, [r])
  else flushallNomergeOks xp ms

/-- Forgetting a part of the loop variable. -/
theorem forN_map {α β : Type} {f : Nat → α → FProg α} {g : Nat → β → FProg β} {π : α → β}
    (hstep : ∀ i a, (do let a' ← f i a; pure (π a')) = g i (π a)) : ∀ (m i : Nat) (a : α),
    (do let a' ← Prog.forN f i m a; pure (π a')) = Prog.forN g i m (π a)
  | 0, _, _ => rfl
  | m + 1, i, a => by
    rw [Prog.forN, Prog.forN, Prog.bind_assoc, ← hstep i a, Prog.bind_assoc]
    congr 1
    funext a'
    exact forN_map hstep m (i + 1) a'

theorem flushallNomergeOks_fst (xp : LogXparams) (ms : Memstate) :
    (do let r ← flushallNomergeOks xp ms; pure r.1) = flushallNomerge xp ms := by
  have hloop := forN_map (π := Prod.fst) (f := fun i (p : MLog.Memstate × List Bool) => do
      let (mm, r) ← MLog.flush xp (ms.msTxns.getD (ms.msTxns.length - i - 1) []) p.1
      pure (mm, p.2 ++ [r]))
    (g := fun i mm => do
      let (mm, _) ← MLog.flush xp (ms.msTxns.getD (ms.msTxns.length - i - 1) []) mm
      pure mm) (fun i p => Prog.bind_assoc _ _ _) ms.msTxns.length 0 (ms.msLL, [])
  rw [flushallNomerge, flushallNomergeOks]
  simp only [← hloop, Prog.bind_assoc]
  rfl

theorem flushallOks_fst (xp : LogXparams) (ms : Memstate) :
    (do let r ← flushallOks xp ms; pure r.1) = flushall xp ms := by
  rw [flushall, flushallOks]
  by_cases hsize : ms.msVMap.size ≤ xp.logLen
  · rw [if_pos hsize, if_pos hsize, Prog.bind_assoc]
    rfl
  · rw [if_neg hsize, if_neg hsize]
    exact flushallNomergeOks_fst xp ms

variable {h : HashKey → HashVal} {xp : LogXparams} {n : Nat} {s : St Valu HashKey} {ms : Memstate}
  {base : RawDisk Valu} {txns : List Contents}

theorem flushallNomergeOks_spec (hl : Layout xp n) (hr : GRep h xp n base txns ms s) :
    wp h (flushallNomergeOks xp ms)
      (fun r s' => (∀ ok ∈ r.2, ok = true) ∧ GRep h xp n (applyTxns txns base) [] r.1 s') (fun _ => True) s := by
  -- after `i` rounds the `i` oldest transactions are in the log
  have hloop := wp_forN (h := h) (s := s) (l := (ms.msLL, ([] : List Bool))) (C := fun _ => True)
    (f := fun i (p : MLog.Memstate × List Bool) => do
      let (mm, r) ← MLog.flush xp (txns.getD (txns.length - i - 1) []) p.1
      pure (mm, p.2 ++ [r]))
    (I := fun i p s' => (∀ ok ∈ p.2, ok = true) ∧
      MRep h xp n (applyTxns (txns.drop (txns.length - i)) base) p.1 s') txns.length 0
    (fun i p s' _ hi ⟨hoks, hI⟩ => by
      have hlt : txns.length - i - 1 < txns.length := by omega
      have hget : txns.getD (txns.length - i - 1) [] = txns[txns.length - i - 1] := by
        simp [List.getD_eq_getElem?_getD, hlt]
      have hstep : applyTxns (txns.drop (txns.length - (i + 1))) base =
          replayDisk txns[txns.length - i - 1] (applyTxns (txns.drop (txns.length - i)) base) := by
        have hsucc : txns.length - i - 1 + 1 = txns.length - i := by omega
        rw [Nat.sub_add_eq, List.drop_eq_getElem_cons hlt, applyTxns_cons, hsucc]
      rw [hget]
      refine wp_seq (MLog.flush_spec hl hI (hr.ents _ (List.getElem_mem hlt)) (hr.len _ (List.getElem_mem hlt)))
        (fun _ _ => trivial) fun r s'' hr'' => ⟨fun ok hok => ?_, ?_⟩
      · rcases List.mem_append.1 hok with h | h
        · exact hoks ok h
        · rw [List.mem_singleton.1 h]
          exact hr''.2
      · rw [hstep]
        exact hr''.1)
    (by
      rw [Nat.sub_zero, List.drop_length]
      exact ⟨fun _ h => absurd h List.not_mem_nil, hr.low⟩)
  unfold flushallNomergeOks
  simp only [hr.txns_eq]
  refine wp_seq hloop (fun _ hc => hc) fun p s' ⟨hoks, hI⟩ => ⟨hoks, ?_⟩
  rw [Nat.zero_add, Nat.sub_self, List.drop_zero] at hI
  exact grep_flushed hI

theorem flushallOks_spec (hl : Layout xp n) (hr : GRep h xp n base txns ms s) :
    wp h (flushallOks xp ms)
      (fun r s' => (∀ ok ∈ r.2, ok = true) ∧ GRep h xp n (applyTxns txns base) [] r.1 s') (fun _ => True) s := by
  unfold flushallOks
  split
  · rename_i hsize
    have hents : EntsIn n ms.msVMap.toList := by
      rw [hr.vmap]
      exact (mapIn_txnMap hr.ents).toList
    refine wp_seq (MLog.flush_spec hl hr.low hents (by rw [Std.ExtTreeMap.length_toList]; exact hsize))
      (fun _ _ => trivial) fun r s' ⟨hr', hok⟩ => ⟨fun ok hmem => ?_, grep_flushed ?_⟩
    · rw [List.mem_singleton.1 hmem]
      exact hok
    · rw [replayDisk_toList, hr.vmap, overlay_txnMap] at hr'
      exact hr'
  · exact flushallNomergeOks_spec hl hr

/-! ## Reachable states -/

inductive Op
  | submit (ents : Contents)
  | read (a : Nat)
  | flushall
  | flushsync
  | dwrite (a : Nat) (v : Valu)
  | dwriteVecs (avl : List (Nat × Valu))
  | dsync (a : Nat)
  | dsyncVecs (al : List Nat)

/-- Addresses are in range, and block 0 is never logged. -/
def Op.Valid (n : Nat) : Op → Prop
  | .submit ents => EntsIn n ents
  | .read a => a < n
  | .flushall => True
  | .flushsync => True
  | .dwrite a _ => a < n
  | .dwriteVecs avl => ∀ e ∈ avl, e.1 < n
  | .dsync a => a < n
  | .dsyncVecs al => ∀ a ∈ al, a < n

def runOp (xp : LogXparams) (op : Op) (ms : Memstate) : FProg Memstate :=
  match op with
  | .submit ents => Prod.fst <$> submit xp ents ms
  | .read a => Prod.fst <$> read xp a ms
  | .flushall => flushall xp ms
  | .flushsync => flushsync xp ms
  | .dwrite a v => dwrite xp a v ms
  | .dwriteVecs avl => dwriteVecs xp avl ms
  | .dsync a => dsync xp a ms
  | .dsyncVecs al => dsyncVecs xp al ms

/-- Formatting: a fresh cache and an empty log. -/
def formatGroup (xp : LogXparams) (cachesize : Nat) : FProg Memstate := do
  let cs ← Bufcache.init cachesize
  init xp cs

/-- After a crash: a fresh cache and recovery of the log. -/
def recoverGroup (xp : LogXparams) (cachesize : Nat) : FProg Memstate := do
  let cs ← Bufcache.init cachesize
  recover xp cs

/-- The states that operations, crashes and recoveries lead to from a formatted disk. -/
inductive Reachable (h : HashKey → HashVal) (xp : LogXparams) (n cachesize : Nat) : Memstate → St Valu HashKey → Prop
  | format {s₀ s : St Valu HashKey} {ms : Memstate} : HasLog xp s₀.disk → (∀ a < n, s₀.disk (xp.dataStart + a) ≠ none) →
      Exec h s₀ (formatGroup xp cachesize) (.finished s ms) → Reachable h xp n cachesize ms s
  | step {s s' : St Valu HashKey} {ms ms' : Memstate} {op : Op} : Reachable h xp n cachesize ms s → op.Valid n →
      Exec h s (runOp xp op ms) (.finished s' ms') → Reachable h xp n cachesize ms' s'
  | crash {s s' : St Valu HashKey} {ms ms' : Memstate} {op : Op} : Reachable h xp n cachesize ms s → op.Valid n →
      ExecRecover h (recoverGroup xp cachesize) s (runOp xp op ms) (.finished s' (.inr ms')) →
      Reachable h xp n cachesize ms' s'

/-- Every operation leads to a state that group commit represents, and so does recovery after a crash in it. -/
theorem runOp_spec (hl : Layout xp n) {op : Op} (hop : op.Valid n) (hr : GRep h xp n base txns ms s) :
    ∃ P, wp h (runOp xp op ms) (fun ms' s' => ∃ base' txns', GRep h xp n base' txns' ms' s') (MCrash h xp n P) s := by
  cases op with
  | submit ents =>
    refine ⟨fun _ => True, wp_map (wp_mono (fun r s' ⟨_, hif⟩ => ?_) (fun _ hc => hc) _ (submit_spec hr hop))⟩
    split at hif
    · exact ⟨_, _, hif.2⟩
    · exact ⟨_, _, hif.2⟩
  | read a => exact ⟨_, wp_map (wp_mono (fun _ _ hr' => ⟨_, _, hr'.1⟩) (fun _ hc => hc) _ (read_spec hl hr hop))⟩
  | flushall => exact ⟨_, wp_mono (fun _ _ hr' => ⟨_, _, hr'⟩) (fun _ hc => hc) _ (flushall_spec hl hr)⟩
  | flushsync => exact ⟨_, wp_mono (fun _ _ hr' => ⟨_, _, hr'⟩) (fun _ hc => hc) _ (flushsync_spec hl hr)⟩
  | dwrite a v => exact ⟨_, wp_mono (fun _ _ hr' => ⟨_, _, hr'⟩) (fun _ hc => hc) _ (dwrite_spec hl hr v hop)⟩
  | dwriteVecs avl => exact ⟨_, wp_mono (fun _ _ hr' => ⟨_, _, hr'⟩) (fun _ hc => hc) _ (dwriteVecs_spec hl hr hop)⟩
  | dsync a => exact ⟨_, wp_mono (fun _ _ hr' => ⟨_, _, hr'⟩) (fun _ hc => hc) _ (dsync_spec hl hr hop)⟩
  | dsyncVecs al => exact ⟨_, wp_mono (fun _ _ hr' => ⟨_, _, hr'⟩) (fun _ hc => hc) _ (dsyncVecs_spec hl hr hop)⟩

theorem recoverGroup_recovers (hl : Layout xp n) {cachesize : Nat} (hn : cachesize ≠ 0) (P : RawDisk Valu → Prop) :
    Recovers h (recoverGroup xp cachesize) (fun ms s => ∃ r d, P d ∧ PossibleCrash d r ∧ GRep h xp n r [] ms s)
      (fun s => ∃ r d, P d ∧ PossibleCrash d r ∧ RecTo h xp n r s.disk s.seen) := by
  rintro s ⟨r, d, hd, hcr, hR⟩
  refine wp_seq (Bufcache.init_spec hn s) (fun s' hc m hm => ⟨r, d, hd, hcr, ?_⟩) fun cs s₁ hr₁ => ?_
  · rw [hc.2]
    exact hR.crash (hc.1.possibleCrash hm)
  · have hR₁ : RecTo h xp n r (syncMem s.disk) s₁.seen := hr₁.2 ▸ hR.crash (possibleCrash_syncMem _)
    exact wp_mono (fun _ _ hr => ⟨r, d, hd, hcr, hr⟩) (fun _ hc m hm => ⟨r, d, hd, hcr, hc m hm⟩) _
      (recover_spec hl hr₁.1 hR₁)

theorem Reachable.grep (hl : Layout xp n) {cachesize : Nat} (hn : cachesize ≠ 0)
    (hreach : Reachable h xp n cachesize ms s) : ∃ base txns, GRep h xp n base txns ms s := by
  induction hreach with
  | @format s₀ s ms hreg hdata he =>
    have hsync : ∀ a, s₀.disk a ≠ none → syncMem s₀.disk a ≠ none := fun a ha => by
      rw [syncMem]
      simpa using ha
    have hwp : wp h (formatGroup xp cachesize) (fun ms s => ∃ base txns, GRep h xp n base txns ms s) (fun _ => True) s₀ := by
      refine wp_seq (Bufcache.init_spec hn s₀) (fun _ _ => trivial) fun cs s₁ hr₁ => ?_
      refine wp_mono (fun _ _ hr => ⟨_, _, hr⟩) (fun _ hc => hc) _
        (init_spec hl hr₁.1 (fun a ha => hsync a (hreg a ha)) fun a ha => ?_)
      rw [dataOf_lt ha]
      exact hsync _ (hdata a ha)
    exact wp_exec he hwp
  | step _ hop he ih =>
    obtain ⟨base, txns, hr⟩ := ih
    obtain ⟨P, hwp⟩ := runOp_spec hl hop hr
    exact wp_exec he hwp
  | crash _ hop he ih =>
    obtain ⟨base, txns, hr⟩ := ih
    obtain ⟨P, hwp⟩ := runOp_spec hl hop hr
    obtain ⟨r, _, _, _, hr'⟩ := recover_exec (recoverGroup_recovers hl hn P) he hwp
    exact ⟨r, [], hr'⟩

/-! ## The logical disk -/

/-- Every read returns the value of `d`. -/
def Shows (h : HashKey → HashVal) (xp : LogXparams) (n : Nat) (d : Nat → Valu) (ms : Memstate) (s : St Valu HashKey) :
    Prop :=
  ∀ a < n, ∀ o, Exec h s (read xp a ms) o → Allowed (fun r _ => r.2 = d a) (fun _ => True) o

theorem GRep.shows (hl : Layout xp n) (hr : GRep h xp n base txns ms s) {d : Nat → Valu}
    (hd : ∀ a v old, applyTxns txns base a = some (v, old) → d a = v) : Shows h xp n d ms s := by
  intro a ha o he
  refine wp_exec he (wp_mono (fun r s' ⟨_, old, ho⟩ => ?_) (fun _ _ => trivial) _ (read_spec hl hr ha))
  exact (hd a r.2 old ho).symm

/-- In every reachable state all flushes of a group commit succeed, so the transactions that it forgets are in the log. -/
theorem flushall_never_drops (hl : Layout xp n) {cachesize : Nat} (hn : cachesize ≠ 0)
    (hreach : Reachable h xp n cachesize ms s) :
    (do let r ← flushallOks xp ms; pure r.1) = flushall xp ms ∧
    (do let r ← flushallNomergeOks xp ms; pure r.1) = flushallNomerge xp ms ∧
    ∃ d, Shows h xp n d ms s ∧ ∀ p ∈ [flushallOks xp ms, flushallNomergeOks xp ms], ∀ o, Exec h s p o →
      Allowed (fun r s' => (∀ ok ∈ r.2, ok = true) ∧ Shows h xp n d r.1 s') (fun _ => True) o := by
  obtain ⟨base, txns, hr⟩ := hreach.grep hl hn
  have hval : ∀ a v old, applyTxns txns base a = some (v, old) → ((applyTxns txns base a).getD (0, [])).1 = v :=
    fun a v old ha => by rw [ha]; rfl
  refine ⟨flushallOks_fst xp ms, flushallNomergeOks_fst xp ms, fun a => ((applyTxns txns base a).getD (0, [])).1,
    hr.shows hl hval, fun p hp o he => ?_⟩
  have hspec : wp h p (fun r s' => (∀ ok ∈ r.2, ok = true) ∧ GRep h xp n (applyTxns txns base) [] r.1 s')
      (fun _ => True) s := by
    simp only [List.mem_cons, List.not_mem_nil, or_false] at hp
    rcases hp with rfl | rfl
    · exact flushallOks_spec hl hr
    · exact flushallNomergeOks_spec hl hr
  exact wp_exec he (wp_mono (fun r s' ⟨hoks, hr'⟩ => ⟨hoks, hr'.shows hl hval⟩) (fun _ hc => hc) _ hspec)

/-- The small disk can be formatted, whatever the hash function is. -/
theorem formatGroup_small (h : HashKey → HashVal) : ∃ s ms, Exec h LOG.smallSt (formatGroup smallXp 10) (.finished s ms) ∧
    s.seen = [defaultKey] ∧ ms.msTxns = [] := by
  have hprog : ∃ (v : HashVal → Valu) (ms : HashVal → Memstate),
      formatGroup smallXp 10 = .sync (.hash defaultKey fun x => .write 0 (v x) (.sync (.ret (ms x)))) ∧
      ∀ x, (ms x).msTxns = [] := ⟨_, _, rfl, fun _ => rfl⟩
  obtain ⟨v, ms, hp, hms⟩ := hprog
  rw [hp]
  exact ⟨_, _, .sync _ _ _ _ (.refl _) (.hash _ _ _ _ _ (fun _ hk => absurd hk List.not_mem_nil) (.refl _)
    (.write _ _ _ _ _ _ _ rfl (.refl _) (.sync _ _ _ _ (.refl _) (.ret _ _)))), rfl, hms _⟩

/-- A formatted disk with one committed transaction that is not flushed. -/
theorem reachable_small : ∃ s ms, Reachable smallHash smallXp 100 10 ms s ∧ ms.msTxns = [[(1, 5)]] := by
  obtain ⟨s, ms, he, _, hms⟩ := formatGroup_small smallHash
  refine ⟨s, ⟨replayMem [(1, 5)] ms.msVMap, [[(1, 5)]], ms.msLL⟩, ?_, rfl⟩
  have hsubmit : Exec smallHash s (runOp smallXp (.submit [(1, 5)]) ms)
      (.finished s ⟨replayMem [(1, 5)] ms.msVMap, [[(1, 5)]], ms.msLL⟩) := by
    have hrun := Exec.ret (H := HashVal) (h := smallHash) s
      (⟨replayMem [(1, 5)] ms.msVMap, [(1, 5)] :: ms.msTxns, ms.msLL⟩ : Memstate)
    rw [hms] at hrun
    rw [runOp, submit, hms]
    exact hrun
  refine .step (.format LOG.smallSt_hasLog LOG.smallSt_hasData he) ?_ hsubmit
  intro e hmem
  rw [List.mem_singleton.1 hmem]
  decide

theorem flushall_never_drops_small : ∃ s ms, ms.msTxns = [[(1, 5)]] ∧
    ∃ d, Shows smallHash smallXp 100 d ms s ∧
      ∀ p ∈ [flushallOks smallXp ms, flushallNomergeOks smallXp ms], ∀ o, Exec smallHash s p o →
        Allowed (fun r s' => (∀ ok ∈ r.2, ok = true) ∧ Shows smallHash smallXp 100 d r.1 s') (fun _ => True) o := by
  obtain ⟨s, ms, hreach, htxns⟩ := reachable_small
  exact ⟨s, ms, htxns, (flushall_never_drops LOG.layout_small (by decide) hreach).2.2⟩

/-! ## Merged and one by one -/

/-- Nothing is pending, the logical disk is `d`, and every read returns a block of it. -/
structure Holds (h : HashKey → HashVal) (xp : LogXparams) (n : Nat) (d : RawDisk Valu) (ms : Memstate)
    (s : St Valu HashKey) : Prop where
  rep : GRep h xp n d [] ms s
  reads : ∀ a < n, ∀ o, Exec h s (read xp a ms) o → Allowed (fun r _ => ∃ old, d a = some (r.2, old)) (fun _ => True) o

theorem GRep.holds (hl : Layout xp n) {d : RawDisk Valu} (hr : GRep h xp n d [] ms s) : Holds h xp n d ms s :=
  ⟨hr, fun _ ha _ he => wp_exec he (wp_mono (fun _ _ h => h.2) (fun _ _ => trivial) _ (read_spec hl hr ha))⟩

/-- The prefixes of the transactions in the order of submission. -/
theorem between_iff {d d' : RawDisk Valu} :
    Between txns d d' ↔ ∃ k ≤ txns.length, d' = applied d (txns.reverse.take k) := by
  constructor
  · rintro ⟨ts, hsuf, rfl⟩
    refine ⟨ts.length, hsuf.length_le, ?_⟩
    rw [applyTxns_eq_applied, ← List.length_reverse, ← List.prefix_iff_eq_take.1 (List.reverse_prefix.2 hsuf)]
  · rintro ⟨k, _, rfl⟩
    refine ⟨(txns.reverse.take k).reverse, ?_, ?_⟩
    · rw [← List.reverse_prefix, List.reverse_reverse]
      exact List.take_prefix _ _
    · rw [applyTxns_eq_applied, List.reverse_reverse]

/-- A flush that ends, with or without crashes: the disk after all pending transactions if it was not interrupted, else
a crash of the disk after one of the prefixes `ks`. -/
def Flushes (h : HashKey → HashVal) (xp : LogXparams) (n cachesize : Nat) (base : RawDisk Valu) (pending : List Contents)
    (ks : Nat → Prop) (p : FProg Memstate) (s : St Valu HashKey) : Prop :=
  ∀ o, ExecRecover h (recoverGroup xp cachesize) s p o → Allowed (fun r s' => r.elim
    (fun ms' => Holds h xp n (applied base pending) ms' s')
    (fun ms' => ∃ k r, ks k ∧ PossibleCrash (applied base (pending.take k)) r ∧ Holds h xp n r ms' s')) (fun _ => False) o

theorem flushes_of_wp (hl : Layout xp n) {cachesize : Nat} (hn : cachesize ≠ 0) {p : FProg Memstate}
    {P : RawDisk Valu → Prop} {ks : Nat → Prop}
    (hwp : wp h p (fun ms' s' => GRep h xp n (applyTxns txns base) [] ms' s') (MCrash h xp n P) s)
    (hP : ∀ d, P d → ∃ k, ks k ∧ d = applied base (txns.reverse.take k)) :
    Flushes h xp n cachesize base txns.reverse ks p s := by
  intro o ho
  have hall := recover_exec (recoverGroup_recovers hl hn P) ho hwp
  cases o with
  | failed => exact hall
  | collided => trivial
  | crashed => exact hall
  | finished s' r =>
    cases r with
    | inl ms' =>
      have hr' : GRep h xp n (applyTxns txns base) [] ms' s' := hall
      rw [applyTxns_eq_applied] at hr'
      exact hr'.holds hl
    | inr ms' =>
      obtain ⟨r, d, hd, hcr, hr'⟩ := hall
      obtain ⟨k, hk, rfl⟩ := hP d hd
      exact ⟨k, r, hk, hcr, hr'.holds hl⟩

/-- The merged flush and the flush one by one lead to the same disk, that of all pending transactions in the order of
submission. A crash in the second keeps a prefix of them, in the first nothing or everything. -/
theorem merged_flush_agrees (hl : Layout xp n) {cachesize : Nat} (hn : cachesize ≠ 0)
    (hreach : Reachable h xp n cachesize ms s) (hsize : ms.msVMap.size ≤ xp.logLen) :
    flushall xp ms = flushMerged xp ms ∧ (∃ base, GRep h xp n base ms.msTxns ms s) ∧
    ∀ base, GRep h xp n base ms.msTxns ms s →
      Flushes h xp n cachesize base ms.msTxns.reverse (fun k => k = 0 ∨ k = ms.msTxns.length) (flushMerged xp ms) s ∧
      Flushes h xp n cachesize base ms.msTxns.reverse (fun k => k ≤ ms.msTxns.length) (flushallNomerge xp ms) s := by
  refine ⟨if_pos hsize, ?_, fun base hr => ⟨?_, ?_⟩⟩
  · obtain ⟨base, txns, hr⟩ := hreach.grep hl hn
    rw [hr.txns_eq]
    exact ⟨base, hr⟩
  · refine flushes_of_wp hl hn (flushMerged_spec hl hr hsize) fun d hd => ?_
    rcases hd with rfl | rfl
    · exact ⟨0, .inl rfl, rfl⟩
    · refine ⟨_, .inr rfl, ?_⟩
      rw [applyTxns_eq_applied, ← List.length_reverse, List.take_length]
  · exact flushes_of_wp hl hn (flushallNomerge_spec hl hr) fun d hd => between_iff.1 hd

theorem merged_flush_agrees_small : ∃ s ms, ms.msTxns = [[(1, 5)]] ∧ flushall smallXp ms = flushMerged smallXp ms ∧
    (∃ base, GRep smallHash smallXp 100 base ms.msTxns ms s) ∧
    ∀ base, GRep smallHash smallXp 100 base ms.msTxns ms s →
      Flushes smallHash smallXp 100 10 base ms.msTxns.reverse (fun k => k = 0 ∨ k = ms.msTxns.length)
        (flushMerged smallXp ms) s ∧
      Flushes smallHash smallXp 100 10 base ms.msTxns.reverse (fun k => k ≤ ms.msTxns.length)
        (flushallNomerge smallXp ms) s := by
  obtain ⟨s, ms, hreach, htxns⟩ := reachable_small
  obtain ⟨base, txns, hr⟩ := hreach.grep LOG.layout_small (by decide)
  have hsize : ms.msVMap.size ≤ smallXp.logLen := by
    rw [hr.vmap, ← hr.txns_eq, htxns]
    decide
  exact ⟨s, ms, htxns, merged_flush_agrees LOG.layout_small (by decide) hreach hsize⟩

end GLog

end Fscq
