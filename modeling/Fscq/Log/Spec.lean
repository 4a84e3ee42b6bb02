import Fscq.Log.GroupLog

/-!
# Transactions: the log stack as a state machine

The abstract state of the log stack (`LogState`) is a disk, the committed transactions that are not durable yet, and
the writes of the active transaction. `LogOp` are the operations of its users and `LogState.step` what they do.
The programs refine this machine (`runOp_spec`, `runOps_spec`): they keep the representation `LRep`, and a crash during
an operation recovers to a crash of one of the pending disks before or after it. Recovery keeps what it recovered to
(`recoverLog_recovers`).
-/

namespace Fscq

open CrashLogic Bufcache PaddedLog LogReplay MLog

/-! ## The abstract machine -/

structure LogState where
  base : RawDisk Valu
  /-- Committed transactions, newest first. -/
  txns : List Contents
  cur : Valumap

namespace LogState

open GLog

/-- The disks a crash may fall back to: the base and each committed transaction on top of the older ones. -/
def Pending (st : LogState) (d : RawDisk Valu) : Prop := Between st.txns st.base d

def newest (st : LogState) : RawDisk Valu := applyTxns st.txns st.base

/-- What the active transaction reads. -/
def view (st : LogState) : RawDisk Valu := overlay st.cur st.newest

def flush (st : LogState) : LogState := ⟨st.newest, [], st.cur⟩

/-- The committed transactions that a direct write to `al` flushes first. -/
def flushFor (al : List Nat) (st : LogState) : LogState :=
  ⟨(GLog.flushFor al st.txns st.base).1, (GLog.flushFor al st.txns st.base).2, st.cur⟩

def commit (shouldFlushall : Bool) (xp : LogXparams) (st : LogState) : LogState :=
  let st := if st.cur.toList.length ≤ xp.logLen then ⟨st.base, st.cur.toList :: st.txns, vmap0⟩
    else ⟨st.base, st.txns, vmap0⟩
  if shouldFlushall = true then st.flush else st

end LogState

/-- The operations of a client of the log. -/
inductive LogOp
  | begin
  | write (a : Nat) (v : Valu)
  | read (a : Nat)
  | abort
  | commit
  | commitRo
  | flushall
  | flushsync
  | dwrite (a : Nat) (v : Valu)
  | dwriteVecs (avl : List (Nat × Valu))
  | dsync (a : Nat)
  | dsyncVecs (al : List Nat)

namespace LogOp

/-- Addresses are in range, and block 0 is never logged. -/
def Valid (n : Nat) : LogOp → Prop
  | write a _ => a ≠ 0 ∧ a < n
  | read a => a < n
  | dwrite a _ => a < n
  | dwriteVecs avl => ∀ e ∈ avl, e.1 < n
  | dsync a => a < n
  | dsyncVecs al => ∀ a ∈ al, a < n
  | _ => True

/-- Does the operation bypass the log? -/
def Direct : LogOp → Prop
  | dwrite _ _ | dwriteVecs _ | dsync _ | dsyncVecs _ => True
  | _ => False

end LogOp

def LogState.step (shouldFlushall : Bool) (xp : LogXparams) (st : LogState) : LogOp → LogState
  | .begin | .read _ => st
  | .write a v => { st with cur := st.cur.insert a v }
  | .abort | .commitRo => { st with cur := vmap0 }
  | .commit => st.commit shouldFlushall xp
  | .flushall | .flushsync => st.flush
  | .dwrite a v =>
    let st' := st.flushFor [a]
    ⟨updVs st'.base a v, st'.txns, st.cur.erase a⟩
  | .dwriteVecs avl =>
    let st' := st.flushFor (avl.map Prod.fst)
    ⟨updVecs st'.base 0 avl, st'.txns, vmap0⟩
  | .dsync a => { st with base := syncAddrs st.base [a] }
  | .dsyncVecs al => { st with base := syncAddrs st.base al }

/-- The abstract state after a run. -/
def LogState.run (fl : Bool) (xp : LogXparams) (st : LogState) (ops : List LogOp) : LogState :=
  ops.foldl (LogState.step fl xp) st

/-- What an operation returns to its caller. -/
inductive LogOut
  | unit
  | value (v : Valu)
  | committed (ok : Bool)

/-- Reads return the view of the transaction, and a commit fails only if the transaction is larger than the log. -/
def LogState.OutOk (xp : LogXparams) (st : LogState) : LogOp → LogOut → Prop
  | .read a, .value v => ∃ old, st.view a = some (v, old)
  | .commit, .committed ok => ok = decide (st.cur.toList.length ≤ xp.logLen)
  | .read _, _ => False
  | .commit, _ => False
  | _, out => out = .unit

namespace LOG

/-! ## The programs -/

def runOp (shouldFlushall : Bool) (xp : LogXparams) (op : LogOp) (ms : Memstate) : FProg (Memstate × LogOut) :=
  match op with
  | .begin => (·, .unit) <$> begin xp ms
  | .write a v => (·, .unit) <$> write xp a v ms
  | .read a => (fun r => (r.1, .value r.2)) <$> read xp a ms
  | .abort => (·, .unit) <$> abort xp ms
  | .commit => (fun r => (r.1, .committed r.2)) <$> commit shouldFlushall xp ms
  | .commitRo => (·, .unit) <$> commitRo xp ms
  | .flushall => (·, .unit) <$> flushall xp ms
  | .flushsync => (·, .unit) <$> flushsync xp ms
  | .dwrite a v => (·, .unit) <$> dwrite xp a v ms
  | .dwriteVecs avl => (·, .unit) <$> dwriteVecs xp avl ms
  | .dsync a => (·, .unit) <$> dsync xp a ms
  | .dsyncVecs al => (·, .unit) <$> dsyncVecs xp al ms

def runOps (shouldFlushall : Bool) (xp : LogXparams) : List LogOp → Memstate → FProg Memstate
  | [], ms => pure ms
  | op :: ops, ms => do
    let (ms, _) ← runOp shouldFlushall xp op ms
    runOps shouldFlushall xp ops ms

/-- After a crash: a fresh cache and recovery of the log. -/
def recoverLog (xp : LogXparams) (cachesize : Nat) : FProg Memstate := do
  let cs ← Bufcache.init cachesize
  recover xp cs

/-- Formatting: a fresh cache and an empty log. -/
def formatLog (xp : LogXparams) (cachesize : Nat) : FProg Memstate := do
  let cs ← Bufcache.init cachesize
  init xp cs

/-! ## Refinement -/

structure LRep (h : HashKey → HashVal) (xp : LogXparams) (n : Nat) (st : LogState) (ms : Memstate)
    (s : St Valu HashKey) : Prop where
  low : GLog.GRep h xp n st.base st.txns ms.msLL s
  txn : ms.msTxn = st.cur
  txnIn : MapIn n st.cur

variable {h : HashKey → HashVal} {xp : LogXparams} {n : Nat} {s : St Valu HashKey} {ms : Memstate} {st : LogState}

theorem pending_base (st : LogState) : st.Pending st.base := GLog.between_base _ _

theorem read_spec (hl : Layout xp n) (hr : LRep h xp n st ms s) {a : Nat} (ha : a < n) :
    wp h (read xp a ms) (fun r s' => LRep h xp n st r.1 s' ∧ ∃ old, st.view a = some (r.2, old))
      (MCrash h xp n st.Pending) s := by
  unfold read
  split
  · rename_i v hv
    refine ⟨hr, [], ?_⟩
    obtain ⟨L, D, hlow⟩ := hr.low.low
    have hne : st.newest a ≠ none := by
      rw [LogState.newest, ← GLog.overlay_txnMap, hlow.disk]
      exact overlay_ne_none (overlay_ne_none (hlow.data a ha))
    obtain ⟨vs, hvs⟩ := Option.ne_none_iff_exists'.1 hne
    rw [LogState.view, ← hr.txn, overlay_some hv, hvs]; rfl
  · rename_i hv
    refine wp_seq (GLog.read_spec hl hr.low ha) (fun _ hc => hc.mono fun d hd => hd ▸ pending_base st)
      fun r s' ⟨hr', old, ho⟩ => ⟨⟨hr', hr.txn, hr.txnIn⟩, old, ?_⟩
    rw [LogState.view, ← hr.txn, overlay_none hv]; exact ho

theorem commit_spec (hl : Layout xp n) (fl : Bool) (hr : LRep h xp n st ms s) :
    wp h (commit fl xp ms)
      (fun r s' => LRep h xp n (st.commit fl xp) r.1 s' ∧ r.2 = decide (st.cur.toList.length ≤ xp.logLen))
      (MCrash h xp n fun d => st.Pending d ∨ (st.commit fl xp).Pending d) s := by
  have hents : EntsIn n ms.msTxn.toList := by
    rw [hr.txn]; exact hr.txnIn.toList
  refine wp_seq (GLog.submit_spec hr.low hents) (fun _ hc => hc) fun ⟨mm, r⟩ s' ⟨hs, hif⟩ => ?_
  subst hs
  rw [hr.txn] at hif
  -- both results of `submit` lead to some pending transactions `ts`
  obtain ⟨ts, hts, hr', hpend, hres⟩ : ∃ ts, st.commit false xp = ⟨st.base, ts, vmap0⟩ ∧
      GLog.GRep h xp n st.base ts mm s' ∧ (∀ d, GLog.Between ts st.base d → st.Pending d ∨
        d = GLog.applyTxns ts st.base) ∧ r = decide (st.cur.toList.length ≤ xp.logLen) := by
    by_cases hlen : st.cur.toList.length ≤ xp.logLen
    · rw [if_pos hlen] at hif
      refine ⟨st.cur.toList :: st.txns, ?_, hif.2, fun d ⟨ts', hsuf, hd⟩ => ?_, ?_⟩
      · rw [LogState.commit, if_pos hlen]; rfl
      · rcases List.suffix_cons_iff.1 hsuf with rfl | hsuf
        · exact Or.inr hd
        · exact Or.inl ⟨ts', hsuf, hd⟩
      · rw [decide_eq_true hlen]; exact hif.1
    · rw [if_neg hlen] at hif
      refine ⟨st.txns, ?_, hif.2, fun d hd => Or.inl hd, ?_⟩
      · rw [LogState.commit, if_neg hlen]; rfl
      · rw [decide_eq_false hlen]; exact hif.1
  show wp h (if fl = true then _ else _) _ _ s'
  cases fl with
  | false => exact ⟨⟨by rw [hts]; exact hr', by rw [hts], by rw [hts]; exact mapIn_vmap0 n⟩, hres⟩
  | true =>
    have hflush : st.commit true xp = ⟨GLog.applyTxns ts st.base, [], vmap0⟩ := by
      have hc : st.commit true xp = (st.commit false xp).flush := rfl
      rw [hc, hts]; rfl
    refine wp_seq (GLog.flushall_spec hl hr') (fun _ hc => hc.mono fun d hd => ?_) fun mm' s'' hr'' => ?_
    · rcases hpend d hd with hd | rfl
      · exact Or.inl hd
      · rw [hflush]; exact Or.inr (GLog.between_base _ _)
    · exact ⟨⟨by rw [hflush]; exact hr'', by rw [hflush], by rw [hflush]; exact mapIn_vmap0 n⟩, hres⟩

theorem dwrite_spec (hl : Layout xp n) (fl : Bool) (hr : LRep h xp n st ms s) {a : Nat} (ha : a < n) (v : Valu) :
    wp h (dwrite xp a v ms) (fun ms' s' => LRep h xp n (st.step fl xp (.dwrite a v)) ms' s')
      (MCrash h xp n fun d => st.Pending d ∨ (st.step fl xp (.dwrite a v)).Pending d) s := by
  refine wp_seq (GLog.dwrite_spec hl hr.low v ha) (fun _ hc => hc.mono fun d hd => ?_)
    fun mm s' hr' => ⟨hr', ?_, hr.txnIn.erase⟩
  · rcases hd with hd | rfl
    · exact Or.inl hd
    · exact Or.inr (GLog.between_base _ _)
  · show ms.msTxn.erase a = _
    rw [hr.txn]; rfl

theorem dsyncVecs_spec (hl : Layout xp n) (fl : Bool) (hr : LRep h xp n st ms s) {al : List Nat} (hal : ∀ a ∈ al, a < n) :
    wp h (dsyncVecs xp al ms) (fun ms' s' => LRep h xp n (st.step fl xp (.dsyncVecs al)) ms' s')
      (MCrash h xp n st.Pending) s :=
  wp_seq (GLog.dsyncVecs_spec hl hr.low hal) (fun _ hc => hc.mono fun _ hd => hd ▸ pending_base st)
    fun _ _ hr' => ⟨hr', hr.txn, hr.txnIn⟩

theorem syncCache_spec (hl : Layout xp n) (hr : LRep h xp n st ms s) :
    wp h (syncCache xp ms) (fun ms' s' => LRep h xp n ⟨syncMem st.base, st.txns, st.cur⟩ ms' s') (MCrash h xp n st.Pending) s :=
  wp_seq (GLog.syncCache_spec hl hr.low) (fun _ hc => hc.mono fun _ hd => hd ▸ pending_base st)
    fun _ _ hr' => ⟨hr', hr.txn, hr.txnIn⟩

theorem runOp_spec (hl : Layout xp n) (fl : Bool) {op : LogOp} (hop : op.Valid n) (hr : LRep h xp n st ms s) :
    wp h (runOp fl xp op ms) (fun r s' => LRep h xp n (st.step fl xp op) r.1 s' ∧ st.OutOk xp op r.2)
      (MCrash h xp n fun d => st.Pending d ∨ (st.step fl xp op).Pending d) s := by
  cases op with
  | begin => exact wp_map ⟨hr, rfl⟩
  | write a v =>
    refine wp_map ⟨⟨hr.low, ?_, hr.txnIn.insert hop⟩, rfl⟩
    show ms.msTxn.insert a v = _
    rw [hr.txn]; rfl
  | read a => exact wp_map (wp_mono (fun _ _ hp => hp) (fun _ hc => hc.mono fun _ hd => Or.inl hd) _ (read_spec hl hr hop))
  | abort => exact wp_map ⟨⟨hr.low, rfl, mapIn_vmap0 n⟩, rfl⟩
  | commitRo => exact wp_map ⟨⟨hr.low, rfl, mapIn_vmap0 n⟩, rfl⟩
  | commit => exact wp_map (commit_spec hl fl hr)
  | flushall =>
    exact wp_map (wp_seq (GLog.flushall_spec hl hr.low) (fun _ hc => hc.mono fun _ hd => Or.inl hd)
      fun mm s' hr' => ⟨⟨hr', hr.txn, hr.txnIn⟩, rfl⟩)
  | flushsync =>
    exact wp_map (wp_seq (GLog.flushsync_spec hl hr.low) (fun _ hc => hc.mono fun _ hd => Or.inl hd)
      fun mm s' hr' => ⟨⟨hr', hr.txn, hr.txnIn⟩, rfl⟩)
  | dwrite a v => exact wp_map (wp_mono (fun _ _ hr' => ⟨hr', rfl⟩) (fun _ hc => hc) _ (dwrite_spec hl fl hr hop v))
  | dwriteVecs avl =>
    refine wp_map (wp_seq (GLog.dwriteVecs_spec hl hr.low hop) (fun _ hc => hc.mono fun d hd => ?_)
      fun mm s' hr' => ⟨⟨hr', rfl, mapIn_vmap0 n⟩, rfl⟩)
    rcases hd with hd | rfl
    · exact Or.inl hd
    · exact Or.inr (GLog.between_base _ _)
  | dsync a =>
    exact wp_map (wp_seq (GLog.dsync_spec hl hr.low hop)
      (fun _ hc => hc.mono fun d hd => Or.inl (hd ▸ pending_base st)) fun mm s' hr' => ⟨⟨hr', hr.txn, hr.txnIn⟩, rfl⟩)
  | dsyncVecs al =>
    exact wp_map (wp_mono (fun _ _ hr' => ⟨hr', rfl⟩) (fun _ hc => hc.mono fun _ hd => Or.inl hd) _
      (dsyncVecs_spec hl fl hr hop))

theorem runOps_spec (hl : Layout xp n) (fl : Bool) : ∀ {ops : List LogOp} {st : LogState} {ms : Memstate}
    {s : St Valu HashKey}, (∀ op ∈ ops, op.Valid n) → LRep h xp n st ms s →
    wp h (runOps fl xp ops ms) (fun ms' s' => LRep h xp n (st.run fl xp ops) ms' s') (fun _ => True) s
  | [], _, _, _, _, hr => hr
  | op :: ops, st, ms, s, hops, hr => by
    refine wp_seq (runOp_spec hl fl (hops op List.mem_cons_self) hr) (fun _ _ => trivial) fun r s' ⟨hr', _⟩ => ?_
    exact runOps_spec hl fl (fun op' hop' => hops op' (List.mem_cons_of_mem _ hop')) hr'

/-! ## Recovery -/

theorem recover_spec (hl : Layout xp n) {r D : RawDisk Valu} {cs : CacheSt} (hc : CacheRep cs s.disk D)
    (hR : RecTo h xp n r D s.seen) :
    wp h (recover xp cs) (fun ms s' => LRep h xp n ⟨r, [], vmap0⟩ ms s')
      (fun s' => ∀ m, PossibleCrash s'.disk m → RecTo h xp n r m s'.seen) s :=
  wp_seq (GLog.recover_spec hl hc hR) (fun _ hc => hc) fun _ _ hr => ⟨hr, rfl, mapIn_vmap0 n⟩

theorem recoverLog_recovers (hl : Layout xp n) {cachesize : Nat} (hn : cachesize ≠ 0) (r : RawDisk Valu) :
    Recovers h (recoverLog xp cachesize) (fun ms s => LRep h xp n ⟨r, [], vmap0⟩ ms s)
      (fun s => RecTo h xp n r s.disk s.seen) := by
  intro s hR
  refine wp_seq (Bufcache.init_spec hn s) (fun s' hc m hm => ?_) fun cs s₁ hr₁ => ?_
  · rw [hc.2]; exact hR.crash (hc.1.possibleCrash hm)
  have hR₁ : RecTo h xp n r (syncMem s.disk) s₁.seen := hr₁.2 ▸ hR.crash (possibleCrash_syncMem _)
  exact recover_spec hl hr₁.1 hR₁

theorem formatLog_spec (hl : Layout xp n) {cachesize : Nat} (hn : cachesize ≠ 0) (hreg : HasLog xp s.disk)
    (hdata : ∀ a < n, s.disk (xp.dataStart + a) ≠ none) :
    wp h (formatLog xp cachesize)
      (fun ms s' => LRep h xp n ⟨dataOf xp n (syncMem s.disk), [], vmap0⟩ ms s') (fun _ => True) s := by
  have hsync : ∀ a, s.disk a ≠ none → syncMem s.disk a ≠ none := fun a ha => by
    rw [syncMem]; simpa using ha
  refine wp_seq (Bufcache.init_spec hn s) (fun _ _ => trivial) fun cs s₁ hr₁ => ?_
  refine wp_seq (GLog.init_spec hl hr₁.1 (fun a ha => hsync a (hreg a ha)) fun a ha => ?_) (fun _ hc => hc)
    fun mm s' hr => ⟨hr, rfl, mapIn_vmap0 n⟩
  rw [dataOf_lt ha]; exact hsync _ (hdata a ha)

end LOG

end Fscq
