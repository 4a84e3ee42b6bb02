import Fscq.Log.Crash

/-!
# Direct writes

A direct write bypasses the log, so it must not be overwritten by an entry that is applied or replayed later. The log
stack flushes and applies what is in the way, and then writes to the data region under all pending disks at once:
every pending disk afterwards is one from before with only that address changed (`pending_dwrite`).

What may be found at an address is followed through a run by `CellIn`. After a direct write the latest value there is
the written one, and after a sync it is the only one, so older logged values do not come back
(`dwrite_safe_across_pending`).
-/

namespace Fscq

open CrashLogic Bufcache PaddedLog LogReplay MLog

/-! ## Pending disks after a direct write -/

namespace LogState

variable {st : LogState} {xp : LogXparams} {fl : Bool} {a : Nat} {v : Valu} {d : RawDisk Valu}

theorem pending_flushFor {al : List Nat} (hd : (st.flushFor al).Pending d) : st.Pending d := by
  obtain ⟨ts, hsuf, rfl⟩ := hd
  simp only [flushFor, GLog.flushFor] at hsuf ⊢
  split at hsuf
  · rename_i ho
    rw [if_pos ho, List.suffix_nil.1 hsuf]
    exact GLog.between_newest _ _
  · rename_i ho
    rw [if_neg ho]
    exact ⟨ts, hsuf, rfl⟩

theorem newest_flushFor (al : List Nat) (st : LogState) : (st.flushFor al).newest = st.newest := by
  simp only [flushFor, GLog.flushFor, newest]
  split <;> rfl

theorem replayDisk_free : ∀ {log : Contents} {d : RawDisk Valu}, (∀ e ∈ log, e.1 ≠ a) → replayDisk log d a = d a
  | [], _, _ => rfl
  | e :: log, d, hn => by
    have hcons : replayDisk (e :: log) d a = replayDisk log (Function.update d e.1 ((d e.1).map fun _ => (e.2, []))) a := rfl
    rw [hcons, replayDisk_free fun e' he' => hn e' (List.mem_cons_of_mem _ he'),
      Function.update_of_ne (hn e List.mem_cons_self).symm]

theorem applyTxns_free : ∀ {ts : List Contents}, (∀ t ∈ ts, ∀ e ∈ t, e.1 ≠ a) → GLog.applyTxns ts d a = d a
  | [], _ => rfl
  | t :: ts, hn => by
    rw [GLog.applyTxns_cons, replayDisk_free (hn t List.mem_cons_self),
      applyTxns_free fun t' ht' => hn t' (List.mem_cons_of_mem _ ht')]

/-- A direct write changes one address of every pending disk, and only where the log has nothing for the address. -/
theorem pending_dwrite_newest (hd : (st.step fl xp (.dwrite a v)).Pending d) :
    ∃ d', st.Pending d' ∧ d' a = st.newest a ∧ d = updVs d' a v := by
  obtain ⟨ts, hsuf, rfl⟩ := hd
  have hfree : ∀ t ∈ (st.flushFor [a]).txns, ∀ e ∈ t, e.1 ≠ a := GLog.flushFor_free List.mem_cons_self
  have hfree' : ∀ t ∈ ts, ∀ e ∈ t, e.1 ≠ a := fun t ht => hfree t (hsuf.subset ht)
  refine ⟨GLog.applyTxns ts (st.flushFor [a]).base, pending_flushFor ⟨ts, hsuf, rfl⟩, ?_, GLog.applyTxns_updVs hfree'⟩
  rw [← newest_flushFor [a] st, newest, applyTxns_free hfree, applyTxns_free hfree']

theorem pending_dwrite (hd : (st.step fl xp (.dwrite a v)).Pending d) : ∃ d', st.Pending d' ∧ d = updVs d' a v := by
  obtain ⟨d', hd', _, h⟩ := pending_dwrite_newest hd
  exact ⟨d', hd', h⟩

theorem newest_dwrite : (st.step fl xp (.dwrite a v)).newest = updVs st.newest a v := by
  rw [← newest_flushFor [a] st]
  exact GLog.applyTxns_updVs fun t ht => GLog.flushFor_free List.mem_cons_self t ht

theorem view_dwrite : (st.step fl xp (.dwrite a v)).view a = updVs st.newest a v a := by
  rw [view, newest_dwrite]
  refine overlay_none ?_
  show (st.cur.erase a)[a]? = none
  rw [getElem?_erase', if_pos rfl]

end LogState

/-! ## One address through a run -/

/-- The values an operation writes to an address. -/
def LogOp.writesTo (a : Nat) : LogOp → List Valu
  | .write b v | .dwrite b v => if b = a then [v] else []
  | .dwriteVecs avl => (avl.filter fun e => e.1 == a).map Prod.snd
  | _ => []

/-- A property of value sets that logged values, direct writes and syncs of values in `S` keep. -/
structure CellClosed (P : ValuSet Valu → Prop) (S : Valu → Prop) : Prop where
  logged : ∀ {w}, S w → P (w, [])
  written : ∀ {w vs}, S w → P vs → P (w, vsmerge vs)
  synced : ∀ {vs}, P vs → P (vs.1, [])

/-- The latest value is in `S`; all values are in `S`. -/
def Latest (S : Valu → Prop) (vs : ValuSet Valu) : Prop := S vs.1

def AllIn (S : Valu → Prop) (vs : ValuSet Valu) : Prop := ∀ w ∈ vsmerge vs, S w

theorem latest_closed (S : Valu → Prop) : CellClosed (Latest S) S := ⟨fun hw => hw, fun hw _ => hw, fun hp => hp⟩

theorem allIn_singleton {S : Valu → Prop} {w : Valu} (hw : S w) : AllIn S (w, []) := fun x hx => by
  rw [List.mem_singleton.1 hx]; exact hw

theorem allIn_closed (S : Valu → Prop) : CellClosed (AllIn S) S :=
  ⟨allIn_singleton, fun hw hp x hx => by
      rcases List.mem_cons.1 hx with rfl | hx
      · exact hw
      · exact hp x hx,
    fun hp => allIn_singleton (hp _ List.mem_cons_self)⟩

/-- What may be found at `a`: `P` of the base, and values in `S` in all transactions. -/
structure CellIn (P : ValuSet Valu → Prop) (S : Valu → Prop) (a : Nat) (st : LogState) : Prop where
  base : ∀ vs, st.base a = some vs → P vs
  txns : ∀ t ∈ st.txns, ∀ e ∈ t, e.1 = a → S e.2
  cur : ∀ w, st.cur[a]? = some w → S w

section Cell

variable {P : ValuSet Valu → Prop} {S : Valu → Prop} {a : Nat} {st : LogState} {d : RawDisk Valu} {xp : LogXparams}
  {fl : Bool}

theorem cell_replayDisk (hcl : CellClosed P S) : ∀ {log : Contents} {d : RawDisk Valu},
    (∀ vs, d a = some vs → P vs) → (∀ e ∈ log, e.1 = a → S e.2) → ∀ vs, replayDisk log d a = some vs → P vs
  | [], _, hd, _ => hd
  | e :: log, d, hd, hlog => by
    refine cell_replayDisk (d := Function.update d e.1 ((d e.1).map fun _ => (e.2, []))) hcl (fun vs hvs => ?_)
      fun e' he' => hlog e' (List.mem_cons_of_mem _ he')
    by_cases ha : a = e.1
    · rw [ha, Function.update_self] at hvs
      obtain ⟨_, _, rfl⟩ := Option.map_eq_some_iff.1 hvs
      exact hcl.logged (hlog e List.mem_cons_self ha.symm)
    · rw [Function.update_of_ne ha] at hvs
      exact hd vs hvs

theorem cell_applyTxns (hcl : CellClosed P S) : ∀ {ts : List Contents}, (∀ vs, d a = some vs → P vs) →
    (∀ t ∈ ts, ∀ e ∈ t, e.1 = a → S e.2) → ∀ vs, GLog.applyTxns ts d a = some vs → P vs
  | [], hd, _ => hd
  | t :: _, hd, hts => cell_replayDisk hcl (cell_applyTxns hcl hd fun t' ht' => hts t' (List.mem_cons_of_mem _ ht'))
      (hts t List.mem_cons_self)

theorem cell_updVs (hcl : CellClosed P S) {b : Nat} {v : Valu} (hd : ∀ vs, d a = some vs → P vs) (hv : b = a → S v) :
    ∀ vs, updVs d b v a = some vs → P vs := fun vs hvs => by
  by_cases hb : a = b
  · subst hb
    rw [updVs, Function.update_self] at hvs
    obtain ⟨ws, hws, rfl⟩ := Option.map_eq_some_iff.1 hvs
    exact hcl.written (hv rfl) (hd ws hws)
  · rw [updVs_of_ne hb] at hvs
    exact hd vs hvs

theorem cell_updVecs (hcl : CellClosed P S) : ∀ {avl : List (Nat × Valu)} {d : RawDisk Valu},
    (∀ vs, d a = some vs → P vs) → (∀ e ∈ avl, e.1 = a → S e.2) → ∀ vs, updVecs d 0 avl a = some vs → P vs
  | [], _, hd, _ => hd
  | e :: avl, d, hd, havl => by
    refine cell_updVecs (d := updVs d (0 + e.1) e.2) hcl (cell_updVs hcl hd fun he => ?_)
      fun e' he' => havl e' (List.mem_cons_of_mem _ he')
    exact havl e List.mem_cons_self (by rw [← he, Nat.zero_add])

theorem cell_syncAddrs (hcl : CellClosed P S) {l : List Nat} (hd : ∀ vs, d a = some vs → P vs) :
    ∀ vs, syncAddrs d l a = some vs → P vs := fun vs hvs => by
  rw [syncAddrs] at hvs
  split at hvs
  · obtain ⟨ws, hws, rfl⟩ := Option.map_eq_some_iff.1 hvs
    exact hcl.synced (hd ws hws)
  · exact hd vs hvs

theorem CellIn.pending (hcl : CellClosed P S) (hc : CellIn P S a st) (hd : st.Pending d) :
    ∀ vs, d a = some vs → P vs := by
  obtain ⟨ts, hsuf, rfl⟩ := hd
  exact cell_applyTxns hcl hc.base fun t ht => hc.txns t (hsuf.subset ht)

theorem CellIn.flush (hcl : CellClosed P S) (hc : CellIn P S a st) : CellIn P S a st.flush :=
  ⟨hc.pending hcl (GLog.between_newest _ _), fun _ ht => absurd ht List.not_mem_nil, hc.cur⟩

theorem CellIn.flushFor (hcl : CellClosed P S) (hc : CellIn P S a st) (al : List Nat) :
    CellIn P S a (st.flushFor al) := by
  simp only [LogState.flushFor, GLog.flushFor]
  split
  · exact hc.flush hcl
  · exact hc

theorem CellIn.setCur {cur : Valumap} (hc : CellIn P S a st) (hcur : ∀ w, cur[a]? = some w → S w) :
    CellIn P S a { st with cur } := ⟨hc.base, hc.txns, hcur⟩

theorem cell_vmap0 : ∀ w, vmap0[a]? = some w → S w := fun w hw => by
  rw [getElem?_vmap0] at hw; cases hw

theorem CellIn.commit (hcl : CellClosed P S) (hc : CellIn P S a st) : CellIn P S a (st.commit fl xp) := by
  have hpush : CellIn P S a (st.commit false xp) := by
    by_cases hlen : st.cur.toList.length ≤ xp.logLen
    · rw [LogState.commit, if_pos hlen]
      refine ⟨hc.base, fun t ht e he hea => ?_, cell_vmap0⟩
      rcases List.mem_cons.1 ht with rfl | ht
      · exact hc.cur e.2 (hea ▸ Std.ExtTreeMap.mem_toList_iff_getElem?_eq_some.1 he)
      · exact hc.txns t ht e he hea
    · rw [LogState.commit, if_neg hlen]
      exact hc.setCur cell_vmap0
  cases fl with
  | false => exact hpush
  | true => exact hpush.flush hcl

/-- An operation that writes only values of `S` to `a`. -/
theorem CellIn.step (hcl : CellClosed P S) (hc : CellIn P S a st) {op : LogOp} (hw : ∀ w ∈ op.writesTo a, S w) :
    CellIn P S a (st.step fl xp op) := by
  cases op with
  | begin | read => exact hc
  | write b v =>
    refine hc.setCur fun w hins => ?_
    rw [getElem?_insert'] at hins
    split at hins
    · rename_i hb
      cases hins
      exact hw v (by simp [LogOp.writesTo, hb])
    · exact hc.cur w hins
  | abort | commitRo => exact hc.setCur cell_vmap0
  | commit => exact hc.commit hcl
  | flushall | flushsync => exact hc.flush hcl
  | dwrite b v =>
    have hf := hc.flushFor hcl [b]
    refine ⟨cell_updVs hcl hf.base fun hb => hw v (by simp [LogOp.writesTo, hb]), hf.txns, fun w hw' => ?_⟩
    rw [show (st.step fl xp (.dwrite b v)).cur = st.cur.erase b from rfl, getElem?_erase'] at hw'
    split at hw'
    · cases hw'
    · exact hc.cur w hw'
  | dwriteVecs avl =>
    have hf := hc.flushFor hcl (avl.map Prod.fst)
    refine ⟨cell_updVecs hcl hf.base fun e he hea => ?_, hf.txns, cell_vmap0⟩
    exact hw e.2 (List.mem_map.2 ⟨e, List.mem_filter.2 ⟨he, by simpa using hea⟩, rfl⟩)
  | dsync | dsyncVecs => exact ⟨cell_syncAddrs hcl hc.base, hc.txns, hc.cur⟩

theorem CellIn.run (hcl : CellClosed P S) : ∀ {ops : List LogOp} {st : LogState}, CellIn P S a st →
    (∀ op ∈ ops, ∀ w ∈ op.writesTo a, S w) → CellIn P S a (st.run fl xp ops)
  | [], _, hc, _ => hc
  | op :: ops, st, hc, hw => by
    have hrest : CellIn P S a ((st.step fl xp op).run fl xp ops) :=
      CellIn.run hcl (hc.step hcl (hw op List.mem_cons_self)) fun op' hop' => hw op' (List.mem_cons_of_mem _ hop')
    exact hrest

/-- After a direct write the latest value is the written one, whatever was logged before. -/
theorem cellIn_dwrite {v : Valu} (hv : S v) : CellIn (Latest S) S a (st.step fl xp (.dwrite a v)) := by
  refine ⟨fun vs hvs => ?_, fun t ht e he hea => ?_, fun w hw => ?_⟩
  · rw [show (st.step fl xp (.dwrite a v)).base = updVs (st.flushFor [a]).base a v from rfl, updVs,
      Function.update_self] at hvs
    obtain ⟨_, _, rfl⟩ := Option.map_eq_some_iff.1 hvs
    exact hv
  · exact absurd hea (GLog.flushFor_free List.mem_cons_self t ht e he)
  · rw [show (st.step fl xp (.dwrite a v)).cur = st.cur.erase a from rfl, getElem?_erase', if_pos rfl] at hw
    cases hw

/-- Does the operation sync the address? -/
def LogOp.Syncs (a : Nat) : LogOp → Prop
  | .dsync b => b = a
  | .dsyncVecs al => a ∈ al
  | _ => False

theorem CellIn.sync {op : LogOp} (hop : op.Syncs a) (hc : CellIn (Latest S) S a st) :
    CellIn (AllIn S) S a (st.step fl xp op) := by
  have hbase : ∀ l : List Nat, a ∈ l → ∀ vs, syncAddrs st.base l a = some vs → AllIn S vs := fun l hl vs hvs => by
    rw [syncAddrs, if_pos hl] at hvs
    obtain ⟨ws, hws, rfl⟩ := Option.map_eq_some_iff.1 hvs
    exact allIn_singleton (hc.base ws hws)
  cases op with
  | dsync b => exact ⟨hbase [b] (hop ▸ List.mem_cons_self), hc.txns, hc.cur⟩
  | dsyncVecs al => exact ⟨hbase al hop, hc.txns, hc.cur⟩
  | _ => exact hop.elim

end Cell

/-! ## Crashes -/

namespace LOG

variable {h : HashKey → HashVal} {xp : LogXparams} {n : Nat} {s : St Valu HashKey} {ms : Memstate} {st : LogState}

/-- A power failure in this state: whatever recovery exposes is in `R`. -/
def CrashExposes (h : HashKey → HashVal) (xp : LogXparams) (n cachesize : Nat) (R : RawDisk Valu → Prop)
    (s : St Valu HashKey) : Prop :=
  ∀ m, PossibleCrash s.disk m → ∀ o, ExecRecover h (recoverLog xp cachesize) ⟨m, s.seen⟩ (recoverLog xp cachesize) o →
    o = .collided ∨ ∃ s' r, o = .finished s' r ∧ ∃ d, R d ∧ Exposes h xp n d (r.elim id id) s'

theorem plain_of_crash {d r : RawDisk Valu} (hc : PossibleCrash d r) : Plain r := fun a vs hvs => by
  rcases hc a with ⟨_, h₂⟩ | ⟨_, _, _, h₂, _⟩
  · rw [hvs] at h₂; cases h₂
  · rw [hvs] at h₂; cases h₂; rfl

theorem LRep.base_ne_none (hr : LRep h xp n st ms s) {a : Nat} (ha : a < n) : st.base a ≠ none := by
  obtain ⟨L, D, hm⟩ := hr.low.low
  rw [hm.disk]; exact overlay_ne_none (hm.data a ha)

theorem mcrash_exposes (hl : Layout xp n) {cachesize : Nat} (hn : cachesize ≠ 0) {P R : RawDisk Valu → Prop}
    (hc : MCrash h xp n P s) (hR : ∀ d r, P d → PossibleCrash d r → (∀ a < n, r a ≠ none) → R r) :
    CrashExposes h xp n cachesize R s := by
  intro m hm o ho
  have hrec := recoverLog_recovers_mcrash (h := h) hl hn P
  have hall := recover_exec hrec ho (hrec _ (hc m hm))
  cases o with
  | failed => exact hall.elim
  | crashed => exact hall.elim
  | collided => exact Or.inl rfl
  | finished s' r =>
    refine Or.inr ⟨s', r, rfl, ?_⟩
    cases r <;>
      · obtain ⟨r, d, hd, hcr, hrep⟩ := hall
        exact ⟨r, hR d r hd hcr fun _ ha => hrep.base_ne_none ha, hrep.exposes hl (plain_of_crash hcr)⟩

/-- Between operations a crash falls back to a pending disk. -/
theorem LRep.mcrash (hl : Layout xp n) (hr : LRep h xp n st ms s) : MCrash h xp n st.Pending s := by
  obtain ⟨L, D, hm⟩ := hr.low.low
  exact (hm.crashAt (P := (· = st.base)) hl ⟨hm.log.1.covers, rfl⟩ rfl).mono fun d hd => hd ▸ pending_base st

/-- A run up to some point: its operations are done, or it crashed in the next one. -/
def ReachesCrash (h : HashKey → HashVal) (fl : Bool) (xp : LogXparams) (ops : List LogOp) (op : LogOp) (ms : Memstate)
    (s s' : St Valu HashKey) : Prop :=
  ∃ s₁ ms₁, Exec h s (runOps fl xp ops ms) (.finished s₁ ms₁) ∧
    (Exec h s₁ (runOp fl xp op ms₁) (.crashed s') ∨ ∃ r, Exec h s₁ (runOp fl xp op ms₁) (.finished s' r))

theorem ReachesCrash.mcrash (hl : Layout xp n) {fl : Bool} {ops : List LogOp} {op : LogOp} {s' : St Valu HashKey}
    (hr : LRep h xp n st ms s) (hops : ∀ op' ∈ ops ++ [op], op'.Valid n)
    (hreach : ReachesCrash h fl xp ops op ms s s') :
    MCrash h xp n (fun d => (st.run fl xp ops).Pending d ∨ ((st.run fl xp ops).step fl xp op).Pending d) s' := by
  obtain ⟨s₁, ms₁, hrun, hend⟩ := hreach
  have hr₁ : LRep h xp n _ ms₁ s₁ := wp_exec hrun (runOps_spec hl fl (fun op' h' => hops op' (List.mem_append_left _ h')) hr)
  have hspec := runOp_spec hl fl (hops op (List.mem_append_right _ (List.mem_singleton.2 rfl))) hr₁
  rcases hend with hcr | ⟨r, hfin⟩
  · exact wp_exec hcr hspec
  · have hr₂ : LRep h xp n _ r.1 s' ∧ _ := wp_exec hfin hspec
    exact (hr₂.1.mcrash hl).mono fun d hd => Or.inr hd

/-- Direct writes over all pending disks. After any run `ops` of a formatted log with the pending disks of `st`:
a direct write of `v` to `a` is what is read next; a crash during or after it exposes a pending disk in which only `a`
may differ; the pending disks change at `a` only; and once `a` is synced, only values written to `a` from the direct
write on are ever found there. -/
theorem dwrite_safe_across_pending (hl : Layout xp n) {cachesize : Nat} (hn : cachesize ≠ 0) (fl : Bool)
    {s₀ s₁ : St Valu HashKey} {ms₁ : Memstate} (hreg : HasLog xp s₀.disk)
    (hdata : ∀ a < n, s₀.disk (xp.dataStart + a) ≠ none)
    (hformat : Exec h s₀ (formatLog xp cachesize) (.finished s₁ ms₁)) {ops : List LogOp}
    (hops : ∀ op ∈ ops, op.Valid n) {a : Nat} (ha : a < n) (v : Valu) :
    (∀ s', ReachesCrash h fl xp ops (.dwrite a v) ms₁ s₁ s' → CrashExposes h xp n cachesize (fun r => ∃ d,
      (LogState.run fl xp ⟨dataOf xp n (syncMem s₀.disk), [], vmap0⟩ ops).Pending d ∧
        PossibleCrash (updVs d a v) r) s') ∧
    (∀ s' ms' o, Exec h s₁ (runOps fl xp (ops ++ [.dwrite a v]) ms₁) (.finished s' ms') →
      Exec h s' (read xp a ms') o → Allowed (fun r _ => r.2 = v) (fun _ => True) o) ∧
    (∀ d, (LogState.run fl xp ⟨dataOf xp n (syncMem s₀.disk), [], vmap0⟩ (ops ++ [.dwrite a v])).Pending d →
      ∃ d', (LogState.run fl xp ⟨dataOf xp n (syncMem s₀.disk), [], vmap0⟩ ops).Pending d' ∧ d = updVs d' a v) ∧
    (∀ mid sync post op s', (∀ op' ∈ mid ++ sync :: post ++ [op], op'.Valid n) → sync.Syncs a →
      ReachesCrash h fl xp (ops ++ .dwrite a v :: mid ++ sync :: post) op ms₁ s₁ s' →
      CrashExposes h xp n cachesize (fun r => ∃ w, r a = some (w, []) ∧
        (w = v ∨ ∃ op' ∈ mid ++ post ++ [op], w ∈ op'.writesTo a)) s') := by
  have hr₁ : LRep h xp n ⟨dataOf xp n (syncMem s₀.disk), [], vmap0⟩ ms₁ s₁ := wp_exec hformat (formatLog_spec hl hn hreg hdata)
  have hrun : ∀ (st : LogState) (l l' : List LogOp), st.run fl xp (l ++ l') = (st.run fl xp l).run fl xp l' :=
    fun _ _ _ => List.foldl_append
  generalize hst₀ : (⟨dataOf xp n (syncMem s₀.disk), [], vmap0⟩ : LogState) = st₀ at *
  have hvalid : ∀ op ∈ ops ++ [.dwrite a v], op.Valid n := fun op hop => by
    rcases List.mem_append.1 hop with hop | hop
    · exact hops op hop
    · rw [List.mem_singleton.1 hop]; exact ha
  refine ⟨fun s' hreach => ?_, fun s' ms' o hdone hread => ?_, fun d hd => ?_, ?_⟩
  · refine mcrash_exposes hl hn (hreach.mcrash hl hr₁ hvalid) fun d r hd hcr _ => ?_
    rcases hd with hd | hd
    · exact ⟨d, hd, (covers_updVs d a v).possibleCrash hcr⟩
    · obtain ⟨d', hd', rfl⟩ := LogState.pending_dwrite hd
      exact ⟨d', hd', hcr⟩
  · have hr₂ : LRep h xp n _ ms' s' := wp_exec hdone (runOps_spec hl fl hvalid hr₁)
    have hspec := wp_mono (C := fun _ => True) (fun _ _ hp => hp) (fun _ _ => trivial) _ (read_spec hl hr₂ ha)
    have hall := wp_exec hread hspec
    cases o with
    | failed => exact hall
    | collided => trivial
    | crashed => trivial
    | finished s'' r =>
      obtain ⟨_, old, hv⟩ := hall
      have hview : ((st₀.run fl xp ops).step fl xp (.dwrite a v)).view a = some (r.2, old) := by
        rw [hrun] at hv; exact hv
      rw [LogState.view_dwrite, updVs, Function.update_self] at hview
      obtain ⟨_, _, hvs⟩ := Option.map_eq_some_iff.1 hview
      exact (Prod.mk.inj hvs).1.symm
  · rw [hrun] at hd
    exact LogState.pending_dwrite (show ((st₀.run fl xp ops).step fl xp (.dwrite a v)).Pending d from hd)
  · intro mid sync post op s' hvalid' hsync hreach
    -- the values that may be found at `a` from the direct write on
    let S : Valu → Prop := fun w => w = v ∨ ∃ op' ∈ mid ++ post ++ [op], w ∈ op'.writesTo a
    have hS : ∀ op' ∈ mid ++ post ++ [op], ∀ w ∈ op'.writesTo a, S w := fun op' hop' w hw => Or.inr ⟨op', hop', hw⟩
    have hall : ∀ op' ∈ (ops ++ .dwrite a v :: mid ++ sync :: post) ++ [op], op'.Valid n := fun op' hop' => by
      simp only [List.mem_append, List.mem_cons] at hop' hvalid' hvalid
      rcases hop' with ((h₁ | h₁ | h₁) | h₁ | h₁) | h₁
      · exact hvalid op' (Or.inl h₁)
      · exact hvalid op' (Or.inr (Or.inl h₁))
      · exact hvalid' op' (Or.inl (Or.inl h₁))
      · exact hvalid' op' (Or.inl (Or.inr (Or.inl h₁)))
      · exact hvalid' op' (Or.inl (Or.inr (Or.inr h₁)))
      · exact hvalid' op' (Or.inr h₁)
    have hmid : CellIn (Latest S) S a ((st₀.run fl xp ops).step fl xp (.dwrite a v) |>.run fl xp mid) :=
      (cellIn_dwrite (Or.inl rfl)).run (latest_closed S) fun op' hop' =>
        hS op' (List.mem_append_left _ (List.mem_append_left _ hop'))
    have hpost : CellIn (AllIn S) S a (st₀.run fl xp (ops ++ .dwrite a v :: mid ++ sync :: post)) := by
      rw [hrun, hrun]
      exact (hmid.sync hsync).run (allIn_closed S) fun op' hop' =>
        hS op' (List.mem_append_left _ (List.mem_append_right _ hop'))
    have hlast : CellIn (AllIn S) S a ((st₀.run fl xp (ops ++ .dwrite a v :: mid ++ sync :: post)).step fl xp op) :=
      hpost.step (allIn_closed S) (hS op (List.mem_append_right _ (List.mem_singleton.2 rfl)))
    refine mcrash_exposes hl hn (hreach.mcrash hl hr₁ hall) fun d r hd hcr hne => ?_
    have hcell : ∀ vs, d a = some vs → AllIn S vs := by
      rcases hd with hd | hd
      · exact hpost.pending (allIn_closed S) hd
      · exact hlast.pending (allIn_closed S) hd
    rcases hcr a with ⟨_, h₂⟩ | ⟨vs, w, h₁, h₂, hw⟩
    · exact absurd h₂ (hne a ha)
    · exact ⟨w, h₂, hcell vs h₁ w hw⟩

theorem dwrite_safe_across_pending_small : ∃ s₁ ms₁,
    Exec smallHash smallSt (formatLog smallXp 10) (.finished s₁ ms₁) ∧
    ∀ s', ReachesCrash smallHash false smallXp [.begin, .write 5 1, .commit] (.dwrite 5 2) ms₁ s₁ s' →
      CrashExposes smallHash smallXp 100 10 (fun r => ∃ d, (LogState.run false smallXp
        ⟨dataOf smallXp 100 (syncMem smallSt.disk), [], vmap0⟩ [.begin, .write 5 1, .commit]).Pending d ∧
          PossibleCrash (updVs d 5 2) r) s' := by
  obtain ⟨s₁, ms₁, hformat⟩ := formatLog_small
  refine ⟨s₁, ms₁, hformat, ?_⟩
  refine (dwrite_safe_across_pending layout_small (by decide) false smallSt_hasLog smallSt_hasData hformat ?_
    (by decide) 2).1
  simp [LogOp.Valid]

end LOG

end Fscq
