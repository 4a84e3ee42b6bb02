import Fscq.Log.Spec
import Fscq.Txn.Array

/-!
# Running a body on the log

`LOG.exec` runs the body of a transaction with `LOG.read` and `LOG.write`, and `LogState.exec` says what this does to the
active transaction. The transaction shows a disk (`ldisk`): what a body does to this disk by its weakest precondition is
what the program does (`exec_spec`), and a crash falls back to a pending disk, since nothing is committed yet.
-/

namespace Fscq

open CrashLogic TxnLogic LogReplay MLog

/-- A disk of the log as the disk of a body: the latest values, and which blocks have no older ones. -/
def ldisk (m : RawDisk Valu) : LDisk := ⟨fun a => ((m a).map Prod.fst).getD 0, fun a => ∀ vs, m a = some vs → vs.2 = []⟩

theorem ldisk_apply {m : RawDisk Valu} {a : Nat} {v : Valu} {old : List Valu} (h : m a = some (v, old)) : ldisk m a = v := by
  simp only [ldisk, h]
  rfl

theorem ldisk_overlay_insert {m : Valumap} {d : RawDisk Valu} {a : Nat} (v : Valu) (ha : d a ≠ none) :
    ldisk (overlay (m.insert a v) d) = (ldisk (overlay m d)).set a v := by
  obtain ⟨vs, hvs⟩ := Option.ne_none_iff_exists'.mp (overlay_ne_none (m := m) ha)
  refine Disk.ext (fun b => ?_) fun b => ?_
  · by_cases hb : b = a
    · subst hb
      rw [Disk.set_self]
      refine @ldisk_apply _ _ _ [] ?_
      rw [overlay_insert, Function.update_self, hvs]
      rfl
    · rw [Disk.set_of_ne hb]
      simp only [ldisk, overlay_insert, Function.update_of_ne hb]
  · rw [Disk.plain_set]
    by_cases hb : b = a
    · subst hb
      refine ⟨fun _ => .inl rfl, fun _ ws hws => ?_⟩
      rw [overlay_insert, Function.update_self, hvs] at hws
      cases hws
      rfl
    · simp only [ldisk, overlay_insert, Function.update_of_ne hb]
      exact ⟨.inr, fun h => h.resolve_left hb⟩

namespace LOG

variable {α : Type}

/-- Run a body in the active transaction. -/
def exec (xp : LogXparams) : TBody α → Memstate → FProg (Memstate × α)
  | .ret a, ms => pure (ms, a)
  | .read a k, ms => do
    let (ms, v) ← read xp a ms
    exec xp (k v) ms
  | .write a v k, ms => do
    let ms ← write xp a v ms
    exec xp k ms

variable {h : HashKey → HashVal} {xp : LogXparams} {n : Nat}

/-- The state with another active transaction. -/
def setCur (st : LogState) (cur : Valumap) : LogState := { st with cur := cur }

theorem LRep.newest_ne_none {st : LogState} {ms : Memstate} {s : St Valu HashKey} (hr : LRep h xp n st ms s) {a : Nat}
    (ha : a < n) : st.newest a ≠ none := by
  obtain ⟨L, D, hlow⟩ := hr.low.low
  rw [LogState.newest, ← GLog.overlay_txnMap, hlow.disk]
  exact overlay_ne_none (overlay_ne_none (hlow.data a ha))

/-! The values on the newest disk are those that the memory and the physical disk give. -/

theorem overlay_vals {m : Valumap} {d d' : RawDisk Valu} {a : Nat} (h : (d a).map Prod.fst = (d' a).map Prod.fst) :
    (overlay m d a).map Prod.fst = (overlay m d' a).map Prod.fst := by
  cases hm : m[a]? with
  | none => rw [overlay_none hm, overlay_none hm, h]
  | some v =>
    have hnone := congrArg Option.isSome h
    simp only [Option.isSome_map] at hnone
    rw [overlay_some hm, overlay_some hm]
    cases hd : d a <;> cases hd' : d' a <;> simp_all

theorem LRep.newest_vals {st st' : LogState} {ms : Memstate} {s : St Valu HashKey} (hr : LRep h xp n st ms s)
    (hr' : LRep h xp n st' ms s) (a : Nat) : ldisk st.newest a = ldisk st'.newest a := by
  obtain ⟨L, D, hlow⟩ := hr.low.low
  obtain ⟨L', D', hlow'⟩ := hr'.low.low
  have hshown : ∀ b, (D b).map Prod.fst = (D' b).map Prod.fst := fun b => by
    rcases (hlow.log.1.block b).elim with ⟨_, hp, hd⟩ | ⟨vs, ds, hp, hd, _, hnone, hsome⟩
    · rcases (hlow'.log.1.block b).elim with ⟨_, _, hd'⟩ | ⟨vs', ds', hp', _⟩
      · rw [hd, hd']
      · rw [hp] at hp'
        cases hp'
    · rcases (hlow'.log.1.block b).elim with ⟨_, hp', _⟩ | ⟨vs', ds', hp', hd', _, hnone', hsome'⟩
      · rw [hp] at hp'
        cases hp'
      · cases hp.symm.trans hp'
        rw [hd, hd', Option.map_some, Option.map_some, Option.some_inj]
        cases he : ms.msLL.msLL.msCache.csMap[b]? with
        | none => rw [← hnone he, ← hnone' he]
        | some e => rw [(hsome e.1 e.2 he).1, (hsome' e.1 e.2 he).1]
  have hbase : (st.newest a).map Prod.fst = (st'.newest a).map Prod.fst := by
    have htxns : st.txns = st'.txns := hr.low.txns_eq.symm.trans hr'.low.txns_eq
    rw [LogState.newest, LogState.newest, ← GLog.overlay_txnMap, ← GLog.overlay_txnMap, htxns, hlow.disk, hlow'.disk]
    refine overlay_vals (overlay_vals ?_)
    by_cases ha : a < n
    · rw [dataOf_lt ha, dataOf_lt ha]
      exact hshown _
    · simp only [dataOf, if_neg ha]
  show ((st.newest a).map Prod.fst).getD 0 = ((st'.newest a).map Prod.fst).getD 0
  rw [hbase]

end LOG

/-! ## What a body does to the active transaction -/

namespace LogState

variable {α : Type} {n : Nat}

def exec : TBody α → LogState → α × LogState
  | .ret a, st => (a, st)
  | .read a k, st => exec (k (ldisk st.view a)) st
  | .write a v k, st => exec k (LOG.setCur st (st.cur.insert a v))

/-- Only the active transaction changes. -/
theorem exec_setCur : ∀ (p : TBody α) (st : LogState), (st.exec p).2 = LOG.setCur st (st.exec p).2.cur
  | .ret _, _ => rfl
  | .read a k, st => exec_setCur (k (ldisk st.view a)) st
  | .write a v k, st => by
    have h := exec_setCur k (LOG.setCur st (st.cur.insert a v))
    exact h

/-- The transaction shows what the body made of the disk. -/
theorem run_exec {Q : α → LDisk → Prop} : ∀ {p : TBody α} {st : LogState}, (∀ a < n, st.newest a ≠ none) →
    twp n p Q (ldisk st.view) → p.run (ldisk st.view) = ((st.exec p).1, ldisk (st.exec p).2.view)
  | .ret _, _, _, _ => rfl
  | .read a k, st, hne, ⟨_, hk⟩ => run_exec (p := k (ldisk st.view a)) hne hk
  | .write a v k, st, hne, ⟨_, ha, hk⟩ => by
    have hview : ldisk (LOG.setCur st (st.cur.insert a v)).view = (ldisk st.view).set a v := ldisk_overlay_insert v (hne a ha)
    rw [← hview] at hk
    rw [Body.run, ← hview]
    have hne' : ∀ b < n, (LOG.setCur st (st.cur.insert a v)).newest b ≠ none := hne
    exact run_exec hne' hk

end LogState

namespace LOG

variable {α : Type} {h : HashKey → HashVal} {xp : LogXparams} {n : Nat}

/-- The program does to the state of the log what the body does. -/
theorem exec_refines (hl : Layout xp n) {Q : α → LDisk → Prop} : ∀ {p : TBody α} {st : LogState} {ms : Memstate}
    {s : St Valu HashKey}, LRep h xp n st ms s → twp n p Q (ldisk st.view) →
    wp h (exec xp p ms) (fun r s' => LRep h xp n (st.exec p).2 r.1 s' ∧ r.2 = (st.exec p).1) (MCrash h xp n st.Pending) s
  | .ret a, st, ms, s, hr, _ => ⟨hr, rfl⟩
  | .read a k, st, ms, s, hr, ⟨ha, hk⟩ => by
    refine wp_seq (read_spec hl hr ha) (fun _ hc => hc) fun ⟨ms', v⟩ s' ⟨hr', old, hv⟩ => ?_
    have hread : st.exec (.read a k) = st.exec (k v) := by rw [LogState.exec, ldisk_apply hv]
    rw [ldisk_apply hv] at hk
    rw [hread]
    exact exec_refines hl hr' hk
  | .write a v k, st, ms, s, hr, ⟨h0, ha, hk⟩ => by
    have hr' : LRep h xp n (setCur st (st.cur.insert a v)) ⟨ms.msTxn.insert a v, ms.msLL⟩ s :=
      ⟨hr.low, congrArg (·.insert a v) hr.txn, hr.txnIn.insert ⟨h0, ha⟩⟩
    have hview : ldisk (setCur st (st.cur.insert a v)).view = (ldisk st.view).set a v :=
      ldisk_overlay_insert v (hr.newest_ne_none ha)
    rw [← hview] at hk
    have hrest := exec_refines hl hr' hk
    exact hrest

/-- A body does to the log what it does to the disk that the transaction shows. -/
theorem exec_spec (hl : Layout xp n) {Q : α → LDisk → Prop} {p : TBody α} {st : LogState} {ms : Memstate}
    {s : St Valu HashKey} (hr : LRep h xp n st ms s) (hw : twp n p Q (ldisk st.view)) :
    wp h (exec xp p ms) (fun r s' => ∃ cur, LRep h xp n (setCur st cur) r.1 s' ∧ Q r.2 (ldisk (setCur st cur).view))
      (MCrash h xp n st.Pending) s := by
  refine wp_mono (fun r s' ⟨hr', hres⟩ => ⟨(st.exec p).2.cur, ?_, ?_⟩) (fun _ hc => hc) _ (exec_refines hl hr hw)
  · rwa [← LogState.exec_setCur]
  · have hQ := twp_run hw
    rwa [LogState.run_exec (fun a ha => hr.newest_ne_none ha) hw, ← hres, LogState.exec_setCur] at hQ

end LOG

end Fscq
