import Fscq.Txn.Exec

/-!
# An older state of the log in memory

The body of a transaction only reads through the log, and what a read does to the physical disk is to write back blocks
that are dirty in the cache. The disk that is shown stays, so a cache from before the body still shows it, and with it the
whole state of the log in memory from before (`exec_stale`).
-/

namespace Fscq

open CrashLogic TxnLogic LogReplay MLog

namespace Bufcache

variable {V K H : Type} {h : K → H} {s : St V K} {cs cs₀ : Cachestate V} {D : RawDisk V}

/-- Writing back the value that is shown does not matter to any cache. -/
theorem CacheRep.writeLatest {m : RawDisk V} {a : Nat} {vs vs' : ValuSet V} (hr : CacheRep cs₀ m D) (hp : m a = some vs)
    (hd : D a = some vs') : CacheRep cs₀ (Function.update m a (some (vs'.1, vsmerge vs))) D := by
  refine ⟨hr.size, fun b => ?_⟩
  by_cases hb : b = a
  · subst hb
    have hblock := hr.block b
    rw [hp, hd] at hblock
    rcases hblock.elim with ⟨_, hnone, _⟩ | ⟨ws, ws', hws, hws', hsub, _, he⟩
    · cases hnone
    cases hws
    cases hws'
    rw [Function.update_self, hd]
    refine BlockRep.of_some (fun x hx => ?_) (fun _ => rfl) fun v dirty hv => ⟨(he v dirty hv).1, fun _ => (he v dirty hv).1⟩
    rcases List.mem_cons.mp hx with rfl | hx
    · exact List.mem_cons_self
    · exact hsub hx
  · rw [Function.update_of_ne hb]
    exact hr.block b

theorem writeback_stale (a : Nat) (hr : CacheRep cs s.disk D) (h₀ : CacheRep cs₀ s.disk D) :
    wp h (writeback (K := K) (H := H) a cs) (fun _ s' => CacheRep cs₀ s'.disk D) (fun _ => True) s := by
  unfold writeback
  split
  · rename_i v hv
    have hb := hr.block a
    rw [hv] at hb
    rcases hb.elim with ⟨he, _⟩ | ⟨vs, vs', hp, hd, _, _, he⟩
    · cases he
    refine ⟨trivial, vs, hp, fun m hm => ?_⟩
    rw [← (he v true rfl).1] at hm
    exact (h₀.writeLatest hp hd).possibleSync hm
  · exact h₀

theorem evict_stale (a : Nat) (hr : CacheRep cs s.disk D) (h₀ : CacheRep cs₀ s.disk D) :
    wp h (evict (K := K) (H := H) a cs) (fun _ s' => CacheRep cs₀ s'.disk D) (fun _ => True) s := by
  refine wp_seq (writeback_stale a hr h₀) (fun _ hc => hc) fun cs' s' h₀' => ?_
  split <;> exact h₀'

theorem maybeEvict_stale (hr : CacheRep cs s.disk D) (h₀ : CacheRep cs₀ s.disk D) :
    wp h (maybeEvict (K := K) (H := H) cs) (fun _ s' => CacheRep cs₀ s'.disk D) (fun _ => True) s := by
  unfold maybeEvict
  split
  · exact h₀
  · simp only [evictionChoose]
    split
    · exact evict_stale _ hr h₀
    · split
      · exact h₀
      · exact evict_stale _ hr h₀

theorem read_stale {a : Nat} {vs : ValuSet V} (hr : CacheRep cs s.disk D) (h₀ : CacheRep cs₀ s.disk D) (ha : D a = some vs) :
    wp h (read (K := K) (H := H) a cs) (fun _ s' => CacheRep cs₀ s'.disk D) (fun _ => True) s := by
  refine wp_seq (wp_and (wp_mono (fun _ _ hp => hp) (fun _ _ => trivial) _ (maybeEvict_spec ⟨hr, rfl⟩)) (maybeEvict_stale hr h₀))
    (fun _ hc => hc) fun cs' s' ⟨⟨⟨hr', _⟩, _⟩, h₀'⟩ => ?_
  rcases (hr'.block a).elim with ⟨_, _, hd⟩ | ⟨ps, ds, hp, _⟩
  · rw [ha] at hd
    cases hd
  · split
    · exact h₀'
    · exact ⟨trivial, ps, hp, fun m hm => h₀'.possibleSync hm⟩

end Bufcache

open Bufcache (CacheRep)

/-! ## The log -/

namespace LOG

variable {α : Type} {h : HashKey → HashVal} {xp : LogXparams} {n : Nat}

/-- The memory state with another cache. -/
def setCache (ms : Memstate) (cs : CacheSt) : Memstate :=
  { ms with msLL := { ms.msLL with msLL := { ms.msLL.msLL with msCache := cs } } }

/-- The log is in the state `st`, and an older cache `cs₀` shows the same disk. -/
structure StaleRep (h : HashKey → HashVal) (xp : LogXparams) (n : Nat) (st : LogState) (cs₀ : CacheSt) (ms : Memstate)
    (s : St Valu HashKey) : Prop where
  rep : LRep h xp n st ms s
  stale : ∃ L D, MRepAt h xp n L D st.base ms.msLL.msLL s ∧ CacheRep cs₀ s.disk D

theorem LRep.staleRep {st : LogState} {ms : Memstate} {s : St Valu HashKey} (hr : LRep h xp n st ms s) :
    StaleRep h xp n st ms.msLL.msLL.msCache ms s := by
  obtain ⟨L, D, hlow⟩ := hr.low.low
  exact ⟨hr, L, D, hlow, hlow.log.1⟩

variable {cs₀ : CacheSt}

theorem StaleRep.old {st : LogState} {ms : Memstate} {s : St Valu HashKey} (hr : StaleRep h xp n st cs₀ ms s) :
    LRep h xp n st (setCache ms cs₀) s := by
  obtain ⟨L, D, hlow, hc⟩ := hr.stale
  have hlow' : MRepAt h xp n L D st.base { ms.msLL.msLL with msCache := cs₀ } s :=
    ⟨⟨hc, hlow.log.2⟩, hlow.mem, hlow.ents, hlow.data, hlow.disk⟩
  exact ⟨⟨⟨L, D, hlow'⟩, hr.rep.low.txns_eq, hr.rep.low.vmap, hr.rep.low.ents, hr.rep.low.len⟩, hr.rep.txn, hr.rep.txnIn⟩

theorem read_stale (hl : Layout xp n) {st : LogState} {ms : Memstate} {s : St Valu HashKey}
    (hr : StaleRep h xp n st cs₀ ms s) {a : Nat} (ha : a < n) :
    wp h (read xp a ms) (fun r s' => StaleRep h xp n st cs₀ r.1 s' ∧ (∃ old, st.view a = some (r.2, old)) ∧
      ∃ cs, r.1 = setCache ms cs) (MCrash h xp n st.Pending) s := by
  obtain ⟨L, D, hlow, hc⟩ := hr.stale
  -- the physical read, if there is one
  have hkeep : wp h (read xp a ms) (fun r s' => (∃ L D, MRepAt h xp n L D st.base r.1.msLL.msLL s' ∧ CacheRep cs₀ s'.disk D) ∧
      ∃ cs, r.1 = setCache ms cs) (fun _ => True) s := by
    obtain ⟨vs, hvs⟩ := Option.ne_none_iff_exists'.mp (hlow.present ha)
    have hphys := wp_and (wp_mono (C := fun _ => True) (fun _ _ hp => hp) (fun _ _ => trivial) _
      (Bufcache.read_spec (h := h) ⟨hlow.log.1, rfl⟩ hvs)) (Bufcache.read_stale hlow.log.1 hc hvs)
    rw [read, GLog.read, MLog.read]
    split
    · exact ⟨⟨L, D, hlow, hc⟩, _, rfl⟩
    · split
      · exact ⟨⟨L, D, hlow, hc⟩, _, rfl⟩
      · split
        · exact ⟨⟨L, D, hlow, hc⟩, _, rfl⟩
        · simp only [Prog.bind_assoc]
          refine wp_seq hphys (fun _ hp => hp) fun r s' ⟨⟨hr', _⟩, hc'⟩ => ?_
          exact ⟨⟨L, D, ⟨⟨hr'.1, hr'.2 ▸ hlow.log.2⟩, hlow.mem, hlow.ents, hlow.data, hlow.disk⟩, hc'⟩, _, rfl⟩
  refine wp_mono (fun r s' ⟨⟨hrep, hv⟩, hst, hcs⟩ => ⟨⟨hrep, hst⟩, hv, hcs⟩) (fun _ hp => hp) _
    (wp_and (read_spec hl hr.rep ha) hkeep)

/-- A body, with the cache from before. -/
theorem exec_staleRep (hl : Layout xp n) {Q : α → LDisk → Prop} : ∀ {p : TBody α} {st : LogState} {ms : Memstate}
    {s : St Valu HashKey}, StaleRep h xp n st cs₀ ms s → twp n p Q (ldisk st.view) →
    wp h (exec xp p ms) (fun r s' => ∃ cur, StaleRep h xp n (setCur st cur) cs₀ r.1 s' ∧ Q r.2 (ldisk (setCur st cur).view) ∧
      ∃ cs, r.1 = setCache { ms with msTxn := cur } cs) (MCrash h xp n st.Pending) s
  | .ret a, st, ms, s, hr, hw => by
    have htxn : ms.msTxn = st.cur := hr.rep.txn
    refine ⟨st.cur, hr, hw, ms.msLL.msLL.msCache, ?_⟩
    rw [← htxn]
    rfl
  | .read a k, st, ms, s, hr, ⟨ha, hk⟩ => by
    refine wp_seq (read_stale hl hr ha) (fun _ hc => hc) fun ⟨ms', v⟩ s' ⟨hr', ⟨old, hv⟩, cs, hcs⟩ => ?_
    rw [ldisk_apply hv] at hk
    have hrest := exec_staleRep hl hr' hk
    refine wp_mono (fun r s'' ⟨cur, hr'', hQ, cs', hcs'⟩ => ⟨cur, hr'', hQ, cs', ?_⟩) (fun _ hc => hc) _ hrest
    obtain rfl : ms' = setCache ms cs := hcs
    exact hcs'
  | .write a v k, st, ms, s, hr, ⟨h0, ha, hk⟩ => by
    have hr' : StaleRep h xp n (setCur st (st.cur.insert a v)) cs₀ ⟨ms.msTxn.insert a v, ms.msLL⟩ s :=
      ⟨⟨hr.rep.low, congrArg (·.insert a v) hr.rep.txn, hr.rep.txnIn.insert ⟨h0, ha⟩⟩, hr.stale⟩
    have hview : ldisk (setCur st (st.cur.insert a v)).view = (ldisk st.view).set a v :=
      ldisk_overlay_insert v (hr.rep.newest_ne_none ha)
    rw [← hview] at hk
    have hrest := exec_staleRep hl hr' hk
    exact hrest

/-- After the body the state from before is still good. -/
theorem exec_stale (hl : Layout xp n) {p : TBody α} {Q : α → LDisk → Prop} {st : LogState} {ms : Memstate} {s : St Valu HashKey}
    (hr : LRep h xp n st ms s) (hp : twp n p Q (ldisk st.view)) :
    wp h (exec xp p ms) (fun r s' => LRep h xp n st ms s' ∧ ∃ cur, LRep h xp n (setCur st cur) r.1 s' ∧
      Q r.2 (ldisk (setCur st cur).view)) (MCrash h xp n st.Pending) s := by
  refine wp_mono (fun r s' ⟨cur, hr', hQ, cs, hcs⟩ => ⟨?_, cur, hr'.rep, hQ⟩) (fun _ hc => hc) _ (exec_staleRep hl hr.staleRep hp)
  have hold := hr'.old
  rw [hcs] at hold
  exact ⟨hold.low, hr.txn, hr.txnIn⟩

end LOG

end Fscq
