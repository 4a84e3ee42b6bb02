import Fscq.Cache.Spec

/-!
# Runs of the buffer cache

`History` is what a run of cache operations should amount to, without a cache: the value of every block, the values
that may survive a crash, and, for the blocks passed to `sync` since the last `begin_sync`, the values since then. Every
run of the operations, from an empty cache and with evictions whenever the cache is full, agrees with it
(`run_correct`): reads return the value of the history, and a crash in an operation leaves one of the values that are allowed
when the operations before it are done.
-/

namespace Fscq

open CrashLogic

namespace Bufcache

variable {V K H : Type}

inductive Op (V : Type) : Type
  | read (a : Nat)
  | write (a : Nat) (v : V)
  | sync (a : Nat)
  | beginSync
  | endSync
  | evict (a : Nat)
  | maybeEvict

/-- The address of the operation is on the disk. -/
def Op.InRange (m : RawDisk V) : Op V → Prop
  | .read a | .write a _ | .sync a | .evict a => m a ≠ none
  | .beginSync | .endSync | .maybeEvict => True

def runOp : Op V → Cachestate V → Prog V K H (Cachestate V × Option V)
  | .read a, cs => do
    let (cs, v) ← read a cs
    pure (cs, some v)
  | .write a v, cs => do
    let cs ← write a v cs
    pure (cs, none)
  | .sync a, cs => do
    let cs ← sync a cs
    pure (cs, none)
  | .beginSync, cs => do
    let cs ← beginSync cs
    pure (cs, none)
  | .endSync, cs => do
    let cs ← endSync cs
    pure (cs, none)
  | .evict a, cs => do
    let cs ← evict a cs
    pure (cs, none)
  | .maybeEvict, cs => do
    let cs ← maybeEvict cs
    pure (cs, none)

def runOps : List (Op V) → Cachestate V → Prog V K H (Cachestate V × List (Option V))
  | [], cs => pure (cs, [])
  | op :: ops, cs => do
    let (cs, out) ← runOp op cs
    let (cs, outs) ← runOps ops cs
    pure (cs, out :: outs)

/-! ## Histories -/

structure History (V : Type) where
  /-- The last value written, or the one on the disk at first. -/
  cur : Nat → Option V
  /-- The values written since the last completed sync, and the value at that sync. -/
  alive : Nat → List V
  /-- For a block passed to `sync` since the last `begin_sync`: its value then, and the values written since. -/
  since : Nat → Option (List V)

namespace History

def ofDisk (m : RawDisk V) : History V :=
  ⟨fun a => (m a).map Prod.fst, fun a => (m a).elim [] vsmerge, fun _ => none⟩

def step (t : History V) : Op V → History V
  | .write a v =>
    ⟨Function.update t.cur a (some v), Function.update t.alive a (v :: t.alive a),
      Function.update t.since a ((t.since a).map (v :: ·))⟩
  | .beginSync => { t with since := fun _ => none }
  | .sync a => { t with since := Function.update t.since a ((t.cur a).map ([·])) }
  | .endSync => { t with alive := fun a => (t.since a).getD (t.alive a) }
  | .read _ | .evict _ | .maybeEvict => t

def run (t : History V) (ops : List (Op V)) : History V := ops.foldl step t

/-- What an operation returns. -/
def out (t : History V) : Op V → Option V
  | .read a => t.cur a
  | _ => none

def outs (t : History V) : List (Op V) → List (Option V)
  | [] => []
  | op :: ops => t.out op :: (t.step op).outs ops

/-- The asynchronous disk that a history describes. -/
def disk (t : History V) : RawDisk V := fun a => (t.cur a).map fun v => (v, t.alive a)

/-- What a crash may leave. -/
def Survives (t : History V) (m : RawDisk V) : Prop := ∀ a v l, m a = some (v, l) → v ∈ t.alive a

/-- The value of a block may survive, and is one of the values since its last sync. -/
structure Wf (t : History V) : Prop where
  alive : ∀ a v, t.cur a = some v → v ∈ t.alive a
  since : ∀ a l v, t.since a = some l → t.cur a = some v → v ∈ l

theorem wf_ofDisk (m : RawDisk V) : (ofDisk m).Wf := by
  refine ⟨fun a v hv => ?_, fun a l v hl => ?_⟩
  · simp only [ofDisk] at hv ⊢
    cases hm : m a with
    | none => rw [hm] at hv; cases hv
    | some vs =>
      rw [hm] at hv
      cases hv
      exact List.mem_cons_self
  · cases hl

theorem Wf.step {t : History V} (ht : t.Wf) (op : Op V) : (t.step op).Wf := by
  cases op with
  | read a => exact ht
  | evict a => exact ht
  | maybeEvict => exact ht
  | beginSync => exact ⟨ht.alive, fun a l v hl => nomatch hl⟩
  | endSync =>
    refine ⟨fun a v hv => ?_, ht.since⟩
    simp only [History.step]
    cases hs : t.since a with
    | none => exact ht.alive a v hv
    | some l => exact ht.since a l v hs hv
  | sync b =>
    refine ⟨ht.alive, fun a l v hl hv => ?_⟩
    simp only [History.step] at hl hv
    by_cases hab : a = b
    · subst hab
      rw [Function.update_self, hv] at hl
      cases hl
      exact List.mem_singleton_self v
    · rw [Function.update_of_ne hab] at hl
      exact ht.since a l v hl hv
  | write b w =>
    refine ⟨fun a v hv => ?_, fun a l v hl hv => ?_⟩ <;> simp only [History.step] at hv ⊢
    · by_cases hab : a = b
      · subst hab
        rw [Function.update_self] at hv ⊢
        cases hv
        exact List.mem_cons_self
      · rw [Function.update_of_ne hab] at hv ⊢
        exact ht.alive a v hv
    · simp only [History.step] at hl
      by_cases hab : a = b
      · subst hab
        rw [Function.update_self] at hv hl
        obtain ⟨l', _, rfl⟩ := Option.map_eq_some_iff.1 hl
        cases hv
        exact List.mem_cons_self
      · rw [Function.update_of_ne hab] at hv hl
        exact ht.since a l v hl hv

/-- A crash of the disk of a history leaves what it allows. -/
theorem Wf.survives {t : History V} (ht : t.Wf) {m m' : RawDisk V} (hc : Covers m t.disk) (hm : PossibleCrash m m') :
    t.Survives m' := by
  intro a v l hv
  rcases hc.possibleCrash hm a with ⟨_, h⟩ | ⟨vs, v', hd, h, hmem⟩
  · rw [h] at hv
    cases hv
  · rw [h] at hv
    cases hv
    obtain ⟨w, hw, rfl⟩ := Option.map_eq_some_iff.1 hd
    rcases List.mem_cons.1 hmem with rfl | h
    · exact ht.alive a _ hw
    · exact h

end History

/-! ## The values on the disk -/

variable {h : K → H} {s : St V K} {cs : Cachestate V} {D : RawDisk V} {G : Nat → V → Prop} {seen : List K}

/-- The latest values on the disk are in `G`. -/
def Within (G : Nat → V → Prop) (m : RawDisk V) : Prop := ∀ a vs, m a = some vs → G a vs.1

theorem Within.possibleSync {m m' : RawDisk V} (hw : Within G m) (hm : PossibleSync m m') : Within G m' := by
  intro a vs hvs
  rcases hm a with ⟨_, h₂⟩ | ⟨v, l, l', h₁, h₂, _⟩
  · rw [h₂] at hvs
    cases hvs
  · rw [h₂] at hvs
    cases hvs
    have hv : G a v := hw a (v, l) h₁
    exact hv

theorem Within.syncMem {m : RawDisk V} (hw : Within G m) : Within G (syncMem m) := by
  intro a vs hvs
  obtain ⟨vs', hm, rfl⟩ := Option.map_eq_some_iff.1 hvs
  exact hw a vs' hm

/-- Only values that the cache shows are written back. -/
theorem writeback_within (hG : Within G D) (a : Nat) (hr : CacheAt cs D seen s) (hw : Within G s.disk) :
    wp h (writeback (K := K) (H := H) a cs) (fun _ s' => Within G s'.disk) (fun _ => True) s := by
  unfold writeback
  split
  · rename_i v hv
    have hb := hr.1.block a
    rw [hv] at hb
    rcases hb.elim with ⟨he, _⟩ | ⟨vs, vs', hp, hd, _, _, he⟩
    · cases he
    · refine ⟨trivial, vs, hp, fun m hm => Within.possibleSync (fun b ws hws => ?_) hm⟩
      by_cases hab : b = a
      · subst hab
        rw [Function.update_self] at hws
        cases hws
        rw [← (he v true rfl).1]
        exact hG b vs' hd
      · rw [Function.update_of_ne hab] at hws
        exact hw b ws hws
  · exact hw

theorem evict_within (hG : Within G D) (a : Nat) (hr : CacheAt cs D seen s) (hw : Within G s.disk) :
    wp h (evict (K := K) (H := H) a cs) (fun _ s' => Within G s'.disk) (fun _ => True) s := by
  refine wp_seq (writeback_within hG a hr hw) (fun _ hc => hc) fun cs' s' hw' => ?_
  cases cs'.csMap[a]? <;> exact hw'

theorem maybeEvict_within (hG : Within G D) (hr : CacheAt cs D seen s) (hw : Within G s.disk) :
    wp h (maybeEvict (K := K) (H := H) cs) (fun _ s' => Within G s'.disk) (fun _ => True) s := by
  unfold maybeEvict
  split
  · exact hw
  · simp only [evictionChoose]
    split
    · exact evict_within hG _ hr hw
    · split
      · exact hw
      · exact evict_within hG _ hr hw

theorem read_within (hG : Within G D) {a : Nat} {vs : ValuSet V} (hr : CacheAt cs D seen s) (ha : D a = some vs)
    (hw : Within G s.disk) : wp h (read (K := K) (H := H) a cs) (fun _ s' => Within G s'.disk) (fun _ => True) s := by
  refine wp_seq (wp_and (maybeEvict_spec hr) (maybeEvict_within hG hr hw)) (fun _ _ => trivial)
    fun cs' s' ⟨⟨hr', _⟩, hw'⟩ => ?_
  cases cs'.csMap[a]? with
  | some e => exact hw'
  | none =>
    have hb := hr'.1.block a
    rw [ha] at hb
    rcases hb.elim with ⟨_, _, hd⟩ | ⟨ps, ds, hp, _⟩
    · cases hd
    · exact ⟨trivial, ps, hp, fun m hm => hw'.possibleSync hm⟩

theorem write_within (hG : Within G D) (a : Nat) (v : V) (hr : CacheAt cs D seen s) (hw : Within G s.disk) :
    wp h (write (K := K) (H := H) a v cs) (fun _ s' => Within G s'.disk) (fun _ => True) s := by
  refine wp_seq (maybeEvict_within hG hr hw) (fun _ hc => hc) fun cs' s' hw' => ?_
  cases cs'.csMap[a]? <;> exact hw'

/-- Evicting a block that is not cached changes nothing. -/
theorem evict_spec' (a : Nat) (hr : CacheAt cs D seen s) :
    wp h (evict (K := K) (H := H) a cs) (fun cs' s' => CacheAt cs' D seen s') (CrashAt D seen) s := by
  cases ha : cs.csMap[a]? with
  | some e => exact wp_mono (fun _ _ h => h.1) (fun _ hc => hc) _ (evict_spec hr ⟨e, ha⟩)
  | none =>
    refine wp_seq (writeback_spec a hr) (fun _ hc => hc) fun cs' s' ⟨hr', _, _, _, _, _, hsome⟩ => ?_
    rw [ha] at hsome
    cases hm : cs'.csMap[a]? with
    | some e' => rw [hm] at hsome; cases hsome
    | none =>
      refine ⟨⟨⟨?_, hr'.1.size.le, hr'.1.size.ne⟩, fun b => ?_⟩, hr'.2⟩
      · show (cs'.csMap.erase a).size = cs'.csCount
        rw [Std.ExtTreeMap.size_erase, if_neg, hr'.1.size.count]
        rw [Std.ExtTreeMap.contains_eq_isSome_getElem?, hm]; simp
      · rw [getElem?_erase']
        by_cases hab : a = b
        · subst hab
          rw [if_pos rfl, ← hm]
          exact hr'.1.block a
        · rw [if_neg hab]
          exact hr'.1.block b

/-! ## One operation -/

/-- The values of a block since it was last passed to `sync`. -/
def History.Recent (t : History V) (a : Nat) (v : V) : Prop := ∀ l, t.since a = some l → v ∈ l

/-- The cache and the disk agree with a history. -/
structure RunRep (t : History V) (cs : Cachestate V) (seen : List K) (s : St V K) : Prop where
  wf : t.Wf
  cache : CacheAt cs t.disk seen s
  recent : Within t.Recent s.disk

theorem History.Wf.recent {t : History V} (ht : t.Wf) : Within t.Recent t.disk := by
  intro a vs hvs l hl
  obtain ⟨v, hv, rfl⟩ := Option.map_eq_some_iff.1 hvs
  exact ht.since a l v hl hv

theorem History.disk_of_ne_none {t : History V} {a : Nat} (ha : t.cur a ≠ none) :
    ∃ v, t.cur a = some v ∧ t.disk a = some (v, t.alive a) := by
  obtain ⟨v, hv⟩ := Option.ne_none_iff_exists'.1 ha
  exact ⟨v, hv, by rw [disk, hv]; rfl⟩

/-- A history may allow more values. -/
theorem CacheRep.mono {m D' : RawDisk V} (hr : CacheRep cs m D)
    (hD : ∀ a, D' a = D a ∨ ∃ v l l', D a = some (v, l) ∧ D' a = some (v, l') ∧ vsmerge (v, l) ⊆ vsmerge (v, l')) :
    CacheRep cs m D' := by
  refine ⟨hr.size, fun a => ?_⟩
  rcases hD a with h | ⟨v, l, l', h₁, h₂, hsub⟩
  · rw [h]
    exact hr.block a
  · have hb := hr.block a
    rw [h₁] at hb
    rcases hb.elim with ⟨_, _, hd⟩ | ⟨vs, vs', hp, hd, hsub', hn, he⟩
    · cases hd
    · cases hd
      rw [hp, h₂]
      exact BlockRep.of_some (fun x hx => hsub (hsub' hx)) hn he

theorem RunRep.write {t : History V} {a : Nat} {v : V} (hr : RunRep t cs seen s) (ha : t.cur a ≠ none) :
    wp h (write (K := K) (H := H) a v cs) (fun cs' s' => RunRep (t.step (.write a v)) cs' seen s')
      (CrashAt t.disk seen) s := by
  obtain ⟨w, hw, hd⟩ := History.disk_of_ne_none ha
  refine wp_mono (fun cs' s' ⟨hc, hrec⟩ => ⟨hr.wf.step _, ⟨?_, hc.2⟩, fun b vs hvs l hl => ?_⟩) (fun _ hc => hc) _
    (wp_and (write_spec hr.cache hd) (write_within hr.wf.recent a v hr.cache hr.recent))
  · refine CacheRep.mono hc.1 fun b => ?_
    by_cases hab : b = a
    · subst hab
      refine .inr ⟨v, w :: t.alive b, v :: t.alive b, ?_, ?_, fun x hx => ?_⟩
      · rw [updVs, Function.update_self, hd]
        rfl
      · simp [History.disk, History.step]
      · have halive := hr.wf.alive b w hw
        simp only [vsmerge, List.mem_cons] at hx ⊢
        rcases hx with h | h | h
        · exact .inl h
        · exact .inr (.inr (h ▸ halive))
        · exact .inr (.inr h)
    · refine .inl ?_
      rw [updVs, Function.update_of_ne hab]
      simp [History.disk, History.step, hab]
  · simp only [History.step] at hl
    by_cases hab : b = a
    · subst hab
      rw [Function.update_self] at hl
      obtain ⟨l', hl', rfl⟩ := Option.map_eq_some_iff.1 hl
      exact List.mem_cons_of_mem _ (hrec b vs hvs l' hl')
    · rw [Function.update_of_ne hab] at hl
      exact hrec b vs hvs l hl

/-- A clean block is on the disk as the cache shows it. -/
theorem CacheRep.of_clean {m : RawDisk V} {a : Nat} {vs : ValuSet V} (hr : CacheRep cs m D) (hcl : Clean cs a)
    (hm : m a = some vs) : ∃ l, D a = some (vs.1, l) := by
  rcases (hr.block a).elim with ⟨_, hp, _⟩ | ⟨ps, ds, hp, hd, _, hn, he⟩
  · rw [hm] at hp
    cases hp
  · rw [hm] at hp
    cases hp
    have heq : vs.1 = ds.1 := by
      cases hc : cs.csMap[a]? with
      | none => exact hn hc
      | some e =>
        obtain ⟨v, dirty⟩ := e
        cases dirty with
        | true => exact absurd hc (hcl v)
        | false => rw [(he v false hc).2 rfl, (he v false hc).1]
    exact ⟨ds.2, by rw [hd, heq]⟩

theorem RunRep.sync {t : History V} (a : Nat) (hr : RunRep t cs seen s) :
    wp h (sync (K := K) (H := H) a cs) (fun cs' s' => RunRep (t.step (.sync a)) cs' seen s') (CrashAt t.disk seen) s := by
  refine wp_mono (fun cs' s' ⟨⟨hc, hcl, _⟩, hrec⟩ => ⟨hr.wf.step _, hc, fun b vs hvs l hl => ?_⟩) (fun _ hc => hc) _
    (wp_and (writeback_spec a hr.cache) (writeback_within hr.wf.recent a hr.cache hr.recent))
  simp only [History.step] at hl
  by_cases hab : b = a
  · subst hab
    rw [Function.update_self] at hl
    obtain ⟨l', hD⟩ := CacheRep.of_clean hc.1 hcl hvs
    obtain ⟨v, hv, heq⟩ := Option.map_eq_some_iff.1 hD
    cases heq
    rw [hv] at hl
    cases hl
    exact List.mem_singleton_self _
  · rw [Function.update_of_ne hab] at hl
    exact hrec b vs hvs l hl

theorem RunRep.endSync {t : History V} (hr : RunRep t cs seen s) :
    wp h (endSync (K := K) (H := H) cs) (fun cs' s' => RunRep (t.step .endSync) cs' seen s') (CrashAt t.disk seen) s := by
  refine ⟨hr.cache.crash, fun m hm => ⟨hr.wf.step _, ⟨CacheRep.possibleSync ⟨hr.cache.1.size, fun a => ?_⟩ hm, hr.cache.2⟩,
    hr.recent.syncMem.possibleSync hm⟩⟩
  rcases (hr.cache.1.block a).elim with ⟨he, hp, hd⟩ | ⟨vs, vs', hp, hd, hsub, hn, he⟩
  · have hcur : t.cur a = none := Option.map_eq_none_iff.1 hd
    rw [he, syncMem, hp, History.disk, show (t.step .endSync).cur a = none from hcur]
    trivial
  · obtain ⟨v, hv, rfl⟩ := Option.map_eq_some_iff.1 hd
    have hdisk : (t.step .endSync).disk a = some (v, (t.since a).getD (t.alive a)) := by
      rw [History.disk, show (t.step .endSync).cur a = some v from hv]
      rfl
    rw [syncMem, hp, hdisk]
    refine BlockRep.of_some (fun x hx => ?_) hn he
    -- only the latest value is left, and it is one of the values since the last sync
    obtain rfl : x = vs.1 := by simpa [vsmerge] using hx
    cases hs : t.since a with
    | none => exact hsub List.mem_cons_self
    | some l => exact List.mem_cons_of_mem _ (hr.recent a vs hp l hs)

/-- One operation agrees with the history. -/
theorem runOp_spec {t : History V} {op : Op V} (hop : op.InRange t.disk) (hr : RunRep t cs seen s) :
    wp h (runOp (K := K) (H := H) op cs) (fun r s' => RunRep (t.step op) r.1 seen s' ∧ r.2 = t.out op)
      (CrashAt t.disk seen) s := by
  have hcur : ∀ {a}, t.disk a ≠ none → t.cur a ≠ none := fun ha hn => ha (by rw [History.disk, hn]; rfl)
  cases op with
  | read a =>
    obtain ⟨v, hv, hd⟩ := History.disk_of_ne_none (hcur hop)
    refine wp_seq (wp_and (read_spec hr.cache hd) (read_within hr.wf.recent hr.cache hd hr.recent)) (fun _ hc => hc)
      fun r s' ⟨⟨hc, hval⟩, hrec⟩ => ⟨⟨hr.wf, hc, hrec⟩, ?_⟩
    simp only [History.out, hv]
    rw [hval]
  | write a v => exact wp_seq (hr.write (hcur hop)) (fun _ hc => hc) fun cs' s' hr' => ⟨hr', rfl⟩
  | sync a => exact wp_seq (hr.sync a) (fun _ hc => hc) fun cs' s' hr' => ⟨hr', rfl⟩
  | beginSync => exact ⟨⟨hr.wf.step _, hr.cache, fun a vs _ l hl => nomatch hl⟩, rfl⟩
  | endSync => exact wp_seq hr.endSync (fun _ hc => hc) fun cs' s' hr' => ⟨hr', rfl⟩
  | evict a =>
    exact wp_seq (wp_and (evict_spec' a hr.cache) (evict_within hr.wf.recent a hr.cache hr.recent)) (fun _ hc => hc)
      fun cs' s' ⟨hc, hrec⟩ => ⟨⟨hr.wf, hc, hrec⟩, rfl⟩
  | maybeEvict =>
    exact wp_seq (wp_and (maybeEvict_spec hr.cache) (maybeEvict_within hr.wf.recent hr.cache hr.recent)) (fun _ hc => hc)
      fun cs' s' ⟨⟨hc, _⟩, hrec⟩ => ⟨⟨hr.wf, hc, hrec⟩, rfl⟩

/-! ## Runs -/

theorem History.inRange_step {t : History V} (op op' : Op V) (hop' : op'.InRange t.disk) (hop : op.InRange t.disk) :
    op.InRange (t.step op').disk := by
  have hnone : ∀ a, t.disk a ≠ none → (t.step op').disk a ≠ none := fun a ha hn => by
    have hcur : (t.step op').cur a = none := Option.map_eq_none_iff.1 hn
    refine ha (Option.map_eq_none_iff.2 ?_)
    cases op' with
    | write b v =>
      simp only [History.step] at hcur
      by_cases hab : a = b
      · subst hab
        rw [Function.update_self] at hcur
        cases hcur
      · rwa [Function.update_of_ne hab] at hcur
    | _ => exact hcur
  cases op with
  | read a => exact hnone a hop
  | write a v => exact hnone a hop
  | sync a => exact hnone a hop
  | evict a => exact hnone a hop
  | _ => trivial

theorem runOps_spec : ∀ {ops : List (Op V)} {t : History V} {cs : Cachestate V} {s : St V K},
    (∀ op ∈ ops, op.InRange t.disk) → RunRep t cs seen s →
    wp h (runOps (K := K) (H := H) ops cs) (fun r s' => RunRep (t.run ops) r.1 seen s' ∧ r.2 = t.outs ops)
      (fun _ => True) s
  | [], _, _, _, _, hr => ⟨hr, rfl⟩
  | op :: ops, t, cs, s, hops, hr => by
    have hop := hops op List.mem_cons_self
    refine wp_seq (runOp_spec hop hr) (fun _ _ => trivial) fun ⟨cs₁, out⟩ s₁ ⟨hr₁, hout⟩ => ?_
    have hops' : ∀ op' ∈ ops, op'.InRange (t.step op).disk := fun op' ho =>
      History.inRange_step op' op hop (hops op' (List.mem_cons_of_mem _ ho))
    refine wp_seq (runOps_spec hops' hr₁) (fun _ hc => hc) fun ⟨cs₂, outs⟩ s₂ ⟨hr₂, houts⟩ => ⟨hr₂, ?_⟩
    simp only at hout houts
    rw [History.outs, hout, houts]

theorem History.inRange_run {op : Op V} {ops : List (Op V)} {t : History V} (hops : ∀ op' ∈ ops, op'.InRange t.disk)
    (hop : op.InRange t.disk) : op.InRange (t.run ops).disk := by
  induction ops generalizing t with
  | nil => exact hop
  | cons op' ops ih =>
    have hop' := hops op' List.mem_cons_self
    exact ih (fun o ho => inRange_step o op' hop' (hops o (List.mem_cons_of_mem _ ho))) (inRange_step op op' hop' hop)

/-! ## Crashes -/

/-- The machine crashes in `op`, with the operations `pre` done. -/
def CrashedIn (h : K → H) (s : St V K) (cs : Cachestate V) (pre : List (Op V)) (op : Op V) (s' : St V K) : Prop :=
  ∃ s₁ r, Exec h s (runOps pre cs) (.finished s₁ r) ∧ Exec h s₁ (runOp op r.1) (.crashed s')

theorem CrashedIn.cons {s s₁ s' : St V K} {cs : Cachestate V} {r : Cachestate V × Option V} {pre : List (Op V)} {op op' : Op V}
    (he : Exec h s (runOp op cs) (.finished s₁ r)) (hc : CrashedIn h s₁ r.1 pre op' s') :
    CrashedIn h s cs (op :: pre) op' s' := by
  obtain ⟨s₂, ⟨cs₂, outs⟩, hpre, hop⟩ := hc
  exact ⟨s₂, (cs₂, r.2 :: outs), he.bind rfl (hpre.bind rfl (.ret s₂ _)), hop⟩

/-- A run crashes in one of its operations. -/
theorem crashedIn_of_exec {s' : St V K} : ∀ {ops : List (Op V)} {cs : Cachestate V} {s : St V K},
    Exec h s (runOps ops cs) (.crashed s') → ∃ pre op post, ops = pre ++ op :: post ∧ CrashedIn h s cs pre op s'
  | [], _, _, he => by cases he
  | op :: ops, cs, s, he => by
    rcases he.crashed_of_bind with hop | ⟨s₁, r, hop, hrest⟩
    · exact ⟨[], op, ops, rfl, s, (cs, []), .ret _ _, hop⟩
    · rcases hrest.crashed_of_bind with hops | ⟨_, _, _, hret⟩
      · obtain ⟨pre, op', post, rfl, hc⟩ := crashedIn_of_exec hops
        exact ⟨op :: pre, op', post, rfl, hc.cons hop⟩
      · cases hret

theorem runRep_cache0 {n : Nat} (hn : n ≠ 0) (s : St V K) : RunRep (.ofDisk s.disk) (cache0 n) s.seen s := by
  refine ⟨History.wf_ofDisk _, ⟨⟨⟨rfl, Nat.zero_le _, hn⟩, fun a => ?_⟩, rfl⟩, fun a vs _ l hl => nomatch hl⟩
  have hempty : (cache0 n : Cachestate V).csMap[a]? = none := by simp [cache0]
  rw [hempty]
  simp only [History.disk, History.ofDisk]
  cases s.disk a with
  | none => trivial
  | some vs => exact ⟨rfl, List.subset_cons_self _ _⟩

/-- Operations that keep the value of `a` and do not begin a new sync. -/
def Op.Keeps (a : Nat) : Op V → Prop
  | .write b _ => b ≠ a
  | .beginSync => False
  | _ => True

/-- The block has not been written since it was passed to `sync`. -/
def History.Synced (t : History V) (a : Nat) : Prop := t.since a = (t.cur a).map ([·])

theorem History.Synced.step {t : History V} {a : Nat} (ht : t.Synced a) {op : Op V} (hop : op.Keeps a) :
    (t.step op).Synced a := by
  cases op with
  | write b v =>
    have hne : a ≠ b := Ne.symm hop
    simp only [Synced, History.step]
    rw [Function.update_of_ne hne, Function.update_of_ne hne]
    exact ht
  | sync b =>
    simp only [Synced, History.step]
    by_cases hab : a = b
    · subst hab
      rw [Function.update_self]
    · rw [Function.update_of_ne hab]
      exact ht
  | beginSync => exact hop.elim
  | _ => exact ht

theorem History.Synced.run {t : History V} {a : Nat} (ht : t.Synced a) {ops : List (Op V)}
    (hops : ∀ op ∈ ops, op.Keeps a) : (t.run ops).Synced a := by
  induction ops generalizing t with
  | nil => exact ht
  | cons op ops ih =>
    exact ih (ht.step (hops op List.mem_cons_self)) fun op' ho => hops op' (List.mem_cons_of_mem _ ho)

theorem History.run_append (t : History V) (ops ops' : List (Op V)) : t.run (ops ++ ops') = (t.run ops).run ops' :=
  List.foldl_append

/-- A block that was passed to `sync` and not written again has one value left after `end_sync`. -/
theorem History.alive_endSync (t : History V) {a : Nat} {pre mid : List (Op V)} (hmid : ∀ op ∈ mid, op.Keeps a) {v : V}
    (hv : (t.run (pre ++ .sync a :: (mid ++ [.endSync]))).cur a = some v) :
    (t.run (pre ++ .sync a :: (mid ++ [.endSync]))).alive a = [v] := by
  have hsync : ((t.run pre).step (.sync a)).Synced a := by simp only [Synced, History.step, Function.update_self]
  have hmid' := hsync.run hmid
  rw [run_append, show .sync a :: (mid ++ [.endSync]) = [.sync a] ++ mid ++ [.endSync] from rfl, run_append, run_append] at hv ⊢
  change (((t.run pre).step (.sync a)).run mid).cur a = some v at hv
  rw [Synced, hv] at hmid'
  change ((((t.run pre).step (.sync a)).run mid).since a).getD _ = [v]
  rw [hmid']
  rfl

/-- What a run of the cache leaves: the reads returned the values of the history, the counter is right, a crash now
keeps one of the values that the history allows, and what was synced last is durable. -/
structure RunDone (t : History V) (ops : List (Op V)) (r : Cachestate V × List (Option V)) (s : St V K) : Prop where
  outs : r.2 = t.outs ops
  count : r.1.csCount = r.1.csMap.size
  le : r.1.csCount ≤ r.1.csMaxCount
  survives : ∀ m, PossibleCrash s.disk m → (t.run ops).Survives m
  durable : ∀ pre mid a, ops = pre ++ .sync a :: (mid ++ [.endSync]) → (∀ op ∈ mid, op.Keeps a) →
    ∀ m, PossibleCrash s.disk m → m a = ((t.run ops).cur a).map fun v => (v, [])

theorem History.inRange_ofDisk {m : RawDisk V} {op : Op V} (hop : op.InRange m) : op.InRange (ofDisk m).disk := by
  have hdisk : ∀ a, m a ≠ none → (ofDisk m).disk a ≠ none := fun a ha hn =>
    ha (Option.map_eq_none_iff.1 (Option.map_eq_none_iff.1 hn))
  cases op with
  | read a => exact hdisk a hop
  | write a v => exact hdisk a hop
  | sync a => exact hdisk a hop
  | evict a => exact hdisk a hop
  | _ => trivial

/-- What was synced last has one value. -/
theorem History.Wf.durable {t : History V} {pre mid : List (Op V)} {a : Nat} {m m' : RawDisk V}
    (ht : (t.run (pre ++ .sync a :: (mid ++ [.endSync]))).Wf) (hmid : ∀ op ∈ mid, op.Keeps a)
    (hcov : Covers m (t.run (pre ++ .sync a :: (mid ++ [.endSync]))).disk) (hm : PossibleCrash m m') :
    m' a = ((t.run (pre ++ .sync a :: (mid ++ [.endSync]))).cur a).map fun v => (v, []) := by
  have hcrash := ht.survives hcov hm a
  rcases hcov.possibleCrash hm a with ⟨hd, h⟩ | ⟨vs, v', hd, h, _⟩
  · rw [h, Option.map_eq_none_iff.1 hd]
    rfl
  · obtain ⟨v, hv, rfl⟩ := Option.map_eq_some_iff.1 hd
    have hmem := hcrash v' [] h
    rw [History.alive_endSync _ hmid hv, List.mem_singleton] at hmem
    rw [h, hv, hmem]
    rfl

/-- Every run from an empty cache agrees with its history, and if it crashes in an operation, with the history of the operations
before it. -/
theorem run_correct {n : Nat} (hn : n > 0) (h : K → H) (s : St V K) (ops : List (Op V))
    (hops : ∀ op ∈ ops, op.InRange s.disk) :
    (∀ o, Exec h s (runOps ops (cache0 n)) o → Allowed (RunDone (.ofDisk s.disk) ops)
      (fun s' => ∃ pre op post, ops = pre ++ op :: post ∧ CrashedIn h s (cache0 n) pre op s') o) ∧
    ∀ pre op post s', ops = pre ++ op :: post → CrashedIn h s (cache0 n) pre op s' →
      ∀ m, PossibleCrash s'.disk m → ((History.ofDisk s.disk).run pre).Survives m := by
  have hrep := runRep_cache0 (Nat.ne_of_gt hn) s
  refine ⟨fun o he => ?_, ?_⟩
  · have hdone := wp_exec he (runOps_spec (fun op ho => History.inRange_ofDisk (hops op ho)) hrep)
    cases o with
    | failed => exact hdone
    | collided => trivial
    | crashed s' => exact crashedIn_of_exec he
    | finished s' r =>
      obtain ⟨hr, houts⟩ := hdone
      refine ⟨houts, hr.cache.1.size.count.symm, hr.cache.1.size.le, fun m hm => hr.wf.survives hr.cache.1.covers hm, ?_⟩
      rintro pre mid a rfl hmid m hm
      exact hr.wf.durable hmid hr.cache.1.covers hm
  · rintro pre op post s' rfl ⟨s₁, r, hpre, hop⟩ m hm
    have hin : ∀ op' ∈ pre, op'.InRange (History.ofDisk s.disk).disk := fun op' ho =>
      History.inRange_ofDisk (hops op' (List.mem_append_left _ ho))
    obtain ⟨hr, _⟩ := wp_exec hpre (runOps_spec hin hrep)
    have hrange := History.inRange_run hin (History.inRange_ofDisk (hops op (List.mem_append_right _ List.mem_cons_self)))
    have hc : CrashAt _ _ s' := wp_exec hop (runOp_spec hrange hr)
    exact hr.wf.survives hc.1 hm

def smallDisk : St Nat Unit := ⟨fun a => some (a, []), []⟩

def smallOps : List (Op Nat) := [.write 3 7, .beginSync, .sync 3, .endSync, .write 3 8]

theorem smallOps_exec : ∃ s r, Exec (fun _ : Unit => ()) smallDisk (runOps smallOps (cache0 1)) (.finished s r) ∧
    ∃ s', Exec (fun _ : Unit => ()) s (runOp (.read 5) r.1) (.crashed s') :=
  ⟨_, _, .write _ _ _ _ _ _ _ rfl (.refl _) (.sync _ _ _ _ (.refl _) (.ret _ _)),
    _, .write _ _ _ _ _ _ _ rfl (.refl _) (.readCrash _ _ _)⟩

/-- In a cache of one block, the next value of a synced block is evicted by a read of another one, and the power fails in it. -/
theorem run_correct_small : (∃ s r, Exec (fun _ : Unit => ()) smallDisk (runOps smallOps (cache0 1)) (.finished s r) ∧
      RunDone (.ofDisk smallDisk.disk) smallOps r s) ∧
    ∃ s', CrashedIn (fun _ : Unit => ()) smallDisk (cache0 1) smallOps (.read 5) s' ∧
      ∀ m, PossibleCrash s'.disk m → ((History.ofDisk smallDisk.disk).run smallOps).Survives m := by
  obtain ⟨s, r, he, s', hcrash⟩ := smallOps_exec
  have hops : ∀ op ∈ smallOps ++ [.read 5], op.InRange smallDisk.disk := by simp [smallOps, Op.InRange, smallDisk]
  have hone : 1 > 0 := by decide
  refine ⟨⟨s, r, he, (run_correct hone _ smallDisk smallOps fun op ho => hops op (List.mem_append_left _ ho)).1 _ he⟩, s',
    ⟨s, r, he, hcrash⟩, ?_⟩
  exact (run_correct hone _ smallDisk (smallOps ++ [.read 5]) hops).2 smallOps (.read 5) [] s' rfl ⟨s, r, he, hcrash⟩

end Bufcache

end Fscq
