import Fscq.Log.MemLog

/-!
# Group commit

A logical disk with committed transactions on top of it: `applyTxns ts d` is the disk `d` after the transactions `ts`,
newest first. `GRep h xp n base txns ms s` says that the memory log shows `base` and the transactions `txns` are still
in memory. A flush moves them into the log, merged or one by one; a crash in the middle keeps the oldest ones, a
suffix of `txns` (`flushall_spec`).
-/

namespace Fscq

open CrashLogic Bufcache PaddedLog LogReplay

namespace GLog

open MLog

/-! ## Transactions on a disk -/

section Txns

variable {n a : Nat} {v : Valu} {d : RawDisk Valu} {ts : List Contents}

/-- The disk after some transactions, newest first. -/
def applyTxns (ts : List Contents) (d : RawDisk Valu) : RawDisk Valu := ts.foldr replayDisk d

/-- The values that some transactions, newest first, leave. -/
def txnMap (ts : List Contents) : Valumap := replayMem ts.reverse.flatten vmap0

theorem applyTxns_cons (t : Contents) (ts : List Contents) (d : RawDisk Valu) :
    applyTxns (t :: ts) d = replayDisk t (applyTxns ts d) := rfl

theorem txnMap_cons (t : Contents) (ts : List Contents) : txnMap (t :: ts) = replayMem t (txnMap ts) := by
  rw [txnMap, List.reverse_cons, List.flatten_append, replayMem_append, List.flatten_singleton]; rfl

theorem overlay_txnMap : ∀ (ts : List Contents) (d : RawDisk Valu), overlay (txnMap ts) d = applyTxns ts d
  | [], d => overlay_vmap0 d
  | t :: ts, d => by rw [txnMap_cons, overlay_replayMem, overlay_txnMap ts, applyTxns_cons]

theorem mapIn_txnMap : ∀ {ts : List Contents}, (∀ t ∈ ts, EntsIn n t) → MapIn n (txnMap ts)
  | [], _ => mapIn_vmap0 n
  | t :: ts, hts => by
    rw [txnMap_cons]
    exact (mapIn_txnMap fun t' ht' => hts t' (List.mem_cons_of_mem _ ht')).replayMem (hts t List.mem_cons_self)

theorem replayMem_none : ∀ {log : Contents} {m : Valumap}, (replayMem log m)[a]? = none →
    (∀ e ∈ log, e.1 ≠ a) ∧ m[a]? = none
  | [], _, hn => ⟨fun _ he => absurd he List.not_mem_nil, hn⟩
  | e :: log, m, hn => by
    obtain ⟨hlog, hm⟩ : (∀ e ∈ log, e.1 ≠ a) ∧ (m.insert e.1 e.2)[a]? = none := replayMem_none hn
    rw [getElem?_insert'] at hm
    split at hm
    · cases hm
    · rename_i hne
      refine ⟨fun e' he' => ?_, hm⟩
      rcases List.mem_cons.1 he' with rfl | he'
      · exact hne
      · exact hlog e' he'

theorem txnMap_none : ∀ {ts : List Contents}, (txnMap ts)[a]? = none → ∀ t ∈ ts, ∀ e ∈ t, e.1 ≠ a
  | t :: ts, hn, t', ht' => by
    rw [txnMap_cons] at hn
    obtain ⟨h₁, h₂⟩ := replayMem_none (m := txnMap ts) hn
    rcases List.mem_cons.1 ht' with rfl | ht'
    · exact h₁
    · exact txnMap_none h₂ t' ht'

theorem applyTxns_updVs : ∀ {ts : List Contents}, (∀ t ∈ ts, ∀ e ∈ t, e.1 ≠ a) →
    applyTxns ts (updVs d a v) = updVs (applyTxns ts d) a v
  | [], _ => rfl
  | t :: ts, hn => by
    rw [applyTxns_cons, applyTxns_updVs fun t' ht' => hn t' (List.mem_cons_of_mem _ ht'),
      replayDisk_updVs (hn t List.mem_cons_self), applyTxns_cons]

theorem applyTxns_syncAddrs (l : List Nat) : ∀ ts : List Contents,
    applyTxns ts (syncAddrs d l) = syncAddrs (applyTxns ts d) l
  | [] => rfl
  | t :: ts => by rw [applyTxns_cons, applyTxns_syncAddrs l ts, replayDisk_syncAddrs, applyTxns_cons]

/-- The disks on the way from `d` to `applyTxns ts d`: the oldest transactions are applied first. -/
def Between (ts : List Contents) (d d' : RawDisk Valu) : Prop := ∃ ts', ts' <:+ ts ∧ d' = applyTxns ts' d

theorem between_base (ts : List Contents) (d : RawDisk Valu) : Between ts d d := ⟨[], List.nil_suffix, rfl⟩

theorem between_newest (ts : List Contents) (d : RawDisk Valu) : Between ts d (applyTxns ts d) :=
  ⟨ts, List.suffix_refl _, rfl⟩

end Txns

/-! ## What group commit represents -/

structure GRep (h : HashKey → HashVal) (xp : LogXparams) (n : Nat) (base : RawDisk Valu) (txns : List Contents)
    (ms : Memstate) (s : St Valu HashKey) : Prop where
  low : MRep h xp n base ms.msLL s
  txns_eq : ms.msTxns = txns
  vmap : ms.msVMap = txnMap txns
  ents : ∀ t ∈ txns, EntsIn n t
  len : ∀ t ∈ txns, t.length ≤ xp.logLen

variable {h : HashKey → HashVal} {xp : LogXparams} {n : Nat} {s : St Valu HashKey} {ms : Memstate}
  {base : RawDisk Valu} {txns : List Contents}

theorem read_spec (hl : Layout xp n) (hr : GRep h xp n base txns ms s) {a : Nat} (ha : a < n) :
    wp h (read xp a ms) (fun r s' => GRep h xp n base txns r.1 s' ∧ ∃ old, applyTxns txns base a = some (r.2, old))
      (MCrash h xp n (· = base)) s := by
  unfold read
  split
  · rename_i v hv
    refine ⟨hr, [], ?_⟩
    obtain ⟨L, D, hlow⟩ := hr.low
    obtain ⟨vs, hvs⟩ := Option.ne_none_iff_exists'.1 (overlay_ne_none (m := ms.msLL.msInLog) (hlow.data a ha))
    rw [← overlay_txnMap, ← hr.vmap, overlay_some hv, hlow.disk, hvs]; rfl
  · rename_i hv
    refine wp_seq (MLog.read_spec hl hr.low ha) (fun _ hc => hc)
      fun r s' ⟨hr', ⟨old, ho⟩, _⟩ => ⟨⟨hr', hr.txns_eq, hr.vmap, hr.ents, hr.len⟩, old, ?_⟩
    rw [← overlay_txnMap, ← hr.vmap, overlay_none hv]; exact ho

theorem submit_spec {C : St Valu HashKey → Prop} (hr : GRep h xp n base txns ms s) {ents : Contents}
    (hents : EntsIn n ents) :
    wp h (submit xp ents ms) (fun r s' => s' = s ∧ if ents.length ≤ xp.logLen then
      r.2 = true ∧ GRep h xp n base (ents :: txns) r.1 s' else r.2 = false ∧ GRep h xp n base txns r.1 s') C s := by
  unfold submit
  split
  · rename_i hlen
    refine ⟨rfl, rfl, hr.low, congrArg (ents :: ·) hr.txns_eq, ?_, fun t ht => ?_, fun t ht => ?_⟩
    · show replayMem ents ms.msVMap = _
      rw [txnMap_cons, hr.vmap]
    · rcases List.mem_cons.1 ht with rfl | ht
      · exact hents
      · exact hr.ents t ht
    · rcases List.mem_cons.1 ht with rfl | ht
      · exact hlen
      · exact hr.len t ht
  · exact ⟨rfl, rfl, hr⟩

theorem grep_flushed {mm : MLog.Memstate} {d : RawDisk Valu} (hr : MRep h xp n d mm s) :
    GRep h xp n d [] ⟨vmap0, [], mm⟩ s :=
  ⟨hr, rfl, rfl, fun _ ht => absurd ht List.not_mem_nil, fun _ ht => absurd ht List.not_mem_nil⟩

theorem flushallNomerge_spec (hl : Layout xp n) (hr : GRep h xp n base txns ms s) :
    wp h (flushallNomerge xp ms) (fun ms' s' => GRep h xp n (applyTxns txns base) [] ms' s')
      (MCrash h xp n (Between txns base)) s := by
  -- after `i` rounds the `i` oldest transactions are in the log
  have hloop := wp_forN (h := h) (s := s) (l := ms.msLL) (C := MCrash h xp n (Between txns base))
    (f := fun i mm => do
      let r ← MLog.flush xp (txns.getD (txns.length - i - 1) []) mm
      pure r.1)
    (I := fun i mm s' => MRep h xp n (applyTxns (txns.drop (txns.length - i)) base) mm s') txns.length 0
    (fun i mm s' _ hi hI => by
      have hlt : txns.length - i - 1 < txns.length := by omega
      have hget : txns.getD (txns.length - i - 1) [] = txns[txns.length - i - 1] := by
        simp [List.getD_eq_getElem?_getD, hlt]
      have hstep : applyTxns (txns.drop (txns.length - (i + 1))) base =
          replayDisk txns[txns.length - i - 1] (applyTxns (txns.drop (txns.length - i)) base) := by
        rw [Nat.sub_add_eq, List.drop_eq_getElem_cons hlt, applyTxns_cons,
          show txns.length - i - 1 + 1 = txns.length - i by omega]
      rw [hget]
      refine wp_seq (MLog.flush_spec hl hI (hr.ents _ (List.getElem_mem hlt)) (hr.len _ (List.getElem_mem hlt)))
        (fun _ hc => hc.mono fun d' hd' => ?_) fun r s'' hr'' => ?_
      · rcases hd' with rfl | rfl
        · exact ⟨_, List.drop_suffix _ _, rfl⟩
        · exact ⟨_, List.drop_suffix _ _, hstep.symm⟩
      · show MRep h xp n _ r.1 s''
        rw [hstep]; exact hr''.1)
    (by rw [Nat.sub_zero, List.drop_length]; exact hr.low)
  unfold flushallNomerge
  simp only [hr.txns_eq]
  refine wp_seq hloop (fun _ hc => hc) fun mm s' hI => ?_
  rw [Nat.zero_add, Nat.sub_self, List.drop_zero] at hI
  exact grep_flushed hI

/-- The branch of `flushall` that writes the merged updates at once. -/
def flushMerged (xp : LogXparams) (ms : Memstate) : FProg Memstate := do
  let (mm, _) ← MLog.flush xp ms.msVMap.toList ms.msLL
  pure ⟨vmap0, [], mm⟩

theorem flushall_eq (xp : LogXparams) (ms : Memstate) :
    flushall xp ms = if ms.msVMap.size ≤ xp.logLen then flushMerged xp ms else flushallNomerge xp ms := rfl

theorem flushMerged_spec (hl : Layout xp n) (hr : GRep h xp n base txns ms s) (hsize : ms.msVMap.size ≤ xp.logLen) :
    wp h (flushMerged xp ms) (fun ms' s' => GRep h xp n (applyTxns txns base) [] ms' s')
      (MCrash h xp n fun d => d = base ∨ d = applyTxns txns base) s := by
  have hmerge : replayDisk ms.msVMap.toList base = applyTxns txns base := by
    rw [replayDisk_toList, hr.vmap, overlay_txnMap]
  have hents : EntsIn n ms.msVMap.toList := by
    rw [hr.vmap]; exact (mapIn_txnMap hr.ents).toList
  rw [← hmerge]
  exact wp_seq (MLog.flush_spec hl hr.low hents (by rw [Std.ExtTreeMap.length_toList]; exact hsize))
    (fun _ hc => hc) fun r s' hr' => grep_flushed hr'.1

theorem flushall_spec (hl : Layout xp n) (hr : GRep h xp n base txns ms s) :
    wp h (flushall xp ms) (fun ms' s' => GRep h xp n (applyTxns txns base) [] ms' s')
      (MCrash h xp n (Between txns base)) s := by
  rw [flushall_eq]
  split
  · rename_i hsize
    refine wp_mono (fun _ _ hr' => hr') (fun _ hc => hc.mono fun d hd => ?_) _ (flushMerged_spec hl hr hsize)
    rcases hd with rfl | rfl
    · exact between_base _ _
    · exact between_newest _ _
  · exact flushallNomerge_spec hl hr

theorem flushsync_spec (hl : Layout xp n) (hr : GRep h xp n base txns ms s) :
    wp h (flushsync xp ms) (fun ms' s' => GRep h xp n (applyTxns txns base) [] ms' s')
      (MCrash h xp n (Between txns base)) s := by
  refine wp_seq (flushall_spec hl hr) (fun _ hc => hc) fun ms₁ s₁ hr₁ => ?_
  refine wp_seq (MLog.apply_spec hl hr₁.low) (fun _ hc => hc.mono fun d' hd' => ?_) fun mm s₂ ⟨D', hr₂⟩ =>
    ⟨⟨_, D', hr₂⟩, hr₁.txns_eq, hr₁.vmap, hr₁.ents, hr₁.len⟩
  rw [hd']; exact between_newest _ _

/-! ## Direct writes and syncs -/

/-- What is flushed before a direct write to `al`: everything, if some transaction has an entry in the way. -/
def flushFor (al : List Nat) (txns : List Contents) (base : RawDisk Valu) : RawDisk Valu × List Contents :=
  if overlap al (txnMap txns) = true then (applyTxns txns base, []) else (base, txns)

theorem flushFor_free {al : List Nat} {a : Nat} (ha : a ∈ al) :
    ∀ t ∈ (flushFor al txns base).2, ∀ e ∈ t, e.1 ≠ a := by
  unfold flushFor
  split
  · exact fun t ht => absurd ht List.not_mem_nil
  · rename_i ho
    exact txnMap_none (not_overlap ho a ha)

theorem overlap_singleton (a : Nat) (m : Valumap) : overlap [a] m = m.contains a := by simp [overlap]

/-- Direct writes leave the transactions alone. -/
theorem GRep.setLow (hr : GRep h xp n base txns ms s) {d : RawDisk Valu} {mm : MLog.Memstate} {s' : St Valu HashKey}
    (hm : MRep h xp n d mm s') : GRep h xp n d txns ⟨ms.msVMap, ms.msTxns, mm⟩ s' :=
  ⟨hm, hr.txns_eq, hr.vmap, hr.ents, hr.len⟩

theorem dwrite_spec (hl : Layout xp n) (hr : GRep h xp n base txns ms s) {a : Nat} (v : Valu) (ha : a < n) :
    wp h (dwrite xp a v ms)
      (fun ms' s' => GRep h xp n (updVs (flushFor [a] txns base).1 a v) (flushFor [a] txns base).2 ms' s')
      (MCrash h xp n fun d => Between txns base d ∨ d = updVs (flushFor [a] txns base).1 a v) s := by
  unfold dwrite flushFor
  rw [overlap_singleton, ← hr.vmap]
  split
  · refine wp_seq (flushall_spec hl hr) (fun _ hc => hc.mono fun _ hd => Or.inl hd) fun ms₁ s₁ hr₁ => ?_
    refine wp_seq (MLog.dwrite_spec hl hr₁.low v ha) (fun _ hc => hc.mono fun d hd => ?_)
      fun mm s₂ hr₂ => hr₁.setLow hr₂
    rcases hd with rfl | rfl
    · exact Or.inl (between_newest _ _)
    · exact Or.inr rfl
  · refine wp_seq (MLog.dwrite_spec hl hr.low v ha) (fun _ hc => hc.mono fun d hd => ?_)
      fun mm s₂ hr₂ => hr.setLow hr₂
    rcases hd with rfl | rfl
    · exact Or.inl (between_base _ _)
    · exact Or.inr rfl

theorem dwriteVecs_spec (hl : Layout xp n) (hr : GRep h xp n base txns ms s) {avl : List (Nat × Valu)}
    (hlt : ∀ e ∈ avl, e.1 < n) :
    wp h (dwriteVecs xp avl ms)
      (fun ms' s' => GRep h xp n (updVecs (flushFor (avl.map Prod.fst) txns base).1 0 avl)
        (flushFor (avl.map Prod.fst) txns base).2 ms' s')
      (MCrash h xp n fun d => Between txns base d ∨ d = updVecs (flushFor (avl.map Prod.fst) txns base).1 0 avl) s := by
  unfold dwriteVecs flushFor
  rw [← hr.vmap]
  split
  · refine wp_seq (flushall_spec hl hr) (fun _ hc => hc.mono fun _ hd => Or.inl hd) fun ms₁ s₁ hr₁ => ?_
    refine wp_seq (MLog.dwriteVecs_spec hl hr₁.low hlt) (fun _ hc => hc.mono fun d hd => ?_)
      fun mm s₂ hr₂ => hr₁.setLow hr₂
    rcases hd with rfl | rfl
    · exact Or.inl (between_newest _ _)
    · exact Or.inr rfl
  · refine wp_seq (MLog.dwriteVecs_spec hl hr.low hlt) (fun _ hc => hc.mono fun d hd => ?_)
      fun mm s₂ hr₂ => hr.setLow hr₂
    rcases hd with rfl | rfl
    · exact Or.inl (between_base _ _)
    · exact Or.inr rfl

theorem dsync_spec (hl : Layout xp n) (hr : GRep h xp n base txns ms s) {a : Nat} (ha : a < n) :
    wp h (dsync xp a ms) (fun ms' s' => GRep h xp n (syncAddrs base [a]) txns ms' s') (MCrash h xp n (· = base)) s :=
  wp_seq (MLog.dsync_spec hl hr.low ha) (fun _ hc => hc) fun _ _ hr' => hr.setLow hr'

theorem syncCache_spec (hl : Layout xp n) (hr : GRep h xp n base txns ms s) :
    wp h (syncCache xp ms) (fun ms' s' => GRep h xp n (syncMem base) txns ms' s') (MCrash h xp n (· = base)) s :=
  wp_seq (MLog.syncCache_spec hl hr.low) (fun _ hc => hc) fun _ _ hr' => hr.setLow hr'

theorem dsyncVecs_spec (hl : Layout xp n) (hr : GRep h xp n base txns ms s) {al : List Nat} (hlt : ∀ a ∈ al, a < n) :
    wp h (dsyncVecs xp al ms) (fun ms' s' => GRep h xp n (syncAddrs base al) txns ms' s')
      (MCrash h xp n (· = base)) s :=
  wp_seq (MLog.dsyncVecs_spec hl hr.low hlt) (fun _ hc => hc) fun _ _ hr' => hr.setLow hr'

/-! ## Recovery -/

theorem recover_spec (hl : Layout xp n) {r D : RawDisk Valu} {cs : CacheSt} (hc : CacheRep cs s.disk D)
    (hR : RecTo h xp n r D s.seen) :
    wp h (recover xp cs) (fun ms' s' => GRep h xp n r [] ms' s')
      (fun s' => ∀ m, PossibleCrash s'.disk m → RecTo h xp n r m s'.seen) s :=
  wp_seq (hR.recover_spec hl hc) (fun _ hc => hc) fun _ _ hr => grep_flushed hr

theorem init_spec (hl : Layout xp n) {D : RawDisk Valu} {cs : CacheSt} (hc : CacheRep cs s.disk D)
    (hreg : HasLog xp D) (hdata : ∀ a < n, dataOf xp n D a ≠ none) :
    wp h (init xp cs) (fun ms' s' => GRep h xp n (dataOf xp n D) [] ms' s') (fun _ => True) s :=
  wp_seq (MLog.init_spec hl hc hreg hdata) (fun _ hc => hc) fun _ _ hr => grep_flushed hr

end GLog

end Fscq
