import Fscq.Log.Replay

/-!
# The memory log

`MRep h xp n d ms s` says that the memory log shows the logical disk `d` of `n` blocks: the data region seen through
the entries that are in the log on disk. `RecTo` says that a crashed disk recovers to a logical disk `r`, and
`MCrash P` that every crash here recovers to a crash of a disk with `P`. Appending to the log (`flush_spec`), writing
it back to the data region (`apply_spec`) and direct writes and syncs (`dwriteVecs_spec`, `dsyncVecs_spec`) are
specified over `d` alone.
-/

namespace Fscq

open CrashLogic Bufcache PaddedLog LogReplay

/-- The data region has `n` blocks and does not touch the log. -/
structure Layout (xp : LogXparams) (n : Nat) : Prop where
  ok : XparamsOk xp
  size : n ≤ 2 ^ 64
  disjoint : ∀ a < n, ¬ InLog xp (xp.dataStart + a)

namespace MLog

/-! ## The data region -/

/-- The data region as a disk of its own. -/
def dataOf (xp : LogXparams) (n : Nat) (D : RawDisk Valu) : RawDisk Valu := fun a =>
  if a < n then D (xp.dataStart + a) else none

section DataRegion

variable {xp : LogXparams} {n a : Nat} {v : Valu} {D D' m : RawDisk Valu} {L : BLog}

theorem dataOf_lt (ha : a < n) : dataOf xp n D a = D (xp.dataStart + a) := if_pos ha

theorem dataOf_congr (hD : ∀ a < n, D' (xp.dataStart + a) = D (xp.dataStart + a)) : dataOf xp n D' = dataOf xp n D := by
  funext a
  by_cases ha : a < n
  · rw [dataOf_lt ha, dataOf_lt ha, hD a ha]
  · rw [dataOf, dataOf, if_neg ha, if_neg ha]

theorem dataOf_agreeOff (hl : Layout xp n) (hD : AgreeOff xp D D') : dataOf xp n D' = dataOf xp n D :=
  dataOf_congr fun a ha => hD _ (hl.disjoint a ha)

theorem dataOf_updVs (ha : a < n) : dataOf xp n (updVs D (xp.dataStart + a) v) = updVs (dataOf xp n D) a v := by
  funext b
  by_cases hb : b = a
  · subst hb
    rw [dataOf_lt ha, updVs, updVs, Function.update_self, Function.update_self, dataOf_lt ha]
  · rw [updVs_of_ne hb, dataOf, dataOf, updVs_of_ne (by omega)]

theorem dataOf_updVecs (xp : LogXparams) : ∀ {avl : List (Nat × Valu)} {D : RawDisk Valu}, (∀ e ∈ avl, e.1 < n) →
    dataOf xp n (updVecs D xp.dataStart avl) = updVecs (dataOf xp n D) 0 avl
  | [], _, _ => rfl
  | e :: avl, D, hlt => by
    show dataOf xp n (updVecs (updVs D (xp.dataStart + e.1) e.2) xp.dataStart avl) =
      updVecs (updVs (dataOf xp n D) (0 + e.1) e.2) 0 avl
    rw [dataOf_updVecs xp fun e' he' => hlt e' (List.mem_cons_of_mem _ he'), dataOf_updVs (hlt e List.mem_cons_self),
      Nat.zero_add]

theorem dataOf_syncAddrs (xp : LogXparams) (n : Nat) (D : RawDisk Valu) (l : List Nat) :
    dataOf xp n (syncAddrs D (l.map (xp.dataStart + ·))) = syncAddrs (dataOf xp n D) l := by
  funext a
  have hmem : xp.dataStart + a ∈ l.map (xp.dataStart + ·) ↔ a ∈ l := by simp
  by_cases ha : a < n
  · rw [dataOf_lt ha, syncAddrs, syncAddrs, dataOf_lt ha]
    simp only [hmem]
  · rw [syncAddrs, dataOf, dataOf, if_neg ha, if_neg ha]
    split <;> rfl

theorem dataOf_syncMem (xp : LogXparams) (n : Nat) (D : RawDisk Valu) : dataOf xp n (syncMem D) = syncMem (dataOf xp n D) := by
  funext a
  rw [dataOf, syncMem, syncMem, dataOf]
  split <;> rfl

theorem dataOf_crash (xp : LogXparams) (n : Nat) (hm : PossibleCrash D m) : PossibleCrash (dataOf xp n D) (dataOf xp n m) := by
  intro a
  by_cases ha : a < n
  · rw [dataOf_lt ha, dataOf_lt ha]; exact hm _
  · rw [dataOf, dataOf, if_neg ha, if_neg ha]; exact Or.inl ⟨rfl, rfl⟩

/-- Writes to the data region do not touch the log. -/
theorem updVecs_inLog (hl : Layout xp n) {avl : List (Nat × Valu)} (hlt : ∀ e ∈ avl, e.1 < n) (b : Nat)
    (hb : InLog xp b) : updVecs D xp.dataStart avl b = D b :=
  updVecs_notMem fun e he heq => hl.disjoint e.1 (hlt e he) (heq ▸ hb)

theorem syncAddrs_inLog (hl : Layout xp n) {l : List Nat} (hlt : ∀ a ∈ l, a < n) (b : Nat) (hb : InLog xp b) :
    syncAddrs D (l.map (xp.dataStart + ·)) b = D b := by
  refine if_neg fun hmem => ?_
  obtain ⟨a, ha, rfl⟩ := List.mem_map.1 hmem
  exact hl.disjoint a (hlt a ha) hb

end DataRegion

/-! ## What the memory log represents -/

section Rep

variable (h : HashKey → HashVal) (xp : LogXparams) (n : Nat)

structure MRepAt (L : BLog) (D d : RawDisk Valu) (ms : Memstate) (s : St Valu HashKey) : Prop where
  log : LogAt h xp L D ms.msCache s
  mem : ms.msInLog = replayMem L.entries vmap0
  ents : EntsIn n L.entries
  data : ∀ a < n, dataOf xp n D a ≠ none
  disk : d = overlay ms.msInLog (dataOf xp n D)

/-- The memory log shows the disk `d`. -/
def MRep (d : RawDisk Valu) (ms : Memstate) (s : St Valu HashKey) : Prop := ∃ L D, MRepAt h xp n L D d ms s

/-- The disk `m`, left by a crash, recovers to the logical disk `r`. -/
def RecTo (r m : RawDisk Valu) (seen : List HashKey) : Prop :=
  ∃ L, Recoverable h xp L m seen ∧ EntsIn n L.entries ∧ (∀ a < n, ∃ v, dataOf xp n m a = some (v, [])) ∧
    r = overlay (replayMem L.entries vmap0) (dataOf xp n m)

/-- Every crash here recovers to a crash of one of the disks `P`. -/
def MCrash (P : RawDisk Valu → Prop) (s : St Valu HashKey) : Prop :=
  ∀ m, PossibleCrash s.disk m → ∃ r d, P d ∧ PossibleCrash d r ∧ RecTo h xp n r m s.seen

end Rep

variable {h : HashKey → HashVal} {xp : LogXparams} {n : Nat} {s : St Valu HashKey} {ms : Memstate}
  {D d : RawDisk Valu} {L : BLog} {P : RawDisk Valu → Prop}

theorem MCrash.mono {P' : RawDisk Valu → Prop} (hc : MCrash h xp n P s) (hP : ∀ d, P d → P' d) : MCrash h xp n P' s :=
  fun m hm => by
    obtain ⟨r, d, hd, hr⟩ := hc m hm
    exact ⟨r, d, hP d hd, hr⟩

/-- A crash of the log, while the data region is that of `D`. -/
theorem mcrash_of_logCrash (hl : Layout xp n) {Ls : BLog → Prop} (hc : LogCrash h xp D Ls s)
    (hdata : ∀ a < n, dataOf xp n D a ≠ none)
    (hLs : ∀ L, Ls L → EntsIn n L.entries ∧ P (overlay (replayMem L.entries vmap0) (dataOf xp n D))) :
    MCrash h xp n P s := by
  intro m hm
  obtain ⟨D', hcov, hoff, hrec⟩ := hc
  have hm' : PossibleCrash D' m := hcov.possibleCrash hm
  obtain ⟨L, hL, hR⟩ := hrec m hm'
  have hcrash : PossibleCrash (dataOf xp n D) (dataOf xp n m) := dataOf_agreeOff hl hoff ▸ dataOf_crash xp n hm'
  refine ⟨_, _, (hLs L hL).2, overlay_crash _ hcrash, L, hR, (hLs L hL).1, fun a ha => ?_, rfl⟩
  rcases hcrash a with ⟨h₁, _⟩ | ⟨_, v, _, h₂, _⟩
  · exact absurd h₁ (hdata a ha)
  · exact ⟨v, h₂⟩

/-- A crash while the data region is written. -/
theorem mcrash_of_crashAt (hl : Layout xp n) {D' : RawDisk Valu} {seen : List HashKey}
    (hs : LogSynced h xp L D seen) (hD : ∀ a, InLog xp a → D' a = D a) (hents : EntsIn n L.entries)
    (hdata : ∀ a < n, dataOf xp n D' a ≠ none) (hP : P (overlay (replayMem L.entries vmap0) (dataOf xp n D')))
    (hc : CrashAt D' seen s) : MCrash h xp n P s :=
  mcrash_of_logCrash hl (show LogCrash h xp D' (· = L) s from (hs.congr hD).logCrash rfl hc) hdata
    fun _ hL => hL ▸ ⟨hents, hP⟩

theorem MRepAt.crashAt (hl : Layout xp n) (hr : MRepAt h xp n L D d ms s) {s' : St Valu HashKey}
    (hc : CrashAt D s.seen s') (hP : P d) : MCrash h xp n P s' :=
  mcrash_of_crashAt hl hr.log.2 (fun _ _ => rfl) hr.ents hr.data (by rw [← hr.mem, ← hr.disk]; exact hP) hc

theorem MRepAt.logCrash (hl : Layout xp n) (hr : MRepAt h xp n L D d ms s) {s' : St Valu HashKey}
    (hc : LogCrash h xp D (· = L) s') (hP : P d) : MCrash h xp n P s' :=
  mcrash_of_logCrash hl hc hr.data fun _ hL => hL ▸ ⟨hr.ents, by rw [← hr.mem, ← hr.disk]; exact hP⟩

theorem MRepAt.present (hr : MRepAt h xp n L D d ms s) {a : Nat} (ha : a < n) : D (xp.dataStart + a) ≠ none := by
  have hne := hr.data a ha
  rwa [dataOf_lt ha] at hne

/-! ## Reading -/

theorem read_spec (hl : Layout xp n) (hr : MRep h xp n d ms s) {a : Nat} (ha : a < n) :
    wp h (read xp a ms) (fun r s' => MRep h xp n d r.1 s' ∧ (∃ old, d a = some (r.2, old)) ∧ r.1.msInLog = ms.msInLog)
      (MCrash h xp n (· = d)) s := by
  obtain ⟨L, D, hr⟩ := hr
  obtain ⟨⟨v, old⟩, hvs⟩ := Option.ne_none_iff_exists'.1 (hr.present ha)
  unfold read
  split
  · rename_i w hw
    refine ⟨⟨L, D, hr⟩, ⟨[], ?_⟩, rfl⟩
    rw [hr.disk, overlay_some hw, dataOf_lt ha, hvs]; rfl
  · rename_i hw
    refine wp_seq (Bufcache.read_spec ⟨hr.log.1, rfl⟩ hvs) (fun s' hc => hr.crashAt hl hc rfl)
      fun r s' ⟨hr', hval⟩ => ⟨⟨L, D, ⟨hr'.1, hr'.2 ▸ hr.log.2⟩, hr.mem, hr.ents, hr.data, hr.disk⟩, ⟨old, ?_⟩, rfl⟩
    show d a = some (r.2, old)
    rw [hr.disk, overlay_none hw, dataOf_lt ha, hvs, hval]

/-! ## Applying the log -/

theorem overlay_updVecs_toList (m : Valumap) (d : RawDisk Valu) : overlay m (updVecs d 0 m.toList) = overlay m d := by
  funext a
  cases hm : m[a]? with
  | none =>
    rw [overlay_none hm, overlay_none hm, updVecs_notMem]
    rintro ⟨b, v⟩ he rfl
    rw [Nat.zero_add, Std.ExtTreeMap.mem_toList_iff_getElem?_eq_some.1 he] at hm
    cases hm
  | some v =>
    rw [overlay_some hm, overlay_some hm]
    cases hd : d a with
    | none => rw [updVecs_none.2 hd]
    | some vs =>
      have hne : updVecs d 0 m.toList a ≠ none := by rw [Ne, updVecs_none, hd]; nofun
      obtain ⟨ws, hw⟩ := Option.ne_none_iff_exists'.1 hne
      rw [hw]; rfl

theorem updVecs_mem_latest {a : Nat} {v : Valu} : ∀ {avl : List (Nat × Valu)} {d : RawDisk Valu}, (avl.map Prod.fst).Nodup →
    (a, v) ∈ avl → d a ≠ none → ∃ old, updVecs d 0 avl a = some (v, old)
  | e :: avl, d, hnd, hmem, hd => by
    rw [List.map_cons, List.nodup_cons] at hnd
    show ∃ old, updVecs (updVs d (0 + e.1) e.2) 0 avl a = some (v, old)
    rw [Nat.zero_add]
    rcases List.mem_cons.1 hmem with rfl | hmem
    · obtain ⟨vs, hvs⟩ := Option.ne_none_iff_exists'.1 hd
      rw [updVecs_notMem fun e' he' heq => hnd.1 (List.mem_map.2 ⟨e', he', by rw [heq, Nat.zero_add]⟩), updVs_some hvs]
      exact ⟨_, rfl⟩
    · exact updVecs_mem_latest hnd.2 hmem (by rwa [Ne, updVs_none])

/-- Writing all entries and syncing them leaves the disk seen through them. -/
theorem syncAddrs_updVecs_toList (m : Valumap) (d : RawDisk Valu) :
    syncAddrs (updVecs d 0 m.toList) (mapKeys m) = overlay m d := by
  funext a
  cases hm : m[a]? with
  | none =>
    have hn : a ∉ mapKeys m := fun hmem => by
      obtain ⟨v, hv⟩ := mem_mapKeys.1 hmem
      rw [hm] at hv; cases hv
    rw [syncAddrs, if_neg hn, ← overlay_updVecs_toList m d, overlay_none hm]
  | some v =>
    rw [syncAddrs, if_pos (mem_mapKeys.2 ⟨v, hm⟩), overlay_some hm]
    cases hd : d a with
    | none => rw [updVecs_none.2 hd]; rfl
    | some vs =>
      obtain ⟨old, ho⟩ := updVecs_mem_latest (d := d) (nodup_keys_toList m)
        (Std.ExtTreeMap.mem_toList_iff_getElem?_eq_some.2 hm) (by rw [hd]; exact Option.some_ne_none vs)
      rw [ho]; rfl

theorem overlay_overlay (m : Valumap) (d : RawDisk Valu) : overlay m (overlay m d) = overlay m d := by
  funext a
  cases hm : m[a]? with
  | none => rw [overlay_none hm]
  | some v => rw [overlay_some hm, overlay_some hm, Option.map_map]; rfl

theorem MRepAt.mapIn (hr : MRepAt h xp n L D d ms s) : MapIn n ms.msInLog := by
  rw [hr.mem]; exact (mapIn_vmap0 n).replayMem hr.ents

theorem apply_spec (hl : Layout xp n) (hr : MRep h xp n d ms s) :
    wp h (apply xp ms) (fun ms' s' => ∃ D', MRepAt h xp n BLog.empty D' d ms' s') (MCrash h xp n (· = d)) s := by
  obtain ⟨L, D, hr⟩ := hr
  have hlt : ∀ e ∈ ms.msInLog.toList, e.1 < n := fun e he => (hr.mapIn.toList e he).2
  have hkeys : ∀ a ∈ mapKeys ms.msInLog, a < n := fun a ha => by
    obtain ⟨v, hv⟩ := mem_mapKeys.1 ha
    exact (hr.mapIn a v hv).2
  have hdisk := hr.disk
  have hmem := hr.mem
  generalize hmm : ms.msInLog = mm at *
  -- the entries written
  have hD₁ := dataOf_updVecs xp (D := D) hlt
  have hdata₁ : ∀ a < n, dataOf xp n (updVecs D xp.dataStart mm.toList) a ≠ none := fun a ha => by
    rw [hD₁, Ne, updVecs_none]; exact hr.data a ha
  have hP₁ : overlay (replayMem L.entries vmap0) (dataOf xp n (updVecs D xp.dataStart mm.toList)) = d := by
    rw [hD₁, ← hmem, overlay_updVecs_toList, hdisk]
  have hs₁ : LogSynced h xp L (updVecs D xp.dataStart mm.toList) s.seen := hr.log.2.congr (updVecs_inLog hl hlt)
  -- and synced: the data region is now `d`
  have hD₂ : dataOf xp n (syncAddrs (updVecs D xp.dataStart mm.toList) ((mapKeys mm).map (xp.dataStart + ·))) = d := by
    rw [dataOf_syncAddrs, hD₁, syncAddrs_updVecs_toList, hdisk]
  have hdata₂ : ∀ a < n, d a ≠ none := fun a ha => by
    rw [hdisk]; exact overlay_ne_none (hr.data a ha)
  unfold apply
  rw [hmm]
  refine wp_seq (writeVecs_spec ⟨hr.log.1, rfl⟩ fun e he => hr.present (hlt e he)) (fun s' hc => ?_)
    fun cs₁ s₁ hr₁ => ?_
  · exact mcrash_of_crashAt hl hr.log.2 (updVecs_inLog hl hlt) hr.ents hdata₁ hP₁ hc
  refine wp_seq (syncVecsNow_spec hr₁) (fun s' hc => ?_) fun cs₂ s₂ hr₂ => ?_
  · exact mcrash_of_crashAt hl hr.log.2 (updVecs_inLog hl hlt) hr.ents hdata₁ hP₁ hc
  have hs₂ := hs₁.congr (syncAddrs_inLog (D := updVecs D xp.dataStart mm.toList) hl hkeys)
  refine wp_seq (trunc_spec hl.ok ⟨hr₂.1, hr₂.2 ▸ hs₂⟩) (fun s' hc => ?_)
    fun cs₃ s₃ ⟨D', hl₃, hoff⟩ => ⟨D', hl₃, rfl, entsIn_nil n, ?_, ?_⟩
  · refine mcrash_of_logCrash hl hc (fun a ha => by rw [hD₂]; exact hdata₂ a ha) fun L' hL' => ?_
    rcases hL' with rfl | rfl
    · exact ⟨hr.ents, by rw [hD₂, ← hmem, hdisk, overlay_overlay]⟩
    · exact ⟨entsIn_nil n, by rw [hD₂, BLog.entries_empty]; exact overlay_vmap0 d⟩
  · rw [dataOf_agreeOff hl hoff, hD₂]; exact hdata₂
  · rw [dataOf_agreeOff hl hoff, hD₂]; exact (overlay_vmap0 d).symm

/-! ## Flushing -/

theorem nonzeroAddrs_le : ∀ l : List Nat, nonzeroAddrs l ≤ l.length
  | [] => Nat.le_refl _
  | 0 :: l => Nat.le_succ_of_le (nonzeroAddrs_le l)
  | (_ + 1) :: l => Nat.succ_le_succ (nonzeroAddrs_le l)

/-- A log with enough room takes the entries. -/
theorem loglenValid_of_avail (hx : XparamsOk xp) (hm : L.Matched) (hfit : L.desc.length ≤ xp.logDescLen)
    {ents : Contents} (hents : EntsIn n ents) (hroom : ents.length ≤ xp.logLen - L.desc.length * DescSig.itemsPerVal) :
    LoglenValid xp (L.desc.length + (BLog.ofEntries ents).desc.length)
      (L.data.length + (BLog.ofEntries ents).data.length) := by
  have hdata : L.data.length ≤ L.desc.length * 512 := by
    have hle := nonzeroAddrs_le (BLog.addrs L.desc)
    have hlen : (BLog.addrs L.desc).length = L.desc.length * 512 := by
      rw [BLog.addrs, List.length_map]; exact DescSig.length_flatMap_val2block L.desc
    rw [BLog.Matched] at hm
    omega
  have hnew : (BLog.ofEntries ents).data.length = ents.length := by
    rw [BLog.length_data_ofEntries, ndataLog_eq_length, logNonzero_eq_self fun e he => (hents e he).1]
  have hlen := hx.len_eq
  have hdesc : (BLog.ofEntries ents).desc.length ≤ xp.logDescLen - L.desc.length := by
    rw [BLog.length_desc_ofEntries, ndescLog, divup_le_iff DescSig.itemsPerVal_pos, Nat.sub_mul]
    show ents.length ≤ xp.logDescLen * 512 - L.desc.length * 512
    simp only at hlen hroom
    omega
  have hmul : L.desc.length * 512 ≤ xp.logDescLen * 512 := Nat.mul_le_mul_right _ hfit
  simp only at hlen hroom
  exact ⟨by omega, by omega⟩

theorem flushNoapply_spec (hl : Layout xp n) (hr : MRepAt h xp n L D d ms s) {ents : Contents} (hents : EntsIn n ents)
    (hroom : ents.length ≤ xp.logLen - L.desc.length * DescSig.itemsPerVal) :
    wp h (flushNoapply xp ents ms) (fun r s' => MRep h xp n (replayDisk ents d) r.1 s' ∧ r.2 = true)
      (MCrash h xp n fun d' => d' = d ∨ d' = replayDisk ents d) s := by
  have hvalid := hents.entryValid hl.size
  have hentries : (L.append (BLog.ofEntries ents)).entries = L.entries ++ ents := by
    rw [BLog.entries_append hr.log.2.matched, BLog.entries_ofEntries fun e he => (hvalid e he).2,
      logNonzero_eq_self fun e he => (hvalid e he).1]
  have hents' : EntsIn n (L.append (BLog.ofEntries ents)).entries := by
    rw [hentries]
    intro e he
    rcases List.mem_append.1 he with he | he
    · exact hr.ents e he
    · exact hents e he
  have hmem' : replayMem (L.append (BLog.ofEntries ents)).entries vmap0 = replayMem ents ms.msInLog := by
    rw [hentries, replayMem_append, ← hr.mem]
  have hdisk' : overlay (replayMem ents ms.msInLog) (dataOf xp n D) = replayDisk ents d := by
    rw [overlay_replayMem, ← hr.disk]
  refine wp_seq (extend_spec hl.ok hr.log hvalid) (fun s' hc => ?_) fun ⟨cs', ok⟩ s' hext => ?_
  · refine mcrash_of_logCrash hl hc hr.data fun L' hL' => ?_
    rcases hL' with rfl | rfl
    · exact ⟨hr.ents, Or.inl (by rw [← hr.mem, ← hr.disk])⟩
    · exact ⟨hents', Or.inr (by rw [hmem', hdisk'])⟩
  · rw [Extended, if_pos (loglenValid_of_avail hl.ok hr.log.2.matched hr.log.2.fits.1 hents hroom)] at hext
    obtain ⟨hok, D', hl', hoff⟩ := hext
    cases hok
    have hdata := dataOf_agreeOff hl hoff
    exact ⟨⟨_, D', hl', hmem'.symm, hents', by rw [hdata]; exact hr.data, by rw [hdata]; exact hdisk'.symm⟩, rfl⟩

theorem flush_spec (hl : Layout xp n) (hr : MRep h xp n d ms s) {ents : Contents} (hents : EntsIn n ents)
    (hlen : ents.length ≤ xp.logLen) :
    wp h (flush xp ents ms) (fun r s' => MRep h xp n (replayDisk ents d) r.1 s' ∧ r.2 = true)
      (MCrash h xp n fun d' => d' = d ∨ d' = replayDisk ents d) s := by
  obtain ⟨L, D, hr⟩ := hr
  unfold flush
  split
  · rename_i hnil
    rw [List.length_eq_zero_iff.1 hnil]
    exact ⟨⟨L, D, hr⟩, rfl⟩
  · refine wp_seq (avail_spec hl.ok hr.log) (fun s' hc => hr.logCrash hl hc (Or.inl rfl))
      fun ⟨cs₁, na⟩ s₁ ⟨hl₁, hna⟩ => ?_
    have hr₁ : MRepAt h xp n L D d ⟨ms.msInLog, cs₁⟩ s₁ := ⟨hl₁, hr.mem, hr.ents, hr.data, hr.disk⟩
    refine wp_seq (P := fun ms' s' => ∃ L D, MRepAt h xp n L D d ms' s' ∧
        ents.length ≤ xp.logLen - L.desc.length * DescSig.itemsPerVal)
      (B := MCrash h xp n (· = d)) ?_ (fun _ hc => hc.mono fun _ he => Or.inl he)
      fun ms' s' ⟨L', D', hr', hroom⟩ => flushNoapply_spec hl hr' hents hroom
    split
    · refine wp_mono (fun ms' s' ⟨D', hr'⟩ => ⟨BLog.empty, D', hr', ?_⟩) (fun _ hc => hc) _
        (apply_spec hl ⟨L, D, hr₁⟩)
      simpa [BLog.empty] using hlen
    · rename_i hroom
      refine ⟨L, D, hr₁, ?_⟩
      simp only at hna hroom
      omega

/-! ## Direct writes and syncs -/

/-- The part before a direct write: the log is applied if it has entries in the way. -/
theorem applyIf_spec (hl : Layout xp n) (hr : MRep h xp n d ms s) {c : Prop} [Decidable c] {l : List Nat}
    (hfree : ¬ c → ∀ a ∈ l, ms.msInLog[a]? = none) :
    wp h (if c then apply xp ms else pure ms)
      (fun ms' s' => MRep h xp n d ms' s' ∧ ∀ a ∈ l, ms'.msInLog[a]? = none) (MCrash h xp n (· = d)) s := by
  split
  · refine wp_mono (fun ms' s' ⟨D', hr'⟩ => ⟨⟨_, D', hr'⟩, fun a _ => ?_⟩) (fun _ hc => hc) _ (apply_spec hl hr)
    rw [hr'.mem]; exact getElem?_vmap0 a
  · exact ⟨hr, hfree (by assumption)⟩

theorem MRepAt.after_updVecs (hl : Layout xp n) (hr : MRepAt h xp n L D d ms s) {avl : List (Nat × Valu)}
    (hlt : ∀ e ∈ avl, e.1 < n) (hfree : ∀ e ∈ avl, ms.msInLog[e.1]? = none) {cs' : CacheSt} {s' : St Valu HashKey}
    (hc : CacheAt cs' (updVecs D xp.dataStart avl) s.seen s') :
    MRep h xp n (updVecs d 0 avl) ⟨ms.msInLog, cs'⟩ s' := by
  have hdata := dataOf_updVecs xp (D := D) hlt
  refine ⟨L, _, ⟨hc.1, hc.2 ▸ hr.log.2.congr (updVecs_inLog hl hlt)⟩, hr.mem, hr.ents, fun a ha => ?_, ?_⟩
  · rw [hdata, Ne, updVecs_none]; exact hr.data a ha
  · rw [hdata, overlay_updVecs hfree, ← hr.disk]

theorem MRepAt.crash_updVecs (hl : Layout xp n) (hr : MRepAt h xp n L D d ms s) {avl : List (Nat × Valu)}
    (hlt : ∀ e ∈ avl, e.1 < n) (hfree : ∀ e ∈ avl, ms.msInLog[e.1]? = none) {s' : St Valu HashKey}
    (hc : CrashAt (updVecs D xp.dataStart avl) s.seen s') : MCrash h xp n (· = updVecs d 0 avl) s' := by
  have hdata := dataOf_updVecs xp (D := D) hlt
  refine mcrash_of_crashAt hl hr.log.2 (updVecs_inLog hl hlt) hr.ents (fun a ha => ?_) ?_ hc
  · rw [hdata, Ne, updVecs_none]; exact hr.data a ha
  · rw [hdata, ← hr.mem, overlay_updVecs hfree, ← hr.disk]

theorem dwriteVecs_spec (hl : Layout xp n) (hr : MRep h xp n d ms s) {avl : List (Nat × Valu)}
    (hlt : ∀ e ∈ avl, e.1 < n) :
    wp h (dwriteVecs xp avl ms) (fun ms' s' => MRep h xp n (updVecs d 0 avl) ms' s')
      (MCrash h xp n fun d' => d' = d ∨ d' = updVecs d 0 avl) s := by
  refine wp_seq (applyIf_spec hl hr not_overlap) (fun _ hc => hc.mono fun _ he => Or.inl he)
    fun ms' s' ⟨⟨L, D, hr'⟩, hfree⟩ => ?_
  have hfree' : ∀ e ∈ avl, ms'.msInLog[e.1]? = none := fun e he => hfree e.1 (List.mem_map.2 ⟨e, he, rfl⟩)
  exact wp_seq (writeVecs_spec ⟨hr'.log.1, rfl⟩ fun e he => hr'.present (hlt e he))
    (fun s'' hc => (hr'.crash_updVecs hl hlt hfree' hc).mono fun _ he => Or.inr he)
    fun cs' s'' hc => hr'.after_updVecs hl hlt hfree' hc

theorem dwrite_spec (hl : Layout xp n) (hr : MRep h xp n d ms s) {a : Nat} (v : Valu) (ha : a < n) :
    wp h (dwrite xp a v ms) (fun ms' s' => MRep h xp n (updVs d a v) ms' s')
      (MCrash h xp n fun d' => d' = d ∨ d' = updVs d a v) s := by
  -- one write is a vector of length one
  have hone : ∀ (d : RawDisk Valu) (b : Nat), updVecs d b [(a, v)] = updVs d (b + a) v := fun _ _ => rfl
  have hlt : ∀ e ∈ [(a, v)], e.1 < n := fun e he => by rw [List.mem_singleton.1 he]; exact ha
  refine wp_seq (applyIf_spec hl hr (l := [a]) fun hc b hb => ?_) (fun _ hc => hc.mono fun _ he => Or.inl he)
    fun ms' s' ⟨⟨L, D, hr'⟩, hfree⟩ => ?_
  · rw [List.mem_singleton.1 hb]; exact getElem?_of_not_contains hc
  have hfree' : ∀ e ∈ [(a, v)], ms'.msInLog[e.1]? = none := fun e he => by
    rw [List.mem_singleton.1 he]; exact hfree a List.mem_cons_self
  obtain ⟨vs, hvs⟩ := Option.ne_none_iff_exists'.1 (hr'.present ha)
  have hupd : updVs d a v = updVecs d 0 [(a, v)] := by rw [hone, Nat.zero_add]
  rw [hupd]
  refine wp_seq (write_spec ⟨hr'.log.1, rfl⟩ hvs) (fun s'' hc => ?_) fun cs' s'' hc => hr'.after_updVecs hl hlt hfree' hc
  exact hr'.crashAt hl hc (Or.inl rfl)

theorem MRepAt.after_syncAddrs (hl : Layout xp n) (hr : MRepAt h xp n L D d ms s) {al : List Nat} (hlt : ∀ a ∈ al, a < n)
    {cs' : CacheSt} {s' : St Valu HashKey}
    (hc : CacheAt cs' (syncAddrs D (al.map (xp.dataStart + ·))) s.seen s') :
    MRep h xp n (syncAddrs d al) ⟨ms.msInLog, cs'⟩ s' := by
  have hdata := dataOf_syncAddrs xp n D al
  refine ⟨L, _, ⟨hc.1, hc.2 ▸ hr.log.2.congr (syncAddrs_inLog hl hlt)⟩, hr.mem, hr.ents, fun a ha => ?_, ?_⟩
  · rw [hdata, Bufcache.syncAddrs]
    split
    · simpa using hr.data a ha
    · exact hr.data a ha
  · rw [hdata, overlay_syncAddrs, ← hr.disk]

theorem dsyncVecs_spec (hl : Layout xp n) (hr : MRep h xp n d ms s) {al : List Nat} (hlt : ∀ a ∈ al, a < n) :
    wp h (dsyncVecs xp al ms) (fun ms' s' => MRep h xp n (syncAddrs d al) ms' s') (MCrash h xp n (· = d)) s := by
  obtain ⟨L, D, hr⟩ := hr
  exact wp_seq (syncVecsNow_spec ⟨hr.log.1, rfl⟩) (fun s' hc => hr.crashAt hl hc rfl)
    fun cs' s' hc => hr.after_syncAddrs hl hlt hc

theorem dsync_spec (hl : Layout xp n) (hr : MRep h xp n d ms s) {a : Nat} (ha : a < n) :
    wp h (dsync xp a ms) (fun ms' s' => MRep h xp n (syncAddrs d [a]) ms' s') (MCrash h xp n (· = d)) s := by
  obtain ⟨L, D, hr⟩ := hr
  have hlt : ∀ b ∈ [a], b < n := fun b hb => by rw [List.mem_singleton.1 hb]; exact ha
  show wp h (Bufcache.syncArray xp.dataStart a ms.msCache >>= _) _ _ s
  refine wp_seq (writeback_spec (xp.dataStart + a) ⟨hr.log.1, rfl⟩) (fun s' hc => hr.crashAt hl hc rfl)
    fun cs₁ s₁ ⟨hr₁, hcl, _⟩ => ?_
  refine wp_seq (endSync_spec (E := Bufcache.syncAddrs D ([a].map (xp.dataStart + ·))) hr₁ fun b => ?_)
    (fun s' hc => hr.crashAt hl hc rfl) fun cs₂ s₂ hc => hr.after_syncAddrs hl hlt hc
  rw [Bufcache.syncAddrs]
  split
  · rename_i hb
    rw [List.mem_singleton.1 hb]
    exact Or.inr ⟨hcl, rfl⟩
  · exact Or.inl rfl

theorem syncCache_spec (hl : Layout xp n) (hr : MRep h xp n d ms s) :
    wp h (syncCache xp ms) (fun ms' s' => MRep h xp n (syncMem d) ms' s') (MCrash h xp n (· = d)) s := by
  obtain ⟨L, D, hr⟩ := hr
  refine wp_seq (syncAll_spec ⟨hr.log.1, rfl⟩) (fun s' hc => hr.crashAt hl hc rfl) fun cs' s' hc => ?_
  have hdata := dataOf_syncMem xp n D
  refine ⟨L, _, ⟨hc.1, hc.2 ▸ hr.log.2.crash (possibleCrash_syncMem D)⟩, hr.mem, hr.ents, fun a ha => ?_, ?_⟩
  · rw [hdata, syncMem]
    simpa using hr.data a ha
  · rw [hdata, overlay_syncMem, ← hr.disk]

/-! ## Recovery -/

/-- A data region without older values does not change in a crash. -/
theorem dataOf_of_crash {m : RawDisk Valu} (hdata : ∀ a < n, ∃ v, dataOf xp n D a = some (v, []))
    (hcr : PossibleCrash (dataOf xp n D) (dataOf xp n m)) : dataOf xp n m = dataOf xp n D := by
  funext a
  by_cases ha : a < n
  · obtain ⟨v, hv⟩ := hdata a ha
    rw [possibleCrash_synced hv hcr, hv]
  · rw [dataOf, dataOf, if_neg ha, if_neg ha]

/-- A further crash recovers to the same disk. -/
theorem RecTo.crash {r m m' : RawDisk Valu} {seen : List HashKey} (hR : RecTo h xp n r m seen) (hm : PossibleCrash m m') :
    RecTo h xp n r m' seen := by
  obtain ⟨L, hrec, hents, hdata, rfl⟩ := hR
  have hplain := dataOf_of_crash hdata (dataOf_crash xp n hm)
  exact ⟨L, hrec.crash hm, hents, by rw [hplain]; exact hdata, by rw [hplain]⟩

theorem RecTo.recover_spec (hl : Layout xp n) {r : RawDisk Valu} {cs : CacheSt} (hc : CacheRep cs s.disk D)
    (hR : RecTo h xp n r D s.seen) :
    wp h (recover xp cs) (fun ms' s' => MRep h xp n r ms' s')
      (fun s' => ∀ m, PossibleCrash s'.disk m → RecTo h xp n r m s'.seen) s := by
  obtain ⟨L, hrec, hents, hdata, rfl⟩ := hR
  have hcrash : ∀ D' s', AgreeOff xp D D' → LogCrash h xp D' (· = L) s' → ∀ m, PossibleCrash s'.disk m →
      RecTo h xp n (overlay (replayMem L.entries vmap0) (dataOf xp n D)) m s'.seen := by
    intro D' s' hoff ⟨D'', hcov, hoff', hrec'⟩ m hm
    have hm' := hcov.possibleCrash hm
    obtain ⟨L', hL', hR'⟩ := hrec' m hm'
    have hplain : dataOf xp n m = dataOf xp n D := by
      refine dataOf_of_crash hdata ?_
      rw [← dataOf_agreeOff hl hoff, ← dataOf_agreeOff hl hoff']
      exact dataOf_crash xp n hm'
    exact ⟨L, hL' ▸ hR', hents, by rw [hplain]; exact hdata, by rw [hplain]⟩
  refine wp_seq (PaddedLog.recover_spec hl.ok hc hrec) (hcrash D · fun _ _ => rfl) fun cs₁ s₁ ⟨D₁, hl₁, hoff₁⟩ => ?_
  refine wp_seq (PaddedLog.read_spec hl.ok hl₁) (hcrash D₁ · hoff₁) fun ⟨cs₂, log⟩ s₂ ⟨hl₂, hlog⟩ => ?_
  have hD₁ := dataOf_agreeOff hl hoff₁
  refine ⟨L, D₁, hl₂, ?_, hents, fun a ha => ?_, ?_⟩
  · exact congrArg (replayMem · vmap0) hlog
  · obtain ⟨v, hv⟩ := hdata a ha
    rw [hD₁, hv]; nofun
  · show _ = overlay (replayMem log vmap0) _
    rw [show log = L.entries from hlog, hD₁]

theorem init_spec (hl : Layout xp n) {cs : CacheSt} (hc : CacheRep cs s.disk D) (hreg : HasLog xp D)
    (hdata : ∀ a < n, dataOf xp n D a ≠ none) :
    wp h (init xp cs) (fun ms' s' => MRep h xp n (dataOf xp n D) ms' s') (fun _ => True) s := by
  refine wp_seq (PaddedLog.init_spec hl.ok hc hreg) (fun _ hc => hc) fun cs' s' ⟨D', hl', hoff⟩ => ?_
  have hD := dataOf_agreeOff hl hoff
  exact ⟨_, D', hl', rfl, entsIn_nil n, by rw [hD]; exact hdata, by rw [hD]; exact (overlay_vmap0 _).symm⟩

end MLog

end Fscq
