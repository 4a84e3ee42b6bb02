import Fscq.DiskLog.Extend

/-!
# Atomic append and recovery of the log on disk

`extend_spec` and `recover_spec` over block-level logs, and from them what the log promises its users: whatever a crash
of `extend` or `trunc` leaves, recovery and a read give the old entries or the new ones, however often recovery is
interrupted (`extend_trunc_crash_atomic`).
-/

namespace Fscq

open CrashLogic Bufcache

namespace PaddedLog

variable {h : HashKey → HashVal} {xp : LogXparams} {s : St Valu HashKey} {cs : CacheSt} {D : RawDisk Valu} {L : BLog}

/-! ## Extending -/

theorem packData_map_entValu {new : Contents} (hnew : ∀ e ∈ new, EntryValid e) :
    DataSig.nopadIpack (new.map entValu) = (BLog.ofEntries new).data :=
  (packData_eq _).trans (valsNonzero_eq_map fun e he => (hnew e he).1).symm

/-- The write-backs and the sync at the end of `extend`. -/
theorem extend_sync_spec {N : BLog} {seen : List HashKey} (hr : CacheAt cs D seen s) :
    wp h (do
        let cs ← beginSync cs
        let cs ← AsyncRecArray.syncAligned xp.logDescriptor L.desc.length N.desc.length cs
        let cs ← AsyncRecArray.syncAligned xp.logData L.data.length N.data.length cs
        let cs ← Hdr.sync xp cs
        let cs ← endSync cs
        pure (cs, true))
      (fun r s' => r.2 = true ∧ CacheAt r.1 (syncAddrs D (extendAddrs xp L N)) seen s') (CrashAt D seen) s := by
  show wp h (AsyncRecArray.syncAligned xp.logDescriptor L.desc.length N.desc.length cs >>= _) _ _ s
  refine wp_seq (syncRange_spec hr) (fun _ hc => hc) fun cs₁ s₁ ⟨hr₁, _, hcl₁⟩ => ?_
  refine wp_seq (syncRange_spec hr₁) (fun _ hc => hc) fun cs₂ s₂ ⟨hr₂, hkeep₂, hcl₂⟩ => ?_
  refine wp_seq (writeback_spec xp.logHeader hr₂) (fun _ hc => hc) fun cs₃ s₃ ⟨hr₃, hcl₃, hkeep₃, _⟩ => ?_
  refine wp_seq (endSync_spec hr₃ (E := syncAddrs D (extendAddrs xp L N)) fun a => ?_) (fun _ hc => hc)
    fun cs₄ s₄ hr₄ => ⟨rfl, hr₄⟩
  by_cases ha : a ∈ extendAddrs xp L N
  · refine Or.inr ⟨?_, if_pos ha⟩
    rcases List.mem_cons.1 ha with rfl | ha
    · exact hcl₃
    refine hkeep₃ a ?_
    rcases List.mem_append.1 ha with ha | ha
    · obtain ⟨i, hi, rfl⟩ := List.mem_map.1 ha
      exact hkeep₂ _ (hcl₁ i (List.mem_range.1 hi))
    · obtain ⟨i, hi, rfl⟩ := List.mem_map.1 ha
      exact hcl₂ i (List.mem_range.1 hi)
  · exact Or.inl (if_neg ha)

/-- What `extend` returns: the longer log if it fits, and otherwise nothing changes. -/
def Extended (h : HashKey → HashVal) (xp : LogXparams) (L N : BLog) (D : RawDisk Valu) (r : CacheSt × Bool)
    (s : St Valu HashKey) : Prop :=
  if LoglenValid xp (L.desc.length + N.desc.length) (L.data.length + N.data.length) then
    r.2 = true ∧ ∃ D', LogAt h xp (L.append N) D' r.1 s ∧ AgreeOff xp D D'
  else r.2 = false ∧ LogAt h xp L D r.1 s

theorem extend_spec (hx : XparamsOk xp) (hl : LogAt h xp L D cs s) {new : Contents}
    (hnew : ∀ e ∈ new, EntryValid e) :
    wp h (extend xp new cs) (Extended h xp L (BLog.ofEntries new) D)
      (LogCrash h xp D fun L' => L' = L ∨ L' = L.append (BLog.ofEntries new)) s := by
  obtain ⟨prev, _, hread⟩ := hl.2.read_header hx ⟨hl.1, rfl⟩
  refine wp_seq hread (fun _ hc => hl.2.logCrash (Or.inl rfl) hc) fun ⟨cs₁, H⟩ s₁ ⟨hr₁, hval⟩ => ?_
  cases hval
  show wp h (if LoglenValid xp (L.desc.length + ndescLog new) (L.data.length + ndataLog new) then _ else _) _ _ s₁
  have hnd : ndescLog new = (BLog.ofEntries new).desc.length := (BLog.length_desc_ofEntries new).symm
  have hna : ndataLog new = (BLog.ofEntries new).data.length := (BLog.length_data_ofEntries new).symm
  rw [hnd, hna]
  split
  case isFalse hfull =>
    show Extended h xp L (BLog.ofEntries new) D (cs₁, false) s₁
    rw [Extended, if_neg hfull]
    exact ⟨rfl, hr₁.1, hr₁.2 ▸ hl.2⟩
  case isTrue hfit =>
    have hvalid : ∀ e ∈ new, AddrValid e := fun e he => (hnew e he).2
    have hmatched := BLog.matched_ofEntries hvalid
    generalize hN : BLog.ofEntries new = N at *
    have hdesc : DescSig.nopadIpack (new.map entAddr) = N.desc := congrArg BLog.desc hN
    have hdata : valsNonzero new = N.data := congrArg BLog.data hN
    have hdata' : DataSig.nopadIpack (new.map entValu) = N.data := (packData_map_entValu hnew).trans (congrArg BLog.data hN)
    rw [hdesc, hdata]
    -- the two checksums
    refine wp_seq (hashList_spec N.desc (blockHash h L.desc) hr₁.1) (fun _ hc => hc)
      fun _ s₂ ⟨hv₂, hr₂, hsub₂, hkeys₂, _⟩ => ?_
    subst hv₂
    refine wp_seq (hashList_spec N.data (blockHash h L.data) hr₂) (fun _ hc => hc)
      fun _ s₃ ⟨hv₃, hr₃, hsub₃, hkeys₃, _⟩ => ?_
    subst hv₃
    rw [← blockHash_append, ← blockHash_append]
    have hsub : s.seen ⊆ s₃.seen := fun k hk => hsub₃ (hsub₂ (hr₁.2 ▸ hk))
    have hs : LogSynced h xp L D s₃.seen := hl.2.mono hsub
    have hkeys : Hashed h (L.append N) s₃.seen := ⟨hs.keys.1,
      blockKeys_append_subset hs.keys.2.1 fun k hk => hsub₃ (hkeys₂ hk), blockKeys_append_subset hs.keys.2.2 hkeys₃⟩
    have hcrash : ∀ s', CrashAt (extendDisk h xp L N D) s₃.seen s' →
        LogCrash h xp D (fun L' => L' = L ∨ L' = L.append N) s' := fun s' hc => by
      refine ⟨_, hc.1, agreeOff_extendDisk hfit, fun m hm => ?_⟩
      rw [hc.2]
      rcases extend_crash hx hfit hs hmatched hkeys hm with hR | hR
      · exact ⟨L, Or.inl rfl, hR⟩
      · exact ⟨_, Or.inr rfl, hR⟩
    -- the writes, each covered by the disk after all of them
    refine wp_seq (P := fun cs s' => CacheAt cs (updRange D (xp.logDescriptor + L.desc.length) N.desc) s₃.seen s')
      (B := CrashAt (updRange D (xp.logDescriptor + L.desc.length) N.desc) s₃.seen) ?_
      (fun s' hc => hcrash s' ⟨hc.1.trans ((covers_updRange _ _ _).trans (covers_updVs _ _ _)), hc.2⟩) fun cs₄ s₄ hr₄ => ?_
    · rw [AsyncRecArray.writeAligned, hdesc]
      exact writeRange_spec ⟨hr₃, rfl⟩ (hs.region.desc hfit.1)
    refine wp_seq (P := fun cs s' => CacheAt cs (updRange (updRange D (xp.logDescriptor + L.desc.length) N.desc)
        (xp.logData + L.data.length) N.data) s₃.seen s')
      (B := CrashAt (updRange (updRange D (xp.logDescriptor + L.desc.length) N.desc)
        (xp.logData + L.data.length) N.data) s₃.seen) ?_
      (fun s' hc => hcrash s' ⟨hc.1.trans (covers_updVs _ _ _), hc.2⟩) fun cs₅ s₅ hr₅ => ?_
    · rw [AsyncRecArray.writeAligned, hdata']
      refine writeRange_spec hr₄ (present_iff.2 fun i hi => updRange_ne_none ?_)
      exact present_iff.1 (hs.region.data hfit.2) i hi
    have hhead : updRange (updRange D (xp.logDescriptor + L.desc.length) N.desc) (xp.logData + L.data.length) N.data
        xp.logHeader ≠ none := updRange_ne_none (updRange_ne_none hs.region.header)
    obtain ⟨vs, hvs⟩ := Option.ne_none_iff_exists'.1 hhead
    refine wp_seq (Bufcache.write_spec hr₅ hvs)
      (fun s' hc => hcrash s' ⟨hc.1.trans (covers_updVs _ _ _), hc.2⟩) fun cs₆ s₆ hr₆ => ?_
    refine wp_mono (fun r s' ⟨hr, hr'⟩ => ?_) hcrash _ (extend_sync_spec hr₆)
    rw [Extended, if_pos hfit]
    refine ⟨hr, _, ⟨hr'.1, ?_⟩, agreeOff_extend_synced hfit⟩
    rw [hr'.2]
    exact extend_synced hx hfit hs hmatched hkeys

/-! ## Recovery -/

theorem ipack_of_unpack {wal : List DescSig.Item} {vl : List Valu} (hw : wal = unpackDesc vl) :
    DescSig.ipack wal = vl := by
  rw [hw]; exact DescSig.ipack_flatMap_val2block vl

/-- What recovery reads: the header and the blocks it counts, with matching checksums or not. -/
theorem Recoverable.header (hx : XparamsOk xp) {seen : List HashKey} (hR : Recoverable h xp L D seen) :
    ∃ (H : Hdr) (A B : List Valu), H.GoodSize ∧ D xp.logHeader = some (Hdr.hdr2val (Hdr.mkHeader H), []) ∧
      H.currentLength = (A.length, B.length) ∧ SyncedRange D xp.logDescriptor A ∧ SyncedRange D xp.logData B ∧
      ((H.checksum = (blockHash h A, blockHash h B) ∧ LogSynced h xp L D seen) ∨
        ∃ L' T, RollbackTo h xp L L' T D seen ∧ L.append T = ⟨A, B⟩ ∧
          H.previousLength = (L.desc.length, L.data.length) ∧ H.checksum = (blockHash h L'.desc, blockHash h L'.data)) := by
  cases hR with
  | synced hs =>
    obtain ⟨prev, h₁, h₂, hd⟩ := hs.header
    exact ⟨_, L.desc, L.data, ⟨⟨h₁, h₂⟩, fits_goodSize hx hs.fits⟩, hd, rfl, hs.desc, hs.data, Or.inl ⟨rfl, hs⟩⟩
  | rollback L' T hr =>
    have hlen₁ : L.desc.length ≤ L'.desc.length := by rw [← hr.desc_length]; simp [BLog.append]
    have hlen₂ : L.data.length ≤ L'.data.length := by rw [← hr.data_length]; simp [BLog.append]
    obtain ⟨h₁, h₂⟩ := fits_goodSize hx hr.fits
    refine ⟨_, (L.append T).desc, (L.append T).data, ⟨⟨?_, ?_⟩, h₁, h₂⟩, hr.header, ?_, hr.desc, hr.data,
      Or.inr ⟨L', T, hr, rfl, rfl, rfl⟩⟩
    · exact Nat.lt_of_le_of_lt hlen₁ h₁
    · exact Nat.lt_of_le_of_lt hlen₂ h₂
    · rw [hr.desc_length, hr.data_length]

/-- A torn extension is found out, unless there is a collision. -/
theorem RollbackTo.mismatch {L' T : BLog} {seen : List HashKey} (hr : RollbackTo h xp L L' T D seen)
    (hdesc : ∀ k ∈ blockKeys h (L.append T).desc, HashSafe h seen k)
    (hdata : ∀ k ∈ blockKeys h (L.append T).data, HashSafe h seen k) :
    ¬(blockHash h L'.desc = blockHash h (L.append T).desc ∧ blockHash h L'.data = blockHash h (L.append T).data) := by
  rintro ⟨h₁, h₂⟩
  have hd := blockHash_inj hr.desc_length h₁.symm hr.keys.2.1 hdesc
  have ha := blockHash_inj hr.data_length h₂.symm hr.keys.2.2 hdata
  apply hr.torn
  cases L'
  exact congrArg₂ BLog.mk hd ha

/-- Rolling back: the header counts the blocks of `L` again. -/
theorem RollbackTo.setHeader (hx : XparamsOk xp) {L' T : BLog} {seen seen' : List HashKey}
    (hr : RollbackTo h xp L L' T D seen) (hk : Hashed h L seen') :
    LogSynced h xp L (Hdr.setHeader xp D ⟨(L.desc.length, L.data.length), (L.desc.length, L.data.length),
      (blockHash h L.desc, blockHash h L.data)⟩) seen' := by
  have hfit : LoglenValid xp L.desc.length L.data.length := by
    have h₁ := hr.fits.1
    have h₂ := hr.fits.2
    rw [← hr.desc_length] at h₁
    rw [← hr.data_length] at h₂
    simp only [BLog.append, List.length_append] at h₁ h₂
    exact ⟨by omega, by omega⟩
  exact logSynced_setHeader hx (fits_goodSize hx hfit) hr.region (syncedRange_append.1 hr.desc).1
    (syncedRange_append.1 hr.data).1 hfit hr.matched hk

theorem recover_spec (hx : XparamsOk xp) (hr : CacheRep cs s.disk D) (hR : Recoverable h xp L D s.seen) :
    wp h (recover xp cs) (fun cs' s' => ∃ D', LogAt h xp L D' cs' s' ∧ AgreeOff xp D D') (LogCrash h xp D (· = L)) s := by
  have hcrash : ∀ s', CrashAt D s.seen s' → LogCrash h xp D (· = L) s' := fun s' hc =>
    hR.logCrash (hc.2 ▸ fun _ hk => hk) rfl hc.1
  obtain ⟨⟨⟨pd, pa⟩, cur, sum⟩, A, B, hgood, hd, hlen, hA, hB, hcase⟩ := hR.header hx
  refine wp_seq (Hdr.read_spec ⟨hr, rfl⟩ hgood hd) hcrash fun ⟨cs₁, H₁⟩ s₁ ⟨hr₁, hH⟩ => ?_
  cases hH
  cases hlen
  refine wp_seq (readAll_desc_spec hr₁ hA.holds) hcrash fun ⟨cs₂, wal⟩ s₂ ⟨hr₂, hwal⟩ => ?_
  refine wp_seq (readAll_data_spec hr₂ hB.holds) hcrash fun ⟨cs₃, vl⟩ s₃ ⟨hr₃, hvl⟩ => ?_
  refine wp_seq (defaultHash_spec hr₃.1) (fun _ hc => hc) fun _ s₄ ⟨hv₄, hr₄, hseen₄, _⟩ => ?_
  subst hv₄
  rw [ipack_of_unpack hwal, show vl = B from hvl]
  refine wp_seq (hashList_spec A (h defaultKey) hr₄) (fun _ hc => hc) fun _ s₅ ⟨hv₅, hr₅, hsub₅, hkeys₅, hsafe₅⟩ => ?_
  subst hv₅
  refine wp_seq (hashList_spec B (h defaultKey) hr₅) (fun _ hc => hc) fun _ s₆ ⟨hv₆, hr₆, hsub₆, hkeys₆, hsafe₆⟩ => ?_
  subst hv₆
  have hsub₄ : s.seen ⊆ s₄.seen := by
    rw [hseen₄, hr₃.2]; exact List.subset_cons_self _ _
  have hsub : s.seen ⊆ s₆.seen := fun k hk => hsub₆ (hsub₅ (hsub₄ hk))
  rcases hcase with ⟨hsum, hs⟩ | ⟨L', T, hroll, hLT, hprev, hsum⟩
  · cases hsum
    rw [if_pos ⟨rfl, rfl⟩]
    exact ⟨D, ⟨hr₆, hs.mono hsub⟩, fun _ _ => rfl⟩
  · cases hprev
    cases hsum
    have hmiss := hroll.mismatch (hLT ▸ fun k hk k' hk' => hsafe₅ k hk k' (hsub₄ hk'))
      (hLT ▸ fun k hk k' hk' => hsafe₆ k hk k' (hsub₅ (hsub₄ hk')))
    rw [hLT] at hmiss
    show wp h (if blockHash h L'.desc = blockHash h A ∧ blockHash h L'.data = blockHash h B then _ else _) _ _ s₆
    rw [if_neg hmiss]
    have hdesc := (syncedRange_append.1 hroll.desc).1
    have hdata := (syncedRange_append.1 hroll.data).1
    have hcrash' : ∀ s', CrashAt D s₆.seen s' → LogCrash h xp D (· = L) s' := fun s' hc =>
      hR.logCrash (hc.2 ▸ hsub) rfl hc.1
    refine wp_seq (readAll_desc_spec ⟨hr₆, rfl⟩ hdesc.holds) hcrash' fun ⟨cs₇, wal⟩ s₇ ⟨hr₇, hwal⟩ => ?_
    refine wp_seq (readAll_data_spec hr₇ hdata.holds) hcrash' fun ⟨cs₈, vl⟩ s₈ ⟨hr₈, hvl⟩ => ?_
    rw [ipack_of_unpack hwal, show vl = L.data from hvl]
    refine wp_seq (hashList_spec L.desc (h defaultKey) hr₈.1) (fun _ hc => hc)
      fun _ s₉ ⟨hv₉, hr₉, hsub₉, hkeys₉, _⟩ => ?_
    subst hv₉
    refine wp_seq (hashList_spec L.data (h defaultKey) hr₉) (fun _ hc => hc)
      fun _ s₁₀ ⟨hv₁₀, hr₁₀, hsub₁₀, hkeys₁₀, _⟩ => ?_
    subst hv₁₀
    have hsub' : s.seen ⊆ s₁₀.seen := fun k hk => hsub₁₀ (hsub₉ (hr₈.2 ▸ hsub hk))
    have hdone : LogSynced h xp L _ s₁₀.seen :=
      hroll.setHeader hx ⟨hsub' hroll.keys.1, fun k hk => hsub₁₀ (hkeys₉ hk), hkeys₁₀⟩
    refine wp_mono (fun cs' s' hr' => ⟨_, ⟨hr'.1, hr'.2 ▸ hdone⟩, agreeOff_setHeader _ _ _⟩) (fun s' hc => ?_) _
      (Hdr.write_syncNow_spec ⟨hr₁₀, rfl⟩ hroll.region.header)
    refine ⟨_, hc.1, agreeOff_updVs_header _ _ _, fun m hm => ⟨L, rfl, ?_⟩⟩
    rw [hc.2]
    rcases header_crash hd hm with hm | hm
    · exact (hR.crash hm).mono hsub'
    · exact .synced (hdone.crash hm)

/-! ## Runs with crashes -/

/-- What happens after a crash: a fresh cache, recovery, and a read of the log. -/
def recoverRead (xp : LogXparams) (cachesize : Nat) : FProg (CacheSt × Contents) := do
  let cs ← Bufcache.init cachesize
  let cs ← recover xp cs
  read xp cs

theorem LogCrash.recoverable {Ls : BLog → Prop} (hc : LogCrash h xp D Ls s) :
    ∀ m, PossibleCrash s.disk m → ∃ L, Ls L ∧ Recoverable h xp L m s.seen := fun m hm => by
  obtain ⟨D', hcov, _, hrec⟩ := hc
  exact hrec m (hcov.possibleCrash hm)

theorem LogCrash.recoverable_eq (hc : LogCrash h xp D (· = L) s) (m : RawDisk Valu) (hm : PossibleCrash s.disk m) :
    Recoverable h xp L m s.seen := by
  obtain ⟨_, rfl, hR⟩ := hc.recoverable m hm
  exact hR

theorem recoverRead_recovers (hx : XparamsOk xp) {n : Nat} (hn : n ≠ 0) (L : BLog) :
    Recovers h (recoverRead xp n) (fun r _ => r.2 = L.entries) (fun s => Recoverable h xp L s.disk s.seen) := by
  intro s hR
  refine wp_seq (Bufcache.init_spec hn s) (fun s' hc m hm => ?_) fun cs s₁ hr₁ => ?_
  · rw [hc.2]; exact hR.crash (hc.1.possibleCrash hm)
  have hR₁ : Recoverable h xp L (syncMem s.disk) s₁.seen := hr₁.2 ▸ hR.crash (possibleCrash_syncMem _)
  refine wp_seq (recover_spec hx hr₁.1 hR₁) (fun s' hc => hc.recoverable_eq) fun cs₂ s₂ ⟨D', hl, _⟩ => ?_
  exact wp_mono (fun r s' hr => hr.2) (fun s' hc => hc.recoverable_eq) _ (read_spec hx hl)

/-- Recovery from `s`, interrupted any number of times, ends, and always with the entries `log`. -/
def AlwaysReads (h : HashKey → HashVal) (xp : LogXparams) (cachesize : Nat) (s : St Valu HashKey) (log : Contents) :
    Prop :=
  (∃ o, Exec h s (recoverRead xp cachesize) o ∧ ∀ s', o ≠ .crashed s') ∧
    ∀ o, ExecRecover h (recoverRead xp cachesize) s (recoverRead xp cachesize) o →
      o = .collided ∨ ∃ s' r, o = .finished s' r ∧ (r.elim Prod.snd Prod.snd) = log

theorem Recoverable.alwaysReads (hx : XparamsOk xp) {n : Nat} (hn : n ≠ 0) (hR : Recoverable h xp L s.disk s.seen) :
    AlwaysReads h xp n s L.entries := by
  refine ⟨Exec.total h _ s, fun o ho => ?_⟩
  have hrec := recoverRead_recovers (h := h) hx hn L
  have hall := recover_exec hrec ho (hrec s hR)
  cases o with
  | failed => exact hall.elim
  | collided => exact Or.inl rfl
  | finished s' r => cases r <;> exact Or.inr ⟨s', _, rfl, hall⟩
  | crashed s' => exact hall.elim

/-- A crash of `extend` or of `trunc` leaves a disk that reads as the old log or the new one, whatever happens to
recovery. -/
theorem extend_trunc_crash_atomic (hx : XparamsOk xp) {n : Nat} (hn : n ≠ 0) {old new : Contents}
    (hnew : ∀ e ∈ new, EntryValid e) (hr : CacheRep cs s.disk D) (hs : Synced h xp old D s.seen) :
    (∀ s' m, Exec h s (extend xp new cs) (.crashed s') → PossibleCrash s'.disk m →
      AlwaysReads h xp n ⟨m, s'.seen⟩ (logNonzero old) ∨ AlwaysReads h xp n ⟨m, s'.seen⟩ (logNonzero old ++ new)) ∧
    (∀ s' m, Exec h s (trunc xp cs) (.crashed s') → PossibleCrash s'.disk m →
      AlwaysReads h xp n ⟨m, s'.seen⟩ (logNonzero old) ∨ AlwaysReads h xp n ⟨m, s'.seen⟩ []) ∧
    ¬ Exec h s (extend xp new cs) .failed ∧ ¬ Exec h s (trunc xp cs) .failed := by
  have hold : (BLog.ofEntries old).entries = logNonzero old := BLog.entries_ofEntries hs.1
  have hboth : ((BLog.ofEntries old).append (BLog.ofEntries new)).entries = logNonzero old ++ new := by
    rw [BLog.entries_append hs.2.matched, hold, BLog.entries_ofEntries fun e he => (hnew e he).2,
      logNonzero_eq_self fun e he => (hnew e he).1]
  have hext := extend_spec hx ⟨hr, hs.2⟩ hnew
  have htr := trunc_spec hx ⟨hr, hs.2⟩
  refine ⟨fun s' m he hm => ?_, fun s' m he hm => ?_, fun he => wp_exec he hext, fun he => wp_exec he htr⟩
  · have hc : LogCrash h xp D _ s' := wp_exec he hext
    obtain ⟨L, rfl | rfl, hR⟩ := hc.recoverable m hm
    · exact Or.inl (hold ▸ Recoverable.alwaysReads (s := ⟨m, s'.seen⟩) hx hn hR)
    · exact Or.inr (hboth ▸ Recoverable.alwaysReads (s := ⟨m, s'.seen⟩) hx hn hR)
  · have hc : LogCrash h xp D _ s' := wp_exec he htr
    obtain ⟨L, rfl | rfl, hR⟩ := hc.recoverable m hm
    · exact Or.inl (hold ▸ Recoverable.alwaysReads (s := ⟨m, s'.seen⟩) hx hn hR)
    · exact Or.inr (Recoverable.alwaysReads (s := ⟨m, s'.seen⟩) hx hn hR)

/-- A small disk with an empty log. -/
def smallXp : LogXparams := ⟨600, 0, 1, 1, 2, 512⟩

def smallHash (k : HashKey) : HashVal := k.2.setWidth hashlen

def smallDisk : RawDisk Valu := Hdr.setHeader smallXp (fun _ => some (0, []))
  ⟨(0, 0), (0, 0), (blockHash smallHash [], blockHash smallHash [])⟩

theorem smallXp_ok : XparamsOk smallXp := by
  constructor <;> simp only [smallXp] <;> decide

theorem smallDisk_synced : Synced smallHash smallXp [] smallDisk [defaultKey] := by
  refine ⟨fun _ he => absurd he List.not_mem_nil, ?_⟩
  rw [BLog.ofEntries_nil]
  exact logSynced_setHeader (L := BLog.empty) (D := fun _ => some (0, [])) smallXp_ok (by decide) (fun _ _ => nofun)
    (syncedRange_nil _ _) (syncedRange_nil _ _) ⟨Nat.zero_le _, Nat.zero_le _⟩ BLog.matched_empty
    ⟨List.mem_singleton.2 rfl, nofun, nofun⟩

theorem extend_trunc_crash_atomic_small :
    (∀ s' m, Exec smallHash ⟨smallDisk, [defaultKey]⟩ (extend smallXp [(7, 1)] (cache0 10)) (.crashed s') →
      PossibleCrash s'.disk m →
      AlwaysReads smallHash smallXp 10 ⟨m, s'.seen⟩ [] ∨ AlwaysReads smallHash smallXp 10 ⟨m, s'.seen⟩ [(7, 1)]) ∧
    ¬ Exec smallHash ⟨smallDisk, [defaultKey]⟩ (extend smallXp [(7, 1)] (cache0 10)) .failed := by
  have hnew : ∀ e ∈ ([(7, 1)] : Contents), EntryValid e := fun e he => by
    rw [List.mem_singleton.1 he]
    exact ⟨by decide, by unfold AddrValid; decide⟩
  obtain ⟨hext, _, hnotFailed, _⟩ := extend_trunc_crash_atomic (s := ⟨smallDisk, [defaultKey]⟩) smallXp_ok
    (by decide : 10 ≠ 0) hnew (cacheRep_cache0 (by decide : 10 ≠ 0) smallDisk) smallDisk_synced
  exact ⟨hext, hnotFailed⟩

end PaddedLog

end Fscq
