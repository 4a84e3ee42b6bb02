import Fscq.DiskLog.Spec

/-!
# Appending to the log, and recovery

`extend` writes descriptors, data and header before its single sync, so a crash keeps any of these writes. The header
decides: the old one still counts the old blocks; the new one counts blocks whose contents are what was written, and
the log is the new one, or not, and recovery finds that the checksums do not match (`extend_crash`). Recovery itself
only rewrites the header, so it may be interrupted (`recover_spec`).
-/

namespace Fscq

open CrashLogic Bufcache

namespace PaddedLog

variable {h : HashKey → HashVal} {xp : LogXparams} {s : St Valu HashKey} {cs : CacheSt} {D m : RawDisk Valu}
  {seen : List HashKey} {L N : BLog}

/-! ## The disk while a log is extended -/

section Disks

variable (h xp)

def extendHdr (L N : BLog) : Hdr :=
  ⟨(L.desc.length, L.data.length), (L.desc.length + N.desc.length, L.data.length + N.data.length),
    (blockHash h (L.desc ++ N.desc), blockHash h (L.data ++ N.data))⟩

/-- All blocks of the extension written, nothing synced. -/
def extendDisk (L N : BLog) (D : RawDisk Valu) : RawDisk Valu :=
  updVs (updRange (updRange D (xp.logDescriptor + L.desc.length) N.desc) (xp.logData + L.data.length) N.data)
    xp.logHeader (Hdr.hdr2val (Hdr.mkHeader (extendHdr h L N)))

/-- The addresses that `extend` syncs. -/
def extendAddrs (L N : BLog) : List Nat :=
  xp.logHeader :: ((List.range N.desc.length).map (xp.logDescriptor + L.desc.length + ·) ++
    (List.range N.data.length).map (xp.logData + L.data.length + ·))

end Disks

variable (hx : XparamsOk xp) (hfit : LoglenValid xp (L.desc.length + N.desc.length) (L.data.length + N.data.length))

include hx hfit

theorem extendDisk_header {v : Valu} (hd : D xp.logHeader = some (v, [])) :
    extendDisk h xp L N D xp.logHeader = some (Hdr.hdr2val (Hdr.mkHeader (extendHdr h L N)), [v]) := by
  have h₁ := hx.header_desc
  have h₂ := hx.header_data
  have h₃ := hfit.1
  have h₄ := hfit.2
  have hold : updRange (updRange D (xp.logDescriptor + L.desc.length) N.desc) (xp.logData + L.data.length) N.data
      xp.logHeader = some (v, []) := by
    rw [updRange_of_notMem (by omega), updRange_of_notMem (by omega), hd]
  rw [extendDisk, updVs_some hold]; rfl

theorem extendDisk_oldDesc {i : Nat} (hi : i < L.desc.length) :
    extendDisk h xp L N D (xp.logDescriptor + i) = D (xp.logDescriptor + i) := by
  have h₁ := hx.header_desc
  have h₂ := hx.desc_data
  have h₃ := hfit.1
  have h₄ := hfit.2
  rw [extendDisk, updVs_of_ne (by omega), updRange_of_notMem (by omega), updRange_of_notMem (by omega)]

theorem extendDisk_oldData {i : Nat} (hi : i < L.data.length) :
    extendDisk h xp L N D (xp.logData + i) = D (xp.logData + i) := by
  have h₁ := hx.header_data
  have h₂ := hx.desc_data
  have h₃ := hfit.1
  have h₄ := hfit.2
  rw [extendDisk, updVs_of_ne (by omega), updRange_of_notMem (by omega), updRange_of_notMem (by omega)]

theorem extendDisk_newDesc (hreg : HasLog xp D) {i : Nat} (hi : i < N.desc.length) :
    ∃ old, extendDisk h xp L N D (xp.logDescriptor + L.desc.length + i) = some (N.desc[i], old) := by
  have h₁ := hx.header_desc
  have h₂ := hx.desc_data
  have h₃ := hfit.1
  have h₄ := hfit.2
  rw [extendDisk, updVs_of_ne (by omega), updRange_of_notMem (by omega)]
  exact updRange_getElem hi (hreg _ (Or.inr (Or.inl ⟨by omega, by omega⟩)))

theorem extendDisk_newData (hreg : HasLog xp D) {i : Nat} (hi : i < N.data.length) :
    ∃ old, extendDisk h xp L N D (xp.logData + L.data.length + i) = some (N.data[i], old) := by
  have h₁ := hx.header_data
  have h₄ := hfit.2
  rw [extendDisk, updVs_of_ne (by omega)]
  exact updRange_getElem hi (updRange_ne_none (hreg _ (Or.inr (Or.inr ⟨by omega, by omega⟩))))

omit hx in
theorem agreeOff_extendDisk : AgreeOff xp D (extendDisk h xp L N D) := fun a ha => by
  have h₃ := hfit.1
  have h₄ := hfit.2
  have hn : ¬(xp.logDescriptor ≤ a ∧ a < xp.logDescriptor + xp.logDescLen) := fun hc => ha (Or.inr (Or.inl hc))
  have hn' : ¬(xp.logData ≤ a ∧ a < xp.logData + xp.logLen) := fun hc => ha (Or.inr (Or.inr hc))
  rw [extendDisk, updVs_of_ne fun e => ha (Or.inl e), updRange_of_notMem (by omega), updRange_of_notMem (by omega)]

omit hx hfit in
theorem hasLog_extendDisk (hreg : HasLog xp D) : HasLog xp (extendDisk h xp L N D) := fun a ha => by
  rw [extendDisk, Ne, updVs_none]
  exact updRange_ne_none (updRange_ne_none (hreg a ha))

theorem extend_oldDesc_synced (hs : LogSynced h xp L D seen) (hm : PossibleCrash (extendDisk h xp L N D) m) :
    SyncedRange m xp.logDescriptor L.desc :=
  (hs.desc.congr fun _ hi => extendDisk_oldDesc hx hfit hi).crash hm

theorem extend_oldData_synced (hs : LogSynced h xp L D seen) (hm : PossibleCrash (extendDisk h xp L N D) m) :
    SyncedRange m xp.logData L.data :=
  (hs.data.congr fun _ hi => extendDisk_oldData hx hfit hi).crash hm

/-- A crash of `extend` leaves the old log, the new log, or one that rolls back to the old log. -/
theorem extend_crash (hs : LogSynced h xp L D seen) (hN : N.Matched) (hk : Hashed h (L.append N) seen)
    (hm : PossibleCrash (extendDisk h xp L N D) m) :
    Recoverable h xp L m seen ∨ Recoverable h xp (L.append N) m seen := by
  have hreg := (hasLog_extendDisk (h := h) (L := L) (N := N) hs.region).crash hm
  have hdesc := extend_oldDesc_synced hx hfit hs hm
  have hdata := extend_oldData_synced hx hfit hs hm
  obtain ⟨prev, hp₁, hp₂, hd⟩ := hs.header
  have hhead := hm xp.logHeader
  rw [extendDisk_header hx hfit hd] at hhead
  rcases hhead with ⟨h₁, _⟩ | ⟨vs, v', h₁, h₂, hv⟩
  · cases h₁
  cases h₁
  rcases List.mem_cons.1 hv with rfl | hv
  · -- the new header survived; what survived behind it is `T`
    obtain ⟨Td, hTd, hTdesc⟩ := present_crash ((hasLog_extendDisk (h := h) (L := L) (N := N) hs.region).desc hfit.1) hm
    obtain ⟨Ta, hTa, hTdata⟩ := present_crash ((hasLog_extendDisk (h := h) (L := L) (N := N) hs.region).data hfit.2) hm
    have hdesc' : SyncedRange m xp.logDescriptor (L.desc ++ Td) := syncedRange_append.2 ⟨hdesc, hTdesc⟩
    have hdata' : SyncedRange m xp.logData (L.data ++ Ta) := syncedRange_append.2 ⟨hdata, hTdata⟩
    have hfit' : LoglenValid xp (L.append N).desc.length (L.append N).data.length := by
      simp only [BLog.append, List.length_append]; exact hfit
    have hhd : m xp.logHeader = some (Hdr.hdr2val (Hdr.mkHeader ⟨(L.desc.length, L.data.length),
        ((L.append N).desc.length, (L.append N).data.length),
        (blockHash h (L.append N).desc, blockHash h (L.append N).data)⟩), []) := by
      rw [h₂]; simp only [BLog.append, List.length_append]; rfl
    by_cases hT : (⟨Td, Ta⟩ : BLog) = N
    · subst hT
      obtain ⟨hg₁, hg₂⟩ := fits_goodSize hx hs.fits
      exact Or.inr (.synced ⟨hreg, ⟨_, hg₁, hg₂, hhd⟩, hdesc', hdata', hfit', hs.matched.append hN, hk⟩)
    · refine Or.inl (.rollback (L.append N) ⟨Td, Ta⟩ ⟨hreg, hhd, hdesc', hdata', ?_, ?_, ?_, hfit', hs.matched, hk⟩)
      · simp only [BLog.append, List.length_append, hTd]
      · simp only [BLog.append, List.length_append, hTa]
      · exact fun he => hT (BLog.append_cancel_left he)
  · refine Or.inl (.synced ⟨hreg, ⟨prev, hp₁, hp₂, ?_⟩, hdesc, hdata, hs.fits, hs.matched, hs.keys.mono fun _ hk => hk⟩)
    rw [h₂, List.mem_singleton.1 hv]

/-- After the sync the log is the new one. -/
theorem extend_synced (hs : LogSynced h xp L D seen) (hN : N.Matched) (hk : Hashed h (L.append N) seen) :
    LogSynced h xp (L.append N) (syncAddrs (extendDisk h xp L N D) (extendAddrs xp L N)) seen := by
  obtain ⟨_, _, _, hd⟩ := hs.header
  obtain ⟨hg₁, hg₂⟩ := fits_goodSize hx hs.fits
  have hsync : ∀ {a v old}, extendDisk h xp L N D a = some (v, old) → (old ≠ [] → a ∈ extendAddrs xp L N) →
      syncAddrs (extendDisk h xp L N D) (extendAddrs xp L N) a = some (v, []) := fun {a v old} ha hmem => by
    rw [syncAddrs]
    split
    · rw [ha]; rfl
    · rename_i hn
      have hold : old = [] := by
        by_contra hne
        exact hn (hmem hne)
      rw [ha, hold]
  refine ⟨fun a ha => ?_, ⟨(L.desc.length, L.data.length), hg₁, hg₂, ?_⟩, ?_, ?_, ?_, hs.matched.append hN, hk⟩
  · have hne := hasLog_extendDisk (h := h) (L := L) (N := N) hs.region a ha
    rw [syncAddrs]
    split
    · simpa using hne
    · exact hne
  · rw [hsync (extendDisk_header hx hfit hd) fun _ => List.mem_cons_self]
    simp only [BLog.append, List.length_append]; rfl
  · refine syncedRange_append.2 ⟨fun i hi => ?_, fun i hi => ?_⟩
    · exact hsync ((extendDisk_oldDesc hx hfit hi).trans (hs.desc i hi)) fun hne => absurd rfl hne
    · obtain ⟨old, ho⟩ := extendDisk_newDesc (h := h) hx hfit hs.region hi
      exact hsync ho fun _ => List.mem_cons_of_mem _
        (List.mem_append_left _ (List.mem_map.2 ⟨i, List.mem_range.2 hi, rfl⟩))
  · refine syncedRange_append.2 ⟨fun i hi => ?_, fun i hi => ?_⟩
    · exact hsync ((extendDisk_oldData hx hfit hi).trans (hs.data i hi)) fun hne => absurd rfl hne
    · obtain ⟨old, ho⟩ := extendDisk_newData (h := h) hx hfit hs.region hi
      exact hsync ho fun _ => List.mem_cons_of_mem _
        (List.mem_append_right _ (List.mem_map.2 ⟨i, List.mem_range.2 hi, rfl⟩))
  · simp only [BLog.append, List.length_append]; exact hfit

omit hx in
theorem agreeOff_extend_synced :
    AgreeOff xp D (syncAddrs (extendDisk h xp L N D) (extendAddrs xp L N)) := fun a ha => by
  have h₃ := hfit.1
  have h₄ := hfit.2
  have hn : ¬(xp.logDescriptor ≤ a ∧ a < xp.logDescriptor + xp.logDescLen) := fun hc => ha (Or.inr (Or.inl hc))
  have hn' : ¬(xp.logData ≤ a ∧ a < xp.logData + xp.logLen) := fun hc => ha (Or.inr (Or.inr hc))
  rw [syncAddrs, if_neg, agreeOff_extendDisk hfit a ha]
  intro hmem
  rcases List.mem_cons.1 hmem with he | hmem
  · exact ha (Or.inl he)
  rcases List.mem_append.1 hmem with hmem | hmem
  · obtain ⟨i, hi, he⟩ := List.mem_map.1 hmem
    have := List.mem_range.1 hi
    omega
  · obtain ⟨i, hi, he⟩ := List.mem_map.1 hmem
    have := List.mem_range.1 hi
    omega

end PaddedLog

end Fscq
