import Fscq.DiskLog.Rep

/-!
# Specifications of the log on disk

Each operation of the log is specified over the disk `D` that the cache shows and the block-level log `L` that it
holds: `LogAt` between operations, `LogCrash` at crash points. A crash point names a disk `D'` that covers the physical
one and all of whose crashes can be recovered to one of the listed logs; outside the log region `D'` is `D`.

- `trunc_spec` and `extend_spec`: the new log, or at a crash the old or the new one;
- `recover_spec`: the log that the disk stands for, also when recovery is interrupted;
- `read_spec`: the entries.
-/

namespace Fscq

open CrashLogic Bufcache

variable {h : HashKey → HashVal} {xp : LogXparams} {s : St Valu HashKey} {cs : CacheSt} {D : RawDisk Valu}
  {seen : List HashKey}

/-! ## The header -/

namespace Hdr

theorem read_spec {H : Hdr} {old : List Valu} (hr : CacheAt cs D seen s) (hg : H.GoodSize)
    (hd : D xp.logHeader = some (hdr2val (mkHeader H), old)) :
    wp h (read xp cs) (fun r s' => CacheAt r.1 D seen s' ∧ r.2 = H) (CrashAt D seen) s := by
  refine wp_seq (Bufcache.read_spec hr hd) (fun _ hc => hc) fun r s' ⟨hr', hv⟩ => ⟨hr', ?_⟩
  show ofHeader (val2hdr r.2) = H
  rw [hv, val2hdr_hdr2val, ofHeader_mkHeader hg]

/-- The disk with a new header, durably. -/
def setHeader (xp : LogXparams) (D : RawDisk Valu) (H : Hdr) : RawDisk Valu :=
  Function.update D xp.logHeader (some (hdr2val (mkHeader H), []))

theorem syncNow_spec (hr : CacheAt cs D seen s) :
    wp h (syncNow xp cs) (fun cs' s' => CacheAt cs' (syncAddrs D [xp.logHeader]) seen s') (CrashAt D seen) s := by
  show wp h (Bufcache.sync xp.logHeader cs >>= endSync) _ _ s
  refine wp_seq (writeback_spec xp.logHeader hr) (fun _ hc => hc) fun cs' s' ⟨hr', hcl, _⟩ => ?_
  refine endSync_spec hr' fun a => ?_
  rw [syncAddrs]
  split
  · rename_i ha
    rw [List.mem_singleton.1 ha]
    exact Or.inr ⟨hcl, rfl⟩
  · exact Or.inl rfl

/-- Writing the header and syncing it. -/
theorem write_syncNow_spec {H : Hdr} (hr : CacheAt cs D seen s) (hd : D xp.logHeader ≠ none) :
    wp h (write xp H cs >>= fun cs => syncNow xp cs) (fun cs' s' => CacheAt cs' (setHeader xp D H) seen s')
      (CrashAt (updVs D xp.logHeader (hdr2val (mkHeader H))) seen) s := by
  obtain ⟨vs, hvs⟩ := Option.ne_none_iff_exists'.1 hd
  refine wp_seq (write_spec hr hvs) (fun s' hc => ⟨hc.1.trans (covers_updVs _ _ _), hc.2⟩) fun cs' s' hr' => ?_
  refine wp_mono (fun cs'' s'' hr'' => ?_) (fun _ hc => hc) _ (syncNow_spec hr')
  have heq : syncAddrs (updVs D xp.logHeader (hdr2val (mkHeader H))) [xp.logHeader] = setHeader xp D H := by
    funext a
    rw [syncAddrs, setHeader]
    by_cases ha : a = xp.logHeader
    · rw [if_pos (List.mem_singleton.2 ha), ha, Function.update_self, updVs_some hvs]; rfl
    · rw [if_neg (fun hm => ha (List.mem_singleton.1 hm)), updVs_of_ne ha, Function.update_of_ne ha]
  rwa [heq] at hr''

end Hdr

namespace PaddedLog

/-! ## Hashes and arrays -/

theorem hashList_spec (l : List Valu) (a : HashVal) (hr : CacheRep cs s.disk D) {C : St Valu HashKey → Prop} :
    wp h (hashList a l) (fun r s' => r = chainHash h listKey a l ∧ CacheRep cs s'.disk D ∧ s.seen ⊆ s'.seen ∧
      chainKeys h listKey a l ⊆ s'.seen ∧ ∀ k ∈ chainKeys h listKey a l, HashSafe h s.seen k) C s :=
  wp_hashChain (P := fun m => CacheRep cs m D) (fun _ _ hm hr => hr.possibleSync hm) l a hr

theorem defaultHash_spec (hr : CacheRep cs s.disk D) {C : St Valu HashKey → Prop} :
    wp h (Prog.hashOf (V := Valu) (H := HashVal) (hashKey defaultValu)) (fun r s' => r = h defaultKey ∧
      CacheRep cs s'.disk D ∧ s'.seen = defaultKey :: s.seen ∧ HashSafe h s.seen defaultKey) C s :=
  wp_hashOf (P := fun m => CacheRep cs m D) (fun _ _ hm hr => hr.possibleSync hm) _ hr

theorem readAll_desc_spec {a : Nat} {vl : List Valu} (hr : CacheAt cs D seen s) (hv : Holds D a vl) :
    wp h (AsyncRecArray.readAll DescSig a vl.length cs)
      (fun r s' => CacheAt r.1 D seen s' ∧ r.2 = unpackDesc vl) (CrashAt D seen) s :=
  wp_mono (fun _ _ ⟨hr', hval⟩ => ⟨hr', hval.trans (DescSig.foldl_iunpack vl [])⟩) (fun _ hc => hc) _
    (readRange_spec hr hv)

theorem readAll_data_spec {a : Nat} {vl : List Valu} (hr : CacheAt cs D seen s) (hv : Holds D a vl) :
    wp h (AsyncRecArray.readAll DataSig a vl.length cs)
      (fun r s' => CacheAt r.1 D seen s' ∧ r.2 = vl) (CrashAt D seen) s :=
  wp_mono (fun _ _ ⟨hr', hval⟩ => ⟨hr', (hval.trans (DataSig.foldl_iunpack vl [])).trans (unpackData_eq vl)⟩)
    (fun _ hc => hc) _ (readRange_spec hr hv)

/-! ## States of the log -/

section States

variable (h xp)

/-- The cache shows `D`, which holds the log `L` durably. -/
def LogAt (L : BLog) (D : RawDisk Valu) (cs : CacheSt) (s : St Valu HashKey) : Prop :=
  CacheRep cs s.disk D ∧ LogSynced h xp L D s.seen

/-- Whatever a crash leaves here can be recovered to one of `Ls`. -/
def LogCrash (D : RawDisk Valu) (Ls : BLog → Prop) (s : St Valu HashKey) : Prop :=
  ∃ D', Covers s.disk D' ∧ AgreeOff xp D D' ∧ ∀ m, PossibleCrash D' m → ∃ L, Ls L ∧ Recoverable h xp L m s.seen

end States

variable {L : BLog}

theorem LogCrash.mono {Ls Ls' : BLog → Prop} (hc : LogCrash h xp D Ls s) (hsub : ∀ L, Ls L → Ls' L) :
    LogCrash h xp D Ls' s := by
  obtain ⟨D', hcov, hoff, hrec⟩ := hc
  refine ⟨D', hcov, hoff, fun m hm => ?_⟩
  obtain ⟨L, hL, hR⟩ := hrec m hm
  exact ⟨L, hsub L hL, hR⟩

/-- A crash while the disk is still `D`. -/
theorem Recoverable.logCrash (hR : Recoverable h xp L D seen) (hsub : seen ⊆ s.seen) {Ls : BLog → Prop} (hL : Ls L)
    (hcov : Covers s.disk D) : LogCrash h xp D Ls s :=
  ⟨D, hcov, fun _ _ => rfl, fun _ hm => ⟨L, hL, (hR.crash hm).mono hsub⟩⟩

theorem LogSynced.logCrash (hs : LogSynced h xp L D seen) {Ls : BLog → Prop} (hL : Ls L) (hc : CrashAt D seen s) :
    LogCrash h xp D Ls s :=
  (Recoverable.synced hs).logCrash (hc.2 ▸ fun _ hk => hk) hL hc.1

theorem agreeOff_setHeader (xp : LogXparams) (D : RawDisk Valu) (H : Hdr) : AgreeOff xp D (Hdr.setHeader xp D H) :=
  fun _ ha => Function.update_of_ne (fun e => ha (Or.inl e)) _ _

theorem agreeOff_updVs_header (xp : LogXparams) (D : RawDisk Valu) (v : Valu) :
    AgreeOff xp D (updVs D xp.logHeader v) := fun _ ha => updVs_of_ne fun e => ha (Or.inl e)

theorem fits_goodSize (hx : XparamsOk xp) {ndesc ndata : Nat} (hf : LoglenValid xp ndesc ndata) :
    ndesc < 2 ^ 64 ∧ ndata < 2 ^ 64 := by
  have := hx.desc_lt; have := hx.data_lt; have := hf.1; have := hf.2
  exact ⟨by omega, by omega⟩

/-! ## A new header over the same blocks -/

/-- Blocks of the two arrays are not the header. -/
theorem update_header_desc (hx : XparamsOk xp) {i : Nat} (hi : i < xp.logDescLen) (o : Option (ValuSet Valu)) :
    Function.update D xp.logHeader o (xp.logDescriptor + i) = D (xp.logDescriptor + i) :=
  Function.update_of_ne (by have := hx.header_desc; omega) _ _

theorem update_header_data (hx : XparamsOk xp) {i : Nat} (hi : i < xp.logLen) (o : Option (ValuSet Valu)) :
    Function.update D xp.logHeader o (xp.logData + i) = D (xp.logData + i) :=
  Function.update_of_ne (by have := hx.header_data; omega) _ _

theorem HasLog.update_header (hr : HasLog xp D) (vs : ValuSet Valu) :
    HasLog xp (Function.update D xp.logHeader (some vs)) := fun a ha => by
  by_cases he : a = xp.logHeader
  · rw [he, Function.update_self]; nofun
  · rw [Function.update_of_ne he]; exact hr a ha

/-- A header that counts the blocks of `L` makes them the log. -/
theorem logSynced_setHeader (hx : XparamsOk xp) {prev : Nat × Nat} (hp : prev.1 < 2 ^ 64 ∧ prev.2 < 2 ^ 64)
    (hreg : HasLog xp D) (hdesc : SyncedRange D xp.logDescriptor L.desc) (hdata : SyncedRange D xp.logData L.data)
    (hfit : LoglenValid xp L.desc.length L.data.length) (hm : L.Matched) (hk : Hashed h L seen) :
    LogSynced h xp L (Hdr.setHeader xp D ⟨prev, (L.desc.length, L.data.length),
      (blockHash h L.desc, blockHash h L.data)⟩) seen where
  region := hreg.update_header _
  header := ⟨prev, hp.1, hp.2, Function.update_self _ _ _⟩
  desc := hdesc.congr fun i hi => update_header_desc hx (by have := hfit.1; omega) _
  data := hdata.congr fun i hi => update_header_data hx (by have := hfit.2; omega) _
  fits := hfit
  matched := hm
  keys := hk

/-- A crash while the header is rewritten leaves the old header or the new one. -/
theorem header_crash {H : Hdr} {v : Valu} {m : RawDisk Valu} (hd : D xp.logHeader = some (v, []))
    (hm : PossibleCrash (updVs D xp.logHeader (Hdr.hdr2val (Hdr.mkHeader H))) m) :
    PossibleCrash D m ∨ PossibleCrash (Hdr.setHeader xp D H) m := by
  have hrest : ∀ a, a ≠ xp.logHeader → updVs D xp.logHeader (Hdr.hdr2val (Hdr.mkHeader H)) a = D a := fun a ha =>
    updVs_of_ne ha
  have hhead := hm xp.logHeader
  rw [updVs_some hd] at hhead
  rcases hhead with ⟨h₁, _⟩ | ⟨vs, v', h₁, h₂, hv⟩
  · cases h₁
  · cases h₁
    rcases List.mem_cons.1 hv with rfl | hv
    · refine Or.inr fun a => ?_
      by_cases ha : a = xp.logHeader
      · rw [ha, Hdr.setHeader, Function.update_self]
        exact Or.inr ⟨_, _, rfl, h₂, List.mem_cons_self⟩
      · rw [Hdr.setHeader, Function.update_of_ne ha, ← hrest a ha]; exact hm a
    · refine Or.inl fun a => ?_
      by_cases ha : a = xp.logHeader
      · rw [ha, hd]
        exact Or.inr ⟨_, _, rfl, h₂, hv⟩
      · rw [← hrest a ha]; exact hm a

/-- The header of a durable log can be read. -/
theorem LogSynced.read_header (hx : XparamsOk xp) (hs : LogSynced h xp L D seen) (hr : CacheAt cs D seen s) :
    ∃ prev : Nat × Nat, (prev.1 < 2 ^ 64 ∧ prev.2 < 2 ^ 64) ∧ wp h (Hdr.read xp cs) (fun r s' => CacheAt r.1 D seen s' ∧
      r.2 = ⟨prev, (L.desc.length, L.data.length), (blockHash h L.desc, blockHash h L.data)⟩) (CrashAt D seen) s := by
  obtain ⟨prev, h₁, h₂, hd⟩ := hs.header
  obtain ⟨h₃, h₄⟩ := fits_goodSize hx hs.fits
  exact ⟨prev, ⟨h₁, h₂⟩, Hdr.read_spec hr ⟨⟨h₁, h₂⟩, h₃, h₄⟩ hd⟩

/-! ## The operations -/

theorem avail_spec (hx : XparamsOk xp) (hl : LogAt h xp L D cs s) :
    wp h (avail xp cs) (fun r s' => LogAt h xp L D r.1 s' ∧ r.2 = xp.logLen - L.desc.length * DescSig.itemsPerVal)
      (LogCrash h xp D (· = L)) s := by
  obtain ⟨prev, _, hread⟩ := hl.2.read_header hx ⟨hl.1, rfl⟩
  refine wp_seq hread (fun _ hc => hl.2.logCrash rfl hc) fun r s' ⟨hr', hval⟩ => ⟨⟨hr'.1, hr'.2 ▸ hl.2⟩, ?_⟩
  show xp.logLen - r.2.currentLength.1 * _ = _
  rw [hval]

theorem read_spec (hx : XparamsOk xp) (hl : LogAt h xp L D cs s) :
    wp h (read xp cs) (fun r s' => LogAt h xp L D r.1 s' ∧ r.2 = L.entries) (LogCrash h xp D (· = L)) s := by
  have hcrash : ∀ s', CrashAt D s.seen s' → LogCrash h xp D (· = L) s' := fun _ hc => hl.2.logCrash rfl hc
  obtain ⟨prev, _, hread⟩ := hl.2.read_header hx ⟨hl.1, rfl⟩
  refine wp_seq hread hcrash fun ⟨cs₁, H⟩ s₁ ⟨hr₁, hval⟩ => ?_
  cases hval
  refine wp_seq (readAll_desc_spec hr₁ hl.2.desc.holds) hcrash fun ⟨cs₂, wal⟩ s₂ ⟨hr₂, hwal⟩ => ?_
  cases hwal
  refine wp_seq (readAll_data_spec hr₂ hl.2.data.holds) hcrash fun ⟨cs₃, vl⟩ s₃ ⟨hr₃, hvl⟩ => ?_
  cases hvl
  exact ⟨⟨hr₃.1, hr₃.2 ▸ hl.2⟩, rfl⟩

theorem trunc_spec (hx : XparamsOk xp) (hl : LogAt h xp L D cs s) :
    wp h (trunc xp cs) (fun cs' s' => ∃ D', LogAt h xp BLog.empty D' cs' s' ∧ AgreeOff xp D D')
      (LogCrash h xp D fun L' => L' = L ∨ L' = BLog.empty) s := by
  obtain ⟨prev, _, hread⟩ := hl.2.read_header hx ⟨hl.1, rfl⟩
  refine wp_seq hread (fun _ hc => hl.2.logCrash (Or.inl rfl) hc) fun ⟨cs₁, H⟩ s₁ ⟨hr₁, hval⟩ => ?_
  cases hval
  refine wp_seq (defaultHash_spec hr₁.1) (fun _ hc => hc) fun hash s₂ ⟨hhash, hr₂, hseen, _⟩ => ?_
  subst hhash
  have hsub : s.seen ⊆ s₂.seen := by
    rw [hseen, hr₁.2]; exact List.subset_cons_self _ _
  have hkeys : Hashed h BLog.empty s₂.seen := ⟨hseen ▸ List.mem_cons_self, nofun, nofun⟩
  have hempty : LogSynced h xp BLog.empty (Hdr.setHeader xp D ⟨(L.desc.length, L.data.length), (0, 0),
      (h defaultKey, h defaultKey)⟩) s₂.seen :=
    logSynced_setHeader hx (fits_goodSize hx hl.2.fits) hl.2.region (syncedRange_nil _ _) (syncedRange_nil _ _)
      ⟨Nat.zero_le _, Nat.zero_le _⟩ BLog.matched_empty hkeys
  refine wp_mono (fun cs' s' hr' => ⟨_, ⟨hr'.1, hr'.2 ▸ hempty⟩, agreeOff_setHeader _ _ _⟩) (fun s' hc => ?_) _
    (Hdr.write_syncNow_spec ⟨hr₂, rfl⟩ hl.2.region.header)
  refine ⟨_, hc.1, agreeOff_updVs_header _ _ _, fun m hm => ?_⟩
  obtain ⟨_, _, _, hd⟩ := hl.2.header
  rw [hc.2]
  rcases header_crash hd hm with hm | hm
  · exact ⟨L, Or.inl rfl, .synced ((hl.2.mono hsub).crash hm)⟩
  · exact ⟨_, Or.inr rfl, .synced (hempty.crash hm)⟩

theorem init_spec (hx : XparamsOk xp) (hr : CacheRep cs s.disk D) (hreg : HasLog xp D) :
    wp h (init xp cs) (fun cs' s' => ∃ D', LogAt h xp BLog.empty D' cs' s' ∧ AgreeOff xp D D') (fun _ => True) s := by
  refine wp_seq (defaultHash_spec hr) (fun _ hc => hc) fun hash s₁ ⟨hhash, hr₁, hseen, _⟩ => ?_
  subst hhash
  have hempty : LogSynced h xp BLog.empty (Hdr.setHeader xp D ⟨(0, 0), (0, 0), (h defaultKey, h defaultKey)⟩)
      s₁.seen :=
    logSynced_setHeader hx (by decide) hreg (syncedRange_nil _ _) (syncedRange_nil _ _) ⟨Nat.zero_le _, Nat.zero_le _⟩
      BLog.matched_empty ⟨hseen ▸ List.mem_cons_self, nofun, nofun⟩
  exact wp_mono (fun cs' s' hr' => ⟨_, ⟨hr'.1, hr'.2 ▸ hempty⟩, agreeOff_setHeader _ _ _⟩) (fun _ _ => trivial) _
    (Hdr.write_syncNow_spec ⟨hr₁, rfl⟩ hreg.header)

end PaddedLog

end Fscq
