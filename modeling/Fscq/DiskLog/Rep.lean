import Fscq.Crash.HashChain
import Fscq.DiskLog.Blocks

/-!
# What the log on disk represents

`LogSynced h xp L D seen` says that the disk `D` holds the log `L` durably, with both checksums in the header.
`RollbackTo` says that the header already counts blocks that did not all reach the disk. These two are all that a
crash leaves, and both stand for the same log (`Recoverable`).

The checksums say something about the blocks because the keys they were made of are remembered in `seen`: a chain of
other blocks with the same checksum would be a collision with them (`blockHash_inj`).
-/

namespace Fscq

open CrashLogic Bufcache

namespace PaddedLog

/-! ## Checksums -/

section Checksums

variable (h : HashKey → HashVal)

def defaultKey : HashKey := hashKey defaultValu

def listKey (item : Valu) (hash : HashVal) : HashKey := hash2Key item hash

/-- The checksum of a list of blocks, and the keys that are hashed for it. -/
def blockHash (l : List Valu) : HashVal := chainHash h listKey (h defaultKey) l

def blockKeys (l : List Valu) : List HashKey := chainKeys h listKey (h defaultKey) l

theorem listKey_inj {x y : Valu} {a b : HashVal} (hk : listKey x a = listKey y b) : x = y ∧ a = b := by
  have hc : combine x a = combine y b := eq_of_heq (Sigma.mk.inj hk).2
  exact combine_inj hc

/-- The keys of both checksums were hashed. -/
def Hashed (L : BLog) (seen : List HashKey) : Prop :=
  defaultKey ∈ seen ∧ blockKeys h L.desc ⊆ seen ∧ blockKeys h L.data ⊆ seen

variable {h}

theorem Hashed.mono {L : BLog} {seen seen' : List HashKey} (hs : seen ⊆ seen') (hL : Hashed h L seen) :
    Hashed h L seen' :=
  ⟨hs hL.1, fun _ hk => hs (hL.2.1 hk), fun _ hk => hs (hL.2.2 hk)⟩

/-- Blocks hashed without collision to the checksum of known blocks are these blocks. -/
theorem blockHash_inj {l l' : List Valu} {seen : List HashKey} (hlen : l.length = l'.length)
    (heq : blockHash h l = blockHash h l') (hseen : blockKeys h l' ⊆ seen)
    (hsafe : ∀ k ∈ blockKeys h l, HashSafe h seen k) : l = l' :=
  chainHash_inj listKey_inj _ l l' hlen heq fun k hk k' hk' => hsafe k hk k' (hseen hk')

theorem blockHash_append (l l' : List Valu) :
    blockHash h (l ++ l') = chainHash h listKey (blockHash h l) l' := chainHash_append _ _ _

theorem blockKeys_append_subset {l l' : List Valu} {seen : List HashKey} (hl : blockKeys h l ⊆ seen)
    (hl' : chainKeys h listKey (blockHash h l) l' ⊆ seen) : blockKeys h (l ++ l') ⊆ seen := by
  rw [blockKeys, chainKeys_append]
  exact List.append_subset.2 ⟨hl, hl'⟩

end Checksums

/-! ## Regions of the disk -/

section Regions

variable {D D' m : RawDisk Valu} {a : Nat}

/-- The blocks from `a` on are durably `vl`. -/
def SyncedRange (D : RawDisk Valu) (a : Nat) (vl : List Valu) : Prop :=
  ∀ i (hi : i < vl.length), D (a + i) = some (vl[i], [])

theorem SyncedRange.holds {vl : List Valu} (hv : SyncedRange D a vl) : Holds D a vl := fun i hi => ⟨[], hv i hi⟩

theorem syncedRange_nil (D : RawDisk Valu) (a : Nat) : SyncedRange D a [] := fun _ hi => absurd hi (Nat.not_lt_zero _)

theorem syncedRange_append {l l' : List Valu} :
    SyncedRange D a (l ++ l') ↔ SyncedRange D a l ∧ SyncedRange D (a + l.length) l' := by
  constructor
  · intro hv
    refine ⟨fun i hi => ?_, fun i hi => ?_⟩
    · rw [hv i (by rw [List.length_append]; omega), List.getElem_append_left hi]
    · rw [Nat.add_assoc, hv (l.length + i) (by rw [List.length_append]; omega),
        List.getElem_append_right (Nat.le_add_right _ _)]
      simp
  · rintro ⟨h₁, h₂⟩ i hi
    by_cases hlt : i < l.length
    · rw [h₁ i hlt, List.getElem_append_left hlt]
    · have hget := h₂ (i - l.length) (by rw [List.length_append] at hi; omega)
      rw [show a + l.length + (i - l.length) = a + i by omega] at hget
      rw [hget, List.getElem_append_right (by omega)]

theorem SyncedRange.congr {vl : List Valu} (hv : SyncedRange D a vl)
    (hD : ∀ i < vl.length, D' (a + i) = D (a + i)) : SyncedRange D' a vl := fun i hi => (hD i hi).trans (hv i hi)

theorem possibleCrash_synced {v : Valu} (hd : D a = some (v, [])) (hm : PossibleCrash D m) : m a = some (v, []) := by
  rcases hm a with ⟨h₁, _⟩ | ⟨vs, v', h₁, h₂, hv⟩
  · rw [hd] at h₁; cases h₁
  · rw [hd] at h₁
    cases h₁
    rw [h₂, List.mem_singleton.1 hv]

theorem SyncedRange.crash {vl : List Valu} (hv : SyncedRange D a vl) (hm : PossibleCrash D m) : SyncedRange m a vl :=
  fun i hi => possibleCrash_synced (hv i hi) hm

/-- After a crash every block has one value. -/
theorem present_crash {n : Nat} (hp : Present D a n) (hm : PossibleCrash D m) :
    ∃ vl : List Valu, vl.length = n ∧ SyncedRange m a vl := by
  have hval : ∀ i : Fin n, ∃ v, m (a + i) = some (v, []) := fun i => by
    obtain ⟨vs, hvs⟩ := hp i i.isLt
    rcases hm (a + i) with ⟨h₁, _⟩ | ⟨_, v', _, h₂, _⟩
    · rw [hvs] at h₁; cases h₁
    · exact ⟨v', h₂⟩
  choose f hf using hval
  refine ⟨List.ofFn f, List.length_ofFn, fun i hi => ?_⟩
  rw [List.length_ofFn] at hi
  rw [List.getElem_ofFn]
  exact hf ⟨i, hi⟩

theorem possibleCrash_ne_none (hm : PossibleCrash D m) (hd : D a ≠ none) : m a ≠ none := by
  rcases hm a with ⟨h₁, _⟩ | ⟨_, _, _, h₂, _⟩
  · exact absurd h₁ hd
  · rw [h₂]; nofun

end Regions

/-! ## The log region -/

/-- The three parts of the log do not overlap, and all counts fit in 64 bits. -/
structure XparamsOk (xp : LogXparams) : Prop where
  len_eq : xp.logLen = DescSig.itemsPerVal * xp.logDescLen
  desc_lt : xp.logDescriptor + xp.logDescLen < 2 ^ 64
  data_lt : xp.logData + xp.logLen < 2 ^ 64
  header_desc : xp.logHeader < xp.logDescriptor ∨ xp.logDescriptor + xp.logDescLen ≤ xp.logHeader
  header_data : xp.logHeader < xp.logData ∨ xp.logData + xp.logLen ≤ xp.logHeader
  desc_data : xp.logDescriptor + xp.logDescLen ≤ xp.logData ∨ xp.logData + xp.logLen ≤ xp.logDescriptor

def InLog (xp : LogXparams) (a : Nat) : Prop :=
  a = xp.logHeader ∨ (xp.logDescriptor ≤ a ∧ a < xp.logDescriptor + xp.logDescLen) ∨
    (xp.logData ≤ a ∧ a < xp.logData + xp.logLen)

/-- All blocks of the log are there. -/
def HasLog (xp : LogXparams) (D : RawDisk Valu) : Prop := ∀ a, InLog xp a → D a ≠ none

/-- Nothing outside the log differs. -/
def AgreeOff (xp : LogXparams) (D D' : RawDisk Valu) : Prop := ∀ a, ¬ InLog xp a → D' a = D a

section Predicates

variable (h : HashKey → HashVal) (xp : LogXparams)

structure LogSynced (L : BLog) (D : RawDisk Valu) (seen : List HashKey) : Prop where
  region : HasLog xp D
  header : ∃ prev : Nat × Nat, prev.1 < 2 ^ 64 ∧ prev.2 < 2 ^ 64 ∧ D xp.logHeader = some (Hdr.hdr2val (Hdr.mkHeader
    ⟨prev, (L.desc.length, L.data.length), (blockHash h L.desc, blockHash h L.data)⟩), [])
  desc : SyncedRange D xp.logDescriptor L.desc
  data : SyncedRange D xp.logData L.data
  fits : LoglenValid xp L.desc.length L.data.length
  matched : L.Matched
  keys : Hashed h L seen

/-- The header counts the blocks of `L'`, an extension of `L`, but after `L` the disk has `T`. -/
structure RollbackTo (L L' T : BLog) (D : RawDisk Valu) (seen : List HashKey) : Prop where
  region : HasLog xp D
  header : D xp.logHeader = some (Hdr.hdr2val (Hdr.mkHeader ⟨(L.desc.length, L.data.length),
    (L'.desc.length, L'.data.length), (blockHash h L'.desc, blockHash h L'.data)⟩), [])
  desc : SyncedRange D xp.logDescriptor (L.append T).desc
  data : SyncedRange D xp.logData (L.append T).data
  desc_length : (L.append T).desc.length = L'.desc.length
  data_length : (L.append T).data.length = L'.data.length
  torn : L.append T ≠ L'
  fits : LoglenValid xp L'.desc.length L'.data.length
  matched : L.Matched
  keys : Hashed h L' seen

/-- The disks from which recovery leads to the log `L`. -/
inductive Recoverable (L : BLog) (D : RawDisk Valu) (seen : List HashKey) : Prop
  | synced (hs : LogSynced h xp L D seen)
  | rollback (L' T : BLog) (hr : RollbackTo h xp L L' T D seen)

/-- A log whose padded contents are `l`. -/
def Synced (l : Contents) (D : RawDisk Valu) (seen : List HashKey) : Prop :=
  (∀ e ∈ l, AddrValid e) ∧ LogSynced h xp (BLog.ofEntries l) D seen

end Predicates

variable {h : HashKey → HashVal} {xp : LogXparams} {L : BLog} {D D' m : RawDisk Valu} {seen seen' : List HashKey}

theorem HasLog.header (hr : HasLog xp D) : D xp.logHeader ≠ none := hr _ (Or.inl rfl)

theorem HasLog.desc (hr : HasLog xp D) {i n : Nat} (hn : i + n ≤ xp.logDescLen) :
    Present D (xp.logDescriptor + i) n :=
  present_iff.2 fun j hj => hr _ (Or.inr (Or.inl ⟨by omega, by omega⟩))

theorem HasLog.data (hr : HasLog xp D) {i n : Nat} (hn : i + n ≤ xp.logLen) : Present D (xp.logData + i) n :=
  present_iff.2 fun j hj => hr _ (Or.inr (Or.inr ⟨by omega, by omega⟩))

theorem HasLog.crash (hr : HasLog xp D) (hm : PossibleCrash D m) : HasLog xp m := fun a ha =>
  possibleCrash_ne_none hm (hr a ha)

theorem LogSynced.mono (hs : LogSynced h xp L D seen) (hsub : seen ⊆ seen') : LogSynced h xp L D seen' :=
  { hs with keys := hs.keys.mono hsub }

theorem Recoverable.mono (hs : Recoverable h xp L D seen) (hsub : seen ⊆ seen') : Recoverable h xp L D seen' := by
  cases hs with
  | synced hs => exact .synced (hs.mono hsub)
  | rollback L' T hr => exact .rollback L' T { hr with keys := hr.keys.mono hsub }

/-- A durable log survives a crash. -/
theorem LogSynced.crash (hs : LogSynced h xp L D seen) (hm : PossibleCrash D m) : LogSynced h xp L m seen := by
  obtain ⟨prev, h₁, h₂, hd⟩ := hs.header
  exact { hs with
    region := hs.region.crash hm
    header := ⟨prev, h₁, h₂, possibleCrash_synced hd hm⟩
    desc := hs.desc.crash hm
    data := hs.data.crash hm }

theorem RollbackTo.crash {L' T : BLog} (hs : RollbackTo h xp L L' T D seen) (hm : PossibleCrash D m) :
    RollbackTo h xp L L' T m seen :=
  { hs with
    region := hs.region.crash hm
    header := possibleCrash_synced hs.header hm
    desc := hs.desc.crash hm
    data := hs.data.crash hm }

theorem Recoverable.crash (hs : Recoverable h xp L D seen) (hm : PossibleCrash D m) : Recoverable h xp L m seen := by
  cases hs with
  | synced hs => exact .synced (hs.crash hm)
  | rollback L' T hr => exact .rollback L' T (hr.crash hm)

/-- Only the log region matters. -/
theorem LogSynced.congr (hs : LogSynced h xp L D seen) (hD : ∀ a, InLog xp a → D' a = D a) :
    LogSynced h xp L D' seen := by
  obtain ⟨prev, h₁, h₂, hd⟩ := hs.header
  exact { hs with
    region := fun a ha => by rw [hD a ha]; exact hs.region a ha
    header := ⟨prev, h₁, h₂, by rw [hD _ (Or.inl rfl)]; exact hd⟩
    desc := hs.desc.congr fun i hi => hD _ (Or.inr (Or.inl ⟨by omega, by have := hs.fits.1; omega⟩))
    data := hs.data.congr fun i hi => hD _ (Or.inr (Or.inr ⟨by omega, by have := hs.fits.2; omega⟩)) }

theorem RollbackTo.congr {L' T : BLog} (hs : RollbackTo h xp L L' T D seen) (hD : ∀ a, InLog xp a → D' a = D a) :
    RollbackTo h xp L L' T D' seen :=
  { hs with
    region := fun a ha => by rw [hD a ha]; exact hs.region a ha
    header := by rw [hD _ (Or.inl rfl)]; exact hs.header
    desc := hs.desc.congr fun i hi =>
      hD _ (Or.inr (Or.inl ⟨by omega, by have := hs.fits.1; have := hs.desc_length; omega⟩))
    data := hs.data.congr fun i hi =>
      hD _ (Or.inr (Or.inr ⟨by omega, by have := hs.fits.2; have := hs.data_length; omega⟩)) }

theorem Recoverable.congr (hs : Recoverable h xp L D seen) (hD : ∀ a, InLog xp a → D' a = D a) :
    Recoverable h xp L D' seen := by
  cases hs with
  | synced hs => exact .synced (hs.congr hD)
  | rollback L' T hr => exact .rollback L' T (hr.congr hD)

end PaddedLog

end Fscq
