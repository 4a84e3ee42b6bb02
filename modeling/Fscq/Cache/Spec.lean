import Fscq.Cache.Defs

/-!
# Specifications of the buffer cache

Every operation is specified over the disk `D` that the cache shows: `CacheAt` is the state between operations and
`CrashAt` what is known at a crash point. Reads and write-backs leave `D` alone, a write is `updVs`, and the sync at
the end of a batch makes any set of clean addresses durable (`endSync_spec`).
-/

namespace Fscq

open CrashLogic

namespace Bufcache

variable {V K H : Type} {h : K → H} {s : St V K} {cs : Cachestate V} {D : RawDisk V}

/-- The cache shows `D`, and nothing was hashed beyond `seen`. -/
def CacheAt (cs : Cachestate V) (D : RawDisk V) (seen : List K) (s : St V K) : Prop :=
  CacheRep cs s.disk D ∧ s.seen = seen

/-- A crash here is a crash of `D`. -/
def CrashAt (D : RawDisk V) (seen : List K) (s : St V K) : Prop := Covers s.disk D ∧ s.seen = seen

/-! ## Blocks -/

theorem BlockRep.elim {e : Option (V × Bool)} {p d : Option (ValuSet V)} (hb : BlockRep e p d) :
    (e = none ∧ p = none ∧ d = none) ∨ ∃ vs vs', p = some vs ∧ d = some vs' ∧ vsmerge vs ⊆ vsmerge vs' ∧
      (e = none → vs.1 = vs'.1) ∧ ∀ v dirty, e = some (v, dirty) → vs'.1 = v ∧ (dirty = false → vs.1 = v) := by
  rcases e with _ | ⟨v, dirty⟩ <;> rcases p with _ | vs <;> rcases d with _ | vs' <;> simp_all [BlockRep]

theorem BlockRep.of_some {e : Option (V × Bool)} {vs vs' : ValuSet V} (hsub : vsmerge vs ⊆ vsmerge vs')
    (hn : e = none → vs.1 = vs'.1) (he : ∀ v dirty, e = some (v, dirty) → vs'.1 = v ∧ (dirty = false → vs.1 = v)) :
    BlockRep e (some vs) (some vs') := by
  rcases e with _ | ⟨v, dirty⟩
  · exact ⟨hn rfl, hsub⟩
  · exact ⟨(he v dirty rfl).1, (he v dirty rfl).2, hsub⟩

theorem vsmerge_mono {v : V} {l l' : List V} (hl : l ⊆ l') : vsmerge (v, l) ⊆ vsmerge (v, l') :=
  List.cons_subset_cons v hl

theorem CacheRep.covers (hr : CacheRep cs s.disk D) : Covers s.disk D := by
  intro a
  rcases (hr.block a).elim with ⟨_, hp, hd⟩ | ⟨vs, vs', hp, hd, hsub, _⟩
  · exact Or.inl ⟨hp, hd⟩
  · exact Or.inr ⟨vs, vs', hp, hd, hsub⟩

theorem CacheAt.crash {seen : List K} (hr : CacheAt cs D seen s) : CrashAt D seen s := ⟨hr.1.covers, hr.2⟩

/-- The disk may drop older values under the cache. -/
theorem CacheRep.possibleSync {m m' : RawDisk V} (hr : CacheRep cs m D) (hm : PossibleSync m m') :
    CacheRep cs m' D := by
  refine ⟨hr.size, fun a => ?_⟩
  have hb := hr.block a
  rcases hm a with ⟨h₁, h₂⟩ | ⟨v, l, l', h₁, h₂, hl⟩
  · rwa [h₂, ← h₁]
  · rw [h₁] at hb
    rcases hb.elim with ⟨_, hp, _⟩ | ⟨vs, vs', hp, hd, hsub, hn, he⟩
    · cases hp
    · cases hp
      rw [h₂, hd]
      exact BlockRep.of_some (fun x hx => hsub (vsmerge_mono hl hx)) hn he

theorem Covers.trans {m D D' : RawDisk V} (h₁ : Covers m D) (h₂ : Covers D D') : Covers m D' := by
  intro a
  rcases h₁ a with ⟨hm, hD⟩ | ⟨vs, vs', hm, hD, hsub⟩ <;>
    rcases h₂ a with ⟨hD₂, hD'⟩ | ⟨ws, ws', hD₂, hD', hsub'⟩
  · exact Or.inl ⟨hm, hD'⟩
  · rw [hD] at hD₂; cases hD₂
  · rw [hD] at hD₂; cases hD₂
  · rw [hD] at hD₂
    cases hD₂
    exact Or.inr ⟨vs, ws', hm, hD', fun x hx => hsub' (hsub hx)⟩

theorem Covers.refl (D : RawDisk V) : Covers D D := by
  intro a
  cases hd : D a with
  | none => exact Or.inl ⟨rfl, rfl⟩
  | some vs => exact Or.inr ⟨vs, vs, rfl, rfl, fun _ hx => hx⟩

theorem Covers.possibleCrash {m D m' : RawDisk V} (hc : Covers m D) (hm : PossibleCrash m m') :
    PossibleCrash D m' := by
  intro a
  rcases hc a with ⟨h₁, h₂⟩ | ⟨vs, vs', h₁, h₂, hsub⟩ <;> rcases hm a with ⟨h₃, h₄⟩ | ⟨ws, v', h₃, h₄, hv⟩
  · exact Or.inl ⟨h₂, h₄⟩
  · rw [h₁] at h₃; cases h₃
  · rw [h₁] at h₃; cases h₃
  · rw [h₁] at h₃
    cases h₃
    exact Or.inr ⟨vs', v', h₂, h₄, hsub hv⟩

/-- Syncing is a crash that keeps the latest values. -/
theorem possibleCrash_syncMem (m : RawDisk V) : PossibleCrash m (syncMem m) := by
  intro a
  cases hm : m a with
  | none => exact Or.inl ⟨rfl, by rw [syncMem, hm]; rfl⟩
  | some vs => exact Or.inr ⟨vs, vs.1, rfl, by rw [syncMem, hm]; rfl, List.mem_cons_self⟩

theorem covers_updVs (D : RawDisk V) (a : Nat) (v : V) : Covers D (updVs D a v) := by
  intro b
  by_cases hb : b = a
  · subst hb
    cases hd : D b with
    | none => exact Or.inl ⟨rfl, by simp [updVs, hd]⟩
    | some vs => exact Or.inr ⟨vs, (v, vsmerge vs), rfl, by simp [updVs, hd], List.subset_cons_self v _⟩
  · rw [updVs, Function.update_of_ne hb]
    exact Covers.refl D b

/-! ## The specifications -/

theorem getElem?_insert' {β : Type} (m : AddrMap β) (k a : Nat) (v : β) :
    (m.insert k v)[a]? = if k = a then some v else m[a]? := by
  rw [Std.ExtTreeMap.getElem?_insert]
  simp

theorem getElem?_erase' {β : Type} (m : AddrMap β) (k a : Nat) :
    (m.erase k)[a]? = if k = a then none else m[a]? := by
  rw [Std.ExtTreeMap.getElem?_erase]
  simp

theorem size_insert_some {β : Type} {m : AddrMap β} {k : Nat} {v w : β} (hk : m[k]? = some w) :
    (m.insert k v).size = m.size := by
  rw [Std.ExtTreeMap.size_insert, if_pos]
  rw [Std.ExtTreeMap.contains_eq_isSome_getElem?, hk]; rfl

theorem size_insert_none {β : Type} {m : AddrMap β} {k : Nat} {v : β} (hk : m[k]? = none) :
    (m.insert k v).size = m.size + 1 := by
  rw [Std.ExtTreeMap.size_insert, if_neg]
  rw [Std.ExtTreeMap.contains_eq_isSome_getElem?, hk]; simp

theorem size_erase_some {β : Type} {m : AddrMap β} {k : Nat} {w : β} (hk : m[k]? = some w) :
    (m.erase k).size = m.size - 1 := by
  rw [Std.ExtTreeMap.size_erase, if_pos]
  rw [Std.ExtTreeMap.contains_eq_isSome_getElem?, hk]; rfl

theorem size_pos_of_some {β : Type} {m : AddrMap β} {k : Nat} {w : β} (hk : m[k]? = some w) : 0 < m.size := by
  have hmem := (Std.ExtTreeMap.mem_toList_iff_getElem?_eq_some).2 hk
  rw [← Std.ExtTreeMap.length_toList]
  exact List.length_pos_of_mem hmem

/-- A write-back keeps the shown disk, cleans its block and dirties no other. -/
theorem writeback_spec (a : Nat) {seen : List K} (hr : CacheAt cs D seen s) :
    wp h (writeback (K := K) (H := H) a cs) (fun cs' s' => CacheAt cs' D seen s' ∧ Clean cs' a ∧
      (∀ b, Clean cs b → Clean cs' b) ∧ cs'.csCount = cs.csCount ∧ cs'.csMaxCount = cs.csMaxCount ∧
      cs'.csEvict = cs.csEvict ∧ (cs'.csMap[a]?.isSome = cs.csMap[a]?.isSome)) (CrashAt D seen) s := by
  unfold writeback
  split
  · rename_i v hv
    have hb := hr.1.block a
    rw [hv] at hb
    rcases hb.elim with ⟨he, _⟩ | ⟨vs, vs', hp, hd, hsub, _, he⟩
    · cases he
    · refine ⟨hr.crash, vs, hp, fun m hm => ?_⟩
      refine ⟨⟨CacheRep.possibleSync ⟨⟨?_, hr.1.size.le, hr.1.size.ne⟩, fun b => ?_⟩ hm, hr.2⟩, ?_, ?_, rfl, rfl, rfl, ?_⟩
      · rw [size_insert_some hv]; exact hr.1.size.count
      · rw [getElem?_insert']
        by_cases hab : a = b
        · subst hab
          rw [if_pos rfl, Function.update_self, hd]
          refine BlockRep.of_some ?_ nofun ?_
          · intro x hx
            rcases List.mem_cons.1 hx with hxv | hx
            · rw [hxv, ← (he v true rfl).1]; exact List.mem_cons_self
            · exact hsub hx
          · rintro _ _ ⟨⟩
            exact ⟨(he v true rfl).1, fun _ => rfl⟩
        · rw [if_neg hab, Function.update_of_ne (Ne.symm hab)]
          exact hr.1.block b
      · intro w
        rw [getElem?_insert', if_pos rfl]; nofun
      · intro b hb w
        rw [getElem?_insert']
        split
        · nofun
        · exact hb w
      · rw [getElem?_insert', if_pos rfl, hv]; rfl
  · rename_i hne
    exact ⟨hr, fun v hv => hne v hv, fun _ hb => hb, rfl, rfl, rfl, rfl⟩

theorem evict_spec {a : Nat} {seen : List K} (hr : CacheAt cs D seen s) (ha : ∃ e, cs.csMap[a]? = some e) :
    wp h (evict (K := K) (H := H) a cs) (fun cs' s' => CacheAt cs' D seen s' ∧ cs'.csCount < cs'.csMaxCount)
      (CrashAt D seen) s := by
  refine wp_seq (writeback_spec a hr) (fun _ hc => hc) fun cs' s' ⟨hr', hcl, _, hcount, hmax, _, hsome⟩ => ?_
  obtain ⟨e, he⟩ := ha
  rw [he] at hsome
  cases hm : cs'.csMap[a]? with
  | none => rw [hm] at hsome; cases hsome
  | some e' =>
    have hpos := size_pos_of_some hm
    have hlt : cs'.csCount - 1 < cs'.csMaxCount := by
      have := hr'.1.size.count; have := hr'.1.size.le; omega
    refine ⟨⟨⟨⟨?_, ?_, hr'.1.size.ne⟩, fun b => ?_⟩, hr'.2⟩, hlt⟩
    · show (cs'.csMap.erase a).size = cs'.csCount - 1
      rw [size_erase_some hm, hr'.1.size.count]
    · exact Nat.le_of_lt hlt
    · rw [getElem?_erase']
      by_cases hab : a = b
      · subst hab
        rw [if_pos rfl]
        rcases (hr'.1.block a).elim with ⟨hnone, _⟩ | ⟨vs, vs', hp, hd, hsub, _, hv⟩
        · rw [hm] at hnone; cases hnone
        · obtain ⟨v, dirty⟩ := e'
          have hclean : dirty = false := by
            cases dirty
            · rfl
            · exact absurd hm (hcl v)
          rw [hp, hd]
          refine BlockRep.of_some hsub (fun _ => ?_) nofun
          rw [(hv v dirty hm).2 hclean, (hv v dirty hm).1]
      · rw [if_neg hab]; exact hr'.1.block b

theorem maybeEvict_spec {seen : List K} (hr : CacheAt cs D seen s) :
    wp h (maybeEvict (K := K) (H := H) cs)
      (fun cs' s' => CacheAt cs' D seen s' ∧ cs'.csCount < cs'.csMaxCount) (CrashAt D seen) s := by
  unfold maybeEvict
  split
  · exact ⟨hr, by assumption⟩
  · rename_i hfull
    simp only [evictionChoose]
    split
    · rename_i e he
      exact evict_spec hr ⟨e, he⟩
    · split
      · rename_i hnil
        have hlen := Std.ExtTreeMap.length_toList (t := cs.csMap)
        rw [hnil] at hlen
        have hcount := hr.1.size.count
        have hne := hr.1.size.ne
        simp only [List.length_nil] at hlen
        omega
      · rename_i b e rest htl
        have hmem : (b, e) ∈ cs.csMap.toList := htl ▸ List.mem_cons_self
        exact evict_spec hr ⟨e, (Std.ExtTreeMap.mem_toList_iff_getElem?_eq_some).1 hmem⟩

theorem read_spec {a : Nat} {seen : List K} {vs : ValuSet V} (hr : CacheAt cs D seen s) (ha : D a = some vs) :
    wp h (read (K := K) (H := H) a cs) (fun r s' => CacheAt r.1 D seen s' ∧ r.2 = vs.1) (CrashAt D seen) s := by
  refine wp_seq (maybeEvict_spec hr) (fun _ hc => hc) fun cs' s' ⟨hr', hlt⟩ => ?_
  have hb := hr'.1.block a
  rw [ha] at hb
  rcases hb.elim with ⟨_, _, hd⟩ | ⟨ps, ds, hp, hd, hsub, hn, he⟩
  · cases hd
  cases hd
  cases hm : cs'.csMap[a]? with
  | some e =>
    obtain ⟨v, dirty⟩ := e
    exact ⟨hr', ((he v dirty hm).1).symm⟩
  | none =>
    refine ⟨hr'.crash, ps, hp, fun m hm' => ?_⟩
    refine ⟨⟨CacheRep.possibleSync ⟨⟨?_, ?_, hr'.1.size.ne⟩, fun b => ?_⟩ hm', hr'.2⟩, hn hm⟩
    · show (cs'.csMap.insert a (ps.1, false)).size = cs'.csCount + 1
      rw [size_insert_none hm, hr'.1.size.count]
    · exact hlt
    · rw [getElem?_insert']
      by_cases hab : a = b
      · subst hab
        rw [if_pos rfl, hp, ha]
        refine BlockRep.of_some hsub nofun ?_
        rintro _ _ ⟨⟩
        exact ⟨(hn hm).symm, fun _ => rfl⟩
      · rw [if_neg hab]; exact hr'.1.block b

theorem write_spec {a : Nat} {v : V} {seen : List K} {vs : ValuSet V} (hr : CacheAt cs D seen s)
    (ha : D a = some vs) :
    wp h (write (K := K) (H := H) a v cs) (fun cs' s' => CacheAt cs' (updVs D a v) seen s') (CrashAt D seen) s := by
  refine wp_seq (maybeEvict_spec hr) (fun _ hc => hc) fun cs' s' ⟨hr', hlt⟩ => ?_
  have hblock : ∀ b, BlockRep (cs'.csMap.insert a (v, true))[b]? (s'.disk b) (updVs D a v b) := by
    intro b
    rw [getElem?_insert']
    by_cases hab : a = b
    · subst hab
      have hb := hr'.1.block a
      rw [ha] at hb
      rcases hb.elim with ⟨_, _, hd⟩ | ⟨ps, ds, hp, hd, hsub, _, _⟩
      · cases hd
      · cases hd
        rw [if_pos rfl, hp, updVs, Function.update_self, ha]
        refine BlockRep.of_some (fun x hx => List.mem_cons_of_mem _ (hsub hx)) nofun ?_
        rintro _ _ ⟨⟩
        exact ⟨rfl, nofun⟩
    · rw [if_neg hab, updVs, Function.update_of_ne (Ne.symm hab)]
      exact hr'.1.block b
  cases hm : cs'.csMap[a]? with
  | some e =>
    refine ⟨⟨⟨?_, hr'.1.size.le, hr'.1.size.ne⟩, hblock⟩, hr'.2⟩
    rw [size_insert_some hm]; exact hr'.1.size.count
  | none =>
    refine ⟨⟨⟨?_, hlt, hr'.1.size.ne⟩, hblock⟩, hr'.2⟩
    show (cs'.csMap.insert a (v, true)).size = cs'.csCount + 1
    rw [size_insert_none hm, hr'.1.size.count]

/-- Durable at some addresses: `D'` differs from `D` only where a block is clean, and there only by having no older
values. -/
def SyncedAt (cs : Cachestate V) (D D' : RawDisk V) : Prop :=
  ∀ a, D' a = D a ∨ (Clean cs a ∧ D' a = (D a).map fun vs => (vs.1, []))

theorem endSync_spec {E : RawDisk V} {seen : List K} (hr : CacheAt cs D seen s) (hE : SyncedAt cs D E) :
    wp h (endSync (K := K) (H := H) cs) (fun cs' s' => CacheAt cs' E seen s') (CrashAt D seen) s := by
  refine ⟨hr.crash, fun m hm => ⟨CacheRep.possibleSync ⟨hr.1.size, fun a => ?_⟩ hm, hr.2⟩⟩
  rcases (hr.1.block a).elim with ⟨he, hp, hd⟩ | ⟨vs, vs', hp, hd, hsub, hn, he⟩
  · have hEa : E a = none := by rcases hE a with h₁ | ⟨_, h₁⟩ <;> rw [h₁, hd]; rfl
    rw [he, hEa, syncMem, hp]
    trivial
  · have hsync : vsmerge (vs.1, []) ⊆ vsmerge vs' := fun x hx => by
      rcases List.mem_cons.1 hx with rfl | hx
      · exact hsub List.mem_cons_self
      · cases hx
    rw [syncMem, hp]
    rcases hE a with h₁ | ⟨hcl, h₁⟩
    · rw [h₁, hd]
      exact BlockRep.of_some hsync hn he
    · rw [h₁, hd]
      have hcur : vs.1 = vs'.1 := by
        cases hm' : cs.csMap[a]? with
        | none => exact hn hm'
        | some e =>
          obtain ⟨v, dirty⟩ := e
          cases dirty
          · rw [(he v false hm').2 rfl, (he v false hm').1]
          · exact absurd hm' (hcl v)
      refine BlockRep.of_some ?_ (fun _ => hcur) he
      show vsmerge (vs.1, []) ⊆ vsmerge (vs'.1, [])
      rw [hcur]
      exact fun _ hx => hx

end Bufcache

end Fscq
