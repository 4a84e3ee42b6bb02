import Fscq.Crash.Wp
import Mathlib.Data.Fintype.Card

/-!
# Runs without a collision

A program that hashes finds a collision or not as the hash function has it. If it hashes at most `n` keys (`Hashes`) and
there are more hashes than keys, then there is a hash function for which it finds none: each new key is given a hash that
no key has so far (`exists_run`). What ran before is not affected, since the function is kept on the keys seen (`Exec.congr`).
-/

namespace CrashLogic

variable {V K H α β : Type} {h h' : K → H} {s s' : St V K} {n m N : Nat}

/-! ## Counting hashes -/

/-- It hashes at most `n` keys. -/
def Prog.Hashes : Nat → Prog V K H α → Prop
  | _, .ret _ => True
  | n, .read _ k => ∀ v, (k v).Hashes n
  | n, .write _ _ k => k.Hashes n
  | n, .sync k => k.Hashes n
  | 0, .hash _ _ => False
  | n + 1, .hash _ k => ∀ x, (k x).Hashes n

namespace Prog

theorem Hashes.mono : ∀ {p : Prog V K H α} {n m : Nat}, p.Hashes n → n ≤ m → p.Hashes m
  | .ret _, _, _, _, _ => trivial
  | .read _ k, _, _, hp, hle => fun v => Hashes.mono (p := k v) (hp v) hle
  | .write _ _ k, _, _, hp, hle => Hashes.mono (p := k) hp hle
  | .sync k, _, _, hp, hle => Hashes.mono (p := k) hp hle
  | .hash _ _, 0, _, hp, _ => hp.elim
  | .hash _ k, _ + 1, _ + 1, hp, hle => fun x => Hashes.mono (p := k x) (hp x) (Nat.le_of_succ_le_succ hle)

theorem HashFree.hashes : ∀ {p : Prog V K H α} {n : Nat}, p.HashFree → p.Hashes n
  | .ret _, _, _ => trivial
  | .read _ k, _, hp => fun v => HashFree.hashes (p := k v) (hp v)
  | .write _ _ k, _, hp => HashFree.hashes (p := k) hp
  | .sync k, _, hp => HashFree.hashes (p := k) hp

theorem Hashes.bind {f : α → Prog V K H β} (hf : ∀ a, (f a).Hashes m) : ∀ {p : Prog V K H α} {n : Nat}, p.Hashes n →
    (p >>= f).Hashes (n + m)
  | .ret a, n, _ => (hf a).mono (Nat.le_add_left m n)
  | .read _ k, _, hp => fun v => Hashes.bind hf (p := k v) (hp v)
  | .write _ _ k, _, hp => Hashes.bind hf (p := k) hp
  | .sync k, _, hp => Hashes.bind hf (p := k) hp
  | .hash _ _, 0, hp => hp.elim
  | .hash _ k, n + 1, hp => by
    rw [Nat.succ_add]
    exact fun x => Hashes.bind hf (p := k x) (hp x)

theorem HashFree.bind_hashes {f : α → Prog V K H β} (hf : ∀ a, (f a).Hashes m) {p : Prog V K H α} (hp : p.HashFree) :
    (p >>= f).Hashes m :=
  Nat.zero_add m ▸ Hashes.bind hf (HashFree.hashes (n := 0) hp)

theorem Hashes.bind_free {f : α → Prog V K H β} (hf : ∀ a, (f a).HashFree) {p : Prog V K H α} (hp : p.Hashes n) :
    (p >>= f).Hashes n :=
  hp.bind (m := 0) fun a => (hf a).hashes

/-- Its result satisfies `R`, whatever it reads. -/
def Returns (R : α → Prop) : Prog V K H α → Prop
  | .ret a => R a
  | .read _ k => ∀ v, (k v).Returns R
  | .write _ _ k => k.Returns R
  | .sync k => k.Returns R
  | .hash _ k => ∀ x, (k x).Returns R

theorem returns_seq {R : β → Prop} {f : α → Prog V K H β} (hf : ∀ a, (f a).Returns R) : ∀ p : Prog V K H α,
    (p >>= f).Returns R
  | .ret a => hf a
  | .read _ k => fun v => returns_seq hf (k v)
  | .write _ _ k => returns_seq hf k
  | .sync k => returns_seq hf k
  | .hash _ k => fun x => returns_seq hf (k x)

theorem Returns.bind {R : α → Prop} {R' : β → Prop} {f : α → Prog V K H β} (hf : ∀ a, R a → (f a).Returns R') :
    ∀ {p : Prog V K H α}, p.Returns R → (p >>= f).Returns R'
  | .ret a, hp => hf a hp
  | .read _ k, hp => fun v => Returns.bind hf (p := k v) (hp v)
  | .write _ _ k, hp => Returns.bind hf (p := k) hp
  | .sync k, hp => Returns.bind hf (p := k) hp
  | .hash _ k, hp => fun x => Returns.bind hf (p := k x) (hp x)

/-- What is proved of the result holds of the result of a run. -/
theorem Returns.of_exec {R : α → Prop} {p : Prog V K H α} {o : Outcome V K α} (he : Exec h s p o) (hp : p.Returns R) {a : α}
    (ho : o = .finished s' a) : R a := by
  induction he with
  | ret =>
    cases ho
    exact hp
  | read _ _ _ _ _ _ _ _ _ ih => exact ih (hp _) ho
  | write _ _ _ _ _ _ _ _ _ _ ih | sync _ _ _ _ _ _ ih => exact ih hp ho
  | hash _ _ _ _ _ _ _ _ ih => exact ih (hp _) ho
  | readFail | writeFail | hashCollide | readCrash | writeCrash | syncCrash => cases ho

theorem HashFree.hashes_of {R : α → Prop} {f : α → Prog V K H β} (hf : ∀ a, R a → (f a).Hashes n) : ∀ {p : Prog V K H α},
    p.HashFree → p.Returns R → (p >>= f).Hashes n
  | .ret a, _, hr => hf a hr
  | .read _ k, hp, hr => fun v => HashFree.hashes_of hf (p := k v) (hp v) (hr v)
  | .write _ _ k, hp, hr => HashFree.hashes_of hf (p := k) hp hr
  | .sync k, hp, hr => HashFree.hashes_of hf (p := k) hp hr

theorem hashFree_forN {f : Nat → β → Prog V K H β} (hf : ∀ i b, (f i b).HashFree) : ∀ (n i : Nat) (b : β),
    (forN f i n b).HashFree
  | 0, _, _ => trivial
  | n + 1, i, b => (hf i b).bind (hashFree_forN hf n (i + 1))

theorem hashFree_forEach {γ : Type} {f : γ → β → Prog V K H β} (hf : ∀ x b, (f x b).HashFree) : ∀ (l : List γ) (b : β),
    (forEach f l b).HashFree
  | [], _ => trivial
  | x :: l, b => (hf x b).bind (hashFree_forEach hf l)

theorem hashes_forEach {γ : Type} {f : γ → β → Prog V K H β} (hf : ∀ x b, (f x b).Hashes 1) : ∀ (l : List γ) (b : β),
    (forEach f l b).Hashes l.length
  | [], _ => trivial
  | x :: l, b => by
    rw [List.length_cons, Nat.add_comm]
    exact (hf x b).bind (hashes_forEach hf l)

end Prog

/-! ## Another hash function -/

/-- The state that is left, if the program was not stopped by an error. -/
def Outcome.state : Outcome V K α → Option (St V K)
  | .failed | .collided => none
  | .finished s _ | .crashed s => some s

theorem Exec.seen_subset {p : Prog V K H α} {o : Outcome V K α} (he : Exec h s p o) (hs : o.state = some s') :
    s.seen ⊆ s'.seen := by
  induction he with
  | ret | readCrash | writeCrash | syncCrash =>
    cases hs
    exact List.Subset.refl _
  | read _ _ _ _ _ _ _ _ _ ih | write _ _ _ _ _ _ _ _ _ _ ih | sync _ _ _ _ _ _ ih => exact ih hs
  | hash _ _ _ _ _ _ _ _ ih => exact fun k hk => ih hs (List.mem_cons_of_mem _ hk)
  | readFail | writeFail | hashCollide => cases hs

/-- A run depends on the hashes of the keys that it saw. -/
theorem Exec.congr {p : Prog V K H α} {o : Outcome V K α} (he : Exec h s p o) (hs : o.state = some s')
    (heq : ∀ k ∈ s'.seen, h' k = h k) : Exec h' s p o := by
  induction he with
  | ret => exact .ret _ _
  | readCrash => exact .readCrash _ _ _
  | writeCrash => exact .writeCrash _ _ _ _
  | syncCrash => exact .syncCrash _ _
  | read _ _ _ _ _ _ hd hm _ ih => exact .read _ _ _ _ _ _ hd hm (ih hs)
  | write _ _ _ _ _ _ _ hd hm _ ih => exact .write _ _ _ _ _ _ _ hd hm (ih hs)
  | sync _ _ _ _ hm _ ih => exact .sync _ _ _ _ hm (ih hs)
  | hash s key k m o hsafe hm he ih =>
    have hseen := he.seen_subset hs
    have hkey : h' key = h key := heq key (hseen List.mem_cons_self)
    refine .hash _ _ _ _ _ (fun k hk h => hsafe k hk ?_) hm ?_
    · rw [← hkey, ← h, heq k (hseen (List.mem_cons_of_mem _ hk))]
    · rw [hkey]
      exact ih hs
  | readFail | writeFail | hashCollide => cases hs

/-! ## The choice -/

/-- No two of these keys have one hash. -/
def NoCollision (h : K → H) (seen : List K) : Prop := ∀ k ∈ seen, HashSafe h seen k

theorem noCollision_cons {key : K} {seen : List K} (ha : NoCollision h seen) (hkey : HashSafe h seen key) : NoCollision h (key :: seen) := by
  intro k hk k' hk' heq
  rcases List.mem_cons.1 hk with rfl | hmem
  · rcases List.mem_cons.1 hk' with rfl | hmem'
    · rfl
    · exact hkey k' hmem' heq
  · rcases List.mem_cons.1 hk' with rfl | hmem'
    · exact (hkey k hmem heq.symm).symm
    · exact ha k hmem k' hmem' heq

/-- A key can be hashed, if the function may be changed on keys that were not hashed before. -/
theorem exists_safe [Fintype H] {seen : List K} (ha : NoCollision h seen) (hlen : seen.length < Fintype.card H) (key : K) :
    ∃ h' : K → H, (∀ k ∈ seen, h' k = h k) ∧ HashSafe h' seen key ∧ NoCollision h' (key :: seen) := by
  classical
  by_cases hk : key ∈ seen
  · exact ⟨h, fun _ _ => rfl, ha key hk, noCollision_cons ha (ha key hk)⟩
  have hcard : (seen.map h).toFinset.card < (Finset.univ : Finset H).card :=
    Nat.lt_of_le_of_lt ((List.toFinset_card_le _).trans (List.length_map h).le) hlen
  obtain ⟨x, _, hx⟩ := Finset.exists_mem_notMem_of_card_lt_card hcard
  have hsame : ∀ k ∈ seen, Function.update h key x k = h k := fun k hmem =>
    Function.update_of_ne (fun heq => hk (by rwa [← heq])) _ _
  have hsafe : HashSafe (Function.update h key x) seen key := fun k hmem heq => by
    rw [hsame k hmem, Function.update_self] at heq
    exact absurd (List.mem_toFinset.2 (List.mem_map.2 ⟨k, hmem, heq⟩)) hx
  refine ⟨Function.update h key x, hsame, hsafe, noCollision_cons (fun k hmem k' hmem' heq => ?_) hsafe⟩
  rw [hsame k hmem, hsame k' hmem'] at heq
  exact ha k hmem k' hmem' heq

/-- A run that is not stopped by a collision or a crash, with what it sees. -/
structure Clear (h : K → H) (n : Nat) (s : St V K) (p : Prog V K H α) (o : Outcome V K α) : Prop where
  exec : Exec h s p o
  ends : o = .failed ∨ ∃ s' a, o = .finished s' a ∧ NoCollision h s'.seen ∧ s'.seen.length ≤ s.seen.length + n

theorem Clear.step {p p' : Prog V K H α} {m : RawDisk V} {o : Outcome V K α} (hc : Clear h n ⟨m, s.seen⟩ p o)
    (hp : Exec h ⟨m, s.seen⟩ p o → Exec h s p' o) : Clear h n s p' o := ⟨hp hc.exec, hc.ends⟩

/-- For some hash function there is no collision. -/
theorem exists_run [Fintype H] : ∀ {p : Prog V K H α} {n : Nat} {h : K → H} {s : St V K}, p.Hashes n → NoCollision h s.seen →
    s.seen.length + n ≤ Fintype.card H → ∃ h' : K → H, (∀ k ∈ s.seen, h' k = h k) ∧ ∃ o, Clear h' n s p o
  | .ret a, n, h, s, _, ha, _ => ⟨h, fun _ _ => rfl, _, .ret s a, .inr ⟨s, a, rfl, ha, Nat.le_add_right _ _⟩⟩
  | .read a k, n, h, s, hp, ha, hn => by
    cases hd : s.disk a with
    | none => exact ⟨h, fun _ _ => rfl, _, .readFail s a k hd, .inl rfl⟩
    | some vs =>
      obtain ⟨h', heq, o, hc⟩ := exists_run (s := s) (hp vs.1) ha hn
      exact ⟨h', heq, o, hc.step fun he => .read s a k vs _ o hd (.refl _) he⟩
  | .write a v k, n, h, s, hp, ha, hn => by
    cases hd : s.disk a with
    | none => exact ⟨h, fun _ _ => rfl, _, .writeFail s a v k hd, .inl rfl⟩
    | some vs =>
      obtain ⟨h', heq, o, hc⟩ := exists_run (p := k) (s := ⟨Function.update s.disk a (some (v, vsmerge vs)), s.seen⟩) hp ha hn
      exact ⟨h', heq, o, hc.step fun he => .write s a v k vs _ o hd (.refl _) he⟩
  | .sync k, n, h, s, hp, ha, hn => by
    obtain ⟨h', heq, o, hc⟩ := exists_run (p := k) (s := ⟨syncMem s.disk, s.seen⟩) hp ha hn
    exact ⟨h', heq, o, hc.step fun he => .sync s k _ o (.refl _) he⟩
  | .hash _ _, 0, _, _, hp, _, _ => hp.elim
  | .hash key k, n + 1, h, s, hp, ha, hn => by
    obtain ⟨h₁, heq₁, hsafe, ha₁⟩ := exists_safe ha (by omega) key
    obtain ⟨h', heq, o, hc⟩ := exists_run (p := k (h₁ key)) (s := ⟨s.disk, key :: s.seen⟩) (hp _) ha₁
      (by rw [List.length_cons]; omega)
    have hkey : h' key = h₁ key := heq key List.mem_cons_self
    have hseen : ∀ k ∈ s.seen, h' k = h₁ k := fun k hk => heq k (List.mem_cons_of_mem _ hk)
    refine ⟨h', fun k hk => (hseen k hk).trans (heq₁ k hk), o, .hash s key k _ o (fun k hk h => ?_) (.refl _) ?_, ?_⟩
    · rw [hseen k hk, hkey] at h
      exact hsafe k hk h
    · rw [hkey]
      exact hc.exec
    · rcases hc.ends with ho | ⟨s', a, ho, ha', hlen⟩
      · exact .inl ho
      · rw [List.length_cons] at hlen
        exact .inr ⟨s', a, ho, ha', by omega⟩

/-- For some hash function that agrees with `h` on the keys seen, it finishes, and it hashes at most `n` keys. -/
def Runs (h : K → H) (n : Nat) (s : St V K) (p : Prog V K H α) : Prop := ∃ h' : K → H, (∀ k ∈ s.seen, h' k = h k) ∧
  ∃ s' a, Exec h' s p (.finished s' a) ∧ NoCollision h' s'.seen ∧ s'.seen.length ≤ s.seen.length + n

section Rules

variable [Fintype H] {Q : (K → H) → α → St V K → Prop} {C : St V K → Prop} {p : Prog V K H α}
  (hw : ∀ h' : K → H, (∀ k ∈ s.seen, h' k = h k) → wp h' p (Q h') C s) (hp : p.Hashes n) (ha : NoCollision h s.seen)
include hw hp ha

theorem runs_of_hashes (hn : s.seen.length + n ≤ Fintype.card H) : Runs h n s p := by
  obtain ⟨h', heq, o, he, ho⟩ := exists_run hp ha hn
  have hall := wp_exec he (hw h' heq)
  rcases ho with rfl | ⟨s', a, rfl, ha', hlen⟩
  · exact hall.elim
  · exact ⟨h', heq, s', a, he, ha', hlen⟩

/-- What the first part ensures, it ensures for every function that agrees on what it saw. -/
theorem runs_seq {f : α → Prog V K H β} (hn : s.seen.length + n ≤ Fintype.card H)
    (hf : ∀ (h' : K → H) a s', (∀ h'' : K → H, (∀ k ∈ s'.seen, h'' k = h' k) → Q h'' a s') → NoCollision h' s'.seen →
      s'.seen.length ≤ s.seen.length + n → Runs h' m s' (f a)) : Runs h (n + m) s (p >>= f) := by
  obtain ⟨h₁, heq₁, s₁, a, he₁, ha₁, hlen₁⟩ := runs_of_hashes hw hp ha hn
  have hseen : s.seen ⊆ s₁.seen := he₁.seen_subset rfl
  have htrans : ∀ h₂ : K → H, (∀ k ∈ s₁.seen, h₂ k = h₁ k) → ∀ k ∈ s.seen, h₂ k = h k := fun h₂ heq k hk =>
    (heq k (hseen hk)).trans (heq₁ k hk)
  obtain ⟨h₂, heq₂, s₂, b, he₂, ha₂, hlen₂⟩ := hf h₁ a s₁
    (fun h₂ heq => wp_exec (he₁.congr rfl heq) (hw h₂ (htrans h₂ heq))) ha₁ hlen₁
  exact ⟨h₂, htrans h₂ heq₂, s₂, b, (he₁.congr rfl heq₂).bind rfl he₂, ha₂, by omega⟩

end Rules

/-- A program that does not hash sees no key. -/
theorem Prog.HashFree.seen_eq {p : Prog V K H α} {o : Outcome V K α} (hp : p.HashFree) (he : Exec h s p o)
    (hs : o.state = some s') : s'.seen = s.seen := by
  induction he with
  | ret | readCrash | writeCrash | syncCrash =>
    cases hs
    rfl
  | read _ _ _ _ _ _ _ _ _ ih => exact ih (hp _) hs
  | write _ _ _ _ _ _ _ _ _ _ ih | sync _ _ _ _ _ _ ih => exact ih hp hs
  | hash => exact hp.elim
  | readFail | writeFail | hashCollide => cases hs

/-- A sequence may crash before its first part does anything. -/
theorem crash_here {f : α → Prog V K H β} (hf : ∀ a, Exec h s (f a) (.crashed s)) : ∀ {p : Prog V K H α}, p.HashFree →
    Exec h s (p >>= f) (.crashed s)
  | .ret a, _ => hf a
  | .read a _, _ => .readCrash s a _
  | .write a v _, _ => .writeCrash s a v _
  | .sync _, _ => .syncCrash s _
  | .hash _ _, hp => hp.elim

end CrashLogic
