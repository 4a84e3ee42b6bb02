import Fscq.Crash.Prog

/-!
# Weakest preconditions with a crash condition

`wp h p Q C s` says that `p` run from `s` never touches a missing block, that it ends in a state with `Q` if it is
not interrupted, and that `C` holds at every point where it may crash; runs that meet a hash collision are not
constrained. The rules are the usual ones (`wp_bind`, `wp_mono`, the operations, loops with an invariant), and
`wp_exec` and `recover_exec` read a `wp` back as a statement about all runs, with any number of crashes.
-/

namespace CrashLogic

variable {V K H α β : Type} {h : K → H} {s : St V K}

def wp (h : K → H) : Prog V K H α → (α → St V K → Prop) → (St V K → Prop) → St V K → Prop
  | .ret a, Q, _, s => Q a s
  | .read a k, Q, C, s => C s ∧ ∃ vs, s.disk a = some vs ∧
      ∀ m, PossibleSync s.disk m → wp h (k vs.1) Q C ⟨m, s.seen⟩
  | .write a v k, Q, C, s => C s ∧ ∃ vs, s.disk a = some vs ∧
      ∀ m, PossibleSync (Function.update s.disk a (some (v, vsmerge vs))) m → wp h k Q C ⟨m, s.seen⟩
  | .sync k, Q, C, s => C s ∧ ∀ m, PossibleSync (syncMem s.disk) m → wp h k Q C ⟨m, s.seen⟩
  | .hash key k, Q, C, s => HashSafe h s.seen key →
      ∀ m, PossibleSync s.disk m → wp h (k (h key)) Q C ⟨m, key :: s.seen⟩

/-! ## Rules -/

@[simp] theorem wp_ret {a : α} {Q : α → St V K → Prop} {C : St V K → Prop} : wp h (.ret a) Q C s ↔ Q a s := Iff.rfl

@[simp] theorem wp_pure {a : α} {Q : α → St V K → Prop} {C : St V K → Prop} : wp h (pure a) Q C s ↔ Q a s := Iff.rfl

theorem wp_mono {Q Q' : α → St V K → Prop} {B C : St V K → Prop} (hQ : ∀ a s, Q a s → Q' a s)
    (hC : ∀ s, B s → C s) : ∀ (p : Prog V K H α) {s : St V K}, wp h p Q B s → wp h p Q' C s
  | .ret _, _, hw => hQ _ _ hw
  | .read _ _, _, ⟨hc, vs, hd, hk⟩ => ⟨hC _ hc, vs, hd, fun m hm => wp_mono hQ hC _ (hk m hm)⟩
  | .write _ _ _, _, ⟨hc, vs, hd, hk⟩ => ⟨hC _ hc, vs, hd, fun m hm => wp_mono hQ hC _ (hk m hm)⟩
  | .sync _, _, ⟨hc, hk⟩ => ⟨hC _ hc, fun m hm => wp_mono hQ hC _ (hk m hm)⟩
  | .hash _ _, _, hk => fun hs m hm => wp_mono hQ hC _ (hk hs m hm)

theorem wp_bind {f : α → Prog V K H β} {Q : β → St V K → Prop} {C : St V K → Prop} :
    ∀ (p : Prog V K H α) {s : St V K}, wp h p (fun a s => wp h (f a) Q C s) C s → wp h (p >>= f) Q C s
  | .ret _, _, hw => hw
  | .read _ _, _, ⟨hc, vs, hd, hk⟩ => ⟨hc, vs, hd, fun m hm => wp_bind _ (hk m hm)⟩
  | .write _ _ _, _, ⟨hc, vs, hd, hk⟩ => ⟨hc, vs, hd, fun m hm => wp_bind _ (hk m hm)⟩
  | .sync _, _, ⟨hc, hk⟩ => ⟨hc, fun m hm => wp_bind _ (hk m hm)⟩
  | .hash _ _, _, hk => fun hs m hm => wp_bind _ (hk hs m hm)

/-- Run the first part by its specification, then the rest. -/
theorem wp_seq {p : Prog V K H α} {f : α → Prog V K H β} {P : α → St V K → Prop} {Q : β → St V K → Prop}
    {B C : St V K → Prop} (hp : wp h p P B s) (hC : ∀ s, B s → C s)
    (hf : ∀ a s, P a s → wp h (f a) Q C s) : wp h (p >>= f) Q C s :=
  wp_bind p (wp_mono hf hC p hp)

theorem wp_map {p : Prog V K H α} {f : α → β} {Q : β → St V K → Prop} {C : St V K → Prop}
    (hp : wp h p (fun a s => Q (f a) s) C s) : wp h (f <$> p) Q C s :=
  wp_bind p hp

/-- Two facts about one run. -/
theorem wp_and {Q Q' : α → St V K → Prop} {B C : St V K → Prop} : ∀ {p : Prog V K H α} {s : St V K},
    wp h p Q C s → wp h p Q' B s → wp h p (fun a s => Q a s ∧ Q' a s) C s
  | .ret _, _, hw, hw' => ⟨hw, hw'⟩
  | .read _ _, _, ⟨hc, vs, hd, hk⟩, ⟨_, vs', hd', hk'⟩ => by
    cases hd.symm.trans hd'
    exact ⟨hc, vs, hd, fun m hm => wp_and (hk m hm) (hk' m hm)⟩
  | .write _ _ _, _, ⟨hc, vs, hd, hk⟩, ⟨_, vs', hd', hk'⟩ => by
    cases hd.symm.trans hd'
    exact ⟨hc, vs, hd, fun m hm => wp_and (hk m hm) (hk' m hm)⟩
  | .sync _, _, ⟨hc, hk⟩, ⟨_, hk'⟩ => ⟨hc, fun m hm => wp_and (hk m hm) (hk' m hm)⟩
  | .hash _ _, _, hk, hk' => fun hs m hm => wp_and (hk hs m hm) (hk' hs m hm)

/-- Every step of a loop keeps the invariant, so the loop does. -/
theorem wp_forN {f : Nat → β → Prog V K H β} {I : Nat → β → St V K → Prop} {C : St V K → Prop} :
    ∀ (n i : Nat) {l : β} {s : St V K}, (∀ j l s, i ≤ j → j < i + n → I j l s → wp h (f j l) (I (j + 1)) C s) →
      I i l s → wp h (Prog.forN f i n l) (I (i + n)) C s
  | 0, _, _, _, _, hi => hi
  | n + 1, i, l, s, hf, hi => by
    refine wp_seq (hf i l s (Nat.le_refl _) (by omega) hi) (fun _ hc => hc) fun l' s' hi' => ?_
    have hrest := wp_forN n (i + 1) (fun j l s h₁ h₂ => hf j l s (by omega) (by omega)) hi'
    rwa [show i + 1 + n = i + (n + 1) by omega] at hrest

theorem wp_forEach {γ : Type} {f : γ → β → Prog V K H β} {I : List γ → β → St V K → Prop} {C : St V K → Prop} :
    ∀ (xs : List γ) {l : β} {s : St V K},
      (∀ x rest l s, (x :: rest) <:+ xs → I (x :: rest) l s → wp h (f x l) (I rest) C s) →
      I xs l s → wp h (Prog.forEach f xs l) (I []) C s
  | [], _, _, _, hi => hi
  | x :: xs, l, s, hf, hi => by
    refine wp_seq (hf x xs l s (List.suffix_refl _) hi) (fun _ hc => hc) fun l' s' hi' => ?_
    exact wp_forEach xs (fun y rest l s hsub => hf y rest l s (hsub.trans (List.suffix_cons _ _))) hi'

/-! ## What a weakest precondition says about runs -/

/-- The outcomes that `wp h p Q C s` allows. -/
def Allowed (Q : α → St V K → Prop) (C : St V K → Prop) : Outcome V K α → Prop
  | .failed => False
  | .collided => True
  | .finished s a => Q a s
  | .crashed s => C s

theorem wp_exec {Q : α → St V K → Prop} {C : St V K → Prop} {p : Prog V K H α} {o : Outcome V K α}
    (he : Exec h s p o) (hw : wp h p Q C s) : Allowed Q C o := by
  induction he with
  | ret s a => exact hw
  | read s a k vs m o hd hm _ ih =>
    obtain ⟨_, vs', hd', hk⟩ := hw
    cases hd.symm.trans hd'
    exact ih (hk m hm)
  | readFail s a k hd =>
    obtain ⟨_, vs', hd', _⟩ := hw
    cases hd.symm.trans hd'
  | readCrash s a k => exact hw.1
  | write s a v k vs m o hd hm _ ih =>
    obtain ⟨_, vs', hd', hk⟩ := hw
    cases hd.symm.trans hd'
    exact ih (hk m hm)
  | writeFail s a v k hd =>
    obtain ⟨_, vs', hd', _⟩ := hw
    cases hd.symm.trans hd'
  | writeCrash s a v k => exact hw.1
  | sync s k m o hm _ ih => exact ih (hw.2 m hm)
  | syncCrash s k => exact hw.1
  | hash s key k m o hs hm _ ih => exact ih (hw hs m hm)
  | hashCollide s key k _ => trivial

/-- A program that never hashes. -/
def Prog.HashFree : Prog V K H α → Prop
  | .ret _ => True
  | .read _ k => ∀ v, (k v).HashFree
  | .write _ _ k => k.HashFree
  | .sync k => k.HashFree
  | .hash _ _ => False

theorem Prog.HashFree.bind {f : α → Prog V K H β} (hf : ∀ a, (f a).HashFree) : ∀ {p : Prog V K H α}, p.HashFree →
    (p >>= f).HashFree
  | .ret a, _ => hf a
  | .read _ k, hp => fun v => Prog.HashFree.bind hf (p := k v) (hp v)
  | .write _ _ k, hp => Prog.HashFree.bind hf (p := k) hp
  | .sync k, hp => Prog.HashFree.bind hf (p := k) hp

theorem Prog.HashFree.not_collided {p : Prog V K H α} {o : Outcome V K α} (hp : p.HashFree) (he : Exec h s p o) :
    o ≠ .collided := by
  induction he with
  | ret s a => exact nofun
  | read s a k vs m o _ _ _ ih => exact ih (hp _)
  | readFail s a k _ => exact nofun
  | readCrash s a k => exact nofun
  | write s a v k vs m o _ _ _ ih => exact ih hp
  | writeFail s a v k _ => exact nofun
  | writeCrash s a v k => exact nofun
  | sync s k m o _ _ ih => exact ih hp
  | syncCrash s k => exact nofun
  | hash s key k m o _ _ _ _ => exact hp.elim
  | hashCollide s key k _ => exact hp.elim

/-- It has a run that finishes. -/
theorem Exec.finishes {Q : α → St V K → Prop} {C : St V K → Prop} {p : Prog V K H α} (hp : p.HashFree) (hw : wp h p Q C s) :
    ∃ s' a, Exec h s p (.finished s' a) ∧ Q a s' := by
  obtain ⟨o, ho, hc⟩ := Exec.total h p s
  cases o with
  | failed => exact (wp_exec ho hw).elim
  | collided => exact absurd rfl (hp.not_collided ho)
  | finished s' a => exact ⟨s', a, ho, wp_exec ho hw⟩
  | crashed s' => exact absurd rfl (hc s')

/-- Recovery works from every state that satisfies `R`, and its own crashes lead back to such states. -/
def Recovers (h : K → H) (rec : Prog V K H β) (Q : β → St V K → Prop) (R : St V K → Prop) : Prop :=
  ∀ s, R s → wp h rec Q (fun s => ∀ m, PossibleCrash s.disk m → R ⟨m, s.seen⟩) s

/-- A program whose crashes lead to states that the recovery program handles: every run, with any number of crashes,
ends well. -/
theorem recover_exec {rec : Prog V K H β} {Q' : β → St V K → Prop} {R : St V K → Prop}
    (hr : Recovers h rec Q' R) {Q : α → St V K → Prop} {p : Prog V K H α} {o : Outcome V K (α ⊕ β)}
    (he : ExecRecover h rec s p o) (hw : wp h p Q (fun s => ∀ m, PossibleCrash s.disk m → R ⟨m, s.seen⟩) s) :
    Allowed (fun r s => r.elim (Q · s) (Q' · s)) (fun _ => False) o := by
  induction he with
  | failed s p hp => exact (wp_exec hp hw).elim
  | collided s p _ => trivial
  | finished s p s' a hp => exact (show Q a s' from wp_exec hp hw)
  | crashFailed s p s' m hp hm _ ih =>
    have hR : ∀ m, PossibleCrash s'.disk m → R ⟨m, s'.seen⟩ := wp_exec hp hw
    exact (ih (hr _ (hR m hm))).elim
  | crashCollided s p s' m _ _ _ _ => trivial
  | crashFinished s p s' m s'' r hp hm _ ih =>
    have hR : ∀ m, PossibleCrash s'.disk m → R ⟨m, s'.seen⟩ := wp_exec hp hw
    have hrec := ih (hr _ (hR m hm))
    cases r <;> exact hrec

end CrashLogic
