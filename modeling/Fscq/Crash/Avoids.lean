import Fscq.Crash.Wp

/-!
# Programs that leave a block alone

`p.Avoids z b P` says that `p` never writes block `z`, whatever it hashes and reads, if it reads `b` there, and that its
result has `P`. A block with the only possible value `b` then keeps it in every run, at every crash, and through recoveries
(`Avoids.exec`, `wp_avoids`).
-/

namespace CrashLogic

variable {V K H α β : Type} {z : Nat}

def Prog.Avoids (z : Nat) (b : V) (P : α → Prop) : Prog V K H α → Prop
  | .ret a => P a
  | .read a k => ∀ v, (a = z → v = b) → (k v).Avoids z b P
  | .write a _ k => a ≠ z ∧ k.Avoids z b P
  | .sync k => k.Avoids z b P
  | .hash _ k => ∀ x, (k x).Avoids z b P

namespace Prog

variable {b : V} {P : α → Prop} {Q : β → Prop}

theorem Avoids.mono {P' : α → Prop} (hP : ∀ a, P a → P' a) : ∀ {p : Prog V K H α}, p.Avoids z b P → p.Avoids z b P'
  | .ret _, hp => hP _ hp
  | .read _ k, hp => fun v hv => Avoids.mono hP (p := k v) (hp v hv)
  | .write _ _ k, hp => ⟨hp.1, Avoids.mono hP (p := k) hp.2⟩
  | .sync k, hp => Avoids.mono hP (p := k) hp
  | .hash _ k, hp => fun x => Avoids.mono hP (p := k x) (hp x)

theorem Avoids.seq {f : α → Prog V K H β} : ∀ {p : Prog V K H α}, p.Avoids z b P → (∀ a, P a → (f a).Avoids z b Q) →
    (p >>= f).Avoids z b Q
  | .ret a, hp, hf => hf a hp
  | .read _ k, hp, hf => fun v hv => Avoids.seq (p := k v) (hp v hv) hf
  | .write _ _ k, hp, hf => ⟨hp.1, Avoids.seq (p := k) hp.2 hf⟩
  | .sync k, hp, hf => Avoids.seq (p := k) hp hf
  | .hash _ k, hp, hf => fun x => Avoids.seq (p := k x) (hp x) hf

theorem avoids_forN {f : Nat → β → Prog V K H β} (hf : ∀ i l, Q l → (f i l).Avoids z b Q) : ∀ (n i : Nat) {l : β}, Q l →
    (forN f i n l).Avoids z b Q
  | 0, _, _, hl => hl
  | n + 1, i, l, hl => (hf i l hl).seq fun _ hl' => avoids_forN hf n (i + 1) hl'

theorem avoids_forEach {γ : Type} {f : γ → β → Prog V K H β} (hf : ∀ x l, Q l → (f x l).Avoids z b Q) :
    ∀ (xs : List γ) {l : β}, Q l → (forEach f xs l).Avoids z b Q
  | [], _, hl => hl
  | x :: xs, l, hl => (hf x l hl).seq fun _ hl' => avoids_forEach hf xs hl'

end Prog

/-! ## The block keeps its value -/

variable {h : K → H} {b : V}

/-- The block has one possible value. -/
def OnlyAt (m : RawDisk V) (z : Nat) (b : V) : Prop := ∃ l, m z = some (b, l) ∧ ∀ w ∈ l, w = b

theorem PossibleSync.only {m m' : RawDisk V} (hs : PossibleSync m m') (hm : OnlyAt m z b) : OnlyAt m' z b := by
  obtain ⟨old, hz, hb⟩ := hm
  rcases hs z with ⟨h0, _⟩ | ⟨w, l, l', h₁, h₂, hsub⟩
  · cases hz.symm.trans h0
  · cases hz.symm.trans h₁
    exact ⟨l', h₂, fun x hx => hb x (hsub hx)⟩

theorem PossibleCrash.only {m m' : RawDisk V} (hc : PossibleCrash m m') (hm : OnlyAt m z b) : OnlyAt m' z b := by
  obtain ⟨old, hz, hb⟩ := hm
  rcases hc z with ⟨h0, _⟩ | ⟨vs, w, h₁, h₂, hw⟩
  · cases hz.symm.trans h0
  · cases hz.symm.trans h₁
    have hwb : w = b := (List.mem_cons.1 hw).elim id (hb w)
    subst hwb
    exact ⟨[], h₂, fun x hx => nomatch hx⟩

theorem OnlyAt.sync {m : RawDisk V} (hm : OnlyAt m z b) : OnlyAt (syncMem m) z b := by
  obtain ⟨old, hz, _⟩ := hm
  exact ⟨[], by rw [syncMem, hz]; rfl, fun x hx => nomatch hx⟩

/-- Wherever the run ends, the block has its only value, and a result has `P`. -/
def Only (z : Nat) (b : V) (P : α → Prop) : Outcome V K α → Prop
  | .finished s a => OnlyAt s.disk z b ∧ P a
  | .crashed s => OnlyAt s.disk z b
  | _ => True

theorem Prog.Avoids.exec {P : α → Prop} {s : St V K} {p : Prog V K H α} {o : Outcome V K α} (hp : p.Avoids z b P)
    (he : Exec h s p o) (hz : OnlyAt s.disk z b) : Only z b P o := by
  induction he with
  | ret s a => exact ⟨hz, hp⟩
  | read s a k vs m o hd hm _ ih =>
    refine ih (hp _ fun ha => ?_) (hm.only hz)
    subst ha
    obtain ⟨l, hl, _⟩ := hz
    rw [Option.some_inj.1 (hd.symm.trans hl)]
  | readFail s a k _ => trivial
  | readCrash s a k => exact hz
  | write s a w k vs m o _ hm _ ih =>
    obtain ⟨l, hl, hb⟩ := hz
    exact ih hp.2 (hm.only ⟨l, by rw [Function.update_of_ne hp.1.symm, hl], hb⟩)
  | writeFail s a w k _ => trivial
  | writeCrash s a w k => exact hz
  | sync s k m o hm _ ih => exact ih hp (hm.only hz.sync)
  | syncCrash s k => exact hz
  | hash s key k m o _ hm _ ih => exact ih (hp _) (hm.only hz)
  | hashCollide s key k _ => trivial

/-- The block has its value after a run with a specification, and at every point where it may crash. -/
theorem wp_avoids {P : α → Prop} {Q : α → St V K → Prop} {C : St V K → Prop} : ∀ {p : Prog V K H α} {s : St V K},
    p.Avoids z b P → OnlyAt s.disk z b → wp h p Q C s →
    wp h p (fun a s' => Q a s' ∧ OnlyAt s'.disk z b ∧ P a) (fun s' => C s' ∧ OnlyAt s'.disk z b) s
  | .ret _, _, hp, hz, hw => ⟨hw, hz, hp⟩
  | .read a k, s, hp, hz, ⟨hc, vs, hd, hk⟩ => by
    refine ⟨⟨hc, hz⟩, vs, hd, fun m hm => wp_avoids (p := k vs.1) (hp _ fun ha => ?_) (hm.only hz) (hk m hm)⟩
    subst ha
    obtain ⟨l, hl, _⟩ := hz
    rw [Option.some_inj.1 (hd.symm.trans hl)]
  | .write a w k, s, hp, hz, ⟨hc, vs, hd, hk⟩ => by
    refine ⟨⟨hc, hz⟩, vs, hd, fun m hm => wp_avoids (p := k) hp.2 (hm.only ?_) (hk m hm)⟩
    obtain ⟨l, hl, hb⟩ := hz
    exact ⟨l, by rw [Function.update_of_ne hp.1.symm, hl], hb⟩
  | .sync k, s, hp, hz, ⟨hc, hk⟩ => ⟨⟨hc, hz⟩, fun m hm => wp_avoids (p := k) hp (hm.only hz.sync) (hk m hm)⟩
  | .hash key k, s, hp, hz, hk => fun hs m hm => wp_avoids (p := k (h key)) (hp _) (hm.only hz) (hk hs m hm)

end CrashLogic
