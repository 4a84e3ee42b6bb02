import Fscq.Txn.Body

/-!
# Two bodies that do the same

`Agree R p q d` says that `p` and `q`, run from `d`, leave one disk, and that `R` relates their results on it. Two bodies
are compared one step at a time (`agree_seq`): where they call one program with the same arguments the results are equal,
and where they read the disk the specifications say what is read.
-/

namespace TxnLogic

variable {V α β γ δ : Type}

theorem Body.run_bind (f : α → Body V β) : ∀ (p : Body V α) (d : Disk V),
    (p >>= f).run d = (f (p.run d).1).run (p.run d).2
  | .ret _, _ => rfl
  | .read a k, d => run_bind f (k (d a)) d
  | .write a v k, d => run_bind f k (d.set a v)

def Agree (R : α → β → Disk V → Prop) (p : Body V α) (q : Body V β) (d : Disk V) : Prop :=
  R (p.run d).1 (q.run d).1 (p.run d).2 ∧ (q.run d).2 = (p.run d).2

variable {n : Nat} {d : Disk V} {p : Body V α} {q : Body V β} {R : α → β → Disk V → Prop}

theorem agree_ret {a : α} {b : β} (h : R a b d) : Agree R (.ret a) (.ret b) d := ⟨h, rfl⟩

theorem agree_refl (p : Body V α) (d : Disk V) : Agree (fun a b _ => a = b) p p d := ⟨rfl, rfl⟩

theorem agree_mono {R' : α → β → Disk V → Prop} (hR : ∀ a b d, R a b d → R' a b d) (h : Agree R p q d) : Agree R' p q d :=
  ⟨hR _ _ _ h.1, h.2⟩

/-- Compare the first parts, then the rest. -/
theorem agree_seq {f : α → Body V γ} {g : β → Body V δ} {S : γ → δ → Disk V → Prop} (h : Agree R p q d)
    (hfg : ∀ a b d, R a b d → Agree S (f a) (g b) d) : Agree S (p >>= f) (q >>= g) d := by
  obtain ⟨hr, hd⟩ := h
  have hrest := hfg _ _ _ hr
  rw [Agree, Body.run_bind, Body.run_bind, hd]
  exact hrest

/-- What the first body does. -/
theorem agree_twp {P : α → Disk V → Prop} (h : Agree R p q d) (hp : twp n p P d) :
    Agree (fun a b d => R a b d ∧ P a d) p q d := ⟨⟨h.1, twp_run hp⟩, h.2⟩

/-- What both bodies do. -/
theorem agree_twp₂ {P : α → Disk V → Prop} {Q : β → Disk V → Prop} (h : Agree R p q d) (hp : twp n p P d) (hq : twp n q Q d) :
    Agree (fun a b d => R a b d ∧ P a d ∧ Q b d) p q d := by
  have hrun := twp_run hq
  rw [h.2] at hrun
  exact ⟨⟨h.1, twp_run hp, hrun⟩, h.2⟩

/-- Two bodies that only read. -/
theorem agree_read {P : α → Prop} {Q : β → Prop} (hp : twp n p (fun a d' => d' = d ∧ P a) d)
    (hq : twp n q (fun b d' => d' = d ∧ Q b) d) : Agree (fun a b d' => d' = d ∧ P a ∧ Q b) p q d := by
  obtain ⟨hpd, hpa⟩ := twp_run hp
  obtain ⟨hqd, hqb⟩ := twp_run hq
  exact ⟨⟨hpd, hpa, hqb⟩, hqd.trans hpd.symm⟩

/-- The first body reads something that the second one does not need. -/
theorem agree_left {f : α → Body V γ} {S : γ → β → Disk V → Prop} {P : α → Prop} (hp : twp n p (fun a d' => d' = d ∧ P a) d)
    (h : ∀ a, P a → Agree S (f a) q d) : Agree S (p >>= f) q d := by
  obtain ⟨hd, ha⟩ := twp_run hp
  have hrest := h _ ha
  rw [Agree, Body.run_bind, hd]
  exact hrest

/-- The second body adds to its result. -/
theorem agree_right {g : β → δ} {S : α → δ → Disk V → Prop} (h : Agree (fun a b d => S a (g b) d) p q d) :
    Agree S p (q >>= fun b => pure (g b)) d := by
  rw [Agree, Body.run_bind]
  exact h

end TxnLogic
