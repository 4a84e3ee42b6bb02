import Mathlib.Algebra.Group.Int.Defs
import Mathlib.Algebra.Group.Nat.Defs
import Mathlib.Data.List.Basic
import Mathlib.Logic.Function.Basic
import Mathlib.Tactic.Common

/-!
# Bodies of transactions

`Body V α` are the programs that read and write blocks of one logical disk; nothing they do is visible before the
transaction commits, so they need no crash condition. `run` is what a body computes, and `twp n p Q d` says that `p` run
from `d` stays inside the disk (addresses below `n`, and block 0 is never written) and ends with `Q`. A disk also says
which blocks are plain, that is, have no older value that a crash could bring back: what a transaction writes is.
-/

namespace TxnLogic

variable {V α β : Type}

structure Disk (V : Type) where
  val : Nat → V
  plain : Nat → Prop

namespace Disk

instance : CoeFun (Disk V) fun _ => Nat → V := ⟨val⟩

def set (d : Disk V) (a : Nat) (v : V) : Disk V := ⟨Function.update d.val a v, fun b => b = a ∨ d.plain b⟩

@[simp] theorem set_self (d : Disk V) (a : Nat) (v : V) : d.set a v a = v := Function.update_self _ _ _

theorem set_of_ne {a b : Nat} (h : b ≠ a) (d : Disk V) (v : V) : d.set a v b = d b := Function.update_of_ne h _ _

@[simp] theorem plain_set {d : Disk V} {a b : Nat} {v : V} : (d.set a v).plain b ↔ b = a ∨ d.plain b := Iff.rfl

theorem ext {d d' : Disk V} (hval : ∀ a, d a = d' a) (hplain : ∀ a, d.plain a ↔ d'.plain a) : d = d' := by
  obtain ⟨_, _⟩ := d
  obtain rfl := funext hval
  obtain rfl := funext fun a => propext (hplain a)
  rfl

theorem set_set (d : Disk V) (a : Nat) (v v' : V) : (d.set a v).set a v' = d.set a v' := by
  simp [set]

end Disk

inductive Body (V : Type) (α : Type) : Type
  | ret (a : α)
  | read (a : Nat) (k : V → Body V α)
  | write (a : Nat) (v : V) (k : Body V α)

namespace Body

def bind : Body V α → (α → Body V β) → Body V β
  | ret a, f => f a
  | read a k, f => read a fun v => (k v).bind f
  | write a v k, f => write a v (k.bind f)

instance : Monad (Body V) where
  pure := ret
  bind := bind

@[simp] theorem pure_eq (a : α) : (pure a : Body V α) = ret a := rfl

@[simp] theorem ret_bind (a : α) (f : α → Body V β) : ret a >>= f = f a := rfl

theorem bind_assoc {γ : Type} (f : α → Body V β) (g : β → Body V γ) : ∀ p : Body V α,
    p >>= f >>= g = p >>= fun a => f a >>= g
  | ret _ => rfl
  | read a k => congrArg (read a) (funext fun v => bind_assoc f g (k v))
  | write a v k => congrArg (write a v) (bind_assoc f g k)

/-! ### The operations, and loops -/

def readAt (a : Nat) : Body V V := read a ret

def writeAt (a : Nat) (v : V) : Body V Unit := write a v (ret ())

/-- `for i = i, ..., i + n - 1` with a loop variable. -/
def forN (f : Nat → β → Body V β) : Nat → Nat → β → Body V β
  | _, 0, l => ret l
  | i, n + 1, l => do
    let l' ← f i l
    forN f (i + 1) n l'

/-- A loop over the elements of a list with a loop variable. -/
def forEach {γ : Type} (f : γ → β → Body V β) : List γ → β → Body V β
  | [], l => ret l
  | x :: xs, l => do
    let l' ← f x l
    forEach f xs l'

def run : Body V α → Disk V → α × Disk V
  | ret a, d => (a, d)
  | read a k, d => (k (d a)).run d
  | write a v k, d => k.run (d.set a v)

end Body

/-! ## Weakest preconditions -/

def twp (n : Nat) : Body V α → (α → Disk V → Prop) → Disk V → Prop
  | .ret a, Q, d => Q a d
  | .read a k, Q, d => a < n ∧ twp n (k (d a)) Q d
  | .write a v k, Q, d => a ≠ 0 ∧ a < n ∧ twp n k Q (d.set a v)

variable {n : Nat} {d : Disk V} {Q : α → Disk V → Prop}

@[simp] theorem twp_ret {a : α} : twp n (.ret a) Q d ↔ Q a d := Iff.rfl

@[simp] theorem twp_pure {a : α} : twp n (pure a) Q d ↔ Q a d := Iff.rfl

theorem twp_readAt {Q : V → Disk V → Prop} {a : Nat} (ha : a < n) (hQ : Q (d a) d) : twp n (.readAt a) Q d := ⟨ha, hQ⟩

theorem twp_writeAt {Q : Unit → Disk V → Prop} {a : Nat} {v : V} (ha : a < n) (h0 : a ≠ 0)
    (hQ : Q () (d.set a v)) : twp n (.writeAt a v) Q d := ⟨h0, ha, hQ⟩

theorem twp_mono {Q' : α → Disk V → Prop} (hQ : ∀ a d, Q a d → Q' a d) : ∀ (p : Body V α) {d : Disk V},
    twp n p Q d → twp n p Q' d
  | .ret _, _, hw => hQ _ _ hw
  | .read _ _, _, ⟨ha, hk⟩ => ⟨ha, twp_mono hQ _ hk⟩
  | .write _ _ _, _, ⟨h0, ha, hk⟩ => ⟨h0, ha, twp_mono hQ _ hk⟩

theorem twp_bind {f : α → Body V β} {Q : β → Disk V → Prop} : ∀ (p : Body V α) {d : Disk V},
    twp n p (fun a d => twp n (f a) Q d) d → twp n (p >>= f) Q d
  | .ret _, _, hw => hw
  | .read _ _, _, ⟨ha, hk⟩ => ⟨ha, twp_bind _ hk⟩
  | .write _ _ _, _, ⟨h0, ha, hk⟩ => ⟨h0, ha, twp_bind _ hk⟩

/-- Run the first part by its specification, then the rest. -/
theorem twp_seq {p : Body V α} {f : α → Body V β} {P : α → Disk V → Prop} {Q : β → Disk V → Prop}
    (hp : twp n p P d) (hf : ∀ a d, P a d → twp n (f a) Q d) : twp n (p >>= f) Q d :=
  twp_bind p (twp_mono hf p hp)

/-- Every step of a loop keeps the invariant, so the loop does. -/
theorem twp_forN {f : Nat → β → Body V β} {I : Nat → β → Disk V → Prop} : ∀ (m i : Nat) {l : β} {d : Disk V},
    (∀ j l d, i ≤ j → j < i + m → I j l d → twp n (f j l) (I (j + 1)) d) → I i l d →
      twp n (Body.forN f i m l) (I (i + m)) d
  | 0, _, _, _, _, hi => hi
  | m + 1, i, l, d, hf, hi => by
    refine twp_seq (hf i l d (Nat.le_refl _) (by omega) hi) fun l' d' hi' => ?_
    have hrest := twp_forN m (i + 1) (fun j l d h₁ h₂ => hf j l d (by omega) (by omega)) hi'
    rwa [show i + 1 + m = i + (m + 1) by omega] at hrest

theorem twp_forEach {γ : Type} {f : γ → β → Body V β} {I : List γ → β → Disk V → Prop} :
    ∀ (xs : List γ) {l : β} {d : Disk V},
      (∀ x rest l d, (x :: rest) <:+ xs → I (x :: rest) l d → twp n (f x l) (I rest) d) →
      I xs l d → twp n (Body.forEach f xs l) (I []) d
  | [], _, _, _, hi => hi
  | x :: xs, l, d, hf, hi => by
    refine twp_seq (hf x xs l d (List.suffix_refl _) hi) fun l' d' hi' => ?_
    exact twp_forEach xs (fun y rest l d hsub => hf y rest l d (hsub.trans (List.suffix_cons _ _))) hi'

/-- What a body computes satisfies its weakest precondition. -/
theorem twp_run : ∀ {p : Body V α} {d : Disk V}, twp n p Q d → Q (p.run d).1 (p.run d).2
  | .ret _, _, hw => hw
  | .read a k, d, ⟨_, hk⟩ => twp_run (p := k (d a)) hk
  | .write _ _ k, _, ⟨_, _, hk⟩ => twp_run (p := k) hk

/-- Two facts about one run. -/
theorem twp_and {Q' : α → Disk V → Prop} : ∀ {p : Body V α} {d : Disk V}, twp n p Q d → twp n p Q' d →
    twp n p (fun a d => Q a d ∧ Q' a d) d
  | .ret _, _, h, h' => ⟨h, h'⟩
  | .read a k, d, ⟨ha, hk⟩, ⟨_, hk'⟩ => ⟨ha, twp_and (p := k (d a)) hk hk'⟩
  | .write _ _ k, _, ⟨h0, ha, hk⟩, ⟨_, _, hk'⟩ => ⟨h0, ha, twp_and (p := k) hk hk'⟩

/-- Many facts about one run. -/
theorem twp_forall {ι : Type} [Nonempty ι] {Q : ι → α → Disk V → Prop} : ∀ {p : Body V α} {d : Disk V},
    (∀ x, twp n p (Q x) d) → twp n p (fun a d => ∀ x, Q x a d) d
  | .ret _, _, h => h
  | .read a k, d, h => ⟨(h (Classical.arbitrary ι)).1, twp_forall (p := k (d a)) fun x => (h x).2⟩
  | .write _ _ k, _, h =>
    ⟨(h (Classical.arbitrary ι)).1, (h (Classical.arbitrary ι)).2.1, twp_forall (p := k) fun x => (h x).2.2⟩

/-- Nothing outside the disk changes. -/
theorem run_above : ∀ {p : Body V α} {d : Disk V}, twp n p Q d → ∀ b, n ≤ b → (p.run d).2 b = d b
  | .ret _, _, _, _, _ => rfl
  | .read a k, d, ⟨_, hk⟩, b, hb => run_above (p := k (d a)) hk b hb
  | .write a v k, d, ⟨_, ha, hk⟩, b, hb => by
    rw [Body.run, run_above hk b hb, Disk.set_of_ne (by omega)]

/-- Plain blocks stay plain, and what is changed is plain. -/
theorem twp_plain : ∀ {p : Body V α} {d : Disk V}, twp n p Q d →
    twp n p (fun a d' => Q a d' ∧ ∀ b, d.plain b ∨ d' b ≠ d b → d'.plain b) d
  | .ret _, _, hw => ⟨hw, fun _ h => h.elim id fun hne => absurd rfl hne⟩
  | .read a k, d, ⟨ha, hk⟩ => ⟨ha, twp_plain (p := k (d a)) hk⟩
  | .write a v k, d, ⟨h0, ha, hk⟩ => by
    refine ⟨h0, ha, twp_mono (fun r d' ⟨hq, hp⟩ => ⟨hq, fun b hb => hp b ?_⟩) _ (twp_plain (p := k) hk)⟩
    by_cases hba : b = a
    · exact .inl (.inl hba)
    · rw [Disk.set_of_ne hba]
      exact hb.imp .inr id

/-! ## What a body returns whatever it reads -/

/-- Every result satisfies `P`, whatever the disk holds. -/
def Always (P : α → Prop) : Body V α → Prop
  | .ret a => P a
  | .read _ k => ∀ v, Always P (k v)
  | .write _ _ k => Always P k

section Always

variable {P P' : α → Prop} {R : β → Prop}

@[simp] theorem always_ret {a : α} : Always P (.ret a : Body V α) ↔ P a := Iff.rfl

@[simp] theorem always_pure {a : α} : Always P (pure a : Body V α) ↔ P a := Iff.rfl

theorem always_of_forall (h : ∀ a, P a) : ∀ p : Body V α, Always P p
  | .ret a => h a
  | .read _ k => fun v => always_of_forall h (k v)
  | .write _ _ k => always_of_forall h k

theorem always_mono (hP : ∀ a, P a → P' a) : ∀ {p : Body V α}, Always P p → Always P' p
  | .ret a, hp => hP a hp
  | .read _ k, hp => fun v => always_mono hP (p := k v) (hp v)
  | .write _ _ k, hp => always_mono hP (p := k) hp

theorem always_seq {f : α → Body V β} : ∀ {p : Body V α}, Always P p → (∀ a, P a → Always R (f a)) → Always R (p >>= f)
  | .ret a, hp, hf => hf a hp
  | .read _ k, hp, hf => fun v => always_seq (p := k v) (hp v) hf
  | .write _ _ k, hp, hf => always_seq (p := k) hp hf

/-- Nothing is known about the first part. -/
theorem always_after {f : α → Body V β} (p : Body V α) (hf : ∀ a, Always R (f a)) : Always R (p >>= f) :=
  always_seq (always_of_forall (P := fun _ => True) (fun _ => trivial) p) fun a _ => hf a

theorem always_ite {c : Prop} [Decidable c] {p q : Body V α} (hp : c → Always P p) (hq : ¬ c → Always P q) :
    Always P (if c then p else q) := by
  split
  · exact hp ‹_›
  · exact hq ‹_›

/-- Every step of a loop keeps a property of its variable. -/
theorem always_forN {f : Nat → β → Body V β} (hf : ∀ i l, R l → Always R (f i l)) : ∀ (m i : Nat) {l : β}, R l →
    Always R (Body.forN f i m l)
  | 0, _, _, hl => hl
  | m + 1, i, l, hl => always_seq (hf i l hl) fun _ hl' => always_forN hf m (i + 1) hl'

theorem always_forEach {γ : Type} {f : γ → β → Body V β} (hf : ∀ x l, R l → Always R (f x l)) : ∀ (xs : List γ) {l : β},
    R l → Always R (Body.forEach f xs l)
  | [], _, hl => hl
  | x :: xs, l, hl => always_seq (hf x l hl) fun _ hl' => always_forEach hf xs hl'

theorem twp_always {n : Nat} {Q : α → Disk V → Prop} : ∀ {p : Body V α} {d : Disk V}, twp n p Q d → Always P p →
    twp n p (fun a d => Q a d ∧ P a) d
  | .ret _, _, hw, hp => ⟨hw, hp⟩
  | .read a k, d, ⟨ha, hk⟩, hp => ⟨ha, twp_always (p := k (d a)) hk (hp (d a))⟩
  | .write _ _ k, _, ⟨h0, ha, hk⟩, hp => ⟨h0, ha, twp_always (p := k) hk hp⟩

end Always

end TxnLogic
