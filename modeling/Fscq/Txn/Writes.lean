import Fscq.Txn.Body

/-!
# What a body has written

`Writes P p W` says that `p`, run after the addresses in `W` were written, returns only results that satisfy `P` together with
the addresses that are written by then, whatever it reads. What was written is plain (`twp_writes`).
-/

namespace TxnLogic

variable {V α β : Type}

def Writes (P : (Nat → Prop) → α → Prop) : Body V α → (Nat → Prop) → Prop
  | .ret a, W => P W a
  | .read _ k, W => ∀ v, Writes P (k v) W
  | .write a _ k, W => Writes P k fun b => b = a ∨ W b

section Rules

variable {P : (Nat → Prop) → α → Prop} {R : (Nat → Prop) → β → Prop} {W : Nat → Prop}

@[simp] theorem writes_ret {a : α} : Writes P (.ret a : Body V α) W ↔ P W a := Iff.rfl

@[simp] theorem writes_pure {a : α} : Writes P (pure a : Body V α) W ↔ P W a := Iff.rfl

theorem writes_seq {f : α → Body V β} : ∀ {p : Body V α} {W : Nat → Prop}, Writes P p W →
    (∀ W a, P W a → Writes R (f a) W) → Writes R (p >>= f) W
  | .ret _, _, hp, hf => hf _ _ hp
  | .read _ k, _, hp, hf => fun v => writes_seq (p := k v) (hp v) hf
  | .write _ _ k, _, hp, hf => writes_seq (p := k) hp hf

/-- Every program keeps what holds of ever more addresses, when nothing is asked of its result. -/
theorem writes_of_mono {Q : (Nat → Prop) → Prop} (hQ : ∀ {W W' : Nat → Prop}, (∀ a, W a → W' a) → Q W → Q W') :
    ∀ (p : Body V α) {W : Nat → Prop}, Q W → Writes (fun W _ => Q W) p W
  | .ret _, _, h => h
  | .read _ k, _, h => fun v => writes_of_mono hQ (k v) h
  | .write _ _ k, _, h => writes_of_mono hQ k (hQ (fun _ => .inr) h)

theorem writes_ite {c : Prop} [Decidable c] {p q : Body V α} (hp : Writes P p W) (hq : Writes P q W) :
    Writes P (if c then p else q) W := by
  split
  · exact hp
  · exact hq

theorem writes_forN {f : Nat → β → Body V β} (hf : ∀ i W l, R W l → Writes R (f i l) W) : ∀ (m i : Nat) {W : Nat → Prop}
    {l : β}, R W l → Writes R (Body.forN f i m l) W
  | 0, _, _, _, hl => hl
  | m + 1, i, _, _, hl => writes_seq (hf i _ _ hl) fun _ _ hl' => writes_forN hf m (i + 1) hl'

theorem writes_forEach {γ : Type} {f : γ → β → Body V β} (hf : ∀ x W l, R W l → Writes R (f x l) W) : ∀ (xs : List γ)
    {W : Nat → Prop} {l : β}, R W l → Writes R (Body.forEach f xs l) W
  | [], _, _, hl => hl
  | x :: xs, _, _, hl => writes_seq (hf x _ _ hl) fun _ _ hl' => writes_forEach hf xs hl'

/-- What a body has written is plain. -/
theorem twp_writes {n : Nat} {Q : α → Disk V → Prop} : ∀ {p : Body V α} {d : Disk V} {W : Nat → Prop}, twp n p Q d →
    Writes P p W → (∀ a, W a → d.plain a) → twp n p (fun r d' => Q r d' ∧ ∃ W', P W' r ∧ ∀ a, W' a → d'.plain a) d
  | .ret _, _, W, hw, hp, hd => ⟨hw, W, hp, hd⟩
  | .read a k, d, _, ⟨ha, hk⟩, hp, hd => ⟨ha, twp_writes (p := k (d a)) hk (hp (d a)) hd⟩
  | .write a _ k, _, _, ⟨h0, ha, hk⟩, hp, hd => by
    refine ⟨h0, ha, twp_writes (p := k) hk hp fun b hb => ?_⟩
    rcases hb with rfl | hb
    · exact .inl rfl
    · exact .inr (hd b hb)

end Rules

end TxnLogic
