import Mathlib.Algebra.Group.Int.Defs
import Mathlib.Algebra.Group.Nat.Defs
import Mathlib.Data.List.Basic
import Mathlib.Logic.Function.Basic
import Mathlib.Tactic.Common

/-!
# Programs over an asynchronous disk

A disk block holds its latest value and the older values that a power failure may bring back (`ValuSet`). A write
pushes the latest value onto the older ones, a sync forgets all older values, and a crash keeps for every block any
one of its values (`PossibleCrash`). At every step the disk may also forget older values on its own (`PossibleSync`).

`Prog V K H α` are the programs with disk operations over blocks `V` and a hash from `K` to `H`; `Exec` runs them.
A run finishes, fails (it touched a block that is not there), crashes at a disk operation, or meets a hash collision:
a key that was never hashed before with the hash of one that was. `ExecRecover` reruns a recovery program after
every crash.
-/

namespace CrashLogic

/-! ## Disks -/

/-- The latest value of a block and the older ones that a crash may still bring back. -/
abbrev ValuSet (V : Type) := V × List V

def vsmerge {V : Type} (vs : ValuSet V) : List V := vs.1 :: vs.2

abbrev RawDisk (V : Type) := Nat → Option (ValuSet V)

variable {V K H α β : Type}

def syncMem (m : RawDisk V) : RawDisk V := fun a => (m a).map fun vs => (vs.1, [])

/-- The disk may drop older values at any time. -/
def PossibleSync (m m' : RawDisk V) : Prop :=
  ∀ a, (m a = none ∧ m' a = none) ∨ ∃ v l l', m a = some (v, l) ∧ m' a = some (v, l') ∧ l' ⊆ l

/-- A crash keeps one of the values of every block. -/
def PossibleCrash (m m' : RawDisk V) : Prop :=
  ∀ a, (m a = none ∧ m' a = none) ∨ ∃ vs v', m a = some vs ∧ m' a = some (v', []) ∧ v' ∈ vsmerge vs

theorem PossibleSync.refl (m : RawDisk V) : PossibleSync m m := by
  intro a
  cases h : m a with
  | none => exact Or.inl ⟨rfl, rfl⟩
  | some vs => exact Or.inr ⟨vs.1, vs.2, vs.2, rfl, rfl, List.Subset.refl _⟩

/-! ## Programs -/

/-- Programs: a tree of disk operations and hashes. -/
inductive Prog (V K H : Type) (α : Type) : Type
  | ret (a : α)
  | read (a : Nat) (k : V → Prog V K H α)
  | write (a : Nat) (v : V) (k : Prog V K H α)
  | sync (k : Prog V K H α)
  | hash (key : K) (k : H → Prog V K H α)

namespace Prog

def bind : Prog V K H α → (α → Prog V K H β) → Prog V K H β
  | ret a, f => f a
  | read a k, f => read a fun v => (k v).bind f
  | write a v k, f => write a v (k.bind f)
  | sync k, f => sync (k.bind f)
  | hash key k, f => hash key fun x => (k x).bind f

instance : Monad (Prog V K H) where
  pure := ret
  bind := bind

@[simp] theorem pure_eq (a : α) : (pure a : Prog V K H α) = ret a := rfl

@[simp] theorem ret_bind (a : α) (f : α → Prog V K H β) : ret a >>= f = f a := rfl

theorem bind_assoc {γ : Type} (f : α → Prog V K H β) (g : β → Prog V K H γ) : ∀ p : Prog V K H α,
    p >>= f >>= g = p >>= fun a => f a >>= g
  | ret _ => rfl
  | read a k => congrArg (read a) (funext fun v => bind_assoc f g (k v))
  | write a v k => congrArg (write a v) (bind_assoc f g k)
  | sync k => congrArg sync (bind_assoc f g k)
  | hash key k => congrArg (hash key) (funext fun x => bind_assoc f g (k x))

/-! ### The operations, and loops -/

def readAt (a : Nat) : Prog V K H V := read a ret

def writeAt (a : Nat) (v : V) : Prog V K H Unit := write a v (ret ())

def syncAll : Prog V K H Unit := sync (ret ())

def hashOf (key : K) : Prog V K H H := hash key ret

/-- `for i = i, ..., i + n - 1` with a loop variable. -/
def forN (f : Nat → β → Prog V K H β) : Nat → Nat → β → Prog V K H β
  | _, 0, l => ret l
  | i, n + 1, l => do
    let l' ← f i l
    forN f (i + 1) n l'

/-- A loop over the elements of a list with a loop variable. -/
def forEach {γ : Type} (f : γ → β → Prog V K H β) : List γ → β → Prog V K H β
  | [], l => ret l
  | x :: xs, l => do
    let l' ← f x l
    forEach f xs l'

end Prog

/-! ## Runs -/

/-- The disk and the keys hashed so far. -/
structure St (V K : Type) where
  disk : RawDisk V
  seen : List K

/-- A key may be hashed: no other key hashed so far has its hash. -/
def HashSafe (h : K → H) (seen : List K) (key : K) : Prop := ∀ k ∈ seen, h k = h key → k = key

inductive Outcome (V K α : Type) : Type
  | failed
  | collided
  | finished (s : St V K) (a : α)
  | crashed (s : St V K)

/-- How a program runs. A crash can happen at every disk operation, before it takes effect. -/
inductive Exec (h : K → H) : St V K → Prog V K H α → Outcome V K α → Prop
  | ret (s a) : Exec h s (.ret a) (.finished s a)
  | read (s a k vs m o) : s.disk a = some vs → PossibleSync s.disk m → Exec h ⟨m, s.seen⟩ (k vs.1) o →
      Exec h s (.read a k) o
  | readFail (s a k) : s.disk a = none → Exec h s (.read a k) .failed
  | readCrash (s a k) : Exec h s (.read a k) (.crashed s)
  | write (s a v k vs m o) : s.disk a = some vs →
      PossibleSync (Function.update s.disk a (some (v, vsmerge vs))) m → Exec h ⟨m, s.seen⟩ k o →
      Exec h s (.write a v k) o
  | writeFail (s a v k) : s.disk a = none → Exec h s (.write a v k) .failed
  | writeCrash (s a v k) : Exec h s (.write a v k) (.crashed s)
  | sync (s k m o) : PossibleSync (syncMem s.disk) m → Exec h ⟨m, s.seen⟩ k o → Exec h s (.sync k) o
  | syncCrash (s k) : Exec h s (.sync k) (.crashed s)
  | hash (s key k m o) : HashSafe h s.seen key → PossibleSync s.disk m → Exec h ⟨m, key :: s.seen⟩ (k (h key)) o →
      Exec h s (.hash key k) o
  | hashCollide (s key k) : ¬ HashSafe h s.seen key → Exec h s (.hash key k) .collided

/-- How a program and then its recovery program run: after every crash the recovery program starts on a disk that
the crash left. -/
inductive ExecRecover (h : K → H) (rec : Prog V K H β) :
    {α : Type} → St V K → Prog V K H α → Outcome V K (α ⊕ β) → Prop
  | failed {α : Type} (s) (p : Prog V K H α) : Exec h s p .failed → ExecRecover h rec s p .failed
  | collided {α : Type} (s) (p : Prog V K H α) : Exec h s p .collided → ExecRecover h rec s p .collided
  | finished {α : Type} (s) (p : Prog V K H α) (s' a) : Exec h s p (.finished s' a) →
      ExecRecover h rec s p (.finished s' (.inl a))
  | crashFailed {α : Type} (s) (p : Prog V K H α) (s' m) : Exec h s p (.crashed s') → PossibleCrash s'.disk m →
      ExecRecover h rec ⟨m, s'.seen⟩ rec .failed → ExecRecover h rec s p .failed
  | crashCollided {α : Type} (s) (p : Prog V K H α) (s' m) : Exec h s p (.crashed s') → PossibleCrash s'.disk m →
      ExecRecover h rec ⟨m, s'.seen⟩ rec .collided → ExecRecover h rec s p .collided
  | crashFinished {α : Type} (s) (p : Prog V K H α) (s' m s'' r) : Exec h s p (.crashed s') →
      PossibleCrash s'.disk m → ExecRecover h rec ⟨m, s'.seen⟩ rec (.finished s'' r) →
      ExecRecover h rec s p (.finished s'' (.inr (r.elim id id)))

/-- A program that is not interrupted ends: it finishes, fails or meets a collision. -/
theorem Exec.total (h : K → H) : ∀ (p : Prog V K H α) (s : St V K), ∃ o, Exec h s p o ∧ ∀ s', o ≠ .crashed s'
  | .ret a, s => ⟨_, .ret s a, fun _ => nofun⟩
  | .read a k, s => by
    cases hd : s.disk a with
    | none => exact ⟨_, .readFail s a k hd, fun _ => nofun⟩
    | some vs =>
      obtain ⟨o, ho, hc⟩ := Exec.total h (k vs.1) ⟨s.disk, s.seen⟩
      exact ⟨o, .read s a k vs _ o hd (.refl _) ho, hc⟩
  | .write a v k, s => by
    cases hd : s.disk a with
    | none => exact ⟨_, .writeFail s a v k hd, fun _ => nofun⟩
    | some vs =>
      obtain ⟨o, ho, hc⟩ := Exec.total h k ⟨Function.update s.disk a (some (v, vsmerge vs)), s.seen⟩
      exact ⟨o, .write s a v k vs _ o hd (.refl _) ho, hc⟩
  | .sync k, s => by
    obtain ⟨o, ho, hc⟩ := Exec.total h k ⟨syncMem s.disk, s.seen⟩
    exact ⟨o, .sync s k _ o (.refl _) ho, hc⟩
  | .hash key k, s => by
    by_cases hs : HashSafe h s.seen key
    · obtain ⟨o, ho, hc⟩ := Exec.total h (k (h key)) ⟨s.disk, key :: s.seen⟩
      exact ⟨o, .hash s key k _ o hs (.refl _) ho, hc⟩
    · exact ⟨_, .hashCollide s key k hs, fun _ => nofun⟩

/-- A run of a sequence that finishes is a run of each part. -/
theorem Exec.of_bind {h : K → H} {f : α → Prog V K H β} {s' : St V K} {b : β} : ∀ {p : Prog V K H α} {s : St V K},
    Exec h s (p >>= f) (.finished s' b) → ∃ s₁ a, Exec h s p (.finished s₁ a) ∧ Exec h s₁ (f a) (.finished s' b)
  | .ret a, s, he => ⟨s, a, .ret s a, he⟩
  | .read a k, s, .read _ _ _ vs m _ hd hm he => by
    obtain ⟨s₁, x, hp, hf⟩ := Exec.of_bind (p := k vs.1) he
    exact ⟨s₁, x, .read s a k vs m _ hd hm hp, hf⟩
  | .write a v k, s, .write _ _ _ _ vs m _ hd hm he => by
    obtain ⟨s₁, x, hp, hf⟩ := Exec.of_bind (p := k) he
    exact ⟨s₁, x, .write s a v k vs m _ hd hm hp, hf⟩
  | .sync k, s, .sync _ _ m _ hm he => by
    obtain ⟨s₁, x, hp, hf⟩ := Exec.of_bind (p := k) he
    exact ⟨s₁, x, .sync s k m _ hm hp, hf⟩
  | .hash key k, s, .hash _ _ _ m _ hs hm he => by
    obtain ⟨s₁, x, hp, hf⟩ := Exec.of_bind (p := k (h key)) he
    exact ⟨s₁, x, .hash s key k m _ hs hm hp, hf⟩

/-- A run of a sequence crashes in the first part, or in the second part once the first is done. -/
theorem Exec.crashed_of_bind {h : K → H} {f : α → Prog V K H β} {s' : St V K} : ∀ {p : Prog V K H α} {s : St V K},
    Exec h s (p >>= f) (.crashed s') →
    Exec h s p (.crashed s') ∨ ∃ s₁ a, Exec h s p (.finished s₁ a) ∧ Exec h s₁ (f a) (.crashed s')
  | .ret a, s, he => .inr ⟨s, a, .ret s a, he⟩
  | .read a k, s, .readCrash _ _ _ => .inl (.readCrash s a k)
  | .read a k, s, .read _ _ _ vs m _ hd hm he => by
    rcases Exec.crashed_of_bind (p := k vs.1) he with hp | ⟨s₁, x, hp, hf⟩
    · exact .inl (.read s a k vs m _ hd hm hp)
    · exact .inr ⟨s₁, x, .read s a k vs m _ hd hm hp, hf⟩
  | .write a v k, s, .writeCrash _ _ _ _ => .inl (.writeCrash s a v k)
  | .write a v k, s, .write _ _ _ _ vs m _ hd hm he => by
    rcases Exec.crashed_of_bind (p := k) he with hp | ⟨s₁, x, hp, hf⟩
    · exact .inl (.write s a v k vs m _ hd hm hp)
    · exact .inr ⟨s₁, x, .write s a v k vs m _ hd hm hp, hf⟩
  | .sync k, s, .syncCrash _ _ => .inl (.syncCrash s k)
  | .sync k, s, .sync _ _ m _ hm he => by
    rcases Exec.crashed_of_bind (p := k) he with hp | ⟨s₁, x, hp, hf⟩
    · exact .inl (.sync s k m _ hm hp)
    · exact .inr ⟨s₁, x, .sync s k m _ hm hp, hf⟩
  | .hash key k, s, .hash _ _ _ m _ hs hm he => by
    rcases Exec.crashed_of_bind (p := k (h key)) he with hp | ⟨s₁, x, hp, hf⟩
    · exact .inl (.hash s key k m _ hs hm hp)
    · exact .inr ⟨s₁, x, .hash s key k m _ hs hm hp, hf⟩

theorem Exec.bind {h : K → H} {s s' : St V K} {f : α → Prog V K H β} {p : Prog V K H α} {o : Outcome V K α} {o' : Outcome V K β} {a : α}
    (he : Exec h s p o) (ho : o = .finished s' a) (hf : Exec h s' (f a) o') : Exec h s (p >>= f) o' := by
  induction he with
  | ret =>
    cases ho
    exact hf
  | read _ _ _ _ _ _ hd hm _ ih => exact .read _ _ _ _ _ _ hd hm (ih ho)
  | write _ _ _ _ _ _ _ hd hm _ ih => exact .write _ _ _ _ _ _ _ hd hm (ih ho)
  | sync _ _ _ _ hm _ ih => exact .sync _ _ _ _ hm (ih ho)
  | hash _ _ _ _ _ hsafe hm _ ih => exact .hash _ _ _ _ _ hsafe hm (ih ho)
  | readFail | readCrash | writeFail | writeCrash | syncCrash | hashCollide => cases ho

theorem Exec.crash_bind {h : K → H} {s s' : St V K} {f : α → Prog V K H β} {p : Prog V K H α} {o : Outcome V K α}
    (he : Exec h s p o) (ho : o = .crashed s') : Exec h s (p >>= f) (.crashed s') := by
  induction he with
  | read _ _ _ _ _ _ hd hm _ ih => exact .read _ _ _ _ _ _ hd hm (ih ho)
  | write _ _ _ _ _ _ _ hd hm _ ih => exact .write _ _ _ _ _ _ _ hd hm (ih ho)
  | sync _ _ _ _ hm _ ih => exact .sync _ _ _ _ hm (ih ho)
  | hash _ _ _ _ _ hsafe hm _ ih => exact .hash _ _ _ _ _ hsafe hm (ih ho)
  | readCrash =>
    cases ho
    exact .readCrash _ _ _
  | writeCrash =>
    cases ho
    exact .writeCrash _ _ _ _
  | syncCrash =>
    cases ho
    exact .syncCrash _ _
  | ret | readFail | writeFail | hashCollide => cases ho

theorem Exec.map {h : K → H} {s s' : St V K} {f : α → β} {p : Prog V K H α} {a : α} (he : Exec h s p (.finished s' a)) :
    Exec h s (f <$> p) (.finished s' (f a)) :=
  he.bind rfl (.ret s' (f a))

end CrashLogic
