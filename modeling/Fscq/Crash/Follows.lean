import Fscq.Crash.Wp

/-!
# Programs that follow an abstract one

A program over a monad of which it only knows some calls can be run on an abstract state and on the disk. If each call on the
disk follows the abstract one (`Follows`), so does the program: the rules are those of its syntax, for results, sequences
(`Follows.bind`) and loops over lists (`Follows.mapM`, `Follows.foldlM`).
-/

namespace CrashLogic

variable {V K H α β γ τ σ : Type}

theorem Prog.bind_pure : ∀ p : Prog V K H α, p >>= pure = p
  | .ret _ => rfl
  | .read a k => congrArg (Prog.read a) (funext fun v => bind_pure (k v))
  | .write a v k => congrArg (Prog.write a v) (bind_pure k)
  | .sync k => congrArg Prog.sync (bind_pure k)
  | .hash key k => congrArg (Prog.hash key) (funext fun hv => bind_pure (k hv))

instance : LawfulMonad (Prog V K H) :=
  .mk' _ Prog.bind_pure (fun _ _ => rfl) fun p f g => Prog.bind_assoc f g p

variable {h : K → H} {R : τ → σ → St V K → Prop} {C : St V K → Prop}

/-- From related states, where the abstract program ends, the one on the disk ends with the same result, in related states. -/
def Follows (h : K → H) (R : τ → σ → St V K → Prop) (C : St V K → Prop) (x : StateT τ Option α)
    (y : StateT σ (Prog V K H) α) : Prop :=
  ∀ t a t', x t = some (a, t') → ∀ ms s, R t ms s → wp h (y ms) (fun r s' => r.1 = a ∧ R t' r.2 s') C s

namespace Follows

theorem pure (a : α) : Follows h R C (pure a) (pure a) := by
  intro t b t' hx ms s hr
  cases hx
  exact ⟨rfl, hr⟩

/-- The second program is only run on results that the first one has. -/
theorem bind_of {x : StateT τ Option α} {y : StateT σ (Prog V K H) α} {g : α → StateT τ Option β}
    {k : α → StateT σ (Prog V K H) β} (hx : Follows h R C x y)
    (hg : ∀ t a t' ms s, R t ms s → x t = some (a, t') → Follows h R C (g a) (k a)) : Follows h R C (x >>= g) (y >>= k) := by
  intro t b t' hrun ms s hr
  obtain ⟨⟨a, t₁⟩, hxa, hgb⟩ := Option.bind_eq_some_iff.1 hrun
  refine wp_bind _ (wp_mono ?_ (fun _ hc => hc) _ (hx t a t₁ hxa ms s hr))
  rintro ⟨a', ms₁⟩ s₁ ⟨rfl, hr₁⟩
  exact hg t a' t₁ ms s hr hxa t₁ b t' hgb ms₁ s₁ hr₁

theorem bind {x : StateT τ Option α} {y : StateT σ (Prog V K H) α} {g : α → StateT τ Option β}
    {k : α → StateT σ (Prog V K H) β} (hx : Follows h R C x y) (hg : ∀ a, Follows h R C (g a) (k a)) :
    Follows h R C (x >>= g) (y >>= k) :=
  hx.bind_of fun _ a _ _ _ _ _ => hg a

theorem mapM {g : γ → StateT τ Option β} {k : γ → StateT σ (Prog V K H) β} (hg : ∀ c, Follows h R C (g c) (k c)) :
    ∀ cs : List γ, Follows h R C (cs.mapM g) (cs.mapM k)
  | [] => by
    rw [List.mapM_nil, List.mapM_nil]
    exact .pure _
  | c :: cs => by
    rw [List.mapM_cons, List.mapM_cons]
    exact (hg c).bind fun _ => (mapM hg cs).bind fun _ => .pure _

theorem foldlM {g : β → γ → StateT τ Option β} {k : β → γ → StateT σ (Prog V K H) β}
    (hg : ∀ b c, Follows h R C (g b c) (k b c)) : ∀ (cs : List γ) (b : β), Follows h R C (cs.foldlM g b) (cs.foldlM k b)
  | [], _ => .pure _
  | c :: cs, b => by
    rw [List.foldlM_cons, List.foldlM_cons]
    exact (hg b c).bind fun b' => foldlM hg cs b'

end Follows

end CrashLogic
