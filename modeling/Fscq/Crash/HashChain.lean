import Fscq.Crash.Wp
import Mathlib.Data.List.Induction

/-!
# Chained hashes

`chainHash h key a l` folds the elements of `l` into the hash `a`, hashing at each step a key made of the element and
the hash so far; `chainKeys` are the keys it hashes. Without collisions among the keys of two chains of the same
length, equal results mean equal lists (`chainHash_inj`).
-/

namespace CrashLogic

variable {V K H X : Type}

def chainHash (h : K → H) (key : X → H → K) (a : H) (l : List X) : H := l.foldl (fun a x => h (key x a)) a

def chainKeys (h : K → H) (key : X → H → K) : H → List X → List K
  | _, [] => []
  | a, x :: l => key x a :: chainKeys h key (h (key x a)) l

variable {h : K → H} {key : X → H → K}

@[simp] theorem chainHash_nil (a : H) : chainHash h key a [] = a := rfl

theorem chainHash_append (a : H) (l l' : List X) :
    chainHash h key a (l ++ l') = chainHash h key (chainHash h key a l) l' := List.foldl_append

theorem chainKeys_append : ∀ (a : H) (l l' : List X),
    chainKeys h key a (l ++ l') = chainKeys h key a l ++ chainKeys h key (chainHash h key a l) l'
  | _, [], _ => rfl
  | a, x :: l, l' => by
    rw [List.cons_append, chainKeys, chainKeys, List.cons_append, chainKeys_append _ l l']; rfl

/-- Equal chained hashes of lists of the same length, no collision between their keys: equal lists. -/
theorem chainHash_inj (hkey : ∀ {x y a b}, key x a = key y b → x = y ∧ a = b) (a : H) (l : List X) :
    ∀ l', l.length = l'.length → chainHash h key a l = chainHash h key a l' →
      (∀ k ∈ chainKeys h key a l, ∀ k' ∈ chainKeys h key a l', h k' = h k → k' = k) → l = l' := by
  induction l using List.reverseRecOn with
  | nil => intro l' hlen _ _; exact (List.length_eq_zero_iff.1 hlen.symm).symm
  | append_singleton l x ih =>
    intro l' hlen heq hcol
    rcases List.eq_nil_or_concat l' with rfl | ⟨l', y, rfl⟩
    · simp at hlen
    rw [List.concat_eq_append] at hlen heq hcol ⊢
    simp only [chainHash_append, chainKeys_append] at heq hcol
    have hk := hcol (key x (chainHash h key a l)) (by simp [chainKeys]) (key y (chainHash h key a l'))
      (by simp [chainKeys]) heq.symm
    obtain ⟨hxy, hprev⟩ := hkey hk
    have hl : l = l' := ih l' (by simpa using hlen) hprev.symm fun k hk k' hk' =>
      hcol k (List.mem_append_left _ hk) k' (List.mem_append_left _ hk')
    rw [hl, hxy]

/-- Hashing one key: it is remembered, and no key hashed before has its hash. -/
theorem wp_hashOf {P : RawDisk V → Prop} (hP : ∀ m m', PossibleSync m m' → P m → P m') (k : K) {s : St V K}
    (hs : P s.disk) {C : St V K → Prop} :
    wp h (Prog.hashOf (V := V) k) (fun r s' => r = h k ∧ P s'.disk ∧ s'.seen = k :: s.seen ∧
      HashSafe h s.seen k) C s :=
  fun hsafe _ hm => ⟨rfl, hP _ _ hm hs, rfl, hsafe⟩

/-- Hashing a list: the chained hash, with all its keys remembered. -/
theorem wp_hashChain {P : RawDisk V → Prop} (hP : ∀ m m', PossibleSync m m' → P m → P m') {C : St V K → Prop} :
    ∀ (l : List X) (a : H) {s : St V K}, P s.disk →
      wp h (Prog.forEach (fun x a => Prog.hashOf (V := V) (key x a)) l a)
        (fun r s' => r = chainHash h key a l ∧ P s'.disk ∧ s.seen ⊆ s'.seen ∧ chainKeys h key a l ⊆ s'.seen ∧
          ∀ k ∈ chainKeys h key a l, HashSafe h s.seen k) C s
  | [], a, s, hs => ⟨rfl, hs, fun _ hx => hx, nofun, nofun⟩
  | x :: l, a, s, hs => by
    refine wp_seq (wp_hashOf hP (key x a) hs) (fun _ hc => hc) fun r s' ⟨hr, hP', hseen, hsafe⟩ => ?_
    subst hr
    refine wp_mono (fun r s'' ⟨hr, hd, hsub, hkeys, hall⟩ => ⟨hr, hd, ?_, ?_, ?_⟩) (fun _ hc => hc) _
      (wp_hashChain hP l (h (key x a)) hP')
    · exact fun k hk => hsub (hseen ▸ List.mem_cons_of_mem _ hk)
    · intro k hk
      rcases List.mem_cons.1 hk with rfl | hk
      · exact hsub (hseen ▸ List.mem_cons_self)
      · exact hkeys hk
    · intro k hk
      rcases List.mem_cons.1 hk with rfl | hk
      · exact hsafe
      · exact fun k' hk' => hall k hk k' (hseen ▸ List.mem_cons_of_mem _ hk')

end CrashLogic
