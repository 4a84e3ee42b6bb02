import Fscq.Afs.Durable

/-!
# Nothing is lost after `umount`

`umount` flushes the log and writes back the cache, so the tree is on the disk, and without older values: also what was written
directly and not synced. From then on the machine is in one state (`quiet_run`), until a call writes. However often the power
fails, in whatever call that writes nothing, the tree is read as it was (`umount_keeps`).
-/

namespace Fscq

open CrashLogic
open Dirtree (findSubtree NamesDistinct)
open AFS (Memstate)

namespace TreeSeq

variable {V : Version} {Vs Vs' : Treeseq} {T T' : FsTree} {c : Call} {r : FsRun.Result}

/-! ## Calls that write nothing -/

def Call.Quiet : Call → Prop
  | .basic c => c.ReadOnly ∨ c = .treeSync
  | .fileSync _ | .umount => True
  | _ => False

def Event.Quiet (e : Event) : Prop := ∀ c, e.callOf = some c → c.Quiet

theorem settled_sync (T : FsTree) (i : Nat) (K : Nat → Prop) : (Version.settled T).sync i K = .settled T := by
  rw [Version.sync, Version.settled]
  simp only [false_and]

/-- A tree with nothing behind it stays. -/
theorem Step.quiet (hc : c.Quiet) (h : Step [.settled T] c r Vs') : Vs' = [.settled T] := by
  cases h with
  | update hu =>
    cases hu with
    | basic hu =>
      rcases hc with hc | hc
      · cases hu <;> exact hc.elim
      · cases hu <;> cases hc
    | mksock | fileSetSz => exact hc.elim
  | read | failed => rfl
  | updateFblockD => exact hc.elim
  | fileSync =>
    rw [syncFile, List.mapIdx_cons, settled_sync]
    rfl
  | treeSync | umount => rfl

theorem Crash.quiet {oc : Option Call} (hn : NamesDistinct T) (hc : ∀ c, oc = some c → c.Quiet) (h : Crash [.settled T] oc T') :
    T' = T := by
  obtain ⟨Vs', hVs', U, hU, hfall⟩ := h
  have hVs : Vs' = [.settled T] := by
    rcases hVs' with rfl | ⟨c, r, rfl, hstep⟩
    · rfl
    · exact hstep.quiet (hc c rfl)
  rw [hVs, List.mem_singleton] at hU
  subst hU
  exact hfall.eq hn fun _ _ _ hold => hold

theorem Step.of_umount (h : Step (V :: Vs) .umount r Vs') : Vs' = [.settled V.tree] := by
  cases h with
  | update hu => cases hu
  | umount => rfl

/-! ## Histories -/

/-- After `umount` the machine is in one state, and what is read is read of its tree. -/
theorem quiet_run {es₁ : List Event} : ∀ {es : List Event} {Vs' : Treeseq}, Trace (es ++ (.call .umount .synced :: es₁)) Vs' →
    (∀ e ∈ es, e.Quiet) → ∃ V Vs, Trace es₁ (V :: Vs) ∧ Vs' = [.settled V.tree] ∧
      ∀ c r, .call (.basic c) r ∈ es → c.ReadOnly → FsRun.Reads V.tree c r
  | [], Vs', htr, _ => by
    obtain ⟨V, Vs, htr₁, hstep⟩ := trace_call htr
    exact ⟨V, Vs, htr₁, hstep.of_umount, fun _ _ hmem => absurd hmem List.not_mem_nil⟩
  | e :: es, Vs', htr, hquiet => by
    obtain ⟨V', Vs, hbefore, hlast⟩ := trace_cons htr
    obtain ⟨V, Vs₁, htr₁, heq, hreads⟩ := quiet_run hbefore fun e' he' => hquiet e' (List.mem_cons_of_mem _ he')
    rw [heq] at hlast
    refine ⟨V, Vs₁, htr₁, ?_, ?_⟩
    · rcases hlast with ⟨c, r, rfl, hstep⟩ | ⟨oc, T', rfl, hcrash, rfl⟩
      · exact hstep.quiet (hquiet _ List.mem_cons_self c rfl)
      · have hnames := (htr₁.ok V List.mem_cons_self).tree.names
        rw [hcrash.quiet hnames fun c hc => hquiet _ List.mem_cons_self c hc]
    · intro c r hmem hro
      rcases List.mem_cons.1 hmem with rfl | hmem
      · rcases hlast with ⟨c', r', hcall, hstep⟩ | ⟨oc, T', hcall, _⟩
        · cases hcall
          obtain ⟨_, V₀, Vs₀, hcons, hread⟩ := hstep.readOnly hro
          cases hcons
          exact hread
        · cases hcall
      · exact hreads c r hmem hro

/-! ## The file system -/

/-- The file system has the tree, and a power failure falls back to nothing else. -/
def Standing (h : HashKey → HashVal) (xp : FsXparams) (n : Nat) (T : FsTree) : Option Memstate → St Valu HashKey → Prop
  | some ams, s => Up h xp n (.settled T) [] ams s
  | none, s => Down h xp n T s

section Format

variable {dataBitmaps inodeBitmaps logDescrBlocks : Nat} (hd : dataBitmaps ≠ 0) (hi : inodeBitmaps ≠ 0)
  (hi' : inodeBitmaps ≤ valulen * valulen) (hsize : AFS.rawSize dataBitmaps inodeBitmaps logDescrBlocks < 2 ^ 64)
include hd hi hi' hsize

/-- After `umount` the file system has the tree of that time, and this is what is read, whenever and however often the power
fails, until a call writes. -/
theorem umount_keeps (h : HashKey → HashVal) : ∀ es₁ es₂ m s,
    Life h dataBitmaps inodeBitmaps logDescrBlocks (es₂ ++ (.call .umount .synced :: es₁)) m s →
    Legal (es₂ ++ (.call .umount .synced :: es₁)) → (∀ e ∈ es₂, e.Quiet) →
    ∃ V Vs, Trace es₁ (V :: Vs) ∧
      Standing h (AFS.computeXparams dataBitmaps inodeBitmaps logDescrBlocks SB.magicNumber)
        (AFS.diskSize dataBitmaps inodeBitmaps) V.tree m s ∧
      ∀ c r, .call (.basic c) r ∈ es₂ → c.ReadOnly → FsRun.Reads V.tree c r := by
  intro es₁ es₂ m s hlife hleg hquiet
  have hagrees := hlife.agrees hd hi hi' hsize hleg
  cases m with
  | some ams =>
    obtain ⟨_, htr', U, Us, rfl, hup⟩ := hagrees
    obtain ⟨V, Vs, htr, heq, hreads⟩ := quiet_run htr' hquiet
    cases heq
    exact ⟨V, Vs, htr, hup, hreads⟩
  | none =>
    obtain ⟨_, htr', T, rfl, hdn⟩ := hagrees
    obtain ⟨V, Vs, htr, heq, hreads⟩ := quiet_run htr' hquiet
    have hT : T = V.tree := congrArg Version.tree (List.cons.inj heq).1
    rw [hT] at hdn
    exact ⟨V, Vs, htr, hdn, hreads⟩

end Format

/-- The block was written directly, and not synced before `umount`. -/
theorem umount_keeps_small : ∃ h i m s,
    Life h 1 1 256 ([.crash none] ++ (.call .umount .synced :: .call (.updateFblockD i 0 1) (.written true) :: newFile i)) m s ∧
    ∃ V Vs, Trace (.call (.updateFblockD i 0 1) (.written true) :: newFile i) (V :: Vs) ∧
      Standing h (AFS.computeXparams 1 1 256 SB.magicNumber) (AFS.diskSize 1 1) V.tree m s ∧
      ∀ c r, .call (.basic c) r ∈ [Event.crash none] → c.ReadOnly → FsRun.Reads V.tree c r := by
  obtain ⟨i, h₀, ams₀, s₀, hlife₀, ha₀, hlen₀⟩ := exists_newFile
  have hleg₂ : Legal (.call .umount .synced :: .call (.updateFblockD i 0 1) (.written true) :: newFile i) :=
    ⟨legal_written i, fun _ _ _ => trivial, fun h => by cases h⟩
  obtain ⟨h₁, ams₁, s₁, hlife₁, ha₁, hlen₁⟩ := hlife₀.updateFblockD ha₀ (by omega) (legal_written i)
  obtain ⟨h, ams, s, hlife, _, _⟩ := hlife₁.umount ha₁ (by omega) hleg₂
  have hcrash := Life.crash hlife (Bufcache.possibleCrash_syncMem s.disk)
  have hnone : ∀ c : Call, none = some c → False := fun c h => by cases h
  refine ⟨h, i, _, _, hcrash, umount_keeps (by decide) (by decide) (by decide) (by decide) h
    (.call (.updateFblockD i 0 1) (.written true) :: newFile i) [.crash none] _ _ hcrash
    ⟨hleg₂, fun c h => (hnone c h).elim⟩ fun e he c hc => ?_⟩
  rw [List.mem_singleton.1 he] at hc
  exact (hnone c hc).elim

end TreeSeq

end Fscq
