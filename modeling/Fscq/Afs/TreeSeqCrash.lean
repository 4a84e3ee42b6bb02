import Fscq.Afs.TreeSeqCalls
import Fscq.Afs.MkfsRuns

/-!
# The file system refines the tree sequence

A `Life` of a file system starts with `mkfs`; then there are calls, power failures between them and in them, and `recover`,
which may be interrupted, too. What it has done in the meantime is a trace of the machine (`life_refines`), if the calls are
possible on the machine. So a program above the file system may be verified against the machine.
-/

namespace Fscq

open TxnLogic CrashLogic LogReplay
open MLog (RecTo)
open BFILE (msEmpty)
open AFS (Memstate Mounted)

namespace TreeSeq

/-- A file system that `mkfs` made, after some events, the last one first: mounted with a memory state, or after a power
failure. A call that loses its memory state is the last one before the next power failure, and the event is that it did not
return. -/
inductive Life (h : HashKey → HashVal) (dataBitmaps inodeBitmaps logDescrBlocks : Nat) :
    List Event → Option Memstate → St Valu HashKey → Prop
  | mkfs {fl : Bool} {cachesize : Nat} {s s' : St Valu HashKey} {ams : Memstate} {xp : FsXparams} : cachesize ≠ 0 →
      (∀ a < AFS.rawSize dataBitmaps inodeBitmaps logDescrBlocks, s.disk a ≠ none) →
      Exec h s (AFS.mkfs fl cachesize dataBitmaps inodeBitmaps logDescrBlocks) (.finished s' (.ok (ams, xp))) →
      Life h dataBitmaps inodeBitmaps logDescrBlocks [] (some ams) s'
  | call {fl : Bool} {es : List Event} {ams ams' : Memstate} {s s' : St Valu HashKey} {c : Call} {r : FsRun.Result} :
      Life h dataBitmaps inodeBitmaps logDescrBlocks es (some ams) s →
      Exec h s (c.run fl (AFS.computeXparams dataBitmaps inodeBitmaps logDescrBlocks SB.magicNumber) ams)
        (.finished s' (ams', r)) →
      Life h dataBitmaps inodeBitmaps logDescrBlocks (.call c r :: es) (some ams') s'
  | crash {es : List Event} {ams : Memstate} {s : St Valu HashKey} {d : RawDisk Valu} :
      Life h dataBitmaps inodeBitmaps logDescrBlocks es (some ams) s → PossibleCrash s.disk d →
      Life h dataBitmaps inodeBitmaps logDescrBlocks (.crash none :: es) none ⟨d, s.seen⟩
  | crashCall {fl : Bool} {es : List Event} {ams : Memstate} {s s' : St Valu HashKey} {d : RawDisk Valu} {c : Call} :
      Life h dataBitmaps inodeBitmaps logDescrBlocks es (some ams) s →
      Exec h s (c.run fl (AFS.computeXparams dataBitmaps inodeBitmaps logDescrBlocks SB.magicNumber) ams) (.crashed s') →
      PossibleCrash s'.disk d →
      Life h dataBitmaps inodeBitmaps logDescrBlocks (.crash (some c) :: es) none ⟨d, s'.seen⟩
  | lost {fl : Bool} {es : List Event} {ams ams' : Memstate} {s s' : St Valu HashKey} {d : RawDisk Valu} {c : Call}
      {r : FsRun.Result} : Life h dataBitmaps inodeBitmaps logDescrBlocks es (some ams) s →
      Exec h s (c.run fl (AFS.computeXparams dataBitmaps inodeBitmaps logDescrBlocks SB.magicNumber) ams)
        (.finished s' (ams', r)) → Lost c r → PossibleCrash s'.disk d →
      Life h dataBitmaps inodeBitmaps logDescrBlocks (.crash (some c) :: es) none ⟨d, s'.seen⟩
  | crashRecover {cachesize : Nat} {es : List Event} {s s' : St Valu HashKey} {d : RawDisk Valu} : cachesize ≠ 0 →
      Life h dataBitmaps inodeBitmaps logDescrBlocks es none s → Exec h s (AFS.recover cachesize) (.crashed s') →
      PossibleCrash s'.disk d → Life h dataBitmaps inodeBitmaps logDescrBlocks es none ⟨d, s'.seen⟩
  | recover {cachesize : Nat} {es : List Event} {s s' : St Valu HashKey} {ams : Memstate} {xp : FsXparams} : cachesize ≠ 0 →
      Life h dataBitmaps inodeBitmaps logDescrBlocks es none s →
      Exec h s (AFS.recover cachesize) (.finished s' (.ok (ams, xp))) →
      Life h dataBitmaps inodeBitmaps logDescrBlocks es (some ams) s'

variable {h : HashKey → HashVal} {xp : FsXparams} {n : Nat} {st : LogState} {V : Version} {Vs : Treeseq} {T : FsTree}
  {ams : Memstate} {s : St Valu HashKey} {c : Call} {es : List Event} {e r : RawDisk Valu}

/-! ## A settled file system -/

theorem serves_settled {fms : BFILE.Memstate} {ms : LOG.Memstate} (hxp : xp.Ok n) (hp : Plain r)
    (hlog : LOG.LRep h xp.fsxpLog n ⟨r, [], vmap0⟩ ms s) (ht : TreeRep xp (ldisk r) fms T) :
    Serves h xp n ⟨r, [], vmap0⟩ (.settled T) [] ⟨ms, fms⟩ s := by
  have himg : Image xp (.settled T) r := image_settled hxp hp ht
  refine ⟨⟨hlog, rfl, ht⟩, himg, fun e he => ?_⟩
  have hflush : LogState.Pending (LogState.flush ⟨r, [], vmap0⟩) e := he
  obtain rfl := LogState.pending_flush hflush
  exact behind_newest ht himg

/-- A crash of a disk that is left behind. -/
theorem Left.falls {c : Option Call} (hxp : xp.Ok n) (hl : Left xp Vs c e) (hc : PossibleCrash e r) :
    ∃ T', Crash Vs c T' ∧ TreeRep xp (ldisk r) msEmpty T' := by
  obtain ⟨Vs', hVs, U, hU, himg⟩ := hl
  obtain ⟨T', hfalls, ht⟩ := himg.falls hxp hc
  exact ⟨T', ⟨Vs', hVs, U, hU, hfalls⟩, ht⟩

/-! ## The invariant -/

theorem Call.run_avoids {b : Valu} (hx : xp.fsxpLog.AboveZero) (hs : LOG.Spares ams.msLL) (fl : Bool) (c : Call) :
    (c.run fl xp ams).Avoids 0 b (LOG.Spares ·.1.msLL) := by
  have hmap : ∀ {α : Type} {o : α → FsRun.Result} {p : FProg (Memstate × α)}, p.Avoids 0 b (LOG.Spares ·.1.msLL) →
      (Prod.map id o <$> p).Avoids 0 b (LOG.Spares ·.1.msLL) := fun hp => hp.seq fun _ hr => by exact hr
  cases c with
  | basic c => exact FsRun.Call.run_avoids hx hs fl c
  | mksock => exact hmap (AFS.transactRebind_avoids hx hs fl _)
  | fileSetSz => exact hmap (AFS.fileSetSz_avoids hx hs fl _ _)
  | updateFblockD => exact (AFS.updateFblockD_avoids hx hs _ _ _).seq fun _ hr => by exact hr
  | fileSync => exact (AFS.fileSync_avoids hs _).seq fun _ hr => by exact hr
  | umount => exact (AFS.umount_avoids hx hs).seq fun _ hr => by exact hr

/-- Mounted, with a state of the machine. -/
structure Up (h : HashKey → HashVal) (xp : FsXparams) (n : Nat) (V : Version) (Vs : Treeseq) (ams : Memstate)
    (s : St Valu HashKey) : Prop where
  serves : ∃ st, Serves h xp n st V Vs ams s
  superblock : CrashLogic.OnlyAt s.disk 0 (SB.vPickleSuperblock xp)
  spares : LOG.Spares ams.msLL

/-- After a power failure, with the tree that `recover` will find. -/
structure Down (h : HashKey → HashVal) (xp : FsXparams) (n : Nat) (T : FsTree) (s : St Valu HashKey) : Prop where
  log : ∃ r, Plain r ∧ TreeRep xp (ldisk r) msEmpty T ∧ RecTo h xp.fsxpLog n r s.disk s.seen
  superblock : CrashLogic.OnlyAt s.disk 0 (SB.vPickleSuperblock xp)

/-- If the power fails now, a tree with `K` will be mounted. -/
def Fallen (h : HashKey → HashVal) (xp : FsXparams) (n : Nat) (K : FsTree → Prop) (s : St Valu HashKey) : Prop :=
  ∀ d, PossibleCrash s.disk d → ∃ T, K T ∧ Down h xp n T ⟨d, s.seen⟩

theorem Fallen.mono {K K' : FsTree → Prop} (hf : Fallen h xp n K s) (hK : ∀ T, K T → K' T) : Fallen h xp n K' s := by
  intro d hd
  obtain ⟨T, hT, hdn⟩ := hf d hd
  exact ⟨T, hK T hT, hdn⟩

/-- The machine is in the state `Vs`, and the disk and the memory agree with it. -/
def InState (h : HashKey → HashVal) (xp : FsXparams) (n : Nat) (Vs : Treeseq) : Option Memstate → St Valu HashKey → Prop
  | some ams, s => ∃ V Vs₀, Vs = V :: Vs₀ ∧ Up h xp n V Vs₀ ams s
  | none, s => ∃ T, Vs = [.settled T] ∧ Down h xp n T s

/-- The machine may be in a state that agrees with the disk and the memory. -/
def Agrees (h : HashKey → HashVal) (xp : FsXparams) (n : Nat) (es : List Event) (m : Option Memstate) (s : St Valu HashKey) :
    Prop := ∃ Vs, Trace es Vs ∧ InState h xp n Vs m s

/-- A power failure between a call and the next one is one during the call. -/
theorem Crash.after {Vs' : Treeseq} {x : FsRun.Result} {T' : FsTree} (hc : Crash Vs' none T') (hstep : Step Vs c x Vs') :
    Crash Vs (some c) T' := by
  obtain ⟨Vs₁, rfl | ⟨_, _, heq, _⟩, hfalls⟩ := hc
  · exact ⟨Vs₁, .inr ⟨c, x, rfl, hstep⟩, hfalls⟩
  · cases heq

/-- The log falls back to what the call leaves. -/
theorem fallen_of_mcrash {c : Option Call} (hl : FsLayout xp n) (hm : MLog.MCrash h xp.fsxpLog n (Left xp Vs c) s)
    (hz : CrashLogic.OnlyAt s.disk 0 (SB.vPickleSuperblock xp)) : Fallen h xp n (Crash Vs c) s := by
  intro d hd
  obtain ⟨r, e, hleft, hcr, hrec⟩ := hm d hd
  obtain ⟨T', hcrash, ht⟩ := hleft.falls hl.ok hcr
  exact ⟨T', hcrash, ⟨r, LOG.plain_of_crash hcr, ht, hrec⟩, hd.only hz⟩

section Steps

variable (hl : FsLayout xp n) (hx : xp.fsxpLog.AboveZero) (hu : Up h xp n V Vs ams s)
include hl hx hu

theorem Up.call (hc : c.Valid V.tree) (fl : Bool) :
    wp h (c.run fl xp ams) (fun x s' => (Lost c x.2 ∧ Fallen h xp n (Crash (V :: Vs) (some c)) s') ∨
        ∃ V' Vs', Step (V :: Vs) c x.2 (V' :: Vs') ∧ Up h xp n V' Vs' x.1 s')
      (Fallen h xp n (Crash (V :: Vs) (some c))) s := by
  obtain ⟨st, hs⟩ := hu.serves
  refine wp_mono ?_ (fun s' ⟨hm, hz⟩ => fallen_of_mcrash hl hm hz) _
    (wp_avoids (Call.run_avoids hx hu.spares fl c) hu.superblock (call_spec hl hs fl hc))
  rintro x s' ⟨⟨hlost, hm⟩ | ⟨V', Vs', st', hstep, hs'⟩, hz, hsp⟩
  · exact .inl ⟨hlost, fallen_of_mcrash hl hm hz⟩
  · exact .inr ⟨V', Vs', hstep, ⟨st', hs'⟩, hz, hsp⟩

omit hx in
theorem Up.crash : Fallen h xp n (Crash (V :: Vs) none) s := by
  obtain ⟨st, hs⟩ := hu.serves
  exact fallen_of_mcrash hl ((hs.mounted.log.mcrash hl.log).mono fun _ he => hs.left he) hu.superblock

end Steps

theorem Down.recover (hl : FsLayout xp n) (hx : xp.fsxpLog.AboveZero) (hg : SB.GoodSize xp)
    (hmagic : xp.fsxpMagic = SB.magicNumber) {cachesize : Nat} (hn : cachesize ≠ 0) (hdn : Down h xp n T s) :
    wp h (AFS.recover cachesize) (fun x s' => ∃ ams, x = .ok (ams, xp) ∧ Up h xp n (.settled T) [] ams s')
      (fun s' => ∀ d, PossibleCrash s'.disk d → Down h xp n T ⟨d, s'.seen⟩) s := by
  obtain ⟨r, hp, ht, hrec⟩ := hdn.log
  refine wp_mono ?_ ?_ _
    (wp_avoids (AFS.recover_avoids hn hx hg hmagic) hdn.superblock (AFS.recover_spec hl.log hn hg hmagic hrec hdn.superblock))
  · rintro x s' ⟨⟨ms, rfl, hlog⟩, hz, ams, hams, hsp⟩
    cases hams
    exact ⟨_, rfl, ⟨_, serves_settled hl.ok hp hlog ht⟩, hz, hsp⟩
  · rintro s' ⟨hc, hz⟩ d hd
    exact ⟨⟨r, hp, ht, hc d hd⟩, hd.only hz⟩

/-! ## Lives -/

/-- What the file system did is what the machine may do, and the disk and the memory agree with a state that it is in. It
does not fail in a call that is possible on the machine, and `recover` mounts it whatever happened. -/
structure Refines (h : HashKey → HashVal) (xp : FsXparams) (n : Nat) (es : List Event) (m : Option Memstate)
    (s : St Valu HashKey) : Prop where
  agrees : Agrees h xp n es m s
  call : ∀ ams, m = some ams → ∀ c : Call, c.Possible es → ∀ fl, ¬ Exec h s (c.run fl xp ams) .failed
  recover : m = none → ∀ cachesize ≠ 0, ∀ o, Exec h s (AFS.recover cachesize) o →
    o ≠ .failed ∧ ∀ s' x, o = .finished s' x → ∃ ams, x = .ok (ams, xp)

section Format

variable {dataBitmaps inodeBitmaps logDescrBlocks : Nat} (hd : dataBitmaps ≠ 0) (hi : inodeBitmaps ≠ 0)
  (hi' : inodeBitmaps ≤ valulen * valulen) (hsize : AFS.rawSize dataBitmaps inodeBitmaps logDescrBlocks < 2 ^ 64)
include hd hi hi' hsize

theorem Life.agrees {m : Option Memstate} (hlife : Life h dataBitmaps inodeBitmaps logDescrBlocks es m s) (hes : Legal es) :
    Agrees h (AFS.computeXparams dataBitmaps inodeBitmaps logDescrBlocks SB.magicNumber)
      (AFS.diskSize dataBitmaps inodeBitmaps) es m s := by
  have hl := AFS.fsLayout_computeXparams hd hi' hsize
  have hx := AFS.aboveZero_computeXparams dataBitmaps inodeBitmaps logDescrBlocks SB.magicNumber
  have hg := AFS.goodSize_computeXparams hsize
  induction hlife with
  | mkfs hn hdisk he =>
    obtain ⟨rfl, hz, hsp⟩ := AFS.mkfs_superblock hn (hdisk 0 (by rw [AFS.rawSize]; omega)) he
    have hspec := wp_exec he (AFS.mkfs_spec hn hd hi hsize _ hdisk)
    obtain ⟨_, d, hp, hm⟩ := hspec.2 _ _ rfl
    exact ⟨_, .mkfs, _, _, rfl, ⟨_, serves_settled hl.ok hp hm.log hm.tree⟩, hz, hsp⟩
  | call _ he ih =>
    obtain ⟨hleg, hpos, hlost⟩ := hes
    obtain ⟨_, htr, V, Vs, rfl, hup⟩ := ih hleg
    obtain ⟨V', Vs', hstep, hup'⟩ := (wp_exec he (hup.call hl hx (hpos V Vs htr) _)).resolve_left fun h => hlost h.1
    exact ⟨_, .call htr hstep, V', Vs', rfl, hup'⟩
  | crash _ hd ih =>
    obtain ⟨_, htr, V, Vs, rfl, hup⟩ := ih hes.1
    obtain ⟨T', hcrash, hdn⟩ := hup.crash hl _ hd
    exact ⟨_, .crash htr hcrash, T', rfl, hdn⟩
  | crashCall _ he hd ih =>
    obtain ⟨_, htr, V, Vs, rfl, hup⟩ := ih hes.1
    obtain ⟨T', hcrash, hdn⟩ := wp_exec he (hup.call hl hx (hes.2 _ rfl V Vs htr) _) _ hd
    exact ⟨_, .crash htr hcrash, T', rfl, hdn⟩
  | lost _ he hlost hd ih =>
    obtain ⟨_, htr, V, Vs, rfl, hup⟩ := ih hes.1
    rcases wp_exec he (hup.call hl hx (hes.2 _ rfl V Vs htr) _) with ⟨_, hfallen⟩ | ⟨V', Vs', hstep, hup'⟩
    · obtain ⟨T', hcrash, hdn⟩ := hfallen _ hd
      exact ⟨_, .crash htr hcrash, T', rfl, hdn⟩
    · obtain ⟨T', hcrash, hdn⟩ := hup'.crash hl _ hd
      exact ⟨_, .crash htr (hcrash.after hstep), T', rfl, hdn⟩
  | crashRecover hn _ he hd ih =>
    obtain ⟨_, htr, T, rfl, hdn⟩ := ih hes
    exact ⟨_, htr, T, rfl, wp_exec he (hdn.recover hl hx hg rfl hn) _ hd⟩
  | recover hn _ he ih =>
    obtain ⟨_, htr, T, rfl, hdn⟩ := ih hes
    obtain ⟨ams', heq, hup⟩ := wp_exec he (hdn.recover hl hx hg rfl hn)
    cases heq
    exact ⟨_, htr, _, _, rfl, hup⟩

/-- Whatever calls are made, and whenever and however often the power fails. -/
theorem life_refines (h : HashKey → HashVal) : ∀ es m s, Life h dataBitmaps inodeBitmaps logDescrBlocks es m s → Legal es →
    Refines h (AFS.computeXparams dataBitmaps inodeBitmaps logDescrBlocks SB.magicNumber)
      (AFS.diskSize dataBitmaps inodeBitmaps) es m s := by
  intro es m s hlife hes
  have hl := AFS.fsLayout_computeXparams hd hi' hsize
  have hx := AFS.aboveZero_computeXparams dataBitmaps inodeBitmaps logDescrBlocks SB.magicNumber
  have hagrees := hlife.agrees hd hi hi' hsize hes
  refine ⟨hagrees, ?_, ?_⟩
  · rintro ams rfl c hc fl he
    obtain ⟨_, htr, V, Vs, rfl, hup⟩ := hagrees
    exact wp_exec he (hup.call hl hx (hc V Vs htr) fl)
  · rintro rfl cachesize hn o he
    obtain ⟨_, htr, T, rfl, hdn⟩ := hagrees
    have hspec := wp_exec he (hdn.recover hl hx (AFS.goodSize_computeXparams hsize) rfl hn)
    cases o with
    | failed => exact hspec.elim
    | collided | crashed =>
      refine ⟨by simp, ?_⟩
      rintro s' x heq
      cases heq
    | finished s' x =>
      refine ⟨by simp, ?_⟩
      rintro _ _ heq
      cases heq
      obtain ⟨ams, rfl, _⟩ := hspec
      exact ⟨ams, rfl⟩

end Format

end TreeSeq

end Fscq
