import Fscq.Afs.TreeSeqFacts

/-!
# Programs above the file system

A program that is made of calls is verified against the machine: each call takes the versions to ones that the machine may
reach (`Up.ask`), and when the power fails in it, to a tree that the machine allows there. What such a program ensures is
put with `Reaches` for its end and `Fallen` for its crashes, so that the rules of `wp` compose these facts.
-/

namespace CrashLogic

variable {V K H α β : Type} {h : K → H} {s : St V K}

/-- `wp_map` the other way. -/
theorem wp_of_map {f : α → β} {Q : β → St V K → Prop} {C : St V K → Prop} : ∀ {p : Prog V K H α} {s : St V K},
    wp h (f <$> p) Q C s → wp h p (fun a s => Q (f a) s) C s
  | .ret _, _, hw => hw
  | .read _ _, _, ⟨hc, vs, hd, hk⟩ => ⟨hc, vs, hd, fun m hm => wp_of_map (hk m hm)⟩
  | .write _ _ _, _, ⟨hc, vs, hd, hk⟩ => ⟨hc, vs, hd, fun m hm => wp_of_map (hk m hm)⟩
  | .sync _, _, ⟨hc, hk⟩ => ⟨hc, fun m hm => wp_of_map (hk m hm)⟩
  | .hash _ _, _, hk => fun hs m hm => wp_of_map (hk hs m hm)

end CrashLogic

namespace Fscq

open TxnLogic CrashLogic
open Dirtree (findSubtree findName InodesDistinct)
open AFS (Memstate)
open FsRun (Result)
open INODE (Iattr)

namespace TreeSeq

variable {h : HashKey → HashVal} {xp : FsXparams} {n : Nat} {V V' : Version} {Vs Vs' : Treeseq} {ams : Memstate}
  {s : St Valu HashKey} {c : Call} {T : FsTree}

/-- Mounted, with versions that have `Q`. -/
def Reaches (h : HashKey → HashVal) (xp : FsXparams) (n : Nat) (Q : Treeseq → Prop) (ams : Memstate) (s : St Valu HashKey) :
    Prop := ∃ V Vs, Q (V :: Vs) ∧ Up h xp n V Vs ams s

theorem Reaches.mono {Q Q' : Treeseq → Prop} (hr : Reaches h xp n Q ams s) (hQ : ∀ Vs, Q Vs → Q' Vs) :
    Reaches h xp n Q' ams s := by
  obtain ⟨V, Vs, hVs, hu⟩ := hr
  exact ⟨V, Vs, hQ _ hVs, hu⟩

/-! ## The calls -/

theorem Step.readOnly {c : FsRun.Call} {r : Result} (hc : c.ReadOnly) (h : Step Vs (.basic c) r Vs') :
    Vs' = Vs ∧ ∃ V Vs₀, Vs = V :: Vs₀ ∧ FsRun.Reads V.tree c r := by
  cases h with
  | update hu =>
    cases hu with
    | basic hu => cases hu <;> exact hc.elim
  | read hread => exact ⟨rfl, _, _, rfl, hread⟩
  | failed hf => cases hf <;> exact hc.elim
  | treeSync => exact hc.elim

theorem Lost.not_readOnly {c : FsRun.Call} {r : Result} (h : Lost (.basic c) r) : ¬ c.ReadOnly := by
  cases h
  exact id

theorem Crash.readOnly {c : FsRun.Call} (hc : c.ReadOnly) (h : Crash Vs (some (.basic c)) T) : Crash Vs none T := by
  obtain ⟨Vs', hVs', hfall⟩ := h
  refine ⟨Vs, .inl rfl, ?_⟩
  rcases hVs' with rfl | ⟨c', r, heq, hstep⟩
  · exact hfall
  · cases heq
    obtain ⟨rfl, _⟩ := hstep.readOnly hc
    exact hfall

/-- The power fails in a call through the log: an older version is left, or the one that the call makes. -/
theorem Crash.of_basic {c : FsRun.Call} (h : Crash (V :: Vs) (some (.basic c)) T) :
    (∃ U ∈ V :: Vs, U.Falls T) ∨ ∃ r T', Updates V.tree (.basic c) r T' ∧ (V.next (.basic c) T').Falls T := by
  obtain ⟨Vs', hVs', U, hU, hf⟩ := h
  rcases hVs' with rfl | ⟨c', r, heq, hstep⟩
  · exact .inl ⟨U, hU, hf⟩
  cases heq
  cases hstep with
  | update hu =>
    rcases List.mem_cons.1 hU with rfl | hU
    · exact .inr ⟨r, _, hu, hf⟩
    · exact .inl ⟨U, hU, hf⟩
  | read | failed => exact .inl ⟨U, hU, hf⟩
  | treeSync =>
    rw [List.mem_singleton.1 hU] at hf
    exact .inl ⟨V, List.mem_cons_self, hf⟩

section Calls

variable (hl : FsLayout xp n) (hx : xp.fsxpLog.AboveZero) (hu : Up h xp n V Vs ams s)
include hl hx hu

/-- The program of a call that cannot lose its memory state. -/
theorem Up.ask {β : Type} {g : β → Memstate × Result} {p : FProg β} (c : Call) (fl : Bool)
    (heq : c.run fl xp ams = g <$> p) (hc : c.Valid V.tree) (hlost : ∀ b, ¬ Lost c (g b).2) :
    wp h p (fun b => Reaches h xp n (Step (V :: Vs) c (g b).2) (g b).1) (Fallen h xp n (Crash (V :: Vs) (some c))) s := by
  have hspec := hu.call hl hx hc fl
  rw [heq] at hspec
  refine wp_mono (fun b s' hb => ?_) (fun _ hf => hf) _ (wp_of_map hspec)
  exact hb.resolve_left fun h => hlost b h.1

theorem Up.askRo {β : Type} {g : β → Memstate × Result} {p : FProg β} (c : FsRun.Call)
    (heq : c.run true xp ams = g <$> p) (hc : c.Valid V.tree) (hro : c.ReadOnly) :
    wp h p (fun b s' => FsRun.Reads V.tree c (g b).2 ∧ Up h xp n V Vs (g b).1 s') (Fallen h xp n (Crash (V :: Vs) none)) s := by
  refine wp_mono ?_ (fun _ hf => hf.mono fun _ => Crash.readOnly hro) _ 
    (hu.ask hl hx (.basic c) true heq hc fun b hlost => hlost.not_readOnly hro)
  rintro b s' ⟨V', Vs', hstep, hu'⟩
  obtain ⟨heq, V₀, Vs₀, heq', hread⟩ := hstep.readOnly hro
  cases heq
  cases heq'
  exact ⟨hread, hu'⟩

section Ro

variable {p : List Sname} {i : Nat} {f : File} (hp : findSubtree p V.tree = some (.file i f))
include hp

theorem Up.fileGetAttr : wp h (AFS.fileGetAttr xp i ams) (fun x s' => x.2 = f.attr ∧ Up h xp n V Vs x.1 s')
    (Fallen h xp n (Crash (V :: Vs) none)) s := by
  refine wp_mono ?_ (fun _ hf => hf) _ (hu.askRo hl hx (.fileGetAttr i) rfl ⟨p, _, hp, rfl⟩ trivial)
  rintro x s' ⟨hread, hu'⟩
  refine ⟨?_, hu'⟩
  cases hread with
  | fileGetAttr ha => exact ha p f hp

theorem Up.readFblock (hd : InodesDistinct V.tree) {off : Nat} {v : Valu} (hv : f.data[off]? = some v) :
    wp h (AFS.readFblock xp i off ams) (fun x s' => x.2 = v ∧ Up h xp n V Vs x.1 s')
      (Fallen h xp n (Crash (V :: Vs) none)) s := by
  have hlt := (List.getElem?_eq_some_iff.1 hv).1
  refine wp_mono ?_ (fun _ hf => hf) _ (hu.askRo hl hx (.readFblock i off) rfl ⟨p, f, hp, hlt⟩ trivial)
  rintro ⟨ams', w⟩ s' ⟨hread, hu'⟩
  refine ⟨?_, hu'⟩
  cases hread with
  | readFblock hq hw =>
    obtain ⟨rfl, hfile⟩ := FsRun.find_unique hd hp hq rfl
    cases hfile
    exact Option.some_inj.1 (hw.symm.trans hv)

end Ro

theorem Up.lookup {p : List Sname} {dnum : Nat} {ents : List (Sname × FsTree)} (hd : InodesDistinct V.tree)
    (hp : findSubtree p V.tree = some (.dir dnum ents)) (names : List Sname) :
    wp h (AFS.lookup xp dnum names ams)
      (fun x s' => (∀ v, x.2 = .ok v ↔ findName names (.dir dnum ents) = some v) ∧ Up h xp n V Vs x.1 s')
      (Fallen h xp n (Crash (V :: Vs) none)) s := by
  refine wp_mono ?_ (fun _ hf => hf) _ (hu.askRo hl hx (.lookup dnum names) rfl ⟨p, ents, hp⟩ trivial)
  rintro ⟨ams', r⟩ s' ⟨hread, hu'⟩
  refine ⟨?_, hu'⟩
  cases hread with
  | lookup hq hr =>
    obtain ⟨rfl, hdir⟩ := FsRun.find_unique hd hp hq rfl
    cases hdir
    exact hr

section Writes

variable {p : List Sname} (fl : Bool)

theorem Up.create {dnum : Nat} {ents : List (Sname × FsTree)} (hp : findSubtree p V.tree = some (.dir dnum ents))
    (name : Sname) : wp h (AFS.create fl xp dnum name ams)
      (fun x => Reaches h xp n (Step (V :: Vs) (.basic (.create dnum name)) (.inode x.2)) x.1)
      (Fallen h xp n (Crash (V :: Vs) (some (.basic (.create dnum name))))) s :=
  hu.ask hl hx (.basic (.create dnum name)) fl rfl ⟨p, ents, hp⟩ fun _ hlost => by cases hlost

theorem Up.delete {dnum : Nat} {ents : List (Sname × FsTree)} (hp : findSubtree p V.tree = some (.dir dnum ents))
    (name : Sname) : wp h (AFS.delete fl xp dnum name ams)
      (fun x => Reaches h xp n (Step (V :: Vs) (.basic (.delete dnum name)) (.done x.2)) x.1)
      (Fallen h xp n (Crash (V :: Vs) (some (.basic (.delete dnum name))))) s :=
  hu.ask hl hx (.basic (.delete dnum name)) fl rfl ⟨p, ents, hp⟩ fun _ hlost => by cases hlost

theorem Up.rename {dnum : Nat} {ents : List (Sname × FsTree)} (hp : findSubtree p V.tree = some (.dir dnum ents))
    (src : List Sname) (srcname : Sname) (dst : List Sname) (dstname : Sname) :
    wp h (AFS.rename fl xp dnum src srcname dst dstname ams)
      (fun x => Reaches h xp n (Step (V :: Vs) (.basic (.rename dnum src srcname dst dstname)) (.done x.2)) x.1)
      (Fallen h xp n (Crash (V :: Vs) (some (.basic (.rename dnum src srcname dst dstname))))) s :=
  hu.ask hl hx (.basic (.rename dnum src srcname dst dstname)) fl rfl ⟨p, ents, hp⟩ fun _ hlost => by cases hlost

theorem Up.fileTruncate {i : Nat} {f : File} (hp : findSubtree p V.tree = some (.file i f)) (sz : Nat) :
    wp h (AFS.fileTruncate fl xp i sz ams)
      (fun x => Reaches h xp n (Step (V :: Vs) (.basic (.fileTruncate i sz)) (.done x.2)) x.1)
      (Fallen h xp n (Crash (V :: Vs) (some (.basic (.fileTruncate i sz))))) s :=
  hu.ask hl hx (.basic (.fileTruncate i sz)) fl rfl ⟨p, f, hp⟩ fun _ hlost => by cases hlost

theorem Up.fileSetAttr {i : Nat} {f : File} (hp : findSubtree p V.tree = some (.file i f)) (attr : Iattr) :
    wp h (AFS.fileSetAttr fl xp i attr ams)
      (fun x => Reaches h xp n (Step (V :: Vs) (.basic (.fileSetAttr i attr)) (.done x.2)) x.1)
      (Fallen h xp n (Crash (V :: Vs) (some (.basic (.fileSetAttr i attr))))) s :=
  hu.ask hl hx (.basic (.fileSetAttr i attr)) fl rfl ⟨p, f, hp⟩ fun _ hlost => by cases hlost

theorem Up.updateFblock {i : Nat} {f : File} {off : Nat} (hp : findSubtree p V.tree = some (.file i f))
    (ho : off < f.data.length) (v : Valu) : wp h (AFS.updateFblock fl xp i off v ams)
      (fun x => Reaches h xp n (Step (V :: Vs) (.basic (.updateFblock i off v)) (.written x.2)) x.1)
      (Fallen h xp n (Crash (V :: Vs) (some (.basic (.updateFblock i off v))))) s :=
  hu.ask hl hx (.basic (.updateFblock i off v)) fl rfl ⟨p, f, hp, ho⟩ fun _ hlost => by cases hlost

omit fl

theorem Up.updateFblockD {i off : Nat} (hb : HasBlock V.tree i off) (v : Valu) :
    wp h (AFS.updateFblockD xp i off v ams)
      (fun ams' => Reaches h xp n (Step (V :: Vs) (.updateFblockD i off v) (.written true)) ams')
      (Fallen h xp n (Crash (V :: Vs) (some (.updateFblockD i off v)))) s :=
  hu.ask hl hx (.updateFblockD i off v) true rfl hb fun _ hlost => by cases hlost

theorem Up.fileSync {i : Nat} {f : File} (hp : findSubtree p V.tree = some (.file i f)) :
    wp h (AFS.fileSync xp i ams) (fun ams' => Reaches h xp n (Step (V :: Vs) (.fileSync i) .synced) ams')
      (Fallen h xp n (Crash (V :: Vs) (some (.fileSync i)))) s :=
  hu.ask hl hx (.fileSync i) true rfl ⟨p, f, hp⟩ fun _ hlost => by cases hlost

theorem Up.treeSync : wp h (AFS.treeSync xp ams) (fun ams' s' => Up h xp n V [] ams' s')
    (Fallen h xp n (Crash (V :: Vs) none)) s := by
  refine wp_mono ?_ (fun _ hf => hf.mono fun T hc => ?_) _
    (hu.ask hl hx (.basic .treeSync) true rfl trivial fun _ hlost => by cases hlost)
  · rintro ams' s' ⟨V', Vs', hstep, hu'⟩
    cases hstep.of_treeSync
    exact hu'
  · rcases hc.of_basic with hold | ⟨r, T', hu, _⟩
    · exact ⟨V :: Vs, .inl rfl, hold⟩
    · cases hu with
      | basic hu => cases hu

end Writes

end Calls

end TreeSeq

end Fscq
