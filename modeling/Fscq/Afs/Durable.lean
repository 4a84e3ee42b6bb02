import Fscq.Afs.FirstFile

/-!
# What a sync makes durable

After `fileSync` and `treeSync` every version has the file as it is, without older values (`Durable`), and this holds until a
call is on the file or takes it from its path, however often the power fails (`fsync_durable`). After `fileSync` alone it
holds if the file has the same blocks in all versions: since the last `treeSync` it was only written directly
(`fdatasync_durable`).
-/

namespace Fscq

open CrashLogic
open Dirtree (findSubtree mapFiles WellFormed)
open AFS (Memstate)

namespace TreeSeq

variable {V : Version} {Vs Vs' : Treeseq} {T T' : FsTree} {p : List Sname} {i : Nat} {f : File} {c : Call} {r : FsRun.Result}

/-! ## The file in every version -/

/-- In every version the file is at its path. -/
def InAll (p : List Sname) (i : Nat) (f : File) (Vs : Treeseq) : Prop := ∀ V ∈ Vs, findSubtree p V.tree = some (.file i f)

/-- Its blocks have no older values. -/
def OneValue (i : Nat) (Vs : Treeseq) : Prop := ∀ V ∈ Vs, ∀ off w, ¬ V.old i off w

structure Durable (p : List Sname) (i : Nat) (f : File) (Vs : Treeseq) : Prop where
  file : InAll p i f Vs
  value : OneValue i Vs

theorem hasBlock_iff (hw : WellFormed T) (hp : findSubtree p T = some (.file i f)) {off : Nat} :
    HasBlock T i off ↔ off < f.data.length := by
  constructor
  · rintro ⟨q, f', hq, ho⟩
    obtain ⟨_, heq⟩ := FsRun.find_unique hw.inodes hp hq rfl
    cases heq
    exact ho
  · exact fun ho => ⟨p, f, hp, ho⟩

theorem Step.inAll (h : Step (V :: Vs) c r Vs') (hok : ∀ U ∈ V :: Vs, U.Ok) (hc : c.Spares p i V.tree)
    (hf : InAll p i f (V :: Vs)) : InAll p i f Vs' := by
  cases h with
  | update hu =>
    intro U hU
    rcases List.mem_cons.1 hU with rfl | hU
    · exact hu.spares (hok V List.mem_cons_self).tree.names (hf V List.mem_cons_self) hc
    · exact hf U hU
  | read | failed => exact hf
  | @updateFblockD _ inum off v =>
    have hne : ¬ i = inum := fun h => hc h.symm
    intro U hU
    obtain ⟨k, hk, rfl⟩ := List.mem_mapIdx.1 hU
    have hold := hf _ (List.getElem_mem hk)
    split
    · have hset := find_setBlock inum off v hold
      rw [if_neg hne] at hset
      exact hset
    · exact hold
  | fileSync =>
    intro U hU
    obtain ⟨k, hk, rfl⟩ := List.mem_mapIdx.1 hU
    have hold := hf _ (List.getElem_mem hk)
    exact hold
  | treeSync =>
    intro U hU
    obtain rfl := List.mem_singleton.1 hU
    exact hf _ List.mem_cons_self
  | umount =>
    intro U hU
    obtain rfl := List.mem_singleton.1 hU
    have hnow := hf _ List.mem_cons_self
    exact hnow

theorem Step.oneValue (h : Step (V :: Vs) c r Vs') (hc : c.Spares p i V.tree) (hv : OneValue i (V :: Vs)) : OneValue i Vs' := by
  cases h with
  | update =>
    intro U hU
    rcases List.mem_cons.1 hU with rfl | hU
    · rintro off w ⟨h, _⟩
      exact hv V List.mem_cons_self off w h
    · exact hv U hU
  | read | failed => exact hv
  | updateFblockD =>
    intro U hU
    obtain ⟨k, hk, rfl⟩ := List.mem_mapIdx.1 hU
    have hold := hv _ (List.getElem_mem hk)
    split
    · rintro off w (h | ⟨h, _⟩)
      · exact hold off w h
      · exact hc h.symm
    · exact hold
  | fileSync =>
    intro U hU
    obtain ⟨k, hk, rfl⟩ := List.mem_mapIdx.1 hU
    rintro off w ⟨h, _⟩
    exact hv _ (List.getElem_mem hk) off w h
  | treeSync =>
    intro U hU
    obtain rfl := List.mem_singleton.1 hU
    exact hv _ List.mem_cons_self
  | umount =>
    intro U hU
    obtain rfl := List.mem_singleton.1 hU
    exact fun _ _ h => h

theorem Step.durable (h : Step (V :: Vs) c r Vs') (hok : ∀ U ∈ V :: Vs, U.Ok) (hc : c.Spares p i V.tree)
    (hd : Durable p i f (V :: Vs)) : Durable p i f Vs' := ⟨h.inAll hok hc hd.file, h.oneValue hc hd.value⟩

theorem Crash.durable {c : Option Call} (h : Crash (V :: Vs) c T') (hok : ∀ U ∈ V :: Vs, U.Ok)
    (hc : ∀ c', c = some c' → c'.Spares p i V.tree) (hd : Durable p i f (V :: Vs)) : Durable p i f [.settled T'] := by
  obtain ⟨Vs', hVs', U, hU, g, rfl, hg⟩ := h
  have hd' : Durable p i f Vs' := by
    rcases hVs' with rfl | ⟨c', r, rfl, hstep⟩
    · exact hd
    · exact hstep.durable hok (hc c' rfl) hd
  refine ⟨fun W hW => ?_, fun W hW => ?_⟩
  · obtain rfl := List.mem_singleton.1 hW
    have hfile := hd'.file U hU
    exact (Dirtree.findSubtree_mapFiles_file g).2 ⟨f, hfile, (hg p i f hfile).eq fun off w => hd'.value U hU off w⟩
  · obtain rfl := List.mem_singleton.1 hW
    exact fun _ _ h => h

/-! ## Syncs -/

/-- `fileSync` and `treeSync`. -/
theorem durable_of_syncs {Vs₁ Vs₂ : Treeseq} {r₁ r₂ : FsRun.Result} (hok : ∀ U ∈ V :: Vs, U.Ok)
    (hp : findSubtree p V.tree = some (.file i f)) (h₁ : Step (V :: Vs) (.fileSync i) r₁ Vs₁)
    (h₂ : Step Vs₁ (.basic .treeSync) r₂ Vs₂) : Durable p i f Vs₂ := by
  cases h₁ with
  | update hu => cases hu
  | fileSync =>
    have hcons : syncFile i (V :: Vs) = V.sync i (Kept (V :: Vs) 0 i) ::
        Vs.mapIdx fun k U => U.sync i (Kept (V :: Vs) (k + 1) i) := by rw [syncFile, List.mapIdx_cons]
    rw [hcons] at h₂
    cases h₂ with
    | update hu =>
      cases hu with
      | basic hu => cases hu
    | read hread => cases hread
    | failed hf => cases hf
    | treeSync =>
      refine ⟨fun U hU => ?_, fun U hU => ?_⟩
      · obtain rfl := List.mem_singleton.1 hU
        exact hp
      · obtain rfl := List.mem_singleton.1 hU
        rintro off w ⟨hold, hnot⟩
        exact hnot ⟨rfl, kept_zero.2 ((hok V List.mem_cons_self).old hold)⟩

/-- `fileSync`, if the file has the same blocks in every version. -/
theorem durable_of_fileSync (hok : ∀ U ∈ V :: Vs, U.Ok) (hf : InAll p i f (V :: Vs))
    (h : Step (V :: Vs) (.fileSync i) r Vs') : Durable p i f Vs' := by
  refine ⟨h.inAll hok trivial hf, ?_⟩
  cases h with
  | update hu => cases hu
  | fileSync =>
    intro U hU
    obtain ⟨k, hk, rfl⟩ := List.mem_mapIdx.1 hU
    have hmem := List.getElem_mem hk
    rintro off w ⟨hold, hnot⟩
    refine hnot ⟨rfl, fun j _ W hW => ?_⟩
    have hoff := (hasBlock_iff (hok _ hmem).tree (hf _ hmem)).1 ((hok _ hmem).old hold)
    have hWmem := List.mem_of_getElem? hW
    exact (hasBlock_iff (hok W hWmem).tree (hf W hWmem)).2 hoff

/-- A direct write is seen in every version that has the block. -/
theorem Step.inAll_write {off : Nat} {v : Valu} (hok : ∀ U ∈ V :: Vs, U.Ok) (hf : InAll p i f (V :: Vs))
    (h : Step (V :: Vs) (.updateFblockD i off v) r Vs') : InAll p i ⟨f.data.set off v, f.attr⟩ Vs' := by
  cases h with
  | update hu => cases hu
  | updateFblockD hkept =>
    intro U hU
    obtain ⟨k, hk, rfl⟩ := List.mem_mapIdx.1 hU
    have hmem := List.getElem_mem hk
    have hoff := (hasBlock_iff (hok V List.mem_cons_self).tree (hf V List.mem_cons_self)).1 hkept.head
    have hall : Kept (V :: Vs) k i off := by
      intro j _ W hW
      have hWmem := List.mem_of_getElem? hW
      exact (hasBlock_iff (hok W hWmem).tree (hf W hWmem)).2 hoff
    rw [if_pos hall]
    have hset := find_setBlock i off v (hf _ hmem)
    rwa [if_pos rfl] at hset

/-! ## Histories -/

def Event.callOf : Event → Option Call
  | .call c _ => some c
  | .crash c => c

/-- After the events `es₁`, each call has the property `P` in whatever state the machine then is. -/
def Calls (P : Call → FsTree → Prop) (es₁ : List Event) : List Event → Prop
  | [] => True
  | e :: es => Calls P es₁ es ∧ ∀ c, e.callOf = some c → ∀ V Vs, Trace (es ++ es₁) (V :: Vs) → P c V.tree

/-- What is read of the file and its path is what `f` says. -/
def Event.Shows (p : List Sname) (i : Nat) (f : File) : Event → Prop
  | .call (.basic (.readFblock j off)) (.block v) => j = i → f.data[off]? = some v
  | .call (.basic (.fileGetAttr j)) (.attr a) => j = i → a = f.attr
  | .call (.basic (.lookup dnum names)) (.found r) => dnum = 1 → names = p → r = .ok (i, false)
  | _ => True

theorem shows_of_find (hok : V.Ok) (hp : findSubtree p V.tree = some (.file i f))
    (h : Step (V :: Vs) c r Vs') : (Event.call c r).Shows p i f := by
  have hfile : ∀ {q f'}, findSubtree q V.tree = some (.file i f') → f' = f := by
    intro q f' hq
    obtain ⟨_, heq⟩ := FsRun.find_unique hok.tree.inodes hp hq rfl
    cases heq
    rfl
  cases h with
  | read hread =>
    cases hread with
    | readFblock hq hv =>
      rintro rfl
      rw [← hfile hq]
      exact hv
    | fileGetAttr ha =>
      rintro rfl
      exact ha p f hp
    | lookup hq hr =>
      rintro rfl rfl
      obtain ⟨_, heq⟩ := FsRun.find_unique hok.tree.inodes hq (Dirtree.findSubtree_nil V.tree) hok.root.1.symm
      refine (hr _).2 ?_
      rw [heq, Dirtree.findName_eq, hp]
      rfl
    | readdir => trivial
  | update hu =>
    cases hu with
    | basic hu => cases hu <;> trivial
    | mksock | fileSetSz => trivial
  | failed hf => cases hf <;> trivial
  | updateFblockD | fileSync | treeSync | umount => trivial

/-- What is durable stays, and is what is read, until a call does not spare it. -/
theorem durable_run {es₁ : List Event} : ∀ {es : List Event} {Vs' : Treeseq}, Trace (es ++ es₁) Vs' →
    Calls (fun c T => c.Spares p i T) es₁ es → ∃ Vs, Trace es₁ Vs ∧
      ∀ f, Durable p i f Vs → Durable p i f Vs' ∧ ∀ e ∈ es, e.Shows p i f
  | [], Vs', htr, _ => ⟨Vs', htr, fun f hd => ⟨hd, fun _ he => absurd he List.not_mem_nil⟩⟩
  | e :: es, Vs', htr, ⟨hes, he⟩ => by
    obtain ⟨V, Vs, hbefore, hlast⟩ := trace_cons htr
    obtain ⟨Vs₁, htr₁, hrun⟩ := durable_run hbefore hes
    refine ⟨Vs₁, htr₁, fun f hd => ?_⟩
    obtain ⟨hd', hshows⟩ := hrun f hd
    have hp := hd'.file V List.mem_cons_self
    rcases hlast with ⟨c, r, rfl, hstep⟩ | ⟨c, T', rfl, hcrash, rfl⟩
    · refine ⟨hstep.durable hbefore.ok (he c rfl V Vs hbefore) hd', fun e' he' => ?_⟩
      rcases List.mem_cons.1 he' with rfl | he'
      · exact shows_of_find (hbefore.ok V List.mem_cons_self) hp hstep
      · exact hshows e' he'
    · refine ⟨hcrash.durable hbefore.ok (fun c' hc' => he c' hc' V Vs hbefore) hd', fun e' he' => ?_⟩
      rcases List.mem_cons.1 he' with rfl | he'
      · trivial
      · exact hshows e' he'

/-- The call writes to the file directly, or spares it. -/
def Call.Direct (p : List Sname) (i : Nat) (c : Call) (T : FsTree) : Prop := (∃ off v, c = .updateFblockD i off v) ∨ c.Spares p i T

theorem Step.inAll_direct (h : Step (V :: Vs) c r Vs') (hok : ∀ U ∈ V :: Vs, U.Ok) (hc : c.Direct p i V.tree)
    (hf : InAll p i f (V :: Vs)) : ∃ f', InAll p i f' Vs' := by
  rcases hc with ⟨off, v, rfl⟩ | hc
  · exact ⟨_, h.inAll_write hok hf⟩
  · exact ⟨f, h.inAll hok hc hf⟩

/-- The versions have the same file since the last `treeSync`. -/
theorem inAll_run {es₁ : List Event} (hbase : ∀ Vs, Trace es₁ Vs → ∃ f, InAll p i f Vs) : ∀ {es : List Event} {Vs' : Treeseq},
    Trace (es ++ es₁) Vs' → Calls (Call.Direct p i) es₁ es → ∃ f, InAll p i f Vs'
  | [], Vs', htr, _ => hbase Vs' htr
  | e :: es, Vs', htr, ⟨hes, he⟩ => by
    obtain ⟨V, Vs, hbefore, hlast⟩ := trace_cons htr
    obtain ⟨f, hf⟩ := inAll_run hbase hbefore hes
    rcases hlast with ⟨c, r, rfl, hstep⟩ | ⟨c, T', rfl, hcrash, rfl⟩
    · exact hstep.inAll_direct hbefore.ok (he c rfl V Vs hbefore) hf
    · obtain ⟨Vs₁, hVs₁, U, hU, g, rfl, hg⟩ := hcrash
      obtain ⟨f', hf'⟩ : ∃ f', InAll p i f' Vs₁ := by
        rcases hVs₁ with rfl | ⟨c', r, rfl, hstep⟩
        · exact ⟨f, hf⟩
        · exact hstep.inAll_direct hbefore.ok (he c' rfl V Vs hbefore) hf
      refine ⟨g i f', fun W hW => ?_⟩
      obtain rfl := List.mem_singleton.1 hW
      exact (Dirtree.findSubtree_mapFiles_file g).2 ⟨f', hf' U hU, rfl⟩

theorem inAll_treeSync {es : List Event} (hp : ∀ V Vs, Trace es (V :: Vs) → ∃ f, findSubtree p V.tree = some (.file i f))
    (h : Trace (.call (.basic .treeSync) .synced :: es) Vs') : ∃ f, InAll p i f Vs' := by
  obtain ⟨V, Vs, htr, hstep⟩ := trace_call h
  obtain ⟨f, hf⟩ := hp V Vs htr
  rw [hstep.of_treeSync]
  refine ⟨f, fun U hU => ?_⟩
  obtain rfl := List.mem_singleton.1 hU
  exact hf

/-! ## The file system -/

/-- After the events `es₂` every tree that the machine is in, or may fall back to, has the file at its path, with one value
for each block; and whenever the file or its path were read, it was so. -/
def Endures (h : HashKey → HashVal) (xp : FsXparams) (n : Nat) (p : List Sname) (i : Nat) (f : File) (es₂ es₁ : List Event)
    (m : Option Memstate) (s : St Valu HashKey) : Prop :=
  ∃ Vs, Trace (es₂ ++ es₁) Vs ∧ InState h xp n Vs m s ∧ Durable p i f Vs ∧ ∀ e ∈ es₂, e.Shows p i f

section Format

variable {dataBitmaps inodeBitmaps logDescrBlocks : Nat} (hd : dataBitmaps ≠ 0) (hi : inodeBitmaps ≠ 0)
  (hi' : inodeBitmaps ≤ valulen * valulen) (hsize : AFS.rawSize dataBitmaps inodeBitmaps logDescrBlocks < 2 ^ 64)
include hd hi hi' hsize

/-- A file that was synced, with the tree, is as it was then in every tree of the machine, however often the power fails, until
a call is on it or takes it from its path. -/
theorem fsync_durable (h : HashKey → HashVal) : ∀ es₁ es₂ m s p i,
    Life h dataBitmaps inodeBitmaps logDescrBlocks
      (es₂ ++ (.call (.basic .treeSync) .synced :: .call (.fileSync i) .synced :: es₁)) m s →
    Legal (es₂ ++ (.call (.basic .treeSync) .synced :: .call (.fileSync i) .synced :: es₁)) →
    (∀ V Vs, Trace es₁ (V :: Vs) → ∃ f, findSubtree p V.tree = some (.file i f)) →
    Calls (fun c T => c.Spares p i T) (.call (.basic .treeSync) .synced :: .call (.fileSync i) .synced :: es₁) es₂ →
    ∃ V Vs f, Trace es₁ (V :: Vs) ∧ findSubtree p V.tree = some (.file i f) ∧
      Endures h (AFS.computeXparams dataBitmaps inodeBitmaps logDescrBlocks SB.magicNumber)
        (AFS.diskSize dataBitmaps inodeBitmaps) p i f es₂
        (.call (.basic .treeSync) .synced :: .call (.fileSync i) .synced :: es₁) m s := by
  intro es₁ es₂ m s p i hlife hleg hp hcalls
  obtain ⟨Vs', htr', hin⟩ := (life_refines hd hi hi' hsize h _ m s hlife hleg).agrees
  obtain ⟨Vs₂, htr₂, hrun⟩ := durable_run htr' hcalls
  obtain ⟨V₁, Vs₁, htr₁, hsync⟩ := trace_call htr₂
  obtain ⟨V, Vs, htr, hfile⟩ := trace_call htr₁
  obtain ⟨f, hf⟩ := hp V Vs htr
  exact ⟨V, Vs, f, htr, hf, Vs', htr', hin, hrun f (durable_of_syncs htr.ok hf hfile hsync)⟩

/-- `fileSync` alone, if the file was only written directly since the last `treeSync`. -/
theorem fdatasync_durable (h : HashKey → HashVal) : ∀ es₁ es₂ es₃ m s p i,
    Life h dataBitmaps inodeBitmaps logDescrBlocks
      (es₃ ++ (.call (.fileSync i) .synced :: (es₂ ++ (.call (.basic .treeSync) .synced :: es₁)))) m s →
    Legal (es₃ ++ (.call (.fileSync i) .synced :: (es₂ ++ (.call (.basic .treeSync) .synced :: es₁)))) →
    (∀ V Vs, Trace es₁ (V :: Vs) → ∃ f, findSubtree p V.tree = some (.file i f)) →
    Calls (Call.Direct p i) (.call (.basic .treeSync) .synced :: es₁) es₂ →
    Calls (fun c T => c.Spares p i T) (.call (.fileSync i) .synced :: (es₂ ++ (.call (.basic .treeSync) .synced :: es₁))) es₃ →
    ∃ V Vs f, Trace (es₂ ++ (.call (.basic .treeSync) .synced :: es₁)) (V :: Vs) ∧
      findSubtree p V.tree = some (.file i f) ∧
      Endures h (AFS.computeXparams dataBitmaps inodeBitmaps logDescrBlocks SB.magicNumber)
        (AFS.diskSize dataBitmaps inodeBitmaps) p i f es₃
        (.call (.fileSync i) .synced :: (es₂ ++ (.call (.basic .treeSync) .synced :: es₁))) m s := by
  intro es₁ es₂ es₃ m s p i hlife hleg hp hdirect hcalls
  obtain ⟨Vs', htr', hin⟩ := (life_refines hd hi hi' hsize h _ m s hlife hleg).agrees
  obtain ⟨Vs₂, htr₂, hrun⟩ := durable_run htr' hcalls
  obtain ⟨V, Vs, htr, hfile⟩ := trace_call htr₂
  obtain ⟨f, hf⟩ := inAll_run (fun _ => inAll_treeSync hp) htr hdirect
  exact ⟨V, Vs, f, htr, hf V List.mem_cons_self, Vs', htr', hin, hrun f (durable_of_fileSync htr.ok hf hfile)⟩

end Format

/-- The new file is synced, and read before the power fails. -/
theorem fsync_durable_small : ∃ h i m s,
    Life h 1 1 256 ([.crash none, .call (.basic (.readFblock i 0)) (.block 0)] ++
      (.call (.basic .treeSync) .synced :: .call (.fileSync i) .synced :: newFile i)) m s ∧
    ∃ V Vs f, Trace (newFile i) (V :: Vs) ∧ findSubtree [[97]] V.tree = some (.file i f) ∧
      Endures h (AFS.computeXparams 1 1 256 SB.magicNumber) (AFS.diskSize 1 1) [[97]] i f
        [.crash none, .call (.basic (.readFblock i 0)) (.block 0)]
        (.call (.basic .treeSync) .synced :: .call (.fileSync i) .synced :: newFile i) m s := by
  obtain ⟨i, h₀, ams₀, s₀, hlife₀, ha₀, hlen₀⟩ := exists_newFile
  have hnew := find_newFile i
  have hleg₁ := hnew.legal_fileSync (legal_newFile i)
  have hleg₂ := hleg₁.treeSync
  have hread : Finds (.call (.basic .treeSync) .synced :: .call (.fileSync i) .synced :: newFile i) [[97]] i
      (·.data[0]? = some 0) := hnew.fileSync.treeSync.mono fun f hf => by rw [hf]; rfl
  obtain ⟨h₁, ams₁, s₁, hlife₁, ha₁, hlen₁⟩ := hlife₀.fileSync ha₀ (by omega) hleg₁
  obtain ⟨h, ams₂, s₂, hlife₂, _, _⟩ := hlife₁.treeSync ha₁ (by omega) hleg₂
  obtain ⟨ams, s, hlife, hleg⟩ := hlife₂.readFblock hread hleg₂
  have hcrash := Life.crash hlife (Bufcache.possibleCrash_syncMem s.disk)
  refine ⟨h, i, _, _, hcrash, fsync_durable (by decide) (by decide) (by decide) (by decide) h (newFile i)
    [.crash none, .call (.basic (.readFblock i 0)) (.block 0)] _ _ [[97]] i hcrash ⟨hleg, ?_⟩ hnew.file
    ⟨⟨trivial, ?_⟩, ?_⟩⟩
  · rintro c h
    cases h
  · rintro c h V Vs _
    cases h
    exact trivial
  · rintro c h
    cases h

/-- The new file is written, synced, and read before the power fails. -/
theorem fdatasync_durable_small : ∃ h i m s,
    Life h 1 1 256 ([.crash none, .call (.basic (.readFblock i 0)) (.block 1)] ++ (.call (.fileSync i) .synced ::
        ([.call (.updateFblockD i 0 1) (.written true)] ++ (.call (.basic .treeSync) .synced :: newFile i)))) m s ∧
    ∃ V Vs f, Trace ([.call (.updateFblockD i 0 1) (.written true)] ++ (.call (.basic .treeSync) .synced :: newFile i)) (V :: Vs) ∧
      findSubtree [[97]] V.tree = some (.file i f) ∧
      Endures h (AFS.computeXparams 1 1 256 SB.magicNumber) (AFS.diskSize 1 1) [[97]] i f
        [.crash none, .call (.basic (.readFblock i 0)) (.block 1)] (.call (.fileSync i) .synced ::
          ([.call (.updateFblockD i 0 1) (.written true)] ++ (.call (.basic .treeSync) .synced :: newFile i))) m s := by
  obtain ⟨i, h₀, ams₀, s₀, hlife₀, ha₀, hlen₀⟩ := exists_newFile
  have hnew := find_newFile i
  have hleg₁ := (legal_newFile i).treeSync
  have hleg₂ : Legal (.call (.updateFblockD i 0 1) (.written true) :: .call (.basic .treeSync) .synced :: newFile i) :=
    hnew.treeSync.legal_written (fun f hf => by rw [hf]; exact Nat.one_pos) hleg₁
  have hleg₃ := hnew.treeSync.written.legal_fileSync hleg₂
  have hread : Finds (.call (.fileSync i) .synced :: .call (.updateFblockD i 0 1) (.written true) ::
      .call (.basic .treeSync) .synced :: newFile i) [[97]] i (·.data[0]? = some 1) :=
    hnew.treeSync.written.fileSync.mono fun f' ⟨f, hf, hset⟩ => by rw [hset, hf]; rfl
  obtain ⟨h₁, ams₁, s₁, hlife₁, ha₁, hlen₁⟩ := hlife₀.treeSync ha₀ (by omega) hleg₁
  obtain ⟨h₂, ams₂, s₂, hlife₂, ha₂, hlen₂⟩ := hlife₁.updateFblockD ha₁ (by omega) hleg₂
  obtain ⟨h, ams₃, s₃, hlife₃, _, _⟩ := hlife₂.fileSync ha₂ (by omega) hleg₃
  obtain ⟨ams, s, hlife, hleg⟩ := hlife₃.readFblock hread hleg₃
  have hcrash := Life.crash hlife (Bufcache.possibleCrash_syncMem s.disk)
  refine ⟨h, i, _, _, hcrash, fdatasync_durable (by decide) (by decide) (by decide) (by decide) h (newFile i)
    [.call (.updateFblockD i 0 1) (.written true)] [.crash none, .call (.basic (.readFblock i 0)) (.block 1)] _ _ [[97]] i hcrash
    ⟨hleg, ?_⟩ hnew.file ⟨trivial, ?_⟩ ⟨⟨trivial, ?_⟩, ?_⟩⟩
  · rintro c h
    cases h
  · rintro c h V Vs _
    cases h
    exact .inl ⟨0, 1, rfl⟩
  · rintro c h V Vs _
    cases h
    exact trivial
  · rintro c h
    cases h

end TreeSeq

end Fscq
