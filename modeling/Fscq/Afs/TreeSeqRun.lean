import Fscq.Afs.TreeSeqRep

/-!
# Calls on a tree sequence

`Serves` says that a mounted file system has a tree sequence: the newest disk with the caches holds the newest tree, and each
disk that a crash may fall back to is an image of one of the versions (`Behind`). Every call takes it to a sequence that the
machine may reach (`call_spec`).
-/

namespace Fscq

open TxnLogic CrashLogic LogReplay BFILE
open MLog (MCrash RecTo)
open LOG (setCur)
open Bufcache (updVs syncAddrs)
open Dirtree (findSubtree findDirlist updateSubtree HasNode)
open AFS (Mounted)
open FsRun (Result)

namespace TreeSeq

variable {h : HashKey → HashVal} {xp : FsXparams} {n : Nat} {st st' : LogState} {V V' U : Version} {Vs Vs' : Treeseq}
  {ams ams' : AFS.Memstate} {s s' : St Valu HashKey} {c : Call} {r : Result} {e : RawDisk Valu} {T T' : FsTree}

/-! ## Blocks that a file has kept -/

section Kept

variable {k i off : Nat}

theorem kept_cons : Kept (V :: Vs) (k + 1) i off ↔ HasBlock V.tree i off ∧ Kept Vs k i off := by
  constructor
  · intro hk
    refine ⟨hk 0 (Nat.zero_le _) V rfl, fun j hj U hU => hk (j + 1) (by omega) U hU⟩
  · rintro ⟨hV, hk⟩ j hj U hU
    cases j with
    | zero =>
      cases hU
      exact hV
    | succ j => exact hk j (by omega) U hU

theorem Kept.head (hk : Kept (V :: Vs) k i off) : HasBlock V.tree i off := hk 0 (Nat.zero_le _) V rfl

theorem kept_zero : Kept (V :: Vs) 0 i off ↔ HasBlock V.tree i off := by
  refine ⟨Kept.head, fun hV j hj U hU => ?_⟩
  obtain rfl : j = 0 := by omega
  cases hU
  exact hV

/-- The same files have the same blocks. -/
theorem kept_congr {f : Nat → Version → Version} (hf : ∀ j U, HasBlock (f j U).tree i off ↔ HasBlock U.tree i off) :
    Kept (Vs.mapIdx f) k i off ↔ Kept Vs k i off := by
  have hget : ∀ j, (Vs.mapIdx f)[j]? = Vs[j]?.map (f j) := fun j => List.getElem?_mapIdx
  constructor
  · intro hk j hj U hU
    refine (hf j U).1 (hk j hj _ ?_)
    rw [hget, hU, Option.map_some]
  · intro hk j hj U hU
    rw [hget] at hU
    obtain ⟨U₀, hU₀, rfl⟩ := Option.map_eq_some_iff.1 hU
    exact (hf j U₀).2 (hk j hj U₀ hU₀)

end Kept

/-! ## A file system with a tree sequence -/

/-- The disk `e` is an image of a version. -/
def Behind (xp : FsXparams) (fms : BFILE.Memstate) (V : Version) (Vs : Treeseq) (d e : RawDisk Valu) : Prop :=
  ∃ k U, (V :: Vs)[k]? = some U ∧ Image xp U e ∧ Since xp fms (Kept (V :: Vs) k) e V.tree (ldisk d)

structure Serves (h : HashKey → HashVal) (xp : FsXparams) (n : Nat) (st : LogState) (V : Version) (Vs : Treeseq)
    (ams : AFS.Memstate) (s : St Valu HashKey) : Prop where
  mounted : Mounted h xp n st V.tree ams s
  newest : Image xp V st.newest
  behind : ∀ e, st.Pending e → Behind xp ams.fms V Vs st.newest e

/-- What a crash falls back to: an image of a version from before the call, or of one from after it. -/
def Left (xp : FsXparams) (Vs : Treeseq) (c : Option Call) (e : RawDisk Valu) : Prop :=
  ∃ Vs', (Vs' = Vs ∨ ∃ c' r, c = some c' ∧ Step Vs c' r Vs') ∧ ∃ U ∈ Vs', Image xp U e

/-- What a call leaves. If its memory state is lost, the disk is in order. -/
def Done (h : HashKey → HashVal) (xp : FsXparams) (n : Nat) (Vs : Treeseq) (c : Call) (x : AFS.Memstate × Result)
    (s : St Valu HashKey) : Prop :=
  (Lost c x.2 ∧ MCrash h xp.fsxpLog n (Left xp Vs (some c)) s) ∨
    ∃ V' Vs' st', Step Vs c x.2 (V' :: Vs') ∧ Serves h xp n st' V' Vs' x.1 s

theorem behind_newest {fms : BFILE.Memstate} (ht : TreeRep xp (ldisk e) fms V.tree) (hi : Image xp V e) :
    Behind xp fms V Vs e e :=
  ⟨0, V, rfl, hi, since_newest ht fun _ _ hb => kept_zero.2 hb⟩

theorem TreeRep.valid {fms : BFILE.Memstate} {d : LDisk} (ht : TreeRep xp d fms T) (i : Nat) (hi : HasNode T i false) :
    i < xp.nInodes := (node_valid ht hi).2.1

namespace Serves

theorem left (hs : Serves h xp n st V Vs ams s) {c : Option Call} (he : st.Pending e) : Left xp (V :: Vs) c e := by
  obtain ⟨k, U, hk, hi, _⟩ := hs.behind e he
  exact ⟨V :: Vs, .inl rfl, U, List.mem_of_getElem? hk, hi⟩

/-- The disk is as before. -/
theorem kept (hs : Serves h xp n st V Vs ams s) (hset : st.Settled st.newest st') (hm : Mounted h xp n st' V.tree ams' s')
    (hal : ams'.fms.msAlloc = ams.fms.msAlloc) (hdb : ams'.fms.msDBlocks = ams.fms.msDBlocks) :
    Serves h xp n st' V Vs ams' s' := by
  refine ⟨hm, ?_, fun e he => ?_⟩
  · rw [hset.newest]
    exact hs.newest
  · have hold : st.Pending e := by
      rcases hset.pending e he with h | rfl
      · exact h
      · exact LogState.pending_newest st
    obtain ⟨k, U, hk, hi, hsince⟩ := hs.behind e hold
    refine ⟨k, U, hk, hi, ?_⟩
    rw [hset.newest]
    exact hsince.setCaches hal hdb

/-- The log is as before, whatever the caches are. -/
theorem mcrash (hs : Serves h xp n st V Vs ams s) (hl : Layout xp.fsxpLog n) {ms : LOG.Memstate}
    (hlog : LOG.LRep h xp.fsxpLog n st' ms s') (hset : st.Settled st.newest st') (c : Option Call) :
    MCrash h xp.fsxpLog n (Left xp (V :: Vs) c) s' := by
  refine (hlog.mcrash hl).mono fun e he => ?_
  rcases hset.pending e he with h | rfl
  · exact hs.left h
  · exact hs.left (LogState.pending_newest st)

end Serves

/-- What the body of a successful call through the log makes of the tree `V`. -/
structure Made (xp : FsXparams) (V : Version) (c : Call) (r : Result) (ms : BFILE.Memstate) (d : LDisk) (T' : FsTree)
    (ms' : BFILE.Memstate) (d' : LDisk) : Prop where
  updates : Updates V.tree c r T'
  tree : TreeRep xp d' ms' T'
  carries : Carries xp V.tree ms d T' ms' d'
  overwrites : ∀ i off bn, c.Overwrites i off → (blks xp d' i)[off]? = some bn → d'.plain bn

section Made

variable {fms : BFILE.Memstate} {cur : Valumap} (hxp : xp.Ok n) (hs : Serves h xp n st V Vs ams s)
  (hmade : Made xp V c r ams.fms (ldisk st.newest) T' fms (ldisk (overlay cur st.newest)))
include hxp hs hmade

theorem Made.image : Image xp (V.next c T') (overlay cur st.newest) := by
  obtain ⟨Z, hr, hrep⟩ := hs.mounted.tree.nodes
  have hn := (DIRTREE.holds_tree hrep).namesDistinct hr
  exact hs.newest.next hxp hs.mounted.tree hmade.tree (fun i b hi => hmade.updates.nodes hn hi) hmade.carries hmade.overwrites

theorem Made.left : Left xp (V :: Vs) (some c) (overlay cur st.newest) :=
  ⟨_, .inr ⟨c, r, rfl, .update hmade.updates⟩, _, List.mem_cons_self, hmade.image hxp hs⟩

theorem Made.serves {ms : LOG.Memstate} (hlog : LOG.LRep h xp.fsxpLog n st' ms s')
    (hset : st.Settled (overlay cur st.newest) st') : Serves h xp n st' (V.next c T') (V :: Vs) ⟨ms, fms⟩ s' := by
  have himg := hmade.image hxp hs
  have hold := hs.mounted.tree
  refine ⟨⟨hlog, hset.idle, ?_⟩, ?_, fun e he => ?_⟩
  · rw [hset.newest]
    exact hmade.tree
  · rw [hset.newest]
    exact himg
  · rw [hset.newest]
    rcases hset.pending e he with hp | rfl
    · obtain ⟨k, U, hk, hi, hsince⟩ := hs.behind e hp
      exact ⟨k + 1, U, hk, hi, hsince.carry hmade.carries hmade.tree (fun _ _ => Kept.head) fun _ _ => kept_cons⟩
    · exact behind_newest hmade.tree himg

end Made

/-! ## The shapes of calls -/

theorem crash_left (hxp : xp.Ok n) (hs : Serves h xp n st V Vs ams s) {α : Type} {o : α → Result}
    (he : st.Pending e ∨ ∃ a fms cur, e = overlay cur st.newest ∧
      ∃ T', Made xp V c (o a) ams.fms (ldisk st.newest) T' fms (ldisk e)) : Left xp (V :: Vs) (some c) e := by
  rcases he with he | ⟨a, fms, cur, rfl, T', hmade⟩
  · exact hs.left he
  · exact hmade.left hxp hs

section Shapes

variable {α : Type} (hl : FsLayout xp n) (hs : Serves h xp n st V Vs ams s)
include hl hs

section Writes

variable {o : Except Errno α → Result} {body : BFILE.Memstate → TBody (BFILE.Memstate × Except Errno α)} (fl : Bool)
  (hbody : twp n (body ams.fms) (fun x d' => ∀ a, x.2 = .ok a →
    ∃ T', Made xp V c (o (.ok a)) ams.fms (ldisk st.newest) T' x.1 d') (ldisk st.newest))
include hbody

theorem transact_call (hf : ∀ e Vs, Step Vs c (o (.error e)) Vs) :
    wp h (Prod.map id o <$> AFS.transact fl xp body ams) (Done h xp n (V :: Vs) c)
      (MCrash h xp.fsxpLog n (Left xp (V :: Vs) (some c))) s := by
  refine wp_map (wp_mono ?_ (fun _ hm => hm.mono fun _ he => crash_left (o := fun a => o (.ok a)) hl.ok hs he) _
    (AFS.transact_spec (P := fun a fms d => ∃ T', Made xp V c (o (.ok a)) ams.fms (ldisk st.newest) T' fms d) hl.log fl
      hs.mounted.log hs.mounted.idle hbody))
  rintro ⟨ams', x⟩ s' ⟨herr, hok⟩
  right
  cases x with
  | error e =>
    have hun := herr e rfl
    have heq : ams'.fms = ams.fms := hun.fms_eq
    obtain ⟨st', hset, hm⟩ := hun.mounted hs.mounted
    exact ⟨V, Vs, st', hf e _, hs.kept hset hm (congrArg BFILE.Memstate.msAlloc heq) (congrArg BFILE.Memstate.msDBlocks heq)⟩
  | ok a =>
    obtain ⟨st', cur, hlog, hset, T', hmade⟩ := hok a rfl
    exact ⟨_, _, st', .update hmade.updates, hmade.serves hl.ok hs hlog hset⟩

theorem transactRebind_call (hf : ∀ e, Lost c (o (.error e))) :
    wp h (Prod.map id o <$> AFS.transactRebind fl xp body ams) (Done h xp n (V :: Vs) c)
      (MCrash h xp.fsxpLog n (Left xp (V :: Vs) (some c))) s := by
  refine wp_map (wp_mono ?_ (fun _ hm => hm.mono fun _ he => crash_left (o := fun a => o (.ok a)) hl.ok hs he) _
    (AFS.transactRebind_spec (P := fun a fms d => ∃ T', Made xp V c (o (.ok a)) ams.fms (ldisk st.newest) T' fms d) hl.log fl
      hs.mounted.log hs.mounted.idle hbody))
  rintro ⟨ams', x⟩ s' ⟨herr, hok⟩
  cases x with
  | error e =>
    obtain ⟨st', hlog, hset⟩ := herr e rfl
    exact .inl ⟨hf e, hs.mcrash hl.log hlog hset _⟩
  | ok a =>
    obtain ⟨st', cur, hlog, hset, T', hmade⟩ := hok a rfl
    exact .inr ⟨_, _, st', .update hmade.updates, hmade.serves hl.ok hs hlog hset⟩

end Writes

theorem transactRo_call {c : FsRun.Call} {o : α → Result} {body : BFILE.Memstate → TBody (BFILE.Memstate × α)}
    (hbody : twp n (body ams.fms) (fun x _ => FsRun.Reads V.tree c (o x.2) ∧ TreeRep xp (ldisk st.newest) x.1 V.tree ∧
      x.1.msAlloc = ams.fms.msAlloc ∧ x.1.msDBlocks = ams.fms.msDBlocks) (ldisk st.newest)) :
    wp h (Prod.map id o <$> AFS.transactRo xp body ams) (Done h xp n (V :: Vs) (.basic c))
      (MCrash h xp.fsxpLog n (Left xp (V :: Vs) (some (.basic c)))) s := by
  refine wp_map (wp_mono ?_ (fun _ hm => hm.mono fun _ he => hs.left he) _
    (AFS.transactRo_spec (P := fun a fms => FsRun.Reads V.tree c (o a) ∧ TreeRep xp (ldisk st.newest) fms V.tree ∧
      fms.msAlloc = ams.fms.msAlloc ∧ fms.msDBlocks = ams.fms.msDBlocks) hl.log hs.mounted.log hs.mounted.idle hbody))
  rintro ⟨ams', a⟩ s' ⟨hlog, hread, ht, hal, hdb⟩
  exact .inr ⟨V, Vs, st, .read hread,
    hs.kept (LogState.settled_refl hs.mounted.idle) ⟨hlog, hs.mounted.idle, ht⟩ hal hdb⟩

end Shapes

end TreeSeq

end Fscq
