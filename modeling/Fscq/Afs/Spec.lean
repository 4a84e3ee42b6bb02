import Fscq.Afs.Calls

/-!
# What a call does to a mounted file system

`Mounted xp n st T ams s` says that the log is in the state `st`, no transaction is active, and the newest disk together
with the caches holds the tree `T`. A call runs its body on the newest disk and then settles the transaction: either the
newest disk is what the body made of it, or nothing has changed (`transact_spec`). A crash falls back to a pending disk, or
to the new one.
-/

namespace Fscq

open TxnLogic CrashLogic MLog LogReplay

/-- What the layers rely on: the log, the regions of the file system and its numbers fit. -/
structure FsLayout (xp : FsXparams) (n : Nat) : Prop where
  log : Layout xp.fsxpLog n
  ok : xp.Ok n
  inodes : xp.nInodes ≤ 2 ^ 64

/-- The transaction is over: the newest disk is `d`, and the pending disks are those from before and `d`. -/
structure LogState.Settled (st : LogState) (d : RawDisk Valu) (st' : LogState) : Prop where
  idle : st'.cur = vmap0
  newest : st'.newest = d
  pending : ∀ e, st'.Pending e → st.Pending e ∨ e = d

namespace LogState

variable {st st' : LogState} {d : RawDisk Valu} {cur : Valumap}

theorem view_of_idle (h : st.cur = vmap0) : st.view = st.newest := by rw [view, h, overlay_vmap0]

theorem pending_newest (st : LogState) : st.Pending st.newest := GLog.between_newest _ _

theorem pending_flush {e : RawDisk Valu} (h : st.flush.Pending e) : e = st.newest := by
  obtain ⟨ts, hts, rfl⟩ := h
  rw [List.suffix_nil.mp hts]
  rfl

theorem settled_refl (h : st.cur = vmap0) : st.Settled st.newest st := ⟨h, rfl, fun _ he => .inl he⟩

theorem Settled.flush (h : st.Settled d st') : st.Settled d st'.flush := by
  refine ⟨h.idle, h.newest, fun e he => .inr ?_⟩
  rw [pending_flush he, h.newest]

theorem settled_commit (st : LogState) (cur : Valumap) (fl : Bool) (xp : LogXparams) : st.Settled
    (if cur.toList.length ≤ xp.logLen then overlay cur st.newest else st.newest) ((LOG.setCur st cur).commit fl xp) := by
  have hkeep : st.Settled (if cur.toList.length ≤ xp.logLen then overlay cur st.newest else st.newest)
      ((LOG.setCur st cur).commit false xp) := by
    by_cases hlen : cur.toList.length ≤ xp.logLen
    · have hcommit : (LOG.setCur st cur).commit false xp = ⟨st.base, cur.toList :: st.txns, vmap0⟩ := by
        rw [commit, LOG.setCur, if_pos hlen]
        rfl
      have hnew : replayDisk cur.toList st.newest = overlay cur st.newest := replayDisk_toList _ _
      rw [hcommit, if_pos hlen]
      refine ⟨rfl, hnew, ?_⟩
      rintro e ⟨ts, hts, he⟩
      rcases List.suffix_cons_iff.mp hts with rfl | hsuf
      · exact .inr (he.trans hnew)
      · exact .inl ⟨ts, hsuf, he⟩
    · have hcommit : (LOG.setCur st cur).commit false xp = ⟨st.base, st.txns, vmap0⟩ := by
        rw [commit, LOG.setCur, if_neg hlen]
        rfl
      rw [hcommit, if_neg hlen]
      exact ⟨rfl, rfl, fun e he => .inl he⟩
  cases fl with
  | false => exact hkeep
  | true => exact hkeep.flush

end LogState

open LogState

/-! ## The transaction of a call -/

namespace LOG

variable {α : Type} {h : HashKey → HashVal} {xp : LogXparams} {n : Nat} {st : LogState} {cur : Valumap} {ms : Memstate}
  {s : St Valu HashKey}

theorem LRep.setIdle (hr : LRep h xp n (setCur st cur) ms s) (hi : st.cur = vmap0) : LRep h xp n st ⟨vmap0, ms.msLL⟩ s :=
  ⟨hr.low, hi.symm, by rw [hi]; exact mapIn_vmap0 n⟩

theorem wp_begin {f : Memstate → FProg α} {Q : α → St Valu HashKey → Prop} {C : St Valu HashKey → Prop}
    (hf : wp h (f ms) Q C s) : wp h (begin xp ms >>= f) Q C s := hf

/-- A body that starts a transaction. -/
theorem exec_idle (hl : Layout xp n) (hr : LRep h xp n st ms s) (hi : st.cur = vmap0) {p : TBody α} {Q : α → LDisk → Prop}
    (hp : twp n p Q (ldisk st.newest)) :
    wp h (exec xp p ms) (fun r s' => ∃ cur, LRep h xp n (setCur st cur) r.1 s' ∧ Q r.2 (ldisk (overlay cur st.newest)))
      (MCrash h xp n st.Pending) s := by
  rw [← view_of_idle hi] at hp
  exact exec_spec hl hr hp

theorem commit_settles (hl : Layout xp n) (fl : Bool) (hr : LRep h xp n (setCur st cur) ms s) :
    wp h (commit fl xp ms) (fun r s' => r.2 = decide (cur.toList.length ≤ xp.logLen) ∧ ∃ st', LRep h xp n st' r.1 s' ∧
      st.Settled (if r.2 = true then overlay cur st.newest else st.newest) st')
      (MCrash h xp n fun e => st.Pending e ∨ e = overlay cur st.newest) s := by
  have hset := settled_commit st cur fl xp
  refine wp_mono (fun r s' ⟨hr', hok⟩ => ⟨hok, _, hr', ?_⟩) (fun s' hc => hc.mono fun e he => ?_) _ (commit_spec hl fl hr)
  · rw [hok]
    simp only [decide_eq_true_eq]
    exact hset
  · rcases he with he | he
    · exact .inl he
    · rcases hset.pending e he with hp | hp
      · exact .inl hp
      · split at hp
        · exact .inr hp
        · exact .inl (hp ▸ pending_newest st)

theorem flushall_spec (hl : Layout xp n) (hr : LRep h xp n st ms s) :
    wp h (flushall xp ms) (fun ms' s' => LRep h xp n st.flush ms' s') (MCrash h xp n st.Pending) s :=
  wp_seq (GLog.flushall_spec hl hr.low) (fun _ hc => hc) fun _ _ hr' => ⟨hr', hr.txn, hr.txnIn⟩

theorem flushsync_spec (hl : Layout xp n) (hr : LRep h xp n st ms s) :
    wp h (flushsync xp ms) (fun ms' s' => LRep h xp n st.flush ms' s') (MCrash h xp n st.Pending) s :=
  wp_seq (GLog.flushsync_spec hl hr.low) (fun _ hc => hc) fun _ _ hr' => ⟨hr', hr.txn, hr.txnIn⟩

theorem init_spec (hl : Layout xp n) {D : RawDisk Valu} {cs : CacheSt} (hc : Bufcache.CacheRep cs s.disk D)
    (hreg : PaddedLog.HasLog xp D) (hdata : ∀ a < n, dataOf xp n D a ≠ none) :
    wp h (init xp cs) (fun ms' s' => LRep h xp n ⟨dataOf xp n D, [], vmap0⟩ ms' s') (fun _ => True) s :=
  wp_seq (GLog.init_spec hl hc hreg hdata) (fun _ hc => hc) fun _ _ hr => ⟨hr, rfl, mapIn_vmap0 n⟩

end LOG

namespace AFS

open LOG (LRep setCur)

variable {α : Type} {h : HashKey → HashVal} {xp : FsXparams} {n : Nat} {st : LogState} {ams : Memstate}
  {s : St Valu HashKey} {T : FsTree}

structure Mounted (h : HashKey → HashVal) (xp : FsXparams) (n : Nat) (st : LogState) (T : FsTree) (ams : Memstate)
    (s : St Valu HashKey) : Prop where
  log : LRep h xp.fsxpLog n st ams.msLL s
  idle : st.cur = vmap0
  tree : TreeRep xp (ldisk st.newest) ams.fms T

theorem TreeRep.brep {d : LDisk} {ms : BFILE.Memstate} (ht : TreeRep xp d ms T) : BRep xp d [] ∧ BFILE.MsRep xp d ms := by
  obtain ⟨Z, hr, _⟩ := ht.nodes
  exact ⟨hr.brep, hr.msrep⟩

/-- Nothing has changed: no transaction is active, and the caches and the newest disk are those from before. -/
structure Unchanged (h : HashKey → HashVal) (xp : FsXparams) (n : Nat) (st : LogState) (ams ams' : Memstate)
    (s' : St Valu HashKey) : Prop where
  log : ∃ st', LRep h xp.fsxpLog n st' ams'.msLL s' ∧ st.Settled st.newest st'
  fms_eq : ams'.fms = ams.fms

/-- The body of a successful call is committed; of a failed one nothing is left. -/
theorem transact_spec (hl : Layout xp.fsxpLog n) (fl : Bool) (hr : LRep h xp.fsxpLog n st ams.msLL s) (hi : st.cur = vmap0)
    {body : BFILE.Memstate → TBody (BFILE.Memstate × Except Errno α)} {P : α → BFILE.Memstate → LDisk → Prop}
    (hbody : twp n (body ams.fms) (fun r d' => ∀ a, r.2 = .ok a → P a r.1 d') (ldisk st.newest)) :
    wp h (transact fl xp body ams) (fun r s' => (∀ e, r.2 = .error e → Unchanged h xp n st ams r.1 s') ∧
      ∀ a, r.2 = .ok a → ∃ st' cur, LRep h xp.fsxpLog n st' r.1.msLL s' ∧ st.Settled (overlay cur st.newest) st' ∧
        P a r.1.fms (ldisk (overlay cur st.newest)))
      (MCrash h xp.fsxpLog n fun e => st.Pending e ∨ ∃ a fms cur, e = overlay cur st.newest ∧ P a fms (ldisk e)) s := by
  refine LOG.wp_begin (wp_seq (LOG.exec_idle hl hr hi hbody) (fun _ hc => hc.mono fun _ he => .inl he) fun ⟨ms, fms, r⟩ s₁ ⟨cur, hr₁, hP⟩ => ?_)
  cases r with
  | error e =>
    refine ⟨fun _ _ => ⟨⟨st, hr₁.setIdle hi, settled_refl hi⟩, rfl⟩, fun a ha => ?_⟩
    cases ha
  | ok a =>
    have hPa := hP a rfl
    refine wp_seq (LOG.commit_settles hl fl hr₁) (fun _ hc => hc.mono fun e he => ?_) fun ⟨ms', ok⟩ s₂ ⟨_, st', hr₂, hset⟩ => ?_
    · rcases he with he | rfl
      · exact .inl he
      · exact .inr ⟨a, fms, cur, rfl, hPa⟩
    · cases ok with
      | true =>
        refine ⟨fun e he => (nomatch he), fun a' ha' => ⟨st', cur, hr₂, hset, ?_⟩⟩
        cases ha'
        exact hPa
      | false => exact ⟨fun _ _ => ⟨⟨st', hr₂, hset⟩, rfl⟩, fun a' ha' => (nomatch ha')⟩

/-- A call that rebinds its memory state: of a failed one nothing is left in the log. -/
theorem transactRebind_spec (hl : Layout xp.fsxpLog n) (fl : Bool) (hr : LRep h xp.fsxpLog n st ams.msLL s) (hi : st.cur = vmap0)
    {body : BFILE.Memstate → TBody (BFILE.Memstate × Except Errno α)} {P : α → BFILE.Memstate → LDisk → Prop}
    (hbody : twp n (body ams.fms) (fun r d' => ∀ a, r.2 = .ok a → P a r.1 d') (ldisk st.newest)) :
    wp h (transactRebind fl xp body ams) (fun r s' =>
      (∀ e, r.2 = .error e → ∃ st', LRep h xp.fsxpLog n st' r.1.msLL s' ∧ st.Settled st.newest st') ∧
      ∀ a, r.2 = .ok a → ∃ st' cur, LRep h xp.fsxpLog n st' r.1.msLL s' ∧ st.Settled (overlay cur st.newest) st' ∧
        P a r.1.fms (ldisk (overlay cur st.newest)))
      (MCrash h xp.fsxpLog n fun e => st.Pending e ∨ ∃ a fms cur, e = overlay cur st.newest ∧ P a fms (ldisk e)) s := by
  refine LOG.wp_begin (wp_seq (LOG.exec_idle hl hr hi hbody) (fun _ hc => hc.mono fun _ he => .inl he) ?_)
  rintro ⟨ms, fms, r⟩ s₁ ⟨cur, hr₁, hP⟩
  cases r with
  | error e =>
    refine ⟨fun _ _ => ⟨st, hr₁.setIdle hi, settled_refl hi⟩, fun a ha => ?_⟩
    cases ha
  | ok a =>
    have hPa := hP a rfl
    refine wp_seq (LOG.commit_settles hl fl hr₁) (fun _ hc => hc.mono fun e he => ?_) ?_
    · rcases he with he | rfl
      · exact .inl he
      · exact .inr ⟨a, fms, cur, rfl, hPa⟩
    · rintro ⟨ms', ok⟩ s₂ ⟨_, st', hr₂, hset⟩
      cases ok with
      | true =>
        refine ⟨fun e he => (nomatch he), fun a' ha' => ⟨st', cur, hr₂, hset, ?_⟩⟩
        cases ha'
        exact hPa
      | false => exact ⟨fun _ _ => ⟨st', hr₂, hset⟩, fun a' ha' => (nomatch ha')⟩

/-- A call that only reads leaves the disk, and keeps what it cached. -/
theorem transactRo_spec (hl : Layout xp.fsxpLog n) (hr : LRep h xp.fsxpLog n st ams.msLL s) (hi : st.cur = vmap0)
    {body : BFILE.Memstate → TBody (BFILE.Memstate × α)} {P : α → BFILE.Memstate → Prop}
    (hbody : twp n (body ams.fms) (fun r _ => P r.2 r.1) (ldisk st.newest)) :
    wp h (transactRo xp body ams) (fun r s' => LRep h xp.fsxpLog n st r.1.msLL s' ∧ P r.2 r.1.fms)
      (MCrash h xp.fsxpLog n st.Pending) s := by
  refine LOG.wp_begin (wp_seq (LOG.exec_idle hl hr hi hbody) (fun _ hc => hc) fun ⟨ms, fms, r⟩ s₁ ⟨cur, hr₁, hP⟩ => ?_)
  exact ⟨hr₁.setIdle hi, hP⟩

theorem Unchanged.mounted {ams' : Memstate} {s' : St Valu HashKey} (hu : Unchanged h xp n st ams ams' s')
    (hm : Mounted h xp n st T ams s) : ∃ st', st.Settled st.newest st' ∧ Mounted h xp n st' T ams' s' := by
  obtain ⟨st', hr, hset⟩ := hu.log
  refine ⟨st', hset, hr, hset.idle, ?_⟩
  rw [hset.newest, hu.fms_eq]
  exact hm.tree

end AFS

end Fscq
