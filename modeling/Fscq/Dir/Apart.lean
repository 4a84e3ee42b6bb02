import Fscq.Dir.DirtySets
import Fscq.Dir.TreeFiles

/-!
# Files that an operation does not touch

An operation on a directory changes the inodes of one or two directories, and of the file that it removes. The files outside
of them keep their blocks, and what was dirty of them stays dirty (`Apart`).
-/

namespace Fscq

open TxnLogic BFILE
open BmapAlloc (freeList)
open INODE (Iattr IattrupdArg iattrUpd)
open Dirtree (findSubtree findDirlist treePrune HasNode hasNode_of_find hasNode_treePrune)
open DIRTREE (Holds holds_tree holds_pruned find_of_findName)

/-- Inodes outside `X` keep their blocks, and those that are dirty stay dirty; blocks that are new have no older value. -/
structure Apart (xp : FsXparams) (X : Nat → Prop) (ms : Memstate) (d : LDisk) (ms' : Memstate) (d' : LDisk) : Prop where
  blks_eq : ∀ i, i < xp.nInodes → ¬ X i → blks xp d' i = blks xp d i
  dirty : ∀ i, i < xp.nInodes → ¬ X i → ∀ bn ∈ blks xp d' i, bn ∈ getDirty i ms.msDBlocks → bn ∈ getDirty i ms'.msDBlocks
  fresh : ∀ i, i < xp.nInodes → ∀ bn ∈ blks xp d' i, bn ∈ blks xp d i ∨ d'.plain bn
  mono : ∀ a, d.plain a → d'.plain a

section Rules

variable {xp : FsXparams} {X Y : Nat → Prop} {n inum : Nat} {ms ms₁ ms' : Memstate} {d d₁ d' : LDisk} {α : Type}

theorem Apart.weaken (h : Apart xp X ms d ms' d') (hX : ∀ i, X i → Y i) : Apart xp Y ms d ms' d' :=
  ⟨fun i hi hn => h.blks_eq i hi fun hx => hn (hX i hx), fun i hi hn => h.dirty i hi fun hx => hn (hX i hx), h.fresh, h.mono⟩

theorem Apart.trans (h₁ : Apart xp X ms d ms₁ d₁) (h₂ : Apart xp X ms₁ d₁ ms' d') : Apart xp X ms d ms' d' where
  blks_eq i hi hn := (h₂.blks_eq i hi hn).trans (h₁.blks_eq i hi hn)
  dirty i hi hn bn hbn hb := by
    refine h₂.dirty i hi hn bn hbn (h₁.dirty i hi hn bn ?_ hb)
    rwa [h₂.blks_eq i hi hn] at hbn
  fresh i hi bn hbn := by
    rcases h₂.fresh i hi bn hbn with h | h
    · exact (h₁.fresh i hi bn h).imp id (h₂.mono bn)
    · exact .inr h
  mono a ha := h₂.mono a (h₁.mono a ha)

theorem Apart.seq (h₁ : Apart xp X ms d ms₁ d₁) (h₂ : Apart xp Y ms₁ d₁ ms' d') :
    Apart xp (fun i => X i ∨ Y i) ms d ms' d' :=
  (h₁.weaken fun _ => .inl).trans (h₂.weaken fun _ => .inr)

/-- Nothing but caches changed. -/
theorem apart_read (hdb : ms'.msDBlocks = ms.msDBlocks) : Apart xp X ms d ms' d :=
  ⟨fun _ _ _ => rfl, fun _ _ _ _ _ hb => hdb ▸ hb, fun _ _ _ => .inl, fun _ h => h⟩

/-- A program on the file `inum` that keeps its blocks. -/
theorem BFILE.FileDone.apart {f : File} (h : FileDone xp inum f ms d ms' d') (hself : blks xp d' inum = blks xp d inum)
    (hmono : ∀ a, d.plain a → d'.plain a) : Apart xp X ms d ms' d' := by
  have hblks : ∀ i, i < xp.nInodes → blks xp d' i = blks xp d i := fun i hi => by
    by_cases hii : i = inum
    · rw [hii, hself]
    · exact (h.other i hi hii).2
  refine ⟨fun i hi _ => hblks i hi, fun i hi _ bn hbn hb => ?_, fun i hi bn hbn => .inl ?_, hmono⟩
  · by_contra hnot
    exact (h.clean i hi bn hbn hnot).2 hb
  · rwa [hblks i hi] at hbn

theorem BFILE.ResetDone.apart (h : ResetDone xp inum ms d ms' d') (hmono : ∀ a, d.plain a → d'.plain a) :
    Apart xp (· = inum) ms d ms' d' where
  blks_eq i hi hn := (h.other i hi hn).2
  dirty i hi _ bn hbn hb := by
    by_contra hnot
    exact (h.clean i hi bn hbn hnot).2 hb
  fresh i hi bn hbn := by
    by_cases hii : i = inum
    · have hnil : blks xp d' inum = [] := List.map_eq_nil_iff.mp (congrArg File.data h.self)
      rw [hii, hnil] at hbn
      cases hbn
    · rw [(h.other i hi hii).2] at hbn
      exact .inl hbn
  mono := hmono

theorem IallocOnly.apart {c : BmapCacheType} (h : IallocOnly xp d d') (hxp : xp.Ok n) {extra : List Nat} (hb : BRep xp d extra) :
    Apart xp X ms d { ms with msIAllocC := c } d' where
  blks_eq _ hi _ := (h.used_eq hxp hb hi).1
  dirty _ _ _ _ _ hb := hb
  fresh i hi bn hbn := by
    rw [(h.used_eq hxp hb hi).1] at hbn
    exact .inl hbn
  mono := h.mono

/-- A program on the file `inum` whose new blocks were written. -/
theorem apart_of_step {al : Bool} {f : File} {W : Nat → Prop} (hm : MsRep xp d ms) (hm' : MsRep xp d' ms')
    (h : FileStep xp al inum f d d') (hdb : DirtyOnly ms.msDBlocks inum W ms'.msDBlocks) (hW : ∀ a, W a → d'.plain a)
    (hmono : ∀ a, d.plain a → d'.plain a) : Apart xp (· = inum) ms d ms' d' where
  blks_eq i hi hn := (h.other i hi hn).2
  dirty i _ hn bn _ hb := by
    rw [hdb.other i hn]
    exact hb
  fresh i hi bn hbn := by
    by_cases hii : i = inum
    · subst hii
      rcases hm'.clean i hi bn hbn with hp | hd
      · exact .inr hp
      · exact (hdb.written bn hd).imp (fun hold => (hm.dirty i bn hold).2) (hW bn)
    · rw [(h.other i hi hii).2] at hbn
      exact .inl hbn
  mono := hmono

/-- What a program on a file does, with what it does to the dirty sets and to older values. -/
theorem twp_dirtyOnly {p : TBody (Memstate × α)} {Q : Memstate × α → LDisk → Prop} (hp : twp n p Q d)
    (hd : Writes (fun W r => DirtyOnly ms.msDBlocks inum W r.1.msDBlocks) p fun _ => False) :
    twp n p (fun r d' => Q r d' ∧ (∀ a, d.plain a → d'.plain a) ∧
      ∃ W, DirtyOnly ms.msDBlocks inum W r.1.msDBlocks ∧ ∀ a, W a → d'.plain a) d :=
  twp_mono (fun _ _ ⟨⟨hq, hd⟩, hp⟩ => ⟨hq, fun a ha => hp a (.inl ha), hd⟩) _ (twp_plain (twp_dirty hp hd))

/-- A program that changes no dirty set, with what it does. -/
theorem twp_same {p : TBody (Memstate × α)} {Q : Memstate × α → LDisk → Prop} (hp : twp n p Q d)
    (hd : Writes (fun _ r => r.1.msDBlocks = ms.msDBlocks) p fun _ => False) :
    twp n p (fun r d' => Q r d' ∧ r.1.msDBlocks = ms.msDBlocks) d :=
  twp_mono (fun _ _ ⟨hq, _, heq, _⟩ => ⟨hq, heq⟩) _ (twp_dirty hp hd)

/-! ## Attributes and blocks -/

theorem BFILE.twp_apart {p : TBody Memstate} {f : File}
    (hp : twp n p (fun ms' d' => FileDone xp inum f ms d ms' d' ∧ blks xp d' inum = blks xp d inum) d) :
    twp n p (fun ms' d' => FileDone xp inum f ms d ms' d' ∧ Apart xp (fun _ => False) ms d ms' d') d :=
  twp_mono (fun _ _ ⟨⟨hdone, hblks⟩, hmono⟩ => ⟨hdone, hdone.apart hblks fun a ha => hmono a (.inl ha)⟩) _ (twp_plain hp)

section Files

variable {extra : List Nat} (hxp : xp.Ok n) (hb : BRep xp d extra) (hm : MsRep xp d ms) (hi : inum < xp.nInodes)
include hxp hb hm hi

theorem BFILE.setattrs_apart (a : Iattr) : twp n (setattrs xp inum a ms) (fun ms' d' =>
    FileDone xp inum ⟨(file xp d inum).data, a⟩ ms d ms' d' ∧ Apart xp (fun _ => False) ms d ms' d') d := by
  refine twp_apart (twp_seq (INODE.setattrs_spec hxp ms.msAlloc hm.icache (INODE.BRep.inodeRep hb hi) a) ?_)
  rintro ic d' ⟨hs, hblks, hinds, hattrs, hframe, hc⟩
  exact ⟨putAttrs_done hxp hb hm hi hs hblks hinds hattrs hframe hc, hblks⟩

theorem BFILE.updattr_apart (kv : IattrupdArg) : twp n (updattr xp inum kv ms) (fun ms' d' =>
    FileDone xp inum ⟨(file xp d inum).data, iattrUpd (file xp d inum).attr kv⟩ ms d ms' d' ∧
      Apart xp (fun _ => False) ms d ms' d') d := by
  refine twp_apart (twp_seq (INODE.updattr_spec hxp ms.msAlloc hm.icache (INODE.BRep.inodeRep hb hi) kv) ?_)
  rintro ic d' ⟨hs, hblks, hinds, hattrs, hframe, hc⟩
  exact ⟨putAttrs_done hxp hb hm hi hs hblks hinds hattrs hframe hc, hblks⟩

/-- The block that is written has no older value. -/
theorem BFILE.write_apart {off : Nat} {v : Valu} (hoff : off < (file xp d inum).data.length) :
    twp n (write xp inum off v ms) (fun ms' d' =>
      (FileDone xp inum ⟨(file xp d inum).data.set off v, (file xp d inum).attr⟩ ms d ms' d' ∧
        Apart xp (fun _ => False) ms d ms' d') ∧
      ∀ bn, (blks xp d' inum)[off]? = some bn → d'.plain bn) d := by
  have hwrite := write_spec (v := v) hxp hb hm hi hoff
  have hplain : twp n (write xp inum off v ms) (fun _ d' => ∀ bn, (blks xp d inum)[off]? = some bn → d'.plain bn) d := by
    rw [length_file_data] at hoff
    refine twp_seq (INODE.getbnum_spec hxp hm.icache (INODE.BRep.inodeRep hb hi) hoff) ?_
    rintro ⟨ic, bn⟩ d' ⟨rfl, hbn, _⟩
    obtain ⟨hne, hlt⟩ := hb.owned_pos (used_sub_owned hi (List.mem_append_left _ (List.mem_of_getElem? hbn)))
    refine twp_bind _ (twp_writeAt (hxp.data_lt hlt) hne fun b hb' => .inl ?_)
    exact Option.some_inj.1 (hb'.symm.trans hbn)
  refine twp_mono (fun ms' d' ⟨⟨⟨hdone, hblks⟩, hnew⟩, hmono⟩ => ?_) _ (twp_plain (twp_and hwrite hplain))
  refine ⟨⟨hdone, hdone.apart (hblks inum hi) fun a ha => hmono a (.inl ha)⟩, fun bn hbn => ?_⟩
  rw [hblks inum hi] at hbn
  exact hnew bn hbn

end Files

end Rules

/-! ## Directories -/

namespace NodeRep

variable {xp : FsXparams} {n dnum inum : Nat} {d : LDisk} {ms : Memstate} {Z : FsNodes} {ents : List (Sname × (Nat × Bool))}
  (hxp : xp.Ok n) (hr : NodeRep xp d ms Z)
include hxp hr

theorem unlink_apart (hi : Z dnum = some (.dir ents)) {name : Sname} {v : Nat × Bool} (hv : ents.lookup name = some v) :
    twp n (CacheOneDir.unlink xp dnum name ms) (fun r d' => Apart xp (· = dnum) ms d r.1 d') d := by
  refine twp_mono (fun r d' ⟨⟨hsome, _⟩, hmono, W, hdb, hW⟩ => ?_) _ (twp_dirtyOnly
    (CacheOneDir.unlink_spec hxp hr.brep hr.msrep (hr.valid dnum _ hi).2 (hr.node dnum _ hi).1 (hr.dcache dnum) name)
    (CacheOneDir.unlink_dirty (dirtyRule ms.msDBlocks dnum).toGrowing (dirtyOnly_refl _ _ _) name))
  have hkept := (hsome v ((hr.dirMap_eq hi name).trans hv)).2.1
  exact apart_of_step hr.msrep hkept.msrep hkept.toFileStep hdb hW hmono

theorem link_apart (hi : Z dnum = some (.dir ents)) {name : Sname} {isdir : Bool} (h0 : inum ≠ 0) (hlt : inum < 2 ^ 64) :
    twp n (CacheOneDir.link xp dnum name inum isdir ms) (fun r d' => r.2 = .ok () →
      Apart xp (· = dnum) ms d r.1 d' ∧ ∀ a, xp.fsxpInodeAlloc.InBitmap a → d' a = d a) d := by
  refine twp_mono (fun r d' ⟨hlink, hmono, W, hdb, hW⟩ hok => ?_) _ (twp_dirtyOnly
    (CacheOneDir.link_spec hxp hr.brep hr.msrep (hr.valid dnum _ hi).2 (hr.node dnum _ hi).1 (hr.dcache dnum) h0 hlt)
    (CacheOneDir.link_dirty (dirtyRule ms.msDBlocks dnum) (dirtyOnly_refl _ _ _) name inum isdir))
  have hkept := (hlink.ok hok).2.1
  exact ⟨apart_of_step hr.msrep hkept.msrep hkept.toFileStep hdb hW hmono, hkept.ialloc⟩

theorem resetFree_apart {c : Dirtree.Kind Sname File} (hi : Z inum = some c) :
    twp n (DIRTREE.resetFree xp inum ms) (fun ms' d' => Apart xp (· = inum) ms d ms' d') d := by
  have hlt := (hr.valid inum c hi).2
  refine twp_seq (twp_plain (BFILE.reset_spec hxp hr.brep hr.msrep hlt)) fun ms₁ d₁ ⟨hreset, hplain₁⟩ => ?_
  have hnot : inum ∉ freeList xp.fsxpInodeAlloc d₁ := by
    rw [BmapAlloc.freeList_congr hreset.ialloc]
    exact hr.not_free hi
  refine twp_seq (twp_plain (BmapAllocCache.free_spec hxp.iallocOk hreset.msrep.ialloc hnot (by rwa [← hxp.inodes])
    (hr.valid inum c hi).1)) fun ialc d₂ ⟨⟨_, _, hframe⟩, hplain⟩ => ?_
  exact (hreset.apart fun a ha => hplain₁ a (.inl ha)).trans (IallocOnly.apart ⟨hframe, fun a ha => hplain a (.inl ha)⟩ hxp (hreset.brep hr.brep))

end NodeRep

namespace DIRTREE

variable {xp : FsXparams} {n dnum : Nat} {d : LDisk} {ms : Memstate}

section Nodes

variable {Z : FsNodes} {ents : List (Sname × (Nat × Bool))} (hxp : xp.Ok n) (hr : NodeRep xp d ms Z)
include hxp hr

theorem mknode_apart (hino : xp.nInodes ≤ 2 ^ 64) (hi : Z dnum = some (.dir ents)) (isdir : Bool) (name : Sname) :
    twp n (mknode xp dnum isdir name ms) (fun r d' => ∀ inum, r.2 = .ok inum → Apart xp (· = dnum) ms d r.1 d') d := by
  refine twp_seq (NodeRep.ialloc_spec hxp hr) ?_
  rintro ⟨ialc, oi⟩ d₁ halloc
  cases oi with
  | none =>
    intro inum h
    cases h
  | some inum =>
    obtain ⟨hz, h0, hlt, hio, hdone⟩ := halloc inum rfl
    have hdone₁ := hdone _ (newKind_or isdir)
    have hi₁ : Function.update Z inum (some (newKind isdir)) dnum = some (.dir ents) := by
      rw [Function.update_of_ne, hi]
      rintro rfl
      rw [hz] at hi
      cases hi
    refine twp_seq (NodeRep.link_apart hxp hdone₁.rep hi₁ h0 (by omega)) ?_
    rintro ⟨ms₂, ok⟩ d₂ hlink
    cases ok with
    | error e =>
      intro inum h
      cases h
    | ok _ => exact fun _ _ => (IallocOnly.apart hio hxp hr.brep).trans (hlink rfl).1

/-- The directory and the removed inode change. -/
theorem delete_apart {name : Sname} (hi : Z dnum = some (.dir ents))
    (hents : ∀ v, ents.lookup name = some v → EntryOk Z dnum v) :
    twp n (delete xp dnum name ms) (fun r d' => r.2 = .ok () → ∃ v, ents.lookup name = some v ∧
      Apart xp (fun i => i = dnum ∨ i = v.1) ms d r.1 d') d := by
  refine twp_seq (twp_same (NodeRep.lookup_spec hxp hr hi name) (CacheOneDir.lookup_dirty (growing_same ms.msDBlocks) rfl name)) ?_
  rintro ⟨ms₁, oi⟩ d₁ ⟨⟨rfl, hdone₁, hlook⟩, hdb₁⟩
  obtain rfl : oi = ents.lookup name := hlook
  simp only at hdb₁ ⊢
  cases hv : ents.lookup name with
  | none =>
    intro h
    cases h
  | some v =>
    have hent := hents _ hv
    have hwrites : Writes (fun _ r => r.1.msDBlocks = ms.msDBlocks) (deletable xp v.1 v.2 ms₁) fun _ => False := by
      refine writes_ite hdb₁ (writes_seq (CacheOneDir.readdir_dirty (growing_same ms.msDBlocks) hdb₁) fun W r h => ?_)
      obtain ⟨ms₂, _ | _⟩ := r <;> exact h
    refine twp_seq (twp_same (deletable_spec hxp hdone₁.rep hent) hwrites) ?_
    rintro ⟨ms₂, ok⟩ d₂ ⟨⟨rfl, hdone₂, _⟩, hdb₂⟩
    simp only at hdb₂ ⊢
    cases ok with
    | false =>
      intro h
      cases h
    | true =>
      refine twp_seq (twp_and (NodeRep.unlink_spec hxp hdone₂.rep hi hv) (NodeRep.unlink_apart hxp hdone₂.rep hi hv)) ?_
      rintro ⟨ms₃, r⟩ d₃ ⟨⟨hok, hdone₃⟩, hapart₃⟩
      obtain rfl : r = .ok () := hok
      obtain ⟨c, hc, _⟩ := hent.node
      have hmem := (lookup_eq_some_iff_mem (hr.names_nodup hi)).mp hv
      have hrep₃ := (hdone₃ _ (List.perm_cons_erase hmem)).rep
      refine twp_seq (NodeRep.resetFree_apart (c := c) hxp hrep₃ (by rw [Function.update_of_ne hent.ne, hc])) ?_
      intro ms₄ d₄ hapart₄ _
      exact ⟨v, rfl, (apart_read hdb₂).trans (hapart₃.seq hapart₄)⟩

theorem renameTo_apart {ddst inum : Nat} {dstname : Sname} (hi : Z ddst = some (.dir ents))
    (hents : ∀ v, ents.lookup dstname = some v → EntryOk Z ddst v) (isdir : Bool) (h0 : inum ≠ 0) (hlt : inum < 2 ^ 64) :
    twp n (renameTo xp ddst dstname inum isdir ms) (fun r d' => r.2 = .ok () →
      Apart xp (fun i => i = ddst ∨ i ∈ freeList xp.fsxpInodeAlloc d') ms d r.1 d') d := by
  refine twp_seq (twp_same (NodeRep.lookup_spec hxp hr hi dstname) (CacheOneDir.lookup_dirty (growing_same ms.msDBlocks) rfl _)) ?_
  rintro ⟨ms₁, odst⟩ d₁ ⟨⟨rfl, hdone₁, hlook⟩, hdb₁⟩
  obtain rfl : odst = ents.lookup dstname := hlook
  simp only at hdb₁ ⊢
  cases hv : ents.lookup dstname with
  | none =>
    refine twp_mono (fun r d' hlink hok => ?_) _ (NodeRep.link_apart hxp hdone₁.rep hi h0 hlt)
    exact (apart_read hdb₁).trans ((hlink hok).1.weaken fun _ => .inl)
  | some v =>
    refine twp_seq (twp_and (delete_spec hxp hdone₁.rep hi hents) (delete_apart hxp hdone₁.rep hi hents)) ?_
    rintro ⟨ms₂, r⟩ d₂ ⟨hdel, hapart⟩
    cases r with
    | error e =>
      intro h
      cases h
    | ok _ =>
      obtain ⟨v', hv', _, hdone₂⟩ := hdel rfl
      obtain ⟨v'', hv'', hapart₂⟩ := hapart rfl
      rw [hv] at hv' hv''
      cases hv'
      cases hv''
      have hne := (hents v hv).ne
      have hmem := (lookup_eq_some_iff_mem (hr.names_nodup hi)).mp hv
      have hrep₂ := (hdone₂ _ (List.perm_cons_erase hmem)).rep
      obtain ⟨c, hc, _⟩ := (hents v hv).node
      obtain ⟨hv0, hvlt⟩ := hr.valid v.1 c hc
      have hfree : v.1 ∈ freeList xp.fsxpInodeAlloc d₂ := (hrep₂.free v.1 hv0 hvlt).mpr (Function.update_self _ _ _)
      have hdir : Function.update (Function.update Z ddst (some (.dir (ents.erase (dstname, v))))) v.1 none ddst =
          some (.dir (ents.erase (dstname, v))) := by rw [Function.update_of_ne hne.symm, Function.update_self]
      refine twp_mono (fun r d' hlink hok => ?_) _ (NodeRep.link_apart hxp hrep₂ hdir h0 hlt)
      obtain ⟨hlink₁, hialloc⟩ := hlink hok
      refine (apart_read hdb₁).trans ((hapart₂.seq hlink₁).weaken fun i hi => ?_)
      rcases hi with (hi | rfl) | hi
      · exact .inl hi
      · refine .inr ?_
        rw [BmapAlloc.freeList_congr hialloc]
        exact hfree
      · exact .inl hi

end Nodes

/-! ## Trees -/

section Trees

variable {T : FsTree} {p : List Sname} {ents : List (Sname × FsTree)}

/-- Directories and free inodes: all that an operation on directories changes. -/
def Loose (xp : FsXparams) (T : FsTree) (d' : LDisk) (i : Nat) : Prop :=
  HasNode T i true ∨ i ∈ freeList xp.fsxpInodeAlloc d'

theorem mknode_tree_apart (hxp : xp.Ok n) (hino : xp.nInodes ≤ 2 ^ 64) (ht : TreeRep xp d ms T)
    (hp : findSubtree p T = some (.dir dnum ents)) (isdir : Bool) (name : Sname) :
    twp n (mknode xp dnum isdir name ms) (fun r d' => ∀ inum, r.2 = .ok inum → Apart xp (Loose xp T d') ms d r.1 d') d := by
  obtain ⟨Z, hr, hrep⟩ := ht.nodes
  refine twp_mono (fun r d' h inum hok => (h inum hok).weaken ?_) _
    (mknode_apart hxp hr hino ((holds_tree hrep).dir hp) isdir name)
  rintro i rfl
  exact .inl (hasNode_of_find hp)

theorem delete_tree_apart (hxp : xp.Ok n) (ht : TreeRep xp d ms T) (hp : findSubtree p T = some (.dir dnum ents)) (name : Sname) :
    twp n (delete xp dnum name ms) (fun r d' => r.2 = .ok () → Apart xp (Loose xp T d') ms d r.1 d') d := by
  obtain ⟨Z, hr, hrep⟩ := ht.nodes
  have hh := holds_tree hrep
  refine twp_mono (fun r d' ⟨hdel, hapart⟩ hok => ?_) _ (twp_and (delete_spec hxp hr (hh.dir hp) (hh.entriesOk hp))
    (delete_apart hxp hr (hh.dir hp) (hh.entriesOk hp)))
  obtain ⟨v, hv, _, hdone⟩ := hdel hok
  obtain ⟨v', hv', ha⟩ := hapart hok
  rw [hv] at hv'
  cases hv'
  have hmem := (lookup_eq_some_iff_mem (hr.names_nodup (hh.dir hp))).mp hv
  have hrep' := (hdone _ (List.perm_cons_erase hmem)).rep
  obtain ⟨c, hc, _⟩ := (hh.entriesOk hp v hv).node
  obtain ⟨hv0, hvlt⟩ := hr.valid v.1 c hc
  refine ha.weaken ?_
  rintro i (rfl | rfl)
  · exact .inl (hasNode_of_find hp)
  · exact .inr ((hrep'.free v.1 hv0 hvlt).mpr (Function.update_self _ _ _))

theorem rename_tree_apart (hxp : xp.Ok n) (hino : xp.nInodes ≤ 2 ^ 64) (ht : TreeRep xp d ms T) {cwd : List Sname}
    (hcwd : findSubtree cwd T = some (.dir dnum ents)) (srcpath : List Sname) (srcname : Sname) (dstpath : List Sname)
    (dstname : Sname) : twp n (rename xp dnum srcpath srcname dstpath dstname ms)
      (fun r d' => r.2 = .ok () → Apart xp (Loose xp T d') ms d r.1 d') d := by
  obtain ⟨Z, hr, hrep⟩ := ht.nodes
  have hh := holds_tree hrep
  have hn := hh.namesDistinct hr
  refine twp_seq (twp_same (namei_spec hxp hr (hh.sub hcwd) rfl srcpath) (namei_dirty (growing_same ms.msDBlocks) rfl _)) ?_
  rintro ⟨ms₁, osrcdir⟩ d₁ ⟨⟨rfl, hdone₁, hsrc⟩, hdb₁⟩
  simp only at hdb₁
  rcases osrcdir with e | ⟨dsrc, _ | _⟩
  · intro h
    cases h
  · intro h
    cases h
  obtain ⟨sents, hsents⟩ := find_of_findName ((hsrc _).mp rfl)
  have hsents' : findSubtree (cwd ++ srcpath) T = some (.dir dsrc sents) := by
    rw [Dirtree.findSubtree_append, hcwd, Option.bind_some, hsents]
  refine twp_seq (twp_same (NodeRep.lookup_spec hxp hdone₁.rep (hh.dir hsents') srcname)
    (CacheOneDir.lookup_dirty (growing_same ms₁.msDBlocks) rfl _)) ?_
  rintro ⟨ms₂, osrc⟩ d₂ ⟨⟨rfl, hdone₂, hosrc⟩, hdb₂⟩
  simp only [Dirtree.lookup_map_entry] at hosrc hdb₂
  subst hosrc
  simp only
  cases hS : findDirlist srcname sents with
  | none =>
    intro h
    cases h
  | some S =>
    have hlook : (sents.map Dirtree.entry).lookup srcname = some (S.inum, S.isdir) := by
      rw [Dirtree.lookup_map_entry, hS]
      rfl
    refine twp_seq (twp_and (NodeRep.unlink_spec hxp hdone₂.rep (hh.dir hsents') hlook)
      (NodeRep.unlink_apart hxp hdone₂.rep (hh.dir hsents') hlook)) ?_
    rintro ⟨ms₃, _⟩ d₃ ⟨⟨_, hun⟩, hapart₃⟩
    have hdone₃ := hun _ (deleteFromList_entries hS)
    have hh₃ := holds_pruned (hrep.prune hsents' hn hS)
    have hroot₁ := Dirtree.updateSubtree_root (t := .dir dnum ents) hsents
      (rfl : Dirtree.inum (.dir dsrc (Dirtree.deleteFromList srcname sents) : FsTree) = dsrc) rfl
    obtain ⟨t₁, ht₁, hi₁, hd₁⟩ : ∃ t₁, findSubtree cwd (treePrune dsrc sents (cwd ++ srcpath) srcname T) = some t₁ ∧
        t₁.inum = dnum ∧ t₁.isdir = true := by
      refine ⟨_, ?_, hroot₁⟩
      rw [treePrune, Dirtree.findSubtree_updateSubtree_above, hcwd]
      rfl
    have hnamei := namei_spec hxp hdone₃.rep (hh₃.sub ht₁) hd₁ dstpath
    rw [hi₁] at hnamei
    refine twp_seq (twp_same hnamei (namei_dirty (growing_same ms₃.msDBlocks) rfl _)) ?_
    rintro ⟨ms₄, odstdir⟩ d₄ ⟨⟨rfl, hdone₄, hdst⟩, hdb₄⟩
    simp only at hdb₄
    rcases odstdir with e | ⟨ddst, _ | _⟩
    · intro h
      cases h
    · intro h
      cases h
    obtain ⟨dents, hdents⟩ := find_of_findName ((hdst _).mp rfl)
    have hdents' : findSubtree (cwd ++ dstpath) (treePrune dsrc sents (cwd ++ srcpath) srcname T) =
        some (.dir ddst dents) := by
      rw [Dirtree.findSubtree_append, ht₁, Option.bind_some, hdents]
    obtain ⟨h0, hlt⟩ : S.inum ≠ 0 ∧ S.inum < xp.nInodes := by
      obtain ⟨c, hc, _⟩ := (hh.entryOk hsents' hS).node
      exact hr.valid S.inum c hc
    refine twp_mono (fun r d₅ hres hok => ?_) _ (renameTo_apart hxp hdone₄.rep (hh₃.dir hdents') (hh₃.entriesOk hdents')
      S.isdir h0 (by omega))
    have hpre : Apart xp (Loose xp T d₅) ms d₂ ms₄ d₄ := by
      refine (apart_read (hdb₂.trans hdb₁)).trans (Apart.trans (hapart₃.weaken ?_) (apart_read hdb₄))
      rintro i rfl
      exact .inl (hasNode_of_find hsents')
    refine hpre.trans ((hres hok).weaken ?_)
    rintro i (rfl | hi)
    · exact .inl (hasNode_treePrune hsents' hn (hasNode_of_find hdents'))
    · exact .inr hi

end Trees

end DIRTREE

end Fscq
