import Fscq.Afs.Client
import Fscq.Afs.Finishes

/-!
# A history that happens

The smallest file system is made, a file is created in it and gets a block (`newFile`). There is a hash function for which
all this happens (`exists_newFile`), and then the file may be written and synced (`Life.next`). So what is proved of all
histories is said of some.
-/

namespace Fscq

open TxnLogic CrashLogic CrashLogic.Prog LogReplay
open Dirtree (findSubtree)
open AFS (Memstate tenBytes)
open LOG (LRep)
open INODE (iattr0)
open PaddedLog (logBlocks)

namespace TreeSeq

/-! ## What a history says of a file -/

/-- After the history, the newest tree has such a file. -/
def Finds (es : List Event) (p : List Sname) (i : Nat) (P : File → Prop) : Prop :=
  ∀ V Vs, Trace es (V :: Vs) → ∃ f, findSubtree p V.tree = some (.file i f) ∧ P f

section Finds

variable {es : List Event} {p : List Sname} {i off : Nat} {v : Valu} {P : File → Prop}

theorem Finds.mono {Q : File → Prop} (hf : Finds es p i P) (hPQ : ∀ f, P f → Q f) : Finds es p i Q := by
  intro V Vs htr
  obtain ⟨f, hp, hP⟩ := hf V Vs htr
  exact ⟨f, hp, hPQ f hP⟩

theorem Finds.file (hf : Finds es p i P) (V : Version) (Vs : Treeseq) (htr : Trace es (V :: Vs)) :
    ∃ f, findSubtree p V.tree = some (.file i f) := by
  obtain ⟨f, hp, _⟩ := hf V Vs htr
  exact ⟨f, hp⟩

theorem Finds.treeSync (hf : Finds es p i P) : Finds (.call (.basic .treeSync) .synced :: es) p i P := by
  intro V Vs htr
  obtain ⟨V₀, Vs₀, htr₀, hstep⟩ := trace_call htr
  cases hstep.of_treeSync
  exact hf V Vs₀ htr₀

theorem Finds.fileSync (hf : Finds es p i P) : Finds (.call (.fileSync i) .synced :: es) p i P := by
  intro V Vs htr
  obtain ⟨V₀, Vs₀, htr₀, hstep⟩ := trace_call htr
  obtain ⟨_, _, heq, htree⟩ := hstep.synced
  cases heq
  rw [htree]
  exact hf V₀ Vs₀ htr₀

theorem Finds.written (hf : Finds es p i P) : Finds (.call (.updateFblockD i off v) (.written true) :: es) p i
    fun f' => ∃ f, P f ∧ f' = ⟨f.data.set off v, f.attr⟩ := by
  intro V Vs htr
  obtain ⟨V₀, Vs₀, htr₀, hstep⟩ := trace_call htr
  obtain ⟨f, hp, hP⟩ := hf V₀ Vs₀ htr₀
  obtain ⟨_, _, heq, htree⟩ := hstep.written
  cases heq
  have hset := find_setBlock i off v hp
  rw [if_pos rfl, ← htree] at hset
  exact ⟨_, hset, f, hP, rfl⟩

theorem Legal.treeSync (hleg : Legal es) : Legal (.call (.basic .treeSync) .synced :: es) :=
  ⟨hleg, fun _ _ _ => trivial, fun hlost => by cases hlost⟩

theorem Finds.legal_fileSync (hf : Finds es p i P) (hleg : Legal es) : Legal (.call (.fileSync i) .synced :: es) := by
  refine ⟨hleg, fun V Vs htr => ?_, fun hlost => by cases hlost⟩
  obtain ⟨f, hp, _⟩ := hf V Vs htr
  exact ⟨p, f, hp⟩

theorem Finds.legal_written (hf : Finds es p i P) (hoff : ∀ f, P f → off < f.data.length) (hleg : Legal es) :
    Legal (.call (.updateFblockD i off v) (.written true) :: es) := by
  refine ⟨hleg, fun V Vs htr => ?_, fun hlost => by cases hlost⟩
  obtain ⟨f, hp, hP⟩ := hf V Vs htr
  exact ⟨p, f, hp, hoff f hP⟩

end Finds

/-! ## A new file -/

/-- A new file with one block, with the inode `i`. -/
def newFile (i : Nat) : List Event :=
  [.call (.basic (.fileTruncate i 1)) (.done (.ok ())), .call (.basic (.create 1 [97])) (.inode (.ok i))]

theorem trace_nil {Vs : Treeseq} (h : Trace [] Vs) : Vs = [.settled (.dir 1 [])] := by
  cases h
  rfl

theorem trace_create {i : Nat} {V : Version} {Vs : Treeseq} (h : Trace [.call (.basic (.create 1 [97])) (.inode (.ok i))] (V :: Vs)) :
    V.tree = .dir 1 [([97], .file i dirfile0)] ∧ Vs = [.settled (.dir 1 [])] := by
  cases h with
  | call htr hstep =>
    cases trace_nil htr
    cases hstep with
    | update hu =>
      cases hu with
      | basic hu =>
        cases hu with
        | @create p _ ents _ _ hp =>
          cases p with
          | nil =>
            cases (Dirtree.findSubtree_nil _).symm.trans hp
            exact ⟨rfl, rfl⟩
          | cons k p => cases hp
    | read hread => cases hread
    | failed hf => cases hf

theorem trace_newFile {i : Nat} {V : Version} {Vs : Treeseq} (h : Trace (newFile i) (V :: Vs)) :
    V.tree = .dir 1 [([97], .file i ⟨[0], iattr0⟩)] ∧ ∀ U ∈ Vs, U.tree = .dir 1 [([97], .file i dirfile0)] ∨ U.tree = .dir 1 [] := by
  cases h with
  | @call _ Vs₁ _ _ _ htr hstep =>
    obtain ⟨V₁, Vs₁, rfl⟩ := List.exists_cons_of_ne_nil htr.ne_nil
    obtain ⟨htree, rfl⟩ := trace_create htr
    cases hstep with
    | update hu =>
      cases hu with
      | basic hu =>
        cases hu with
        | @fileTruncate p _ f _ hp =>
          have hd := (htr.ok V₁ List.mem_cons_self).tree.inodes
          have hq : findSubtree [[97]] V₁.tree = some (.file i dirfile0) := by rw [htree]; rfl
          obtain ⟨rfl, hfile⟩ := FsRun.find_unique hd hp hq rfl
          cases hfile
          refine ⟨?_, fun U hU => ?_⟩
          · rw [Version.next, htree]
            rfl
          · rcases List.mem_cons.1 hU with rfl | hU
            · exact .inl htree
            · rw [List.mem_singleton.1 hU]
              exact .inr rfl
    | read hread => cases hread
    | failed hf => cases hf

theorem find_newFile (i : Nat) : Finds (newFile i) [[97]] i (· = ⟨[0], iattr0⟩) := by
  intro V Vs htr
  refine ⟨_, ?_, rfl⟩
  rw [(trace_newFile htr).1]
  rfl

theorem legal_newFile (i : Nat) : Legal (newFile i) := by
  refine ⟨⟨trivial, fun V Vs htr => ?_, fun hlost => by cases hlost⟩, fun V Vs htr => ?_, fun hlost => by cases hlost⟩
  · cases trace_nil htr
    exact ⟨[], [], rfl⟩
  · exact ⟨[[97]], dirfile0, by rw [(trace_create htr).1]; rfl⟩

/-- The new file, with ten bytes. -/
def tenFile (i : Nat) : List Event := .call (.basic (.fileSetAttr i tenBytes)) (.done (.ok ())) :: newFile i

theorem trace_tenFile {i : Nat} {V : Version} {Vs : Treeseq} (h : Trace (tenFile i) (V :: Vs)) :
    V.tree = .dir 1 [([97], .file i ⟨[0], tenBytes⟩)] ∧ Trace (newFile i) Vs := by
  obtain ⟨U, Us, htr, hstep⟩ := trace_call h
  have htree := (trace_newFile htr).1
  have hq : findSubtree [[97]] U.tree = some (.file i ⟨[0], iattr0⟩) := by rw [htree]; rfl
  cases hstep with
  | update hu =>
    cases hu with
    | basic hu =>
      cases hu with
      | fileSetAttr hp =>
        obtain ⟨rfl, hfile⟩ := FsRun.find_unique (htr.ok U List.mem_cons_self).tree.inodes hp hq rfl
        cases hfile
        refine ⟨?_, htr⟩
        rw [Version.next, htree]
        rfl
  | read hread => cases hread
  | failed hf => cases hf

theorem find_tenFile (i : Nat) : Finds (tenFile i) [[97]] i (· = ⟨[0], tenBytes⟩) := by
  intro V Vs htr
  refine ⟨_, ?_, rfl⟩
  rw [(trace_tenFile htr).1]
  rfl

theorem legal_tenFile (i : Nat) : Legal (tenFile i) := by
  refine ⟨legal_newFile i, fun V Vs htr => ?_, fun h => by cases h⟩
  obtain ⟨f, hf, _⟩ := find_newFile i V Vs htr
  exact ⟨_, f, hf⟩

/-! ## It happens -/

theorem exists_newFile : ∃ i h ams s, Life h 1 1 256 (newFile i) (some ams) s ∧ NoCollision h s.seen ∧ s.seen.length ≤ 2 ^ 18 := by
  obtain ⟨h, s₀, ams, s, ams₁, s₁, i, hdisk, hexec, hcreate, ha, hlen, st₁, hm, hal, hfree⟩ := AFS.create_small
  have hl := AFS.fsLayout_small
  obtain ⟨hi, hfile⟩ := DIRTREE.file_eq (p := [[97]]) hm.tree rfl
  obtain ⟨hb, hms⟩ := AFS.TreeRep.brep hm.tree
  have hempty : (file AFS.smallFs (ldisk st₁.newest) i).data = [] := by rw [hfile]; rfl
  obtain ⟨s₂, ams₂, _, htruncate, hseen, _⟩ := AFS.transact_finishes (P := fun _ _ _ => True) hl.log (by decide) hm.log hm.idle
    (twp_mono (fun _ _ h => ⟨(), h, trivial⟩) _ (BFILE.truncate_one_ok hl.ok hb hms hi hempty
      (by rw [hal]; exact List.ne_nil_of_length_pos hfree)))
  refine ⟨i, h, ams₂, s₂, .call (.call (.mkfs (by decide) (fun a _ => hdisk a) hexec) hcreate.map) htruncate.map, ?_, ?_⟩
  · rw [hseen]
    exact ha
  · rw [hseen]
    exact hlen

theorem exists_tenFile : ∃ i h ams s, Life h 1 1 256 (tenFile i) (some ams) s ∧ NoCollision h s.seen ∧ s.seen.length ≤ 2 ^ 18 := by
  obtain ⟨i, h, ams, s, hlife, ha, hlen⟩ := exists_newFile
  have hl := AFS.fsLayout_small
  obtain ⟨_, htr, V, Vs, rfl, hu⟩ := hlife.agrees (by decide) (by decide) (by decide) (by decide) (legal_newFile i)
  obtain ⟨f, hf, _⟩ := find_newFile i V Vs htr
  obtain ⟨st, hs⟩ := hu.serves
  obtain ⟨Z, hr, _⟩ := hs.mounted.tree.nodes
  obtain ⟨hi, _⟩ := DIRTREE.file_eq hs.mounted.tree hf
  obtain ⟨s', ams', _, hset, hseen, _⟩ : ∃ s' ams' a,
      Exec h s (AFS.fileSetAttr false AFS.smallFs i tenBytes ams) (.finished s' (ams', .ok a)) ∧ s'.seen = s.seen ∧ _ :=
    AFS.transact_finishes (P := fun _ _ _ => True) hl.log (by decide) hs.mounted.log hs.mounted.idle
      (twp_seq (BFILE.setattrs_spec hl.ok hr.brep hr.msrep hi tenBytes) fun _ _ _ => ⟨(), rfl, trivial⟩)
  refine ⟨i, h, ams', s', .call hlife hset.map, ?_, ?_⟩
  · rw [hseen]
    exact ha
  · rw [hseen]
    exact hlen

section Next

variable {h : HashKey → HashVal} {es : List Event} {m : Option Memstate} {s : St Valu HashKey}

theorem Life.congr {dataBitmaps inodeBitmaps logDescrBlocks : Nat} {h' : HashKey → HashVal}
    (hlife : Life h dataBitmaps inodeBitmaps logDescrBlocks es m s) (heq : ∀ k ∈ s.seen, h' k = h k) :
    Life h' dataBitmaps inodeBitmaps logDescrBlocks es m s := by
  induction hlife with
  | mkfs hn hdisk he => exact .mkfs hn hdisk (he.congr rfl heq)
  | call _ he ih => exact .call (ih fun k hk => heq k (he.seen_subset rfl hk)) (he.congr rfl heq)
  | crash _ hd ih => exact .crash (ih heq) hd
  | crashCall _ he hd ih => exact .crashCall (ih fun k hk => heq k (he.seen_subset rfl hk)) (he.congr rfl heq) hd
  | lost _ he hlost hd ih => exact .lost (ih fun k hk => heq k (he.seen_subset rfl hk)) (he.congr rfl heq) hlost hd
  | crashRecover hn _ he hd ih => exact .crashRecover hn (ih fun k hk => heq k (he.seen_subset rfl hk)) (he.congr rfl heq) hd
  | recover hn _ he ih => exact .recover hn (ih fun k hk => heq k (he.seen_subset rfl hk)) (he.congr rfl heq)

/-- A call that hashes little, and that has one answer only, happens. -/
theorem Life.next {ams : Memstate} {c : Call} {r : FsRun.Result} {p : FProg Memstate}
    (hlife : Life h 1 1 256 es (some ams) s) (hleg : Legal (.call c r :: es))
    (hrun : c.run false AFS.smallFs ams = (fun ams => (ams, r)) <$> p)
    (hp : ams.msLL.msLL.msVMap.size ≤ AFS.smallFs.fsxpLog.logLen → p.Hashes (2 ^ 18)) (ha : NoCollision h s.seen)
    (hlen : s.seen.length + 2 ^ 18 ≤ 2 ^ 32) : ∃ h' ams' s', Life h' 1 1 256 (.call c r :: es) (some ams') s' ∧
      NoCollision h' s'.seen ∧ s'.seen.length ≤ s.seen.length + 2 ^ 18 := by
  have hl := AFS.fsLayout_small
  have hx := AFS.aboveZero_computeXparams 1 1 256 SB.magicNumber
  have hagrees : ∀ h' : HashKey → HashVal, (∀ k ∈ s.seen, h' k = h k) → Agrees h' AFS.smallFs (AFS.diskSize 1 1) es (some ams) s :=
    fun h' heq => (hlife.congr heq).agrees (by decide) (by decide) (by decide) (by decide) hleg.1
  have hsize : ams.msLL.msLL.msVMap.size ≤ AFS.smallFs.fsxpLog.logLen := by
    obtain ⟨_, _, _, _, _, hup⟩ := hagrees h fun _ _ => rfl
    obtain ⟨st, hs⟩ := hup.serves
    exact hs.mounted.log.size_le.trans (by decide)
  have hw : ∀ h' : HashKey → HashVal, (∀ k ∈ s.seen, h' k = h k) → wp h' p (fun _ _ => True) (fun _ => True) s := by
    intro h' heq
    obtain ⟨_, htr, V, Vs, rfl, hup⟩ := hagrees h' heq
    have hcall := hup.call hl hx (hleg.2.1 V Vs htr) false
    rw [hrun] at hcall
    exact wp_mono (fun _ _ _ => trivial) (fun _ _ => trivial) _ (wp_of_map hcall)
  obtain ⟨h', heq, s', ams', he, ha', hlen'⟩ := runs_of_hashes hw (hp hsize) ha (by rw [card_hashVal]; exact hlen)
  have hexec : Exec h' s (c.run false AFS.smallFs ams) (.finished s' (ams', r)) := by
    rw [hrun]
    exact he.map
  exact ⟨h', ams', s', .call (hlife.congr heq) hexec, ha', hlen'⟩

theorem Life.readFblock {ams : Memstate} {p : List Sname} {i off : Nat} {v : Valu} (hlife : Life h 1 1 256 es (some ams) s)
    (hread : Finds es p i (·.data[off]? = some v)) (hleg : Legal es) : ∃ ams' s', Life h 1 1 256 (.call (.basic (.readFblock i off)) (.block v) :: es) (some ams') s' ∧
      Legal (.call (.basic (.readFblock i off)) (.block v) :: es) := by
  obtain ⟨_, htr, V, Vs, rfl, hup⟩ := hlife.agrees (by decide) (by decide) (by decide) (by decide) hleg
  obtain ⟨f, hf, hv⟩ := hread V Vs htr
  have hx := AFS.aboveZero_computeXparams 1 1 256 SB.magicNumber
  obtain ⟨s', ⟨ams', w⟩, he, rfl, _⟩ := Exec.finishes (AFS.hashFree_readFblock _ _ _ _)
    (hup.readFblock AFS.fsLayout_small hx hf (htr.ok V List.mem_cons_self).tree.inodes hv)
  have hexec : Exec h s ((Call.basic (.readFblock i off)).run true AFS.smallFs ams) (.finished s' (ams', .block w)) := he.map
  refine ⟨ams', s', .call hlife hexec, hleg, fun V Vs htr => ?_, fun hlost => by cases hlost⟩
  obtain ⟨f, hf, hv⟩ := hread V Vs htr
  exact ⟨p, f, hf, (List.getElem?_eq_some_iff.1 hv).1⟩

section Calls

variable {ams : Memstate} (hlife : Life h 1 1 256 es (some ams) s) (ha : NoCollision h s.seen)
  (hlen : s.seen.length + 2 ^ 18 ≤ 2 ^ 32)
include hlife ha hlen

theorem Life.treeSync (hleg : Legal (.call (.basic .treeSync) .synced :: es)) : ∃ h' ams' s',
    Life h' 1 1 256 (.call (.basic .treeSync) .synced :: es) (some ams') s' ∧ NoCollision h' s'.seen ∧
      s'.seen.length ≤ s.seen.length + 2 ^ 18 :=
  hlife.next hleg rfl (fun hsize => (AFS.hashes_treeSync hsize).mono (by decide)) ha hlen

theorem Life.fileSync {i : Nat} (hleg : Legal (.call (.fileSync i) .synced :: es)) : ∃ h' ams' s',
    Life h' 1 1 256 (.call (.fileSync i) .synced :: es) (some ams') s' ∧ NoCollision h' s'.seen ∧
      s'.seen.length ≤ s.seen.length + 2 ^ 18 :=
  hlife.next hleg rfl (fun _ => (AFS.hashFree_fileSync _ _ _).hashes) ha hlen

theorem Life.updateFblockD {i off : Nat} {v : Valu} (hleg : Legal (.call (.updateFblockD i off v) (.written true) :: es)) :
    ∃ h' ams' s', Life h' 1 1 256 (.call (.updateFblockD i off v) (.written true) :: es) (some ams') s' ∧
      NoCollision h' s'.seen ∧ s'.seen.length ≤ s.seen.length + 2 ^ 18 :=
  hlife.next hleg rfl (fun hsize => (AFS.hashes_updateFblockD hsize _ _ _).mono (by decide)) ha hlen

theorem Life.umount (hleg : Legal (.call .umount .synced :: es)) : ∃ h' ams' s',
    Life h' 1 1 256 (.call .umount .synced :: es) (some ams') s' ∧ NoCollision h' s'.seen ∧
      s'.seen.length ≤ s.seen.length + 2 ^ 18 :=
  hlife.next hleg rfl (fun hsize => (AFS.hashes_umount hsize).mono (by decide)) ha hlen

end Calls

end Next

theorem legal_written (i : Nat) : Legal (.call (.updateFblockD i 0 1) (.written true) :: newFile i) :=
  (find_newFile i).legal_written (fun f hf => by rw [hf]; exact Nat.one_pos) (legal_newFile i)

/-- A write of the new file, and a power failure in the sync after it. -/
theorem life_refines_small : ∃ h i m s,
    Life h 1 1 256 (.crash (some (.fileSync i)) :: .call (.updateFblockD i 0 1) (.written true) :: newFile i) m s ∧
    Refines h AFS.smallFs (AFS.diskSize 1 1)
      (.crash (some (.fileSync i)) :: .call (.updateFblockD i 0 1) (.written true) :: newFile i) m s := by
  obtain ⟨i, h₀, ams₀, s₀, hlife₀, ha₀, hlen₀⟩ := exists_newFile
  obtain ⟨h, ams, s, hlife, _⟩ := hlife₀.updateFblockD ha₀ (by omega) (legal_written i)
  have hexec : Exec h s ((Call.fileSync i).run true AFS.smallFs ams) (.crashed s) :=
    (AFS.crash_fileSync _ i ams).crash_bind rfl
  have hcrash := Life.crashCall hlife hexec (Bufcache.possibleCrash_syncMem s.disk)
  refine ⟨h, i, _, _, hcrash, life_refines (by decide) (by decide) (by decide) (by decide) h _ _ _ hcrash ⟨legal_written i, ?_⟩⟩
  rintro c h V Vs htr
  cases h
  obtain ⟨f, hf, _⟩ := (find_newFile i).written V Vs htr
  exact ⟨_, f, hf⟩

end TreeSeq

end Fscq
