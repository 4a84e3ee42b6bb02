import Fscq.Crash.Follows
import Fscq.Afs.Durable
import Fscq.Fuse.ByteFile
import Fscq.Fuse.Word

/-!
# The FUSE server on the mounted file system

The server makes its calls on the mounted file system (`mountedCalls`). Each of them follows the call on a file of its own, so
its reads and writes do what they do there: a read returns the bytes of the file that the machine has at the path (`fuse_read`),
and a write inside the file replaces bytes of it, by direct writes (`fuse_write`).
-/

namespace Fscq

open TxnLogic CrashLogic
open Dirtree (findSubtree InodesDistinct)
open AFS (Memstate tenBytes bytes_tenBytes)
open HsWord (w2bs bs2i i2bs_eq)

namespace Fuse

/-! ## Reads and writes follow their calls -/

theorem writeRoom_in_place {M : Type → Type} [Monad M] (fs : FileCalls M) {len endpos : Int} (hle : ¬ len < endpos)
    (offset : Int) (bs : Bytes) : writeRoom fs len endpos offset bs = pure (.ok (), false) := by
  rw [writeRoom, if_neg hle, ite_self]

section Follows

variable {σ V K H : Type} {h : K → H} {R : File → σ → St V K → Prop} {C : St V K → Prop}
  {fs : FileCalls (StateT File Option)} {fs' : FileCalls (StateT σ (Prog V K H))}
  (hread : ∀ blk, Follows h R C (fs.readFblock blk) (fs'.readFblock blk))
  (hupd : ∀ blk bs, Follows h R C (fs.updateFblockD blk bs) (fs'.updateFblockD blk bs))

include hread

theorem readPiece_follows (r : BlockRange) : Follows h R C (readPiece fs r) (readPiece fs' r) :=
  (hread r.blk).bind fun _ => .pure _

theorem fscqRead_follows (hsz : Follows h R C fs.fileGetSz fs'.fileGetSz) (byteCount offset : Int) :
    Follows h R C (fscqRead fs byteCount offset) (fscqRead fs' byteCount offset) :=
  hsz.bind fun _ => (Follows.mapM (readPiece_follows hread) _).bind fun _ => .pure _

theorem newBlock_follows (initLen : Int) (r : BlockRange) (pieceBs : Bytes) :
    Follows h R C (newBlock fs initLen r pieceBs) (newBlock fs' initLen r pieceBs) := by
  unfold newBlock
  split
  · exact .pure _
  · refine Follows.bind ?_ fun _ => .pure _
    split
    · exact .pure _
    · exact hread _

include hupd

theorem writePiece_follows (initLen : Int) (st : WriteState) (q : BlockRange × Bytes) :
    Follows h R C (writePiece fs false initLen st q) (writePiece fs' false initLen st q) := by
  cases st with
  | writeErr c => exact .pure _
  | writeOK c => exact (newBlock_follows hread _ _ _).bind fun _ => (hupd _ _).bind fun _ => .pure _

/-- A write inside the file only makes direct writes of blocks. -/
theorem fscqWrite_follows (hsz : Follows h R C fs.fileGetSz fs'.fileGetSz) (bs : Bytes) (offset : Int)
    (hin : ∀ f wlen f' ms s, R f ms s → fs.fileGetSz f = some (wlen, f') → ¬ (wlen.toNat : Int) < offset + bs.length) :
    Follows h R C (fscqWrite fs bs offset) (fscqWrite fs' bs offset) := by
  refine hsz.bind_of fun f wlen f' ms s hr hrun => ?_
  have hle := hin f wlen f' ms s hr hrun
  simp only [writeRoom_in_place _ hle, pure_bind, if_neg hle]
  refine (Follows.foldlM (writePiece_follows hread hupd _) _ _).bind fun st => ?_
  cases st with
  | writeOK c => exact .pure _
  | writeErr c =>
    dsimp only
    split
    · exact .pure _
    · exact .pure _

end Follows

end Fuse

/-! ## The calls of the server -/

namespace Fuse

/-- The buffer of a block that was read. -/
def blockBytes (v : Valu) : Bytes := (w2bs (.W (v.toNat : Int)) 4096).getD []

/-- The block of a buffer. -/
def bytesBlock (bs : Bytes) : Valu := BitVec.ofInt valulen (bs2i bs)

/-- The calls of `fscq.hs` on the mounted file system. Of a write of a block, the result is not looked at. -/
def mountedCalls (shouldFlushall : Bool) (xp : FsXparams) (inum : Nat) : FileCalls (StateT Memstate FProg) where
  fileGetSz := fun ams => do
    let (ams, wlen) ← AFS.fileGetSz xp inum ams
    pure (wlen, ams)
  fileTruncate := fun sz ams => do
    let (ams, ok) ← AFS.fileTruncate shouldFlushall xp inum sz.toNat ams
    pure (ok, ams)
  fileSetSz := fun sz ams => do
    let (ams, ok) ← AFS.fileSetSz shouldFlushall xp inum sz ams
    pure (ok, ams)
  readFblock := fun blk ams => do
    let (ams, wbuf) ← AFS.readFblock xp inum blk.toNat ams
    pure (blockBytes wbuf, ams)
  updateFblock := fun blk bs ams => do
    let (ams, _) ← AFS.updateFblock shouldFlushall xp inum blk.toNat (bytesBlock bs) ams
    pure ((), ams)
  updateFblockD := fun blk bs ams => do
    let ams ← AFS.updateFblockD xp inum blk.toNat (bytesBlock bs) ams
    pure ((), ams)

theorem blockBytes_spec (v : Valu) : (blockBytes v).length = 4096 ∧ bs2i (blockBytes v) = v.toNat := by
  have h8 : valulen = 8 * 4096 := rfl
  obtain ⟨b, hb, hlen, hval⟩ := i2bs_eq (v.isLt.trans_eq (congrArg (2 ^ ·) h8))
  have hw : w2bs (.W (v.toNat : Int)) 4096 = some b := hb
  rw [blockBytes, hw, Option.getD_some]
  exact ⟨hlen, hval⟩

theorem blockBytes_zero : blockBytes 0 = zeroBlock := by
  have hw : w2bs (.W 0) 4096 = some zeroBlock := by
    rw [w2bs, HsWord.i2bs, Int.natAbs_zero, Nat.digits_zero, List.map_nil]
    exact (if_pos (by decide)).trans (congrArg some (List.nil_append _))
  have h0 : ((0 : Valu).toNat : Int) = 0 := congrArg Nat.cast BitVec.toNat_zero
  rw [blockBytes, h0, hw, Option.getD_some]

theorem toNat_ofInt_of_lt {w : Nat} {x : Int} (h0 : 0 ≤ x) (hlt : x < 2 ^ w) : ((BitVec.ofInt w x).toNat : Int) = x := by
  rw [BitVec.toNat_ofInt, Int.emod_eq_of_lt h0 (by push_cast; exact hlt), Int.toNat_of_nonneg h0]

/-- What is written is read back. -/
theorem blockBytes_bytesBlock {bs : Bytes} (hlen : bs.length = 4096) : blockBytes (bytesBlock bs) = bs := by
  have h8 : 8 * 4096 = valulen := rfl
  have hlt := HsWord.bs2i_lt bs
  rw [hlen, h8] at hlt
  have hnum : ((bytesBlock bs).toNat : Int) = bs2i bs := toNat_ofInt_of_lt (HsWord.bs2i_nonneg bs) hlt
  obtain ⟨hlen', hval⟩ := blockBytes_spec (bytesBlock bs)
  exact (HsWord.bs2i_inj (hlen'.trans hlen.symm)).1 (hval.trans hnum)

/-- A file of the file system as the server sees it. -/
def mountedFile (f : Fscq.File) : File := ⟨f.data.map blockBytes, INODE.ABytes f.attr⟩

theorem mountedFile_blocksOk (f : Fscq.File) : (mountedFile f).BlocksOk := by
  intro b hb
  obtain ⟨v, _, rfl⟩ := List.mem_map.1 hb
  exact (blockBytes_spec v).1

theorem mountedFile_set (f : Fscq.File) (off : Nat) {bs : Bytes} (hlen : bs.length = 4096) :
    mountedFile ⟨f.data.set off (bytesBlock bs), f.attr⟩ =
      { mountedFile f with blocks := (mountedFile f).blocks.set off bs } := by
  simp only [mountedFile, List.map_set, blockBytes_bytesBlock hlen]

end Fuse

namespace TreeSeq

variable {h : HashKey → HashVal} {xp : FsXparams} {n : Nat} {V : Version} {Vs Vs' : Treeseq} {ams : Memstate}
  {s : St Valu HashKey} {p : List Sname} {i : Nat} {f : File} {attr : INODE.Iattr} {fail : Option Errno} {shouldFlushall : Bool}

/-- No file has more blocks than an inode can name. -/
theorem Up.length_le (hu : Up h xp n V Vs ams s) (hp : findSubtree p V.tree = some (.file i f)) :
    f.data.length ≤ BlockPtr.nBlocks := by
  obtain ⟨st, hs⟩ := hu.serves
  obtain ⟨Z, hr, _⟩ := hs.mounted.tree.nodes
  obtain ⟨hi, hfile⟩ := DIRTREE.file_eq hs.mounted.tree hp
  have hlen := (hr.brep.irep i hi).len
  rw [← BlockPtr.length_blockList (ldisk st.newest)] at hlen
  rwa [← hfile, file, List.length_map, blks, List.length_map]

/-- The abstract state is the file at the path in the newest of some versions with `Q`. -/
def OnFile (h : HashKey → HashVal) (xp : FsXparams) (n : Nat) (Q : Treeseq → Prop) (p : List Sname) (i : Nat)
    (attr : INODE.Iattr) (g : Fuse.File) (ams : Memstate) (s : St Valu HashKey) : Prop :=
  ∃ V Vs f, Q (V :: Vs) ∧ (∀ U ∈ V :: Vs, U.Ok) ∧ findSubtree p V.tree = some (.file i f) ∧ f.attr = attr ∧
    g = Fuse.mountedFile f ∧ Up h xp n V Vs ams s

section Calls

variable (hl : FsLayout xp n) (hx : xp.fsxpLog.AboveZero) {Q : Treeseq → Prop} {K : FsTree → Prop}
  (hK : ∀ Vs T, Q Vs → Crash Vs none T → K T)
include hl hx hK

theorem fileGetSz_follows : Follows h (OnFile h xp n Q p i attr) (Fallen h xp n K) (Fuse.fileCalls fail).fileGetSz
    (Fuse.mountedCalls shouldFlushall xp i).fileGetSz := by
  rintro _ a _ hrun ams s ⟨V, Vs, f, hQ, hok, hp, hattr, rfl, hu⟩
  cases hrun
  refine wp_bind _ (wp_bind _ (wp_mono ?_ (fun _ hc => hc.mono fun T => hK _ T hQ) _ (hu.fileGetAttr hl hx hp)))
  rintro ⟨ams', _⟩ s' ⟨rfl, hu'⟩
  exact ⟨rfl, V, Vs, f, hQ, hok, hp, hattr, rfl, hu'⟩

theorem readFblock_follows (blk : Int) : Follows h (OnFile h xp n Q p i attr) (Fallen h xp n K)
    ((Fuse.fileCalls fail).readFblock blk) ((Fuse.mountedCalls shouldFlushall xp i).readFblock blk) := by
  rintro _ a g hrun ams s ⟨V, Vs, f, hQ, hok, hp, hattr, rfl, hu⟩
  have hrun' : Fuse.File.read blk (Fuse.mountedFile f) = some (a, g) := hrun
  rw [Fuse.File.read] at hrun'
  split at hrun'
  · obtain ⟨b, hb, heq⟩ := Option.map_eq_some_iff.1 hrun'
    cases heq
    rw [Fuse.mountedFile, List.getElem?_map] at hb
    obtain ⟨v, hv, rfl⟩ := Option.map_eq_some_iff.1 hb
    have hinodes := (hok V List.mem_cons_self).tree.inodes
    refine wp_bind _ (wp_mono ?_ (fun _ hc => hc.mono fun T => hK _ T hQ) _ (hu.readFblock hl hx hp hinodes hv))
    rintro ⟨ams', w⟩ s' ⟨rfl, hu'⟩
    exact ⟨rfl, V, Vs, f, hQ, hok, hp, hattr, rfl, hu'⟩
  · cases hrun'

end Calls

/-! ## Reads -/

/-- A read of the mounted file system returns the bytes of its range, and leaves the versions. -/
theorem Up.fscqRead (hl : FsLayout xp n) (hx : xp.fsxpLog.AboveZero) (hok : ∀ U ∈ V :: Vs, U.Ok) (hu : Up h xp n V Vs ams s)
    (hp : findSubtree p V.tree = some (.file i f)) (hin : (INODE.ABytes f.attr).toNat ≤ f.data.length * 4096)
    (count offset : Nat) :
    wp h (Fuse.fscqRead (Fuse.mountedCalls shouldFlushall xp i) count offset ams)
      (fun r s' => r.1 = Fuse.readBytes (Fuse.mountedFile f).contents offset count ∧ Up h xp n V Vs r.2 s')
      (Fallen h xp n (Crash (V :: Vs) none)) s := by
  have hlen := hu.length_le hp
  rw [BlockPtr.nBlocks_eq] at hlen
  have hblocks : (Fuse.mountedFile f).blocks.length = f.data.length := List.length_map _
  have hrun := Fuse.fscqRead_run none (Fuse.mountedFile_blocksOk f) (by rwa [hblocks])
    (show (INODE.ABytes f.attr).toNat < 2 ^ 63 by omega) count offset
  have hK : ∀ Us T, Us = V :: Vs → Crash Us none T → Crash (V :: Vs) none T := fun Us T heq hc => heq ▸ hc
  have hfollows : Follows h (OnFile h xp n (· = V :: Vs) p i f.attr) (Fallen h xp n (Crash (V :: Vs) none))
      (Fuse.fscqRead (Fuse.fileCalls none) count offset)
      (Fuse.fscqRead (Fuse.mountedCalls shouldFlushall xp i) count offset) :=
    Fuse.fscqRead_follows (readFblock_follows hl hx hK) (fileGetSz_follows hl hx hK) _ _
  refine wp_mono ?_ (fun _ hc => hc) _ (hfollows _ _ _ hrun ams s ⟨V, Vs, f, rfl, hok, hp, rfl, rfl, hu⟩)
  rintro r s' ⟨hr, _, _, _, heq, _, _, _, _, hu'⟩
  cases heq
  exact ⟨hr, hu'⟩

/-! ## Writes inside a file -/

/-- The versions after some direct writes to a file. -/
inductive Rewritten (i : Nat) (Vs₀ : Treeseq) : Treeseq → Prop
  | refl : Rewritten i Vs₀ Vs₀
  | write {Vs Vs' off v r} : Rewritten i Vs₀ Vs → Step Vs (.updateFblockD i off v) r Vs' → Rewritten i Vs₀ Vs'

/-- A tree after a power failure between these writes, or in one. -/
def RewriteCrash (i : Nat) (Vs₀ : Treeseq) (T : FsTree) : Prop :=
  ∃ Vs oc, Rewritten i Vs₀ Vs ∧ (∀ c, oc = some c → ∃ off v, c = .updateFblockD i off v) ∧ Crash Vs oc T

/-- Direct writes to a file leave the others. -/
theorem Rewritten.find_other {Us : Treeseq} (h : Rewritten i (V :: Vs) Us) : ∃ V' Vs', Us = V' :: Vs' ∧
    ∀ q j g, j ≠ i → findSubtree q V.tree = some (.file j g) → findSubtree q V'.tree = some (.file j g) := by
  induction h with
  | refl => exact ⟨V, Vs, rfl, fun _ _ _ _ hq => hq⟩
  | @write _ Us' off v r _ hstep ih =>
    obtain ⟨V₁, Vs₁, rfl, hother⟩ := ih
    obtain ⟨V', Vs', rfl, htree⟩ := hstep.written
    refine ⟨V', Vs', rfl, fun q j g hj hq => ?_⟩
    rw [htree, find_setBlock i off v (hother q j g hj hq), if_neg hj]

theorem updateFblockD_follows (hl : FsLayout xp n) (hx : xp.fsxpLog.AboveZero) {Vs₀ : Treeseq} (blk : Int) (bs : Fuse.Bytes) :
    Follows h (OnFile h xp n (Rewritten i Vs₀) p i attr) (Fallen h xp n (RewriteCrash i Vs₀))
      ((Fuse.fileCalls fail).updateFblockD blk bs) ((Fuse.mountedCalls shouldFlushall xp i).updateFblockD blk bs) := by
  rintro _ a g hrun ams s ⟨V, Vs, f, hQ, hok, hp, hattr, rfl, hu⟩
  have hrun' : Fuse.File.update blk bs (Fuse.mountedFile f) = some (a, g) := hrun
  rw [Fuse.File.update] at hrun'
  split at hrun'
  · rename_i hfit
    obtain ⟨_, hoff, hlen⟩ := hfit
    cases hrun'
    have hblocks : (Fuse.mountedFile f).blocks.length = f.data.length := List.length_map _
    have hb : HasBlock V.tree i blk.toNat := ⟨p, f, hp, hblocks ▸ hoff⟩
    refine wp_bind _ (wp_mono ?_ ?_ _ (hu.updateFblockD hl hx hb (Fuse.bytesBlock bs)))
    · rintro ams' s' ⟨V', Vs', hstep, hu'⟩
      refine ⟨rfl, V', Vs', ⟨f.data.set blk.toNat (Fuse.bytesBlock bs), f.attr⟩, hQ.write hstep, hstep.ok hok, ?_, hattr, ?_,
        hu'⟩
      · obtain ⟨_, _, heq, htree⟩ := hstep.written
        cases heq
        rw [htree, find_setBlock i blk.toNat _ hp, if_pos rfl]
      · exact (Fuse.mountedFile_set f blk.toNat hlen).symm
    · intro s' hf
      exact hf.mono fun T hc => ⟨V :: Vs, _, hQ, fun c hc => ⟨_, _, (Option.some_inj.1 hc).symm⟩, hc⟩
  · cases hrun'

/-- A write inside a file of the mounted file system replaces the bytes of its range by direct writes. -/
theorem Up.fscqWrite (hl : FsLayout xp n) (hx : xp.fsxpLog.AboveZero) (hok : ∀ U ∈ V :: Vs, U.Ok) (hu : Up h xp n V Vs ams s)
    (hp : findSubtree p V.tree = some (.file i f)) {str : Fuse.Bytes} (hrep : Fuse.Rep (Fuse.mountedFile f) str)
    (b : Fuse.Bytes) (o : Nat) (hin : o + b.length ≤ str.length) :
    wp h (Fuse.fscqWrite (Fuse.mountedCalls shouldFlushall xp i) b o ams)
      (fun r s' => r.1 = .ok b.length ∧ ∃ V' Vs' f', Rewritten i (V :: Vs) (V' :: Vs') ∧
        findSubtree p V'.tree = some (.file i f') ∧ Fuse.Rep (Fuse.mountedFile f') (Fuse.writeBytes str o b) ∧
        Up h xp n V' Vs' r.2 s')
      (Fallen h xp n (RewriteCrash i (V :: Vs))) s := by
  obtain ⟨g, hrun, hrep', _⟩ : ∃ g, Fuse.fscqWrite (Fuse.fileCalls none) b o (Fuse.mountedFile f) = some (.ok b.length, g) ∧
      Fuse.Rep g (Fuse.writeBytes str o b) ∧ _ := (Fuse.fscqWrite_spec hrep b o).resolve_right fun hgrow => by omega
  have hK : ∀ Us T, Rewritten i (V :: Vs) Us → Crash Us none T → RewriteCrash i (V :: Vs) T :=
    fun Us T hUs hc => ⟨Us, none, hUs, (fun _ heq => by cases heq), hc⟩
  have hfollows : Follows h (OnFile h xp n (Rewritten i (V :: Vs)) p i f.attr) (Fallen h xp n (RewriteCrash i (V :: Vs)))
      (Fuse.fscqWrite (Fuse.fileCalls none) b o) (Fuse.fscqWrite (Fuse.mountedCalls shouldFlushall xp i) b o) := by
    refine Fuse.fscqWrite_follows (readFblock_follows hl hx hK) (updateFblockD_follows hl hx) (fileGetSz_follows hl hx hK)
      b o ?_
    rintro _ wlen g' ms s ⟨_, _, f', _, _, _, hattr, rfl, _⟩ hsz
    cases hsz
    have hsize : (INODE.ABytes f'.attr).toNat = str.length := hattr ▸ hrep.size
    have hsize' : (Fuse.mountedFile f').size.toNat = str.length := hsize
    omega
  refine wp_mono ?_ (fun _ hc => hc) _ (hfollows _ _ _ hrun ams s ⟨V, Vs, f, .refl, hok, hp, rfl, rfl, hu⟩)
  rintro r s' ⟨hr, V', Vs', f', hQ, _, hp', _, rfl, hu'⟩
  exact ⟨hr, V', Vs', f', hQ, hp', hrep', hu'⟩

section Format

variable {dataBitmaps inodeBitmaps logDescrBlocks : Nat} (hd : dataBitmaps ≠ 0) (hi : inodeBitmaps ≠ 0)
  (hi' : inodeBitmaps ≤ valulen * valulen) (hsize : AFS.rawSize dataBitmaps inodeBitmaps logDescrBlocks < 2 ^ 64)
include hd hi hi' hsize

/-- After any history of calls and power failures, a read of a file that has the blocks for its size returns the bytes that
the machine has there, and a power failure in it loses nothing that one before it would not. The path is not `/stats`. -/
theorem fuse_read (h : HashKey → HashVal) : ∀ es ams s, Life h dataBitmaps inodeBitmaps logDescrBlocks es (some ams) s →
    Legal es → ∃ V Vs, Trace es (V :: Vs) ∧ ∀ p i f shouldFlushall getStats (slash : Char) path (count offset : Nat),
      findSubtree p V.tree = some (.file i f) → (INODE.ABytes f.attr).toNat ≤ f.data.length * 4096 → path ≠ "stats".toList →
      wp h (Fuse.fscqReadPath getStats (Fuse.mountedCalls shouldFlushall
          (AFS.computeXparams dataBitmaps inodeBitmaps logDescrBlocks SB.magicNumber) i) (slash :: path) count offset ams)
        (fun r s' => r.1 = .ok (Fuse.readBytes (Fuse.mountedFile f).contents offset count) ∧
          Up h (AFS.computeXparams dataBitmaps inodeBitmaps logDescrBlocks SB.magicNumber)
            (AFS.diskSize dataBitmaps inodeBitmaps) V Vs r.2 s')
        (Fallen h (AFS.computeXparams dataBitmaps inodeBitmaps logDescrBlocks SB.magicNumber)
          (AFS.diskSize dataBitmaps inodeBitmaps) (Crash (V :: Vs) none)) s := by
  intro es ams s hlife hleg
  have hl := AFS.fsLayout_computeXparams hd hi' hsize
  have hx := AFS.aboveZero_computeXparams dataBitmaps inodeBitmaps logDescrBlocks SB.magicNumber
  obtain ⟨_, htr, V, Vs, rfl, hu⟩ := hlife.agrees hd hi hi' hsize hleg
  refine ⟨V, Vs, htr, fun p i f fl getStats slash path count offset hp hin hpath => ?_⟩
  rw [Fuse.fscqReadPath, if_neg hpath]
  refine wp_bind _ (wp_mono ?_ (fun _ hc => hc) _ (hu.fscqRead hl hx htr.ok hp hin count offset))
  rintro r s' ⟨hr, hu'⟩
  exact ⟨congrArg _ hr, hu'⟩

/-- After any history of calls and power failures, a write inside a file replaces the bytes of its range, by direct writes of
blocks; the other files are as they were. -/
theorem fuse_write (h : HashKey → HashVal) : ∀ es ams s, Life h dataBitmaps inodeBitmaps logDescrBlocks es (some ams) s →
    Legal es → ∃ V Vs, Trace es (V :: Vs) ∧ ∀ p i f shouldFlushall str (b : Fuse.Bytes) (o : Nat),
      findSubtree p V.tree = some (.file i f) → Fuse.Rep (Fuse.mountedFile f) str → o + b.length ≤ str.length →
      wp h (Fuse.fscqWrite (Fuse.mountedCalls shouldFlushall
          (AFS.computeXparams dataBitmaps inodeBitmaps logDescrBlocks SB.magicNumber) i) b o ams)
        (fun r s' => r.1 = .ok b.length ∧ ∃ V' Vs', Rewritten i (V :: Vs) (V' :: Vs') ∧
          (∃ f', findSubtree p V'.tree = some (.file i f') ∧ Fuse.Rep (Fuse.mountedFile f') (Fuse.writeBytes str o b)) ∧
          (∀ q j g, j ≠ i → findSubtree q V.tree = some (.file j g) → findSubtree q V'.tree = some (.file j g)) ∧
          Up h (AFS.computeXparams dataBitmaps inodeBitmaps logDescrBlocks SB.magicNumber)
            (AFS.diskSize dataBitmaps inodeBitmaps) V' Vs' r.2 s')
        (Fallen h (AFS.computeXparams dataBitmaps inodeBitmaps logDescrBlocks SB.magicNumber)
          (AFS.diskSize dataBitmaps inodeBitmaps) (RewriteCrash i (V :: Vs))) s := by
  intro es ams s hlife hleg
  have hl := AFS.fsLayout_computeXparams hd hi' hsize
  have hx := AFS.aboveZero_computeXparams dataBitmaps inodeBitmaps logDescrBlocks SB.magicNumber
  obtain ⟨_, htr, V, Vs, rfl, hu⟩ := hlife.agrees hd hi hi' hsize hleg
  refine ⟨V, Vs, htr, fun p i f fl str b o hp hrep hin => ?_⟩
  refine wp_mono ?_ (fun _ hc => hc) _ (hu.fscqWrite hl hx htr.ok hp hrep b o hin)
  rintro r s' ⟨hr, V', Vs', f', hrw, hp', hrep', hu'⟩
  obtain ⟨_, _, heq, hother⟩ := hrw.find_other
  cases heq
  exact ⟨hr, V', Vs', hrw, ⟨f', hp', hrep'⟩, hother, hu'⟩

end Format

/-! ## A file of ten bytes -/

theorem rep_tenFile : Fuse.Rep (Fuse.mountedFile ⟨[0], tenBytes⟩) (List.replicate 10 0) := by
  refine ⟨congrArg BitVec.toNat bytes_tenBytes, Fuse.mountedFile_blocksOk _, rfl, by decide, fun i => ?_⟩
  have hzero : (List.replicate 10 (0 : UInt8)).getD i 0 = 0 := by
    rw [List.getD_eq_getElem?_getD, List.getElem?_replicate]
    split <;> rfl
  rw [hzero, Fuse.mountedFile, List.map_singleton, Fuse.blockBytes_zero]
  exact (Fuse.File.byte_append_zero [] _ 0 1 i).trans (by simp [Fuse.File.byte])

theorem fuse_read_small : ∃ h i ams s, Life h 1 1 256 (tenFile i) (some ams) s ∧ ∃ V Vs, Trace (tenFile i) (V :: Vs) ∧
    wp h (Fuse.fscqReadPath (pure []) (Fuse.mountedCalls false (AFS.computeXparams 1 1 256 SB.magicNumber) i) "/a".toList
        (5 : Nat) (2 : Nat) ams)
      (fun r s' => r.1 = .ok (Fuse.readBytes (Fuse.mountedFile ⟨[0], tenBytes⟩).contents 2 5) ∧
        Up h (AFS.computeXparams 1 1 256 SB.magicNumber) (AFS.diskSize 1 1) V Vs r.2 s')
      (Fallen h (AFS.computeXparams 1 1 256 SB.magicNumber) (AFS.diskSize 1 1) (Crash (V :: Vs) none)) s := by
  obtain ⟨i, h, ams, s, hlife, _, _⟩ := exists_tenFile
  obtain ⟨V, Vs, htr, hread⟩ :=
    fuse_read (by decide) (by decide) (by decide) (by decide) h (tenFile i) ams s hlife (legal_tenFile i)
  obtain ⟨_, hf, rfl⟩ := find_tenFile i V Vs htr
  refine ⟨h, i, ams, s, hlife, V, Vs, htr, hread _ _ _ false (pure []) _ _ 5 2 hf ?_ (by decide)⟩
  rw [bytes_tenBytes]
  decide

theorem fuse_write_small : ∃ h i ams s, Life h 1 1 256 (tenFile i) (some ams) s ∧ ∃ V Vs, Trace (tenFile i) (V :: Vs) ∧
    wp h (Fuse.fscqWrite (Fuse.mountedCalls false (AFS.computeXparams 1 1 256 SB.magicNumber) i) [1, 2, 3] (4 : Nat) ams)
      (fun r s' => r.1 = .ok 3 ∧ ∃ V' Vs', Rewritten i (V :: Vs) (V' :: Vs') ∧
        (∃ f', findSubtree [[97]] V'.tree = some (.file i f') ∧
          Fuse.Rep (Fuse.mountedFile f') (Fuse.writeBytes (List.replicate 10 0) 4 [1, 2, 3])) ∧
        (∀ q j g, j ≠ i → findSubtree q V.tree = some (.file j g) → findSubtree q V'.tree = some (.file j g)) ∧
        Up h (AFS.computeXparams 1 1 256 SB.magicNumber) (AFS.diskSize 1 1) V' Vs' r.2 s')
      (Fallen h (AFS.computeXparams 1 1 256 SB.magicNumber) (AFS.diskSize 1 1) (RewriteCrash i (V :: Vs))) s := by
  obtain ⟨i, h, ams, s, hlife, _, _⟩ := exists_tenFile
  obtain ⟨V, Vs, htr, hwrite⟩ :=
    fuse_write (by decide) (by decide) (by decide) (by decide) h (tenFile i) ams s hlife (legal_tenFile i)
  obtain ⟨_, hf, rfl⟩ := find_tenFile i V Vs htr
  exact ⟨h, i, ams, s, hlife, V, Vs, htr, hwrite _ _ _ false _ [1, 2, 3] 4 hf rep_tenFile (by decide)⟩

end TreeSeq

end Fscq
