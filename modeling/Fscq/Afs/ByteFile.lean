import Fscq.Afs.TwoAllocs
import Fscq.Rec.Bytes

/-!
# Access to files by bytes

`read` and `dwrite` of `BytefileSpecs.v` cut a range of bytes into a part of a first block, whole blocks, and a part of a last
block. `contents` are the bytes of a file, cut to its size: `read` returns a range of them, and `dwrite` replaces one
(`Patched`). After a crash during `dwrite` every byte is one that it could have been before, or a new one in its place
(`byte_access_agrees`).
-/

namespace Fscq

open TxnLogic CrashLogic INODE
open MLog (MCrash)
open BFILE (IcacheOnly TwoAllocs)
open Bufcache (updVs updVs_of_ne)
open LOG (LRep setCur)

namespace Bytefile

open AFS (Memstate)

/-! ## The programs -/

section Programs

variable (xp : FsXparams) (inum : Nat)

def readFromBlock (blockOff byteOff readLength : Nat) (ams : Memstate) : FProg (Memstate × List Byte) := do
  let (ms1, firstBlock) ← AFS.readFblock xp inum blockOff ams
  pure (ms1, getSublist (valu2list firstBlock) byteOff readLength)

def readMiddleBlocks (blockOff numOfFullBlocks : Nat) (fms : Memstate) : FProg (Memstate × List Byte) :=
  Prog.forN (fun i (p : Memstate × List Byte) => do
    let (fms', list) ← readFromBlock xp inum (blockOff + i) 0 valubytes p.1
    pure (fms', p.2 ++ list)) 0 numOfFullBlocks (fms, [])

def readLast (off n : Nat) (fms : Memstate) : FProg (Memstate × List Byte) :=
  if 0 < n then readFromBlock xp inum off 0 n fms else pure (fms, [])

def readMiddle (blockOff n : Nat) (fms : Memstate) : FProg (Memstate × List Byte) := do
  let numOfFullBlocks := n / valubytes
  let offFinal := blockOff + numOfFullBlocks
  let lenFinal := n % valubytes
  if 0 < numOfFullBlocks then do
    let (ms1, dataMiddle) ← readMiddleBlocks xp inum blockOff numOfFullBlocks fms
    if 0 < lenFinal then do
      let (ms2, dataLast) ← readLast xp inum offFinal lenFinal ms1
      pure (ms2, dataMiddle ++ dataLast)
    else pure (ms1, dataMiddle)
  else readLast xp inum offFinal lenFinal fms

def readFirst (blockOff byteOff n : Nat) (fms : Memstate) : FProg (Memstate × List Byte) :=
  if valubytes - byteOff < n then do
    let firstReadLength := valubytes - byteOff
    let (ms1, dataFirst) ← readFromBlock xp inum blockOff byteOff firstReadLength fms
    let blockOff := blockOff + 1
    -- the length of the remaining part
    let lenRemain := n - firstReadLength
    let (ms2, dataRem) ← readMiddle xp inum blockOff lenRemain ms1
    pure (ms2, dataFirst ++ dataRem)
  else readFromBlock xp inum blockOff byteOff n fms

/-- An offset behind the end of the file gives nothing; the length is not compared with the size. -/
def read (off len : Nat) (fms : Memstate) : FProg (Memstate × List Byte) :=
  if 0 < len then do
    let (ms1, fattr) ← AFS.fileGetAttr xp inum fms
    let flen := (ABytes fattr).toNat
    if off < flen then readFirst xp inum (off / valubytes) (off % valubytes) len ms1
    else pure (ms1, [])
  else pure (fms, [])

def dwriteToBlock (blockOff byteOff : Nat) (data : List Byte) (mscs : Memstate) : FProg Memstate := do
  let (ms1, block) ← AFS.readFblock xp inum blockOff mscs
  let newBlock := list2valu (patch (valu2list block) byteOff data)
  AFS.updateFblockD xp inum blockOff newBlock ms1

def dwriteMiddleBlocks (blockOff numOfFullBlocks : Nat) (data : List Byte) (mscs : Memstate) : FProg Memstate :=
  Prog.forN (fun i ms' =>
    let writeData := getSublist data (i * valubytes) valubytes
    dwriteToBlock xp inum (blockOff + i) 0 writeData ms') 0 numOfFullBlocks mscs

def dwriteLast (blockOff : Nat) (data : List Byte) (mscs : Memstate) : FProg Memstate :=
  if 0 < data.length then dwriteToBlock xp inum blockOff 0 data mscs else pure mscs

def dwriteMiddle (blockOff : Nat) (data : List Byte) (mscs : Memstate) : FProg Memstate := do
  let numOfFullBlocks := data.length / valubytes
  if 0 < numOfFullBlocks then do
    let middleData := data.take (numOfFullBlocks * valubytes)
    let ms2 ← dwriteMiddleBlocks xp inum blockOff numOfFullBlocks middleData mscs
    let blockOff := blockOff + numOfFullBlocks
    let remainingData := data.drop (numOfFullBlocks * valubytes)
    if 0 < remainingData.length then dwriteLast xp inum blockOff remainingData ms2
    else pure ms2
  else dwriteLast xp inum blockOff data mscs

def dwriteFirst (blockOff byteOff : Nat) (data : List Byte) (mscs : Memstate) : FProg Memstate :=
  let writeLength := data.length
  if writeLength ≤ valubytes - byteOff then dwriteToBlock xp inum blockOff byteOff data mscs
  else do
    let firstWriteLength := valubytes - byteOff
    let firstData := data.take firstWriteLength
    let ms1 ← dwriteToBlock xp inum blockOff byteOff firstData mscs
    let blockOff := blockOff + 1
    let remainingData := data.drop firstWriteLength
    dwriteMiddle xp inum blockOff remainingData ms1

def dwrite (off : Nat) (data : List Byte) (mscs : Memstate) : FProg Memstate :=
  let writeLength := data.length
  let blockOff := off / valubytes
  let byteOff := off % valubytes
  if 0 < writeLength then dwriteFirst xp inum blockOff byteOff data mscs else pure mscs

end Programs

/-! ## Bytes of a file -/

/-- The bytes of the blocks of a file. -/
def bytes (xp : FsXparams) (d : LDisk) (inum : Nat) : List Byte := (file xp d inum).data.flatMap valu2list

def size (xp : FsXparams) (d : LDisk) (inum : Nat) : Nat := (ABytes (file xp d inum).attr).toNat

/-- The bytes up to the size. -/
def contents (xp : FsXparams) (d : LDisk) (inum : Nat) : List Byte := (bytes xp d inum).take (size xp d inum)

/-- Between two calls: the log and the caches of the file layer are in order, and so are all disks that a crash may leave. -/
structure Ready (h : HashKey → HashVal) (xp : FsXparams) (n : Nat) (st : LogState) (ams : Memstate) (s : St Valu HashKey) :
    Prop where
  log : LRep h xp.fsxpLog n st ams.msLL s
  inv : BFILE.Inv xp n ⟨st, ams.fms, none⟩
  allocs : TwoAllocs xp ⟨st, ams.fms, none⟩

variable {h : HashKey → HashVal} {xp : FsXparams} {n inum : Nat} {st st' : LogState} {ams : Memstate} {s : St Valu HashKey}

/-- Between two calls of any run, the state is so. -/
theorem Ready.of_runs {x : BFILE.Files} {y : BFILE.Session} (hr : BFILE.Runs h xp n x y s) (hv : BFILE.Inv xp n x)
    (ht : TwoAllocs xp x) (hs : x.saved = none) : Ready h xp n x.log y.ams s := by
  obtain ⟨log, mem, saved⟩ := x
  obtain ⟨hlog, hmem, -⟩ := hr
  obtain rfl : mem = y.ams.fms := hmem.symm
  obtain rfl : saved = none := hs
  exact ⟨hlog, hv, ht⟩

theorem Ready.good (hr : Ready h xp n st ams s) : BFILE.Good xp (ldisk st.newest) ams.fms := hr.inv.newest rfl

/-- A call that only reads, and keeps the caches in order. -/
theorem Ready.ro {α : Type} (hl : FsLayout xp n) (hr : Ready h xp n st ams s)
    {body : BFILE.Memstate → TBody (BFILE.Memstate × α)} (P : α → Prop)
    (hbody : twp n (body ams.fms) (fun r _ => P r.2 ∧ IcacheOnly ams.fms r.1 ∧ BFILE.MsRep xp (ldisk st.newest) r.1)
      (ldisk st.newest)) :
    wp h (AFS.transactRo xp body ams) (fun r s' => Ready h xp n st r.1 s' ∧ P r.2) (MCrash h xp.fsxpLog n st.Pending) s := by
  have hi : st.cur = vmap0 := hr.inv.idle rfl
  refine wp_mono (fun r s' ⟨hlog, hP, ⟨ic, hic⟩, hm⟩ => ⟨⟨hlog, ?_, ?_⟩, hP⟩) (fun _ hc => hc) _
    (AFS.transactRo_spec (P := fun a fms => P a ∧ IcacheOnly ams.fms fms ∧ BFILE.MsRep xp (ldisk st.newest) fms) hl.log
      hr.log hi hbody)
  · exact BFILE.inv_idle hr.inv.data hi ⟨hr.good.brep, hm⟩
  · refine ⟨hr.allocs.table, hr.allocs.brep, ?_⟩
    rw [hic]
    exact hr.allocs.safe

theorem readFblock_spec (hl : FsLayout xp n) (hr : Ready h xp n st ams s) (hi : inum < xp.nInodes) {off : Nat}
    (hoff : off < (file xp (ldisk st.newest) inum).data.length) :
    wp h (AFS.readFblock xp inum off ams) (fun r s' => Ready h xp n st r.1 s' ∧
      (file xp (ldisk st.newest) inum).data[off]? = some r.2) (MCrash h xp.fsxpLog n st.Pending) s := by
  obtain ⟨extra, hb⟩ := hr.good.brep
  exact hr.ro hl ((file xp (ldisk st.newest) inum).data[off]? = some ·) (twp_mono (fun _ _ hread => hread.2) _
    (BFILE.read_spec hl.ok hb hr.good.msrep hi hoff))

theorem fileGetAttr_spec (hl : FsLayout xp n) (hr : Ready h xp n st ams s) (hi : inum < xp.nInodes) :
    wp h (AFS.fileGetAttr xp inum ams) (fun r s' => Ready h xp n st r.1 s' ∧ r.2 = (file xp (ldisk st.newest) inum).attr)
      (MCrash h xp.fsxpLog n st.Pending) s :=
  hr.ro hl (· = _) (twp_mono (fun _ _ hattr => hattr.2) _ (BFILE.getattrs_spec hl.ok hr.good.msrep hi))

/-! ## Reads -/

theorem length_bytes (xp : FsXparams) (d : LDisk) (inum : Nat) :
    (bytes xp d inum).length = (file xp d inum).data.length * valubytes := length_flatMap_of_length length_valu2list _

section Reads

variable (hl : FsLayout xp n) (hi : inum < xp.nInodes)
include hl hi

theorem readFromBlock_spec (hr : Ready h xp n st ams s) {blockOff byteOff k : Nat}
    (hoff : blockOff < (file xp (ldisk st.newest) inum).data.length) (hk : byteOff + k ≤ valubytes) :
    wp h (readFromBlock xp inum blockOff byteOff k ams) (fun r s' => Ready h xp n st r.1 s' ∧
      r.2 = getSublist (bytes xp (ldisk st.newest) inum) (blockOff * valubytes + byteOff) k)
      (MCrash h xp.fsxpLog n st.Pending) s :=
  wp_seq (readFblock_spec hl hr hi hoff) (fun _ hc => hc) fun _ _ ⟨hr', hv⟩ =>
    ⟨hr', getSublist_chunk length_valu2list hv hk⟩

theorem readMiddleBlocks_spec (hr : Ready h xp n st ams s) {blockOff k : Nat}
    (hoff : blockOff + k ≤ (file xp (ldisk st.newest) inum).data.length) :
    wp h (readMiddleBlocks xp inum blockOff k ams) (fun r s' => Ready h xp n st r.1 s' ∧
      r.2 = getSublist (bytes xp (ldisk st.newest) inum) (blockOff * valubytes) (k * valubytes))
      (MCrash h xp.fsxpLog n st.Pending) s := by
  have hloop : wp h (readMiddleBlocks xp inum blockOff k ams) (fun r s' => Ready h xp n st r.1 s' ∧
      r.2 = getSublist (bytes xp (ldisk st.newest) inum) (blockOff * valubytes) ((0 + k) * valubytes))
      (MCrash h xp.fsxpLog n st.Pending) s := by
    refine wp_forN (I := fun i (p : Memstate × List Byte) s' => Ready h xp n st p.1 s' ∧
      p.2 = getSublist (bytes xp (ldisk st.newest) inum) (blockOff * valubytes) (i * valubytes)) k 0
      ?_ ⟨hr, by simp [getSublist]⟩
    rintro i p s' _ hik ⟨hr', hp⟩
    refine wp_seq (readFromBlock_spec hl hi hr' (by omega) (Nat.le_of_eq (Nat.zero_add _))) (fun _ hc => hc) ?_
    rintro q s'' ⟨hr'', hq⟩
    refine ⟨hr'', ?_⟩
    show p.2 ++ q.2 = _
    rw [hp, hq, Nat.add_mul, Nat.add_zero, getSublist_append, Nat.succ_mul]
  rwa [Nat.zero_add] at hloop

theorem readLast_spec (hr : Ready h xp n st ams s) {blockOff k : Nat} (hk : k ≤ valubytes)
    (hoff : 0 < k → blockOff < (file xp (ldisk st.newest) inum).data.length) :
    wp h (readLast xp inum blockOff k ams) (fun r s' => Ready h xp n st r.1 s' ∧
      r.2 = getSublist (bytes xp (ldisk st.newest) inum) (blockOff * valubytes) k) (MCrash h xp.fsxpLog n st.Pending) s := by
  rw [readLast]
  split
  case isTrue hpos =>
    have hk' : 0 + k ≤ valubytes := by rwa [Nat.zero_add]
    have hread := readFromBlock_spec hl hi hr (hoff hpos) hk'
    rwa [Nat.add_zero] at hread
  case isFalse hpos =>
    obtain rfl : k = 0 := by omega
    exact ⟨hr, by simp [getSublist]⟩

theorem readMiddle_spec (hr : Ready h xp n st ams s) {blockOff k : Nat}
    (hk : blockOff * valubytes + k ≤ (bytes xp (ldisk st.newest) inum).length) :
    wp h (readMiddle xp inum blockOff k ams) (fun r s' => Ready h xp n st r.1 s' ∧
      r.2 = getSublist (bytes xp (ldisk st.newest) inum) (blockOff * valubytes) k) (MCrash h xp.fsxpLog n st.Pending) s := by
  rw [length_bytes] at hk
  have hmod : k % valubytes ≤ valubytes := Nat.le_of_lt (Nat.mod_lt _ (by decide))
  have hdiv : k / valubytes * valubytes + k % valubytes = k := by rw [Nat.mul_comm, Nat.div_add_mod]
  have hlast : 0 < k % valubytes → blockOff + k / valubytes < (file xp (ldisk st.newest) inum).data.length := fun hpos => by
    refine Nat.lt_of_mul_lt_mul_right (a := valubytes) ?_
    rw [Nat.add_mul]
    omega
  rw [readMiddle]
  split
  case isTrue hpos =>
    refine wp_seq (readMiddleBlocks_spec hl hi hr ?_) (fun _ hc => hc) fun ⟨ms1, dataMiddle⟩ s₁ ⟨hr₁, hmiddle⟩ => ?_
    · refine Nat.le_of_mul_le_mul_right (c := valubytes) ?_ (by decide)
      rw [Nat.add_mul]
      omega
    · simp only at hmiddle hr₁ ⊢
      split
      case isTrue hrest =>
        refine wp_seq (readLast_spec hl hi hr₁ hmod hlast) (fun _ hc => hc) fun ⟨ms2, dataLast⟩ s₂ ⟨hr₂, hdata⟩ => ⟨hr₂, ?_⟩
        simp only at hdata ⊢
        rw [hmiddle, hdata, Nat.add_mul, getSublist_append, hdiv]
      case isFalse hrest =>
        rw [Nat.eq_zero_of_not_pos hrest, Nat.add_zero] at hdiv
        exact ⟨hr₁, by rw [hmiddle, hdiv]⟩
  case isFalse hpos =>
    have hread := readLast_spec hl hi hr hmod hlast
    rw [Nat.eq_zero_of_not_pos hpos, Nat.zero_mul, Nat.zero_add] at hdiv
    rwa [Nat.eq_zero_of_not_pos hpos, Nat.add_zero, hdiv] at hread ⊢

theorem readFirst_spec (hr : Ready h xp n st ams s) {off k : Nat} (hpos : 0 < k)
    (hk : off + k ≤ (bytes xp (ldisk st.newest) inum).length) :
    wp h (readFirst xp inum (off / valubytes) (off % valubytes) k ams) (fun r s' => Ready h xp n st r.1 s' ∧
      r.2 = getSublist (bytes xp (ldisk st.newest) inum) off k) (MCrash h xp.fsxpLog n st.Pending) s := by
  have hlen := length_bytes xp (ldisk st.newest) inum
  have hmod : off % valubytes < valubytes := Nat.mod_lt _ (by decide)
  have hdiv : off / valubytes * valubytes + off % valubytes = off := by rw [Nat.mul_comm, Nat.div_add_mod]
  have hblock : off / valubytes < (file xp (ldisk st.newest) inum).data.length := by
    rw [Nat.div_lt_iff_lt_mul (by decide)]
    omega
  rw [readFirst]
  split
  case isTrue hlong =>
    have hnext : (off / valubytes + 1) * valubytes = off + (valubytes - off % valubytes) := by
      rw [Nat.succ_mul]
      omega
    refine wp_seq (readFromBlock_spec hl hi hr hblock (by omega)) (fun _ hc => hc) fun ⟨ms1, dataFirst⟩ s₁ ⟨hr₁, hfirst⟩ => ?_
    simp only at hfirst hr₁
    refine wp_seq (readMiddle_spec hl hi hr₁ (by omega)) (fun _ hc => hc) fun ⟨ms2, dataRem⟩ s₂ ⟨hr₂, hrem⟩ => ⟨hr₂, ?_⟩
    simp only at hrem ⊢
    rw [hfirst, hrem, hdiv, hnext, getSublist_append]
    congr 1
    omega
  case isFalse hshort =>
    have hread := readFromBlock_spec hl hi hr hblock (show off % valubytes + k ≤ valubytes by omega)
    rwa [hdiv] at hread

/-- A read inside the contents returns the bytes there. -/
theorem read_spec (hr : Ready h xp n st ams s) {off k : Nat}
    (hk : off + k ≤ (contents xp (ldisk st.newest) inum).length) :
    wp h (read xp inum off k ams) (fun r s' => Ready h xp n st r.1 s' ∧
      r.2 = getSublist (contents xp (ldisk st.newest) inum) off k) (MCrash h xp.fsxpLog n st.Pending) s := by
  rw [contents, List.length_take] at hk
  rw [contents, getSublist_take (by omega), read]
  split
  case isTrue hpos =>
    refine wp_seq (fileGetAttr_spec hl hr hi) (fun _ hc => hc) fun ⟨ms1, fattr⟩ s₁ ⟨hr₁, hattr⟩ => ?_
    simp only at hattr hr₁ ⊢
    have hsize : off < (ABytes fattr).toNat := by
      rw [hattr]
      have hle : off + k ≤ size xp (ldisk st.newest) inum := by omega
      exact Nat.lt_of_lt_of_le (by omega) hle
    rw [if_pos hsize]
    exact readFirst_spec hl hi hr₁ hpos (by omega)
  case isFalse hpos =>
    obtain rfl : k = 0 := by omega
    exact ⟨hr, by simp [getSublist]⟩

end Reads

/-! ## What a write does -/

/-- Every pending disk has the same size and the same blocks of a file: they survive a crash. -/
structure Durable (xp : FsXparams) (inum : Nat) (st : LogState) : Prop where
  size : ∀ d, st.Pending d → size xp (ldisk d) inum = size xp (ldisk st.newest) inum
  blks : ∀ d, st.Pending d → blks xp (ldisk d) inum = blks xp (ldisk st.newest) inum

/-- A file keeps its size and blocks, all others stay, and every byte stays or is the new one in its place. -/
structure BytesChanged (xp : FsXparams) (inum off : Nat) (data : List Byte) (d d' : LDisk) : Prop where
  other : ∀ i, i < xp.nInodes → i ≠ inum → file xp d' i = file xp d i
  attr : (file xp d' inum).attr = (file xp d inum).attr
  length : (file xp d' inum).data.length = (file xp d inum).data.length
  byte : ∀ i : Nat, (bytes xp d' inum)[i]? = (bytes xp d inum)[i]? ∨
    off ≤ i ∧ i < off + data.length ∧ (bytes xp d' inum)[i]? = data[i - off]?

namespace BytesChanged

variable {off : Nat} {data data' : List Byte} {d d₁ d' : LDisk}

theorem refl (xp : FsXparams) (inum off : Nat) (data : List Byte) (d : LDisk) : BytesChanged xp inum off data d d :=
  ⟨fun _ _ _ => rfl, rfl, rfl, fun _ => .inl rfl⟩

theorem append_right (hb : BytesChanged xp inum off data d d') (data' : List Byte) :
    BytesChanged xp inum off (data ++ data') d d' := by
  refine ⟨hb.other, hb.attr, hb.length, fun i => (hb.byte i).imp_right fun ⟨h₁, h₂, hi⟩ => ⟨h₁, ?_, ?_⟩⟩
  · rw [List.length_append]
    omega
  · rw [hi, List.getElem?_append_left (by omega)]

theorem trans (hb : BytesChanged xp inum off data d d₁) (hb' : BytesChanged xp inum (off + data.length) data' d₁ d') :
    BytesChanged xp inum off (data ++ data') d d' := by
  refine ⟨fun i hi hne => (hb'.other i hi hne).trans (hb.other i hi hne), hb'.attr.trans hb.attr,
    hb'.length.trans hb.length, fun i => ?_⟩
  rcases hb'.byte i with h | ⟨h₁, h₂, h⟩
  · rw [h]
    exact (hb.append_right data').byte i
  · refine .inr ⟨by omega, by rw [List.length_append]; omega, ?_⟩
    rw [h, List.getElem?_append_right (by omega)]
    exact congrArg (data'[·]?) (by omega)

end BytesChanged

/-- What may come back after a crash that falls back to `d'`: bytes of a crash before the write, or new ones. -/
def Leaves (xp : FsXparams) (inum off : Nat) (data : List Byte) (st : LogState) (d' : RawDisk Valu) : Prop :=
  Durable xp inum st → ∀ r', PossibleCrash d' r' →
    ∃ d r, st.Pending d ∧ PossibleCrash d r ∧ BytesChanged xp inum off data (ldisk r) (ldisk r')

/-- A range of the bytes of a file has been replaced. -/
structure Patched (xp : FsXparams) (inum off : Nat) (data : List Byte) (st st' : LogState) : Prop where
  other : ∀ i, i < xp.nInodes → i ≠ inum → file xp (ldisk st'.newest) i = file xp (ldisk st.newest) i
  attr : (file xp (ldisk st'.newest) inum).attr = (file xp (ldisk st.newest) inum).attr
  length : (file xp (ldisk st'.newest) inum).data.length = (file xp (ldisk st.newest) inum).data.length
  bytes : bytes xp (ldisk st'.newest) inum = patch (bytes xp (ldisk st.newest) inum) off data
  durable : Durable xp inum st → Durable xp inum st'
  leaves : ∀ d', st'.Pending d' → Leaves xp inum off data st d'

theorem leaves_pending {off : Nat} {data : List Byte} {d : RawDisk Valu} (hd : st.Pending d) : Leaves xp inum off data st d :=
  fun _ r hc => ⟨d, r, hd, hc, .refl _ _ _ _ _⟩

theorem Leaves.append_right {off : Nat} {data : List Byte} {d' : RawDisk Valu} (hl : Leaves xp inum off data st d')
    (data' : List Byte) : Leaves xp inum off (data ++ data') st d' := fun hs r' hc => by
  obtain ⟨d, r, hd, hr, hb⟩ := hl hs r' hc
  exact ⟨d, r, hd, hr, hb.append_right data'⟩

namespace Patched

variable {off : Nat} {data data' : List Byte} {st₁ : LogState}

theorem refl (xp : FsXparams) (inum off : Nat) (st : LogState) : Patched xp inum off [] st st :=
  ⟨fun _ _ _ => rfl, rfl, rfl, (patch_nil _ _).symm, id, fun _ hd => leaves_pending hd⟩

theorem leaves_after (hp : Patched xp inum off data st st₁) {d' : RawDisk Valu}
    (hl : Leaves xp inum (off + data.length) data' st₁ d') : Leaves xp inum off (data ++ data') st d' := fun hs r' hc => by
  obtain ⟨d₁, r₁, hd₁, hr₁, hb₁⟩ := hl (hp.durable hs) r' hc
  obtain ⟨d, r, hd, hr, hb⟩ := hp.leaves d₁ hd₁ hs r₁ hr₁
  exact ⟨d, r, hd, hr, hb.trans hb₁⟩

theorem trans (hp : Patched xp inum off data st st₁) (hp' : Patched xp inum (off + data.length) data' st₁ st')
    (hlen : off + (data ++ data').length ≤ (Bytefile.bytes xp (ldisk st.newest) inum).length) :
    Patched xp inum off (data ++ data') st st' where
  other i hi hne := (hp'.other i hi hne).trans (hp.other i hi hne)
  attr := hp'.attr.trans hp.attr
  length := hp'.length.trans hp.length
  bytes := by rw [hp'.bytes, hp.bytes, patch_patch hlen]
  durable hs := hp'.durable (hp.durable hs)
  leaves d' hd' := hp.leaves_after (hp'.leaves d' hd')

end Patched

/-! ## One block -/

/-- The block at an offset of a file has been written in all pending disks, and the log had nothing for it. -/
def Wrote (xp : FsXparams) (inum off : Nat) (v : Valu) (st st' : LogState) : Prop :=
  ∃ bn, (blks xp (ldisk st.newest) inum)[off]? = some bn ∧ st.newest bn ≠ none ∧ st'.newest = updVs st.newest bn v ∧
    ∀ d', st'.Pending d' → ∃ d, st.Pending d ∧ d bn = st.newest bn ∧ d' = updVs d bn v

/-- Blocks of a file have been written one after the other. -/
inductive Wrotes (xp : FsXparams) (inum : Nat) (st : LogState) : LogState → Prop
  | refl : Wrotes xp inum st st
  | snoc {st₁ st' : LogState} {off : Nat} {v : Valu} {mem : BFILE.Memstate} : Wrotes xp inum st st₁ →
      TwoAllocs xp ⟨st₁, mem, none⟩ → Wrote xp inum off v st₁ st' → Wrotes xp inum st st'

theorem Wrotes.trans {st₁ : LogState} (h₁ : Wrotes xp inum st st₁) (h₂ : Wrotes xp inum st₁ st') : Wrotes xp inum st st' := by
  induction h₂ with
  | refl => exact h₁
  | snoc _ ht hw ih => exact ih.snoc ht hw

theorem updateFblockD_eq (xp : FsXparams) (inum off : Nat) (v : Valu) (ams : Memstate) :
    AFS.updateFblockD xp inum off v ams = (do
      let ms ← LOG.begin xp.fsxpLog ams.msLL
      let ams' ← BFILE.dwrite xp inum off v ⟨ms, ams.fms⟩
      let ms ← LOG.commitRo xp.fsxpLog ams'.msLL
      pure ⟨ms, ams'.fms⟩) := by
  simp only [AFS.updateFblockD, BFILE.dwrite, Prog.bind_assoc]
  rfl

theorem updateFblockD_spec (hl : FsLayout xp n) (hr : Ready h xp n st ams s) (hi : inum < xp.nInodes) {off : Nat}
    (hoff : off < (file xp (ldisk st.newest) inum).data.length) (v : Valu) :
    wp h (AFS.updateFblockD xp inum off v ams) (fun ams' s' => ∃ st', Wrote xp inum off v st st' ∧ Ready h xp n st' ams' s')
      (MCrash h xp.fsxpLog n fun d => st.Pending d ∨ ∃ st', Wrote xp inum off v st st' ∧ st'.Pending d) s := by
  have hwrote : Wrote xp inum off v st (BFILE.step false xp ⟨st, ams.fms, none⟩ (.dwrite inum off v)).log := by
    obtain ⟨ic, bn, hbn, hlt, -, hstep⟩ := BFILE.step_dwrite false hl.ok hr.inv rfl hi hoff v
    rw [hstep]
    refine ⟨bn, hbn, hr.inv.newest_ne_none (hl.ok.data_lt hlt), BFILE.newest_dwrite _ _ _ _ _ _, fun d' hd' => ?_⟩
    exact @LogState.pending_dwrite_newest st xp.fsxpLog false bn v d' hd'
  have hinv : BFILE.Inv xp n (BFILE.step false xp ⟨st, ams.fms, none⟩ (.dwrite inum off v)) :=
    hr.inv.dwrite hl.ok rfl hi hoff v
  have hallocs : TwoAllocs xp (BFILE.step false xp ⟨st, ams.fms, none⟩ (.dwrite inum off v)) :=
    hr.allocs.dwrite hl.ok hr.inv rfl hi hoff v
  rw [updateFblockD_eq]
  refine LOG.wp_begin (wp_seq (BFILE.dwrite_spec hl false hr.inv rfl hi hoff v hr.log) (fun _ hc => hc.mono fun d hd =>
    hd.imp_right fun hp => ⟨_, hwrote, hp⟩) fun ams' s' ⟨st', hr', hst, hfms⟩ => ?_)
  refine ⟨_, hwrote, ?_, ?_, ?_⟩
  · rw [← hst]
    exact BFILE.lrep_commitRo hr'
  · rw [hfms]
    exact hinv
  · rw [hfms]
    exact hallocs

section Block

variable {off p bn : Nat} {old v : Valu} {data : List Byte} {d r' : RawDisk Valu} {e e' : LDisk} {extra : List Nat}

/-- Where a block of a file is the only change, its bytes are the only ones that change. -/
theorem bytes_of_onlyBlock (ho : OnlyBlock xp inum off e e') (hold : (file xp e inum).data[off]? = some old)
    (hv : (file xp e' inum).data[off]? = some v) (hp : p + data.length ≤ valubytes)
    (hpatch : valu2list v = patch (valu2list old) p data) :
    bytes xp e' inum = patch (bytes xp e inum) (off * valubytes + p) data := by
  have hdata : (file xp e' inum).data = (file xp e inum).data.set off v := by
    refine List.ext_getElem? fun o => ?_
    by_cases hoff : o = off
    · subst hoff
      rw [hv, List.getElem?_set_self (List.getElem?_eq_some_iff.1 hold).1]
    · rw [ho.data o hoff, List.getElem?_set_ne (Ne.symm hoff)]
  rw [bytes, hdata]
  exact flatMap_set length_valu2list hold hp hpatch

theorem bytesChanged_of_onlyBlock (ho : OnlyBlock xp inum off e e') (hold : (file xp e inum).data[off]? = some old)
    (hv : (file xp e' inum).data[off]? = some v) (hp : p + data.length ≤ valubytes)
    (hpatch : valu2list v = patch (valu2list old) p data) :
    BytesChanged xp inum (off * valubytes + p) data e e' := by
  refine ⟨ho.other, ho.attr, ho.length, fun i => ?_⟩
  have hlen : off * valubytes + p + data.length ≤ (bytes xp e inum).length := by
    have hoff := (List.getElem?_eq_some_iff.1 hold).1
    have hle : (off + 1) * valubytes ≤ (file xp e inum).data.length * valubytes := Nat.mul_le_mul_right _ hoff
    rw [Nat.succ_mul] at hle
    rw [length_bytes]
    omega
  rw [bytes_of_onlyBlock ho hold hv hp hpatch, getElem?_patch hlen]
  split
  case isTrue hi => exact .inr ⟨hi.1, hi.2, rfl⟩
  case isFalse hi => exact .inl rfl

/-- A crash after a direct write is one before it, or the new block has reached the disk. -/
theorem crash_updVs (hc : PossibleCrash (updVs d bn v) r') : PossibleCrash d r' ∨ ldisk r' bn = v := by
  rcases hc bn with ⟨hn, hr⟩ | ⟨vs, w, hvs, hr, hmem⟩
  · refine .inl fun a => ?_
    by_cases ha : a = bn
    · subst ha
      rw [updVs, Function.update_self, Option.map_eq_none_iff] at hn
      exact .inl ⟨hn, hr⟩
    · have hca := hc a
      rwa [updVs_of_ne ha] at hca
  · rw [updVs, Function.update_self] at hvs
    obtain ⟨us, hus, rfl⟩ := Option.map_eq_some_iff.1 hvs
    rcases List.mem_cons.1 hmem with rfl | hold
    · exact .inr (ldisk_apply hr)
    · refine .inl fun a => ?_
      by_cases ha : a = bn
      · subst ha
        exact .inr ⟨us, w, hus, hr, hold⟩
      · have hca := hc a
        rwa [updVs_of_ne ha] at hca

theorem file_block {xp : FsXparams} {off bn inum : Nat} {e : LDisk} (hbn : (blks xp e inum)[off]? = some bn) :
    (file xp e inum).data[off]? = some (e bn) := by rw [file, List.getElem?_map, hbn, Option.map_some]

end Block

/-- A block that was patched and written back patches the bytes of the file. -/
theorem Wrote.patched {off p : Nat} {old v : Valu} {data : List Byte} {mem : BFILE.Memstate} {saved : Option BFILE.Memstate}
    (hxp : xp.Ok n) (ht : TwoAllocs xp ⟨st, mem, saved⟩) (hi : inum < xp.nInodes) (hw : Wrote xp inum off v st st')
    (hold : (file xp (ldisk st.newest) inum).data[off]? = some old) (hp : p + data.length ≤ valubytes)
    (hpatch : valu2list v = patch (valu2list old) p data) : Patched xp inum (off * valubytes + p) data st st' := by
  obtain ⟨bn, hbn, hne, hnew, hpend⟩ := hw
  obtain rfl : ldisk st.newest bn = old := Option.some.inj ((file_block hbn).symm.trans hold)
  have honly : ∀ {d : RawDisk Valu} {extra : List Nat}, BRep xp (ldisk d) extra → (blks xp (ldisk d) inum)[off]? = some bn →
      DataOnly xp bn (ldisk d) (ldisk (updVs d bn v)) ∧ OnlyAt xp inum off bn (ldisk d) := fun hd hdbn =>
    ⟨BFILE.dataOnly_updVs hd hi (List.mem_of_getElem? hdbn) v, (Safe.refl xp true _).onlyAt hd hi hdbn⟩
  have htable : ∀ {d}, st.Pending d → ∀ a, xp.InTable a → (ldisk d).plain a := fun hd a ha => hd.plain (ht.table a ha)
  obtain ⟨extra, hb⟩ := ht.brep _ (LogState.pending_newest st)
  obtain ⟨hdata, hat⟩ := honly hb hbn
  have hnewest : OnlyBlock xp inum off (ldisk st.newest) (ldisk st'.newest) := by
    rw [hnew]
    exact hdata.onlyBlock hxp hi hat
  have hv : (file xp (ldisk st'.newest) inum).data[off]? = some v := by
    rw [hnew, file, (hdata.used_eq hxp hi).1, List.getElem?_map, hbn, Option.map_some, ldisk_updVs_self hne]
  refine ⟨hnewest.other, hnewest.attr, hnewest.length, bytes_of_onlyBlock hnewest hold hv hp hpatch, fun hs => ?_,
    fun d' hd' hs r' hc => ?_⟩
  · -- the write keeps what the pending disks have in common
    have hpatch' : ∀ d', st'.Pending d' → ∃ d, st.Pending d ∧ DataOnly xp bn (ldisk d) (ldisk d') ∧
        OnlyBlock xp inum off (ldisk d) (ldisk d') := fun d' hd' => by
      obtain ⟨d, hd, -, rfl⟩ := hpend d' hd'
      obtain ⟨extra', hbd⟩ := ht.brep d hd
      obtain ⟨hdata', hat'⟩ := honly hbd (by rwa [hs.blks d hd])
      exact ⟨d, hd, hdata', hdata'.onlyBlock hxp hi hat'⟩
    refine ⟨fun d' hd' => ?_, fun d' hd' => ?_⟩ <;> obtain ⟨d, hd, hdata', honly'⟩ := hpatch' d' hd'
    · have hsize := hs.size d hd
      rw [size, size] at hsize ⊢
      rw [honly'.attr, hnewest.attr, hsize]
    · rw [(hdata'.used_eq hxp hi).1, hs.blks d hd, hnew, (hdata.used_eq hxp hi).1]
  · obtain ⟨d, hd, heq, rfl⟩ := hpend d' hd'
    obtain ⟨extra', hbd⟩ := ht.brep d hd
    have hdbn : (blks xp (ldisk d) inum)[off]? = some bn := by rwa [hs.blks d hd]
    obtain ⟨hdata', hat'⟩ := honly hbd hdbn
    rcases crash_updVs hc with hcd | hval
    · exact ⟨d, r', hd, hcd, .refl _ _ _ _ _⟩
    · obtain ⟨r, hcr, hlatest, hor⟩ := crash_dwrite hxp (htable hd) hbd hi hdata'.lt hat' hc
      have hrbn : (blks xp (ldisk r) inum)[off]? = some bn := by rwa [(crash_used hcr (htable hd) hbd hi).1]
      have hrbn' : (blks xp (ldisk r') inum)[off]? = some bn := by
        rw [(crash_used hc (fun a ha => ?_) (hdata'.brep hxp hbd) hi).1, (hdata'.used_eq hxp hi).1]
        · exact hdbn
        · exact hdata'.mono a (fun he => hxp.not_inTable hdata'.lt (he ▸ ha)) (htable hd a ha)
      have hsame : ldisk d bn = ldisk st.newest bn := by simp only [ldisk, heq]
      refine ⟨d, r, hd, hcr, bytesChanged_of_onlyBlock hor (file_block hrbn) (file_block hrbn') hp ?_⟩
      rw [hval, hlatest, hsame, hpatch]

/-! ## Writes -/

/-- A write has patched a range, and the next call may begin. -/
def Done (h : HashKey → HashVal) (xp : FsXparams) (n inum off : Nat) (data : List Byte) (st : LogState) (ams' : Memstate)
    (s' : St Valu HashKey) : Prop := ∃ st', Patched xp inum off data st st' ∧ Ready h xp n st' ams' s'

/-- As `Done`, with the writes of blocks that it took. -/
def DoneBy (h : HashKey → HashVal) (xp : FsXparams) (n inum off : Nat) (data : List Byte) (st : LogState) (ams' : Memstate)
    (s' : St Valu HashKey) : Prop := ∃ st', Wrotes xp inum st st' ∧ Patched xp inum off data st st' ∧ Ready h xp n st' ams' s'

/-- As `Leaves`, with the writes of blocks until the crash. -/
def LeavesBy (xp : FsXparams) (inum off : Nat) (data : List Byte) (st : LogState) (d' : RawDisk Valu) : Prop :=
  Leaves xp inum off data st d' ∧ ∃ st', Wrotes xp inum st st' ∧ st'.Pending d'

section Writes

variable {off : Nat} {data data₁ data₂ : List Byte}

theorem leavesBy_pending {d : RawDisk Valu} (hd : st.Pending d) : LeavesBy xp inum off data st d :=
  ⟨leaves_pending hd, st, .refl, hd⟩

theorem LeavesBy.append_right {d' : RawDisk Valu} (hl : LeavesBy xp inum off data₁ st d') (data₂ : List Byte) :
    LeavesBy xp inum off (data₁ ++ data₂) st d' := ⟨hl.1.append_right data₂, hl.2⟩

theorem LeavesBy.after {st₁ : LogState} {d' : RawDisk Valu} (hw : Wrotes xp inum st st₁) (hp : Patched xp inum off data₁ st st₁)
    (hl : LeavesBy xp inum (off + data₁.length) data₂ st₁ d') : LeavesBy xp inum off (data₁ ++ data₂) st d' := by
  obtain ⟨hleaves, st', hw', hd⟩ := hl
  exact ⟨hp.leaves_after hleaves, st', hw.trans hw', hd⟩

/-- Two writes, the second behind the first. -/
theorem wp_patch_seq (hdata : data₁ ++ data₂ = data) {p : FProg Memstate} {f : Memstate → FProg Memstate}
    (hlen : off + data.length ≤ (bytes xp (ldisk st.newest) inum).length)
    (hp : wp h p (DoneBy h xp n inum off data₁ st) (MCrash h xp.fsxpLog n (LeavesBy xp inum off data₁ st)) s)
    (hf : ∀ st₁ ams₁ s₁, Patched xp inum off data₁ st st₁ → Ready h xp n st₁ ams₁ s₁ →
      wp h (f ams₁) (DoneBy h xp n inum (off + data₁.length) data₂ st₁)
        (MCrash h xp.fsxpLog n (LeavesBy xp inum (off + data₁.length) data₂ st₁)) s₁) :
    wp h (p >>= f) (DoneBy h xp n inum off data st) (MCrash h xp.fsxpLog n (LeavesBy xp inum off data st)) s := by
  subst hdata
  refine wp_seq hp (fun _ hc => hc.mono fun _ hd => hd.append_right data₂) ?_
  rintro ams₁ s₁ ⟨st₁, hw₁, hp₁, hr₁⟩
  refine wp_mono ?_ (fun _ hc => hc.mono fun _ hd => hd.after hw₁ hp₁) _ (hf st₁ ams₁ s₁ hp₁ hr₁)
  rintro ams' s' ⟨st', hw', hp', hr'⟩
  exact ⟨st', hw₁.trans hw', hp₁.trans hp' hlen, hr'⟩

variable (hl : FsLayout xp n) (hi : inum < xp.nInodes)
include hl hi

theorem dwriteToBlock_spec (hr : Ready h xp n st ams s) {blockOff byteOff : Nat}
    (hoff : blockOff < (file xp (ldisk st.newest) inum).data.length) (hp : byteOff + data.length ≤ valubytes)
    (ho : blockOff * valubytes + byteOff = off) :
    wp h (dwriteToBlock xp inum blockOff byteOff data ams) (DoneBy h xp n inum off data st)
      (MCrash h xp.fsxpLog n (LeavesBy xp inum off data st)) s := by
  subst ho
  refine wp_seq (readFblock_spec hl hr hi hoff) (fun _ hc => hc.mono fun _ hd => leavesBy_pending hd)
    fun ⟨ms1, block⟩ s₁ ⟨hr₁, hblock⟩ => ?_
  simp only at hr₁ hblock ⊢
  have hlen : (patch (valu2list block) byteOff data).length = valubytes := by
    rw [length_patch (by rwa [length_valu2list]), length_valu2list]
  have hpatched : ∀ st', Wrote xp inum blockOff (list2valu (patch (valu2list block) byteOff data)) st st' →
      Patched xp inum (blockOff * valubytes + byteOff) data st st' := fun st' hw =>
    hw.patched hl.ok hr.allocs hi hblock hp (valu2list_list2valu hlen)
  refine wp_mono ?_ (fun _ hc => hc.mono fun d hd => ?_) _ (updateFblockD_spec hl hr₁ hi hoff _)
  · rintro ams' s' ⟨st', hw, hr'⟩
    exact ⟨st', .snoc .refl hr₁.allocs hw, hpatched st' hw, hr'⟩
  · rcases hd with hd | ⟨st', hw, hd⟩
    · exact leavesBy_pending hd
    · exact ⟨(hpatched st' hw).leaves d hd, st', .snoc .refl hr₁.allocs hw, hd⟩

theorem dwriteMiddleBlocks_spec (hr : Ready h xp n st ams s) {blockOff k : Nat} (hdata : data.length = k * valubytes)
    (hoff : blockOff + k ≤ (file xp (ldisk st.newest) inum).data.length) :
    wp h (dwriteMiddleBlocks xp inum blockOff k data ams) (DoneBy h xp n inum (blockOff * valubytes) data st)
      (MCrash h xp.fsxpLog n (LeavesBy xp inum (blockOff * valubytes) data st)) s := by
  have hlen : blockOff * valubytes + data.length ≤ (bytes xp (ldisk st.newest) inum).length := by
    rw [hdata, length_bytes, ← Nat.add_mul]
    exact Nat.mul_le_mul_right _ hoff
  have hloop : wp h (dwriteMiddleBlocks xp inum blockOff k data ams)
      (DoneBy h xp n inum (blockOff * valubytes) (data.take ((0 + k) * valubytes)) st)
      (MCrash h xp.fsxpLog n (LeavesBy xp inum (blockOff * valubytes) data st)) s := by
    refine wp_forN (I := fun i => DoneBy h xp n inum (blockOff * valubytes) (data.take (i * valubytes)) st) k 0
      ?_ ?_
    · rintro i ams₁ s₁ _ hik ⟨st₁, hw₁, hp₁, hr₁⟩
      have hle : (i + 1) * valubytes ≤ data.length := by
        rw [hdata]
        exact Nat.mul_le_mul_right _ (by omega)
      have htake : (data.take (i * valubytes)).length = i * valubytes := by
        rw [Nat.succ_mul] at hle
        exact List.length_take_of_le (by omega)
      have hchunk : data.take ((i + 1) * valubytes) =
          data.take (i * valubytes) ++ getSublist data (i * valubytes) valubytes := by
        rw [Nat.succ_mul, List.take_add, getSublist]
      have hsize : (getSublist data (i * valubytes) valubytes).length = valubytes := by
        rw [Nat.succ_mul] at hle
        exact length_getSublist hle
      have hoffset : (blockOff + i) * valubytes + 0 = blockOff * valubytes + (data.take (i * valubytes)).length := by
        rw [htake, Nat.add_mul, Nat.add_zero]
      refine wp_mono ?_ (fun _ hc => hc.mono fun d hd => ?_) _
        (dwriteToBlock_spec hl hi hr₁ (by rw [hp₁.length]; omega) (Nat.le_of_eq (by rw [Nat.zero_add, hsize]))
          hoffset)
      · rintro ams' s' ⟨st', hw', hp', hr'⟩
        refine ⟨st', hw₁.trans hw', ?_, hr'⟩
        rw [hchunk]
        refine hp₁.trans hp' ?_
        rw [← hchunk, List.length_take]
        omega
      · have hleaves := (hd.after hw₁ hp₁).append_right (data.drop ((i + 1) * valubytes))
        rwa [← hchunk, List.take_append_drop] at hleaves
    · rw [Nat.zero_mul, List.take_zero]
      exact ⟨st, .refl, .refl _ _ _ _, hr⟩
  rwa [Nat.zero_add, ← hdata, List.take_length] at hloop

theorem dwriteLast_spec (hr : Ready h xp n st ams s) {blockOff : Nat} (hdata : data.length ≤ valubytes)
    (hoff : 0 < data.length → blockOff < (file xp (ldisk st.newest) inum).data.length) (ho : blockOff * valubytes = off) :
    wp h (dwriteLast xp inum blockOff data ams) (DoneBy h xp n inum off data st)
      (MCrash h xp.fsxpLog n (LeavesBy xp inum off data st)) s := by
  rw [dwriteLast]
  split
  case isTrue hpos =>
    exact dwriteToBlock_spec hl hi hr (hoff hpos) (by rwa [Nat.zero_add]) (by rw [Nat.add_zero, ho])
  case isFalse hpos =>
    obtain rfl : data = [] := List.length_eq_zero_iff.1 (by omega)
    exact ⟨st, .refl, .refl _ _ _ _, hr⟩

theorem dwriteMiddle_spec (hr : Ready h xp n st ams s) {blockOff : Nat} (ho : blockOff * valubytes = off)
    (hdata : off + data.length ≤ (bytes xp (ldisk st.newest) inum).length) :
    wp h (dwriteMiddle xp inum blockOff data ams) (DoneBy h xp n inum off data st)
      (MCrash h xp.fsxpLog n (LeavesBy xp inum off data st)) s := by
  have hlen := length_bytes xp (ldisk st.newest) inum
  have hmod : data.length % valubytes < valubytes := Nat.mod_lt _ (by decide)
  have hdiv : data.length / valubytes * valubytes + data.length % valubytes = data.length := by
    rw [Nat.mul_comm, Nat.div_add_mod]
  have hblocks : ∀ k, k * valubytes ≤ data.length →
      blockOff + k ≤ (file xp (ldisk st.newest) inum).data.length := fun k hk => by
    refine Nat.le_of_mul_le_mul_right (c := valubytes) ?_ (by decide)
    rw [Nat.add_mul]
    omega
  have htake : (data.take (data.length / valubytes * valubytes)).length = data.length / valubytes * valubytes :=
    List.length_take_of_le (by omega)
  rw [dwriteMiddle]
  split
  case isTrue hpos =>
    refine wp_patch_seq (List.take_append_drop (data.length / valubytes * valubytes) data) hdata ?_
      fun st₁ ams₁ s₁ hp₁ hr₁ => ?_
    · rw [← ho]
      exact dwriteMiddleBlocks_spec hl hi hr htake (hblocks _ (by omega))
    · have hoffset : (blockOff + data.length / valubytes) * valubytes =
          off + (data.take (data.length / valubytes * valubytes)).length := by rw [htake, Nat.add_mul, ho]
      have hdrop : (data.drop (data.length / valubytes * valubytes)).length = data.length % valubytes := by
        rw [List.length_drop]
        omega
      have hin : 0 < (data.drop (data.length / valubytes * valubytes)).length →
          blockOff + data.length / valubytes < (file xp (ldisk st₁.newest) inum).data.length := fun hpos' => by
        rw [hp₁.length]
        refine Nat.lt_of_mul_lt_mul_right (a := valubytes) ?_
        rw [hoffset, htake]
        omega
      have hlast := dwriteLast_spec hl hi hr₁ (Nat.le_of_lt (hdrop ▸ hmod)) hin hoffset
      simp only
      split
      case isTrue hrest => exact hlast
      case isFalse hrest => rwa [dwriteLast, if_neg hrest] at hlast
  case isFalse hpos =>
    rw [Nat.eq_zero_of_not_pos hpos, Nat.zero_mul, Nat.zero_add] at hdiv
    refine dwriteLast_spec hl hi hr (by omega) (fun hpos' => ?_) ho
    refine Nat.lt_of_mul_lt_mul_right (a := valubytes) ?_
    omega

theorem dwriteFirst_spec (hr : Ready h xp n st ams s) (hpos : 0 < data.length)
    (hdata : off + data.length ≤ (bytes xp (ldisk st.newest) inum).length) :
    wp h (dwriteFirst xp inum (off / valubytes) (off % valubytes) data ams) (DoneBy h xp n inum off data st)
      (MCrash h xp.fsxpLog n (LeavesBy xp inum off data st)) s := by
  have hlen := length_bytes xp (ldisk st.newest) inum
  have hmod : off % valubytes < valubytes := Nat.mod_lt _ (by decide)
  have hdiv : off / valubytes * valubytes + off % valubytes = off := by rw [Nat.mul_comm, Nat.div_add_mod]
  have hblock : off / valubytes < (file xp (ldisk st.newest) inum).data.length := by
    rw [Nat.div_lt_iff_lt_mul (by decide)]
    omega
  rw [dwriteFirst]
  split
  case isTrue hshort => exact dwriteToBlock_spec hl hi hr hblock (by omega) hdiv
  case isFalse hlong =>
    have htake : (data.take (valubytes - off % valubytes)).length = valubytes - off % valubytes :=
      List.length_take_of_le (by omega)
    refine wp_patch_seq (List.take_append_drop (valubytes - off % valubytes) data) hdata ?_
      fun st₁ ams₁ s₁ hp₁ hr₁ => ?_
    · exact dwriteToBlock_spec hl hi hr hblock (by omega) hdiv
    · refine dwriteMiddle_spec hl hi hr₁ ?_ ?_
      · rw [htake, Nat.succ_mul]
        omega
      · rw [htake, length_bytes, hp₁.length, List.length_drop]
        omega

/-- A write inside the blocks of a file patches its bytes, block by block. -/
theorem dwrite_wrotes (hr : Ready h xp n st ams s) (hdata : off + data.length ≤ (bytes xp (ldisk st.newest) inum).length) :
    wp h (dwrite xp inum off data ams) (DoneBy h xp n inum off data st)
      (MCrash h xp.fsxpLog n (LeavesBy xp inum off data st)) s := by
  rw [dwrite]
  split
  case isTrue hpos => exact dwriteFirst_spec hl hi hr hpos hdata
  case isFalse hpos =>
    obtain rfl : data = [] := List.length_eq_zero_iff.1 (by omega)
    exact ⟨st, .refl, .refl _ _ _ _, hr⟩

/-- A write inside the blocks of a file patches its bytes. -/
theorem dwrite_spec (hr : Ready h xp n st ams s) (hdata : off + data.length ≤ (bytes xp (ldisk st.newest) inum).length) :
    wp h (dwrite xp inum off data ams) (Done h xp n inum off data st)
      (MCrash h xp.fsxpLog n (Leaves xp inum off data st)) s := by
  refine wp_mono ?_ (fun _ hc => hc.mono fun _ hd => hd.1) _ (dwrite_wrotes hl hi hr hdata)
  rintro ams' s' ⟨st', -, hp, hr'⟩
  exact ⟨st', hp, hr'⟩

end Writes

/-! ## Bytes of a file and a byte list -/

/-- A file with a range of its contents replaced; all else is as before. -/
structure Replaced (xp : FsXparams) (inum off : Nat) (data : List Byte) (d d' : LDisk) : Prop where
  contents : contents xp d' inum = patch (contents xp d inum) off data
  attr : (file xp d' inum).attr = (file xp d inum).attr
  past : (bytes xp d' inum).drop (size xp d inum) = (bytes xp d inum).drop (size xp d inum)
  other : ∀ i, i < xp.nInodes → i ≠ inum → file xp d' i = file xp d i

theorem Patched.replaced {off : Nat} {data : List Byte} (hp : Patched xp inum off data st st')
    (hlen : off + data.length ≤ (contents xp (ldisk st.newest) inum).length) :
    Replaced xp inum off data (ldisk st.newest) (ldisk st'.newest) := by
  rw [contents, List.length_take] at hlen
  refine ⟨?_, hp.attr, ?_, hp.other⟩
  · rw [contents, contents, size, hp.attr, hp.bytes]
    exact take_patch (by omega) (by rw [size] at hlen; omega)
  · rw [hp.bytes, drop_patch (by omega) (by omega)]

/-- A crash leaves the size and the blocks of a file in place. -/
theorem size_of_crash {d r : RawDisk Valu} (hc : PossibleCrash d r) (htable : ∀ a, xp.InTable a → (ldisk d).plain a)
    (hi : inum < xp.nInodes) : size xp (ldisk r) inum = size xp (ldisk d) inum := by
  rw [size, size, file, file, INODE.attrs, INODE.attrs, irec_congr (fun a ha => crash_plain hc (htable a ha)) hi]

/-- What recovery may expose of a file after a crash in the middle of a write. -/
structure WriteCrash (xp : FsXparams) (inum off : Nat) (data : List Byte) (st : LogState) (r' : RawDisk Valu) : Prop where
  size : size xp (ldisk r') inum = size xp (ldisk st.newest) inum
  length : (bytes xp (ldisk r') inum).length = (bytes xp (ldisk st.newest) inum).length
  before : ∃ d r, st.Pending d ∧ PossibleCrash d r ∧ BytesChanged xp inum off data (ldisk r) (ldisk r')

theorem Leaves.writeCrash {off : Nat} {data : List Byte} {d' r' : RawDisk Valu} {mem : BFILE.Memstate}
    {saved : Option BFILE.Memstate} (hleaves : Leaves xp inum off data st d') (ht : TwoAllocs xp ⟨st, mem, saved⟩)
    (hd : Durable xp inum st) (hi : inum < xp.nInodes) (hc : PossibleCrash d' r') : WriteCrash xp inum off data st r' := by
  obtain ⟨d, r, hpend, hcr, hb⟩ := hleaves hd r' hc
  have htable : ∀ a, xp.InTable a → (ldisk d).plain a := fun a ha => hpend.plain (ht.table a ha)
  obtain ⟨extra, hbrep⟩ := ht.brep d hpend
  refine ⟨?_, ?_, d, r, hpend, hcr, hb⟩
  · rw [← hd.size d hpend, ← size_of_crash hcr htable hi, size, size, hb.attr]
  · rw [length_bytes, length_bytes, hb.length, BFILE.length_file_data, BFILE.length_file_data,
      (crash_used hcr htable hbrep hi).1, hd.blks d hpend]

/-- Reads return ranges of the contents, and writes replace them. A write that a crash interrupts leaves the size, the other
files and the bytes outside its range as a crash before it could have left them, and the bytes in its range are so or new. -/
theorem byte_access_agrees (hl : FsLayout xp n) {cachesize : Nat} (hn : cachesize ≠ 0) (hr : Ready h xp n st ams s)
    (hi : inum < xp.nInodes) :
    (∀ off len, off + len ≤ (contents xp (ldisk st.newest) inum).length →
      wp h (read xp inum off len ams) (fun r s' => Ready h xp n st r.1 s' ∧
        r.2 = getSublist (contents xp (ldisk st.newest) inum) off len) (fun _ => True) s) ∧
    ∀ off data, off + data.length ≤ (contents xp (ldisk st.newest) inum).length →
      wp h (dwrite xp inum off data ams)
        (fun ams' s' => ∃ st', Ready h xp n st' ams' s' ∧ Replaced xp inum off data (ldisk st.newest) (ldisk st'.newest))
        (fun s' => Durable xp inum st →
          LOG.CrashExposes h xp.fsxpLog n cachesize (WriteCrash xp inum off data st) s') s := by
  refine ⟨fun off len hlen => wp_mono (fun _ _ hread => hread) (fun _ _ => trivial) _ (read_spec hl hi hr hlen),
    fun off data hlen => ?_⟩
  have hle : off + data.length ≤ (bytes xp (ldisk st.newest) inum).length := by
    rw [contents, List.length_take] at hlen
    omega
  refine wp_mono (fun ams' s' ⟨st', hp, hr'⟩ => ⟨st', hr', hp.replaced hlen⟩) (fun s' hc hd => ?_) _
    (dwrite_spec hl hi hr hle)
  exact LOG.mcrash_exposes hl.log hn hc fun d' r' hleaves hcr _ => hleaves.writeCrash hr.allocs hd hi hcr

/-! ### A file of two blocks -/

theorem exists_twoBlocks (h : HashKey → HashVal) : ∃ st ams s i, Ready h AFS.smallFs (AFS.diskSize 1 1) st ams s ∧
    i < AFS.smallFs.nInodes ∧ file AFS.smallFs (ldisk st.newest) i = AFS.twoBlocks ∧ Durable AFS.smallFs i st := by
  obtain ⟨st, ams, s, i, hm, hbase, htxns⟩ := AFS.mounted_twoBlocks h
  obtain ⟨hst, hr⟩ := BFILE.started_mounted hm hbase htxns
  obtain ⟨hi, hfile⟩ := DIRTREE.file_eq (p := [[97]]) hm.tree rfl
  -- the image is the only disk that a crash may leave
  have hpending : ∀ d, st.Pending d → d = st.newest := by
    rintro d ⟨ts, hsuf, rfl⟩
    rw [htxns, List.suffix_nil] at hsuf
    rw [hsuf, LogState.newest, htxns]
  refine ⟨st, ams, s, i, Ready.of_runs hr hst.inv hst.twoAllocs rfl, hi, hfile, fun d hd => ?_, fun d hd => ?_⟩
  · rw [hpending d hd]
  · rw [hpending d hd]

/-- 200 bytes across the end of the first block are read and written. -/
theorem byte_access_agrees_small : ∃ st ams s i, Ready PaddedLog.smallHash AFS.smallFs (AFS.diskSize 1 1) st ams s ∧
    (contents AFS.smallFs (ldisk st.newest) i).length = 5000 ∧ Durable AFS.smallFs i st ∧
    wp PaddedLog.smallHash (read AFS.smallFs i 4000 200 ams)
      (fun r s' => Ready PaddedLog.smallHash AFS.smallFs (AFS.diskSize 1 1) st r.1 s' ∧
        r.2 = getSublist (contents AFS.smallFs (ldisk st.newest) i) 4000 200) (fun _ => True) s ∧
    ∀ data, data.length = 200 → wp PaddedLog.smallHash (dwrite AFS.smallFs i 4000 data ams)
      (fun ams' s' => ∃ st', Ready PaddedLog.smallHash AFS.smallFs (AFS.diskSize 1 1) st' ams' s' ∧
        Replaced AFS.smallFs i 4000 data (ldisk st.newest) (ldisk st'.newest))
      (LOG.CrashExposes PaddedLog.smallHash AFS.smallFs.fsxpLog (AFS.diskSize 1 1) 10
        (WriteCrash AFS.smallFs i 4000 data st)) s := by
  obtain ⟨st, ams, s, i, hready, hi, hfile, hdurable⟩ := exists_twoBlocks PaddedLog.smallHash
  have hten : 10 ≠ 0 := by decide
  have hlen : (contents AFS.smallFs (ldisk st.newest) i).length = 5000 := by
    rw [contents, List.length_take, length_bytes, size, hfile]
    decide
  obtain ⟨hread, hwrite⟩ := byte_access_agrees AFS.fsLayout_small hten hready hi
  refine ⟨st, ams, s, i, hready, hlen, hdurable, hread 4000 200 (by omega), fun data hdata => ?_⟩
  exact wp_mono (fun _ _ hw => hw) (fun _ hc => hc hdurable) _ (hwrite 4000 data (by omega))

end Bytefile

end Fscq
