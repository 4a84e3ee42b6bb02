import Fscq.Afs.ByteFile

/-!
# Byte access through the calls on blocks

`read` and `dwrite` reach a file only through the calls that read and write one of its blocks. So what they do follows from
what these calls do to the blocks, whatever else is said about the states that have these blocks (`Blocks`), and whatever a
crash leaves: a read returns a range of the bytes of the blocks, and a write replaces one.
-/

namespace Fscq

open TxnLogic CrashLogic

namespace Bytefile

open AFS (Memstate)
open INODE (ABytes)

/-- The bytes of some blocks. -/
def bytesOf (data : List Valu) : List Byte := data.flatMap valu2list

theorem length_bytesOf (data : List Valu) : (bytesOf data).length = data.length * valubytes :=
  length_flatMap_of_length length_valu2list data

/-- The states in which a file has some blocks and a size, with what the calls on blocks do there. -/
structure Blocks (h : HashKey → HashVal) (xp : FsXparams) (inum size : Nat) (C : St Valu HashKey → Prop) where
  holds : List Valu → Memstate → St Valu HashKey → Prop
  attr : ∀ {data ams s}, holds data ams s →
    wp h (AFS.fileGetAttr xp inum ams) (fun r s' => (ABytes r.2).toNat = size ∧ holds data r.1 s') C s
  get : ∀ {data ams s} {off : Nat} {v : Valu}, holds data ams s → data[off]? = some v →
    wp h (AFS.readFblock xp inum off ams) (fun r s' => r.2 = v ∧ holds data r.1 s') C s

/-- The blocks may be written, too. -/
structure Blocks.Writable {h : HashKey → HashVal} {xp : FsXparams} {inum size : Nat} {C : St Valu HashKey → Prop}
    (B : Blocks h xp inum size C) : Prop where
  put : ∀ {data ams s} {off : Nat}, B.holds data ams s → off < data.length → ∀ v,
    wp h (AFS.updateFblockD xp inum off v ams) (B.holds (data.set off v)) C s

variable {h : HashKey → HashVal} {xp : FsXparams} {inum size : Nat} {C : St Valu HashKey → Prop} {ams : Memstate}
  {s : St Valu HashKey} {blocks : List Valu} (B : Blocks h xp inum size C)

/-! ## Reads -/

namespace Blocks

section Reads

variable (hb : B.holds blocks ams s)
include hb

theorem readFromBlock {blockOff byteOff k : Nat} (hoff : blockOff < blocks.length) (hk : byteOff + k ≤ valubytes) :
    wp h (readFromBlock xp inum blockOff byteOff k ams)
      (fun r s' => r.2 = getSublist (bytesOf blocks) (blockOff * valubytes + byteOff) k ∧ B.holds blocks r.1 s') C s := by
  have hget := List.getElem?_eq_getElem hoff
  refine wp_seq (B.get hb hget) (fun _ hc => hc) ?_
  rintro ⟨ams', v⟩ s' ⟨rfl, hb'⟩
  exact ⟨getSublist_chunk length_valu2list hget hk, hb'⟩

theorem readMiddleBlocks {blockOff k : Nat} (hoff : blockOff + k ≤ blocks.length) :
    wp h (readMiddleBlocks xp inum blockOff k ams)
      (fun r s' => r.2 = getSublist (bytesOf blocks) (blockOff * valubytes) (k * valubytes) ∧ B.holds blocks r.1 s') C s := by
  have hloop : wp h (Bytefile.readMiddleBlocks xp inum blockOff k ams) (fun r s' =>
      r.2 = getSublist (bytesOf blocks) (blockOff * valubytes) ((0 + k) * valubytes) ∧ B.holds blocks r.1 s') C s := by
    refine wp_forN (I := fun i (r : Memstate × List Byte) s' =>
      r.2 = getSublist (bytesOf blocks) (blockOff * valubytes) (i * valubytes) ∧ B.holds blocks r.1 s') k 0 ?_
      ⟨by simp [getSublist], hb⟩
    rintro i ⟨ams₁, l⟩ s₁ _ hik ⟨rfl, hb₁⟩
    refine wp_seq (B.readFromBlock hb₁ (by omega) (Nat.le_of_eq (Nat.zero_add _))) (fun _ hc => hc) ?_
    rintro ⟨ams₂, l'⟩ s₂ ⟨rfl, hb₂⟩
    refine ⟨?_, hb₂⟩
    simp only
    rw [Nat.add_mul, Nat.add_zero, getSublist_append, Nat.succ_mul]
  rwa [Nat.zero_add] at hloop

theorem readLast {blockOff k : Nat} (hk : k ≤ valubytes) (hoff : 0 < k → blockOff < blocks.length) :
    wp h (readLast xp inum blockOff k ams)
      (fun r s' => r.2 = getSublist (bytesOf blocks) (blockOff * valubytes) k ∧ B.holds blocks r.1 s') C s := by
  rw [Bytefile.readLast]
  split
  case isTrue hpos =>
    have hk' : 0 + k ≤ valubytes := by rwa [Nat.zero_add]
    have hread := B.readFromBlock hb (hoff hpos) hk'
    rwa [Nat.add_zero] at hread
  case isFalse hpos =>
    obtain rfl : k = 0 := by omega
    exact ⟨by simp [getSublist], hb⟩

theorem readMiddle {blockOff k : Nat} (hk : blockOff * valubytes + k ≤ (bytesOf blocks).length) :
    wp h (readMiddle xp inum blockOff k ams)
      (fun r s' => r.2 = getSublist (bytesOf blocks) (blockOff * valubytes) k ∧ B.holds blocks r.1 s') C s := by
  rw [length_bytesOf] at hk
  have hmod : k % valubytes ≤ valubytes := Nat.le_of_lt (Nat.mod_lt _ (by decide))
  have hdiv : k / valubytes * valubytes + k % valubytes = k := by rw [Nat.mul_comm, Nat.div_add_mod]
  have hlast : 0 < k % valubytes → blockOff + k / valubytes < blocks.length := by
    intro hpos
    refine Nat.lt_of_mul_lt_mul_right (a := valubytes) ?_
    rw [Nat.add_mul]
    omega
  rw [Bytefile.readMiddle]
  split
  case isTrue hpos =>
    have hfull : blockOff + k / valubytes ≤ blocks.length := by
      refine Nat.le_of_mul_le_mul_right (c := valubytes) ?_ (by decide)
      rw [Nat.add_mul]
      omega
    refine wp_seq (B.readMiddleBlocks hb hfull) (fun _ hc => hc) ?_
    rintro ⟨ams₁, dataMiddle⟩ s₁ ⟨rfl, hb₁⟩
    simp only
    split
    case isTrue hrest =>
      refine wp_seq (B.readLast hb₁ hmod hlast) (fun _ hc => hc) ?_
      rintro ⟨ams₂, dataLast⟩ s₂ ⟨rfl, hb₂⟩
      refine ⟨?_, hb₂⟩
      simp only
      rw [Nat.add_mul, getSublist_append, hdiv]
    case isFalse hrest =>
      rw [Nat.eq_zero_of_not_pos hrest, Nat.add_zero] at hdiv
      exact ⟨by rw [hdiv], hb₁⟩
  case isFalse hpos =>
    have hread := B.readLast hb hmod hlast
    rw [Nat.eq_zero_of_not_pos hpos, Nat.zero_mul, Nat.zero_add] at hdiv
    rwa [Nat.eq_zero_of_not_pos hpos, Nat.add_zero, hdiv] at hread ⊢

theorem readFirst {off k : Nat} (hpos : 0 < k) (hk : off + k ≤ (bytesOf blocks).length) :
    wp h (readFirst xp inum (off / valubytes) (off % valubytes) k ams)
      (fun r s' => r.2 = getSublist (bytesOf blocks) off k ∧ B.holds blocks r.1 s') C s := by
  have hlen := length_bytesOf blocks
  have hmod : off % valubytes < valubytes := Nat.mod_lt _ (by decide)
  have hdiv : off / valubytes * valubytes + off % valubytes = off := by rw [Nat.mul_comm, Nat.div_add_mod]
  have hblock : off / valubytes < blocks.length := by
    rw [Nat.div_lt_iff_lt_mul (by decide)]
    omega
  rw [Bytefile.readFirst]
  split
  case isTrue hlong =>
    have hnext : (off / valubytes + 1) * valubytes = off + (valubytes - off % valubytes) := by
      rw [Nat.succ_mul]
      omega
    refine wp_seq (B.readFromBlock hb hblock (by omega)) (fun _ hc => hc) ?_
    rintro ⟨ams₁, dataFirst⟩ s₁ ⟨rfl, hb₁⟩
    refine wp_seq (B.readMiddle hb₁ (by omega)) (fun _ hc => hc) ?_
    rintro ⟨ams₂, dataRem⟩ s₂ ⟨rfl, hb₂⟩
    refine ⟨?_, hb₂⟩
    simp only
    rw [hdiv, hnext, getSublist_append]
    congr 1
    omega
  case isFalse hshort =>
    have hread := B.readFromBlock hb hblock (show off % valubytes + k ≤ valubytes by omega)
    rwa [hdiv] at hread

/-- A read below the size returns the bytes there. -/
theorem read (off k : Nat) (hsize : off + k ≤ size) (hk : off + k ≤ (bytesOf blocks).length) :
    wp h (read xp inum off k ams) (fun r s' => r.2 = getSublist (bytesOf blocks) off k ∧ B.holds blocks r.1 s') C s := by
  rw [Bytefile.read]
  split
  case isTrue hpos =>
    refine wp_seq (B.attr hb) (fun _ hc => hc) ?_
    rintro ⟨ams₁, fattr⟩ s₁ ⟨hattr, hb₁⟩
    simp only at hattr hb₁ ⊢
    rw [if_pos (by omega)]
    exact B.readFirst hb₁ hpos hk
  case isFalse hpos =>
    obtain rfl : k = 0 := by omega
    exact ⟨by simp [getSublist], hb⟩

end Reads

end Blocks

/-! ## Writes -/

/-- A range of the bytes has been replaced, and the file has as many blocks as before. -/
def Blocks.Patched (off : Nat) (data : List Byte) (blocks : List Valu) (ams : Memstate) (s : St Valu HashKey) : Prop :=
  ∃ blocks', blocks'.length = blocks.length ∧ bytesOf blocks' = patch (bytesOf blocks) off data ∧ B.holds blocks' ams s

namespace Blocks

variable {B} {off : Nat} {data data₁ data₂ : List Byte}

theorem patched_nil (hb : B.holds blocks ams s) (off : Nat) : B.Patched off [] blocks ams s :=
  ⟨blocks, rfl, (patch_nil _ _).symm, hb⟩

/-- A second write, behind the first. -/
theorem Patched.after {blocks₁ : List Valu} (hlen : off + (data₁ ++ data₂).length ≤ (bytesOf blocks).length)
    (hlen₁ : blocks₁.length = blocks.length) (hbytes₁ : bytesOf blocks₁ = patch (bytesOf blocks) off data₁)
    (h : B.Patched (off + data₁.length) data₂ blocks₁ ams s) : B.Patched off (data₁ ++ data₂) blocks ams s := by
  obtain ⟨blocks₂, hlen₂, hbytes₂, hb₂⟩ := h
  refine ⟨blocks₂, hlen₂.trans hlen₁, ?_, hb₂⟩
  rw [hbytes₂, hbytes₁, patch_patch hlen]

theorem wp_patch_seq (hdata : data₁ ++ data₂ = data) {p : FProg Memstate} {f : Memstate → FProg Memstate}
    (hlen : off + data.length ≤ (bytesOf blocks).length) (hp : wp h p (B.Patched off data₁ blocks) C s)
    (hf : ∀ blocks₁ ams₁ s₁, blocks₁.length = blocks.length → B.holds blocks₁ ams₁ s₁ →
      wp h (f ams₁) (B.Patched (off + data₁.length) data₂ blocks₁) C s₁) :
    wp h (p >>= f) (B.Patched off data blocks) C s := by
  subst hdata
  refine wp_seq hp (fun _ hc => hc) ?_
  rintro ams₁ s₁ ⟨blocks₁, hlen₁, hbytes₁, hb₁⟩
  exact wp_mono (fun _ _ hp₂ => hp₂.after hlen hlen₁ hbytes₁) (fun _ hc => hc) _ (hf blocks₁ ams₁ s₁ hlen₁ hb₁)

section Writes

variable (hB : B.Writable)
include hB

theorem Writable.dwriteToBlock (hb : B.holds blocks ams s) {blockOff byteOff : Nat} (hoff : blockOff < blocks.length)
    (hp : byteOff + data.length ≤ valubytes) (ho : blockOff * valubytes + byteOff = off) :
    wp h (dwriteToBlock xp inum blockOff byteOff data ams) (B.Patched off data blocks) C s := by
  subst ho
  have hget := List.getElem?_eq_getElem hoff
  refine wp_seq (B.get hb hget) (fun _ hc => hc) ?_
  rintro ⟨ams₁, v⟩ s₁ ⟨rfl, hb₁⟩
  have hlen : (patch (valu2list blocks[blockOff]) byteOff data).length = valubytes := by
    rw [length_patch (by rwa [length_valu2list]), length_valu2list]
  refine wp_mono ?_ (fun _ hc => hc) _ (hB.put hb₁ hoff _)
  intro ams' s' hb'
  exact ⟨_, List.length_set, flatMap_set length_valu2list hget hp (valu2list_list2valu hlen), hb'⟩

theorem Writable.dwriteMiddleBlocks (hb : B.holds blocks ams s) {blockOff k : Nat} (hdata : data.length = k * valubytes)
    (hoff : blockOff + k ≤ blocks.length) :
    wp h (dwriteMiddleBlocks xp inum blockOff k data ams) (B.Patched (blockOff * valubytes) data blocks) C s := by
  have hlen : blockOff * valubytes + data.length ≤ (bytesOf blocks).length := by
    rw [hdata, length_bytesOf, ← Nat.add_mul]
    exact Nat.mul_le_mul_right _ hoff
  have hloop : wp h (Bytefile.dwriteMiddleBlocks xp inum blockOff k data ams)
      (B.Patched (blockOff * valubytes) (data.take ((0 + k) * valubytes)) blocks) C s := by
    refine wp_forN (I := fun i => B.Patched (blockOff * valubytes) (data.take (i * valubytes)) blocks) k 0 ?_ ?_
    · rintro i ams₁ s₁ _ hik ⟨blocks₁, hlen₁, hbytes₁, hb₁⟩
      have hle : (i + 1) * valubytes ≤ data.length := by
        rw [hdata]
        exact Nat.mul_le_mul_right _ (by omega)
      rw [Nat.succ_mul] at hle
      have htake : (data.take (i * valubytes)).length = i * valubytes := List.length_take_of_le (by omega)
      have hchunk : data.take ((i + 1) * valubytes) =
          data.take (i * valubytes) ++ getSublist data (i * valubytes) valubytes := by
        rw [Nat.succ_mul, List.take_add, getSublist]
      have hsize : (getSublist data (i * valubytes) valubytes).length = valubytes := length_getSublist hle
      have hoffset : (blockOff + i) * valubytes + 0 = blockOff * valubytes + (data.take (i * valubytes)).length := by
        rw [htake, Nat.add_mul, Nat.add_zero]
      rw [hchunk]
      refine wp_mono (fun _ _ hp₂ => hp₂.after ?_ hlen₁ hbytes₁) (fun _ hc => hc) _
        (hB.dwriteToBlock hb₁ (by omega) (Nat.le_of_eq (by rw [Nat.zero_add, hsize])) hoffset)
      rw [← hchunk, List.length_take]
      omega
    · rw [Nat.zero_mul, List.take_zero]
      exact patched_nil hb _
  rwa [Nat.zero_add, ← hdata, List.take_length] at hloop

theorem Writable.dwriteLast (hb : B.holds blocks ams s) {blockOff : Nat} (hdata : data.length ≤ valubytes)
    (hoff : 0 < data.length → blockOff < blocks.length) (ho : blockOff * valubytes = off) :
    wp h (dwriteLast xp inum blockOff data ams) (B.Patched off data blocks) C s := by
  rw [Bytefile.dwriteLast]
  split
  case isTrue hpos => exact hB.dwriteToBlock hb (hoff hpos) (by rwa [Nat.zero_add]) (by rw [Nat.add_zero, ho])
  case isFalse hpos =>
    obtain rfl : data = [] := List.length_eq_zero_iff.1 (by omega)
    exact patched_nil hb _

theorem Writable.dwriteMiddle (hb : B.holds blocks ams s) {blockOff : Nat} (ho : blockOff * valubytes = off)
    (hdata : off + data.length ≤ (bytesOf blocks).length) :
    wp h (dwriteMiddle xp inum blockOff data ams) (B.Patched off data blocks) C s := by
  have hlen := length_bytesOf blocks
  have hmod : data.length % valubytes < valubytes := Nat.mod_lt _ (by decide)
  have hdiv : data.length / valubytes * valubytes + data.length % valubytes = data.length := by
    rw [Nat.mul_comm, Nat.div_add_mod]
  rw [Bytefile.dwriteMiddle]
  split
  case isTrue hpos =>
    have htake : (data.take (data.length / valubytes * valubytes)).length = data.length / valubytes * valubytes :=
      List.length_take_of_le (by omega)
    refine wp_patch_seq (List.take_append_drop (data.length / valubytes * valubytes) data) hdata ?_
      fun blocks₁ ams₁ s₁ hlen₁ hb₁ => ?_
    · rw [← ho]
      refine hB.dwriteMiddleBlocks hb htake (Nat.le_of_mul_le_mul_right (c := valubytes) ?_ (by decide))
      rw [Nat.add_mul]
      omega
    · have hoffset : (blockOff + data.length / valubytes) * valubytes =
          off + (data.take (data.length / valubytes * valubytes)).length := by rw [htake, Nat.add_mul, ho]
      have hdrop : (data.drop (data.length / valubytes * valubytes)).length = data.length % valubytes := by
        rw [List.length_drop]
        omega
      have hin : 0 < (data.drop (data.length / valubytes * valubytes)).length →
          blockOff + data.length / valubytes < blocks₁.length := by
        intro hpos'
        rw [hlen₁]
        refine Nat.lt_of_mul_lt_mul_right (a := valubytes) ?_
        rw [hoffset, htake]
        omega
      have hlast := hB.dwriteLast hb₁ (Nat.le_of_lt (hdrop ▸ hmod)) hin hoffset
      simp only
      split
      case isTrue hrest => exact hlast
      case isFalse hrest => rwa [Bytefile.dwriteLast, if_neg hrest] at hlast
  case isFalse hpos =>
    rw [Nat.eq_zero_of_not_pos hpos, Nat.zero_mul, Nat.zero_add] at hdiv
    refine hB.dwriteLast hb (by omega) (fun hpos' => ?_) ho
    refine Nat.lt_of_mul_lt_mul_right (a := valubytes) ?_
    omega

theorem Writable.dwriteFirst (hb : B.holds blocks ams s) (hpos : 0 < data.length)
    (hdata : off + data.length ≤ (bytesOf blocks).length) :
    wp h (dwriteFirst xp inum (off / valubytes) (off % valubytes) data ams) (B.Patched off data blocks) C s := by
  have hlen := length_bytesOf blocks
  have hmod : off % valubytes < valubytes := Nat.mod_lt _ (by decide)
  have hdiv : off / valubytes * valubytes + off % valubytes = off := by rw [Nat.mul_comm, Nat.div_add_mod]
  have hblock : off / valubytes < blocks.length := by
    rw [Nat.div_lt_iff_lt_mul (by decide)]
    omega
  rw [Bytefile.dwriteFirst]
  split
  case isTrue hshort => exact hB.dwriteToBlock hb hblock (by omega) hdiv
  case isFalse hlong =>
    have htake : (data.take (valubytes - off % valubytes)).length = valubytes - off % valubytes :=
      List.length_take_of_le (by omega)
    refine wp_patch_seq (List.take_append_drop (valubytes - off % valubytes) data) hdata ?_
      fun blocks₁ ams₁ s₁ hlen₁ hb₁ => ?_
    · exact hB.dwriteToBlock hb hblock (by omega) hdiv
    · have hlen' := length_bytesOf blocks₁
      refine hB.dwriteMiddle hb₁ ?_ ?_
      · rw [htake, Nat.succ_mul]
        omega
      · rw [htake, hlen', hlen₁, List.length_drop]
        omega

/-- A write inside the blocks of a file patches its bytes. -/
theorem Writable.dwrite (off : Nat) (hb : B.holds blocks ams s) (hdata : off + data.length ≤ (bytesOf blocks).length) :
    wp h (dwrite xp inum off data ams) (B.Patched off data blocks) C s := by
  rw [Bytefile.dwrite]
  split
  case isTrue hpos => exact hB.dwriteFirst hb hpos hdata
  case isFalse hpos =>
    obtain rfl : data = [] := List.length_eq_zero_iff.1 (by omega)
    exact patched_nil hb _

end Writes

end Blocks

end Bytefile

end Fscq
