import Fscq.Fuse.ByteFile

/-!
# Truncated bytes

The calls that change the size of a file: writes, `fscqSetFileSize`, and `fscqOpen` with the flag that truncates. Under
them `AFS.ftruncate` and `AFS.file_truncate` set the number of blocks, keep the blocks that survive and add zero blocks,
or fail without effect.

- A truncation keeps its last block as it is, so that bytes beyond the new size stay there, and `fscqOpen` goes on when
  `file_truncate` fails (`truncated_byte_resurfaces`).
- In histories where a truncated last block is zero beyond the new size and no truncation of `fscqOpen` fails, truncated
  bytes are gone: they read as zero later, and two histories that differ in them cannot be told apart
  (`truncation_forgets`).
-/

namespace Fscq.Fuse

open BlockPtr (nBlocks)

variable {f f' : File} {s s' : Bytes}

/-- Setting the size of a regular file, once it is found. -/
def fscqSetFileSize {M : Type → Type} [Monad M] (ftruncate : Int → M (Except Errno Unit)) (size : Int) :
    M (Except PosixErrno Unit) := do
  let ok ← ftruncate size
  match ok with
  | .ok _ => pure (.ok ())
  | .error e => pure (.error (errnoToPosix e))

/-- Truncation to `n` bytes. It fails with the error `fail`, if there is one, and for a file that is too big. -/
def File.ftruncate (fail : Option Errno) (n : Int) : StateT File Option (Except Errno Unit) := fun f =>
  let count := (n + 4095) / 4096
  if fail = none ∧ 0 ≤ n ∧ count ≤ nBlocks then
    some (.ok (), ⟨(f.blocks ++ List.replicate (count.toNat - f.blocks.length) zeroBlock).take count.toNat,
      BitVec.ofInt 64 n⟩)
  else some (.error (fail.getD .EFBIG), f)

/-- A call on the file, with the error of the truncation that it may make, if it fails. -/
inductive SizeOp
  | write (fail : Option Errno) (b : Bytes) (offset : Nat)
  | setSize (fail : Option Errno) (size : Nat)
  | openTrunc (fail : Option Errno)

inductive SizeOut
  | wrote (r : Except PosixErrno Int)
  | resized (r : Except PosixErrno Unit)
  | opened (r : Except PosixErrno Unit)

/-- The call reports success. -/
def SizeOut.succeeded : SizeOut → Bool
  | .wrote r => r.isOk
  | .resized r => r.isOk
  | .opened r => r.isOk

def runSizeOp : SizeOp → StateT File Option SizeOut
  | .write fail b offset => do pure (.wrote (← fscqWrite (fileCalls fail) b offset))
  | .setSize fail size => do pure (.resized (← fscqSetFileSize (File.ftruncate fail) size))
  | .openTrunc fail => do pure (.opened (← fscqOpen (fileCalls fail) true))

/-! ## What a history promises -/

/-- The call truncates to `n` bytes. -/
def SizeOp.TruncatesTo (n : Nat) : SizeOp → Prop
  | .write _ _ _ => False
  | .setSize _ size => size = n
  | .openTrunc _ => n = 0

/-- The call is a write of the byte at `i` that reports success. -/
def Covers (i : Nat) : SizeOp × SizeOut → Prop
  | (.write _ b o, out) => out.succeeded ∧ o ≤ i ∧ i < o + b.length
  | _ => False

/-- Bytes from `n` on that no later write covers read as zero. -/
def ZerosFrom (n : Nat) (events : List (SizeOp × SizeOut)) (f : File) : Prop :=
  ∀ count offset, ∃ bytes, fscqRead (fileCalls none) (count : Nat) (offset : Nat) f = some (bytes, f) ∧
    ∀ j < bytes.length, n ≤ offset + j → (∀ e ∈ events, ¬ Covers (offset + j) e) → bytes.getD j 0 = 0

/-- The same call, or a write that differs in bytes from `n` on. -/
def SameBelow (n : Nat) : SizeOp → SizeOp → Prop
  | .write fail b o, .write fail' b' o' =>
    fail = fail' ∧ o = o' ∧ b.length = b'.length ∧ ∀ j, o + j < n → b.getD j 0 = b'.getD j 0
  | op, op' => op = op'

/-- All reads return the same. -/
def SameReads (f f' : File) : Prop :=
  ∀ count offset, ∃ bytes, fscqRead (fileCalls none) (count : Nat) (offset : Nat) f = some (bytes, f) ∧
    fscqRead (fileCalls none) (count : Nat) (offset : Nat) f' = some (bytes, f')

/-- The run of a history with the truncation `t` in it: the answer to `t`, the later calls with their answers, and the
file at the end. -/
def Runs (pre : List SizeOp) (t : SizeOp) (post : List SizeOp) (out : SizeOut) (events : List (SizeOp × SizeOut))
    (f : File) : Prop :=
  ∃ outs₀ f₀ f₁ outs, pre.mapM runSizeOp newFile = some (outs₀, f₀) ∧ runSizeOp t f₀ = some (out, f₁) ∧
    post.mapM runSizeOp f₁ = some (outs, f) ∧ events = post.zip outs

/-- After the truncation to `n` bytes, if it reports success, bytes from `n` on are zero until they are written. -/
def Forgets (n : Nat) (pre : List SizeOp) (t : SizeOp) (post : List SizeOp) : Prop :=
  ∃ out events f, Runs pre t post out events f ∧ (out.succeeded → ZerosFrom n events f)

/-- After the truncation, if it reports success, the two histories answer all reads alike. -/
def Alike (pre pre' : List SizeOp) (t : SizeOp) (post : List SizeOp) : Prop :=
  ∃ out events f out' events' f', Runs pre t post out events f ∧ Runs pre' t post out' events' f' ∧
    (out.succeeded → out'.succeeded ∧ SameReads f f')

/-! ## The condition -/

/-- The block that a truncation keeps is zero beyond the new size, and the truncation of `fscqOpen` succeeds or has
nothing to do. -/
def StepOk (f : File) : SizeOp → Prop
  | .write _ _ _ => True
  | .setSize fail n => fail = none → ∀ i, n ≤ i → i < (n + 4095) / 4096 * 4096 → f.byte i = 0
  | .openTrunc fail => fail = none ∨ f.blocks = []

/-- All steps of the history from `f` meet the condition. -/
def StepsOk : List SizeOp → File → Prop
  | [], _ => True
  | op :: ops, f => StepOk f op ∧ ∀ out f', runSizeOp op f = some (out, f') → StepsOk ops f'

/-! ## Byte strings -/

def resizeBytes (s : Bytes) (n : Nat) : Bytes := s.take n ++ List.replicate (n - s.length) 0

theorem length_resizeBytes (s : Bytes) (n : Nat) : (resizeBytes s n).length = n := by
  simp [resizeBytes]
  omega

theorem getD_resizeBytes (s : Bytes) (n i : Nat) :
    (resizeBytes s n).getD i 0 = if i < n then s.getD i 0 else 0 := by
  simp only [resizeBytes, List.getD_eq_getElem?_getD, List.getElem?_append, List.length_take, List.getElem?_take,
    List.getElem?_replicate]
  by_cases hi : i < n
  · by_cases hs : i < s.length
    · rw [if_pos (by omega), if_pos hi, if_pos hi]
    · rw [if_neg (by omega), if_pos (by omega), if_pos hi, List.getElem?_eq_none (by omega)]
      rfl
  · rw [if_neg (by omega), if_neg (by omega), if_neg hi]
    rfl

/-- What the call does to a byte string, and whether it succeeds. -/
def refSizeOp (s : Bytes) : SizeOp → Bool × Bytes
  | .write fail b o =>
    if s.length < o + b.length ∧ (fail ≠ none ∨ nBlocks * 4096 < o + b.length) then (false, s)
    else (true, writeBytes s o b)
  | .setSize fail n => if fail = none ∧ n ≤ nBlocks * 4096 then (true, resizeBytes s n) else (false, s)
  | .openTrunc _ => (true, [])

theorem nBlocks_lt : nBlocks * 4096 < 2 ^ 63 := by decide

/-- Bytes of a file that is cut or filled up to `k` blocks. -/
theorem File.byte_resize (bl : List Bytes) (sz sz' : BitVec 64) (k i : Nat) :
    File.byte ⟨(bl ++ List.replicate (k - bl.length) zeroBlock).take k, sz⟩ i =
      if i < k * 4096 then File.byte ⟨bl, sz'⟩ i else 0 := by
  by_cases hi : i < k * 4096
  · have hblk : i / 4096 < k := by omega
    rw [if_pos hi, ← File.byte_append_zero bl sz' sz' (k - bl.length) i]
    simp only [File.byte, List.getD_eq_getElem?_getD, List.getElem?_take, if_pos hblk]
  · have hblk : ¬ i / 4096 < k := by omega
    rw [if_neg hi]
    simp only [File.byte, List.getD_eq_getElem?_getD, List.getElem?_take, if_neg hblk]
    rfl

/-- A truncation whose last block is zero beyond the new size. -/
theorem ftruncate_rep (h : Rep f s) {n : Nat} (hn : n ≤ nBlocks * 4096)
    (htail : ∀ i, n ≤ i → i < (n + 4095) / 4096 * 4096 → f.byte i = 0) :
    Rep ⟨(f.blocks ++ List.replicate ((n + 4095) / 4096 - f.blocks.length) zeroBlock).take ((n + 4095) / 4096),
      BitVec.ofInt 64 n⟩ (resizeBytes s n) := by
  have hlt := nBlocks_lt
  refine ⟨?_, fun x hx => ?_, ?_, ?_, fun i => ?_⟩
  · rw [length_resizeBytes, BitVec.toNat_ofInt]
    omega
  · rcases List.mem_append.mp (List.mem_of_mem_take hx) with hx | hx
    · exact h.blocksOk x hx
    · rw [(List.mem_replicate.mp hx).2]
      exact List.length_replicate ..
  · simp only [length_resizeBytes, List.length_take, List.length_append, List.length_replicate]
    omega
  · simp only [List.length_take, List.length_append, List.length_replicate]
    omega
  · rw [File.byte_resize f.blocks _ f.size, getD_resizeBytes]
    by_cases hi : i < n
    · rw [if_pos hi, if_pos (by omega)]
      exact h.bytes i
    · rw [if_neg hi]
      split
      · exact htail i (by omega) (by omega)
      · rfl

/-! ## One call -/

theorem write_refines (h : Rep f s) (fail : Option Errno) (b : Bytes) (o : Nat) :
    ∃ out f', runSizeOp (.write fail b o) f = some (out, f') ∧ out.succeeded = (refSizeOp s (.write fail b o)).1 ∧
      Rep f' (refSizeOp s (.write fail b o)).2 := by
  simp only [refSizeOp]
  rcases fscqWrite_spec h b o with ⟨f', hrun, h', hfits⟩ | ⟨hgrow, hspace, hrun⟩
  · have hnot : ¬ (s.length < o + b.length ∧ (fail ≠ none ∨ nBlocks * 4096 < o + b.length)) := by
      rintro ⟨hgrow, hspace⟩
      obtain ⟨hnone, hle⟩ := hfits hgrow
      rcases hspace with hspace | hspace
      · exact hspace hnone
      · omega
    rw [if_neg hnot]
    exact ⟨_, f', bind_run hrun, rfl, h'⟩
  · rw [if_pos ⟨hgrow, hspace⟩]
    exact ⟨_, f, bind_run hrun, rfl, h⟩

theorem setSize_refines (h : Rep f s) {fail : Option Errno} {n : Nat} (hok : StepOk f (.setSize fail n)) :
    ∃ out f', runSizeOp (.setSize fail n) f = some (out, f') ∧ out.succeeded = (refSizeOp s (.setSize fail n)).1 ∧
      Rep f' (refSizeOp s (.setSize fail n)).2 := by
  have hcount : (((n : Int) + 4095) / 4096).toNat = (n + 4095) / 4096 := by omega
  simp only [refSizeOp]
  by_cases hfits : fail = none ∧ n ≤ nBlocks * 4096
  · have hrun : File.ftruncate fail n f = some (.ok (), _) := if_pos ⟨hfits.1, by omega, by omega⟩
    rw [hcount] at hrun
    rw [if_pos hfits]
    refine ⟨.resized (.ok ()), _, ?_, rfl, ftruncate_rep h hfits.2 (hok hfits.1)⟩
    exact bind_run ((bind_run hrun).trans (pure_run _))
  · have hrun : File.ftruncate fail n f = some (.error (fail.getD .EFBIG), f) := by
      refine if_neg fun hcond => hfits ⟨hcond.1, ?_⟩
      have := hcond.2.2
      omega
    rw [if_neg hfits]
    refine ⟨.resized (.error (errnoToPosix (fail.getD .EFBIG))), f, ?_, rfl, h⟩
    exact bind_run ((bind_run hrun).trans (pure_run _))

theorem openTrunc_refines (s : Bytes) {fail : Option Errno} (hok : StepOk f (.openTrunc fail)) :
    ∃ out f', runSizeOp (.openTrunc fail) f = some (out, f') ∧ out.succeeded = (refSizeOp s (.openTrunc fail)).1 ∧
      Rep f' (refSizeOp s (.openTrunc fail)).2 := by
  -- with or without the truncation no block is left
  obtain ⟨r, hr⟩ : ∃ r, (fileCalls fail).fileTruncate 0 f = some (r, { f with blocks := [] }) := by
    by_cases hfail : fail = none
    · subst hfail
      exact ⟨.ok (), by simp [fileCalls, File.truncate]⟩
    · have hblocks := hok.resolve_left hfail
      have hf : f = { f with blocks := [] } := by rw [← hblocks]
      refine ⟨.error (fail.getD .EFBIG), (if_neg fun hcond => hfail hcond.1).trans ?_⟩
      rw [← hf]
  have hset : (fileCalls fail).fileSetSz 0 { f with blocks := [] } = some (.ok (), ⟨[], 0⟩) := rfl
  refine ⟨.opened (.ok ()), ⟨[], 0⟩, bind_run ?_, rfl, rep_nil⟩
  rw [fscqOpen, if_pos rfl, bind_run hr, bind_run hset]
  exact pure_run _

theorem runSizeOp_refines (h : Rep f s) {op : SizeOp} (hok : StepOk f op) :
    ∃ out f', runSizeOp op f = some (out, f') ∧ out.succeeded = (refSizeOp s op).1 ∧ Rep f' (refSizeOp s op).2 := by
  cases op with
  | write fail b o => exact write_refines h fail b o
  | setSize fail n => exact setSize_refines h hok
  | openTrunc fail => exact openTrunc_refines s hok

/-! ## Histories -/

theorem mapM_cons_some {ops : List SizeOp} {op : SizeOp} {out : SizeOut} {outs : List SizeOut} {f₁ : File}
    (hop : runSizeOp op f = some (out, f₁)) (hops : ops.mapM runSizeOp f₁ = some (outs, f')) :
    (op :: ops).mapM runSizeOp f = some (out :: outs, f') := by
  rw [List.mapM_cons, bind_run hop, bind_run hops, pure_run]

/-- A byte that is zero stays zero until a write covers it. -/
theorem refSizeOp_zero {op : SizeOp} {out : SizeOut} {i : Nat} (hs : s.getD i 0 = 0)
    (hout : out.succeeded = (refSizeOp s op).1) (hcov : ¬ Covers i (op, out)) : (refSizeOp s op).2.getD i 0 = 0 := by
  cases op with
  | write fail b o =>
    simp only [refSizeOp] at hout ⊢
    split
    · exact hs
    · rename_i hnot
      rw [if_neg hnot] at hout
      rw [getD_writeBytes, if_neg fun hin => hcov ⟨hout, hin⟩]
      exact hs
  | setSize fail n =>
    simp only [refSizeOp]
    split
    · rw [getD_resizeBytes]
      split
      · exact hs
      · rfl
    · exact hs
  | openTrunc fail => rfl

/-- The byte string after the calls. -/
def refSizeOps (s : Bytes) (ops : List SizeOp) : Bytes := ops.foldl (fun s op => (refSizeOp s op).2) s

theorem runSizeOps_refines (ops : List SizeOp) : ∀ {f : File} {s : Bytes}, Rep f s → StepsOk ops f →
    ∃ outs f', ops.mapM runSizeOp f = some (outs, f') ∧ Rep f' (refSizeOps s ops) ∧
      ∀ i, s.getD i 0 = 0 → (∀ e ∈ ops.zip outs, ¬ Covers i e) → (refSizeOps s ops).getD i 0 = 0 := by
  induction ops with
  | nil => exact fun {f s} h _ => ⟨[], f, by rw [List.mapM_nil, pure_run], h, fun i hi _ => hi⟩
  | cons op ops ih =>
    intro f s h hok
    obtain ⟨out, f₁, hrun, hout, h₁⟩ := runSizeOp_refines h hok.1
    obtain ⟨outs, f₂, hruns, h₂, hzero⟩ := ih h₁ (hok.2 out f₁ hrun)
    refine ⟨out :: outs, f₂, mapM_cons_some hrun hruns, h₂, fun i hi hcov => ?_⟩
    rw [List.zip_cons_cons] at hcov
    refine hzero i ?_ fun e he => hcov e (List.mem_cons_of_mem _ he)
    exact refSizeOp_zero hi hout (hcov _ List.mem_cons_self)

theorem StepsOk.append {ops rest : List SizeOp} : ∀ {f : File}, StepsOk (ops ++ rest) f → StepsOk ops f ∧
    ∀ outs f', ops.mapM runSizeOp f = some (outs, f') → StepsOk rest f' := by
  induction ops with
  | nil =>
    intro f hok
    refine ⟨trivial, fun outs f' hrun => ?_⟩
    rw [List.mapM_nil, pure_run] at hrun
    obtain ⟨_, rfl⟩ := Prod.mk.inj (Option.some.inj hrun)
    exact hok
  | cons op ops ih =>
    intro f hok
    refine ⟨⟨hok.1, fun out f' hrun => (ih (hok.2 out f' hrun)).1⟩, fun outs f' hrun => ?_⟩
    -- the run of the first call, and the run of the others
    rw [List.mapM_cons] at hrun
    cases hop : runSizeOp op f with
    | none => simp only [bind, StateT.bind, hop, Option.bind_none] at hrun; cases hrun
    | some r =>
      obtain ⟨out, f₁⟩ := r
      rw [bind_run hop] at hrun
      cases hops : ops.mapM runSizeOp f₁ with
      | none => simp only [bind, StateT.bind, hops, Option.bind_none] at hrun; cases hrun
      | some r =>
        obtain ⟨outs', f₂⟩ := r
        rw [bind_run hops, pure_run] at hrun
        obtain ⟨_, rfl⟩ := Prod.mk.inj (Option.some.inj hrun)
        exact (ih (hok.2 out f₁ hop)).2 outs' f₂ hops

/-- A truncation that succeeds leaves nothing from its size on. -/
theorem refSizeOp_truncates {n : Nat} {t : SizeOp} (ht : t.TruncatesTo n) (hs : (refSizeOp s t).1 = true) :
    (refSizeOp s t).2 = resizeBytes s n := by
  cases t with
  | write fail b o => exact absurd ht id
  | setSize fail size =>
    obtain rfl : size = n := ht
    simp only [refSizeOp] at hs ⊢
    split
    · rfl
    · rename_i hnot
      rw [if_neg hnot] at hs
      cases hs
  | openTrunc fail =>
    obtain rfl : n = 0 := ht
    simp [refSizeOp, resizeBytes]

/-- The run of a history whose steps meet the condition. -/
theorem runs_refines {n : Nat} {pre post : List SizeOp} {t : SizeOp} (ht : t.TruncatesTo n)
    (hok : StepsOk (pre ++ t :: post) newFile) : ∃ out events f, Runs pre t post out events f ∧
      Rep f (refSizeOps (refSizeOp (refSizeOps [] pre) t).2 post) ∧
      out.succeeded = (refSizeOp (refSizeOps [] pre) t).1 ∧
      (out.succeeded → ∀ i, n ≤ i → (∀ e ∈ events, ¬ Covers i e) →
        (refSizeOps (refSizeOp (refSizeOps [] pre) t).2 post).getD i 0 = 0) := by
  obtain ⟨hpre, hrest⟩ := hok.append
  obtain ⟨outs₀, f₀, hrun₀, h₀, _⟩ := runSizeOps_refines pre rep_nil hpre
  have hok₁ := hrest outs₀ f₀ hrun₀
  obtain ⟨out, f₁, hrun₁, hout, h₁⟩ := runSizeOp_refines h₀ hok₁.1
  obtain ⟨outs, f₂, hrun₂, h₂, hzero⟩ := runSizeOps_refines post h₁ (hok₁.2 out f₁ hrun₁)
  refine ⟨out, _, f₂, ⟨outs₀, f₀, f₁, outs, hrun₀, hrun₁, hrun₂, rfl⟩, h₂, hout, fun hsucc i hi hcov => ?_⟩
  refine hzero i ?_ hcov
  rw [refSizeOp_truncates ht (hout.symm.trans hsucc), getD_resizeBytes, if_neg (by omega)]

/-! ## Two histories -/

/-- The strings have one length and agree below `n`. -/
def AgreeBelow (n : Nat) (s s' : Bytes) : Prop := s.length = s'.length ∧ ∀ i < n, s.getD i 0 = s'.getD i 0

theorem AgreeBelow.resize {n k : Nat} (h : AgreeBelow n s s') : AgreeBelow n (resizeBytes s k) (resizeBytes s' k) := by
  refine ⟨by rw [length_resizeBytes, length_resizeBytes], fun i hi => ?_⟩
  rw [getD_resizeBytes, getD_resizeBytes, h.2 i hi]

theorem AgreeBelow.write {n o : Nat} {b b' : Bytes} (h : AgreeBelow n s s') (hlen : b.length = b'.length)
    (hb : ∀ j, o + j < n → b.getD j 0 = b'.getD j 0) : AgreeBelow n (writeBytes s o b) (writeBytes s' o b') := by
  refine ⟨by rw [length_writeBytes, length_writeBytes, h.1, hlen], fun i hi => ?_⟩
  rw [getD_writeBytes, getD_writeBytes, ← hlen, h.2 i hi]
  by_cases hin : o ≤ i ∧ i < o + b.length
  · rw [if_pos hin, if_pos hin]
    exact hb (i - o) (by omega)
  · rw [if_neg hin, if_neg hin]

/-- Calls that are the same below `n` keep agreement below `n`, and succeed alike. -/
theorem AgreeBelow.refSizeOp {n : Nat} {op op' : SizeOp} (h : AgreeBelow n s s') (hop : SameBelow n op op') :
    (refSizeOp s op).1 = (refSizeOp s' op').1 ∧ AgreeBelow n (refSizeOp s op).2 (refSizeOp s' op').2 := by
  cases op with
  | write fail b o =>
    cases op' with
    | write fail' b' o' =>
      obtain ⟨rfl, rfl, hlen, hb⟩ := hop
      simp only [Fuse.refSizeOp, ← h.1, ← hlen]
      split
      · exact ⟨rfl, h⟩
      · exact ⟨rfl, h.write hlen hb⟩
    | setSize fail' n' => cases hop
    | openTrunc fail' => cases hop
  | setSize fail k =>
    obtain rfl : SizeOp.setSize fail k = op' := hop
    simp only [Fuse.refSizeOp]
    split
    · exact ⟨rfl, h.resize⟩
    · exact ⟨rfl, h⟩
  | openTrunc fail =>
    obtain rfl : SizeOp.openTrunc fail = op' := hop
    exact ⟨rfl, rfl, fun _ _ => rfl⟩

theorem AgreeBelow.refSizeOps {n : Nat} {pre pre' : List SizeOp} (hpre : List.Forall₂ (SameBelow n) pre pre') :
    ∀ {s s' : Bytes}, AgreeBelow n s s' → AgreeBelow n (refSizeOps s pre) (refSizeOps s' pre') := by
  induction hpre with
  | nil => exact fun h => h
  | cons hop _ ih => exact fun h => ih (h.refSizeOp hop).2

theorem AgreeBelow.resize_eq {n : Nat} (h : AgreeBelow n s s') : resizeBytes s n = resizeBytes s' n := by
  refine List.ext_getElem (by rw [length_resizeBytes, length_resizeBytes]) fun i h₁ h₂ => ?_
  have hbyte := (h.resize (k := n)).2 i (by rwa [length_resizeBytes] at h₁)
  rwa [List.getD_eq_getElem _ _ h₁, List.getD_eq_getElem _ _ h₂] at hbyte

theorem SameBelow.refl {n : Nat} (op : SizeOp) : SameBelow n op op := by
  cases op with
  | write fail b o => exact ⟨rfl, rfl, rfl, fun _ _ => rfl⟩
  | setSize fail k => rfl
  | openTrunc fail => rfl

/-- **Truncated bytes are gone**, in histories whose steps meet the condition: bytes from the new size on are zero until
they are written, and histories that differed in them before are alike. -/
theorem truncation_forgets {n : Nat} {pre post : List SizeOp} {t : SizeOp} (ht : t.TruncatesTo n)
    (hok : StepsOk (pre ++ t :: post) newFile) :
    Forgets n pre t post ∧ ∀ pre', List.Forall₂ (SameBelow n) pre pre' → StepsOk (pre' ++ t :: post) newFile →
      Alike pre pre' t post := by
  obtain ⟨out, events, f, hruns, hrep, hout, hzero⟩ := runs_refines ht hok
  constructor
  · refine ⟨out, events, f, hruns, fun hsucc count offset => ⟨_, fscqRead_spec none hrep count offset, ?_⟩⟩
    intro j hj hn hcov
    have hlen := hj
    rw [readBytes, List.length_take, List.length_drop] at hlen
    rw [readBytes, List.getD_eq_getElem?_getD, List.getElem?_take, if_pos (by omega), List.getElem?_drop,
      ← List.getD_eq_getElem?_getD]
    exact hzero hsucc (offset + j) hn hcov
  · intro pre' hpre hok'
    obtain ⟨out', events', f', hruns', hrep', hout', _⟩ := runs_refines ht hok'
    have hagree : AgreeBelow n (refSizeOps [] pre) (refSizeOps [] pre') :=
      AgreeBelow.refSizeOps hpre ⟨rfl, fun _ _ => rfl⟩
    refine ⟨out, events, f, out', events', f', hruns, hruns', fun hsucc => ?_⟩
    have hsucc' : out'.succeeded = true := by
      rw [hout', ← (hagree.refSizeOp (SameBelow.refl t)).1, ← hout, hsucc]
    rw [refSizeOp_truncates ht (hout.symm.trans hsucc), hagree.resize_eq] at hrep
    rw [refSizeOp_truncates ht (hout'.symm.trans hsucc')] at hrep'
    exact ⟨hsucc', fun count offset =>
      ⟨_, fscqRead_spec none hrep count offset, fscqRead_spec none hrep' count offset⟩⟩

/-- Truncation to nothing, and then a write that leaves a gap. -/
theorem truncation_forgets_small : Forgets 0 [.write none [7] 0] (.setSize none 0) [.write none [1] 3] :=
  (@truncation_forgets 0 [.write none [7] 0] [.write none [1] 3] (.setSize none 0) rfl
    ⟨trivial, fun _ _ _ => ⟨fun _ i _ hi => absurd hi (Nat.not_lt_zero i), fun _ _ _ => ⟨trivial, fun _ _ _ => trivial⟩⟩⟩).1

/-! ## Truncation inside a block -/

/-- A truncation inside the last block, and an extension to the old size: the file is back. -/
theorem truncate_extend_restores (h : Rep f s) {n : Nat} (hn : (n + 4095) / 4096 = f.blocks.length) :
    ∃ f₁, runSizeOp (.setSize none n) f = some (.resized (.ok ()), f₁) ∧
      runSizeOp (.setSize none s.length) f₁ = some (.resized (.ok ()), f) := by
  have hcount := h.count
  have hlimit := h.limit
  have hkeep : ∀ (size : Nat) (g : File), g.blocks = f.blocks → (size + 4095) / 4096 = f.blocks.length →
      File.ftruncate none size g = some (.ok (), ⟨f.blocks, BitVec.ofInt 64 size⟩) := by
    intro size g hg hsize
    have htoNat : (((size : Int) + 4095) / 4096).toNat = f.blocks.length := by omega
    refine (if_pos ⟨rfl, by omega, by omega⟩).trans ?_
    rw [htoNat, hg, Nat.sub_self, List.replicate_zero, List.append_nil, List.take_length]
  have hsize : BitVec.ofInt 64 (s.length : Nat) = f.size := by
    apply BitVec.eq_of_toNat_eq
    rw [BitVec.toNat_ofInt, h.size]
    have := h.length_lt
    omega
  refine ⟨⟨f.blocks, BitVec.ofInt 64 n⟩, bind_run ((bind_run (hkeep n f rfl hn)).trans (pure_run _)), ?_⟩
  have hback := hkeep s.length ⟨f.blocks, BitVec.ofInt 64 n⟩ rfl hcount.symm
  rw [hsize] at hback
  exact bind_run ((bind_run hback).trans (pure_run _))

/-- The bytes 7 7 are written, the file is truncated to one byte and set to two bytes again: the second byte is 7. -/
theorem truncated_byte_resurfaces :
    ¬ ∀ (n : Nat) (pre : List SizeOp) (t : SizeOp) (post : List SizeOp), t.TruncatesTo n → Forgets n pre t post := by
  intro hall
  obtain ⟨out, events, f, ⟨outs₀, f₀, f₁, outs, hrun₀, hrun₁, hrun₂, rfl⟩, hzeros⟩ :=
    hall 1 [.write none [7, 7] 0] (.setSize none 1) [.setSize none 2] rfl
  -- the file with the two bytes
  obtain ⟨outs', f', hrun', hrep, _⟩ := runSizeOps_refines [.write none [7, 7] 0] rep_nil ⟨trivial, fun _ _ _ => trivial⟩
  obtain ⟨_, rfl⟩ := Prod.mk.inj (Option.some.inj (hrun₀.symm.trans hrun'))
  have hbytes : refSizeOps [] [.write none [7, 7] 0] = [7, 7] := rfl
  rw [hbytes] at hrep
  obtain ⟨f₁', htrunc, hext⟩ := truncate_extend_restores hrep (n := 1) hrep.count.symm
  obtain ⟨rfl, rfl⟩ := Prod.mk.inj (Option.some.inj (hrun₁.symm.trans htrunc))
  obtain ⟨rfl, rfl⟩ := Prod.mk.inj (Option.some.inj (hrun₂.symm.trans (mapM_cons_some hext (by rw [List.mapM_nil, pure_run]))))
  obtain ⟨bytes, hread, hzero⟩ := hzeros rfl 2 0
  obtain ⟨rfl, _⟩ := Prod.mk.inj (Option.some.inj (hread.symm.trans (fscqRead_spec none hrep 2 0)))
  have hcov : ∀ e ∈ [(SizeOp.setSize none 2, SizeOut.resized (.ok ()))], ¬ Covers (0 + 1) e := by
    intro e he
    obtain rfl := List.mem_singleton.mp he
    exact id
  exact absurd (hzero 1 (by decide) (by omega) hcov) (by decide)

end Fscq.Fuse
