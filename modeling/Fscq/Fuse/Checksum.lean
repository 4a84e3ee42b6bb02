import Fscq.Fuse.Word

/-!
# Checksums of the Haskell server

`Hash` and `Hash2` of `hslib/Interpreter.hs` compute a CRC-32 over the bytes of a word. `crc32Update` is code of a library: a
parameter here, of which the interpreter needs that it is incremental. Below 2^63 bits the representation of a word makes no
difference, and the checksum of blocks that were written is the one of the blocks that are read back
(`checksum_repr_independent`).
-/

namespace Fscq

namespace HsWord

open Fuse (Bytes)

section Interpreter

variable (crc32Update : BitVec 32 → Bytes → BitVec 32)

def crc32WordUpdate (c : BitVec 32) (sz : Nat) : CoqWord → Option (BitVec 32)
  | .W w => (i2bs w (fromIntegral ((sz + 7) / 8 : Nat))).map (crc32Update c)
  | .W64 w => (i2bs w.toNat (fromIntegral ((sz + 7) / 8 : Nat))).map (crc32Update c)
  | .WBS bs => some (crc32Update c bs)

def hash (sz : Nat) (w : CoqWord) : Option CoqWord := do
  let c ← crc32WordUpdate crc32Update 0 sz w
  pure (.W c.toNat)

def hash2 (sz1 sz2 : Nat) (w1 w2 : CoqWord) : Option CoqWord := do
  let c1 ← crc32WordUpdate crc32Update 0 sz1 w1
  let c2 ← crc32WordUpdate crc32Update c1 sz2 w2
  pure (.W c2.toNat)

/-- The chain of a log checksum, from the hash of the blocks before. -/
def hashList (h : CoqWord) (values : List CoqWord) : Option CoqWord :=
  values.foldlM (fun hash item => hash2 crc32Update valulen hashlen item hash) h

end Interpreter

/-- A block that `write_disk` writes and `read_disk` reads back. -/
def throughDisk : CoqWord → Option CoqWord
  | .W64 _ => none
  | .W w => (i2bs w 4096).map fun bs => .W (bs2i bs)
  | .WBS bs => some (.W (bs2i (bs.take 4096)))

/-- An update goes on where the one before stopped. -/
def Incremental (crc32Update : BitVec 32 → Bytes → BitVec 32) : Prop :=
  ∀ c a b, crc32Update c (a ++ b) = crc32Update (crc32Update c a) b

/-- Two representations of one word. -/
structure Same (sz : Nat) (w w' : CoqWord) : Prop where
  left : w.Valid sz
  right : w'.Valid sz
  number : w.number = w'.number

variable {f : BitVec 32 → Bytes → BitVec 32}

/-- A word of whole bytes is hashed as its bytes. -/
theorem crc32WordUpdate_bytes {w : CoqWord} {k : Nat} (hv : w.Valid (8 * k)) (hk : k < 2 ^ 63) :
    ∃ b : Bytes, b.length = k ∧ bs2i b = w.number ∧ ∀ c, crc32WordUpdate f c (8 * k) w = some (f c b) := by
  obtain ⟨b, hb, hlen, hnum⟩ := w2bs_spec hv
  have hbytes : fromIntegral ((8 * k + 7) / 8 : Nat) = (k : Int) := by
    rw [show (8 * k + 7) / 8 = k by omega, fromIntegral_of_lt hk]
  refine ⟨b, hlen, hnum, fun c => ?_⟩
  cases w with
  | W x =>
    rw [crc32WordUpdate, hbytes]
    exact congrArg (Option.map (f c)) hb
  | W64 x =>
    rw [crc32WordUpdate, hbytes]
    exact congrArg (Option.map (f c)) hb
  | WBS b' =>
    obtain rfl := Option.some.inj hb
    rfl

theorem Same.update {sz : Nat} {w w' : CoqWord} (h : Same sz w w') (h8 : sz % 8 = 0) (hsz : sz < 2 ^ 63) :
    ∃ b : Bytes, ∀ c, crc32WordUpdate f c sz w = some (f c b) ∧ crc32WordUpdate f c sz w' = some (f c b) := by
  obtain ⟨k, rfl⟩ : ∃ k, sz = 8 * k := ⟨sz / 8, by omega⟩
  obtain ⟨b, hlen, hnum, hb⟩ := crc32WordUpdate_bytes (f := f) h.left (by omega)
  obtain ⟨b', hlen', hnum', hb'⟩ := crc32WordUpdate_bytes (f := f) h.right (by omega)
  obtain rfl : b = b' := (bs2i_inj (hlen.trans hlen'.symm)).1 (by rw [hnum, hnum', h.number])
  exact ⟨b, fun c => ⟨hb c, hb' c⟩⟩

theorem valid_checksum (c : BitVec 32) : (CoqWord.W c.toNat).Valid hashlen :=
  ⟨Int.natCast_nonneg _, by exact_mod_cast c.isLt⟩

theorem hash_same {sz : Nat} {w w' : CoqWord} (h : Same sz w w') (h8 : sz % 8 = 0) (hsz : sz < 2 ^ 63) :
    ∃ c, hash f sz w = some c ∧ hash f sz w' = some c := by
  obtain ⟨b, hb⟩ := h.update (f := f) h8 hsz
  refine ⟨.W (f 0 b).toNat, ?_⟩
  rw [hash, hash, (hb 0).1, (hb 0).2]
  exact ⟨rfl, rfl⟩

theorem hash2_same {sz1 sz2 : Nat} {w1 w1' w2 w2' : CoqWord} (h1 : Same sz1 w1 w1') (h2 : Same sz2 w2 w2')
    (h81 : sz1 % 8 = 0) (h82 : sz2 % 8 = 0) (hsz1 : sz1 < 2 ^ 63) (hsz2 : sz2 < 2 ^ 63) :
    ∃ c, c.Valid hashlen ∧ hash2 f sz1 sz2 w1 w2 = some c ∧ hash2 f sz1 sz2 w1' w2' = some c := by
  obtain ⟨b1, hb1⟩ := h1.update (f := f) h81 hsz1
  obtain ⟨b2, hb2⟩ := h2.update (f := f) h82 hsz2
  refine ⟨_, valid_checksum (f (f 0 b1) b2), ?_⟩
  simp only [hash2, (hb1 _).1, (hb1 _).2, Option.bind_eq_bind, Option.bind_some, (hb2 _).1, (hb2 _).2]
  exact ⟨rfl, rfl⟩

/-- Below 2^63 bits, `combine` keeps words of whole bytes. -/
theorem combine_keeps {sz1 sz2 : Nat} {w1 w2 : CoqWord} (h81 : sz1 % 8 = 0) (h82 : sz2 % 8 = 0) (hsz1 : sz1 < 2 ^ 63)
    (hsz2 : sz2 < 2 ^ 63) : (Call.combine sz1 w1 sz2 w2).Keeps := by
  have hwidth : IntWidth sz1 fun t => t = sz1 ∨ w2.number = 0 := intWidth_iff.2 ⟨sz1, fromIntegral_of_lt hsz1, .inl rfl⟩
  cases w1 <;> cases w2
  all_goals simp only [Call.Keeps, if_pos h81, if_pos h82]
  all_goals first | exact hwidth | exact hsz1 | exact hsz2

theorem hash2_eq_hash_combine (hcrc : Incremental f) {sz1 sz2 : Nat} {w1 w2 : CoqWord} (h1 : w1.Valid sz1)
    (h2 : w2.Valid sz2) (h81 : sz1 % 8 = 0) (h82 : sz2 % 8 = 0) (hsz1 : sz1 < 2 ^ 63) (hsz2 : sz2 < 2 ^ 63) :
    ∃ w c, combine sz1 w1 sz2 w2 = some w ∧ hash2 f sz1 sz2 w1 w2 = some c ∧ hash f (sz1 + sz2) w = some c := by
  obtain ⟨r, hr, hright⟩ := (combine_meets_iff h1 h2).2 (combine_keeps h81 h82 hsz1 hsz2) trivial
  obtain ⟨w, hw, rfl⟩ := Option.map_eq_some_iff.1 hr
  obtain ⟨hvalid, hnum⟩ : w.Valid (sz1 + sz2) ∧ w.number = w1.number + 2 ^ sz1 * w2.number := hright
  obtain ⟨k1, rfl⟩ : ∃ k, sz1 = 8 * k := ⟨sz1 / 8, by omega⟩
  obtain ⟨k2, rfl⟩ : ∃ k, sz2 = 8 * k := ⟨sz2 / 8, by omega⟩
  rw [← Nat.mul_add] at hvalid ⊢
  obtain ⟨b1, hlen1, hnum1, hb1⟩ := crc32WordUpdate_bytes (f := f) h1 (by omega)
  obtain ⟨b2, hlen2, hnum2, hb2⟩ := crc32WordUpdate_bytes (f := f) h2 (by omega)
  obtain ⟨b, hlen, hbnum, hb⟩ := crc32WordUpdate_bytes (f := f) hvalid (by omega)
  have hbytes : b = b1 ++ b2 := by
    refine (bs2i_inj (by rw [List.length_append]; omega)).1 ?_
    rw [hbnum, hnum, bs2i_append, hnum1, hnum2, hlen1, two_pow_eight_mul]
  refine ⟨w, .W (f (f 0 b1) b2).toNat, hw, ?_, ?_⟩
  · rw [hash2, hb1]
    simp only [Option.bind_eq_bind, Option.bind_some, hb2]
    rfl
  · rw [hash, hb, hbytes, hcrc]
    rfl

/-! ## Log checksums -/

theorem hashList_cons (h v : CoqWord) (values : List CoqWord) : hashList f h (v :: values) =
    (hash2 f valulen hashlen v h).bind fun h' => hashList f h' values := rfl

/-- Two chains over one list of blocks. -/
theorem hashList_same : ∀ {values values' : List CoqWord} {h h' : CoqWord}, List.Forall₂ (Same valulen) values values' →
    Same hashlen h h' → ∃ c c', hashList f h values = some c ∧ hashList f h' values' = some c' ∧ Same hashlen c c'
  | _, _, h, h', .nil, hh => ⟨h, h', rfl, rfl, hh⟩
  | _, _, h, h', .cons hv hvs, hh => by
    obtain ⟨c, hc, h₁, h₂⟩ := hash2_same (f := f) hv hh (by decide) (by decide) (by decide) (by decide)
    rw [hashList_cons, hashList_cons, h₁, h₂]
    exact hashList_same hvs ⟨hc, hc, rfl⟩

/-- The log is written in pieces; each goes on from the checksum in the header. -/
theorem foldlM_hashList (h : CoqWord) (pieces : List (List CoqWord)) :
    pieces.foldlM (hashList f) h = hashList f h pieces.flatten := by
  induction pieces generalizing h with
  | nil => rfl
  | cons p pieces ih =>
    rw [List.foldlM_cons, List.flatten_cons, hashList, hashList, List.foldlM_append]
    exact congrArg _ (funext fun h' => ih h')

theorem throughDisk_same {v v' : CoqWord} (hv : v.Valid valulen) (h : throughDisk v = some v') : Same valulen v v' := by
  have h4096 : valulen = 8 * 4096 := rfl
  rw [h4096] at hv ⊢
  obtain ⟨b, hb, hlen, hnum⟩ := w2bs_spec hv
  have hread : (CoqWord.W (bs2i b)).Valid (8 * 4096) := hlen ▸ ⟨bs2i_nonneg b, bs2i_lt b⟩
  cases v with
  | W64 w => cases h
  | W w =>
    have hb' : i2bs w 4096 = some b := hb
    rw [throughDisk, hb'] at h
    cases h
    exact ⟨hv, hread, hnum.symm⟩
  | WBS bs =>
    obtain rfl : bs = b := Option.some.inj hb
    rw [throughDisk, List.take_of_length_le (by omega)] at h
    cases h
    exact ⟨hv, hread, rfl⟩

theorem mapM_throughDisk_same : ∀ {values blocks : List CoqWord}, (∀ v ∈ values, v.Valid valulen) →
    values.mapM throughDisk = some blocks → List.Forall₂ (Same valulen) values blocks
  | [], blocks, _, h => by
    cases h
    exact .nil
  | v :: values, blocks, hv, h => by
    rw [List.mapM_cons] at h
    obtain ⟨v', hv', h⟩ := Option.bind_eq_some_iff.1 h
    obtain ⟨rest, hrest, h⟩ := Option.bind_eq_some_iff.1 h
    cases h
    exact .cons (throughDisk_same (hv v List.mem_cons_self) hv')
      (mapM_throughDisk_same (fun w hw => hv w (List.mem_cons_of_mem _ hw)) hrest)

/-- Below 2^63 bits the checksums do not depend on the representation, `Hash2` is `Hash` of the words put together, and the
checksum of the pieces of a log is the one that recovery computes over the blocks it reads. -/
theorem checksum_repr_independent (hcrc : Incremental f) :
    (∀ sz w w', sz % 8 = 0 → sz < 2 ^ 63 → Same sz w w' → ∃ c, hash f sz w = some c ∧ hash f sz w' = some c) ∧
    (∀ sz1 sz2 w1 w2, sz1 % 8 = 0 → sz2 % 8 = 0 → sz1 < 2 ^ 63 → sz2 < 2 ^ 63 → w1.Valid sz1 → w2.Valid sz2 →
      ∃ w c, combine sz1 w1 sz2 w2 = some w ∧ hash2 f sz1 sz2 w1 w2 = some c ∧ hash f (sz1 + sz2) w = some c) ∧
    ∀ h h' (pieces : List (List CoqWord)) blocks, Same hashlen h h' → (∀ v ∈ pieces.flatten, v.Valid valulen) →
      pieces.flatten.mapM throughDisk = some blocks →
      ∃ c c', pieces.foldlM (hashList f) h = some c ∧ hashList f h' blocks = some c' ∧ weq c c' = true := by
  refine ⟨fun sz w w' h8 hsz h => hash_same h h8 hsz, fun sz1 sz2 w1 w2 h81 h82 hsz1 hsz2 h1 h2 =>
    hash2_eq_hash_combine hcrc h1 h2 h81 h82 hsz1 hsz2, fun h h' pieces blocks hh hv hread => ?_⟩
  obtain ⟨c, c', hc, hc', hsame⟩ := hashList_same (f := f) (mapM_throughDisk_same hv hread) hh
  exact ⟨c, c', by rw [foldlM_hashList, hc], hc', (weq_iff hsame.left hsame.right).2 hsame.number⟩

/-! ### The CRC-32 of the library -/

def crcBit (c : BitVec 32) : BitVec 32 := if c.getLsbD 0 = true then c >>> 1 ^^^ 0xEDB88320#32 else c >>> 1

def crcByte (c : BitVec 32) (b : UInt8) : BitVec 32 := Nat.iterate crcBit 8 (c ^^^ b.toBitVec.setWidth 32)

def crc32 (c : BitVec 32) (bs : Bytes) : BitVec 32 := ~~~ bs.foldl crcByte (~~~ c)

example : crc32 0 [0x31, 0x32, 0x33, 0x34, 0x35, 0x36, 0x37, 0x38, 0x39] = 0xCBF43926#32 := by decide +kernel

theorem incremental_crc32 : Incremental crc32 := fun c a b => by
  rw [crc32, crc32, crc32, List.foldl_append, BitVec.not_not]

theorem checksum_repr_independent_small : ∃ c, hash crc32 64 (.W64 5) = some c ∧ hash crc32 64 (.WBS [5, 0, 0, 0, 0, 0, 0, 0]) = some c :=
  (checksum_repr_independent incremental_crc32).1 64 (.W64 5) (.WBS [5, 0, 0, 0, 0, 0, 0, 0]) rfl (by decide)
    ⟨rfl, rfl, by decide⟩

/-- A width of 2^63 is negative as an `Int`, and nothing can be shifted by it; `Hash2` takes the two words one by one. -/
theorem wide_checksum_fails : ¬ ∀ sz1 sz2 w1 w2, sz1 % 8 = 0 → sz2 % 8 = 0 → w1.Valid sz1 → w2.Valid sz2 →
    hash2 crc32 sz1 sz2 w1 w2 = (combine sz1 w1 sz2 w2).bind (hash crc32 (sz1 + sz2)) := by
  intro h
  have h1 : (CoqWord.W 0).Valid (8 * 2 ^ 60) := ⟨by decide, by positivity⟩
  have h2 : (CoqWord.W 1).Valid (8 * 1) := ⟨by decide, by decide⟩
  have heq := h (8 * 2 ^ 60) (8 * 1) (.W 0) (.W 1) (by decide) (by decide) h1 h2
  have hneg : fromIntegral ((8 * 2 ^ 60 : Nat) : Int) < 0 := by decide
  have hnone : combine (8 * 2 ^ 60) (.W 0) (8 * 1) (.W 1) = none := by
    show combineNum (8 * 2 ^ 60) (.W 0) (.W 1) = none
    rw [combineNum, shiftL, if_neg (by omega)]
    rfl
  obtain ⟨b1, _, _, hb1⟩ := crc32WordUpdate_bytes (f := crc32) h1 (by decide)
  obtain ⟨b2, _, _, hb2⟩ := crc32WordUpdate_bytes (f := crc32) h2 (by decide)
  rw [hnone, hash2, hb1] at heq
  simp only [Option.bind_eq_bind, Option.bind_some, hb2] at heq
  cases heq

end HsWord

end Fscq
