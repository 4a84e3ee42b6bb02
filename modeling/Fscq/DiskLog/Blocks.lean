import Fscq.DiskLog.Defs

/-!
# The blocks of a log

The header and the records of the log packed into blocks, and back. A log is described by its blocks (`BLog`): the
descriptor blocks and the data blocks that the header counts. Its entries are the nonzero addresses of the descriptor
blocks, each with its data block (`BLog.entries`); packing a list of entries and reading it back drops the entries
with address 0 (`BLog.entries_ofEntries`), and appending blocks appends entries (`BLog.entries_append`).
-/

namespace Fscq

open CrashLogic

/-! ## Records of the log -/

namespace PaddedLog

/-- The addresses in descriptor blocks, and their packing, as words. -/
def unpackDesc (vl : List Valu) : List Waddr := vl.flatMap DescSig.val2block

def packDesc (al : List Waddr) : List Valu := DescSig.nopadIpack al

def unpackData (vl : List Valu) : List Valu := vl.flatMap DataSig.val2block

def packData (vl : List Valu) : List Valu := DataSig.nopadIpack vl

theorem unpackDesc_append (l l' : List Valu) : unpackDesc (l ++ l') = unpackDesc l ++ unpackDesc l' :=
  List.flatMap_append

theorem unpackDesc_packDesc (al : List Waddr) : ∃ n, unpackDesc (packDesc al) = al ++ List.replicate n 0 :=
  ⟨_, DescSig.flatMap_val2block_nopadIpack (l := al) fun _ _ => trivial⟩

theorem length_packDesc (al : List Waddr) : (packDesc al).length = divup al.length DescSig.itemsPerVal :=
  DescSig.length_nopadIpack al

theorem block2val_dataSig (x : Valu) : DataSig.block2val [x] = x := by
  apply BitVec.eq_of_toNat_eq
  exact (DataSig.toNat_block2val [x]).trans (Rec.toNat_arrayToWord_singleton (Rec.toWord DataSig.itemtype) x)

theorem val2block_dataSig (v : Valu) : DataSig.val2block v = [v] := by
  obtain ⟨x, hx⟩ := List.length_eq_one_iff.1 (DataSig.length_val2block v)
  have hv := DataSig.block2val_val2block v
  rw [hx] at hv ⊢
  exact congrArg (fun y => [y]) ((block2val_dataSig x).symm.trans hv)

theorem unpackData_eq (vl : List Valu) : unpackData vl = vl := by
  induction vl with
  | nil => rfl
  | cons v vl ih =>
    have hcons : unpackData (v :: vl) = List.append (DataSig.val2block v) (unpackData vl) := List.flatMap_cons
    rw [hcons, val2block_dataSig, ih]; rfl

theorem packData_eq (vl : List Valu) : packData vl = vl := by
  have hpack : DataSig.nopadIpack (unpackData vl) = vl :=
    (DataSig.ipack_eq_nopadIpack _).symm.trans (DataSig.ipack_flatMap_val2block vl)
  rwa [unpackData_eq] at hpack

end PaddedLog

namespace Hdr

theorem val2hdr_hdr2val (h : Header) : val2hdr (hdr2val h) = h := by
  rw [val2hdr, hdr2val, BitVec.cast_cast, BitVec.cast_eq, split1_zext]
  exact Rec.ofWord_toWord headerType h ⟨trivial, trivial, trivial, trivial, trivial, trivial, trivial⟩

/-- The counts of the header fit in 64 bits. -/
def GoodSize (h : Hdr) : Prop :=
  (h.previousLength.1 < 2 ^ 64 ∧ h.previousLength.2 < 2 ^ 64) ∧ h.currentLength.1 < 2 ^ 64 ∧ h.currentLength.2 < 2 ^ 64

theorem ofHeader_mkHeader {h : Hdr} (hg : h.GoodSize) : ofHeader (mkHeader h) = h := by
  obtain ⟨⟨h₁, h₂⟩, h₃, h₄⟩ := hg
  simp only [ofHeader, mkHeader, toNat_ofNat_of_lt h₁, toNat_ofNat_of_lt h₂, toNat_ofNat_of_lt h₃,
    toNat_ofNat_of_lt h₄]

end Hdr

/-! ## Entries -/

namespace PaddedLog

theorem logNonzero_eq_self {log : Contents} (hv : ∀ e ∈ log, e.1 ≠ 0) : logNonzero log = log := by
  induction log with
  | nil => rfl
  | cons x log ih =>
    obtain ⟨_ | a, v⟩ := x
    · exact absurd rfl (hv _ List.mem_cons_self)
    · rw [logNonzero, ih fun e he => hv e (List.mem_cons_of_mem _ he)]

theorem valsNonzero_eq_map {log : Contents} (hv : ∀ e ∈ log, e.1 ≠ 0) : valsNonzero log = log.map entValu := by
  rw [valsNonzero, logNonzero_eq_self hv]

theorem nonzeroAddrs_append (l l' : List Nat) : nonzeroAddrs (l ++ l') = nonzeroAddrs l + nonzeroAddrs l' := by
  induction l with
  | nil => simp [nonzeroAddrs]
  | cons a l ih => cases a <;> simp [nonzeroAddrs, ih, Nat.add_right_comm]

theorem nonzeroAddrs_replicate (n : Nat) : nonzeroAddrs (List.replicate n 0) = 0 := by
  induction n with
  | zero => rfl
  | succ n ih => rw [List.replicate_succ, nonzeroAddrs, ih]

theorem ndataLog_eq_length (log : Contents) : ndataLog log = (logNonzero log).length := by
  rw [ndataLog]
  induction log with
  | nil => rfl
  | cons x log ih =>
    obtain ⟨_ | a, v⟩ := x
    · exact ih
    · rw [List.map_cons, nonzeroAddrs, ih]; rfl

theorem combineNonzero_nil (al : List Nat) : combineNonzero al [] = [] := by
  cases al with
  | nil => rfl
  | cons a al => cases a <;> rfl

theorem combineNonzero_append : ∀ (al al' : List Nat) (vl vl' : List Valu), vl.length = nonzeroAddrs al →
    combineNonzero (al ++ al') (vl ++ vl') = combineNonzero al vl ++ combineNonzero al' vl'
  | [], al', vl, vl', hlen => by
    rw [List.length_eq_zero_iff.1 hlen]; rfl
  | 0 :: al, al', [], vl', hlen => by
    have ih := combineNonzero_append al al' [] vl' hlen
    rw [combineNonzero_nil, List.nil_append, List.nil_append] at ih ⊢
    rw [← ih]
    cases vl' with
    | nil => rw [combineNonzero_nil, combineNonzero_nil]
    | cons v vl' => rfl
  | 0 :: al, al', v :: vl, vl', hlen => combineNonzero_append al al' (v :: vl) vl' hlen
  | (a + 1) :: al, al', v :: vl, vl', hlen => by
    have ih := combineNonzero_append al al' vl vl' (Nat.succ.inj hlen)
    show (a + 1, v) :: combineNonzero (al ++ al') (vl ++ vl') = _
    rw [ih]; rfl

/-- Combining the addresses and the values of a log gives its entries without the padding. -/
theorem combineNonzero_logNonzero (log : Contents) :
    combineNonzero (log.map Prod.fst) (valsNonzero log) = logNonzero log := by
  induction log with
  | nil => rfl
  | cons x log ih =>
    obtain ⟨_ | a, v⟩ := x
    · refine Eq.trans ?_ ih
      show combineNonzero (0 :: log.map Prod.fst) (valsNonzero log) = _
      cases valsNonzero log with
      | nil => rw [combineNonzero_nil, combineNonzero_nil]
      | cons v vl => rfl
    · show (a + 1, v) :: combineNonzero (log.map Prod.fst) (valsNonzero log) = _
      rw [ih]; rfl

theorem combineNonzero_pad (al : List Nat) (n : Nat) {vl : List Valu} (hlen : vl.length = nonzeroAddrs al) :
    combineNonzero (al ++ List.replicate n 0) vl = combineNonzero al vl := by
  have happ := combineNonzero_append al (List.replicate n 0) vl [] hlen
  rwa [List.append_nil, combineNonzero_nil, List.append_nil] at happ

end PaddedLog

/-! ## Logs as blocks -/

/-- The blocks of a log. -/
structure BLog where
  desc : List Valu
  data : List Valu

namespace BLog

open PaddedLog

/-- The addresses in the descriptor blocks, padding included. -/
def addrs (desc : List Valu) : List Nat := (unpackDesc desc).map BitVec.toNat

def entries (L : BLog) : Contents := combineNonzero (addrs L.desc) L.data

/-- Every nonzero address has its data block. -/
def Matched (L : BLog) : Prop := L.data.length = nonzeroAddrs (addrs L.desc)

def empty : BLog := ⟨[], []⟩

/-- The blocks of a list of entries. -/
def ofEntries (log : Contents) : BLog := ⟨packDesc (log.map entAddr), valsNonzero log⟩

def append (L L' : BLog) : BLog := ⟨L.desc ++ L'.desc, L.data ++ L'.data⟩

theorem append_cancel_left {L L' L'' : BLog} (h : L.append L' = L.append L'') : L' = L'' := by
  obtain ⟨h₁, h₂⟩ := BLog.mk.inj h
  cases L'; cases L''
  exact congrArg₂ BLog.mk (List.append_cancel_left h₁) (List.append_cancel_left h₂)

theorem addrs_append (l l' : List Valu) : addrs (l ++ l') = addrs l ++ addrs l' := by
  rw [addrs, unpackDesc_append, List.map_append]; rfl

theorem Matched.append {L L' : BLog} (hL : L.Matched) (hL' : L'.Matched) : (L.append L').Matched := by
  unfold Matched at *
  show (L.data ++ L'.data).length = nonzeroAddrs (addrs (L.desc ++ L'.desc))
  rw [List.length_append, addrs_append, nonzeroAddrs_append, hL, hL']

theorem entries_append {L : BLog} (hL : L.Matched) (L' : BLog) : (L.append L').entries = L.entries ++ L'.entries := by
  show combineNonzero (addrs (L.desc ++ L'.desc)) (L.data ++ L'.data) = _
  rw [addrs_append, combineNonzero_append _ _ _ _ hL]; rfl

theorem map_toNat_entAddr {log : Contents} (hv : ∀ e ∈ log, AddrValid e) :
    (log.map entAddr).map BitVec.toNat = log.map Prod.fst := by
  rw [List.map_map]
  exact List.map_congr_left fun e he => toNat_ofNat_of_lt (hv e he)

theorem addrs_ofEntries {log : Contents} (hv : ∀ e ∈ log, AddrValid e) :
    ∃ n, addrs (ofEntries log).desc = log.map Prod.fst ++ List.replicate n 0 := by
  obtain ⟨n, hn⟩ := unpackDesc_packDesc (log.map entAddr)
  refine ⟨n, ?_⟩
  show (unpackDesc (packDesc (log.map entAddr))).map BitVec.toNat = _
  rw [hn, List.map_append, map_toNat_entAddr hv, List.map_replicate]
  rfl

theorem matched_ofEntries {log : Contents} (hv : ∀ e ∈ log, AddrValid e) : (ofEntries log).Matched := by
  obtain ⟨n, hn⟩ := addrs_ofEntries hv
  rw [Matched, hn, nonzeroAddrs_append, nonzeroAddrs_replicate]
  show ((logNonzero log).map entValu).length = ndataLog log
  rw [List.length_map, ndataLog_eq_length]

theorem entries_ofEntries {log : Contents} (hv : ∀ e ∈ log, AddrValid e) : (ofEntries log).entries = logNonzero log := by
  obtain ⟨n, hn⟩ := addrs_ofEntries hv
  have hm := matched_ofEntries hv
  rw [Matched, hn, nonzeroAddrs_append, nonzeroAddrs_replicate, Nat.add_zero] at hm
  rw [entries, hn, combineNonzero_pad _ _ hm]
  exact combineNonzero_logNonzero log

theorem length_desc_ofEntries (log : Contents) : (ofEntries log).desc.length = ndescLog log := by
  show (packDesc (log.map entAddr)).length = _
  rw [length_packDesc, List.length_map]; rfl

theorem length_data_ofEntries (log : Contents) : (ofEntries log).data.length = ndataLog log := by
  show ((logNonzero log).map entValu).length = _
  rw [List.length_map, ndataLog_eq_length]

theorem ofEntries_nil : ofEntries [] = empty := by
  have hlen : (packDesc []).length = 0 := (length_packDesc []).trans (divup_zero DescSig.itemsPerVal_pos)
  show BLog.mk (packDesc []) [] = ⟨[], []⟩
  rw [List.length_eq_zero_iff.1 hlen]

theorem entries_empty : empty.entries = [] := rfl

theorem matched_empty : empty.Matched := rfl

end BLog

end Fscq
