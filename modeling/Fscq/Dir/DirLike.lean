import Fscq.Fs.BFileLike
import Fscq.Dir.DirCache

/-!
# Directory programs from memory states that are alike

A directory program does the same from two memory states that agree with the disk and differ in what is cached. So
`CacheOneDir` can be compared with `SDIR`, one call at a time: it reads the directory less often, and calls `SDIR` with the
hint from the cache when it writes.
-/

namespace Fscq

open TxnLogic
open BFILE (Memstate MsRep Like SameRes)

variable {xp : FsXparams} {n inum dnum : Nat} {d : LDisk} {ms ms' : Memstate} {extra : List Nat}

/-- Two programs that read the value `v` of the disk. -/
theorem agree_reads {α : Type} {p q : TBody (Memstate × α)} {v : α} (hl : Like ms ms')
    (hp : twp n p (fun r d' => FileRecArray.ReadDone xp ms d r.1 d' ∧ r.2 = v) d)
    (hq : twp n q (fun r d' => FileRecArray.ReadDone xp ms' d r.1 d' ∧ r.2 = v) d) :
    Agree (fun r r' d' => d' = d ∧ r.2 = v ∧ r'.2 = v ∧ Like r.1 r'.1 ∧ MsRep xp d r.1 ∧ MsRep xp d r'.1) p q d := by
  obtain ⟨⟨hd, hic, hm⟩, hr⟩ := twp_run hp
  obtain ⟨⟨hd', hic', hm'⟩, hr'⟩ := twp_run hq
  exact ⟨⟨hd, hr, hr', hl.icacheOnly hic hic', hm, hm'⟩, hd'.trans hd.symm⟩

section

variable (hxp : xp.Ok n) (hb : BRep xp d extra) (hm : MsRep xp d ms) (hm' : MsRep xp d ms') (hl : Like ms ms')
include hxp hb hm hm' hl

namespace FileRecArray

variable {R : RASig} (hi : inum < xp.nInodes)
include hi

theorem put_like {ix : Nat} (x : R.Item) (hix : ix < (items R (file xp d inum).data).length) :
    Agree (fun ms ms' _ => Like ms ms') (put R xp inum ix x ms) (put R xp inum ix x ms') d := by
  rw [length_items] at hix
  have hblk : 0 + ix / R.itemsPerVal < (file xp d inum).data.length := by
    rw [Nat.zero_add]
    exact (Nat.div_lt_iff_lt_mul R.itemsPerVal_pos).mpr hix
  refine agree_seq (agree_read (BFILE.read_spec hxp hb hm hi hblk) (BFILE.read_spec hxp hb hm' hi hblk)) ?_
  rintro ⟨ms₁, v⟩ ⟨ms₁', v'⟩ d' ⟨rfl, ⟨hv, hic, hm₁⟩, hv', hic', hm₁'⟩
  obtain rfl : v = v' := Option.some.inj (hv.symm.trans hv')
  exact BFILE.write_like hxp hb hm₁ hm₁' (hl.icacheOnly hic hic') hi hblk _

end FileRecArray

namespace DIR

variable (hi : dnum < xp.nInodes)
include hi

theorem link'_like (name : Filename) (inum : Nat) (isdir : Bool) :
    Agree SameRes (link' xp dnum name inum isdir ms) (link' xp dnum name inum isdir ms') d := by
  refine agree_seq (agree_reads hl (FileRecArray.ifind_spec (R := dentSig) hxp hb hm hi _)
    (FileRecArray.ifind_spec (R := dentSig) hxp hb hm' hi _)) ?_
  rintro ⟨ms₁, _⟩ ⟨ms₁', _⟩ d₁ ⟨rfl, rfl, rfl, hl₁, hm₁, hm₁'⟩
  cases hf : ifindList (fun de _ => !isValid de) (FileRecArray.items dentSig (file xp d₁ dnum).data) 0 with
  | none => exact agree_seq (BFILE.grow_like hxp hm₁ hm₁' hl₁ hi _) fun r r' _ ⟨hr, hl₂⟩ => agree_ret ⟨by rw [hr], hl₂⟩
  | some r =>
    obtain ⟨j, _, hj, _⟩ := ifindList_some hf
    have hix : r.1 < (FileRecArray.items dentSig (file xp d₁ dnum).data).length := by
      have := (List.getElem?_eq_some_iff.mp hj).1
      omega
    exact agree_seq (FileRecArray.put_like hxp hb hm₁ hm₁' hl₁ hi _ hix) fun _ _ _ hl₂ => agree_ret ⟨rfl, hl₂⟩

theorem link_like (name : Filename) (inum : Nat) (isdir : Bool) (ix0 : Nat) :
    Agree SameRes (link xp dnum name inum isdir ix0 ms) (link xp dnum name inum isdir ix0 ms') d := by
  have hlen : ∀ {ms₁ : Memstate}, MsRep xp d ms₁ → twp n (BFILE.getlen xp dnum ms₁)
      (fun r d' => FileRecArray.ReadDone xp ms₁ d r.1 d' ∧ r.2 = (file xp d dnum).data.length) d := fun hm₁ =>
    twp_mono (fun _ _ h => ⟨⟨h.1, h.2.2.1, h.2.2.2⟩, h.2.1⟩) _ (BFILE.getlen_spec hxp hm₁ hi)
  refine agree_seq (agree_reads hl (hlen hm) (hlen hm')) ?_
  rintro ⟨ms₁, _⟩ ⟨ms₁', _⟩ d₁ ⟨rfl, rfl, rfl, hl₁, hm₁, hm₁'⟩
  by_cases hix : ix0 < (file xp d₁ dnum).data.length * dentSig.itemsPerVal
  · have hix' : ix0 < (dents xp d₁ dnum).length := by rwa [dents, FileRecArray.length_items]
    have hget : ∀ {ms₂ : Memstate}, MsRep xp d₁ ms₂ → twp n (FileRecArray.get dentSig xp dnum ix0 ms₂)
        (fun r d' => FileRecArray.ReadDone xp ms₂ d₁ r.1 d' ∧ r.2 = (dents xp d₁ dnum)[ix0]) d₁ := fun hm₂ =>
      twp_mono (fun _ _ h => ⟨h.1, ((List.getElem?_eq_some_iff.mp h.2).2).symm⟩) _
        (FileRecArray.get_spec (R := dentSig) hxp hb hm₂ hi hix')
    simp only [if_pos hix]
    refine agree_seq (agree_reads hl₁ (hget hm₁) (hget hm₁')) ?_
    rintro ⟨ms₂, _⟩ ⟨ms₂', _⟩ d₂ ⟨rfl, rfl, rfl, hl₂, hm₂, hm₂'⟩
    simp only
    cases isValid (dents xp d₂ dnum)[ix0] with
    | true => exact link'_like hxp hb hm₂ hm₂' hl₂ hi name inum isdir
    | false =>
      exact agree_seq (FileRecArray.put_like hxp hb hm₂ hm₂' hl₂ hi _ hix') fun _ _ _ hl₃ => agree_ret ⟨rfl, hl₃⟩
  · simp only [if_neg hix]
    exact link'_like hxp hb hm₁ hm₁' hl₁ hi name inum isdir

theorem unlink_like (name : Filename) : Agree SameRes (unlink xp dnum name ms) (unlink xp dnum name ms') d := by
  refine agree_seq (agree_reads hl (ifindLookupF_spec hxp hb hm hi name) (ifindLookupF_spec hxp hb hm' hi name)) ?_
  rintro ⟨ms₁, _⟩ ⟨ms₁', _⟩ d₁ ⟨rfl, rfl, rfl, hl₁, hm₁, hm₁'⟩
  cases hf : ifindList (lookupF name) (dents xp d₁ dnum) 0 with
  | none => exact agree_ret ⟨rfl, hl₁⟩
  | some r =>
    obtain ⟨j, _, hj, _⟩ := ifindList_some hf
    have hix : r.1 < (dents xp d₁ dnum).length := by
      have := (List.getElem?_eq_some_iff.mp hj).1
      omega
    exact agree_seq (FileRecArray.put_like hxp hb hm₁ hm₁' hl₁ hi _ hix) fun _ _ _ hl₂ => agree_ret ⟨rfl, hl₂⟩

end DIR

namespace SDIR

variable (hi : dnum < xp.nInodes)
include hi

theorem link_like (name : Sname) (inum : Nat) (isdir : Bool) (ix0 : Nat) :
    Agree SameRes (link xp dnum name inum isdir ix0 ms) (link xp dnum name inum isdir ix0 ms') d := by
  unfold link
  split
  · exact DIR.link_like hxp hb hm hm' hl hi _ inum isdir ix0
  · exact agree_ret ⟨rfl, hl⟩

theorem unlink_like (name : Sname) : Agree SameRes (unlink xp dnum name ms) (unlink xp dnum name ms') d := by
  unfold unlink
  split
  · exact DIR.unlink_like hxp hb hm hm' hl hi _
  · exact agree_ret ⟨rfl, hl⟩

end SDIR

end

end Fscq
