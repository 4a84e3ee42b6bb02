import Fscq.Fs.BFileInit

/-!
# File names

A directory stores names as words of `namelen` bytes, first byte lowest, padded with zero bytes; the programs above it use
strings of bytes. A string is valid if it fits and has no zero byte, and then the word gives it back.
-/

namespace Fscq

namespace DIR

def filenameLen : Nat := 1024 - addrlen - addrlen

abbrev Filename : Type := BitVec filenameLen

end DIR

namespace SDIR

def namelen : Nat := DIR.filenameLen / 8

/-- Missing bytes are zero. -/
def string2name' (nbytes : Nat) (s : Sname) : BitVec (nbytes * 8) := Rec.arrayToWord id nbytes s

def name2padstring (nbytes : Nat) (name : BitVec (nbytes * 8)) : Sname := Rec.wordToArray id nbytes name

def stringUnpad : Sname → Sname
  | [] => []
  | a :: s => if a = 0 then [] else a :: stringUnpad s

def sname2wname (s : Sname) : DIR.Filename := string2name' namelen s

def wname2sname (w : DIR.Filename) : Sname := stringUnpad (name2padstring namelen w)

def isNozero : Sname → Bool
  | [] => true
  | c :: s => if c = 0 then false else isNozero s

def isValidSname (s : Sname) : Bool := isNozero s && decide (s.length ≤ namelen)

theorem stringUnpad_append_zero {s : Sname} (hs : isNozero s = true) (k : Nat) :
    stringUnpad (s ++ List.replicate k 0) = s := by
  induction s with
  | nil => cases k <;> simp [stringUnpad, List.replicate_succ]
  | cons c s ih =>
    by_cases hc : c = 0
    · simp [isNozero, hc] at hs
    · simp only [isNozero, hc, if_false] at hs
      rw [List.cons_append, stringUnpad, if_neg hc, ih hs]

theorem name2padstring_string2name {nbytes : Nat} {s : Sname} (hlen : s.length ≤ nbytes) :
    name2padstring nbytes (string2name' nbytes s) = s ++ List.replicate (nbytes - s.length) 0 := by
  have hpad := Rec.arrayToWord_pad (f := (id : BitVec 8 → BitVec 8)) (z := 0) rfl nbytes s (nbytes - s.length)
  rw [name2padstring, string2name', ← hpad]
  refine Rec.wordToArray_arrayToWord ?_ fun _ _ => rfl
  rw [List.length_append, List.length_replicate]
  omega

/-- Valid names come back from the disk as they are. -/
theorem wname2sname_sname2wname {s : Sname} (hs : isValidSname s = true) : wname2sname (sname2wname s) = s := by
  rw [isValidSname, Bool.and_eq_true, decide_eq_true_iff] at hs
  have hpad := name2padstring_string2name hs.2
  rw [wname2sname, sname2wname, hpad, stringUnpad_append_zero hs.1]

theorem sname2wname_inj {s t : Sname} (hs : isValidSname s = true) (ht : isValidSname t = true)
    (h : sname2wname s = sname2wname t) : s = t := by
  rw [← wname2sname_sname2wname hs, ← wname2sname_sname2wname ht, h]

end SDIR

end Fscq
