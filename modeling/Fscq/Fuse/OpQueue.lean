import Mathlib.Algebra.Group.Int.Defs
import Mathlib.Algebra.Group.Nat.Defs
import Mathlib.Data.List.Basic
import Mathlib.Logic.Function.Basic
import Mathlib.Tactic.Common

/-!
# The queue of operations between FUSE and the file system

Threads of FUSE put operations into a ring of 256 slots (`execute`) and wait; the threads of the file system take them out
(`get_op`) and answer (`send_result`). The critical sections are atomic steps, and a run is any interleaving of the steps
of any number of threads. The counters `puts` and `gets` are C `int`s that only grow, and both the guard of `get_op` and
the index of a slot are computed from their signed values: everything is as it should be as long as fewer than 2^31
operations were enqueued, and the queue is stuck from then on (`queue_correct_iff`).
-/

namespace Fscq.OpQueue

/-- A C `int`, with arithmetic that wraps around. -/
abbrev CInt := BitVec 32

def queueMaxSize : Int := 256

variable {P C O : Type}

/-! ## States and steps -/

/-- The ring. Slots 0, ..., 255 are the array `q.ops`; any other index is outside of it. -/
structure Queue (O : Type) where
  ops : Int → Option O
  puts : CInt
  gets : CInt

/-- The guard of `get_op`: `q.puts <= q.gets`. -/
def Queue.isEmpty (q : Queue O) : Bool := decide (q.puts.toInt ≤ q.gets.toInt)

/-- The guard of `execute`: `q.puts - q.gets >= QUEUE_MAX_SIZE`. -/
def Queue.isFull (q : Queue O) : Bool := decide ((q.puts - q.gets).toInt ≥ queueMaxSize)

/-- `counter % QUEUE_MAX_SIZE`; the remainder has the sign of the counter. -/
def slot (counter : CInt) : Int := counter.toInt.tmod queueMaxSize

def Queue.put (q : Queue O) (o : O) : Queue O :=
  { q with ops := Function.update q.ops (slot q.puts) (some o), puts := q.puts + 1 }

def Queue.head (q : Queue O) : Option O := q.ops (slot q.gets)

def Queue.pop (q : Queue O) : Queue O := { q with gets := q.gets + 1 }

/-- Where a thread is in `execute`. -/
inductive Producer (O : Type) : Type
  | idle
  | started (o : O)
  | waiting (o : O)

/-- A thread of the file system, and the operation it took from the queue. -/
inductive Consumer (O : Type) : Type
  | idle
  | serving (o : Option O)

structure State (P C O : Type) where
  q : Queue O
  done : O → Bool
  /-- `op->err` is an `int64_t`. -/
  err : O → BitVec 64
  producer : P → Producer O
  consumer : C → Consumer O

/-- What a step does, with the thread and the operation. -/
inductive Event (P C O : Type) : Type
  | began (p : P) (o : O)
  | enqueued (p : P) (o : O)
  | got (c : C) (o : Option O)
  | sent (c : C) (o : O) (err : CInt)
  | returned (p : P) (o : O) (err : CInt)

/-- The thread is between the call of `execute` with `o` and its return. -/
def State.Uses (s : State P C O) (p : P) (o : O) : Prop := s.producer p = .started o ∨ s.producer p = .waiting o

section Step

variable [DecidableEq P] [DecidableEq C] [DecidableEq O]

/-- The steps. Callers of `execute` have the operation on their stack, so no two of them use the same one. -/
inductive Step : State P C O → Event P C O → State P C O → Prop
  | began (s p o) : s.producer p = .idle → (∀ p', ¬ s.Uses p' o) →
      Step s (.began p o) { s with done := Function.update s.done o false
                                   producer := Function.update s.producer p (.started o) }
  | enqueued (s p o) : s.producer p = .started o → s.q.isFull = false →
      Step s (.enqueued p o) { s with q := s.q.put o, producer := Function.update s.producer p (.waiting o) }
  | got (s c) : s.consumer c = .idle → s.q.isEmpty = false →
      Step s (.got c s.q.head) { s with q := s.q.pop, consumer := Function.update s.consumer c (.serving s.q.head) }
  | sent (s c o e) : s.consumer c = .serving (some o) →
      Step s (.sent c o e) { s with err := Function.update s.err o (e.signExtend 64)
                                    done := Function.update s.done o true
                                    consumer := Function.update s.consumer c .idle }
  | returned (s p o) : s.producer p = .waiting o → s.done o = true →
      Step s (.returned p o ((s.err o).setWidth 32)) { s with producer := Function.update s.producer p .idle }

/-- The queue before the first operation; static memory is zero. -/
def State.init : State P C O :=
  ⟨⟨fun _ => none, 0, 0⟩, fun _ => false, fun _ => 0, fun _ => .idle, fun _ => .idle⟩

/-- Runs, with their events from the first to the last. -/
inductive Run : List (Event P C O) → State P C O → Prop
  | init : Run [] State.init
  | step {t s e s'} : Run t s → Step s e s' → Run (t ++ [e]) s'

end Step

/-! ## What a run did -/

/-- The operations in the order of their enqueueing. -/
def enqueuedOps (t : List (Event P C O)) : List O :=
  t.filterMap fun
    | .enqueued _ o => some o
    | _ => none

/-- The operations in the order `get_op` returned them. -/
def gottenOps (t : List (Event P C O)) : List (Option O) :=
  t.filterMap fun
    | .got _ o => some o
    | _ => none

/-- The step is one of the producer `p`. -/
def Event.By [DecidableEq P] (p : P) : Event P C O → Bool
  | .began p' _ => p' = p
  | .enqueued p' _ => p' = p
  | .returned p' _ _ => p' = p
  | _ => false

/-- The step is about the operation `o`. -/
def Event.About [DecidableEq O] (o : O) : Event P C O → Bool
  | .began _ o' => o' = o
  | .enqueued _ o' => o' = o
  | .got _ o' => o' = some o
  | .sent _ o' _ => o' = o
  | .returned _ o' _ => o' = o

/-- The steps of others since the last one of `p`. -/
def since [DecidableEq P] (p : P) (t : List (Event P C O)) : List (Event P C O) :=
  (t.reverse.takeWhile fun e => !e.By p).reverse

/-- What happened to `o` since the last step of `p`. -/
def story [DecidableEq P] [DecidableEq O] (p : P) (o : O) (t : List (Event P C O)) : List (Event P C O) :=
  (since p t).filter (Event.About o)

section Traces

variable (t : List (Event P C O)) (e : Event P C O)

@[simp] theorem enqueuedOps_append (t' : List (Event P C O)) : enqueuedOps (t ++ t') = enqueuedOps t ++ enqueuedOps t' :=
  List.filterMap_append

@[simp] theorem gottenOps_append (t' : List (Event P C O)) : gottenOps (t ++ t') = gottenOps t ++ gottenOps t' :=
  List.filterMap_append

theorem since_by [DecidableEq P] {p : P} (h : e.By p = true) : since p (t ++ [e]) = [] := by
  simp [since, h]

theorem since_other [DecidableEq P] {p : P} (h : e.By p = false) : since p (t ++ [e]) = since p t ++ [e] := by
  simp [since, h]

theorem story_by [DecidableEq P] [DecidableEq O] {p : P} {o : O} (h : e.By p = true) : story p o (t ++ [e]) = [] := by
  simp [story, since_by t e h]

theorem story_other [DecidableEq P] [DecidableEq O] {p : P} {o : O} (h : e.By p = false) :
    story p o (t ++ [e]) = story p o t ++ [e].filter (Event.About o) := by
  simp [story, since_other t e h]

end Traces

/-! ## Counters -/

theorem toInt_small {m : Nat} (h : m < 2 ^ 31) : (BitVec.ofNat 32 m).toInt = m := by
  rw [BitVec.toInt_eq_toNat_cond, BitVec.toNat_ofNat]
  omega

theorem toInt_wrapped {m : Nat} (h : 2 ^ 31 ≤ m) (h' : m < 2 ^ 32) : (BitVec.ofNat 32 m).toInt < 0 := by
  rw [BitVec.toInt_eq_toNat_cond, BitVec.toNat_ofNat]
  omega

theorem toInt_sub {m k : Nat} (h : k ≤ m) (h' : m ≤ k + 256) :
    (BitVec.ofNat 32 m - BitVec.ofNat 32 k).toInt = ((m - k : Nat) : Int) := by
  rw [BitVec.toInt_eq_toNat_cond, BitVec.toNat_sub, BitVec.toNat_ofNat, BitVec.toNat_ofNat]
  omega

theorem slot_small {m : Nat} (h : m < 2 ^ 31) : slot (BitVec.ofNat 32 m) = ((m % 256 : Nat) : Int) := by
  rw [slot, toInt_small h, queueMaxSize]
  exact (Int.ofNat_tmod m 256).symm

theorem ofNat_succ (m : Nat) : BitVec.ofNat 32 m + 1 = BitVec.ofNat 32 (m + 1) := by
  apply BitVec.eq_of_toNat_eq
  simp

section Counts

variable {t : List (Event P C O)} {s s' : State P C O} {e : Event P C O}

/-- The counters of a state, in any run: they count modulo 2^32, and the ring is never overfull. -/
structure Counts (t : List (Event P C O)) (s : State P C O) : Prop where
  puts : s.q.puts = BitVec.ofNat 32 (enqueuedOps t).length
  gets : s.q.gets = BitVec.ofNat 32 (gottenOps t).length
  le : (gottenOps t).length ≤ (enqueuedOps t).length
  room : (enqueuedOps t).length ≤ (gottenOps t).length + 256
  /-- No `int` is greater than the largest one, so `gets` never gets past it. -/
  gets_lt : (gottenOps t).length < 2 ^ 31

theorem Counts.isFull (hc : Counts t s) :
    s.q.isFull = decide ((enqueuedOps t).length = (gottenOps t).length + 256) := by
  have hle := hc.le
  have hroom := hc.room
  rw [Queue.isFull, hc.puts, hc.gets, toInt_sub hle hroom, queueMaxSize, decide_eq_decide]
  omega

theorem Counts.isEmpty (hc : Counts t s) (hlt : (enqueuedOps t).length < 2 ^ 31) :
    s.q.isEmpty = decide ((enqueuedOps t).length = (gottenOps t).length) := by
  have hle := hc.le
  rw [Queue.isEmpty, hc.puts, hc.gets, toInt_small hlt, toInt_small hc.gets_lt, decide_eq_decide]
  omega

/-- When `puts` has wrapped around, `get_op` takes the queue for empty. -/
theorem Counts.isEmpty_wrapped (hc : Counts t s) (hge : 2 ^ 31 ≤ (enqueuedOps t).length) : s.q.isEmpty = true := by
  have hroom := hc.room
  have hlt := hc.gets_lt
  have hneg := toInt_wrapped hge (by omega)
  rw [Queue.isEmpty, hc.puts, hc.gets, toInt_small hlt, decide_eq_true_iff]
  omega

variable [DecidableEq P] [DecidableEq C] [DecidableEq O]

theorem Counts.step (hc : Counts t s) (hs : Step s e s') : Counts (t ++ [e]) s' := by
  have hle := hc.le
  have hroom := hc.room
  have hlt := hc.gets_lt
  cases hs with
  | enqueued p o _ hfull =>
    rw [hc.isFull, decide_eq_false_iff_not] at hfull
    refine ⟨?_, ?_, ?_, ?_, ?_⟩ <;> simp only [enqueuedOps_append, gottenOps_append, List.length_append]
    · exact (congrArg (· + 1) hc.puts).trans (ofNat_succ _)
    · exact hc.gets
    · exact Nat.le_add_right_of_le hle
    · change (enqueuedOps t).length + 1 ≤ (gottenOps t).length + 0 + 256
      omega
    · exact hlt
  | got c _ hempty =>
    have hsmall : (enqueuedOps t).length < 2 ^ 31 := by
      by_contra hge
      rw [hc.isEmpty_wrapped (by omega)] at hempty
      cases hempty
    rw [hc.isEmpty hsmall, decide_eq_false_iff_not] at hempty
    refine ⟨?_, ?_, ?_, ?_, ?_⟩ <;> simp only [enqueuedOps_append, gottenOps_append, List.length_append]
    · exact hc.puts
    · exact (congrArg (· + 1) hc.gets).trans (ofNat_succ _)
    · change (gottenOps t).length + 1 ≤ (enqueuedOps t).length + 0
      omega
    · change (enqueuedOps t).length + 0 ≤ (gottenOps t).length + 1 + 256
      omega
    · change (gottenOps t).length + 1 < 2 ^ 31
      omega
  | _ =>
    refine ⟨?_, ?_, ?_, ?_, ?_⟩ <;> simp only [enqueuedOps_append, gottenOps_append, List.length_append]
    · exact hc.puts
    · exact hc.gets
    · exact hle
    · exact hroom
    · exact hlt

theorem Run.counts (hr : Run t s) : Counts t s := by
  induction hr with
  | init => exact ⟨rfl, rfl, Nat.le_refl _, Nat.zero_le _, Nat.two_pow_pos 31⟩
  | step _ hs ih => exact ih.step hs

end Counts

/-! ## The operations in the queue -/

section Fifo

variable {t : List (Event P C O)} {s s' : State P C O} {e : Event P C O}

/-- The operations that are enqueued and not yet returned by `get_op`, oldest first. -/
def pending (t : List (Event P C O)) : List O := (enqueuedOps t).drop (gottenOps t).length

/-- The ring holds the pending operations, and they are returned in order. -/
structure Fifo (t : List (Event P C O)) (s : State P C O) : Prop where
  order : gottenOps t = ((enqueuedOps t).take (gottenOps t).length).map some
  slots : ∀ k, (gottenOps t).length ≤ k → k < (enqueuedOps t).length →
    s.q.ops ((k % 256 : Nat) : Int) = (enqueuedOps t)[k]?

theorem Fifo.head (hf : Fifo t s) (hc : Counts t s) (hlt : (enqueuedOps t).length < 2 ^ 31) (hne : s.q.isEmpty = false) :
    ∃ o rest, s.q.head = some o ∧ pending t = o :: rest := by
  rw [hc.isEmpty hlt, decide_eq_false_iff_not] at hne
  have hle := hc.le
  have hk : (gottenOps t).length < (enqueuedOps t).length := by omega
  refine ⟨(enqueuedOps t)[(gottenOps t).length], (enqueuedOps t).drop ((gottenOps t).length + 1), ?_, ?_⟩
  · rw [Queue.head, hc.gets, slot_small hc.gets_lt, hf.slots _ (Nat.le_refl _) hk, List.getElem?_eq_getElem hk]
  · exact List.drop_eq_getElem_cons hk

/-- Steps that do not touch the queue. -/
theorem Fifo.keep (hf : Fifo t s) (henq : enqueuedOps [e] = []) (hgot : gottenOps [e] = []) (hops : s'.q.ops = s.q.ops) :
    Fifo (t ++ [e]) s' := by
  have henq' : enqueuedOps (t ++ [e]) = enqueuedOps t := by rw [enqueuedOps_append, henq, List.append_nil]
  have hgot' : gottenOps (t ++ [e]) = gottenOps t := by rw [gottenOps_append, hgot, List.append_nil]
  refine ⟨by rw [henq', hgot']; exact hf.order, fun k hk hk' => ?_⟩
  rw [hops, henq']
  exact hf.slots k (hgot' ▸ hk) (henq' ▸ hk')

theorem pending_keep (henq : enqueuedOps [e] = []) (hgot : gottenOps [e] = []) : pending (t ++ [e]) = pending t := by
  rw [pending, enqueuedOps_append, gottenOps_append, henq, hgot, List.append_nil, List.append_nil, pending]

theorem Counts.pending_enqueued (hc : Counts t s) (p : P) (o : O) :
    pending (t ++ [.enqueued p o]) = pending t ++ [o] := by
  have hgot : gottenOps (t ++ [.enqueued p o]) = gottenOps t := by rw [gottenOps_append]; exact List.append_nil _
  rw [pending, hgot, enqueuedOps_append, List.drop_append_of_le_length hc.le]
  rfl

theorem pending_got {o : O} {rest : List O} (hp : pending t = o :: rest) (c : C) (x : Option O) :
    pending (t ++ [.got c x]) = rest := by
  have henq : enqueuedOps (t ++ [.got c x]) = enqueuedOps t := by rw [enqueuedOps_append]; exact List.append_nil _
  have hgot : (gottenOps (t ++ [.got c x])).length = (gottenOps t).length + 1 := by rw [gottenOps_append]; simp [gottenOps]
  have htail := congrArg List.tail hp
  rw [pending, List.tail_drop] at htail
  rw [pending, henq, hgot]
  exact htail

variable [DecidableEq P] [DecidableEq C] [DecidableEq O]

theorem Fifo.step (hf : Fifo t s) (hc : Counts t s) (hs : Step s e s') (hlt : (enqueuedOps (t ++ [e])).length < 2 ^ 31) :
    Fifo (t ++ [e]) s' := by
  have hle := hc.le
  have hroom := hc.room
  cases hs with
  | enqueued p o _ hfull =>
    rw [hc.isFull, decide_eq_false_iff_not] at hfull
    have henq : enqueuedOps (t ++ [.enqueued p o]) = enqueuedOps t ++ [o] := enqueuedOps_append _ _
    have hgot : gottenOps (t ++ [.enqueued p o]) = gottenOps t := by rw [gottenOps_append]; exact List.append_nil _
    rw [henq, List.length_append, List.length_singleton] at hlt
    refine ⟨?_, fun k hk hk' => ?_⟩
    · rw [henq, hgot, List.take_append_of_le_length hle]
      exact hf.order
    · rw [hgot] at hk
      rw [henq, List.length_append, List.length_singleton] at hk'
      simp only [Queue.put, hc.puts]
      rw [slot_small (by omega), henq]
      by_cases he : k = (enqueuedOps t).length
      · subst he
        rw [Function.update_self, List.getElem?_append_right (Nat.le_refl _), Nat.sub_self]
        rfl
      · have hne : ((k % 256 : Nat) : Int) ≠ (((enqueuedOps t).length % 256 : Nat) : Int) := by omega
        rw [Function.update_of_ne hne, List.getElem?_append_left (by omega)]
        exact hf.slots k hk (by omega)
  | got c _ hempty =>
    have henq : enqueuedOps (t ++ [.got c s.q.head]) = enqueuedOps t := by rw [enqueuedOps_append]; exact List.append_nil _
    have hgot : gottenOps (t ++ [.got c s.q.head]) = gottenOps t ++ [s.q.head] := gottenOps_append _ _
    rw [henq] at hlt
    obtain ⟨o, rest, hhead, hpend⟩ := hf.head hc hlt hempty
    refine ⟨?_, fun k hk hk' => ?_⟩
    · rw [henq, hgot, List.length_append, List.length_singleton, List.take_add_one, List.map_append, ← hf.order, hhead]
      have ho : (enqueuedOps t)[(gottenOps t).length]? = some o := by
        rw [← List.head?_drop]
        exact congrArg List.head? hpend
      rw [ho]
      rfl
    · rw [hgot, List.length_append, List.length_singleton] at hk
      rw [henq] at hk' ⊢
      exact hf.slots k (by omega) hk'
  | began p o _ _ => exact hf.keep rfl rfl rfl
  | sent c o x _ => exact hf.keep rfl rfl rfl
  | returned p o _ _ => exact hf.keep rfl rfl rfl

end Fifo

/-! ## The answers -/

section Served

variable [DecidableEq P] [DecidableEq C] [DecidableEq O] {t : List (Event P C O)} {s s' : State P C O} {e : Event P C O}

/-- Where the operation of a waiting thread is: in the queue, with a thread of the file system, or answered. -/
inductive Stage (t : List (Event P C O)) (s : State P C O) (p : P) (o : O) : Prop
  | queued : o ∈ pending t → s.done o = false → story p o t = [] → Stage t s p o
  | served (c : C) : s.consumer c = .serving (some o) → s.done o = false → story p o t = [.got c (some o)] → Stage t s p o
  | answered (c : C) (e : CInt) : s.done o = true → s.err o = e.signExtend 64 →
      story p o t = [.got c (some o), .sent c o e] → o ∉ pending t → (∀ c', s.consumer c' ≠ .serving (some o)) →
      Stage t s p o

structure Served (t : List (Event P C O)) (s : State P C O) : Prop where
  own : ∀ p p' o, s.Uses p o → s.Uses p' o → p = p'
  nodup : (pending t).Nodup
  fresh : ∀ p o, s.producer p = .started o → s.done o = false
  waits : ∀ o ∈ pending t, ∃ p, s.producer p = .waiting o
  serves : ∀ c x, s.consumer c = .serving x → ∃ o p, x = some o ∧ s.producer p = .waiting o ∧ o ∉ pending t
  one : ∀ c c' x, s.consumer c = .serving x → s.consumer c' = .serving x → c = c'
  stage : ∀ p o, s.producer p = .waiting o → Stage t s p o

omit [DecidableEq C] in
theorem served_init : Served ([] : List (Event P C O)) State.init where
  own _ _ _ h _ := by rcases h with h | h <;> cases h
  nodup := List.nodup_nil
  fresh _ _ h := nomatch h
  waits _ h := absurd h List.not_mem_nil
  serves _ _ h := nomatch h
  one _ _ _ h _ := nomatch h
  stage _ _ h := nomatch h

omit [DecidableEq C] in
/-- Steps of other threads about other operations. -/
theorem story_keep {p : P} {o : O} (hby : e.By p = false) (habout : e.About o = false) :
    story p o (t ++ [e]) = story p o t := by
  rw [story_other t e hby]
  simp [habout]

omit [DecidableEq C] in
/-- A step that does not concern the operation of a waiting thread. -/
theorem Stage.keep {p : P} {o : O} (hst : Stage t s p o) (hstory : story p o (t ++ [e]) = story p o t)
    (hpend : o ∈ pending (t ++ [e]) ↔ o ∈ pending t) (hdone : s'.done o = s.done o) (herr : s'.err o = s.err o)
    (hcons : ∀ c, s'.consumer c = .serving (some o) ↔ s.consumer c = .serving (some o)) : Stage (t ++ [e]) s' p o := by
  cases hst with
  | queued hp hd hs => exact .queued (hpend.2 hp) (hdone.trans hd) (hstory.trans hs)
  | served c hc hd hs => exact .served c ((hcons c).2 hc) (hdone.trans hd) (hstory.trans hs)
  | answered c x hd he hs hp hc =>
    exact .answered c x (hdone.trans hd) (herr.trans he) (hstory.trans hs) (fun h => hp (hpend.1 h))
      fun c' h => hc c' ((hcons c').1 h)

theorem Served.began (hv : Served t s) {p : P} {o : O} (hidle : s.producer p = .idle) (hfree : ∀ p', ¬ s.Uses p' o)
    (hs : Step s (.began p o) s') : Served (t ++ [.began p o]) s' := by
  cases hs with | began _ _ _ _ =>
  have hpend : pending (t ++ [.began p o]) = pending t := pending_keep rfl rfl
  have hsame : ∀ {p' : P} {o' : O}, s.producer p' = .waiting o' →
      Function.update s.producer p (.started o) p' = .waiting o' ∧ p' ≠ p ∧ o' ≠ o := fun {p' o'} h => by
    have hp : p' ≠ p := by
      rintro rfl
      rw [hidle] at h
      cases h
    refine ⟨by rw [Function.update_of_ne hp]; exact h, hp, ?_⟩
    rintro rfl
    exact hfree p' (.inr h)
  have hback : ∀ {p' : P} {o' : O}, Function.update s.producer p (.started o) p' = .waiting o' →
      s.producer p' = .waiting o' := fun {p' o'} h => by
    by_cases hp : p' = p
    · subst hp
      rw [Function.update_self] at h
      cases h
    · rwa [Function.update_of_ne hp] at h
  refine ⟨fun p₁ p₂ o' h₁ h₂ => ?_, hpend ▸ hv.nodup, fun p' o' h => ?_, fun o' ho' => ?_, fun c x hx => ?_, hv.one,
    fun p' o' h => ?_⟩
  · simp only [State.Uses] at h₁ h₂
    by_cases hp₁ : p₁ = p
    · by_cases hp₂ : p₂ = p
      · rw [hp₁, hp₂]
      · rw [hp₁, Function.update_self] at h₁
        rw [Function.update_of_ne hp₂] at h₂
        simp only [Producer.started.injEq, reduceCtorEq, or_false] at h₁
        exact absurd (h₁ ▸ h₂) (hfree p₂)
    · rw [Function.update_of_ne hp₁] at h₁
      by_cases hp₂ : p₂ = p
      · rw [hp₂, Function.update_self] at h₂
        simp only [Producer.started.injEq, reduceCtorEq, or_false] at h₂
        exact absurd (h₂ ▸ h₁) (hfree p₁)
      · rw [Function.update_of_ne hp₂] at h₂
        exact hv.own _ _ _ h₁ h₂
  · simp only at h ⊢
    by_cases ho : o' = o
    · rw [ho, Function.update_self]
    · have hp : p' ≠ p := by
        rintro rfl
        rw [Function.update_self] at h
        exact ho (by injection h with h; exact h.symm)
      rw [Function.update_of_ne hp] at h
      rw [Function.update_of_ne ho]
      exact hv.fresh p' o' h
  · rw [hpend] at ho'
    obtain ⟨p', hp'⟩ := hv.waits o' ho'
    exact ⟨p', (hsame hp').1⟩
  · obtain ⟨o', p', rfl, hp', hn⟩ := hv.serves c x hx
    exact ⟨o', p', rfl, (hsame hp').1, hpend ▸ hn⟩
  · have h' := hback h
    obtain ⟨_, hp, ho⟩ := hsame h'
    refine (hv.stage p' o' h').keep (story_keep ?_ ?_) (by rw [hpend]) (Function.update_of_ne ho _ _) rfl fun _ => Iff.rfl
    · simp [Event.By, hp.symm]
    · simp [Event.About, Ne.symm ho]

theorem Served.enqueued (hv : Served t s) (hc : Counts t s) {p : P} {o : O} (hstart : s.producer p = .started o)
    (hs : Step s (.enqueued p o) s') : Served (t ++ [.enqueued p o]) s' := by
  cases hs with | enqueued _ _ _ _ =>
  have hpend := hc.pending_enqueued p o
  have hsame : ∀ {p' : P} {o' : O}, s.producer p' = .waiting o' →
      Function.update s.producer p (.waiting o) p' = .waiting o' ∧ p' ≠ p ∧ o' ≠ o := fun {p' o'} h => by
    have hp : p' ≠ p := by
      rintro rfl
      rw [hstart] at h
      cases h
    refine ⟨by rw [Function.update_of_ne hp]; exact h, hp, ?_⟩
    rintro rfl
    exact hp (hv.own _ _ _ (.inr h) (.inl hstart))
  have hnew : o ∉ pending t := fun h => by
    obtain ⟨p', hp'⟩ := hv.waits o h
    exact (hsame hp').2.2 rfl
  have huses : ∀ {p' : P} {o' : O}, Function.update s.producer p (.waiting o) p' = .started o' ∨
      Function.update s.producer p (.waiting o) p' = .waiting o' → s.Uses p' o' := fun {p' o'} h => by
    by_cases hp : p' = p
    · subst hp
      rw [Function.update_self] at h
      simp only [reduceCtorEq, Producer.waiting.injEq, false_or] at h
      exact .inl (h ▸ hstart)
    · rwa [Function.update_of_ne hp] at h
  refine ⟨fun p₁ p₂ o' h₁ h₂ => hv.own p₁ p₂ o' (huses h₁) (huses h₂), ?_, fun p' o' h => ?_, fun o' ho' => ?_,
    fun c x hx => ?_, hv.one, fun p' o' h => ?_⟩
  · rw [hpend, List.nodup_append]
    refine ⟨hv.nodup, by simp, ?_⟩
    rintro a ha b hb rfl
    exact hnew (List.mem_singleton.1 hb ▸ ha)
  · have hp : p' ≠ p := by
      rintro rfl
      simp only [Function.update_self] at h
      cases h
    simp only [Function.update_of_ne hp] at h
    exact hv.fresh p' o' h
  · rw [hpend, List.mem_append, List.mem_singleton] at ho'
    rcases ho' with ho' | rfl
    · obtain ⟨p', hp'⟩ := hv.waits o' ho'
      exact ⟨p', (hsame hp').1⟩
    · exact ⟨p, Function.update_self _ _ _⟩
  · obtain ⟨o', p', rfl, hp', hn⟩ := hv.serves c x hx
    refine ⟨o', p', rfl, (hsame hp').1, ?_⟩
    rw [hpend, List.mem_append, List.mem_singleton, not_or]
    exact ⟨hn, (hsame hp').2.2⟩
  · by_cases hp : p' = p
    · subst hp
      simp only [Function.update_self, Producer.waiting.injEq] at h
      subst h
      refine .queued ?_ (hv.fresh _ _ hstart) (story_by t _ (by simp [Event.By]))
      rw [hpend]
      exact List.mem_append_right _ (List.mem_singleton_self _)
    · simp only [Function.update_of_ne hp] at h
      have ho := (hsame h).2.2
      refine (hv.stage p' o' h).keep (story_keep ?_ ?_) ?_ rfl rfl fun _ => Iff.rfl
      · simp [Event.By, Ne.symm hp]
      · simp [Event.About, Ne.symm ho]
      · rw [hpend, List.mem_append, List.mem_singleton]
        exact or_iff_left ho

theorem Served.got (hv : Served t s) {c : C} (hidle : s.consumer c = .idle) {o : O} {rest : List O}
    (hhead : s.q.head = some o) (hp : pending t = o :: rest) (hs : Step s (.got c s.q.head) s') :
    Served (t ++ [.got c s.q.head]) s' := by
  cases hs with | got _ _ _ =>
  have hpend := pending_got hp c s.q.head
  have hnd := hv.nodup
  rw [hp, List.nodup_cons] at hnd
  have hmem : o ∈ pending t := by
    rw [hp]
    exact List.mem_cons_self
  have hsub : ∀ {o' : O}, o' ∉ pending t → o' ∉ rest := fun h h' => h (by rw [hp]; exact List.mem_cons_of_mem _ h')
  -- no thread serves the operation yet
  have hnone : ∀ c', s.consumer c' ≠ .serving (some o) := fun c' h => by
    obtain ⟨o', _, ho, _, hn⟩ := hv.serves c' _ h
    cases ho
    exact hn hmem
  have hserve : ∀ {c' : C} {x : Option O}, Function.update s.consumer c (.serving s.q.head) c' = .serving x →
      (c' = c ∧ x = some o) ∨ (c' ≠ c ∧ s.consumer c' = .serving x) := fun {c' x} h => by
    by_cases hcc : c' = c
    · subst hcc
      rw [Function.update_self, Consumer.serving.injEq, hhead] at h
      exact .inl ⟨rfl, h.symm⟩
    · rw [Function.update_of_ne hcc] at h
      exact .inr ⟨hcc, h⟩
  refine ⟨hv.own, by rw [hpend]; exact hnd.2, hv.fresh, fun o' ho' => ?_, fun c' x hx => ?_, fun c₁ c₂ x h₁ h₂ => ?_,
    fun p' o' h => ?_⟩
  · rw [hpend] at ho'
    exact hv.waits o' (by rw [hp]; exact List.mem_cons_of_mem _ ho')
  · rw [hpend]
    rcases hserve hx with ⟨_, rfl⟩ | ⟨_, hx⟩
    · obtain ⟨p', hp'⟩ := hv.waits o hmem
      exact ⟨o, p', rfl, hp', hnd.1⟩
    · obtain ⟨o', p', rfl, hp', hn⟩ := hv.serves c' x hx
      exact ⟨o', p', rfl, hp', hsub hn⟩
  · rcases hserve h₁ with ⟨e₁, rfl⟩ | ⟨_, h₁⟩ <;> rcases hserve h₂ with ⟨e₂, e₃⟩ | ⟨_, h₂⟩
    · rw [e₁, e₂]
    · exact absurd h₂ (hnone _)
    · rw [e₃] at h₁
      exact absurd h₁ (hnone _)
    · exact hv.one _ _ _ h₁ h₂
  · have hby : (Event.got c s.q.head : Event P C O).By p' = false := rfl
    by_cases ho : o' = o
    · subst ho
      cases hv.stage p' o' h with
      | queued _ hd hs =>
        refine .served c ?_ hd ?_
        · simp only [Function.update_self, hhead]
        · rw [story_other t _ hby, hs, hhead]
          simp [Event.About]
      | served c' hc' _ _ => exact absurd hc' (hnone c')
      | answered _ _ _ _ _ hn _ => exact absurd hmem hn
    · have habout : (Event.got c s.q.head : Event P C O).About o' = false := by
        simp only [Event.About, hhead, Option.some.injEq, decide_eq_false_iff_not]
        exact Ne.symm ho
      refine (hv.stage p' o' h).keep (story_keep hby habout) ?_ rfl rfl fun c' => ⟨fun hx => ?_, fun hx => ?_⟩
      · rw [hpend, hp, List.mem_cons]
        exact (or_iff_right ho).symm
      · rcases hserve hx with ⟨_, he⟩ | ⟨_, hx⟩
        · exact absurd (Option.some.inj he) ho
        · exact hx
      · have hcc : c' ≠ c := by
          rintro rfl
          rw [hidle] at hx
          cases hx
        simp only [Function.update_of_ne hcc]
        exact hx

theorem Served.sent (hv : Served t s) {c : C} {o : O} {x : CInt} (hserving : s.consumer c = .serving (some o))
    (hs : Step s (.sent c o x) s') : Served (t ++ [.sent c o x]) s' := by
  cases hs with | sent _ _ _ _ =>
  have hpend : pending (t ++ [.sent c o x]) = pending t := pending_keep rfl rfl
  obtain ⟨_, p, ho, hp, hn⟩ := hv.serves c _ hserving
  cases ho
  have hback : ∀ {c' : C} {y : Option O}, Function.update s.consumer c .idle c' = .serving y →
      c' ≠ c ∧ s.consumer c' = .serving y := fun {c' y} h => by
    by_cases hcc : c' = c
    · subst hcc
      rw [Function.update_self] at h
      cases h
    · rw [Function.update_of_ne hcc] at h
      exact ⟨hcc, h⟩
  refine ⟨hv.own, by rw [hpend]; exact hv.nodup, fun p' o' h => ?_, fun o' ho' => hv.waits o' (hpend ▸ ho'),
    fun c' y hy => by rw [hpend]; exact hv.serves c' y (hback hy).2,
    fun c₁ c₂ y h₁ h₂ => hv.one c₁ c₂ y (hback h₁).2 (hback h₂).2, fun p' o' h => ?_⟩
  · have hne : o' ≠ o := by
      rintro rfl
      have hpp := hv.own _ _ _ (.inl h) (.inr hp)
      subst hpp
      change s.producer p' = .started o' at h
      rw [hp] at h
      cases h
    simp only [Function.update_of_ne hne]
    exact hv.fresh p' o' h
  · have hby : (Event.sent c o x : Event P C O).By p' = false := rfl
    by_cases hoo : o' = o
    · subst hoo
      cases hv.stage p' o' h with
      | queued hq _ _ => exact absurd hq hn
      | served c' hc' _ hs =>
        obtain rfl := hv.one _ _ _ hc' hserving
        refine .answered c' x (Function.update_self _ _ _) (Function.update_self _ _ _) ?_ (hpend ▸ hn) fun c'' h'' => ?_
        · rw [story_other t _ hby, hs]
          simp [Event.About]
        · obtain ⟨hne, h''⟩ := hback h''
          exact hne (hv.one _ _ _ h'' hserving)
      | answered _ _ _ _ _ _ hno => exact absurd hserving (hno c)
    · refine (hv.stage p' o' h).keep (story_keep hby (by simp [Event.About, Ne.symm hoo])) (by rw [hpend])
        (Function.update_of_ne hoo _ _) (Function.update_of_ne hoo _ _) fun c' => ⟨fun hx => (hback hx).2, fun hx => ?_⟩
      have hcc : c' ≠ c := by
        rintro rfl
        rw [hserving] at hx
        exact hoo (by injection hx with hx; exact (Option.some.inj hx).symm)
      simp only [Function.update_of_ne hcc]
      exact hx

theorem Served.returned (hv : Served t s) {p : P} {o : O} {x : CInt} (hwait : s.producer p = .waiting o)
    (hdone : s.done o = true) (hs : Step s (.returned p o x) s') : Served (t ++ [.returned p o x]) s' := by
  have hquiet : o ∉ pending t ∧ ∀ c', s.consumer c' ≠ .serving (some o) := by
    cases hv.stage p o hwait with
    | queued _ hd _ => rw [hd] at hdone; cases hdone
    | served _ _ hd _ => rw [hd] at hdone; cases hdone
    | answered _ _ _ _ _ hp hc => exact ⟨hp, hc⟩
  have hpend : pending (t ++ [.returned p o x]) = pending t := pending_keep rfl rfl
  cases hs with | returned _ _ _ _ =>
  have hsame : ∀ {p' : P} {o' : O}, s.producer p' = .waiting o' → o' ≠ o →
      Function.update s.producer p .idle p' = .waiting o' := fun {p' o'} h hne => by
    have hp : p' ≠ p := by
      rintro rfl
      rw [hwait] at h
      exact hne (by injection h with h; exact h.symm)
    rw [Function.update_of_ne hp]
    exact h
  have hback : ∀ {p' : P} {y : Producer O}, y ≠ .idle → Function.update s.producer p .idle p' = y →
      p' ≠ p ∧ s.producer p' = y := fun {p' y} hy h => by
    by_cases hp : p' = p
    · subst hp
      rw [Function.update_self] at h
      exact absurd h.symm hy
    · rw [Function.update_of_ne hp] at h
      exact ⟨hp, h⟩
  have huses : ∀ {p' : P} {o' : O}, Function.update s.producer p .idle p' = .started o' ∨
      Function.update s.producer p .idle p' = .waiting o' → s.Uses p' o' := fun {p' o'} h => by
    rcases h with h | h
    · exact .inl (hback (by simp) h).2
    · exact .inr (hback (by simp) h).2
  refine ⟨fun p₁ p₂ o' h₁ h₂ => hv.own p₁ p₂ o' (huses h₁) (huses h₂), by rw [hpend]; exact hv.nodup,
    fun p' o' h => ?_, fun o' ho' => ?_, fun c y hy => ?_, hv.one, fun p' o' h => ?_⟩
  · have h' : Function.update s.producer p .idle p' = .started o' := h
    exact hv.fresh p' o' (hback (by simp) h').2
  · rw [hpend] at ho'
    obtain ⟨p', hp'⟩ := hv.waits o' ho'
    exact ⟨p', hsame hp' fun h => hquiet.1 (h ▸ ho')⟩
  · obtain ⟨o', p', rfl, hp', hn⟩ := hv.serves c y hy
    exact ⟨o', p', rfl, hsame hp' fun h => hquiet.2 c (h ▸ hy), hpend ▸ hn⟩
  · have hw : Function.update s.producer p .idle p' = .waiting o' := h
    obtain ⟨hp, h'⟩ := hback (by simp) hw
    have ho : o' ≠ o := by
      rintro rfl
      exact hp (hv.own _ _ _ (.inr h') (.inr hwait))
    refine (hv.stage p' o' h').keep (story_keep ?_ ?_) (by rw [hpend]) rfl rfl fun _ => Iff.rfl
    · simp [Event.By, Ne.symm hp]
    · simp [Event.About, Ne.symm ho]

/-- The last step of a waiting thread was to enqueue its operation. -/
theorem Run.last (hr : Run t s) {p : P} {o : O} (hw : s.producer p = .waiting o) :
    ∃ t₁, t = t₁ ++ .enqueued p o :: since p t := by
  induction hr generalizing p o with
  | init => cases hw
  | @step t s e s' _ hs ih =>
    have hother : e.By p = false → s.producer p = .waiting o → ∃ t₁, t ++ [e] = t₁ ++ .enqueued p o :: since p (t ++ [e]) :=
      fun hby h => by
        obtain ⟨t₁, ht₁⟩ := ih h
        refine ⟨t₁, ?_⟩
        rw [since_other t e hby, ← List.cons_append, ← List.append_assoc, ← ht₁]
    cases hs with
    | enqueued p' o' hstart _ =>
      by_cases hp : p = p'
      · subst hp
        simp only [Function.update_self, Producer.waiting.injEq] at hw
        subst hw
        exact ⟨t, by rw [since_by t _ (by simp [Event.By])]⟩
      · simp only [Function.update_of_ne hp] at hw
        exact hother (by simp [Event.By, Ne.symm hp]) hw
    | began p' o' hidle _ =>
      by_cases hp : p = p'
      · subst hp
        simp only [Function.update_self] at hw
        cases hw
      · simp only [Function.update_of_ne hp] at hw
        exact hother (by simp [Event.By, Ne.symm hp]) hw
    | returned p' o' _ _ =>
      by_cases hp : p = p'
      · subst hp
        simp only [Function.update_self] at hw
        cases hw
      · simp only [Function.update_of_ne hp] at hw
        exact hother (by simp [Event.By, Ne.symm hp]) hw
    | got c _ _ => exact hother rfl hw
    | sent c o' x _ => exact hother rfl hw

end Served

/-! ## Correctness -/

section Correct

variable [DecidableEq P] [DecidableEq C] [DecidableEq O] {t : List (Event P C O)} {s s' : State P C O} {e : Event P C O}

/-- What the queue promises, for a run and the state it ends in. -/
structure Good (t : List (Event P C O)) (s : State P C O) : Prop where
  /-- Operations are returned at most once and in the order of their enqueueing. -/
  order : gottenOps t <+: (enqueuedOps t).map some
  /-- Operations that are not returned yet are still in their slots. -/
  slots : ∀ k, (gottenOps t).length ≤ k → k < (enqueuedOps t).length →
    s.q.ops ((k % 256 : Nat) : Int) = (enqueuedOps t)[k]?
  /-- `get_op` can go on if there is something to return. -/
  enabled : (gottenOps t).length < (enqueuedOps t).length → s.q.isEmpty = false
  /-- `execute` returns after its operation was taken from the queue once and answered once, with the answer. -/
  answers : ∀ t₀ rest p o x, t = t₀ ++ .returned p o x :: rest →
    (∃ t₁, t₀ = t₁ ++ .enqueued p o :: since p t₀) ∧ ∃ c, story p o t₀ = [.got c (some o), .sent c o x]

omit [DecidableEq P] [DecidableEq C] [DecidableEq O] in
theorem enqueuedOps_length_le (t : List (Event P C O)) (e : Event P C O) :
    (enqueuedOps t).length ≤ (enqueuedOps (t ++ [e])).length := by
  rw [enqueuedOps_append, List.length_append]
  exact Nat.le_add_right _ _

theorem setWidth_signExtend (x : CInt) : (x.signExtend 64).setWidth 32 = x := by
  apply BitVec.eq_of_getLsbD_eq
  intro i hi
  have hi' : i < 64 := by omega
  rw [BitVec.getLsbD_setWidth, BitVec.getLsbD_signExtend]
  simp [hi, hi']

theorem Run.fifo_served (hr : Run t s) (hlt : (enqueuedOps t).length < 2 ^ 31) : Fifo t s ∧ Served t s := by
  induction hr with
  | init => exact ⟨⟨rfl, fun k _ hk => absurd hk (Nat.not_lt_zero k)⟩, served_init⟩
  | @step t s e s' hr hs ih =>
    obtain ⟨hf, hv⟩ := ih (Nat.lt_of_le_of_lt (enqueuedOps_length_le t e) hlt)
    refine ⟨hf.step hr.counts hs hlt, ?_⟩
    cases hs with
    | began p o hidle hfree => exact hv.began hidle hfree (.began _ _ _ hidle hfree)
    | enqueued p o hstart hfull => exact hv.enqueued hr.counts hstart (.enqueued _ _ _ hstart hfull)
    | got c hidle hempty =>
      obtain ⟨o, rest, hhead, hp⟩ :=
        hf.head hr.counts (Nat.lt_of_le_of_lt (enqueuedOps_length_le t _) hlt) hempty
      exact hv.got hidle hhead hp (.got _ _ hidle hempty)
    | sent c o x hserving => exact hv.sent hserving (.sent _ _ _ _ hserving)
    | returned p o hwait hdone => exact hv.returned hwait hdone (.returned _ _ _ hwait hdone)

theorem Run.answers (hr : Run t s) (hlt : (enqueuedOps t).length < 2 ^ 31) : ∀ t₀ rest p o x,
    t = t₀ ++ .returned p o x :: rest →
    (∃ t₁, t₀ = t₁ ++ .enqueued p o :: since p t₀) ∧ ∃ c, story p o t₀ = [.got c (some o), .sent c o x] := by
  induction hr with
  | init => exact fun t₀ rest p o x h => absurd (congrArg List.length h) (by simp)
  | @step t s e s' hr hs ih =>
    intro t₀ rest p o x heq
    have hlt' := Nat.lt_of_le_of_lt (enqueuedOps_length_le t e) hlt
    rcases List.eq_nil_or_concat rest with rfl | ⟨rest', e', rfl⟩
    · -- it is the last step
      obtain ⟨rfl, he⟩ := List.append_inj' heq rfl
      cases he
      cases hs with
      | returned _ _ hwait hdone =>
        refine ⟨hr.last hwait, ?_⟩
        cases (hr.fifo_served hlt').2.stage p o hwait with
        | queued _ hd _ => rw [hd] at hdone; cases hdone
        | served _ _ hd _ => rw [hd] at hdone; cases hdone
        | answered c x _ herr hstory _ _ =>
          rw [herr, setWidth_signExtend]
          exact ⟨c, hstory⟩
    · rw [List.concat_eq_append, ← List.cons_append, ← List.append_assoc] at heq
      exact ih hlt' t₀ rest' p o x (List.append_inj' heq rfl).1

/-- The queue keeps its promises in exactly the runs with fewer than 2^31 operations. -/
theorem queue_correct_iff (hr : Run t s) : Good t s ↔ (enqueuedOps t).length < 2 ^ 31 := by
  have hc := hr.counts
  constructor
  · intro hg
    by_contra hge
    have hempty := hc.isEmpty_wrapped (Nat.le_of_not_lt hge)
    have hlt := hc.gets_lt
    rw [hg.enabled (by omega)] at hempty
    cases hempty
  · intro hlt
    obtain ⟨hf, _⟩ := hr.fifo_served hlt
    refine ⟨?_, hf.slots, fun hne => ?_, hr.answers hlt⟩
    · rw [hf.order]
      exact List.IsPrefix.map some (List.take_prefix _ _)
    · rw [hc.isEmpty hlt, decide_eq_false_iff_not]
      omega

end Correct

/-! ## The first operation that is lost -/

section Wrap

/-- One thread on each side. -/
abbrev Trace1 := List (Event Unit Unit Unit)

/-- Between two operations: all threads are idle, and `k` operations went through. -/
structure Quiet (t : Trace1) (s : State Unit Unit Unit) (k : Nat) : Prop where
  run : Run t s
  producer : s.producer () = .idle
  consumer : s.consumer () = .idle
  enqueued : (enqueuedOps t).length = k
  gotten : (gottenOps t).length = k

/-- The next operation is enqueued. -/
theorem Quiet.enqueue {t : Trace1} {s : State Unit Unit Unit} {k : Nat} (hq : Quiet t s k) :
    ∃ s', Run (t ++ [.began () ()] ++ [.enqueued () ()]) s' ∧ s'.producer () = .waiting () ∧ s'.consumer () = .idle := by
  have hbegan := Run.step hq.run (.began s () () hq.producer fun p h => by
    rcases h with h | h <;> exact absurd (hq.producer.symm.trans h) (by simp))
  have hfull := hbegan.counts.isFull
  have henq : enqueuedOps (t ++ [.began () ()]) = enqueuedOps t := by rw [enqueuedOps_append]; exact List.append_nil _
  have hgot : gottenOps (t ++ [.began () ()]) = gottenOps t := by rw [gottenOps_append]; exact List.append_nil _
  rw [henq, hgot, hq.enqueued, hq.gotten] at hfull
  have hnot : decide (k = k + 256) = false := decide_eq_false (by omega)
  refine ⟨_, Run.step hbegan (.enqueued _ () () ?_ (hfull.trans hnot)), ?_, hq.consumer⟩
  · simp only [Function.update_self]
  · simp only [Function.update_self]

theorem Quiet.next {t : Trace1} {s : State Unit Unit Unit} {k : Nat} (hq : Quiet t s k) (hk : k + 1 < 2 ^ 31) :
    ∃ t' s', Quiet t' s' (k + 1) := by
  obtain ⟨s₁, hr₁, hp₁, hc₁⟩ := hq.enqueue
  have henq : (enqueuedOps (t ++ [.began () ()] ++ [.enqueued () ()])).length = k + 1 := by
    rw [enqueuedOps_append, enqueuedOps_append, List.length_append, List.length_append, hq.enqueued]
    rfl
  have hgot : (gottenOps (t ++ [.began () ()] ++ [.enqueued () ()])).length = k := by
    rw [gottenOps_append, gottenOps_append, List.length_append, List.length_append, hq.gotten]
    rfl
  have hempty := hr₁.counts.isEmpty (by rw [henq]; exact hk)
  rw [henq, hgot] at hempty
  have hne : s₁.q.isEmpty = false := hempty.trans (decide_eq_false (by omega))
  obtain ⟨o, _, hhead, _⟩ := (hr₁.fifo_served (by rw [henq]; exact hk)).1.head hr₁.counts (by rw [henq]; exact hk) hne
  have hr₂ := Run.step hr₁ (.got s₁ () hc₁ hne)
  rw [hhead] at hr₂
  have hr₃ := Run.step hr₂ (.sent _ () () 0 (by simp only [Function.update_self]))
  have hr₄ := Run.step hr₃ (.returned _ () () hp₁ (by simp only [Function.update_self]))
  refine ⟨_, _, hr₄, by simp only [Function.update_self], by simp only [Function.update_self], ?_, ?_⟩
  · simp only [enqueuedOps_append, List.length_append] at henq ⊢
    exact henq
  · simp only [gottenOps_append, List.length_append] at hgot ⊢
    exact congrArg (· + 1) hgot

/-- A run in which one operation is enqueued, taken and answered. -/
theorem queue_correct_iff_small : ∃ t : Trace1, (∃ s, Run t s ∧ Good t s) ∧ (gottenOps t).length = 1 := by
  obtain ⟨t, s, hq⟩ := (Quiet.mk .init rfl rfl rfl rfl : Quiet [] _ 0).next (by omega)
  refine ⟨t, ⟨s, hq.run, (queue_correct_iff hq.run).mpr ?_⟩, hq.gotten⟩
  rw [hq.enqueued]
  omega

theorem exists_quiet : ∀ k, k < 2 ^ 31 → ∃ t s, Quiet t s k
  | 0, _ => ⟨[], _, .init, rfl, rfl, rfl, rfl⟩
  | k + 1, hk => by
    obtain ⟨t, s, hq⟩ := exists_quiet k (by omega)
    exact hq.next hk

/-- After 2^31 - 1 answered operations the next one stays in the queue for ever. -/
theorem queue_wraps : ¬ ∀ (t : Trace1) (s : State Unit Unit Unit), Run t s → Good t s := by
  intro hgood
  obtain ⟨t, s, hq⟩ := exists_quiet (2 ^ 31 - 1) (by omega)
  obtain ⟨s', hr, _⟩ := hq.enqueue
  have henq : (enqueuedOps (t ++ [.began () ()] ++ [.enqueued () ()])).length = 2 ^ 31 := by
    rw [enqueuedOps_append, enqueuedOps_append, List.length_append, List.length_append, hq.enqueued]
    rfl
  have hempty := hr.counts.isEmpty_wrapped (Nat.le_of_eq henq.symm)
  have hlt := hr.counts.gets_lt
  rw [(hgood _ _ hr).enabled (by omega)] at hempty
  cases hempty

end Wrap

end Fscq.OpQueue
