/-
The log when appends fail.

Here the log of `fkfs_log.cpp` stands over any `fkfs_file_append`: what that
function does is a parameter of the code, and over the file system it gives the
log of `LogStream` (`append_binary_machine`). To ask what a caller may do after
a failed append, the parameter is made as friendly as it can be, a shelf that
takes a payload or refuses it, as some pattern says, and stores nothing when it
refuses (`Shelf`).

Even then a failed append cannot always be tried again. The loop copies first
and flushes afterwards, so when a flush is refused the bytes copied so far have
become part of the stream and the next attempt adds them once more. Nothing was
copied only if the flush before an unsplit record was the one refused, or if the
buffer was full when the call began (`append_retry_iff`).
-/
import Fkfs.LogStream

set_option autoImplicit false

namespace Fkfs.LogRetry

open Bytes
open Fkfs.Layout Fkfs.Device Fkfs.Search Fkfs.Append
open Fkfs.LogStream (fkfs_log_t FKFS_MAXIMUM_BLOCK_SIZE fkfs_log_initialize cstring copy_pending
  pending_length pending_nil Session)

/-! ## The code, over any `fkfs_file_append` -/

/-- A log and the file system behind it. -/
structure Line (σ : Type*) where
  log : fkfs_log_t
  fs : σ

section Code

variable {σ : Type*} (append : ℕ → σ → FileNumber → List UInt8 → Bool × σ)

/-- `fkfs_log_flush`; `n` counts the rounds still to come. -/
def fkfs_log_flush (n : ℕ) (s : Line σ) : Bool × Line σ :=
  match append n s.fs s.log.file s.log.pending with
  | (false, fs) => (false, { s with fs := fs })
  | (true, fs) =>
    (true, ⟨{ s.log with buffer := memcpy s.log.buffer 0 [0], position := 0 }, fs⟩)

/-- The `while` loop of `fkfs_log_append_binary`, with the bytes at `ptr` that
are still required. -/
def appendLoop : ℕ → Line σ → List UInt8 → Option (Bool × Line σ)
  | 0, _, _ => none
  | n + 1, s, ptr =>
    if 0 < ptr.length then
      let available := FKFS_MAXIMUM_BLOCK_SIZE - s.log.position
      let copy := if available < ptr.length then available else ptr.length
      let s := { s with log := s.log.copy (ptr.take copy) }
      let ptr := ptr.drop copy
      if FKFS_MAXIMUM_BLOCK_SIZE ≤ s.log.position then
        match fkfs_log_flush append n s with
        | (false, s) => some (false, s)
        | (true, s) => appendLoop n s ptr
      else appendLoop n s ptr
    else some (true, s)

/-- `fkfs_log_append_binary`, with `n` rounds at most. -/
def fkfs_log_append_binary (n : ℕ) (s : Line σ) (ptr : List UInt8) (canSplit : Bool) :
    Option (Bool × Line σ) :=
  if !canSplit ∧ FKFS_MAXIMUM_BLOCK_SIZE - s.log.position < ptr.length then
    if FKFS_MAXIMUM_BLOCK_SIZE ≤ ptr.length then some (false, s)
    else
      match fkfs_log_flush append n s with
      | (false, s) => some (false, s)
      | (true, s) => appendLoop append n s ptr
  else appendLoop append n s ptr

end Code

/-! ## Over the file system -/

/-- `fkfs_file_append` of the file system, with the payloads it was handed. -/
def machineAppend (ov : Overrun) (pasts : ℕ → ℕ → Mem) (n : ℕ)
    (fs : Machine × List (List UInt8 × Bool)) (f : FileNumber) (data : List UInt8) :
    Bool × Machine × List (List UInt8 × Bool) :=
  let r := fkfs_file_append ov (pasts n) fs.1 f data
  (r.1, r.2, fs.2 ++ [(data, r.1)])

/-- A line over the file system as a session of the log. -/
def Line.session (s : Line (Machine × List (List UInt8 × Bool))) : Session :=
  ⟨s.log, s.fs.1, s.fs.2⟩

section Machine

variable (ov : Overrun) (pasts : ℕ → ℕ → Mem)

theorem flush_machine (n : ℕ) (s : Line (Machine × List (List UInt8 × Bool))) :
    LogStream.fkfs_log_flush ov (pasts n) s.session
      = ((fkfs_log_flush (machineAppend ov pasts) n s).1,
        (fkfs_log_flush (machineAppend ov pasts) n s).2.session) := by
  unfold LogStream.fkfs_log_flush fkfs_log_flush machineAppend Line.session
  dsimp only
  rcases fkfs_file_append ov (pasts n) s.fs.1 s.log.file s.log.pending with ⟨ok, m⟩
  cases ok <;> rfl

theorem appendLoop_machine (n : ℕ) (s : Line (Machine × List (List UInt8 × Bool)))
    (ptr : List UInt8) :
    LogStream.appendLoop ov pasts n s.session ptr
      = (appendLoop (machineAppend ov pasts) n s ptr).map fun r => (r.1, r.2.session) := by
  induction n generalizing s ptr with
  | zero => rfl
  | succ n ih =>
    unfold LogStream.appendLoop appendLoop
    by_cases hptr : 0 < ptr.length
    · rw [if_pos hptr, if_pos hptr, show s.session.log = s.log from rfl]
      dsimp only
      generalize (if FKFS_MAXIMUM_BLOCK_SIZE - s.log.position < ptr.length then
        FKFS_MAXIMUM_BLOCK_SIZE - s.log.position else ptr.length) = copy
      by_cases hfull : FKFS_MAXIMUM_BLOCK_SIZE ≤ (s.log.copy (ptr.take copy)).position
      · rw [if_pos hfull, if_pos hfull]
        have hflush := flush_machine ov pasts n { s with log := s.log.copy (ptr.take copy) }
        rw [show ({ s with log := s.log.copy (ptr.take copy) } : Line _).session
          = { s.session with log := s.log.copy (ptr.take copy) } from rfl] at hflush
        rw [hflush]
        rcases fkfs_log_flush (machineAppend ov pasts) n
          { s with log := s.log.copy (ptr.take copy) } with ⟨ok, s1⟩
        cases ok
        · rfl
        · exact ih s1 (ptr.drop copy)
      · rw [if_neg hfull, if_neg hfull]
        exact ih { s with log := s.log.copy (ptr.take copy) } (ptr.drop copy)
    · rw [if_neg hptr, if_neg hptr]
      rfl

/-- **Over the file system this is the log of `LogStream`.** -/
theorem append_binary_machine (n : ℕ) (s : Line (Machine × List (List UInt8 × Bool)))
    (ptr : List UInt8) (canSplit : Bool) :
    LogStream.fkfs_log_append_binary ov pasts n s.session ptr canSplit
      = (fkfs_log_append_binary (machineAppend ov pasts) n s ptr canSplit).map
        fun r => (r.1, r.2.session) := by
  unfold LogStream.fkfs_log_append_binary fkfs_log_append_binary
  rw [show s.session.log = s.log from rfl]
  by_cases hfar : !canSplit ∧ FKFS_MAXIMUM_BLOCK_SIZE - s.log.position < ptr.length
  · rw [if_pos hfar, if_pos hfar]
    by_cases hlong : FKFS_MAXIMUM_BLOCK_SIZE ≤ ptr.length
    · rw [if_pos hlong, if_pos hlong]
      rfl
    · rw [if_neg hlong, if_neg hlong, flush_machine]
      rcases fkfs_log_flush (machineAppend ov pasts) n s with ⟨ok, s1⟩
      cases ok
      · rfl
      · exact appendLoop_machine ov pasts n s1 ptr
  · rw [if_neg hfar, if_neg hfar]
    exact appendLoop_machine ov pasts n s ptr

end Machine

/-! ## Over a shelf -/

/-- What an append does at best: `stored` is what was stored so far, `answers`
what the coming appends return. -/
structure Shelf where
  stored : List UInt8
  answers : ℕ → Bool

/-- The shelf once an append was answered. -/
def Shelf.next (fs : Shelf) (stored : List UInt8) : Shelf := ⟨stored, fun i => fs.answers (i + 1)⟩

/-- An append to a shelf; one that returns false stores nothing. -/
def Shelf.append (_ : ℕ) (fs : Shelf) (_ : FileNumber) (data : List UInt8) : Bool × Shelf :=
  if fs.answers 0 then (true, fs.next (fs.stored ++ data)) else (false, fs.next fs.stored)

/-- The stream: what is stored, and what waits in the buffer. -/
def Line.stream (s : Line Shelf) : List UInt8 := s.fs.stored ++ s.log.pending

/-- A log that comes from a zeroed, initialized one by any calls, with any
pattern of answers. -/
inductive Reached : Line Shelf → Prop
  | start (f : FileNumber) (fs : Shelf) :
      Reached ⟨ fkfs_log_initialize fkfs_log_t.zero f, fs⟩
  | flush {s : Line Shelf} (hs : Reached s) (n : ℕ) : Reached (fkfs_log_flush Shelf.append n s).2
  | append {s s' : Line Shelf} {n : ℕ} {ptr : List UInt8} {canSplit ok : Bool} (hs : Reached s)
      (h : fkfs_log_append_binary Shelf.append n s ptr canSplit = some (ok, s')) : Reached s'

section Shelves

variable {s : Line Shelf} {n : ℕ} {ptr : List UInt8}

/-- A flush that is refused leaves the log as it is. -/
theorem flush_refused (n : ℕ) (h : s.fs.answers 0 = false) :
    fkfs_log_flush Shelf.append n s = (false, { s with fs := s.fs.next s.fs.stored }) := by
  simp only [fkfs_log_flush, Shelf.append, h, Bool.false_eq_true, if_false]

/-- A flush that is taken empties the buffer and leaves the stream as it is. -/
theorem flush_taken (n : ℕ) (h : s.fs.answers 0 = true) :
    ∃ s', fkfs_log_flush Shelf.append n s = (true, s') ∧ s'.log.position = 0
      ∧ s'.fs.answers = (fun i => s.fs.answers (i + 1)) ∧ s'.stream = s.stream := by
  have hflush : fkfs_log_flush Shelf.append n s
      = (true, ⟨{ s.log with buffer := memcpy s.log.buffer 0 [0], position := 0 },
        s.fs.next (s.fs.stored ++ s.log.pending)⟩) := by
    simp only [fkfs_log_flush, Shelf.append, h, if_true]
  have hempty : fkfs_log_t.pending { s.log with buffer := memcpy s.log.buffer 0 [0], position := 0 }
      = [] := pending_nil rfl
  refine ⟨_, hflush, rfl, rfl, ?_⟩
  simp only [Line.stream, Shelf.next, hempty, List.append_nil]

/-- The line with `bytes` copied into the buffer. -/
def Line.copied (s : Line Shelf) (bytes : List UInt8) : Line Shelf :=
  { s with log := s.log.copy bytes }

theorem copied_position (s : Line Shelf) (bytes : List UInt8) :
    (s.copied bytes).log.position = s.log.position + bytes.length := rfl

theorem copied_stream {bytes : List UInt8} (h : s.log.position + bytes.length ≤ 505) :
    (s.copied bytes).stream = s.stream ++ bytes := by
  have hp : (s.copied bytes).log.pending = s.log.pending ++ bytes := copy_pending h
  rw [Line.stream, hp, ← List.append_assoc]
  rfl

/-- With nothing required the loop is over. -/
theorem appendLoop_nil (n : ℕ) (s : Line Shelf) :
    appendLoop Shelf.append (n + 1) s [] = some (true, s) := by
  rw [appendLoop, if_neg (by simp)]

/-- A round that does not fill the buffer copies all there is. -/
theorem appendLoop_short (n : ℕ) (hptr : 0 < ptr.length)
    (hroom : s.log.position + ptr.length < 505) :
    appendLoop Shelf.append (n + 1) s ptr = appendLoop Shelf.append n (s.copied ptr) [] := by
  have hcopy : ¬ FKFS_MAXIMUM_BLOCK_SIZE - s.log.position < ptr.length := by
    show ¬ 505 - s.log.position < ptr.length
    omega
  have hnot : ¬ FKFS_MAXIMUM_BLOCK_SIZE ≤ (s.log.copy ptr).position := by
    show ¬ 505 ≤ s.log.position + ptr.length
    omega
  rw [appendLoop, if_pos hptr]
  simp only [if_neg hcopy, List.take_length, List.drop_length, if_neg hnot]
  rfl

/-- A round that fills the buffer flushes it, and the loop goes on if it could. -/
theorem appendLoop_full {n : ℕ} (hptr : 0 < ptr.length) (hpos : s.log.position ≤ 505)
    (hfull : 505 ≤ s.log.position + ptr.length) {ok : Bool} {s1 : Line Shelf}
    (h : fkfs_log_flush Shelf.append n (s.copied (ptr.take (505 - s.log.position))) = (ok, s1)) :
    appendLoop Shelf.append (n + 1) s ptr
      = if ok then appendLoop Shelf.append n s1 (ptr.drop (505 - s.log.position))
        else some (false, s1) := by
  have hcopy : (if FKFS_MAXIMUM_BLOCK_SIZE - s.log.position < ptr.length then
      FKFS_MAXIMUM_BLOCK_SIZE - s.log.position else ptr.length) = 505 - s.log.position := by
    show (if 505 - s.log.position < ptr.length then 505 - s.log.position else ptr.length) = _
    split <;> omega
  have hthen : FKFS_MAXIMUM_BLOCK_SIZE
      ≤ (s.log.copy (ptr.take (505 - s.log.position))).position := by
    show 505 ≤ s.log.position + (ptr.take (505 - s.log.position)).length
    rw [List.length_take]
    omega
  unfold Line.copied at h
  rw [appendLoop, if_pos hptr]
  simp only [hcopy, if_pos hthen, h]
  cases ok <;> rfl

/-- How many flushes the loop makes if every one of them is taken. -/
def flushes (s : Line Shelf) (ptr : List UInt8) : ℕ := (s.log.position + ptr.length) / 505

/-- The flushes of the loop: the first `k` are taken and the next one is refused. -/
def FirstRefused (s : Line Shelf) (k : ℕ) : Prop :=
  (∀ i, i < k → s.fs.answers i = true) ∧ s.fs.answers k = false

/-- **The loop** copies all its bytes if every flush is taken; if the `k`-th one
is the first to be refused, it has copied what fills the buffer `k + 1` times. -/
theorem appendLoop_spec (hpos : s.log.position ≤ 505)
    (hn : ptr.length + 1 < n ∨ s.log.position < 505 ∧ ptr.length < n) :
    ∃ ok s', appendLoop Shelf.append n s ptr = some (ok, s') ∧ s'.log.position ≤ 505
      ∧ (ok = true ∧ s'.stream = s.stream ++ ptr
          ∧ (0 < ptr.length → ∀ i, i < flushes s ptr → s.fs.answers i = true)
        ∨ ok = false ∧ 0 < ptr.length ∧ ∃ k, k < flushes s ptr ∧ FirstRefused s k
          ∧ s'.stream = s.stream ++ ptr.take (505 * (k + 1) - s.log.position)) := by
  induction n generalizing s ptr with
  | zero => omega
  | succ n ih =>
    rcases Nat.eq_zero_or_pos ptr.length with h0 | hptr
    · obtain rfl : ptr = [] := List.length_eq_zero_iff.mp h0
      exact ⟨true, s, appendLoop_nil n s, hpos,
        .inl ⟨rfl, (List.append_nil _).symm, fun h => absurd h (by simp)⟩⟩
    · by_cases hfull : 505 ≤ s.log.position + ptr.length
      · -- The buffer is full: it goes to the shelf or nothing more happens.
        have htake : (ptr.take (505 - s.log.position)).length = 505 - s.log.position := by
          rw [List.length_take]
          omega
        have hstream := @copied_stream s (ptr.take (505 - s.log.position)) (by omega)
        cases ha : s.fs.answers 0
        · rw [appendLoop_full hptr hpos hfull (flush_refused n ha), if_neg Bool.false_ne_true]
          refine ⟨false, _, rfl, ?_, .inr ⟨rfl, hptr, 0, ?_, ⟨fun i hi => absurd hi (by omega), ha⟩,
            ?_⟩⟩
          · show s.log.position + (ptr.take (505 - s.log.position)).length ≤ 505
            omega
          · unfold flushes
            omega
          · rw [Nat.zero_add, Nat.mul_one]
            exact hstream
        · obtain ⟨s1, hflush, hp1, ha1, hs1⟩ := flush_taken n
            (show (s.copied (ptr.take (505 - s.log.position))).fs.answers 0 = true from ha)
          rw [appendLoop_full hptr hpos hfull hflush, if_pos rfl]
          have hdrop : (ptr.drop (505 - s.log.position)).length
              = ptr.length - (505 - s.log.position) := List.length_drop
          have hcount : flushes s ptr = flushes s1 (ptr.drop (505 - s.log.position)) + 1 := by
            unfold flushes
            rw [hdrop, hp1]
            omega
          have hans : ∀ i, s1.fs.answers i = s.fs.answers (i + 1) := congrFun ha1
          have hless : (ptr.drop (505 - s.log.position)).length < n := by omega
          obtain ⟨ok, s', hloop, hp', hres⟩ :=
            @ih s1 (ptr.drop (505 - s.log.position)) (by omega) (.inr ⟨by omega, hless⟩)
          refine ⟨ok, s', hloop, hp', ?_⟩
          rcases hres with ⟨hok, hstr, hall⟩ | ⟨hok, hrest, k, hk, ⟨hbefore, hrefused⟩, hstr⟩
          · refine .inl ⟨hok, ?_, fun _ i hi => ?_⟩
            · rw [hstr, hs1, hstream, List.append_assoc, List.take_append_drop]
            · match i with
              | 0 => exact ha
              | i + 1 =>
                rw [← hans i]
                refine hall ?_ i (by omega)
                by_contra hnone
                unfold flushes at hcount hi
                omega
          · refine .inr ⟨hok, hptr, k + 1, by omega, ⟨fun i hi => ?_, ?_⟩, ?_⟩
            · match i with
              | 0 => exact ha
              | i + 1 => exact (hans i).symm.trans (hbefore i (by omega))
            · exact (hans k).symm.trans hrefused
            · rw [hstr, hs1, hstream, hp1, List.append_assoc]
              congr 1
              rw [show 505 * (k + 1 + 1) - s.log.position
                = (505 - s.log.position) + (505 * (k + 1) - 0) by omega, List.take_add]
      · rw [appendLoop_short n hptr (by omega)]
        obtain ⟨m, rfl⟩ : ∃ m, n = m + 1 := ⟨n - 1, by omega⟩
        refine ⟨true, _, appendLoop_nil m _, ?_, .inl ⟨rfl, copied_stream (by omega), fun _ i hi => ?_⟩⟩
        · rw [copied_position]
          omega
        · unfold flushes at hi
          omega

/-- More rounds change nothing once the loop has returned. -/
theorem appendLoop_mono {m : ℕ} (hnm : n ≤ m) {r : Bool × Line Shelf}
    (h : appendLoop Shelf.append n s ptr = some r) : appendLoop Shelf.append m s ptr = some r := by
  induction n generalizing m s ptr with
  | zero => cases h
  | succ n ih =>
    obtain ⟨m, rfl⟩ : ∃ k, m = k + 1 := ⟨m - 1, by omega⟩
    unfold appendLoop at h ⊢
    by_cases hptr : 0 < ptr.length
    · rw [if_pos hptr] at h ⊢
      dsimp only at h ⊢
      generalize (if FKFS_MAXIMUM_BLOCK_SIZE - s.log.position < ptr.length then
        FKFS_MAXIMUM_BLOCK_SIZE - s.log.position else ptr.length) = copy at h ⊢
      by_cases hfull : FKFS_MAXIMUM_BLOCK_SIZE ≤ (s.log.copy (ptr.take copy)).position
      · rw [if_pos hfull] at h ⊢
        rw [show fkfs_log_flush Shelf.append m = fkfs_log_flush Shelf.append n from rfl]
        split at h
        · exact h
        · exact ih (by omega) h
      · rw [if_neg hfull] at h ⊢
        exact ih (by omega) h
    · rw [if_neg hptr] at h ⊢
      exact h

theorem append_binary_mono {m : ℕ} (hnm : n ≤ m) {canSplit : Bool} {r : Bool × Line Shelf}
    (h : fkfs_log_append_binary Shelf.append n s ptr canSplit = some r) :
    fkfs_log_append_binary Shelf.append m s ptr canSplit = some r := by
  unfold fkfs_log_append_binary at h ⊢
  rw [show fkfs_log_flush Shelf.append m = fkfs_log_flush Shelf.append n from rfl]
  split
  · rename_i hfar
    rw [if_pos hfar] at h
    split
    · rename_i hlong
      rwa [if_pos hlong] at h
    · rename_i hlong
      rw [if_neg hlong] at h
      split at h
      · exact h
      · exact appendLoop_mono hnm h
  · rename_i hfar
    rw [if_neg hfar] at h
    exact appendLoop_mono hnm h

/-! ## One attempt -/

/-- If an attempt to append the record fails, it has added nothing: the record
must not be split and does not fit what is left of the buffer, or the buffer is
full and the first flush is refused, or no flush is refused at all. -/
def Retriable (s : Line Shelf) (record : List UInt8) (canSplit : Bool) : Prop :=
  canSplit = false ∧ 505 - s.log.position < record.length
    ∨ s.log.position = 505 ∧ s.fs.answers 0 = false
    ∨ ∀ i, i < flushes s record → s.fs.answers i = true

/-- What an attempt that returned `ok` left: the stream with the record, or, if
it may be tried again and only then, the stream as it was. -/
structure Attempted (s : Line Shelf) (record : List UInt8) (canSplit ok : Bool) (s' : Line Shelf) :
    Prop where
  position : s'.log.position ≤ 505
  added : ok = true → s'.stream = s.stream ++ record
  unchanged : (ok = false → s'.stream = s.stream) ↔ Retriable s record canSplit

/-- The loop, where the record is not one that has to go into an empty buffer. -/
theorem attempted_loop {canSplit ok : Bool} {s' : Line Shelf} (hpos : s.log.position ≤ 505)
    (hnear : ¬ (canSplit = false ∧ 505 - s.log.position < ptr.length))
    (hn : ptr.length + 1 < n) (h : appendLoop Shelf.append n s ptr = some (ok, s')) :
    Attempted s ptr canSplit ok s' := by
  obtain ⟨ok', s'', h', hp', hres⟩ := appendLoop_spec hpos (.inl hn)
  obtain ⟨rfl, rfl⟩ := Prod.mk.inj (Option.some.inj (h.symm.trans h'))
  rcases hres with ⟨rfl, hstr, hall⟩ | ⟨rfl, hptr, k, hk, ⟨hbefore, hrefused⟩, hstr⟩
  · refine ⟨hp', fun _ => hstr, ⟨fun _ => ?_, fun _ hok => (nomatch hok)⟩⟩
    rcases Nat.eq_zero_or_pos ptr.length with h0 | hptr
    · by_cases hp : s.log.position = 505
      · cases ha : s.fs.answers 0
        · exact .inr (.inl ⟨hp, ha⟩)
        · refine .inr (.inr fun i hi => ?_)
          unfold flushes at hi
          obtain rfl : i = 0 := by omega
          exact ha
      · refine .inr (.inr fun i hi => ?_)
        unfold flushes at hi
        omega
    · exact .inr (.inr (hall hptr))
  · refine ⟨hp', fun hok => (nomatch hok), ⟨fun hsame => ?_, fun hre _ => ?_⟩⟩
    · -- Nothing was copied: the buffer was full when the loop began.
      have hnil : ptr.take (505 * (k + 1) - s.log.position) = [] := by
        have := hstr.symm.trans (hsame rfl)
        rwa [List.append_right_eq_self] at this
      have hlen := congrArg List.length hnil
      rw [List.length_take, List.length_nil] at hlen
      obtain rfl : k = 0 := by omega
      exact .inr (.inl ⟨by omega, hrefused⟩)
    · rcases hre with hfar | ⟨hp, ha⟩ | hall
      · exact absurd hfar hnear
      · have hk0 : k = 0 := by
          rcases Nat.eq_zero_or_pos k with rfl | hkpos
          · rfl
          · rw [hbefore 0 hkpos] at ha
            cases ha
        rw [hstr, hk0, hp, show 505 * (0 + 1) - 505 = 0 by omega, List.take_zero, List.append_nil]
      · rw [hall k hk] at hrefused
        cases hrefused

/-- **One attempt returns**, and what it leaves. -/
theorem append_binary_attempted (hpos : s.log.position ≤ 505) (canSplit : Bool)
    (hn : ptr.length + 1 < n) :
    ∃ ok s', fkfs_log_append_binary Shelf.append n s ptr canSplit = some (ok, s')
      ∧ Attempted s ptr canSplit ok s' := by
  unfold fkfs_log_append_binary
  by_cases hfar : canSplit = false ∧ 505 - s.log.position < ptr.length
  · have hfar' : !canSplit ∧ FKFS_MAXIMUM_BLOCK_SIZE - s.log.position < ptr.length :=
      ⟨by rw [hfar.1]; rfl, hfar.2⟩
    rw [if_pos hfar']
    by_cases hlong : FKFS_MAXIMUM_BLOCK_SIZE ≤ ptr.length
    · rw [if_pos hlong]
      exact ⟨false, s, rfl, hpos, fun hok => (nomatch hok), fun _ => .inl hfar, fun _ _ => rfl⟩
    · rw [if_neg hlong]
      have hshort : ptr.length < 505 := Nat.lt_of_not_le hlong
      cases ha : s.fs.answers 0
      · rw [flush_refused n ha]
        exact ⟨false, _, rfl, hpos, fun hok => (nomatch hok), fun _ => .inl hfar, fun _ _ => rfl⟩
      · obtain ⟨s1, hflush, hp1, -, hs1⟩ := flush_taken n ha
        rw [hflush]
        obtain ⟨ok, s', hloop, hp', hres⟩ :=
          appendLoop_spec (s := s1) (by omega) (.inl hn)
        rcases hres with ⟨rfl, hstr, -⟩ | ⟨-, -, k, hk, -⟩
        · exact ⟨true, s', hloop, hp', fun _ => by rw [hstr, hs1], fun _ => .inl hfar,
            fun _ hok => (nomatch hok)⟩
        · -- An empty buffer has room for it.
          unfold flushes at hk
          omega
  · have hfar' : ¬ (!canSplit ∧ FKFS_MAXIMUM_BLOCK_SIZE - s.log.position < ptr.length) := by
      rintro ⟨hc, hlt⟩
      refine hfar ⟨?_, hlt⟩
      cases canSplit
      · rfl
      · cases hc
    rw [if_neg hfar']
    obtain ⟨ok, s', hloop, -⟩ := appendLoop_spec hpos (.inl hn)
    exact ⟨ok, s', hloop, attempted_loop hpos hfar hn hloop⟩

/-- However many rounds an attempt was given: if it returned, it left this. -/
theorem attempted_of_returned (hpos : s.log.position ≤ 505) {canSplit ok : Bool} {s' : Line Shelf}
    (h : fkfs_log_append_binary Shelf.append n s ptr canSplit = some (ok, s')) :
    Attempted s ptr canSplit ok s' := by
  obtain ⟨ok', s'', h', ha⟩ := append_binary_attempted hpos canSplit
    (show ptr.length + 1 < n + ptr.length + 2 by omega)
  have := (append_binary_mono (show n ≤ n + ptr.length + 2 by omega) h).symm.trans h'
  obtain ⟨rfl, rfl⟩ := Prod.mk.inj (Option.some.inj this)
  exact ha

end Shelves

/-! ## Any number of attempts -/

/-- The buffer of a log that comes from any calls holds at most
`FKFS_MAXIMUM_BLOCK_SIZE` bytes. -/
theorem Reached.position {s : Line Shelf} (h : Reached s) : s.log.position ≤ 505 := by
  induction h with
  | start f fs => exact Nat.zero_le _
  | @flush s hs n ih =>
    cases ha : s.fs.answers 0
    · rw [flush_refused n ha]
      exact ih
    · obtain ⟨s1, hflush, hp1, -⟩ := flush_taken n ha
      rw [hflush, hp1]
      exact Nat.zero_le _
  | append hs h ih => exact (attempted_of_returned ih h).position

/-- The record was appended again and again until that returned true; every
attempt that failed was one that may be tried again. -/
inductive Retried (record : List UInt8) (canSplit : Bool) : Line Shelf → Line Shelf → Prop
  | done {s s' : Line Shelf} {n : ℕ}
      (h : fkfs_log_append_binary Shelf.append n s record canSplit = some (true, s')) :
      Retried record canSplit s s'
  | again {s s1 s' : Line Shelf} {n : ℕ} (hre : Retriable s record canSplit)
      (h : fkfs_log_append_binary Shelf.append n s record canSplit = some (false, s1))
      (t : Retried record canSplit s1 s') : Retried record canSplit s s'

/-- Repeated attempts add the record exactly once. -/
theorem Retried.stream {record : List UInt8} {canSplit : Bool} {s s' : Line Shelf}
    (h : Retried record canSplit s s') (hs : Reached s) : s'.stream = s.stream ++ record := by
  induction h with
  | done h => exact (attempted_of_returned hs.position h).added rfl
  | again hre h t ih =>
    have hsame := (attempted_of_returned hs.position h).unchanged.mpr hre rfl
    rw [ih (hs.append h), hsame]

/-- **When a failed append can be tried again.** Every attempt returns; if it
returns false the stream is the one before exactly if the attempt was
retriable; and attempts of that kind, repeated until one returns true, put the
record into the stream once. -/
theorem append_retry_iff {s : Line Shelf} (hs : Reached s) (record : List UInt8)
    (canSplit : Bool) :
    (∃ ok s', (∀ n, record.length + 1 < n →
        fkfs_log_append_binary Shelf.append n s record canSplit = some (ok, s'))
      ∧ ((ok = false → s'.stream = s.stream) ↔ Retriable s record canSplit))
    ∧ ∀ s', Retried record canSplit s s' → s'.stream = s.stream ++ record := by
  refine ⟨?_, fun s' h => h.stream hs⟩
  obtain ⟨ok, s', h, ha⟩ := append_binary_attempted hs.position canSplit
    (show record.length + 1 < record.length + 2 by omega)
  exact ⟨ok, s', fun n hn => append_binary_mono hn h, ha.unchanged⟩

/-! ## A record that is there twice -/

/-- A new log over a shelf that refuses the first payload. -/
def refusing : Line Shelf :=
  ⟨ fkfs_log_initialize fkfs_log_t.zero 0, ⟨[], fun i => decide (0 < i)⟩⟩

/-- A record that fills the buffer. -/
def fullRecord : List UInt8 := List.replicate 505 7

set_option maxRecDepth 100000 in
/-- The first attempt is refused, the second is taken, and the record is in the
stream twice. -/
theorem refused_record_twice :
    let first := fkfs_log_append_binary Shelf.append 600 refusing fullRecord true
    let second := first.bind fun r => fkfs_log_append_binary Shelf.append 600 r.2 fullRecord true
    Reached refusing ∧ refusing.stream = []
      ∧ first.map (fun r => (r.1, r.2.stream)) = some (false, fullRecord)
      ∧ second.map (fun r => (r.1, r.2.stream)) = some (true, fullRecord ++ fullRecord) := by
  refine ⟨.start 0 _, by decide +kernel, by decide +kernel, by decide +kernel⟩

/-- `append_retry_iff` for two bytes and a new log. -/
theorem append_retry_iff_new :
    (∃ ok s', (∀ n, 3 < n →
        fkfs_log_append_binary Shelf.append n refusing [1, 2] true = some (ok, s'))
      ∧ ((ok = false → s'.stream = refusing.stream) ↔ Retriable refusing [1, 2] true))
    ∧ ∀ s', Retried [1, 2] true refusing s' → s'.stream = refusing.stream ++ [1, 2] :=
  append_retry_iff (.start 0 _) [1, 2] true

end Fkfs.LogRetry
