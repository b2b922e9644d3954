/-
The log of `fkfs_log.cpp`: records of any length, cut into entries.

`fkfs_log_t` collects bytes in a buffer of `FKFS_MAXIMUM_BLOCK_SIZE` and hands
them to `fkfs_file_append` when the buffer is full or on request. What was handed
over so far and what is in the buffer are the pieces of one stream
(`Session.pieces`). Every call adds its record at the end of the stream or adds
nothing (`Extends`), and the pieces there are only grow at the last one, so a
record that lies in one piece stays in one (`Inside.extend`).

The file system behind the log may be used by others between two calls.
-/
import Fkfs.Structure

set_option autoImplicit false

namespace Fkfs.LogStream

open Bytes
open Fkfs.Layout Fkfs.Device Fkfs.Search Fkfs.Append Fkfs.Mount Fkfs.Structure

/-! ## The code -/

/-- `FKFS_MAXIMUM_BLOCK_SIZE`. -/
abbrev FKFS_MAXIMUM_BLOCK_SIZE : ℕ := SD_RAW_BLOCK_SIZE - sizeof_fkfs_entry_t

/-- `fkfs_log_t`, less the pointer to the file system. -/
structure fkfs_log_t where
  file : FileNumber
  position : ℕ
  buffer : Buf FKFS_MAXIMUM_BLOCK_SIZE

/-- A log of zeros. -/
def fkfs_log_t.zero : fkfs_log_t := ⟨0, 0, fun _ => 0⟩

/-- A log with the machine its file system is, and the payloads it handed to
`fkfs_file_append`, each with the status of that call. `handed` is a ghost. -/
structure Session where
  log : fkfs_log_t
  machine : Machine
  handed : List (List UInt8 × Bool)

/-- `fkfs_log_initialize`. -/
def fkfs_log_initialize (log : fkfs_log_t) (file : FileNumber) : fkfs_log_t :=
  { log with buffer := memcpy log.buffer 0 [0], file := file }

/-- The bytes `buffer[0..position)`. -/
def fkfs_log_t.pending (log : fkfs_log_t) : List UInt8 := slice log.buffer.mem 0 log.position

/-- `fkfs_log_flush`. -/
def fkfs_log_flush (ov : Overrun) (pasts : ℕ → Mem) (s : Session) : Bool × Session :=
  match fkfs_file_append ov pasts s.machine s.log.file s.log.pending with
  | (false, m) => (false, { s with machine := m, handed := s.handed ++ [(s.log.pending, false)] })
  | (true, m) =>
    (true, {
      log := { s.log with buffer := memcpy s.log.buffer 0 [0], position := 0 }
      machine := m
      handed := s.handed ++ [(s.log.pending, true)] })

/-- The log with `bytes` copied in at its position. -/
def fkfs_log_t.copy (log : fkfs_log_t) (bytes : List UInt8) : fkfs_log_t :=
  { log with
    buffer := memcpy log.buffer log.position bytes
    position := log.position + bytes.length }

/-- The `while` loop of `fkfs_log_append_binary`, with the bytes at `ptr` that
are still required. -/
def appendLoop (ov : Overrun) (pasts : ℕ → ℕ → Mem) :
    ℕ → Session → List UInt8 → Option (Bool × Session)
  | 0, _, _ => none
  | n + 1, s, ptr =>
    if 0 < ptr.length then
      let available := FKFS_MAXIMUM_BLOCK_SIZE - s.log.position
      let copy := if available < ptr.length then available else ptr.length
      let s := { s with log := s.log.copy (ptr.take copy) }
      let ptr := ptr.drop copy
      if FKFS_MAXIMUM_BLOCK_SIZE ≤ s.log.position then
        match fkfs_log_flush ov (pasts n) s with
        | (false, s) => some (false, s)
        | (true, s) => appendLoop ov pasts n s ptr
      else appendLoop ov pasts n s ptr
    else some (true, s)

/-- `fkfs_log_append_binary`, with `n` rounds at most. -/
def fkfs_log_append_binary (ov : Overrun) (pasts : ℕ → ℕ → Mem) (n : ℕ) (s : Session)
    (ptr : List UInt8) (canSplit : Bool) : Option (Bool × Session) :=
  if !canSplit ∧ FKFS_MAXIMUM_BLOCK_SIZE - s.log.position < ptr.length then
    if FKFS_MAXIMUM_BLOCK_SIZE ≤ ptr.length then some (false, s)
    else
      match fkfs_log_flush ov (pasts n) s with
      | (false, s) => some (false, s)
      | (true, s) => appendLoop ov pasts n s ptr
  else appendLoop ov pasts n s ptr

/-- The bytes of a string up to its NUL: `strlen(str)` of them. -/
def cstring (str : List UInt8) : List UInt8 := str.takeWhile (· ≠ 0)

/-- `fkfs_log_append`. -/
def fkfs_log_append (ov : Overrun) (pasts : ℕ → ℕ → Mem) (n : ℕ) (s : Session)
    (str : List UInt8) : Option (Bool × Session) :=
  fkfs_log_append_binary ov pasts n s (cstring str) true

/-! ## Pieces of a stream -/

section Pieces

variable {α : Type*}

/-- The pieces of `P` and then `xs`, the last piece continued first. -/
def Extends (P P' : List (List α)) (xs : List α) : Prop :=
  ∃ ps last more qs, P = ps ++ [last] ∧ P' = ps ++ (last ++ more) :: qs
    ∧ more ++ qs.flatten = xs

/-- Behind `pre` the stream goes on with `r`, which lies wholly inside one piece. -/
def Inside (P : List (List α)) (pre r : List α) : Prop :=
  ∃ ps a b qs, P = ps ++ (a ++ r ++ b) :: qs ∧ ps.flatten ++ a = pre

variable {P P' P'' : List (List α)} {xs ys pre r : List α}

theorem extends_refl (ps : List (List α)) (last : List α) :
    Extends (ps ++ [last]) (ps ++ [last]) [] :=
  ⟨ps, last, [], [], rfl, by rw [List.append_nil], rfl⟩

theorem Extends.trans (h : Extends P P' xs) (h' : Extends P' P'' ys) :
    Extends P P'' (xs ++ ys) := by
  obtain ⟨ps, last, more, qs, rfl, rfl, rfl⟩ := h
  obtain ⟨ps', last', more', qs', he, rfl, rfl⟩ := h'
  rcases List.eq_nil_or_concat' qs with rfl | ⟨init, q, rfl⟩
  · -- The last piece is still the last one.
    obtain ⟨rfl, hlast⟩ := List.append_inj' he rfl
    obtain rfl : last ++ more = last' := by simpa using hlast
    exact ⟨ps, last, more ++ more', qs', rfl, by simp, by simp⟩
  · rw [← List.cons_append, ← List.append_assoc] at he
    obtain ⟨rfl, hlast⟩ := List.append_inj' he rfl
    obtain rfl : q = last' := by simpa using hlast
    exact ⟨ps, last, more, init ++ (q ++ more') :: qs', rfl, by simp, by simp⟩

/-- The stream goes on with `xs`. -/
theorem Extends.flatten (h : Extends P P' xs) : P'.flatten = P.flatten ++ xs := by
  obtain ⟨ps, last, more, qs, rfl, rfl, rfl⟩ := h
  simp

/-- A record that lies in one piece stays in one. -/
theorem Inside.extend (h : Inside P pre r) (he : Extends P P' xs) : Inside P' pre r := by
  obtain ⟨ps, a, b, qs, rfl, rfl⟩ := h
  obtain ⟨ps', last, more, qs', hP, rfl, -⟩ := he
  rcases List.eq_nil_or_concat' qs with rfl | ⟨init, q, rfl⟩
  · obtain ⟨rfl, hlast⟩ := List.append_inj' hP rfl
    obtain rfl : a ++ r ++ b = last := by simpa using hlast
    exact ⟨ps, a, b ++ more, qs', by simp, rfl⟩
  · rw [← List.cons_append, ← List.append_assoc] at hP
    obtain ⟨rfl, -⟩ := List.append_inj' hP rfl
    exact ⟨ps, a, b, init ++ (last ++ more) :: qs', by simp, rfl⟩

end Pieces

/-! ## What a call adds to the stream -/

/-- What was handed over, and then what is in the buffer. -/
def Session.pieces (s : Session) : List (List UInt8) :=
  s.handed.map Prod.fst ++ [s.log.pending]

/-- `fkfs_file_append` returned true for every size from 1 to
`FKFS_MAXIMUM_BLOCK_SIZE`. -/
def Willing (s : Session) : Prop :=
  ∀ p ∈ s.handed, 0 < p.1.length → p.1.length ≤ FKFS_MAXIMUM_BLOCK_SIZE → p.2 = true

/-- From `s` to `s'` payloads were handed over, of 1 to `FKFS_MAXIMUM_BLOCK_SIZE`
bytes each. -/
def Hands (s s' : Session) : Prop :=
  ∃ ps, s'.handed = s.handed ++ ps
    ∧ ∀ p ∈ ps, 0 < p.1.length ∧ p.1.length ≤ FKFS_MAXIMUM_BLOCK_SIZE

theorem Hands.refl (s : Session) : Hands s s :=
  ⟨[], (List.append_nil _).symm, fun _ hp => nomatch hp⟩

theorem Hands.trans {s s' s'' : Session} (h : Hands s s') (h' : Hands s' s'') : Hands s s'' := by
  obtain ⟨ps, he, hps⟩ := h
  obtain ⟨qs, he', hqs⟩ := h'
  refine ⟨ps ++ qs, by rw [he', he, List.append_assoc], fun p hp => ?_⟩
  rcases List.mem_append.mp hp with hp | hp
  · exact hps p hp
  · exact hqs p hp

/-- What was handed over before was accepted, if everything was. -/
theorem Willing.before {s s' : Session} (h : Willing s') (hh : Hands s s') : Willing s := by
  obtain ⟨ps, he, -⟩ := hh
  intro p hp
  refine h p ?_
  rw [he]
  exact List.mem_append_left _ hp

theorem pending_length (log : fkfs_log_t) : log.pending.length = log.position := slice_length _ _ _

/-- Bytes copied in at the position follow what is in the buffer. -/
theorem copy_pending {log : fkfs_log_t} {bytes : List UInt8}
    (h : log.position + bytes.length ≤ FKFS_MAXIMUM_BLOCK_SIZE) :
    (log.copy bytes).pending = log.pending ++ bytes := by
  have hold : slice (log.copy bytes).buffer.mem 0 log.position = log.pending :=
    slice_congr fun i _ hi => memcpy_outside log.buffer log.position bytes (.inl (by omega))
  have hnew : slice (log.copy bytes).buffer.mem (0 + log.position) bytes.length = bytes := by
    rw [Nat.zero_add]
    exact memcpy_holds log.buffer log.position bytes h
  change slice (log.copy bytes).buffer.mem 0 (log.position + bytes.length) = _
  rw [slice_add, hold, hnew]

/-- From `s` to `s'` the bytes `more` were added to the piece in the buffer; the
pieces behind it, if there are any, are empty. -/
def Continues (s s' : Session) (more : List UInt8) : Prop :=
  ∃ qs, s'.pieces = s.handed.map Prod.fst ++ (s.log.pending ++ more) :: qs ∧ qs.flatten = []

theorem Continues.extends {s s' : Session} {more : List UInt8} (h : Continues s s' more) :
    Extends s.pieces s'.pieces more := by
  obtain ⟨qs, he, hq⟩ := h
  exact ⟨_, _, more, qs, rfl, he, by rw [hq, List.append_nil]⟩

section Calls

variable {ov : Overrun} {s s' : Session}

/-- **Every way a flush can end**: the buffer was handed over, and it is empty
now if that was accepted. -/
theorem flush_cases (ov : Overrun) (pasts : ℕ → Mem) (s : Session) :
    (∃ s', fkfs_log_flush ov pasts s = (false, s') ∧ s'.log = s.log
        ∧ s'.handed = s.handed ++ [(s.log.pending, false)])
      ∨ ∃ s', fkfs_log_flush ov pasts s = (true, s') ∧ s'.log.position = 0
        ∧ s'.handed = s.handed ++ [(s.log.pending, true)] := by
  unfold fkfs_log_flush
  split
  · exact .inl ⟨_, rfl, rfl, rfl⟩
  · exact .inr ⟨_, rfl, rfl, rfl⟩

theorem pending_nil {log : fkfs_log_t} (h : log.position = 0) : log.pending = [] := by
  rw [fkfs_log_t.pending, h, slice_zero]

/-- A flush of something starts a new piece, or is refused. -/
theorem flush_nonempty (ov : Overrun) (pasts : ℕ → Mem) (hpos : 0 < s.log.position)
    (hle : s.log.position ≤ FKFS_MAXIMUM_BLOCK_SIZE) :
    (∃ s', fkfs_log_flush ov pasts s = (false, s') ∧ Hands s s' ∧ ¬ Willing s')
      ∨ ∃ s', fkfs_log_flush ov pasts s = (true, s') ∧ Hands s s' ∧ s'.log.position = 0
        ∧ Continues s s' [] := by
  have hlen : s.log.pending.length = s.log.position := pending_length s.log
  have hhands : ∀ (s' : Session) ok, s'.handed = s.handed ++ [(s.log.pending, ok)] → Hands s s' := by
    intro s' ok he
    refine ⟨_, he, fun p hp => ?_⟩
    rw [List.mem_singleton.mp hp]
    exact ⟨hlen ▸ hpos, hlen ▸ hle⟩
  rcases flush_cases ov pasts s with ⟨s', e, -, he⟩ | ⟨s', e, h0, he⟩
  · refine .inl ⟨s', e, hhands s' false he, fun hw => ?_⟩
    have hmem : (s.log.pending, false) ∈ s'.handed := by
      rw [he]
      exact List.mem_append_right _ List.mem_cons_self
    have hfull : s.log.pending.length ≤ FKFS_MAXIMUM_BLOCK_SIZE := by omega
    have hsome : 0 < s.log.pending.length := by omega
    exact absurd (hw _ hmem hsome hfull) (by simp)
  · refine .inr ⟨s', e, hhands s' true he, h0, [[]], ?_, rfl⟩
    rw [Session.pieces, he, pending_nil h0]
    simp

/-- **One round of the loop**: it copies what is required or what there is room
for, and flushes a full buffer. -/
theorem appendLoop_round (ov : Overrun) (pasts : ℕ → ℕ → Mem) (n : ℕ) {ptr : List UInt8}
    (hptr : 0 < ptr.length) (hpos : s.log.position < FKFS_MAXIMUM_BLOCK_SIZE) :
    ∃ k, 0 < k ∧ (s.log.position + ptr.length ≤ FKFS_MAXIMUM_BLOCK_SIZE → k = ptr.length)
      ∧ ((∃ s', appendLoop ov pasts (n + 1) s ptr = some (false, s') ∧ Hands s s' ∧ ¬ Willing s')
        ∨ ∃ s', appendLoop ov pasts (n + 1) s ptr = appendLoop ov pasts n s' (ptr.drop k)
          ∧ Hands s s' ∧ s'.log.position < FKFS_MAXIMUM_BLOCK_SIZE
          ∧ Continues s s' (ptr.take k)) := by
  set k := if FKFS_MAXIMUM_BLOCK_SIZE - s.log.position < ptr.length
    then FKFS_MAXIMUM_BLOCK_SIZE - s.log.position else ptr.length with hk
  have hk0 : 0 < k := by
    rw [hk]
    split <;> omega
  have hroom : s.log.position + (ptr.take k).length ≤ FKFS_MAXIMUM_BLOCK_SIZE := by
    rw [List.length_take, hk]
    split <;> omega
  refine ⟨k, hk0, fun hfit => by rw [hk, if_neg (by omega)], ?_⟩
  -- The log with the bytes in its buffer.
  obtain ⟨s1, hs1⟩ : ∃ s1 : Session, s1 = { s with log := s.log.copy (ptr.take k) } := ⟨_, rfl⟩
  have hpos1 : s1.log.position = s.log.position + (ptr.take k).length := by
    rw [hs1]
    rfl
  have hcopy : s1.pieces = s.handed.map Prod.fst ++ [s.log.pending ++ ptr.take k] := by
    rw [Session.pieces, hs1]
    change _ ++ [(s.log.copy (ptr.take k)).pending] = _
    rw [copy_pending hroom]
  have hhands : ∀ s', Hands s1 s' → Hands s s' := by
    intro s' h
    rw [hs1] at h
    exact h
  have hround : appendLoop ov pasts (n + 1) s ptr
      = if FKFS_MAXIMUM_BLOCK_SIZE ≤ s1.log.position then
          match fkfs_log_flush ov (pasts n) s1 with
          | (false, s) => some (false, s)
          | (true, s) => appendLoop ov pasts n s (ptr.drop k)
        else appendLoop ov pasts n s1 (ptr.drop k) := by
    rw [hs1, appendLoop, if_pos hptr]
  rw [hround]
  have htake : 0 < (ptr.take k).length := by
    rw [List.length_take]
    omega
  split
  · rcases flush_nonempty ov (pasts n) (s := s1) (by omega) (by omega) with
      ⟨s', e, hh, hw⟩ | ⟨s', e, hh, h0, hc⟩
    · rw [e]
      exact .inl ⟨s', rfl, hhands s' hh, hw⟩
    · rw [e]
      refine .inr ⟨s', rfl, hhands s' hh, by omega, ?_⟩
      obtain ⟨qs, he, hq⟩ := hc
      refine ⟨qs, ?_, hq⟩
      rw [he, hs1]
      change _ ++ ((s.log.copy (ptr.take k)).pending ++ []) :: qs = _
      rw [copy_pending hroom, List.append_nil]
  · exact .inr ⟨s1, rfl, hhands s1 (.refl s1), by omega, [], hcopy, rfl⟩

/-- With nothing required the loop is over. -/
theorem appendLoop_nil {pasts : ℕ → ℕ → Mem} {n : ℕ} {ok : Bool}
    (h : appendLoop ov pasts n s [] = some (ok, s')) : s' = s := by
  cases n with
  | zero => cases h
  | succ n =>
    rw [appendLoop, if_neg (by simp)] at h
    cases h
    rfl

/-- The loop returns: every round copies a byte at least. -/
theorem appendLoop_returns (pasts : ℕ → ℕ → Mem) {n : ℕ} {ptr : List UInt8}
    (hpos : s.log.position < FKFS_MAXIMUM_BLOCK_SIZE) (hn : ptr.length < n) :
    ∃ r, appendLoop ov pasts n s ptr = some r := by
  induction n generalizing s ptr with
  | zero => omega
  | succ n ih =>
    rcases Nat.eq_zero_or_pos ptr.length with h0 | hptr
    · exact ⟨_, by rw [appendLoop, if_neg (by omega)]⟩
    · obtain ⟨k, hk, -, ⟨s', e, -⟩ | ⟨s', e, -, hpos', -⟩⟩ :=
        appendLoop_round ov pasts n hptr hpos
      · exact ⟨_, e⟩
      · rw [e]
        exact ih hpos' (by rw [List.length_drop]; omega)

/-- **The loop** adds its bytes to the stream, in the piece in the buffer if
there is room. -/
theorem appendLoop_spec {pasts : ℕ → ℕ → Mem} {n : ℕ} {ptr : List UInt8} {ok : Bool}
    (hpos : s.log.position < FKFS_MAXIMUM_BLOCK_SIZE)
    (h : appendLoop ov pasts n s ptr = some (ok, s')) :
    Hands s s' ∧ (Willing s' → ok = true ∧ s'.log.position < FKFS_MAXIMUM_BLOCK_SIZE
      ∧ Extends s.pieces s'.pieces ptr
      ∧ (s.log.position + ptr.length ≤ FKFS_MAXIMUM_BLOCK_SIZE → Continues s s' ptr)) := by
  induction n generalizing s ptr with
  | zero => cases h
  | succ n ih =>
    rcases Nat.eq_zero_or_pos ptr.length with h0 | hptr
    · obtain rfl : ptr = [] := List.length_eq_zero_iff.mp h0
      rw [appendLoop, if_neg (by omega)] at h
      cases h
      exact ⟨.refl s', fun _ => ⟨rfl, hpos, extends_refl _ _,
        fun _ => ⟨[], by rw [List.append_nil]; rfl, rfl⟩⟩⟩
    · obtain ⟨k, hk, hfit, ⟨s1, e, hh, hno⟩ | ⟨s1, e, hh, hpos1, hc⟩⟩ :=
        appendLoop_round ov pasts n hptr hpos
      · rw [e] at h
        cases h
        exact ⟨hh, fun hw => absurd hw hno⟩
      · rw [e] at h
        obtain ⟨hh', hrest⟩ := ih hpos1 h
        refine ⟨hh.trans hh', fun hw => ?_⟩
        obtain ⟨hok, hpos', hext, hcont⟩ := hrest hw
        refine ⟨hok, hpos', ?_, fun hroom => ?_⟩
        · have := hc.extends.trans hext
          rwa [List.take_append_drop] at this
        · -- All of it was copied in this round, so the rest of the loop did nothing.
          obtain rfl := hfit hroom
          rw [List.drop_length] at h
          rw [appendLoop_nil h]
          rwa [List.take_length] at hc

/-- **`fkfs_log_append_binary`** refuses its record, or adds it to the stream,
and in one piece if it must not be split. -/
theorem append_binary_spec {pasts : ℕ → ℕ → Mem} {n : ℕ} {ptr : List UInt8} {canSplit ok : Bool}
    (hpos : s.log.position < FKFS_MAXIMUM_BLOCK_SIZE)
    (h : fkfs_log_append_binary ov pasts n s ptr canSplit = some (ok, s')) :
    Hands s s' ∧ (Willing s' → (ok = false → s' = s)
      ∧ s'.log.position < FKFS_MAXIMUM_BLOCK_SIZE
      ∧ (ok = true → Extends s.pieces s'.pieces ptr
        ∧ (canSplit = false → Inside s'.pieces s.pieces.flatten ptr))) := by
  unfold fkfs_log_append_binary at h
  -- A record that was added to the piece in the buffer lies inside it.
  have hinside : ∀ {s1}, Continues s1 s' ptr → Inside s'.pieces s1.pieces.flatten ptr := by
    rintro s1 ⟨qs, he, -⟩
    refine ⟨s1.handed.map Prod.fst, s1.log.pending, [], qs, ?_, by simp [Session.pieces]⟩
    rw [he, List.append_nil]
  split at h
  · rename_i hcond
    split at h
    · cases h
      exact ⟨.refl s, fun _ => ⟨fun _ => rfl, hpos, fun hok => nomatch hok⟩⟩
    · rename_i hshort
      rcases flush_nonempty ov (pasts n) (s := s) (by omega) (by omega) with
        ⟨s1, e, hh, hno⟩ | ⟨s1, e, hh, h0, hc⟩
      · rw [e] at h
        cases h
        exact ⟨hh, fun hw => absurd hw hno⟩
      · rw [e] at h
        obtain ⟨hh', hrest⟩ := appendLoop_spec (by omega) h
        refine ⟨hh.trans hh', fun hw => ?_⟩
        obtain ⟨rfl, hpos', hext, hcont⟩ := hrest hw
        refine ⟨(fun hok => nomatch hok), hpos', fun _ => ⟨hc.extends.trans hext, fun _ => ?_⟩⟩
        have hsame : s1.pieces.flatten = s.pieces.flatten := by
          rw [hc.extends.flatten, List.append_nil]
        rw [← hsame]
        exact hinside (hcont (by omega))
  · rename_i hcond
    obtain ⟨hh, hrest⟩ := appendLoop_spec hpos h
    refine ⟨hh, fun hw => ?_⟩
    obtain ⟨rfl, hpos', hext, hcont⟩ := hrest hw
    refine ⟨(fun hok => nomatch hok), hpos', fun _ => ⟨hext, fun hsplit => ?_⟩⟩
    refine hinside (hcont ?_)
    rw [hsplit] at hcond
    simp only [Bool.not_false, true_and, not_lt] at hcond
    omega

/-- It returns, whatever it is given, if nothing it hands over is refused. -/
theorem append_binary_returns (pasts : ℕ → ℕ → Mem) {n : ℕ} {ptr : List UInt8} (canSplit : Bool)
    (hpos : s.log.position < FKFS_MAXIMUM_BLOCK_SIZE) (hn : ptr.length < n) :
    ∃ r, fkfs_log_append_binary ov pasts n s ptr canSplit = some r := by
  unfold fkfs_log_append_binary
  split
  · split
    · exact ⟨_, rfl⟩
    · rcases flush_cases ov (pasts n) s with ⟨s1, e, -⟩ | ⟨s1, e, h0, -⟩
      · rw [e]
        exact ⟨_, rfl⟩
      · rw [e]
        exact appendLoop_returns pasts (by omega) hn
  · exact appendLoop_returns pasts hpos hn

end Calls

/-! ## Runs -/

/-- A run of log calls after `fkfs_log_initialize` of a log of zeros, with the
records of the calls that returned true and whether each could be split.
`fkfs_file_append` returns true for every size from 1 to
`FKFS_MAXIMUM_BLOCK_SIZE`; between the calls anything may happen to the file
system. -/
inductive Session.Run (ov : Overrun) : Session → List (List UInt8 × Bool) → Prop
  | start (m : Machine) (file : FileNumber) :
      Run ov ⟨ fkfs_log_initialize .zero file, m, []⟩ []
  | append_binary {s s' : Session} {accepted : List (List UInt8 × Bool)} (hs : Run ov s accepted)
      (ptr : List UInt8) (canSplit : Bool) {pasts : ℕ → ℕ → Mem} {n : ℕ} {ok : Bool}
      (h : fkfs_log_append_binary ov pasts n s ptr canSplit = some (ok, s')) (hw : Willing s') :
      Run ov s' (if ok then accepted ++ [(ptr, canSplit)] else accepted)
  | append {s s' : Session} {accepted : List (List UInt8 × Bool)} (hs : Run ov s accepted)
      (str : List UInt8) {pasts : ℕ → ℕ → Mem} {n : ℕ} {ok : Bool}
      (h : fkfs_log_append ov pasts n s str = some (ok, s')) (hw : Willing s') :
      Run ov s' (if ok then accepted ++ [(cstring str, true)] else accepted)
  | flush {s s' : Session} {accepted : List (List UInt8 × Bool)} (hs : Run ov s accepted)
      {pasts : ℕ → Mem} {ok : Bool} (h : fkfs_log_flush ov pasts s = (ok, s')) (hw : Willing s') :
      Run ov s' accepted
  | elsewhere {s : Session} {accepted : List (List UInt8 × Bool)} (hs : Run ov s accepted)
      (m : Machine) : Run ov { s with machine := m } accepted

/-- What holds of a log after a run. -/
structure Fidelity (ov : Overrun) (s : Session) (accepted : List (List UInt8 × Bool)) : Prop where
  stream : (s.handed.map Prod.fst).flatten ++ s.log.pending = (accepted.map Prod.fst).flatten
  position : s.log.position < FKFS_MAXIMUM_BLOCK_SIZE
  /-- Only an empty payload is ever refused. -/
  payloads : ∀ p ∈ s.handed,
    (0 < p.1.length ∧ p.1.length ≤ FKFS_MAXIMUM_BLOCK_SIZE ∧ p.2 = true) ∨ (p.1 = [] ∧ p.2 = false)
  whole : ∀ as r bs, accepted = as ++ (r, false) :: bs →
    Inside (s.handed.map Prod.fst ++ [s.log.pending]) (as.map Prod.fst).flatten r

/-- An empty buffer is refused. -/
theorem append_nil (ov : Overrun) (pasts : ℕ → Mem) (m : Machine) (f : FileNumber) :
    fkfs_file_append ov pasts m f [] = (false, m) := rfl

namespace Fidelity

variable {ov : Overrun} {s s' : Session} {accepted : List (List UInt8 × Bool)}

/-- A call that hands over what it may and adds `r` to the stream, or nothing. -/
theorem extend (h : Fidelity ov s accepted) (hh : Hands s s') (hw : Willing s')
    (hpos : s'.log.position < FKFS_MAXIMUM_BLOCK_SIZE) {r : List UInt8}
    (canSplit : Bool) (hext : Extends s.pieces s'.pieces r)
    (hin : canSplit = false → Inside s'.pieces s.pieces.flatten r) :
    Fidelity ov s' (accepted ++ [(r, canSplit)]) := by
  have hstream : s.pieces.flatten = (accepted.map Prod.fst).flatten := by
    rw [← h.stream]
    simp [Session.pieces]
  refine ⟨?_, hpos, fun p hp => ?_, fun as q bs he => ?_⟩
  · have := hext.flatten
    rw [hstream] at this
    simpa [Session.pieces] using this
  · obtain ⟨ps, hhanded, hps⟩ := hh
    have hmem := hp
    rw [hhanded] at hmem
    rcases List.mem_append.mp hmem with hold | hnew
    · exact h.payloads p hold
    · obtain ⟨h1, h2⟩ := hps p hnew
      exact .inl ⟨h1, h2, hw p hp h1 h2⟩
  · -- The record is the new one, or an old one, whose piece only grew.
    rcases List.eq_nil_or_concat' bs with rfl | ⟨init, b, rfl⟩
    · obtain ⟨rfl, hlast⟩ := List.append_inj' he rfl
      simp only [List.cons.injEq, Prod.mk.injEq, and_true] at hlast
      obtain ⟨rfl, hsplit⟩ := hlast
      rw [← hstream]
      exact hin hsplit
    · rw [← List.cons_append, ← List.append_assoc] at he
      obtain ⟨hinit, -⟩ := List.append_inj' he rfl
      exact (h.whole as q init hinit).extend hext

/-- A call that adds nothing. -/
theorem stay (h : Fidelity ov s accepted) (hh : Hands s s') (hw : Willing s')
    (hpos : s'.log.position < FKFS_MAXIMUM_BLOCK_SIZE) (hext : Extends s.pieces s'.pieces []) :
    Fidelity ov s' accepted := by
  have hnew := h.extend hh hw hpos true hext (fun hc => nomatch hc)
  refine ⟨?_, hnew.position, hnew.payloads, fun as r bs he => ?_⟩
  · simpa using hnew.stream
  · exact (h.whole as r bs he).extend hext

theorem append_binary (h : Fidelity ov s accepted) {pasts : ℕ → ℕ → Mem} {n : ℕ}
    {ptr : List UInt8} {canSplit ok : Bool}
    (he : fkfs_log_append_binary ov pasts n s ptr canSplit = some (ok, s')) (hw : Willing s') :
    Fidelity ov s' (if ok then accepted ++ [(ptr, canSplit)] else accepted) := by
  obtain ⟨hh, hrest⟩ := append_binary_spec h.position he
  obtain ⟨hfalse, hpos, htrue⟩ := hrest hw
  cases ok with
  | false =>
    rw [hfalse rfl]
    exact h
  | true =>
    obtain ⟨hext, hin⟩ := htrue rfl
    exact h.extend hh hw hpos _ hext hin

theorem flush (h : Fidelity ov s accepted) {pasts : ℕ → Mem} {ok : Bool}
    (he : fkfs_log_flush ov pasts s = (ok, s')) (hw : Willing s') : Fidelity ov s' accepted := by
  rcases Nat.eq_zero_or_pos s.log.position with h0 | hpos
  · -- There is nothing in the buffer.
    have hnil := pending_nil h0
    rw [fkfs_log_flush, hnil, append_nil] at he
    cases he
    refine ⟨?_, h.position, fun p hp => ?_, fun as r bs he => ?_⟩
    · have := h.stream
      simpa [hnil] using this
    · rcases List.mem_append.mp hp with hp | hp
      · exact h.payloads p hp
      · rw [List.mem_singleton.mp hp]
        exact .inr ⟨rfl, rfl⟩
    · refine (h.whole as r bs he).extend ⟨s.handed.map Prod.fst, s.log.pending, [], [[]], rfl, ?_, rfl⟩
      simp [hnil]
  · rcases flush_nonempty ov pasts hpos (le_of_lt h.position) with
      ⟨s1, e, -, hno⟩ | ⟨s1, e, hh, h0, hc⟩
    · rw [e] at he
      cases he
      exact absurd hw hno
    · rw [e] at he
      cases he
      exact h.stay hh hw (by rw [h0]; decide) hc.extends

end Fidelity

/-- **The log is faithful**: what was handed over and what is in the buffer are
the accepted records, one after the other. -/
theorem stream_fidelity {ov : Overrun} {s : Session} {accepted : List (List UInt8 × Bool)}
    (h : s.Run ov accepted) :
    Fidelity ov s accepted
      ∧ (∀ ptr canSplit, ∃ N, ∀ n pasts, N ≤ n → ∃ ok s',
        fkfs_log_append_binary ov pasts n s ptr canSplit = some (ok, s') ∧ Hands s s'
          ∧ (Willing s' → ok = false → s' = s))
      ∧ ∀ pasts s', fkfs_log_flush ov pasts s = (false, s') → Willing s' →
        s.log.position = 0 ∧ s'.log = s.log := by
  have hf : Fidelity ov s accepted := by
    induction h with
    | start m file =>
      exact ⟨rfl, show 0 < 505 by decide, (fun p hp => nomatch hp), fun as r bs he => by simp at he⟩
    | append_binary hs ptr canSplit h hw ih => exact ih.append_binary h hw
    | append hs str h hw ih => exact ih.append_binary h hw
    | flush hs h hw ih => exact ih.flush h hw
    | elsewhere hs m ih => exact ⟨ih.stream, ih.position, ih.payloads, ih.whole⟩
  refine ⟨hf, fun ptr canSplit => ⟨ptr.length + 1, fun n pasts hn => ?_⟩, fun pasts s' e hw => ?_⟩
  · obtain ⟨⟨ok, s'⟩, e⟩ := append_binary_returns pasts canSplit hf.position
      (Nat.lt_of_succ_le hn)
    obtain ⟨hh, hrest⟩ := append_binary_spec hf.position e
    exact ⟨ok, s', e, hh, fun hw => (hrest hw).1⟩
  · rcases Nat.eq_zero_or_pos s.log.position with h0 | hpos
    · rw [fkfs_log_flush, pending_nil h0, append_nil] at e
      cases e
      exact ⟨h0, rfl⟩
    · rcases flush_nonempty ov pasts hpos (le_of_lt hf.position) with
        ⟨s1, e1, -, hno⟩ | ⟨s1, e1, -⟩
      · rw [e1] at e
        cases e
        exact absurd hw hno
      · rw [e1] at e
        cases e

/-- A log of zeros on a wiped card. -/
def freshSession : Session := ⟨ fkfs_log_initialize .zero 0, wipedMachine 9000, []⟩

/-- A flush of the empty buffer hands over no byte at all. -/
theorem flush_hands_over_nothing :
    ∃ s : Session, s.Run .reads [] ∧ ∃ p ∈ s.handed, p.1.length = 0 := by
  have hflush : fkfs_log_flush .reads (fun _ _ => 0) freshSession
      = (false, { freshSession with handed := [([], false)] }) := rfl
  refine ⟨_, .flush (.start (wipedMachine 9000) 0) hflush ?_, ([], false), List.mem_cons_self, rfl⟩
  intro p hp hpos
  have hp' : p = ([], false) := List.mem_singleton.mp hp
  rw [hp'] at hpos
  cases hpos

/-- Three bytes that must not be split, in the buffer. -/
def writtenSession : Session := { freshSession with log := freshSession.log.copy [1, 2, 3] }

/-- And handed over. -/
def flushedSession : Session := (fkfs_log_flush .reads (fun _ _ => 0) writtenSession).2

set_option maxRecDepth 100000 in
/-- The three bytes are in the stream. -/
theorem stream_fidelity_flushed :
    (flushedSession.handed.map Prod.fst).flatten ++ flushedSession.log.pending = [1, 2, 3] := by
  have hwrite : fkfs_log_append_binary .reads (fun _ _ _ => 0) 2 freshSession [1, 2, 3] false
      = some (true, writtenSession) := rfl
  have hstatus : (fkfs_log_flush .reads (fun _ _ => 0) writtenSession).1 = true
      ∧ ∀ p ∈ flushedSession.handed, 0 < p.1.length → p.1.length ≤ FKFS_MAXIMUM_BLOCK_SIZE →
        p.2 = true := by
    decide +kernel
  have hflush : fkfs_log_flush .reads (fun _ _ => 0) writtenSession = (true, flushedSession) := by
    rw [← hstatus.1]
    rfl
  have hrun : writtenSession.Run .reads [([1, 2, 3], false)] :=
    .append_binary (.start (wipedMachine 9000) 0) [1, 2, 3] false hwrite fun p hp => nomatch hp
  exact (stream_fidelity (.flush hrun hflush hstatus.2)).1.stream

end Fkfs.LogStream
