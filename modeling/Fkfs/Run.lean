/-
Calls of an application, and what every one of them keeps.

A `Call` is one call of the public functions of `fkfs.h` that act on a mounted
file system, with its arguments and everything it finds around it: the clock,
what lies behind `fs->files`, and how many rounds its loops are given.
Creating and reopening an iterator touch nothing but the iterator and are not
among them.

`Survives` lists the primitives a call is made of. A property that each of them
keeps is kept by every call (`perform_rule`), whatever the call is given and
however the card fails under it.
-/
import Fkfs.Reader

set_option autoImplicit false

namespace Fkfs.Run

open Bytes
open Fkfs.Crc Fkfs.Layout Fkfs.Device Fkfs.Search Fkfs.Append Fkfs.Iterate Fkfs.Cache Fkfs.Walk
open Fkfs.Writer Fkfs.Reader

/-! ## Calls -/

/-- A call on a mounted file system. -/
inductive Call
  | append (f : FileNumber) (data : List UInt8) (pasts : ℕ → Mem)
  | truncate (f : FileNumber)
  | truncateAll
  | truncateAt (iter scratch : fkfs_file_iter_t) (ams : ℕ → Ambient) (n : ℕ)
  | touch (time : UInt32)
  | flush (now : UInt32)
  | ensure (iter : fkfs_file_iter_t)
  | iterate (config : fkfs_iterator_config_t) (am : Ambient) (n : ℕ) (iter : fkfs_file_iter_t)

/-- What a call returns and leaves; nothing if its rounds do not suffice. -/
def perform (ov : Overrun) (s : Machine) : Call → Option (Bool × Machine)
  | .append f data pasts => some (fkfs_file_append ov pasts s f data)
  | .truncate f => some (true, fkfs_file_truncate s f)
  | .truncateAll => some (true, fkfs_file_truncate_all s)
  | .truncateAt iter scratch ams n =>
    (fkfs_file_truncate_at ov ams n s iter scratch).map fun s => (true, s)
  | .touch time => some (fkfs_touch s time)
  | .flush now => some (fkfs_flush s now)
  | .ensure iter => some (fkfs_file_iterator_ensure s iter)
  | .iterate config am n iter =>
    (fkfs_file_iterate ov n config am s iter).map fun r => (r.1, r.2.1)

/-- The payload of an append is one `fkfs_file_append` can take. -/
def Call.Sane : Call → Prop
  | .append _ data _ => data.length ≤ 505
  | _ => True

/-- The machine with another failure pattern ahead. -/
def withFaults (s : Machine) (faults : List Bool) : Machine :=
  { s with sd := { s.sd with faults := faults } }

/-! ## A rule for calls -/

/-- The parts of a header that only the writer's moves and syncs change. -/
def SameWriter (h h' : fkfs_header_t) : Prop :=
  h'.block = h.block ∧ h'.offset = h.offset ∧ h'.generation = h.generation

/-- What a property of machines needs to be kept by every call. -/
structure Survives (Inv : Machine → Prop) : Prop where
  header : ∀ {m h}, Inv m → SameWriter m.fs.header h → Inv (m.setHeader h)
  header_write : ∀ {m}, Inv m → Inv (fkfs_header_write m false).2
  sync : ∀ {m}, Inv m → Inv (fkfs_fsync m).2
  next : ∀ {m}, Inv m → m.fs.cachedBlockDirty = false → Inv (fkfs_next_block m)
  load : ∀ {m} (b : UInt32), Inv m → Inv (fkfs_block_ensure m b).2
  place : ∀ {m} {o : UInt16}, Inv m → o.toNat ≤ 512 →
    Inv (m.setHeader { m.fs.header with offset := o })
  store : ∀ {m} {f : FileNumber} {data : List UInt8}, Inv m →
    m.fs.cachedBlockNumber = m.fs.header.block → data.length ≤ 505 →
    m.fs.header.offset.toNat + (7 + data.length) ≤ 512 → Inv (afterStore m f data)

section Rules

variable {ov : Overrun} {Inv : Machine → Prop}

/-- The allocator is made of primitives. -/
theorem Survives.allocates (hi : Survives Inv) (required : ℕ) : Allocates required Inv where
  sync := hi.sync
  next := hi.next
  load := fun hm => hi.load _ hm
  place := fun hm _ _ ho => hi.place hm (by omega)

/-- **`fkfs_file_iterate`** reads blocks and changes nothing else of the machine. -/
theorem iterateLoop_rule (hload : ∀ {m} (b : UInt32), Inv m → Inv (fkfs_block_ensure m b).2)
    {config : fkfs_iterator_config_t} {am : Ambient} {n r : ℕ} {s s' : Machine}
    {iter iter' : fkfs_file_iter_t} {mb : UInt32} {ok : Bool} (hs : Inv s)
    (h : iterateLoop ov config am n r s iter mb = some (ok, s', iter')) : Inv s' := by
  induction n generalizing r s iter mb with
  | zero => cases h
  | succ n ih =>
    have hl := hload iter.token.block hs
    simp only [iterateLoop] at h
    split at h
    · rename_i s1 e
      rw [e] at hl
      cases h
      exact hl
    · rename_i s1 e
      rw [e] at hl
      split at h
      · split at h
        · cases h
          exact hl
        · split at h
          · cases h
            exact hl
          · exact ih hl h
      · split at h
        · cases h
          exact hl
        · generalize (if 0 < config.maxBlocks then mb - 1 else mb) = mb' at h
          split at h
          · cases h
            exact hl
          · exact ih hl h

theorem iterate_rule (hload : ∀ {m} (b : UInt32), Inv m → Inv (fkfs_block_ensure m b).2)
    {config : fkfs_iterator_config_t} {am : Ambient} {n : ℕ} {s s' : Machine}
    {iter iter' : fkfs_file_iter_t} {ok : Bool} (hs : Inv s)
    (h : fkfs_file_iterate ov n config am s iter = some (ok, s', iter')) : Inv s' := by
  unfold fkfs_file_iterate at h
  split at h
  · cases h
    exact hs
  · split at h
    · cases h
      exact hs
    · exact iterateLoop_rule hload hs h

theorem setFile_rule (hi : Survives Inv) {s : Machine} (f : FileNumber) (file : fkfs_file_t)
    (hs : Inv s) : Inv (s.setHeader (s.fs.header.setFile f file)) :=
  hi.header hs ⟨rfl, rfl, rfl⟩

/-- The scan of `fkfs_file_truncate_at` reads blocks and adds up a size. -/
theorem calculateLoop_rule (hload : ∀ {m} (b : UInt32), Inv m → Inv (fkfs_block_ensure m b).2)
    {f : FileNumber} (hsize : ∀ {m} (size : UInt32), Inv m →
      Inv (m.setHeader (m.fs.header.setFile f { m.fs.header.files f with size := size })))
    {ams : ℕ → Ambient} {n m k : ℕ} {s s' : Machine} {iter : fkfs_file_iter_t} (hs : Inv s)
    (h : calculateLoop ov ams n f m k s iter = some s') : Inv s' := by
  induction m generalizing k s iter with
  | zero => cases h
  | succ m ih =>
    simp only [calculateLoop] at h
    split at h
    · cases h
    · rename_i s1 iter1 e
      cases h
      exact iterate_rule hload hs e
    · rename_i s1 iter1 e
      exact ih (hsize _ (iterate_rule hload hs e)) h

theorem truncate_rule (hi : Survives Inv) {s : Machine} (f : FileNumber) (hs : Inv s) :
    Inv (fkfs_file_truncate s f) :=
  setFile_rule hi f _ hs

theorem truncate_all_rule (hi : Survives Inv) {s : Machine} (hs : Inv s) :
    Inv (fkfs_file_truncate_all s) := by
  unfold fkfs_file_truncate_all
  induction List.finRange 4 generalizing s with
  | nil => exact hs
  | cons f fs ih => exact ih (truncate_rule hi f hs)

theorem touch_rule (hi : Survives Inv) {s : Machine} (time : UInt32) (hs : Inv s) :
    Inv (fkfs_touch s time).2 :=
  hi.header_write (hi.header hs ⟨rfl, rfl, rfl⟩)

theorem flush_rule (hi : Survives Inv) {s : Machine} (now : UInt32) (hs : Inv s) :
    Inv (fkfs_flush s now).2 := by
  have ht := touch_rule hi now hs
  unfold fkfs_flush
  split
  · rename_i s1 e
    rw [e] at ht
    exact ht
  · rename_i s1 e
    rw [e] at ht
    exact hi.sync ht

/-- **Every call keeps what the primitives keep.** -/
theorem perform_rule (hi : Survives Inv) {s s' : Machine} {c : Call} {ok : Bool} (hc : c.Sane)
    (hs : Inv s) (h : perform ov s c = some (ok, s')) : Inv s' := by
  cases c with
  | append f data pasts =>
    have := append_rule ov f (hi.allocates _) hc (fun hm h1 _ h2 => hi.store hm h1 hc h2) pasts hs
    simp only [perform, Option.some.injEq] at h
    rw [h] at this
    exact this
  | truncate f =>
    cases h
    exact truncate_rule hi f hs
  | truncateAll =>
    cases h
    exact truncate_all_rule hi hs
  | truncateAt iter scratch ams n =>
    simp only [perform, Option.map_eq_some_iff, Prod.mk.injEq] at h
    obtain ⟨s1, h, -, rfl⟩ := h
    exact calculateLoop_rule hi.load (fun _ hm => setFile_rule hi _ _ hm)
      (setFile_rule hi _ _ (setFile_rule hi _ _ hs)) h
  | touch time =>
    have := touch_rule hi time hs
    simp only [perform, Option.some.injEq] at h
    rw [h] at this
    exact this
  | flush now =>
    have := flush_rule hi now hs
    simp only [perform, Option.some.injEq] at h
    rw [h] at this
    exact this
  | ensure iter =>
    simp only [perform, fkfs_file_iterator_ensure, Option.some.injEq] at h
    split at h
    · cases h
      exact hs
    · have := hi.load iter.token.block hs
      rw [h] at this
      exact this
  | iterate config am n iter =>
    simp only [perform, Option.map_eq_some_iff, Prod.mk.injEq] at h
    obtain ⟨⟨ok1, s1, iter1⟩, h, -, rfl⟩ := h
    exact iterate_rule hi.load hs h

end Rules

/-- **Every primitive keeps the cache coherent.** -/
theorem coherent_survives : Survives Coherent where
  header := by
    rintro m h hm ⟨hb, ho, -⟩
    refine ⟨?_, ?_, ?_, ?_, hm.clean⟩
    · change 8000 ≤ h.block.toNat
      rw [hb]
      exact hm.block_ge
    · change h.block.toNat < _
      rw [hb]
      exact hm.block_lt
    · change h.offset.toNat ≤ _
      rw [ho]
      exact hm.offset_le
    · intro hd
      change _ = h.block
      rw [hb]
      exact hm.dirty hd
  header_write := fun hm => (header_write_keeps hm).1
  sync := fun hm => (fsync_keeps hm).1
  next := fun hm hd => next_block_coherent hm hd
  load := fun b hm => block_ensure_coherent hm b
  place := fun hm ho => ⟨hm.block_ge, hm.block_lt, ho, hm.dirty, hm.clean⟩
  store := fun hm hc hlen hroom => afterStore_coherent hm hc hlen hroom

/-- Which transfers fail next has no part in it. -/
theorem coherent_survives_faults {s : Machine} (h : Coherent s) (faults : List Bool) :
    Coherent (withFaults s faults) :=
  ⟨h.block_ge, h.block_lt, h.offset_le, h.dirty, h.clean⟩

/-- The settings of the files do not change. -/
theorem settings_survive (files : Settings) : Survives fun s => s.fs.files = files where
  header := fun hm _ => hm
  header_write := by
    intro m hm
    rcases header_write_cases m with e | e | e <;> rw [e] <;> exact hm
  sync := by
    intro m hm
    by_cases hd : m.fs.cachedBlockDirty = true
    · rcases fsync_cases hd with e | e
      · rw [e]
        exact hm
      · rw [e]
        rcases header_write_cases (afterDataWrite (afterRead m)) with e | e | e <;> rw [e] <;>
          exact hm
    · rw [fsync_clean (Bool.not_eq_true _ ▸ hd)]
      exact hm
  next := by
    intro m hm _
    rw [(next_block_keeps m).2.2.2.2]
    exact hm
  load := by
    intro m b hm
    rcases block_ensure_cases m b with ⟨-, e⟩ | ⟨-, e⟩ | ⟨-, e⟩ <;> rw [e] <;> exact hm
  place := fun hm _ => hm
  store := fun hm _ _ _ => hm

/-- A card that works goes on working. -/
theorem works_survive : Survives fun s => Works s.sd where
  header := fun hm _ => hm
  header_write := fun hm => (header_write_succeeds hm).2
  sync := fun hm => (fsync_succeeds hm).2
  next := by
    intro m hm _
    rw [(next_block_keeps m).2.2.1]
    exact hm
  load := fun b hm => (block_ensure_succeeds hm b).2
  place := fun hm _ => hm
  store := fun hm _ _ _ => hm

end Fkfs.Run
