/-
The block cache and the primitives that move blocks.

`fs->buffer` is a write-back cache of one block. `Coherent` is what every
operation keeps: a dirty buffer belongs to the block the writer is in, a clean
one is a copy of its card block. Under it the blocks have a current content,
`view`, which is the buffer for the dirty block and the card for every other;
`fkfs_fsync` does not change it, and a read changes it only by evicting a dirty
block.

The inversion lemmas come first: one per primitive, each listing every way the
call can end, so that no later proof opens a primitive again. They hold for
every failure pattern; the `_works` lemmas are the same for a card on which
nothing fails.
-/
import Fkfs.Append

set_option autoImplicit false

namespace Fkfs.Cache

open Bytes
open Fkfs.Crc Fkfs.Layout Fkfs.Device Fkfs.Search Fkfs.Append

/-! ## Every way a primitive can end -/

/-- No coming block transfer fails. -/
def Works (sd : Card) : Prop := sd.faults = []

theorem Works.next {sd : Card} (h : Works sd) : sd.next = sd := by
  cases sd
  simp only [Works] at h
  subst h
  rfl

theorem Works.fails {sd : Card} (h : Works sd) : sd.fails = false := by
  simp only [Card.fails, show sd.faults = [] from h]
  rfl

/-- The card once `source` is on block `block`. -/
def Card.put (sd : Card) (block : UInt32) (source : Block) : Card :=
  { sd with blocks := Function.update sd.blocks block.toNat source }

/-- The machine after a write that succeeded. -/
def afterWrite (s : Machine) (block : UInt32) (source : Block) : Machine :=
  { s with
    sd := Card.put s.sd block source
    writes := s.writes ++ [⟨block, source, s.fs, true⟩] }

/-- The machine after a write that failed. -/
def afterFailedWrite (s : Machine) (block : UInt32) (source : Block) : Machine :=
  { s with writes := s.writes ++ [⟨block, source, s.fs, false⟩] }

/-- The machine one transfer later. -/
def afterRead (s : Machine) : Machine := { s with sd := s.sd.next }

theorem afterRead_works {s : Machine} (h : Works s.sd) : afterRead s = s := by
  rw [afterRead, h.next]

theorem write_block_cases (s : Machine) (block : UInt32) (source : Block) :
    fkfs_write_block s block source = (false, afterFailedWrite (afterRead s) block source)
      ∨ fkfs_write_block s block source = (true, afterWrite (afterRead s) block source) := by
  simp only [fkfs_write_block, sd_raw_write_block]
  cases h : s.sd.fails
  · exact .inr rfl
  · exact .inl rfl

theorem write_block_works {s : Machine} (h : Works s.sd) (block : UInt32) (source : Block) :
    fkfs_write_block s block source = (true, afterWrite s block source) := by
  simp only [fkfs_write_block, sd_raw_write_block, h.fails, h.next, Bool.false_eq_true, if_false]
  rfl

/-- The header block `fkfs_header_write` writes over `base`. -/
def headerImage (fs : fkfs_t) (base : Block) : Block := putHeader base fs.headerIndex fs.header

/-- `fs` with the header's CRC brought up to date. -/
def sealHeader (s : Machine) : Machine := s.setHeader (fkfs_header_crc_update s.fs.header)

theorem header_write_cases (s : Machine) :
    fkfs_header_write s false = (false, afterRead s)
      ∨ fkfs_header_write s false = (false, afterFailedWrite (afterRead (sealHeader (afterRead s))) 0
          (headerImage (sealHeader s).fs (s.sd.blocks 0)))
      ∨ fkfs_header_write s false = (true, afterWrite (afterRead (sealHeader (afterRead s))) 0
          (headerImage (sealHeader s).fs (s.sd.blocks 0))) := by
  simp only [fkfs_header_write, Bool.false_eq_true, if_false, fkfs_read_block, sd_raw_read_block]
  cases h : s.sd.fails
  · right
    exact write_block_cases (sealHeader (afterRead s)) 0
      (headerImage (sealHeader s).fs (s.sd.blocks 0))
  · exact .inl rfl

theorem header_write_works {s : Machine} (h : Works s.sd) :
    fkfs_header_write s false
      = (true, afterWrite (sealHeader s) 0 (headerImage (sealHeader s).fs (s.sd.blocks 0))) := by
  simp only [fkfs_header_write, Bool.false_eq_true, if_false, fkfs_read_block, sd_raw_read_block,
    h.fails, h.next]
  exact write_block_works (s := sealHeader s) h 0 _

/-- The machine between the two writes of `fkfs_fsync`. -/
def afterDataWrite (s : Machine) : Machine :=
  let s := afterWrite s s.fs.header.block s.fs.buffer
  { s with fs := fkfs_fsync_next s.fs }

theorem fsync_clean {s : Machine} (h : s.fs.cachedBlockDirty = false) :
    fkfs_fsync s = (true, s) := by
  simp only [fkfs_fsync, h, Bool.false_eq_true, if_false]

/-- Once the data block is out, what is left of `fkfs_fsync` is its header
write: the cache is already marked empty. -/
theorem fsync_tail (s : Machine) :
    (match fkfs_header_write (afterDataWrite s) false with
      | (false, s) => (false, s)
      | (true, s) =>
        (true, { s with fs := { s.fs with
          cachedBlockNumber := UINT32_MAX, cachedBlockDirty := false } }))
      = fkfs_header_write (afterDataWrite s) false := by
  rcases header_write_cases (afterDataWrite s) with h | h | h
  · simp only [h]
  · simp only [h]
  · simp only [h]
    rfl

theorem fsync_cases {s : Machine} (h : s.fs.cachedBlockDirty = true) :
    fkfs_fsync s = (false, afterFailedWrite (afterRead s) s.fs.header.block s.fs.buffer)
      ∨ fkfs_fsync s = fkfs_header_write (afterDataWrite (afterRead s)) false := by
  rcases write_block_cases s s.fs.header.block s.fs.buffer with hw | hw
  · left
    simp only [fkfs_fsync, h, if_true, hw]
  · right
    simp only [fkfs_fsync, h, if_true, hw]
    exact fsync_tail (afterRead s)

theorem fsync_works {s : Machine} (hw : Works s.sd) (h : s.fs.cachedBlockDirty = true) :
    fkfs_fsync s = fkfs_header_write (afterDataWrite s) false := by
  simp only [fkfs_fsync, h, if_true, write_block_works hw]
  exact fsync_tail s

/-- The machine once block `block` has been read into the cache. -/
def afterLoad (s : Machine) (block : UInt32) : Machine :=
  { s with fs := { s.fs with
      buffer := s.sd.blocks block.toNat, cachedBlockNumber := block, cachedBlockDirty := false } }

theorem block_ensure_cases (s : Machine) (block : UInt32) :
    (s.fs.cachedBlockNumber = block ∧ fkfs_block_ensure s block = (true, s))
      ∨ (s.fs.cachedBlockNumber ≠ block ∧ fkfs_block_ensure s block = (false, afterRead s))
      ∨ (s.fs.cachedBlockNumber ≠ block
          ∧ fkfs_block_ensure s block = (true, afterLoad (afterRead s) block)) := by
  by_cases hc : s.fs.cachedBlockNumber = block
  · left
    simp [fkfs_block_ensure, hc]
  · right
    simp only [fkfs_block_ensure, ne_eq, hc, not_false_eq_true, if_true, true_and,
      fkfs_read_block, sd_raw_read_block]
    cases h : s.sd.fails
    · exact .inr rfl
    · exact .inl rfl

theorem block_ensure_works {s : Machine} (h : Works s.sd) (block : UInt32) :
    fkfs_block_ensure s block
      = (true, if s.fs.cachedBlockNumber = block then s else afterLoad s block) := by
  rcases block_ensure_cases s block with ⟨hc, he⟩ | ⟨hc, -⟩ | ⟨hc, -⟩
  · rw [he, if_pos hc]
  all_goals
    simp only [fkfs_block_ensure, ne_eq, hc, not_false_eq_true, if_true, if_false,
      fkfs_read_block, sd_raw_read_block, h.fails, h.next, Bool.false_eq_true]
    rfl

/-! ## On a working card -/

/-- A call that returned true and left a card that works. -/
def Succeeds (r : Bool × Machine) : Prop := r.1 = true ∧ Works r.2.sd

theorem header_write_succeeds {s : Machine} (h : Works s.sd) :
    Succeeds (fkfs_header_write s false) := by
  rw [header_write_works h]
  exact ⟨rfl, h⟩

theorem fsync_succeeds {s : Machine} (h : Works s.sd) : Succeeds (fkfs_fsync s) := by
  cases hd : s.fs.cachedBlockDirty
  · rw [fsync_clean hd]
    exact ⟨rfl, h⟩
  · rw [fsync_works h hd]
    exact header_write_succeeds (s := afterDataWrite s) h

theorem block_ensure_succeeds {s : Machine} (h : Works s.sd) (block : UInt32) :
    Succeeds (fkfs_block_ensure s block) := by
  rw [block_ensure_works h]
  refine ⟨rfl, ?_⟩
  by_cases hc : s.fs.cachedBlockNumber = block
  · rw [if_pos hc]
    exact h
  · rw [if_neg hc]
    exact h

theorem touch_succeeds {s : Machine} (h : Works s.sd) (time : UInt32) :
    Succeeds (fkfs_touch s time) :=
  header_write_succeeds (s := s.setHeader { s.fs.header with time := time }) h

/-- **`fkfs_flush`** on a working card is the touch and then the fsync. -/
theorem flush_works {s : Machine} (h : Works s.sd) (now : UInt32) :
    fkfs_flush s now = fkfs_fsync (fkfs_touch s now).2 := by
  have ht := (touch_succeeds h now).1
  unfold fkfs_flush
  split
  · rename_i e
    rw [e] at ht
    cases ht
  · rename_i e
    rw [e]

theorem flush_succeeds {s : Machine} (h : Works s.sd) (now : UInt32) :
    Succeeds (fkfs_flush s now) := by
  rw [flush_works h]
  exact fsync_succeeds (touch_succeeds h now).2

/-! ## Coherence -/

@[simp] theorem FKFS_FIRST_BLOCK_toNat : FKFS_FIRST_BLOCK.toNat = 8000 := rfl

@[simp] theorem UINT32_MAX_toNat : UINT32_MAX.toNat = 4294967295 := rfl

/-- The writer's position and the cache fit together. -/
structure Coherent (s : Machine) : Prop where
  block_ge : 8000 ≤ s.fs.header.block.toNat
  block_lt : s.fs.header.block.toNat < 4294967295
  offset_le : s.fs.header.offset.toNat ≤ 512
  dirty : s.fs.cachedBlockDirty = true → s.fs.cachedBlockNumber = s.fs.header.block
  clean : s.fs.cachedBlockDirty = false → 8000 ≤ s.fs.cachedBlockNumber.toNat →
    s.fs.cachedBlockNumber ≠ UINT32_MAX →
    s.fs.buffer = s.sd.blocks s.fs.cachedBlockNumber.toNat

/-- What block `b` holds at present: the buffer if it is dirty with `b`, the
card otherwise. -/
def view (s : Machine) (b : ℕ) : Block :=
  if s.fs.cachedBlockDirty = true ∧ b = s.fs.cachedBlockNumber.toNat then s.fs.buffer
  else s.sd.blocks b

theorem view_clean {s : Machine} (h : s.fs.cachedBlockDirty = false) (b : ℕ) :
    view s b = s.sd.blocks b := by
  simp [view, h]

theorem view_dirty {s : Machine} (h : s.fs.cachedBlockDirty = true) :
    view s s.fs.cachedBlockNumber.toNat = s.fs.buffer := by
  simp [view, h]

/-- A cached data block is in the buffer as it is. -/
theorem Coherent.buffer_eq {s : Machine} (h : Coherent s) {b : UInt32}
    (hc : s.fs.cachedBlockNumber = b) (hb : 8000 ≤ b.toNat) (hb' : b ≠ UINT32_MAX) :
    s.fs.buffer = view s b.toNat := by
  subst hc
  cases hd : s.fs.cachedBlockDirty
  · rw [view_clean hd]
    exact h.clean hd hb hb'
  · rw [view_dirty hd]

theorem Coherent.block_ne_max {s : Machine} (h : Coherent s) : s.fs.header.block ≠ UINT32_MAX := by
  intro hc
  have := h.block_lt
  rw [hc] at this
  simp at this

/-! ## What the primitives leave alone -/

/-- From `s` to `s'` nothing moved but the cache, the card's copy of the dirty
block, and the header's time, generation and CRC. -/
structure Keeps (s s' : Machine) : Prop where
  block : s'.fs.header.block = s.fs.header.block
  offset : s'.fs.header.offset = s.fs.header.offset
  table : s'.fs.header.files = s.fs.header.files
  settings : s'.fs.files = s.fs.files
  blocks : s'.fs.numberOfBlocks = s.fs.numberOfBlocks
  size : s'.sd.size = s.sd.size
  wraps : s'.wraps = s.wraps
  view : ∀ b, 8000 ≤ b → view s' b = view s b

theorem Keeps.refl (s : Machine) : Keeps s s := ⟨rfl, rfl, rfl, rfl, rfl, rfl, rfl, fun _ _ => rfl⟩

theorem Keeps.trans {s s' s'' : Machine} (h : Keeps s s') (h' : Keeps s' s'') : Keeps s s'' where
  block := h'.block.trans h.block
  offset := h'.offset.trans h.offset
  table := h'.table.trans h.table
  settings := h'.settings.trans h.settings
  blocks := h'.blocks.trans h.blocks
  size := h'.size.trans h.size
  wraps := h'.wraps.trans h.wraps
  view := fun b hb => (h'.view b hb).trans (h.view b hb)

/-- A write to block 0 is not seen in the data blocks. -/
theorem put_zero (sd : Card) (image : Block) {b : ℕ} (hb : 8000 ≤ b) :
    (Card.put sd 0 image).blocks b = sd.blocks b :=
  Function.update_of_ne (by simp only [UInt32.toNat_zero]; omega) _ _

/-- **`fkfs_header_write`** leaves the data blocks and the cache alone. -/
theorem header_write_keeps {s : Machine} (h : Coherent s) :
    Coherent (fkfs_header_write s false).2 ∧ Keeps s (fkfs_header_write s false).2
      ∧ (fkfs_header_write s false).2.fs.cachedBlockDirty = s.fs.cachedBlockDirty := by
  rcases header_write_cases s with e | e | e
  · rw [e]
    exact ⟨⟨h.block_ge, h.block_lt, h.offset_le, h.dirty, h.clean⟩,
      ⟨rfl, rfl, rfl, rfl, rfl, rfl, rfl, fun _ _ => rfl⟩, rfl⟩
  · rw [e]
    exact ⟨⟨h.block_ge, h.block_lt, h.offset_le, h.dirty, h.clean⟩,
      ⟨rfl, rfl, rfl, rfl, rfl, rfl, rfl, fun _ _ => rfl⟩, rfl⟩
  · rw [e]
    refine ⟨⟨h.block_ge, h.block_lt, h.offset_le, h.dirty, ?_⟩,
      ⟨rfl, rfl, rfl, rfl, rfl, rfl, rfl, ?_⟩, rfl⟩
    · intro hd hb hm
      exact (h.clean hd hb hm).trans (put_zero _ _ hb).symm
    · intro b hb
      exact ite_congr rfl (fun _ => rfl) fun _ => put_zero _ _ hb

/-- **The data write of `fkfs_fsync`** moves the dirty block to the card. -/
theorem afterDataWrite_keeps {s : Machine} (h : Coherent s) (hd : s.fs.cachedBlockDirty = true) :
    Coherent (afterDataWrite s) ∧ Keeps s (afterDataWrite s) := by
  refine ⟨⟨h.block_ge, h.block_lt, h.offset_le, (fun hc => nomatch hc), ?_⟩,
    ⟨rfl, rfl, rfl, rfl, rfl, rfl, rfl, ?_⟩⟩
  · intro _ _ hm
    exact absurd rfl hm
  · intro b _
    rw [view_clean rfl]
    simp only [afterDataWrite, afterWrite, Card.put, view, hd, true_and, ← h.dirty hd]
    split
    · rename_i hb
      rw [hb, Function.update_self]
    · rename_i hb
      rw [Function.update_of_ne hb]

/-- **`fkfs_fsync`** keeps the blocks as they are seen, and if it returns true
leaves nothing dirty. -/
theorem fsync_keeps {s : Machine} (h : Coherent s) :
    Coherent (fkfs_fsync s).2 ∧ Keeps s (fkfs_fsync s).2
      ∧ ((fkfs_fsync s).1 = true → (fkfs_fsync s).2.fs.cachedBlockDirty = false) := by
  cases hd : s.fs.cachedBlockDirty
  · rw [fsync_clean hd]
    exact ⟨h, .refl s, fun _ => hd⟩
  · rcases fsync_cases hd with e | e
    · rw [e]
      exact ⟨⟨h.block_ge, h.block_lt, h.offset_le, h.dirty, h.clean⟩,
        ⟨rfl, rfl, rfl, rfl, rfl, rfl, rfl, fun _ _ => rfl⟩, (fun hc => nomatch hc)⟩
    · have hr : Coherent (afterRead s) :=
        ⟨h.block_ge, h.block_lt, h.offset_le, h.dirty, h.clean⟩
      have hk : Keeps s (afterRead s) := ⟨rfl, rfl, rfl, rfl, rfl, rfl, rfl, fun _ _ => rfl⟩
      obtain ⟨h1, k1⟩ := afterDataWrite_keeps hr hd
      obtain ⟨h2, k2, hd2⟩ := header_write_keeps h1
      rw [e]
      exact ⟨h2, hk.trans (k1.trans k2), fun _ => hd2⟩

/-- **`fkfs_touch`** leaves the data blocks and the cache alone. -/
theorem touch_keeps {s : Machine} (h : Coherent s) (time : UInt32) :
    Coherent (fkfs_touch s time).2 ∧ Keeps s (fkfs_touch s time).2
      ∧ (fkfs_touch s time).2.fs.cachedBlockDirty = s.fs.cachedBlockDirty := by
  have ht : Coherent (s.setHeader { s.fs.header with time := time }) :=
    ⟨h.block_ge, h.block_lt, h.offset_le, h.dirty, h.clean⟩
  have kt : Keeps s (s.setHeader { s.fs.header with time := time }) :=
    ⟨rfl, rfl, rfl, rfl, rfl, rfl, rfl, fun _ _ => rfl⟩
  obtain ⟨h1, k1, hd⟩ := header_write_keeps ht
  exact ⟨h1, kt.trans k1, hd⟩

/-- **`fkfs_flush`** is a touch and an fsync. -/
theorem flush_keeps {s : Machine} (h : Coherent s) (now : UInt32) :
    Coherent (fkfs_flush s now).2 ∧ Keeps s (fkfs_flush s now).2
      ∧ ((fkfs_flush s now).1 = true → (fkfs_flush s now).2.fs.cachedBlockDirty = false) := by
  obtain ⟨h1, k1, -⟩ := touch_keeps h now
  unfold fkfs_flush
  split
  · rename_i s1 e
    rw [e] at h1 k1
    exact ⟨h1, k1, (fun hc => nomatch hc)⟩
  · rename_i s1 e
    rw [e] at h1 k1
    obtain ⟨h2, k2, hd2⟩ := fsync_keeps h1
    exact ⟨h2, k1.trans k2, hd2⟩

/-- **`fkfs_block_ensure`** stays coherent whatever it evicts. -/
theorem block_ensure_coherent {s : Machine} (h : Coherent s) (block : UInt32) :
    Coherent (fkfs_block_ensure s block).2 := by
  rcases block_ensure_cases s block with ⟨-, e⟩ | ⟨-, e⟩ | ⟨-, e⟩
  · rw [e]
    exact h
  · rw [e]
    exact ⟨h.block_ge, h.block_lt, h.offset_le, h.dirty, h.clean⟩
  · rw [e]
    exact ⟨h.block_ge, h.block_lt, h.offset_le, (fun hc => nomatch hc), fun _ _ _ => rfl⟩

/-- It evicts nothing if the cache is clean or has the block. -/
theorem block_ensure_keeps {s : Machine} {block : UInt32}
    (hd : s.fs.cachedBlockDirty = true → s.fs.cachedBlockNumber = block) :
    Keeps s (fkfs_block_ensure s block).2 := by
  rcases block_ensure_cases s block with ⟨-, e⟩ | ⟨-, e⟩ | ⟨hc, e⟩
  · rw [e]
    exact .refl s
  · rw [e]
    exact ⟨rfl, rfl, rfl, rfl, rfl, rfl, rfl, fun _ _ => rfl⟩
  · have hcl : s.fs.cachedBlockDirty = false := by
      cases h : s.fs.cachedBlockDirty
      · rfl
      · exact absurd (hd h) hc
    rw [e]
    refine ⟨rfl, rfl, rfl, rfl, rfl, rfl, rfl, fun b _ => ?_⟩
    rw [view_clean hcl, view_clean rfl]
    rfl

/-- After it has returned true the cache has the block. -/
theorem block_ensure_cached {s : Machine} {block : UInt32}
    (h : (fkfs_block_ensure s block).1 = true) :
    (fkfs_block_ensure s block).2.fs.cachedBlockNumber = block := by
  rcases block_ensure_cases s block with ⟨hc, e⟩ | ⟨-, e⟩ | ⟨-, e⟩
  · rw [e]
    exact hc
  · rw [e] at h
    cases h
  · rw [e]
    rfl

/-- **"Next block"**: the writer goes one block on, or back to the first one
and is counted. Only a clean cache may be left behind. -/
theorem next_block_cases (s : Machine) :
    (wrapsAt s.fs (s.fs.header.block + 1) = true ∧ (fkfs_next_block s).wraps = s.wraps + 1
        ∧ (fkfs_next_block s).fs.header.block = FKFS_FIRST_BLOCK)
      ∨ (wrapsAt s.fs (s.fs.header.block + 1) = false ∧ (fkfs_next_block s).wraps = s.wraps
        ∧ (fkfs_next_block s).fs.header.block = s.fs.header.block + 1) := by
  unfold fkfs_next_block
  cases h : wrapsAt s.fs (s.fs.header.block + 1)
  · exact .inr ⟨rfl, rfl, rfl⟩
  · exact .inl ⟨rfl, rfl, rfl⟩

/-- What "next block" leaves alone, on either branch. -/
theorem next_block_keeps (s : Machine) :
    (fkfs_next_block s).fs.header.offset = 0
      ∧ (fkfs_next_block s).fs.header.files = s.fs.header.files
      ∧ (fkfs_next_block s).sd = s.sd ∧ (fkfs_next_block s).writes = s.writes
      ∧ (fkfs_next_block s).fs = { s.fs with header := (fkfs_next_block s).fs.header } := by
  unfold fkfs_next_block
  split
  all_goals exact ⟨rfl, rfl, rfl, rfl, rfl⟩

theorem next_block_view (s : Machine) : view (fkfs_next_block s) = view s := by
  obtain ⟨-, -, hsd, -, hfs⟩ := next_block_keeps s
  funext b
  simp only [view, hsd]
  rw [hfs]

/-- The number of the next block, when there is one. -/
theorem succ_toNat {b : UInt32} (h : b.toNat < 4294967295) : (b + 1).toNat = b.toNat + 1 := by
  rw [UInt32.toNat_add, UInt32.toNat_one]
  omega

theorem next_block_coherent {s : Machine} (h : Coherent s)
    (hd : s.fs.cachedBlockDirty = false) : Coherent (fkfs_next_block s) := by
  obtain ⟨ho, -, hsd, -, hfs⟩ := next_block_keeps s
  have hb : 8000 ≤ (fkfs_next_block s).fs.header.block.toNat
      ∧ (fkfs_next_block s).fs.header.block.toNat < 4294967295 := by
    rcases next_block_cases s with ⟨-, -, e⟩ | ⟨hw, -, e⟩
    · rw [e]
      exact ⟨by simp, by simp⟩
    · have hs := succ_toNat h.block_lt
      have h1 := h.block_ge
      have h2 := h.block_lt
      have hne : s.fs.header.block + 1 ≠ UINT32_MAX := by
        intro hc
        simp [wrapsAt, FKFS_TESTING_LAST_BLOCK, hc] at hw
      have h3 : (s.fs.header.block + 1).toNat ≠ 4294967295 := fun hc =>
        hne (UInt32.toNat_inj.mp hc)
      rw [e, hs]
      rw [hs] at h3
      omega
  refine ⟨hb.1, hb.2, by rw [ho]; simp, ?_, ?_⟩
  · rw [hfs]
    intro hc
    rw [hd] at hc
    cases hc
  · rw [hfs, hsd]
    exact h.clean

end Fkfs.Cache
