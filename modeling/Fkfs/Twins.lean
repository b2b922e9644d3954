/-
Two machines that go on alike.

Two machines are `Alike` if nothing tells them apart but a buffer that both will
read again before they use it. Every call gives the same on both, and leaves them
alike: once a block is ensured there is no difference left.
-/
import Fkfs.Run
import Fkfs.Structure

set_option autoImplicit false

namespace Fkfs.Twins

open Bytes
open Fkfs.Crc Fkfs.Layout Fkfs.Device Fkfs.Search Fkfs.Append Fkfs.Iterate Fkfs.Cache
open Fkfs.Writer Fkfs.Reader Fkfs.Run

/-! ## Machines that go on alike -/

/-- A cache that holds no block any call asks for. -/
def Vacant (fs : fkfs_t) : Prop :=
  fs.cachedBlockDirty = false ∧ (fs.cachedBlockNumber = 0 ∨ fs.cachedBlockNumber = UINT32_MAX)

/-- A block number calls ask for. -/
def Asked (b : UInt32) : Prop := b ≠ 0 ∧ b ≠ UINT32_MAX

/-- The two differ at most in what is cached, and then neither has anything cached
that is asked for. -/
structure Alike (a b : Machine) : Prop where
  sd : b.sd = a.sd
  index : b.fs.headerIndex = a.fs.headerIndex
  dirty : b.fs.cachedBlockDirty = a.fs.cachedBlockDirty
  number : b.fs.numberOfBlocks = a.fs.numberOfBlocks
  header : b.fs.header = a.fs.header
  settings : b.fs.files = a.fs.files
  cache : (b.fs.cachedBlockNumber = a.fs.cachedBlockNumber ∧ b.fs.buffer = a.fs.buffer)
    ∨ (Vacant a.fs ∧ Vacant b.fs ∧ Asked a.fs.header.block)

/-- Two calls returned the same and left machines that go on alike. -/
def Agree (r r' : Bool × Machine) : Prop := r'.1 = r.1 ∧ Alike r.2 r'.2

section Primitives

variable {a b : Machine}

theorem Alike.setHeader (h : Alike a b) (hd : fkfs_header_t)
    (hb : hd.block = a.fs.header.block) : Alike (a.setHeader hd) (b.setHeader hd) := by
  refine ⟨h.sd, h.index, h.dirty, h.number, rfl, h.settings, ?_⟩
  rcases h.cache with hc | ⟨h1, h2, h3⟩
  · exact .inl hc
  · refine .inr ⟨h1, h2, ?_⟩
    change Asked hd.block
    rw [hb]
    exact h3

theorem Alike.setFile (h : Alike a b) (f : FileNumber) (file : fkfs_file_t) :
    Alike (a.setHeader (a.fs.header.setFile f file)) (b.setHeader (a.fs.header.setFile f file)) :=
  h.setHeader _ rfl

theorem Alike.afterRead (h : Alike a b) : Alike (afterRead a) (afterRead b) :=
  ⟨congrArg Card.next h.sd, h.index, h.dirty, h.number, h.header, h.settings, h.cache⟩

theorem Alike.afterFailedWrite (h : Alike a b) (blk : UInt32) (source : Block) :
    Alike (afterFailedWrite a blk source) (afterFailedWrite b blk source) :=
  ⟨h.sd, h.index, h.dirty, h.number, h.header, h.settings, h.cache⟩

theorem Alike.afterWrite (h : Alike a b) (blk : UInt32) (source : Block) :
    Alike (afterWrite a blk source) (afterWrite b blk source) :=
  ⟨congrArg (Card.put · blk source) h.sd, h.index, h.dirty, h.number, h.header, h.settings, h.cache⟩

theorem Alike.sealHeader (h : Alike a b) : Alike (sealHeader a) (sealHeader b) := by
  unfold Cache.sealHeader
  rw [h.header]
  exact h.setHeader _ rfl

/-- A block write, with the failure that decides it. -/
theorem write_block_eq (s : Machine) (blk : UInt32) (source : Block) :
    fkfs_write_block s blk source = if s.sd.fails
      then (false, Cache.afterFailedWrite (Cache.afterRead s) blk source)
      else (true, Cache.afterWrite (Cache.afterRead s) blk source) := by
  simp only [fkfs_write_block, sd_raw_write_block]
  cases s.sd.fails
  · rfl
  · rfl

theorem header_write_eq (s : Machine) :
    fkfs_header_write s false = if s.sd.fails then (false, Cache.afterRead s)
      else fkfs_write_block (Cache.sealHeader (Cache.afterRead s)) 0
        (headerImage (Cache.sealHeader s).fs (s.sd.blocks 0)) := by
  simp only [fkfs_header_write, Bool.false_eq_true, if_false, fkfs_read_block, sd_raw_read_block]
  cases s.sd.fails
  · rfl
  · rfl

/-- `fkfs_fsync` of a dirty buffer, with the failure that decides its first write. -/
theorem fsync_eq {s : Machine} (hd : s.fs.cachedBlockDirty = true) :
    fkfs_fsync s = if s.sd.fails then
        (false, Cache.afterFailedWrite (Cache.afterRead s) s.fs.header.block s.fs.buffer)
      else fkfs_header_write (afterDataWrite (Cache.afterRead s)) false := by
  simp only [fkfs_fsync, hd, if_true, write_block_eq]
  cases s.sd.fails
  · exact fsync_tail (Cache.afterRead s)
  · rfl

theorem Alike.write_block (h : Alike a b) (blk : UInt32) (source : Block) :
    Agree (fkfs_write_block a blk source) (fkfs_write_block b blk source) := by
  rw [write_block_eq, write_block_eq, h.sd]
  cases a.sd.fails
  · exact ⟨rfl, h.afterRead.afterWrite blk source⟩
  · exact ⟨rfl, h.afterRead.afterFailedWrite blk source⟩

/-- **`fkfs_header_write`** does not look at the cache. -/
theorem Alike.header_write (h : Alike a b) :
    Agree (fkfs_header_write a false) (fkfs_header_write b false) := by
  have himage : headerImage (Cache.sealHeader b).fs (b.sd.blocks 0)
      = headerImage (Cache.sealHeader a).fs (a.sd.blocks 0) := by
    rw [headerImage, headerImage, h.sealHeader.index, h.sealHeader.header, h.sd]
  rw [header_write_eq, header_write_eq, himage, h.sd]
  cases a.sd.fails
  · exact h.afterRead.sealHeader.write_block _ _
  · exact ⟨rfl, h.afterRead⟩

/-- **`fkfs_fsync`** writes out a buffer the two have in common, or does nothing. -/
theorem Alike.fsync (h : Alike a b) : Agree (fkfs_fsync a) (fkfs_fsync b) := by
  cases hd : a.fs.cachedBlockDirty
  · rw [fsync_clean hd, fsync_clean (h.dirty.trans hd)]
    exact ⟨rfl, h⟩
  · have hd' := h.dirty.trans hd
    rcases h.cache with ⟨hc, hbuf⟩ | ⟨⟨hclean, -⟩, -⟩
    · rw [fsync_eq hd, fsync_eq hd', h.sd, h.header, hbuf]
      cases a.sd.fails
      · have hw := h.afterRead.afterWrite a.fs.header.block a.fs.buffer
        have hnext : Alike (afterDataWrite (Cache.afterRead a)) (afterDataWrite (Cache.afterRead b)) := by
          unfold afterDataWrite
          change Alike { Cache.afterWrite (Cache.afterRead a) a.fs.header.block a.fs.buffer with
              fs := fkfs_fsync_next a.fs }
            { Cache.afterWrite (Cache.afterRead b) b.fs.header.block b.fs.buffer with
              fs := fkfs_fsync_next b.fs }
          rw [h.header, hbuf]
          refine ⟨hw.sd, ?_, rfl, h.number, ?_, h.settings, .inl ⟨rfl, hbuf⟩⟩
          · change b.fs.headerIndex + 1 = a.fs.headerIndex + 1
            rw [h.index]
          · change { b.fs.header with generation := b.fs.header.generation + 1 }
              = { a.fs.header with generation := a.fs.header.generation + 1 }
            rw [h.header]
        exact hnext.header_write
      · exact ⟨rfl, h.afterRead.afterFailedWrite _ _⟩
    · rw [hd] at hclean
      cases hclean

/-- The same block is cached, with the same content. -/
def SameCache (a b : Machine) : Prop :=
  b.fs.cachedBlockNumber = a.fs.cachedBlockNumber ∧ b.fs.buffer = a.fs.buffer

/-- Then `fs` is the same. -/
theorem Alike.fs_eq (h : Alike a b) (hc : SameCache a b) : b.fs = a.fs := by
  have h1 := h.index
  have h2 := h.dirty
  have h3 := h.number
  have h4 := h.header
  have h5 := h.settings
  obtain ⟨h6, h7⟩ := hc
  generalize a.fs = fs at *
  generalize b.fs = fs' at *
  obtain ⟨i, d, c, n, hd, bf, fl⟩ := fs
  obtain ⟨i', d', c', n', hd', bf', fl'⟩ := fs'
  simp only at h1 h2 h3 h4 h5 h6 h7
  rw [h1, h2, h3, h4, h5, h6, h7]

/-- Machines with the same `fs` and the same card. -/
theorem alike_of_eq (hsd : b.sd = a.sd) (hfs : b.fs = a.fs) : Alike a b := by
  refine ⟨hsd, ?_, ?_, ?_, ?_, ?_, .inl ⟨?_, ?_⟩⟩ <;> rw [hfs]

/-- What is asked for is cached in both or in neither. -/
theorem Alike.asks (h : Alike a b) : SameCache a b ∨ Asked a.fs.header.block := by
  rcases h.cache with hc | ⟨-, -, hb⟩
  · exact .inl hc
  · exact .inr hb

theorem block_ensure_eq (s : Machine) (blk : UInt32) :
    fkfs_block_ensure s blk = if s.fs.cachedBlockNumber = blk then (true, s)
      else if s.sd.fails then (false, Cache.afterRead s)
      else (true, afterLoad (Cache.afterRead s) blk) := by
  by_cases hc : s.fs.cachedBlockNumber = blk
  · rw [if_pos hc]
    simp only [fkfs_block_ensure, hc, ne_eq, not_true, if_false]
  · rw [if_neg hc]
    simp only [fkfs_block_ensure, ne_eq, hc, not_false_eq_true, if_true, fkfs_read_block,
      sd_raw_read_block]
    cases s.sd.fails
    · rfl
    · rfl

/-- A vacant cache does not have a block that is asked for. -/
theorem Vacant.not_cached {fs : fkfs_t} (h : Vacant fs) {blk : UInt32} (hb : Asked blk) :
    fs.cachedBlockNumber ≠ blk := by
  rintro rfl
  rcases h.2 with h0 | h0
  · exact hb.1 h0
  · exact hb.2 h0

/-- **`fkfs_block_ensure`** of a block that is asked for leaves the same cache. -/
theorem Alike.block_ensure (h : Alike a b) {blk : UInt32} (hb : SameCache a b ∨ Asked blk) :
    Agree (fkfs_block_ensure a blk) (fkfs_block_ensure b blk)
      ∧ ((fkfs_block_ensure a blk).1 = true →
        SameCache (fkfs_block_ensure a blk).2 (fkfs_block_ensure b blk).2) := by
  have hload : Alike (afterLoad (Cache.afterRead a) blk) (afterLoad (Cache.afterRead b) blk)
      ∧ SameCache (afterLoad (Cache.afterRead a) blk) (afterLoad (Cache.afterRead b) blk) := by
    have hbuf : (Cache.afterRead b).sd.blocks blk.toNat = (Cache.afterRead a).sd.blocks blk.toNat := by
      rw [h.afterRead.sd]
    exact ⟨⟨h.afterRead.sd, h.index, rfl, h.number, h.header, h.settings, .inl ⟨rfl, hbuf⟩⟩,
      rfl, hbuf⟩
  -- Either both have the block or both read it.
  have hsame : (b.fs.cachedBlockNumber = blk ↔ a.fs.cachedBlockNumber = blk)
      ∧ (a.fs.cachedBlockNumber = blk → SameCache a b) := by
    rcases h.cache with hc | ⟨h1, h2, -⟩
    · exact ⟨by rw [hc.1], fun _ => hc⟩
    · rcases hb with hc | hb
      · exact ⟨by rw [hc.1], fun _ => hc⟩
      · exact ⟨⟨fun hc => absurd hc (h2.not_cached hb), fun hc => absurd hc (h1.not_cached hb)⟩,
          fun hc => absurd hc (h1.not_cached hb)⟩
  rw [block_ensure_eq a, block_ensure_eq b, h.sd]
  by_cases hc : a.fs.cachedBlockNumber = blk
  · rw [if_pos hc, if_pos (hsame.1.mpr hc)]
    exact ⟨⟨rfl, h⟩, fun _ => hsame.2 hc⟩
  · rw [if_neg hc, if_neg fun hc' => hc (hsame.1.mp hc')]
    cases a.sd.fails
    · exact ⟨⟨rfl, hload.1⟩, fun _ => hload.2⟩
    · exact ⟨⟨rfl, h.afterRead⟩, fun hok => absurd hok Bool.false_ne_true⟩

/-- **"Next block"** goes to a block that is asked for. -/
theorem Alike.next_block (h : Alike a b) : Alike (fkfs_next_block a) (fkfs_next_block b) := by
  have hwrap : wrapsAt b.fs (b.fs.header.block + 1) = wrapsAt a.fs (a.fs.header.block + 1) := by
    rw [wrapsAt, wrapsAt, h.number, h.header]
  have hnext : ∀ hd : fkfs_header_t, (Asked a.fs.header.block → Asked hd.block) → ∀ k k' : ℕ,
      Alike { a.setHeader hd with wraps := k } { b.setHeader hd with wraps := k' } := by
    intro hd hasked k k'
    refine ⟨h.sd, h.index, h.dirty, h.number, rfl, h.settings, ?_⟩
    rcases h.cache with hc | ⟨h1, h2, h3⟩
    · exact .inl hc
    · exact .inr ⟨h1, h2, hasked h3⟩
  unfold fkfs_next_block
  rw [hwrap, h.header]
  split
  · exact hnext _ (fun _ => show Asked FKFS_FIRST_BLOCK from ⟨by decide, by decide⟩) _ _
  · rename_i hw
    refine hnext _ (fun hb => ⟨fun h0 => ?_, fun hm => ?_⟩) a.wraps b.wraps
    · apply hb.2
      have hsum := congrArg UInt32.toNat h0
      have hlt := a.fs.header.block.toNat_lt
      change (a.fs.header.block + 1).toNat = 0 at hsum
      rw [UInt32.toNat_add, UInt32.toNat_one] at hsum
      apply UInt32.toNat_inj.mp
      rw [UINT32_MAX_toNat]
      omega
    · apply hw
      simp only [wrapsAt, FKFS_TESTING_LAST_BLOCK] at hm ⊢
      rw [hm, beq_self_eq_true, Bool.or_true]

/-! ## Calls -/

/-- A round of the allocator agrees, and one that does not fail leaves the same
cache. -/
theorem Alike.round (h : Alike a b) (required newOffset : UInt16) :
    Agree (allocateRound a required newOffset) (allocateRound b required newOffset)
      ∧ ((allocateRound a required newOffset).1 = true →
        SameCache (allocateRound a required newOffset).2 (allocateRound b required newOffset).2) := by
  have hensure : ∀ {x y : Machine}, Alike x y →
      Agree (fkfs_block_ensure x x.fs.header.block) (fkfs_block_ensure y y.fs.header.block)
        ∧ ((fkfs_block_ensure x x.fs.header.block).1 = true →
          SameCache (fkfs_block_ensure x x.fs.header.block).2
            (fkfs_block_ensure y y.fs.header.block).2) := by
    intro x y hxy
    rw [hxy.header]
    exact hxy.block_ensure hxy.asks
  unfold allocateRound
  split
  · obtain ⟨hok, hal⟩ := h.fsync
    generalize fkfs_fsync a = ra at hok hal
    generalize fkfs_fsync b = rb at hok hal
    obtain ⟨ok, x⟩ := ra
    obtain ⟨ok', y⟩ := rb
    dsimp only at hok hal
    subst hok
    cases ok' with
    | false => exact ⟨⟨rfl, hal⟩, fun hok => absurd hok Bool.false_ne_true⟩
    | true => exact hensure hal.next_block
  · exact hensure h

/-- Two runs of the allocator: they agree, and if they find a place leave the same
cache. -/
def AgreePlace (r r' : Bool × Machine) : Prop := Agree r r' ∧ (r.1 = true → SameCache r.2 r'.2)

/-- The allocator agrees if its first round does. -/
theorem allocateLoop_rounded {ov : Overrun} {pasts : ℕ → Mem} {f : FileNumber}
    {required newOffset : UInt16} {n visited : ℕ}
    (ih : ∀ {x y : Machine} {o : UInt16} {v : ℕ}, Alike x y →
      AgreePlace (allocateLoop ov pasts f required n x o v)
        (allocateLoop ov pasts f required n y o v))
    (hround : AgreePlace (allocateRound a required newOffset) (allocateRound b required newOffset)) :
    AgreePlace (allocateLoop ov pasts f required (n + 1) a newOffset visited)
      (allocateLoop ov pasts f required (n + 1) b newOffset visited) := by
  unfold allocateLoop
  dsimp only
  generalize allocateRound a required newOffset = ra at hround
  generalize allocateRound b required newOffset = rb at hround
  obtain ⟨ok, x⟩ := ra
  obtain ⟨ok', y⟩ := rb
  obtain ⟨⟨hok, hal⟩, hcache⟩ := hround
  dsimp only at hok hal hcache
  subst hok
  cases ok' with
  | false => exact ⟨⟨rfl, hal⟩, fun hok => absurd hok Bool.false_ne_true⟩
  | true =>
    -- From here on the two have the same `fs`.
    have hfs := hal.fs_eq (hcache rfl)
    dsimp only
    rw [hfs]
    generalize (if decide (SD_RAW_BLOCK_SIZE < required.toNat + newOffset.toNat) = true
      then visited + 1 else visited) = visited'
    split
    · refine ⟨⟨rfl, alike_of_eq hal.sd ?_⟩, fun _ => ?_⟩
      · simp only [Machine.setHeader, hfs]
      · exact hcache rfl
    · split
      · exact ih hal
      · exact ⟨⟨rfl, hal⟩, fun hok => absurd hok Bool.false_ne_true⟩

theorem Alike.allocate (h : Alike a b) (ov : Overrun) (pasts : ℕ → Mem) (f : FileNumber)
    (required newOffset : UInt16) (n visited : ℕ) :
    AgreePlace (allocateLoop ov pasts f required n a newOffset visited)
      (allocateLoop ov pasts f required n b newOffset visited) := by
  induction n generalizing a b newOffset visited with
  | zero => exact ⟨⟨rfl, h⟩, fun hok => absurd hok Bool.false_ne_true⟩
  | succ n ih => exact allocateLoop_rounded (fun hal => ih hal _ _) (h.round required newOffset)

/-- **`fkfs_file_append`** of a payload that may fit agrees if the allocator does. -/
theorem append_allocated {ov : Overrun} {pasts : ℕ → Mem} {f : FileNumber} {data : List UInt8}
    (hfit : ¬ (UInt16.ofNat data.length = 0
      ∨ SD_RAW_BLOCK_SIZE < (7 + UInt16.ofNat data.length).toNat))
    (hplace : AgreePlace (fkfs_file_allocate_block ov pasts a f (7 + UInt16.ofNat data.length))
      (fkfs_file_allocate_block ov pasts b f (7 + UInt16.ofNat data.length))) :
    Agree (fkfs_file_append ov pasts a f data) (fkfs_file_append ov pasts b f data) := by
  unfold fkfs_file_append
  dsimp only
  rw [if_neg hfit, if_neg hfit]
  generalize fkfs_file_allocate_block ov pasts a f (7 + UInt16.ofNat data.length) = ra at hplace
  generalize fkfs_file_allocate_block ov pasts b f (7 + UInt16.ofNat data.length) = rb at hplace
  obtain ⟨ok, x⟩ := ra
  obtain ⟨ok', y⟩ := rb
  obtain ⟨⟨hok, hal⟩, hcache⟩ := hplace
  dsimp only at hok hal hcache
  subst hok
  cases ok' with
  | false => exact ⟨rfl, hal⟩
  | true =>
    have hfs := hal.fs_eq (hcache rfl)
    dsimp only
    rw [hfs]
    have hstored : Alike { x with fs := storeEntry x.fs f (7 + UInt16.ofNat data.length) data }
        { y with fs := storeEntry x.fs f (7 + UInt16.ofNat data.length) data } :=
      alike_of_eq hal.sd rfl
    split
    · exact hstored.fsync
    · exact ⟨rfl, hstored⟩

/-- **`fkfs_file_append`** agrees. -/
theorem Alike.append (h : Alike a b) (ov : Overrun) (pasts : ℕ → Mem) (f : FileNumber)
    (data : List UInt8) : Agree (fkfs_file_append ov pasts a f data)
      (fkfs_file_append ov pasts b f data) := by
  by_cases hfit : UInt16.ofNat data.length = 0
      ∨ SD_RAW_BLOCK_SIZE < (7 + UInt16.ofNat data.length).toNat
  · unfold fkfs_file_append
    dsimp only
    rw [if_pos hfit, if_pos hfit]
    exact ⟨rfl, h⟩
  · refine append_allocated hfit ?_
    unfold fkfs_file_allocate_block
    rw [h.header]
    exact h.allocate ov pasts f _ _ _ _

theorem Alike.touch (h : Alike a b) (time : UInt32) :
    Agree (fkfs_touch a time) (fkfs_touch b time) := by
  unfold fkfs_touch
  rw [h.header]
  exact (h.setHeader { a.fs.header with time := time } rfl).header_write

/-- **`fkfs_flush`** agrees. -/
theorem Alike.flush (h : Alike a b) (now : UInt32) :
    Agree (fkfs_flush a now) (fkfs_flush b now) := by
  have htouch := h.touch now
  unfold fkfs_flush
  generalize fkfs_touch a now = ra at htouch
  generalize fkfs_touch b now = rb at htouch
  obtain ⟨ok, x⟩ := ra
  obtain ⟨ok', y⟩ := rb
  obtain ⟨hok, hal⟩ := htouch
  dsimp only at hok hal
  subst hok
  cases ok' with
  | false => exact ⟨rfl, hal⟩
  | true => exact hal.fsync

theorem Alike.truncate (h : Alike a b) (f : FileNumber) :
    Alike (fkfs_file_truncate a f) (fkfs_file_truncate b f) := by
  unfold fkfs_file_truncate
  rw [h.header]
  exact h.setHeader _ rfl

theorem Alike.truncate_all (h : Alike a b) :
    Alike (fkfs_file_truncate_all a) (fkfs_file_truncate_all b) := by
  unfold fkfs_file_truncate_all
  induction List.finRange 4 generalizing a b with
  | nil => exact h
  | cons f fs ih => exact ih (h.truncate f)

/-- Two calls of `fkfs_file_iterate`: the same status and iterator, machines that
go on alike, and where data was found the same buffer. -/
def AgreeIter (r r' : Bool × Machine × fkfs_file_iter_t) : Prop :=
  r'.1 = r.1 ∧ Alike r.2.1 r'.2.1 ∧ r'.2.2 = r.2.2 ∧ (r.1 = true → SameCache r.2.1 r'.2.1)

/-- The loop of `fkfs_file_iterate` agrees if its first round has the same buffer on
both sides. -/
theorem iterateLoop_ensured {ov : Overrun} {config : fkfs_iterator_config_t}
    {am : Ambient} {n r : ℕ} {iter : fkfs_file_iter_t} {mb : UInt32}
    (ih : ∀ {x y : Machine} {r : ℕ} {iter : fkfs_file_iter_t} {mb : UInt32}, Alike x y →
      SameCache x y → Option.Rel AgreeIter (Iterate.iterateLoop ov config am n r x iter mb)
        (Iterate.iterateLoop ov config am n r y iter mb))
    (hensure : AgreePlace (fkfs_block_ensure a iter.token.block)
      (fkfs_block_ensure b iter.token.block)) :
    Option.Rel AgreeIter (Iterate.iterateLoop ov config am (n + 1) r a iter mb)
      (Iterate.iterateLoop ov config am (n + 1) r b iter mb) := by
  unfold Iterate.iterateLoop
  generalize fkfs_block_ensure a iter.token.block = ra at hensure
  generalize fkfs_block_ensure b iter.token.block = rb at hensure
  obtain ⟨ok, x⟩ := ra
  obtain ⟨ok', y⟩ := rb
  obtain ⟨⟨hok, hal⟩, hcache⟩ := hensure
  dsimp only at hok hal hcache
  subst hok
  cases ok' with
  | false => exact .some ⟨rfl, hal, rfl, fun hok => absurd hok Bool.false_ne_true⟩
  | true =>
    have hsame := hcache rfl
    have hfs := hal.fs_eq hsame
    dsimp only
    rw [hfs]
    split
    · split
      · exact .some ⟨rfl, hal, rfl, fun _ => hsame⟩
      · split
        · exact .some ⟨rfl, hal, rfl, fun hok => absurd hok Bool.false_ne_true⟩
        · exact ih hal hsame
    · split
      · exact .some ⟨rfl, hal, rfl, fun hok => absurd hok Bool.false_ne_true⟩
      · generalize (if 0 < config.maxBlocks then mb - 1 else mb) = mb'
        split
        · exact .some ⟨rfl, hal, rfl, fun hok => absurd hok Bool.false_ne_true⟩
        · exact ih hal hsame

theorem Alike.iterateLoop (h : Alike a b) {ov : Overrun} {config : fkfs_iterator_config_t}
    {am : Ambient} {n r : ℕ} {iter : fkfs_file_iter_t} {mb : UInt32}
    (hb : SameCache a b ∨ Asked iter.token.block) :
    Option.Rel AgreeIter (Iterate.iterateLoop ov config am n r a iter mb)
      (Iterate.iterateLoop ov config am n r b iter mb) := by
  induction n generalizing r a b iter mb with
  | zero => exact .none
  | succ n ih => exact iterateLoop_ensured (fun hal hsame => ih hal (.inl hsame)) (h.block_ensure hb)

/-- **`fkfs_file_iterate`** agrees: a valid token points to a block that is asked
for. -/
theorem Alike.iterate (h : Alike a b) (ov : Overrun) (n : ℕ) (config : fkfs_iterator_config_t)
    (am : Ambient) (iter : fkfs_file_iter_t) :
    Option.Rel AgreeIter (fkfs_file_iterate ov n config am a iter)
      (fkfs_file_iterate ov n config am b iter) := by
  have hvalid : fkfs_file_iterator_valid b.fs iter = fkfs_file_iterator_valid a.fs iter := by
    rw [fkfs_file_iterator_valid, fkfs_file_iterator_valid, h.header]
  unfold fkfs_file_iterate
  rw [hvalid]
  split
  · exact .some ⟨rfl, h, rfl, fun hok => absurd hok Bool.false_ne_true⟩
  · rename_i hv
    split
    · exact .some ⟨rfl, h, rfl, fun hok => absurd hok Bool.false_ne_true⟩
    · refine h.iterateLoop (h.asks.imp_right fun hasked => ?_)
      simp only [fkfs_file_iterator_valid, Bool.not_eq_true', Bool.not_eq_false,
        Bool.and_eq_true, decide_eq_true_eq, UInt32.lt_iff_toNat_lt, UInt32.le_iff_toNat_le,
        UInt32.toNat_zero] at hv
      have hlt : a.fs.header.block.toNat < 4294967295 := by
        have hne : a.fs.header.block.toNat ≠ 4294967295 := fun hc =>
          hasked.2 (UInt32.toNat_inj.mp hc)
        have := a.fs.header.block.toNat_lt
        omega
      refine ⟨fun h0 => ?_, fun hm => ?_⟩
      · rw [h0] at hv
        exact absurd hv.1.1 (by decide)
      · rw [hm, UINT32_MAX_toNat] at hv
        omega

/-- The scan of `fkfs_file_truncate_at` agrees. -/
theorem Alike.calculateLoop (h : Alike a b) {ov : Overrun} {ams : ℕ → Ambient} {n m k : ℕ}
    {f : FileNumber} {iter : fkfs_file_iter_t} :
    Option.Rel Alike (Iterate.calculateLoop ov ams n f m k a iter)
      (Iterate.calculateLoop ov ams n f m k b iter) := by
  induction m generalizing k a b iter with
  | zero => exact .none
  | succ m ih =>
    have hiter := h.iterate ov n ⟨10, 0, 0⟩ (ams k) iter
    unfold Iterate.calculateLoop
    generalize fkfs_file_iterate ov n ⟨10, 0, 0⟩ (ams k) a iter = ra at hiter
    generalize fkfs_file_iterate ov n ⟨10, 0, 0⟩ (ams k) b iter = rb at hiter
    cases hiter with
    | none => exact .none
    | @some ra rb hagree =>
      obtain ⟨ok, x, it⟩ := ra
      obtain ⟨ok', y, it'⟩ := rb
      obtain ⟨hok, hal, hit, -⟩ := hagree
      dsimp only at hok hal hit
      subst hok
      subst hit
      cases ok' with
      | false => exact .some hal
      | true =>
        dsimp only
        rw [hal.header]
        exact ih (hal.setFile f _)

/-- **`fkfs_file_truncate_at`** agrees. -/
theorem Alike.truncate_at (h : Alike a b) (ov : Overrun) (ams : ℕ → Ambient) (n : ℕ)
    (iter scratch : fkfs_file_iter_t) : Option.Rel Alike (fkfs_file_truncate_at ov ams n a iter scratch)
      (fkfs_file_truncate_at ov ams n b iter scratch) := by
  have hcount : ∀ {x y : Machine}, Alike x y → ∀ f : FileNumber,
      Option.Rel Alike (calculate_file_size ov ams n x f scratch)
        (calculate_file_size ov ams n y f scratch) := by
    intro x y hxy f
    unfold calculate_file_size
    dsimp only
    rw [hxy.header]
    exact (hxy.setFile f _).calculateLoop
  unfold fkfs_file_truncate_at
  dsimp only
  rw [h.header]
  exact hcount (h.setFile _ _) _

theorem Alike.withFaults (h : Alike a b) (faults : List Bool) :
    Alike (withFaults a faults) (withFaults b faults) := by
  refine ⟨?_, h.index, h.dirty, h.number, h.header, h.settings, h.cache⟩
  change { b.sd with faults := faults } = { a.sd with faults := faults }
  rw [h.sd]

end Primitives

/-! ## Machines with nothing dirty -/

/-- The two hold the same card and the same header and have nothing dirty; what block
each has in its buffer makes no difference on a card that works. -/
structure Twin (a b : Machine) : Prop where
  sd : b.sd = a.sd
  index : b.fs.headerIndex = a.fs.headerIndex
  number : b.fs.numberOfBlocks = a.fs.numberOfBlocks
  header : b.fs.header = a.fs.header
  settings : b.fs.files = a.fs.files
  works : Works a.sd
  clean : a.fs.cachedBlockDirty = false
  clean' : b.fs.cachedBlockDirty = false
  coherent : Coherent a
  coherent' : Coherent b

/-- An append to a sync file leaves nothing dirty. -/
theorem clean_allocates (required : ℕ) :
    Allocates required fun m => m.fs.cachedBlockDirty = false where
  sync := by
    intro m hm
    rw [fsync_clean hm]
    exact hm
  next := by
    intro m hm _
    rw [(next_block_keeps m).2.2.2.2]
    exact hm
  load := by
    intro m hm
    rcases block_ensure_cases m m.fs.header.block with ⟨-, e⟩ | ⟨-, e⟩ | ⟨-, e⟩ <;> rw [e]
    · exact hm
    · exact hm
    · rfl
  place := fun hm _ _ _ => hm

theorem append_clean {s : Machine} {ov : Overrun} {pasts : ℕ → Mem} {f : FileNumber}
    {data : List UInt8} (hlen : data.length ≤ 505) (hw : Works s.sd)
    (hd : s.fs.cachedBlockDirty = false) (hsync : (s.fs.files f).sync ≠ 0) :
    (fkfs_file_append ov pasts s f data).2.fs.cachedBlockDirty = false := by
  have ha := (clean_allocates (7 + data.length)).and
    ((works_survive.allocates _).and ((settings_survive s.fs.files).allocates _))
  rcases append_cases ov f ha hlen pasts ⟨hd, hw, rfl⟩ with ⟨m, hm, e⟩ | ⟨-, m, hm, -, -, e⟩
  · rw [e]
    exact hm.1
  · rw [e, if_pos (by rw [hm.2.2]; exact hsync)]
    exact fsync_clears (fsync_succeeds (s := afterStore m f data) hm.2.1).1

section Twins

variable {a b : Machine}

/-- Alike machines with nothing dirty are twins. -/
theorem twin_of_alike (h : Alike a b) (hw : Works a.sd) (hd : a.fs.cachedBlockDirty = false)
    (ha : Coherent a) (hb : Coherent b) : Twin a b :=
  ⟨h.sd, h.index, h.number, h.header, h.settings, hw, hd, h.dirty.trans hd, ha, hb⟩

/-- Blocks are read into the cache of the first. -/
theorem Twin.loads_left {a' : Machine} (h : Twin a b) (hl : Loads a a') : Twin a' b :=
  ⟨h.sd.trans hl.sd.symm, h.index.trans hl.index.symm, h.number.trans hl.blocks.symm,
    h.header.trans hl.header.symm, h.settings.trans hl.files.symm, by rw [hl.sd]; exact h.works,
    hl.dirty.trans h.clean, h.clean', hl.coherent h.coherent, h.coherent'⟩

/-- Blocks are read into the cache of the second. -/
theorem Twin.loads_right {b' : Machine} (h : Twin a b) (hl : Loads b b') : Twin a b' :=
  ⟨hl.sd.trans h.sd, hl.index.trans h.index, hl.blocks.trans h.number, hl.header.trans h.header,
    hl.files.trans h.settings, h.works, h.clean, hl.dirty.trans h.clean', h.coherent,
    hl.coherent h.coherent'⟩

/-- A data block that is ensured is the one on the card. -/
theorem block_ensure_buffer {s : Machine} {blk : UInt32} (hw : Works s.sd) (hc : Coherent s)
    (hd : s.fs.cachedBlockDirty = false) (hge : 8000 ≤ blk.toNat) (hne : blk ≠ UINT32_MAX) :
    ∃ s', fkfs_block_ensure s blk = (true, s') ∧ Loads s s' ∧ s'.fs.cachedBlockNumber = blk
      ∧ s'.fs.buffer = s.sd.blocks blk.toNat := by
  obtain ⟨s', e, hl, hcached⟩ := block_ensure_loads hw
    (show QuietAt s blk from fun hc => absurd (hd.symm.trans hc) Bool.false_ne_true)
  refine ⟨s', e, hl, hcached, ?_⟩
  rw [(hl.coherent hc).buffer_eq hcached hge hne, hl.view, view_clean hd]

/-- **`fkfs_block_ensure`** of a data block leaves the same cache. -/
theorem Twin.block_ensure (h : Twin a b) {blk : UInt32} (hge : 8000 ≤ blk.toNat)
    (hne : blk ≠ UINT32_MAX) :
    AgreePlace (fkfs_block_ensure a blk) (fkfs_block_ensure b blk) := by
  obtain ⟨x, ea, hla, hca, hba⟩ := block_ensure_buffer h.works h.coherent h.clean hge hne
  obtain ⟨y, eb, hlb, hcb, hbb⟩ := block_ensure_buffer (by rw [h.sd]; exact h.works) h.coherent'
    h.clean' hge hne
  have ht := (h.loads_left hla).loads_right hlb
  have hsame : SameCache x y := ⟨hcb.trans hca.symm, by rw [hbb, hba, h.sd]⟩
  rw [ea, eb]
  exact ⟨⟨rfl, ⟨ht.sd, ht.index, ht.clean'.trans ht.clean.symm, ht.number, ht.header, ht.settings,
    .inl hsame⟩⟩, fun _ => hsame⟩

theorem Twin.next_block (h : Twin a b) : Twin (fkfs_next_block a) (fkfs_next_block b) := by
  have hca := next_block_coherent h.coherent h.clean
  have hcb := next_block_coherent h.coherent' h.clean'
  have hwrap : wrapsAt b.fs (b.fs.header.block + 1) = wrapsAt a.fs (a.fs.header.block + 1) := by
    rw [wrapsAt, wrapsAt, h.number, h.header]
  unfold fkfs_next_block at hca hcb ⊢
  rw [hwrap, h.header] at hcb ⊢
  split <;> rename_i hw <;> simp only [hw] at hca hcb
  · exact ⟨h.sd, h.index, h.number, rfl, h.settings, h.works, h.clean, h.clean', hca, hcb⟩
  · exact ⟨h.sd, h.index, h.number, rfl, h.settings, h.works, h.clean, h.clean', hca, hcb⟩

/-- A round of the allocator leaves no difference. -/
theorem Twin.round (h : Twin a b) (required newOffset : UInt16) :
    AgreePlace (allocateRound a required newOffset) (allocateRound b required newOffset) := by
  have hensure : ∀ {x y : Machine}, Twin x y → AgreePlace
      (fkfs_block_ensure x x.fs.header.block) (fkfs_block_ensure y y.fs.header.block) := by
    intro x y hxy
    rw [hxy.header]
    exact hxy.block_ensure hxy.coherent.block_ge hxy.coherent.block_ne_max
  unfold allocateRound
  rw [fsync_clean h.clean, fsync_clean h.clean']
  split
  · exact hensure h.next_block
  · exact hensure h

/-- **`fkfs_file_append`** to a sync file gives the same on twins, and leaves twins. -/
theorem Twin.append (h : Twin a b) (ov : Overrun) (pasts : ℕ → Mem) {f : FileNumber}
    {data : List UInt8} (hlen : data.length ≤ 505) (hsync : (a.fs.files f).sync ≠ 0) :
    (fkfs_file_append ov pasts b f data).1 = (fkfs_file_append ov pasts a f data).1
      ∧ Twin (fkfs_file_append ov pasts a f data).2 (fkfs_file_append ov pasts b f data).2 := by
  by_cases hfit : UInt16.ofNat data.length = 0
      ∨ SD_RAW_BLOCK_SIZE < (7 + UInt16.ofNat data.length).toNat
  · unfold fkfs_file_append
    dsimp only
    rw [if_pos hfit, if_pos hfit]
    exact ⟨rfl, h⟩
  · have hplace : AgreePlace
        (fkfs_file_allocate_block ov pasts a f (7 + UInt16.ofNat data.length))
        (fkfs_file_allocate_block ov pasts b f (7 + UInt16.ofNat data.length)) := by
      unfold fkfs_file_allocate_block
      rw [h.header]
      exact allocateLoop_rounded (fun hal => hal.allocate _ _ _ _ _ _ _) (h.round _ _)
    obtain ⟨hok, hal⟩ := append_allocated hfit hplace
    have hcoherent : ∀ {s : Machine}, Coherent s → Coherent (fkfs_file_append ov pasts s f data).2 :=
      fun hc => append_rule ov f (coherent_survives.allocates _) hlen
        (fun hm h1 _ h2 => coherent_survives.store hm h1 hlen h2) pasts hc
    have hworks : Works (fkfs_file_append ov pasts a f data).2.sd :=
      append_rule ov f (works_survive.allocates _) hlen
        (fun hm h1 _ h2 => works_survive.store hm h1 hlen h2) pasts h.works
    exact ⟨hok, twin_of_alike hal hworks (append_clean hlen h.works h.clean hsync)
      (hcoherent h.coherent) (hcoherent h.coherent')⟩

/-- Two calls of `fkfs_file_iterate`: the same status and iterator, twins, and where data
was found the same buffer. -/
def TwinIter (r r' : Bool × Machine × fkfs_file_iter_t) : Prop :=
  r'.1 = r.1 ∧ Twin r.2.1 r'.2.1 ∧ r'.2.2 = r.2.2 ∧ (r.1 = true → SameCache r.2.1 r'.2.1)

/-- **`fkfs_file_iterate`** over data blocks gives the same on twins, and leaves twins. -/
theorem Twin.iterate (h : Twin a b) (ov : Overrun) (n : ℕ) (config : fkfs_iterator_config_t)
    (am : Ambient) {iter : fkfs_file_iter_t} (hge : 8000 ≤ iter.token.block.toNat) :
    Option.Rel TwinIter (fkfs_file_iterate ov n config am a iter)
      (fkfs_file_iterate ov n config am b iter) := by
  have hvalid : fkfs_file_iterator_valid b.fs iter = fkfs_file_iterator_valid a.fs iter := by
    rw [fkfs_file_iterator_valid, fkfs_file_iterator_valid, h.header]
  have hquiet : ∀ {s : Machine} {t}, s.fs.cachedBlockDirty = false → Quiet s t := fun hd =>
    ⟨fun hc => absurd (hd.symm.trans hc) Bool.false_ne_true,
      fun hc => absurd (hd.symm.trans hc) Bool.false_ne_true⟩
  unfold fkfs_file_iterate
  rw [hvalid]
  split
  · exact .some ⟨rfl, h, rfl, fun hok => absurd hok Bool.false_ne_true⟩
  · rename_i hv
    split
    · exact .some ⟨rfl, h, rfl, fun hok => absurd hok Bool.false_ne_true⟩
    · have hne : iter.token.block ≠ UINT32_MAX := by
        intro hm
        simp only [fkfs_file_iterator_valid, Bool.not_eq_true', Bool.not_eq_false,
          Bool.and_eq_true, decide_eq_true_eq, UInt32.le_iff_toNat_le] at hv
        have hlt := h.coherent.block_lt
        rw [hm, UINT32_MAX_toNat] at hv
        omega
      have hrel : Option.Rel AgreeIter (iterateLoop ov config am n 0 a iter config.maxBlocks)
          (iterateLoop ov config am n 0 b iter config.maxBlocks) := by
        cases n with
        | zero => exact .none
        | succ n =>
          exact iterateLoop_ensured (fun hal hsame => hal.iterateLoop (.inl hsame))
            (h.block_ensure hge hne)
      -- Both only read.
      cases ea : iterateLoop ov config am n 0 a iter config.maxBlocks <;>
        cases eb : iterateLoop ov config am n 0 b iter config.maxBlocks <;>
        rw [ea, eb] at hrel <;> cases hrel
      · exact .none
      · rename_i ra rb hagree
        obtain ⟨hok, hal, hit, hcache⟩ := hagree
        have hla := (iterateLoop_loads h.works h.coherent (hquiet h.clean) ea).1
        have hlb := (iterateLoop_loads (by rw [h.sd]; exact h.works) h.coherent' (hquiet h.clean')
          eb).1
        exact .some ⟨hok, (h.loads_left hla).loads_right hlb, hit, hcache⟩

end Twins

end Fkfs.Twins
