/-
The writer: where `fkfs_file_append` puts an entry, and what that changes.

A place is a block and an offset, and places are ordered as the writer and the
reader pass them. `fkfs_file_allocate_block` only moves the writer's place
forward (until it wraps), along the chain of the block it is in, and
`fkfs_file_append` changes no byte before the place it ends at; `Below` states
the second half and everything that was stored is kept by it.

The allocator's loop is opened once: `allocate_rule` carries a property through
it that its four building blocks keep, and `append_rule` adds the store. What
an append changes is then `afterStore_*`.
-/
import Mathlib.Data.Prod.Lex
import Fkfs.Cache
import Fkfs.Walk

set_option autoImplicit false

namespace Fkfs.Writer

open Bytes Relation
open Fkfs.Crc Fkfs.Layout Fkfs.Device Fkfs.Search Fkfs.Append Fkfs.Cache Fkfs.Walk

/-! ## Places -/

/-- A block and an offset in it, in the order they are passed. -/
abbrev Place : Type := ℕ ×ₗ ℕ

/-- Offset `o` of block `b`. -/
def place (b o : ℕ) : Place := toLex (b, o)

theorem place_lt {b o b' o' : ℕ} : place b o < place b' o' ↔ b < b' ∨ b = b' ∧ o < o' :=
  Prod.Lex.toLex_lt_toLex

theorem place_le {b o b' o' : ℕ} : place b o ≤ place b' o' ↔ b < b' ∨ b = b' ∧ o ≤ o' :=
  Prod.Lex.toLex_le_toLex

/-- Where the writer is. -/
def writerPlace (h : fkfs_header_t) : Place := place h.block.toNat h.offset.toNat

/-- Where reading a file starts. -/
def startPlace (file : fkfs_file_t) : Place := place file.startBlock.toNat file.startOffset.toNat

/-- Where reading a file ends. -/
def endPlace (file : fkfs_file_t) : Place := place file.endBlock.toNat file.endOffset.toNat

/-- The data blocks hold the same bytes before the place `p`. -/
def Below (V V' : ℕ → Block) (p : Place) : Prop :=
  ∀ b i, 8000 ≤ b → place b i < p → (V b).mem i = (V' b).mem i

theorem Below.mono {V V' : ℕ → Block} {p q : Place} (h : Below V V' p) (hq : q ≤ p) :
    Below V V' q :=
  fun b i hb hi => h b i hb (lt_of_lt_of_le hi hq)

theorem below_of_eq {V V' : ℕ → Block} (h : ∀ b, 8000 ≤ b → V' b = V b) (p : Place) :
    Below V V' p := by
  intro b i hb _
  rw [h b hb]

/-- A chain that ends at or before the place is kept. -/
theorem Below.chain {V V' : ℕ → Block} {p : Place} (h : Below V V' p) {b o o' : ℕ}
    (hb : 8000 ≤ b) (hc : Chain (V b) o o') (hp : place b o' ≤ p) : Chain (V' b) o o' := by
  refine hc.congr fun i _ hi => h b i hb (lt_of_lt_of_le ?_ hp)
  exact place_lt.mpr (.inr ⟨rfl, hi⟩)

/-- A record that ends at or before the place is kept. -/
theorem Below.stored {V V' : ℕ → Block} {p : Place} (h : Below V V' p) {b o : ℕ} {r : Rec}
    (hb : 8000 ≤ b) (hs : Stored (V b) o r) (hp : place b (o + r.length) ≤ p) :
    Stored (V' b) o r := by
  refine hs.congr fun i _ hi => h b i hb (lt_of_lt_of_le ?_ hp)
  exact place_lt.mpr (.inr ⟨rfl, hi⟩)

/-! ## The search in a block -/

/-- A step of the search does not overflow its 16-bit offset. -/
theorem step_toNat {o a : UInt16} (ho : o.toNat ≤ 1023) (ha : a.toNat < 512) :
    (o + (7 + a)).toNat = o.toNat + (7 + a.toNat) := by
  rw [UInt16.toNat_add, UInt16.toNat_add]
  simp only [UInt16.reduceToNat]
  omega

/-- **`fkfs_block_available_offset`** ends on the chain it started on, with room
for what is to be stored. -/
theorem availableLoop_chain {ov : Overrun} {past : Mem} {fs : fkfs_t} {priority : UInt8}
    {required : UInt16} (hreq : 8 ≤ required.toNat) {n : ℕ} {o : UInt16}
    {r : fkfs_offset_search_t} (hroom : o.toNat + required.toNat ≤ 512)
    (h : availableLoop ov past fs priority required n o = (true, r)) :
    Chain fs.buffer o.toNat r.offset.toNat ∧ r.offset.toNat + required.toNat ≤ 512 := by
  induction n generalizing o with
  | zero => cases h
  | succ n ih =>
    simp only [availableLoop] at h
    rcases check_cases ov past fs o.toNat with ⟨hc, -⟩ | ⟨hp, hc⟩
    · rw [hc] at h
      cases h
      exact ⟨.refl, hroom⟩
    · rcases hc with ⟨hc, -⟩ | ⟨hc, -⟩
      · -- A good entry: it is overwritten, or the search steps over it.
        have hs : Sized fs.buffer.mem o.toNat :=
          (passes_mem_iff (by omega)).mp hp
        have he : entryAt (fs.memory past) o.toNat = entryAt fs.buffer.mem o.toNat :=
          entryAt_congr fun i _ _ => memory_lt _ _ _ (by omega)
        rw [hc, he] at h
        simp only at h
        split at h
        · cases h
          exact ⟨.refl, hroom⟩
        · split at h
          · rename_i hlt
            have hnat := step_toNat (o := o) (by omega) hs.avail_lt
            have hl : Link fs.buffer o.toNat (o + (7 + (entryAt fs.buffer.mem o.toNat).available)).toNat :=
              ⟨by omega, hs, hnat⟩
            obtain ⟨h1, h2⟩ := ih (by simp only [SD_RAW_BLOCK_SIZE] at hlt; omega) h
            exact ⟨.head hl h1, h2⟩
          · cases h
      · rw [hc] at h
        cases h
        exact ⟨.refl, hroom⟩

/-! ## A rule for the allocator -/

theorem fsync_clears {s : Machine} (h : (fkfs_fsync s).1 = true) :
    (fkfs_fsync s).2.fs.cachedBlockDirty = false := by
  cases hd : s.fs.cachedBlockDirty
  · rw [fsync_clean hd]
    exact hd
  · rcases fsync_cases hd with e | e
    · rw [e] at h
      cases h
    · rw [e]
      rcases header_write_cases (afterDataWrite (afterRead s)) with e | e | e <;> rw [e] <;> rfl

theorem block_ensure_header (s : Machine) (block : UInt32) :
    (fkfs_block_ensure s block).2.fs.header = s.fs.header := by
  rcases block_ensure_cases s block with ⟨-, e⟩ | ⟨-, e⟩ | ⟨-, e⟩ <;> rw [e] <;> rfl

/-- What a property of machines needs for `fkfs_file_allocate_block` to keep it. -/
structure Allocates (required : ℕ) (Inv : Machine → Prop) : Prop where
  sync : ∀ {m}, Inv m → Inv (fkfs_fsync m).2
  next : ∀ {m}, Inv m → m.fs.cachedBlockDirty = false → Inv (fkfs_next_block m)
  load : ∀ {m}, Inv m → Inv (fkfs_block_ensure m m.fs.header.block).2
  place : ∀ {m} {o : UInt16}, Inv m → m.fs.cachedBlockNumber = m.fs.header.block →
    Chain m.fs.buffer m.fs.header.offset.toNat o.toNat → o.toNat + required ≤ 512 →
    Inv (m.setHeader { m.fs.header with offset := o })

/-- Two properties are kept together. -/
theorem Allocates.and {required : ℕ} {P Q : Machine → Prop} (hp : Allocates required P)
    (hq : Allocates required Q) : Allocates required fun m => P m ∧ Q m where
  sync := fun hm => ⟨hp.sync hm.1, hq.sync hm.2⟩
  next := fun hm hd => ⟨hp.next hm.1 hd, hq.next hm.2 hd⟩
  load := fun hm => ⟨hp.load hm.1, hq.load hm.2⟩
  place := fun hm h1 h2 h3 => ⟨hp.place hm.1 h1 h2 h3, hq.place hm.2 h1 h2 h3⟩

/-- A property is kept under a condition that does not change. -/
theorem Allocates.under {required : ℕ} {P : Machine → Prop} (hp : Allocates required P)
    (C : Prop) : Allocates required fun m => C → P m where
  sync := fun hm hc => hp.sync (hm hc)
  next := fun hm hd hc => hp.next (hm hc) hd
  load := fun hm hc => hp.load (hm hc)
  place := fun hm h1 h2 h3 hc => hp.place (hm hc) h1 h2 h3

section Allocate

variable {ov : Overrun} {f : FileNumber} {required : UInt16} {Inv : Machine → Prop}

/-- A round that does not fail has the writer's block in the cache, with the
search starting at the writer's offset. -/
theorem allocateRound_rule (hi : Allocates required.toNat Inv) {s : Machine} (newOffset : UInt16)
    (hs : Inv s) : Inv (allocateRound s required newOffset).2
      ∧ ((allocateRound s required newOffset).1 = true →
        (allocateRound s required newOffset).2.fs.cachedBlockNumber
            = (allocateRound s required newOffset).2.fs.header.block
          ∧ (allocateRound s required newOffset).2.fs.header.offset
            = if 512 < required.toNat + newOffset.toNat then 0 else s.fs.header.offset) := by
  unfold allocateRound
  split
  · have hsync := hi.sync hs
    have hclean := fsync_clears (s := s)
    split
    · rename_i s1 e
      rw [e] at hsync
      exact ⟨hsync, fun h => nomatch h⟩
    · rename_i s1 e
      rw [e] at hsync hclean
      have hn := hi.next hsync (hclean rfl)
      refine ⟨hi.load hn, fun h => ⟨?_, ?_⟩⟩
      · rw [block_ensure_cached h, block_ensure_header]
      · rw [block_ensure_header]
        exact (next_block_keeps s1).1
  · refine ⟨hi.load hs, fun h => ⟨?_, ?_⟩⟩
    · rw [block_ensure_cached h, block_ensure_header]
    · rw [block_ensure_header]

/-- The loop of the allocator: it is always at the writer's offset, or about to
move on. -/
theorem allocateLoop_rule (hi : Allocates required.toNat Inv) (hreq : 8 ≤ required.toNat)
    (hmax : required.toNat ≤ 512) (pasts : ℕ → Mem) (n : ℕ) {s : Machine} {newOffset : UInt16}
    (visited : ℕ) (hs : Inv s)
    (hoff : newOffset = s.fs.header.offset ∨ 512 < required.toNat + newOffset.toNat) :
    Inv (allocateLoop ov pasts f required n s newOffset visited).2
      ∧ ((allocateLoop ov pasts f required n s newOffset visited).1 = true →
        (allocateLoop ov pasts f required n s newOffset visited).2.fs.cachedBlockNumber
            = (allocateLoop ov pasts f required n s newOffset visited).2.fs.header.block
          ∧ (allocateLoop ov pasts f required n s newOffset visited).2.fs.header.offset.toNat
              + required.toNat ≤ 512) := by
  induction n generalizing s newOffset visited with
  | zero => exact ⟨hs, fun h => nomatch h⟩
  | succ n ih =>
    have hround := allocateRound_rule hi newOffset hs
    unfold allocateLoop
    dsimp only
    split
    · rename_i s1 e
      rw [e] at hround
      exact ⟨hround.1, fun h => nomatch h⟩
    · rename_i s1 e
      rw [e] at hround
      obtain ⟨h1, h2⟩ := hround
      obtain ⟨hcached, hat⟩ := h2 rfl
      dsimp only at h1 hcached hat
      -- The search starts at the writer's offset whether the round moved or not.
      have hstart : (if (decide (512 < required.toNat + newOffset.toNat)) = true then 0
          else newOffset) = s1.fs.header.offset := by
        rw [hat]
        by_cases hm : 512 < required.toNat + newOffset.toNat
        · rw [if_pos (by simpa using hm), if_pos hm]
        · rw [if_neg (by simpa using hm), if_neg hm]
          exact hoff.resolve_right hm
      have hroom : s1.fs.header.offset.toNat + required.toNat ≤ 512 := by
        rw [← hstart]
        split
        · simpa using hmax
        · rename_i hm
          simp only [decide_eq_true_eq] at hm
          omega
      simp only [SD_RAW_BLOCK_SIZE, hstart]
      generalize (if decide (512 < required.toNat + newOffset.toNat) = true then visited + 1
        else visited) = visited'
      split
      · rename_i search e2
        obtain ⟨hc, hr⟩ := availableLoop_chain hreq hroom e2
        exact ⟨hi.place h1 hcached hc hr, fun _ => ⟨hcached, hr⟩⟩
      · split
        · exact ih _ h1 (.inr (by rw [show (512 : UInt16).toNat = 512 from rfl]; omega))
        · exact ⟨h1, fun h => nomatch h⟩

/-- **`fkfs_file_allocate_block`** keeps what its building blocks keep; if it
returns true the writer's block is cached and has room at the writer's offset. -/
theorem allocate_rule (ov : Overrun) (f : FileNumber) (hi : Allocates required.toNat Inv) (hreq : 8 ≤ required.toNat)
    (hmax : required.toNat ≤ 512) (pasts : ℕ → Mem) {s : Machine} (hs : Inv s) :
    Inv (fkfs_file_allocate_block ov pasts s f required).2
      ∧ ((fkfs_file_allocate_block ov pasts s f required).1 = true →
        (fkfs_file_allocate_block ov pasts s f required).2.fs.cachedBlockNumber
            = (fkfs_file_allocate_block ov pasts s f required).2.fs.header.block
          ∧ (fkfs_file_allocate_block ov pasts s f required).2.fs.header.offset.toNat
              + required.toNat ≤ 512) :=
  allocateLoop_rule hi hreq hmax pasts _ _ hs (.inl rfl)

end Allocate

/-! ## Storing an entry -/

/-- The record an append of `data` to file `f` makes under the header `h`. -/
def recordOf (h : fkfs_header_t) (f : FileNumber) (data : List UInt8) : Rec :=
  ⟨f, (h.files f).version, data⟩

/-- The machine with an entry stored at the writer's place. -/
def afterStore (s : Machine) (f : FileNumber) (data : List UInt8) : Machine :=
  { s with fs := storeEntry s.fs f (7 + UInt16.ofNat data.length) data }

theorem required_toNat {data : List UInt8} (h : data.length ≤ 505) :
    (7 + UInt16.ofNat data.length).toNat = 7 + data.length := by
  rw [UInt16.toNat_add, UInt16.toNat_ofNat', show (7 : UInt16).toNat = 7 from rfl]
  omega

section Store

variable {s : Machine} {f : FileNumber} {data : List UInt8}

/-- The writer stands right behind what it stored. -/
theorem afterStore_offset (hlen : data.length ≤ 505)
    (hroom : s.fs.header.offset.toNat + (7 + data.length) ≤ 512) :
    (afterStore s f data).fs.header.offset.toNat
      = s.fs.header.offset.toNat + (recordOf s.fs.header f data).length := by
  change (s.fs.header.offset + (7 + UInt16.ofNat data.length)).toNat = _
  rw [UInt16.toNat_add, required_toNat hlen]
  change _ = s.fs.header.offset.toNat + (7 + data.length)
  omega

theorem afterStore_block : (afterStore s f data).fs.header.block = s.fs.header.block := rfl

/-- Another file's row stays; the file's own row ends where the writer stands. -/
theorem afterStore_other {g : FileNumber} (hg : g ≠ f) :
    (afterStore s f data).fs.header.files g = s.fs.header.files g :=
  Function.update_of_ne hg _ _

theorem afterStore_row : (afterStore s f data).fs.header.files f =
    { s.fs.header.files f with
      endBlock := s.fs.header.block
      endOffset := (afterStore s f data).fs.header.offset
      size := (s.fs.header.files f).size + (UInt16.ofNat data.length).toUInt32 } :=
  Function.update_self _ _ _

theorem afterStore_version (g : FileNumber) :
    ((afterStore s f data).fs.header.files g).version = (s.fs.header.files g).version := by
  by_cases hg : g = f
  · subst hg
    rw [afterStore_row]
  · rw [afterStore_other hg]

theorem afterStore_buffer : (afterStore s f data).fs.buffer
    = memcpy s.fs.buffer s.fs.header.offset.toNat (recordOf s.fs.header f data).bytes :=
  memcpy_memcpy s.fs.buffer s.fs.header.offset.toNat (recordOf s.fs.header f data).entry.bytes data

/-- **What a store changes of the blocks**: one stretch of the writer's block. -/
theorem afterStore_view (h : Coherent s) (hc : s.fs.cachedBlockNumber = s.fs.header.block) :
    view (afterStore s f data) = Function.update (view s) s.fs.header.block.toNat
      (memcpy (view s s.fs.header.block.toNat) s.fs.header.offset.toNat
        (recordOf s.fs.header f data).bytes) := by
  have hbuf := h.buffer_eq hc h.block_ge h.block_ne_max
  have hnum : (afterStore s f data).fs.cachedBlockNumber = s.fs.header.block := hc
  funext b
  by_cases hb : b = s.fs.header.block.toNat
  · subst hb
    rw [Function.update_self, ← hbuf, ← afterStore_buffer]
    exact if_pos ⟨rfl, by rw [hnum]⟩
  · rw [Function.update_of_ne hb]
    have h1 : view (afterStore s f data) b = s.sd.blocks b :=
      if_neg fun hcon => hb (by rw [hcon.2, hnum])
    have h2 : view s b = s.sd.blocks b := if_neg fun hcon => hb (by rw [hcon.2, hc])
    rw [h1, h2]

theorem afterStore_coherent (h : Coherent s) (hc : s.fs.cachedBlockNumber = s.fs.header.block)
    (hlen : data.length ≤ 505) (hroom : s.fs.header.offset.toNat + (7 + data.length) ≤ 512) :
    Coherent (afterStore s f data) where
  block_ge := h.block_ge
  block_lt := h.block_lt
  offset_le := by
    rw [afterStore_offset hlen hroom]
    exact hroom
  dirty := fun _ => hc
  clean := fun hd => nomatch hd

variable (h : Coherent s) (hc : s.fs.cachedBlockNumber = s.fs.header.block)

include h hc

/-- The other blocks, and the bytes of the block outside the stretch, stay. -/
theorem afterStore_outside {b i : ℕ} (hi : b ≠ s.fs.header.block.toNat
      ∨ i < s.fs.header.offset.toNat
      ∨ s.fs.header.offset.toNat + (recordOf s.fs.header f data).length ≤ i) :
    (view (afterStore s f data) b).mem i = (view s b).mem i := by
  rw [afterStore_view h hc]
  by_cases hb : b = s.fs.header.block.toNat
  · subst hb
    rw [Function.update_self]
    refine memcpy_outside _ _ _ ?_
    rw [Rec.bytes_length]
    exact hi.resolve_left fun hne => hne rfl
  · rw [Function.update_of_ne hb]

theorem afterStore_below :
    Below (view s) (view (afterStore s f data)) (writerPlace s.fs.header) := by
  intro b i _ hi
  rw [afterStore_outside h hc]
  rcases place_lt.mp hi with hi | ⟨-, hi⟩
  · exact .inl (by omega)
  · exact .inr (.inl hi)

/-- **What a store puts there**: the record, in one piece. -/
theorem afterStore_stored (hpos : 0 < data.length) (hlen : data.length ≤ 505)
    (hroom : s.fs.header.offset.toNat + (7 + data.length) ≤ 512) :
    Stored (view (afterStore s f data) s.fs.header.block.toNat) s.fs.header.offset.toNat
      (recordOf s.fs.header f data) := by
  refine ⟨⟨hpos, hlen⟩, hroom, ?_⟩
  rw [afterStore_view h hc, Function.update_self]
  exact memcpy_holds _ _ _ (by rw [Rec.bytes_length]; exact hroom)

end Store

/-! ## A rule for appending -/

section Append

variable {ov : Overrun} {f : FileNumber} {data : List UInt8} {Inv : Machine → Prop}

/-- **Every way `fkfs_file_append` can end**: it finds no place, or it stores
the entry at the writer's place and syncs if the file is a sync file. -/
theorem append_cases (ov : Overrun) (f : FileNumber) (hi : Allocates (7 + data.length) Inv) (hlen : data.length ≤ 505)
    (pasts : ℕ → Mem) {s : Machine} (hs : Inv s) :
    (∃ m, Inv m ∧ fkfs_file_append ov pasts s f data = (false, m))
      ∨ 0 < data.length ∧ ∃ m, Inv m ∧ m.fs.cachedBlockNumber = m.fs.header.block
        ∧ m.fs.header.offset.toNat + (7 + data.length) ≤ 512
        ∧ fkfs_file_append ov pasts s f data
          = if (m.fs.files f).sync ≠ 0 then fkfs_fsync (afterStore m f data)
            else (true, afterStore m f data) := by
  have hreq := required_toNat hlen
  unfold fkfs_file_append
  dsimp only
  split
  · exact .inl ⟨s, hs, rfl⟩
  · rename_i hfit
    rw [hreq] at hfit
    have hpos : 0 < data.length := by
      rw [Nat.pos_iff_ne_zero]
      intro h0
      exact hfit (.inl (by rw [h0]; rfl))
    obtain ⟨h1, h2⟩ := allocate_rule ov f (by rw [hreq]; exact hi)
      (by rw [hreq]; omega) (by rw [hreq]; omega) pasts hs
    split
    · rename_i m e
      rw [e] at h1
      exact .inl ⟨m, h1, rfl⟩
    · rename_i m e
      rw [e] at h1 h2
      obtain ⟨hc, hr⟩ := h2 rfl
      rw [hreq] at hr
      exact .inr ⟨hpos, m, h1, hc, hr, rfl⟩

/-- **`fkfs_file_append`** keeps what the allocator and the store keep. -/
theorem append_rule (ov : Overrun) (f : FileNumber) (hi : Allocates (7 + data.length) Inv) (hlen : data.length ≤ 505)
    (hstore : ∀ {m}, Inv m → m.fs.cachedBlockNumber = m.fs.header.block → 0 < data.length →
      m.fs.header.offset.toNat + (7 + data.length) ≤ 512 → Inv (afterStore m f data))
    (pasts : ℕ → Mem) {s : Machine} (hs : Inv s) :
    Inv (fkfs_file_append ov pasts s f data).2 := by
  rcases append_cases ov f hi hlen pasts hs with ⟨m, hm, e⟩ | ⟨hpos, m, hm, hc, hr, e⟩
  · rw [e]
    exact hm
  · rw [e]
    have := hstore hm hc hpos hr
    split
    · exact hi.sync this
    · exact this

end Append

end Fkfs.Writer
