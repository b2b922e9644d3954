/-
Where `fkfs_file_append` puts an entry, and what it refuses.

Whatever state the call starts from and whatever fails under it, an append that
returns true has stored its entry inside the block, right before the writer's
offset, and `fkfs_block_check` finds it there (`Placed`). What cannot fit is
refused at once, as long as `sizeof(fkfs_entry_t) + size` fits the 16 bits of
`required`: a size of 65529 or more passes the guard (`append_bounded_iff`).
-/
import Fkfs.Priority

set_option autoImplicit false

namespace Fkfs.Bounds

open Bytes Relation
open Fkfs.Crc Fkfs.Layout Fkfs.Device Fkfs.Search Fkfs.Append Fkfs.Mount Fkfs.Cache Fkfs.Walk
open Fkfs.Writer Fkfs.Priority Fkfs.Structure

/-! ## What an append promises -/

/-- The machine in which `fkfs_file_append` has found a place for `data`. -/
def placed (ov : Overrun) (pasts : ℕ → Mem) (s : Machine) (f : FileNumber) (data : List UInt8) :
    Machine :=
  (fkfs_file_allocate_block ov pasts s f (7 + UInt16.ofNat data.length)).2

/-- The entry lies in its block, at the place that was found, and nothing else of
the block was touched. -/
structure Placed (ov : Overrun) (s m s' : Machine) (f : FileNumber) (data : List UInt8) :
    Prop where
  room : m.fs.header.offset.toNat + (7 + data.length) ≤ 512
  block : s'.fs.header.block = m.fs.header.block
  offset : s'.fs.header.offset.toNat = m.fs.header.offset.toNat + (7 + data.length)
  stored : Holds s'.fs.buffer.mem m.fs.header.offset.toNat
    ((newEntry (s.fs.header.files f) f data).bytes ++ data)
  good : ∀ past, fkfs_block_check ov past s'.fs m.fs.header.offset.toNat = .good
  file : ∀ past, (entryAt (s'.fs.memory past) m.fs.header.offset.toNat).file = UInt8.ofNat f
  payload : ∀ past, slice (s'.fs.memory past) (m.fs.header.offset.toNat + 7)
    (entryAt (s'.fs.memory past) m.fs.header.offset.toNat).size.toNat = data
  outside : ∀ i, i < m.fs.header.offset.toNat ∨ m.fs.header.offset.toNat + (7 + data.length) ≤ i →
    s'.fs.buffer.mem i = m.fs.buffer.mem i
  /-- The buffer held the block as it was before the call. -/
  before : Coherent s → m.fs.buffer = view s m.fs.header.block.toNat
  /-- An entry of a sync file is on the card. -/
  synced : (s.fs.files f).sync ≠ 0 → 8000 ≤ m.fs.header.block.toNat →
    s'.sd.blocks m.fs.header.block.toNat = s'.fs.buffer

/-- An append that cannot fit is refused; one that returns true is in its place. -/
def Bounded (ov : Overrun) (pasts : ℕ → Mem) (s : Machine) (f : FileNumber) (data : List UInt8) :
    Prop :=
  (data.length = 0 ∨ 512 < 7 + data.length →
      fkfs_file_append ov pasts s f data = (false, s))
    ∧ (0 < data.length → 7 + data.length ≤ 512 →
      (fkfs_file_append ov pasts s f data).1 = true →
      Placed ov s (placed ov pasts s f data) (fkfs_file_append ov pasts s f data).2 f data)

/-! ## Up to 65528 bytes -/

section Fits

variable {ov : Overrun} {s m : Machine} {f : FileNumber} {data : List UInt8}

/-- What a sync leaves of `fs`, wherever it fails. -/
structure SameData (fs fs' : fkfs_t) : Prop where
  buffer : fs'.buffer = fs.buffer
  block : fs'.header.block = fs.header.block
  offset : fs'.header.offset = fs.header.offset
  table : fs'.header.files = fs.header.files
  settings : fs'.files = fs.files

theorem fsync_sameData (s : Machine) : SameData s.fs (fkfs_fsync s).2.fs := by
  cases hd : s.fs.cachedBlockDirty
  · rw [fsync_clean hd]
    exact ⟨rfl, rfl, rfl, rfl, rfl⟩
  · rcases fsync_cases hd with e | e
    · rw [e]
      exact ⟨rfl, rfl, rfl, rfl, rfl⟩
    · rw [e]
      rcases header_write_cases (afterDataWrite (afterRead s)) with e | e | e <;> rw [e] <;>
        exact ⟨rfl, rfl, rfl, rfl, rfl⟩

/-- A dirty sync that returns true has put the buffer on the card. -/
theorem fsync_on_card {s : Machine} (hd : s.fs.cachedBlockDirty = true)
    (hb : 8000 ≤ s.fs.header.block.toNat) (h : (fkfs_fsync s).1 = true) :
    (fkfs_fsync s).2.sd.blocks s.fs.header.block.toNat = s.fs.buffer := by
  have hdata : (afterDataWrite (afterRead s)).sd.blocks s.fs.header.block.toNat = s.fs.buffer :=
    Function.update_self _ _ _
  rcases fsync_cases hd with e | e
  · rw [e] at h
    cases h
  · rw [e] at h ⊢
    rcases header_write_cases (afterDataWrite (afterRead s)) with e' | e' | e'
    · rw [e'] at h
      cases h
    · rw [e'] at h
      cases h
    · rw [e']
      exact (put_zero _ _ hb).trans hdata

/-- The table the place was found under is the one the call started with. -/
theorem sameTable_allocates (s : Machine) (required : ℕ) :
    Allocates required fun m => m.fs.header.files = s.fs.header.files ∧ m.fs.files = s.fs.files where
  sync := fun {m} hm => by
    have hk := fsync_sameData m
    exact ⟨hk.table.trans hm.1, hk.settings.trans hm.2⟩
  next := fun {m} hm _ => by
    obtain ⟨-, ht, -, -, hfs⟩ := next_block_keeps m
    exact ⟨ht.trans hm.1, by rw [hfs]; exact hm.2⟩
  load := fun {m} hm => by
    rcases block_ensure_cases m m.fs.header.block with ⟨-, e⟩ | ⟨-, e⟩ | ⟨-, e⟩ <;> rw [e] <;>
      exact hm
  place := fun hm _ _ _ => hm

/-- A stored entry is where the writer's offset was. -/
theorem placed_afterStore (hpos : 0 < data.length)
    (hroom : m.fs.header.offset.toNat + (7 + data.length) ≤ 512)
    (htable : m.fs.header.files = s.fs.header.files)
    (hbefore : Coherent s → m.fs.buffer = view s m.fs.header.block.toNat) {s' : Machine}
    (hs' : SameData (afterStore m f data).fs s'.fs)
    (hsynced : (s.fs.files f).sync ≠ 0 → 8000 ≤ m.fs.header.block.toNat →
      s'.sd.blocks m.fs.header.block.toNat = s'.fs.buffer) : Placed ov s m s' f data := by
  have hlen : data.length ≤ 505 := by omega
  have hbuf : s'.fs.buffer = memcpy m.fs.buffer m.fs.header.offset.toNat
      (recordOf m.fs.header f data).bytes := hs'.buffer.trans afterStore_buffer
  have hversion : (s'.fs.header.files f).version = (recordOf m.fs.header f data).version := by
    rw [hs'.table, afterStore_version]
    rfl
  have hst : Stored s'.fs.buffer m.fs.header.offset.toNat (recordOf m.fs.header f data) := by
    refine ⟨⟨hpos, hlen⟩, hroom, ?_⟩
    rw [hbuf]
    exact memcpy_holds _ _ _ (by rw [Rec.bytes_length]; exact hroom)
  have hentry : ∀ past, entryAt (s'.fs.memory past) m.fs.header.offset.toNat
      = (recordOf m.fs.header f data).entry := fun past => (hst.memory_eq s'.fs.files past).1
  refine ⟨hroom, hs'.block, ?_, ?_, fun past => ?_, fun past => ?_, fun past => ?_, fun i hi => ?_,
    hbefore, hsynced⟩
  · rw [hs'.offset, afterStore_offset hlen hroom]
    rfl
  · rw [newEntry_eq, ← htable]
    exact hst.holds
  · rw [hst.check ov past s'.fs rfl]
    exact if_pos hversion
  · rw [hentry]
    rfl
  · rw [hentry]
    exact (hst.memory_eq s'.fs.files past).2
  · rw [hbuf]
    exact memcpy_outside _ _ _ (by rw [Rec.bytes_length]; exact hi)

/-- **An append that returns true is in its place.** -/
theorem append_placed (ov : Overrun) (pasts : ℕ → Mem) (s : Machine) (f : FileNumber)
    (hpos : 0 < data.length) (hlen : data.length ≤ 505)
    (h : (fkfs_file_append ov pasts s f data).1 = true) :
    Placed ov s (placed ov pasts s f data) (fkfs_file_append ov pasts s f data).2 f data := by
  have hreq := required_toNat hlen
  have hsize : ¬ (UInt16.ofNat data.length = 0
      ∨ SD_RAW_BLOCK_SIZE < (7 + UInt16.ofNat data.length).toNat) := by
    rw [← UInt16.toNat_inj, UInt16.toNat_ofNat', hreq]
    simp only [SD_RAW_BLOCK_SIZE, UInt16.toNat_zero]
    omega
  have hsame := allocate_rule ov f
    (sameTable_allocates s (7 + UInt16.ofNat data.length).toNat) (by rw [hreq]; omega)
    (by rw [hreq]; omega) pasts ⟨rfl, rfl⟩
  have hview : Coherent s → SameBlocks s (placed ov pasts s f data) := fun hs =>
    (allocate_rule ov f (sameBlocks_allocates s (7 + UInt16.ofNat data.length).toNat
      (by rw [hreq]; omega)) (by rw [hreq]; omega) (by rw [hreq]; omega) pasts
      ⟨hs, rfl, rfl, rfl, fun _ _ => rfl⟩).1
  unfold fkfs_file_append at h ⊢
  dsimp only at h ⊢
  rw [if_neg hsize] at h ⊢
  unfold placed at hview ⊢
  split at h
  · cases h
  · rename_i m e
    rw [e] at hsame hview ⊢
    obtain ⟨⟨htable, hset⟩, hend⟩ := hsame
    obtain ⟨hc, hroom⟩ := hend rfl
    rw [hreq] at hroom
    have hbefore : Coherent s → m.fs.buffer = view s m.fs.header.block.toNat := fun hs => by
      have hv := hview hs
      rw [hv.coherent.buffer_eq hc hv.coherent.block_ge hv.coherent.block_ne_max]
      exact hv.view _ hv.coherent.block_ge
    split at h
    · rename_i hsync
      rw [if_pos hsync]
      refine placed_afterStore hpos hroom htable hbefore (fsync_sameData _) fun _ hb => ?_
      rw [(fsync_sameData _).buffer]
      exact fsync_on_card (s := afterStore m f data) rfl hb h
    · rename_i hsync
      rw [if_neg hsync]
      refine placed_afterStore hpos hroom htable hbefore ⟨rfl, rfl, rfl, rfl, rfl⟩ fun hs => ?_
      rw [← hset] at hs
      exact absurd hs hsync

end Fits

/-! ## Which sizes are refused -/

/-- What cannot fit is refused, if `required` does not run over. -/
theorem append_refuses (ov : Overrun) (pasts : ℕ → Mem) (s : Machine) (f : FileNumber)
    {data : List UInt8} (hlen : 7 + data.length < 65536)
    (h : data.length = 0 ∨ 512 < 7 + data.length) :
    fkfs_file_append ov pasts s f data = (false, s) := by
  have hreq : (7 + UInt16.ofNat data.length).toNat = 7 + data.length := by
    rw [UInt16.toNat_add, UInt16.toNat_ofNat', show (7 : UInt16).toNat = 7 from rfl]
    omega
  unfold fkfs_file_append
  dsimp only
  rw [if_pos]
  rw [hreq]
  rcases h with h | h
  · left
    rw [h]
    rfl
  · exact .inr h

/-- A `required` that ran over passes the guard, and if there is no entry at the
writer's offset the append goes through. -/
theorem append_runs_over (ov : Overrun) (pasts : ℕ → Mem) {s : Machine} (f : FileNumber)
    {data : List UInt8} (hw : Works s.sd)
    (hroom : (7 + UInt16.ofNat data.length).toNat + s.fs.header.offset.toNat ≤ 512)
    (hsize : UInt16.ofNat data.length ≠ 0)
    (hblank : ∀ past, ¬ Passes ov ((fkfs_block_ensure s s.fs.header.block).2.fs.memory past)
      s.fs.header.offset.toNat) :
    (fkfs_file_append ov pasts s f data).1 = true := by
  have hguard : ¬ (UInt16.ofNat data.length = 0
      ∨ SD_RAW_BLOCK_SIZE < (7 + UInt16.ofNat data.length).toNat) := by
    rintro (h | h)
    · exact hsize h
    · simp only [SD_RAW_BLOCK_SIZE] at h
      omega
  have hstay : ¬ SD_RAW_BLOCK_SIZE
      < (7 + UInt16.ofNat data.length).toNat + s.fs.header.offset.toNat := not_lt.mpr hroom
  obtain ⟨hok, hw1⟩ := block_ensure_succeeds hw s.fs.header.block
  have hsearch : fkfs_file_allocate_block ov pasts s f (7 + UInt16.ofNat data.length)
      = (true, (fkfs_block_ensure s s.fs.header.block).2.setHeader
        { (fkfs_block_ensure s s.fs.header.block).2.fs.header with
          offset := s.fs.header.offset }) := by
    unfold fkfs_file_allocate_block allocateLoop allocateRound
    dsimp only
    rw [if_neg hstay]
    generalize fkfs_block_ensure s s.fs.header.block = r at hok hblank
    obtain ⟨ok, m⟩ := r
    obtain rfl : ok = true := hok
    have hcheck := check_of_not_passes (hblank (pasts FKFS_SEEK_BLOCKS_MAX))
    simp only [hstay, decide_false, Bool.false_eq_true, if_false, fkfs_block_available_offset,
      SD_RAW_BLOCK_SIZE, availableLoop, hcheck]
  unfold fkfs_file_append
  dsimp only
  rw [if_neg hguard, hsearch]
  dsimp only
  split
  · refine (fsync_succeeds ?_).1
    exact hw1
  · rfl

/-- The wiped card takes a payload whose `required` runs over. -/
theorem wiped_takes_overrun (data : List UInt8) (h1 : 65536 ≤ 7 + data.length)
    (h2 : data.length < 65536) :
    (fkfs_file_append .reads (fun _ _ => 0) (wipedMachine 9000) 0 data).1 = true := by
  have hreq : (7 + UInt16.ofNat data.length).toNat ≤ 512 := by
    rw [UInt16.toNat_add, UInt16.toNat_ofNat', show (7 : UInt16).toNat = 7 from rfl]
    omega
  refine append_runs_over .reads _ 0 rfl hreq ?_ fun past => not_passes_zeroBlock _ _ past
  intro h
  have := congrArg UInt16.toNat h
  rw [UInt16.toNat_ofNat', UInt16.toNat_zero] at this
  omega

/-- **Every append of `size` bytes is bounded exactly if** `sizeof(fkfs_entry_t)
+ size` fits the 16 bits of `required`. -/
theorem append_bounded_iff {size : ℕ} (hsize : size < 65536) :
    (∀ (ov : Overrun) (pasts : ℕ → Mem) (s : Machine) (f : FileNumber) (data : List UInt8),
        s.fs.header.offset.toNat ≤ 512 → data.length = size → Bounded ov pasts s f data)
      ↔ 7 + size < 65536 := by
  constructor
  · intro h
    by_contra hrun
    have hdata : (List.replicate size (0 : UInt8)).length = size := List.length_replicate
    have hrefuse := (h .reads (fun _ _ => 0) (wipedMachine 9000) 0 (List.replicate size 0)
      (by decide) hdata).1 (.inr (by rw [hdata]; omega))
    have htrue := wiped_takes_overrun (List.replicate size 0) (by rw [hdata]; omega)
      (by rw [hdata]; exact hsize)
    rw [hrefuse] at htrue
    cases htrue
  · rintro hfits ov pasts s f data - rfl
    refine ⟨append_refuses ov pasts s f hfits, fun hpos hroom htrue => ?_⟩
    exact append_placed ov pasts s f hpos (by omega) htrue

/-- A payload of 65530 bytes is stored at offset 0 of a block of 512. -/
theorem append_takes_65530 :
    ¬ Bounded .reads (fun _ _ => 0) (wipedMachine 9000) 0 (List.replicate 65530 0) := by
  intro h
  have hdata : (List.replicate 65530 (0 : UInt8)).length = 65530 := List.length_replicate
  have hrefuse := h.1 (.inr (by rw [hdata]; decide))
  have htrue := wiped_takes_overrun (List.replicate 65530 0) (by rw [hdata]; decide)
    (by rw [hdata]; decide)
  rw [hrefuse] at htrue
  cases htrue

/-- Three bytes are refused or in their place. -/
theorem append_bounded_three :
    Bounded .reads (fun _ _ => 0) (wipedMachine 9000) 0 [1, 2, 3] := by
  have hsize : 3 < 65536 := by decide
  exact (append_bounded_iff hsize).mpr (by decide) _ _ _ _ _ (by decide) rfl

end Fkfs.Bounds
