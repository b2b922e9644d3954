/-
The entry chain of a block.

A block is walked from offset 0 in steps of `sizeof(fkfs_entry_t) + available`
over every position whose size test passes, whatever its CRC says: the reader
steps over a CRC failure as it steps over another file's entry. So where a walk
passes is decided by the five bytes of each entry header that the size test and
the step read, all of them below the next position. That is what makes the
chain up to an offset independent of the bytes from that offset on
(`Chain.congr`), and the whole crash argument hangs on it.

An entry that was stored in one piece (`Stored`) is a link of the chain, and
`fkfs_block_check` answers good or CRC there according to the version of its
file and to nothing else (`Stored.check`).
-/
import Fkfs.Lib.Trails
import Fkfs.Search
import Fkfs.Append

set_option autoImplicit false

namespace Fkfs.Walk

open Bytes Relation
open Fkfs.Crc Fkfs.Layout Fkfs.Device Fkfs.Search Fkfs.Append

/-! ## What `fkfs_block_check` decides -/

/-- The size test of `fkfs_block_check` passes on the entry header at `o`. -/
structure Sized (m : Mem) (o : ℕ) : Prop where
  file : (entryAt m o).file.toNat < 4
  size_pos : 0 < (entryAt m o).size.toNat
  size_lt : (entryAt m o).size.toNat < 512
  avail_pos : 0 < (entryAt m o).available.toNat
  avail_lt : (entryAt m o).available.toNat < 512

/-- The size test at `o` as `fkfs_block_check` makes it. -/
def Passes (ov : Overrun) (m : Mem) (o : ℕ) : Prop := ¬ (ov = .stops ∧ 505 < o) ∧ Sized m o

/-- The CRC of the entry at `o` matches the version of its file. -/
def CrcMatches (h : fkfs_header_t) (m : Mem) (o : ℕ) : Prop :=
  (entryAt m o).crc = fkfs_block_crc (h.files (fileIndex (entryAt m o).file)) (entryAt m o)
    (slice m (o + 7) (entryAt m o).size.toNat)

theorem sized_iff (m : Mem) (o : ℕ) :
    Sized m o ↔ ¬ FKFS_FILES_MAX ≤ (entryAt m o).file.toNat
      ∧ ¬ ((entryAt m o).size = 0 ∨ SD_RAW_BLOCK_SIZE ≤ (entryAt m o).size.toNat
        ∨ (entryAt m o).available = 0 ∨ SD_RAW_BLOCK_SIZE ≤ (entryAt m o).available.toNat) := by
  simp only [FKFS_FILES_MAX, SD_RAW_BLOCK_SIZE, ← UInt16.toNat_inj, UInt16.toNat_zero]
  constructor
  · rintro ⟨hf, hs, hs', ha, ha'⟩
    omega
  · rintro ⟨hf, h⟩
    exact ⟨by omega, by omega, by omega, by omega, by omega⟩

/-- A size of zero fails the size test. -/
theorem not_sized_of_zero {m : Mem} {o : ℕ} (h1 : m (o + 1) = 0) (h2 : m (o + 2) = 0) :
    ¬ Sized m o := by
  intro hs
  have hpos := hs.size_pos
  simp only [entryAt, u16, h1, show o + 1 + 1 = o + 2 from rfl, h2] at hpos
  exact absurd hpos (by decide)

theorem check_of_not_passes {ov : Overrun} {past : Mem} {fs : fkfs_t} {o : ℕ}
    (h : ¬ Passes ov (fs.memory past) o) : fkfs_block_check ov past fs o = .size := by
  unfold fkfs_block_check
  dsimp only
  simp only [Passes, sized_iff] at h
  split
  · rfl
  · split
    · rfl
    · split
      · rfl
      · exact absurd ⟨‹_›, ‹_›, ‹_›⟩ h

theorem check_of_passes {ov : Overrun} {past : Mem} {fs : fkfs_t} {o : ℕ}
    (h : Passes ov (fs.memory past) o) :
    fkfs_block_check ov past fs o = .good ∧ CrcMatches fs.header (fs.memory past) o
      ∨ fkfs_block_check ov past fs o = .crc ∧ ¬ CrcMatches fs.header (fs.memory past) o := by
  obtain ⟨hov, hs⟩ := h
  rw [sized_iff] at hs
  unfold fkfs_block_check
  rw [if_neg hov]
  dsimp only
  rw [if_neg hs.1, if_neg hs.2]
  by_cases hc : CrcMatches fs.header (fs.memory past) o
  · exact .inl ⟨if_neg (not_not.mpr hc), hc⟩
  · exact .inr ⟨if_pos hc, hc⟩

/-- `fkfs_block_check` answers size, CRC or good. -/
theorem check_cases (ov : Overrun) (past : Mem) (fs : fkfs_t) (o : ℕ) :
    fkfs_block_check ov past fs o = .size ∧ ¬ Passes ov (fs.memory past) o
      ∨ Passes ov (fs.memory past) o ∧
        (fkfs_block_check ov past fs o = .good ∧ CrcMatches fs.header (fs.memory past) o
          ∨ fkfs_block_check ov past fs o = .crc ∧ ¬ CrcMatches fs.header (fs.memory past) o) := by
  by_cases h : Passes ov (fs.memory past) o
  · exact .inr ⟨h, check_of_passes h⟩
  · exact .inl ⟨check_of_not_passes h, h⟩

/-! ## Links and chains -/

/-- How far the walk steps from `o`. -/
def stride (m : Mem) (o : ℕ) : ℕ := 7 + (entryAt m o).available.toNat

/-- One step of the walk inside a block: from an entry header that lies in the
block and passes the size test to the position behind it. -/
def Link (blk : Block) (o o' : ℕ) : Prop :=
  o ≤ 505 ∧ Sized blk.mem o ∧ o' = o + stride blk.mem o

/-- The walk inside a block. -/
abbrev Chain (blk : Block) : ℕ → ℕ → Prop := ReflTransGen (Link blk)

/-- The size test fails at `o`, whatever lies behind `fs->files`. -/
def Fails (ov : Overrun) (files : Settings) (blk : Block) (o : ℕ) : Prop :=
  ∀ past, ¬ Passes ov (memory blk files past) o

/-- The walk from `o` comes to a position where the size test fails, without
taking a step from behind offset 505. -/
def Ends (ov : Overrun) (files : Settings) (blk : Block) (o : ℕ) : Prop :=
  ∃ e, Chain blk o e ∧ Fails ov files blk e

theorem Link.bounds {blk : Block} {o o' : ℕ} (h : Link blk o o') : o + 8 ≤ o' ∧ o' ≤ 1023 := by
  obtain ⟨ho, hs, rfl⟩ := h
  have h1 := hs.avail_pos
  have h2 := hs.avail_lt
  unfold stride
  omega

theorem Link.lt {blk : Block} {o o' : ℕ} (h : Link blk o o') : o < o' := by
  have := h.bounds
  omega

theorem link_unique (blk : Block) : Relator.RightUnique (Link blk) := by
  rintro o o₁ o₂ ⟨-, -, rfl⟩ ⟨-, -, rfl⟩
  rfl

theorem Chain.le {blk : Block} {a b : ℕ} (h : Chain blk a b) : a ≤ b :=
  Trails.reach_le (fun hl => hl.lt) h

/-- Two positions on one chain: the later is on the chain from the earlier. -/
theorem Chain.between {blk : Block} {p a b : ℕ} (ha : Chain blk p a) (hb : Chain blk p b)
    (hab : a ≤ b) : Chain blk a b :=
  Trails.reach_between (fun hl => hl.lt) (link_unique blk) ha hb hab

/-- The size test reads the first five bytes of an entry header. -/
theorem Sized.congr {m m' : Mem} {o : ℕ} (h : Sized m o)
    (hm : ∀ i, o ≤ i → i < o + 5 → m i = m' i) : Sized m' o := by
  have h1 : m o = m' o := hm o (by omega) (by omega)
  have h2 : u16 m (o + 1) = u16 m' (o + 1) := u16_congr fun i _ _ => hm i (by omega) (by omega)
  have h3 : u16 m (o + 3) = u16 m' (o + 3) := u16_congr fun i _ _ => hm i (by omega) (by omega)
  obtain ⟨hf, hs, hs', ha, ha'⟩ := h
  simp only [entryAt] at hf hs hs' ha ha'
  exact ⟨by simpa only [entryAt, ← h1] using hf, by simpa only [entryAt, ← h2] using hs,
    by simpa only [entryAt, ← h2] using hs', by simpa only [entryAt, ← h3] using ha,
    by simpa only [entryAt, ← h3] using ha'⟩

theorem stride_congr {m m' : Mem} {o : ℕ} (hm : ∀ i, o ≤ i → i < o + 5 → m i = m' i) :
    stride m o = stride m' o := by
  have h3 : u16 m (o + 3) = u16 m' (o + 3) := u16_congr fun i _ _ => hm i (by omega) (by omega)
  simp only [stride, entryAt, h3]

theorem Link.congr {blk blk' : Block} {o o' : ℕ} (h : Link blk o o')
    (hm : ∀ i, o ≤ i → i < o + 5 → blk.mem i = blk'.mem i) : Link blk' o o' := by
  obtain ⟨ho, hs, rfl⟩ := h
  exact ⟨ho, hs.congr hm, by rw [stride_congr hm]⟩

/-- **The chain up to an offset does not depend on the bytes behind it.** -/
theorem Chain.congr {blk blk' : Block} {a b : ℕ} (h : Chain blk a b)
    (hm : ∀ i, a ≤ i → i < b → blk.mem i = blk'.mem i) : Chain blk' a b := by
  induction h using ReflTransGen.head_induction_on with
  | refl => exact .refl
  | head hl hc ih =>
    have hb := hl.bounds
    have hle := Chain.le hc
    refine .head (hl.congr fun i _ _ => hm i (by omega) (by omega)) (ih fun i _ _ => ?_)
    exact hm i (by omega) (by omega)

/-! ## Ends of chains -/

/-- In the block itself the memory behind it plays no part. -/
theorem passes_mem_iff {ov : Overrun} {files : Settings} {past : Mem} {blk : Block} {o : ℕ}
    (ho : o ≤ 505) : Passes ov (memory blk files past) o ↔ Sized blk.mem o := by
  have hm : ∀ i, o ≤ i → i < o + 5 → memory blk files past i = blk.mem i := fun i _ _ =>
    memory_lt blk files past (by omega)
  constructor
  · rintro ⟨-, hs⟩
    exact hs.congr hm
  · intro hs
    exact ⟨by omega, hs.congr fun i h1 h2 => (hm i h1 h2).symm⟩

/-- A block of zeros has no entry at its start. -/
theorem not_passes_zeroBlock (ov : Overrun) (files : Settings) (past : Mem) :
    ¬ Passes ov (memory zeroBlock files past) 0 := by
  rw [passes_mem_iff (by omega)]
  exact not_sized_of_zero (zeroBlock_mem _) (zeroBlock_mem _)

theorem fails_iff_of_le {ov : Overrun} {files : Settings} {blk : Block} {o : ℕ} (ho : o ≤ 505) :
    Fails ov files blk o ↔ ¬ Sized blk.mem o := by
  constructor
  · intro h hs
    exact h (fun _ => 0) ((passes_mem_iff ho).mpr hs)
  · intro h past hp
    exact h ((passes_mem_iff ho).mp hp)

/-- No step starts where the size test fails. -/
theorem Fails.not_link {ov : Overrun} {files : Settings} {blk : Block} {o o' : ℕ}
    (h : Fails ov files blk o) : ¬ Link blk o o' := by
  rintro ⟨ho, hs, -⟩
  exact (fails_iff_of_le ho).mp h hs

/-- Under the idealised reading every chain ends: its positions grow and a
position above 505 fails the test. -/
theorem ends_stops (files : Settings) (blk : Block) (o : ℕ) : Ends .stops files blk o := by
  induction h : 506 - o using Nat.strong_induction_on generalizing o with
  | _ k ih =>
    by_cases ho : o ≤ 505
    · by_cases hs : Sized blk.mem o
      · have hl : Link blk o (o + stride blk.mem o) := ⟨ho, hs, rfl⟩
        have hb := hl.bounds
        obtain ⟨e, hc, hf⟩ := ih (506 - (o + stride blk.mem o)) (by omega) _ rfl
        exact ⟨e, .head hl hc, hf⟩
      · exact ⟨o, .refl, (fails_iff_of_le ho).mpr hs⟩
    · exact ⟨o, .refl, fun past hp => hp.1 ⟨rfl, by omega⟩⟩

/-- If the walk through `a` ends, it ends at or behind `a`. -/
theorem Ends.of_chain {ov : Overrun} {files : Settings} {blk : Block} {o a : ℕ}
    (h : Ends ov files blk o) (ha : Chain blk o a) : Ends ov files blk a := by
  obtain ⟨e, hc, hf⟩ := h
  rcases ReflTransGen.total_of_right_unique (link_unique blk) ha hc with h | h
  · exact ⟨e, h, hf⟩
  · have := Trails.reach_stuck (fun c => hf.not_link) h
    subst this
    exact ⟨a, .refl, hf⟩

/-! ## Records -/

/-- What one append adds: a file, the version it had, and the payload. -/
structure Rec where
  file : FileNumber
  version : UInt16
  data : List UInt8

/-- A payload `fkfs_file_append` accepts. -/
def Rec.Fits (r : Rec) : Prop := 0 < r.data.length ∧ r.data.length ≤ 505

/-- The entry header of a record, as `fkfs_file_append` makes it. -/
def Rec.entry (r : Rec) : fkfs_entry_t :=
  newEntry { fkfs_file_t.zero with version := r.version } r.file r.data

/-- The bytes of a record. -/
def Rec.bytes (r : Rec) : List UInt8 := r.entry.bytes ++ r.data

/-- How much of a block a record takes. -/
def Rec.length (r : Rec) : ℕ := 7 + r.data.length

@[simp] theorem Rec.bytes_length (r : Rec) : r.bytes.length = r.length := by
  simp [Rec.bytes, Rec.length]

/-- The header an append makes is the header of a record: only the version of
the file enters it. -/
theorem newEntry_eq (file : fkfs_file_t) (f : FileNumber) (data : List UInt8) :
    newEntry file f data = Rec.entry ⟨f, file.version, data⟩ := rfl

/-- A record lies in one piece at offset `o` of a block. -/
structure Stored (blk : Block) (o : ℕ) (r : Rec) : Prop where
  fits : r.Fits
  room : o + r.length ≤ 512
  holds : Holds blk.mem o r.bytes

theorem Rec.entry_file (r : Rec) : r.entry.file.toNat = r.file.val := by
  have := r.file.isLt
  simp only [Rec.entry, newEntry, UInt8.toNat_ofNat']
  omega

theorem Rec.fileIndex_file (r : Rec) : fileIndex r.entry.file = r.file := by
  apply Fin.ext
  simp only [fileIndex, Fin.ofNat, r.entry_file]
  exact Nat.mod_eq_of_lt r.file.isLt

theorem Rec.entry_size {r : Rec} (h : r.Fits) : r.entry.size.toNat = r.data.length := by
  have := h.2
  simp only [Rec.entry, newEntry, UInt16.toNat_ofNat']
  omega

theorem Rec.entry_available {r : Rec} (h : r.Fits) : r.entry.available.toNat = r.data.length :=
  Rec.entry_size h

namespace Stored

variable {blk blk' : Block} {o : ℕ} {r : Rec}

theorem le (h : Stored blk o r) : o ≤ 504 := by
  have h1 := h.room
  have h2 := h.fits.1
  unfold Rec.length at h1
  omega

/-- A stored record stays stored where its bytes do not change. -/
theorem congr (h : Stored blk o r) (hm : ∀ i, o ≤ i → i < o + r.length → blk.mem i = blk'.mem i) :
    Stored blk' o r :=
  ⟨h.fits, h.room, h.holds.congr fun i h1 h2 => hm i h1 (by simpa using h2)⟩

theorem entryAt (h : Stored blk o r) : Layout.entryAt blk.mem o = r.entry := by
  have := h.holds
  rw [Rec.bytes, holds_append] at this
  exact entryAt_of_holds this.1

theorem payload (h : Stored blk o r) : slice blk.mem (o + 7) r.data.length = r.data := by
  have := h.holds
  rw [Rec.bytes, holds_append] at this
  exact this.2

theorem sized (h : Stored blk o r) : Sized blk.mem o := by
  have h1 := h.fits.1
  have h2 := h.fits.2
  have h3 := r.file.isLt
  constructor
  · rw [h.entryAt, r.entry_file]
    exact h3
  all_goals
    first
      | rw [h.entryAt, Rec.entry_size h.fits]; omega
      | rw [h.entryAt, Rec.entry_available h.fits]; omega

/-- A stored record is a link of the chain, to the position right behind it. -/
theorem link (h : Stored blk o r) : Link blk o (o + r.length) := by
  refine ⟨by have := h.le; omega, h.sized, ?_⟩
  rw [stride, h.entryAt, Rec.entry_available h.fits, Rec.length]

/-- The header and the payload of a stored record, in the memory a pointer
into the buffer sees. -/
theorem memory_eq (h : Stored blk o r) (files : Settings) (past : Mem) :
    Layout.entryAt (memory blk files past) o = r.entry
      ∧ slice (memory blk files past) (o + 7) r.entry.size.toNat = r.data := by
  have hroom := h.room
  have hfit := h.fits
  unfold Rec.length at hroom
  constructor
  · have hpos := hfit.1
    have hsame : ∀ i, o ≤ i → i < o + 7 → memory blk files past i = blk.mem i :=
      fun i _ _ => memory_lt _ _ _ (by omega)
    rw [entryAt_congr hsame, h.entryAt]
  · have hsame : ∀ i, o + 7 ≤ i → i < o + 7 + r.data.length →
        memory blk files past i = blk.mem i := fun i _ _ => memory_lt _ _ _ (by omega)
    rw [Rec.entry_size hfit, slice_congr hsame, h.payload]

/-- **What `fkfs_block_check` says of a stored record**: good as long as its
file has the version it was written with, a CRC failure ever after. -/
theorem check (h : Stored blk o r) (ov : Overrun) (past : Mem) (fs : fkfs_t)
    (hb : fs.buffer = blk) :
    fkfs_block_check ov past fs o
      = if (fs.header.files r.file).version = r.version then .good else .crc := by
  subst hb
  obtain ⟨he, hd⟩ := h.memory_eq fs.files past
  have hp : Passes ov (fs.memory past) o :=
    (passes_mem_iff (by have := h.le; omega)).mpr h.sized
  have hcrc : CrcMatches fs.header (fs.memory past) o
      ↔ (fs.header.files r.file).version = r.version := by
    unfold CrcMatches fkfs_t.memory
    rw [he, hd, r.fileIndex_file]
    constructor
    · intro hc
      exact (crc16_update_inj _ (crc16_update_inj _ hc)).symm
    · intro hv
      unfold fkfs_block_crc
      rw [hv]
      rfl
  rcases check_of_passes hp with ⟨hg, hc⟩ | ⟨hg, hc⟩
  · rw [hg, if_pos (hcrc.mp hc)]
  · rw [hg, if_neg fun hv => hc (hcrc.mpr hv)]

/-- **What lies at an offset is one record**: the CRC gives its version away. -/
theorem unique {r' : Rec} (h : Stored blk o r) (h' : Stored blk o r') : r = r' := by
  have hentry : r.entry = r'.entry := h.entryAt.symm.trans h'.entryAt
  have hfile : r.file = r'.file := by
    apply Fin.ext
    rw [← r.entry_file, ← r'.entry_file, hentry]
  have hlen : r.data.length = r'.data.length := by
    rw [← Rec.entry_size h.fits, ← Rec.entry_size h'.fits, hentry]
  have hdata : r.data = r'.data := by
    rw [← h.payload, ← h'.payload, hlen]
  have hversion : r.version = r'.version := by
    have hcrc := congrArg fkfs_entry_t.crc hentry
    simp only [Rec.entry, newEntry, fkfs_block_crc, hfile, hdata] at hcrc
    exact crc16_update_inj _ (crc16_update_inj _ hcrc)
  cases r
  cases r'
  simp only at hfile hdata hversion
  rw [hfile, hdata, hversion]

end Stored

end Fkfs.Walk
