/-
The data of `fkfs.h`, and how it lies in memory.

Every structure the card carries is packed and little-endian, so a header is
137 bytes, an entry header seven, and block 0 holds two header slots back to
back. `headerAt_of_holds` is the round trip the mount path rests on: a header
that was copied into a slot is read back field for field.

`fs->buffer` is followed in `fkfs_t` by the runtime settings of the four files,
which are bytes themselves, so what a pointer past the buffer reads is known
for eight bytes and after that is the statistics and whatever follows `fs`;
`memory` says so.
-/
import Fkfs.Lib.Bytes
import Fkfs.Crc

set_option autoImplicit false

namespace Fkfs.Layout

open Bytes
open Fkfs.Crc

/-! ## Sizes -/

/-- `SD_RAW_BLOCK_SIZE`. -/
abbrev SD_RAW_BLOCK_SIZE : ℕ := 512

/-- `FKFS_FILES_MAX`. -/
abbrev FKFS_FILES_MAX : ℕ := 4

/-- `sizeof(fkfs_entry_t)`, a packed structure. -/
abbrev sizeof_fkfs_entry_t : ℕ := 7

/-- `sizeof(fkfs_header_t)`, a packed structure. -/
abbrev sizeof_fkfs_header_t : ℕ := 137

/-- `FKFS_HEADER_SIZE_MINUS_CRC`: the offset of the header's `crc`. -/
abbrev FKFS_HEADER_SIZE_MINUS_CRC : ℕ := 135

/-- `UINT32_MAX`. -/
def UINT32_MAX : UInt32 := 0xFFFFFFFF

/-- A block of the card, or `fs->buffer`: `SD_RAW_BLOCK_SIZE` bytes. -/
abbrev Block := Buf 512

/-- A block of zeros. -/
def zeroBlock : Block := fun _ => 0

@[simp] theorem zeroBlock_mem (i : ℕ) : zeroBlock.mem i = 0 := by
  simp only [Buf.mem, zeroBlock]
  split <;> rfl

/-- A file number: the callers' contract keeps it below `FKFS_FILES_MAX`. -/
abbrev FileNumber := Fin 4

/-- There are files to number. -/
instance neZero_files : NeZero (4 : ℕ) := ⟨by decide⟩

/-- There are header slots to choose from. -/
instance neZero_slots : NeZero (2 : ℕ) := ⟨by decide⟩

/-! ## The structures -/

/-- `fkfs_entry_t`, the header in front of each payload. -/
structure fkfs_entry_t where
  file : UInt8
  size : UInt16
  available : UInt16
  crc : UInt16

/-- `fkfs_file_t`, one row of the file table. -/
structure fkfs_file_t where
  name : Fin 12 → UInt8
  version : UInt16
  startBlock : UInt32
  startOffset : UInt16
  endBlock : UInt32
  endOffset : UInt16
  size : UInt32

/-- `fkfs_header_t`. -/
structure fkfs_header_t where
  version : UInt8
  generation : UInt32
  block : UInt32
  offset : UInt16
  time : UInt32
  files : FileNumber → fkfs_file_t
  crc : UInt16

/-- `fkfs_file_runtime_settings_t`. -/
structure fkfs_file_runtime_settings_t where
  sync : UInt8
  priority : UInt8

/-- The runtime settings of the four files. -/
abbrev Settings := FileNumber → fkfs_file_runtime_settings_t

/-- `fkfs_t`, less the card (which outlives it) and the statistics (which
nothing reads). -/
structure fkfs_t where
  headerIndex : Fin 2
  cachedBlockDirty : Bool
  cachedBlockNumber : UInt32
  numberOfBlocks : UInt32
  header : fkfs_header_t
  buffer : Block
  files : Settings

/-- `fkfs_iterator_token_t`. -/
structure fkfs_iterator_token_t where
  file : FileNumber
  block : UInt32
  offset : UInt16
  lastBlock : UInt32
  lastOffset : UInt16
  size : UInt32

/-- `fkfs_iterator_config_t`. -/
structure fkfs_iterator_config_t where
  maxBlocks : UInt32
  maxTime : UInt32
  manualNext : UInt8

/-- `fkfs_file_iter_t`. The pointer `data` is kept as its offset from
`fs->buffer`. -/
structure fkfs_file_iter_t where
  token : fkfs_iterator_token_t
  data : ℕ
  size : UInt16
  iterated : UInt32

/-- A file row of zeros. -/
def fkfs_file_t.zero : fkfs_file_t := ⟨fun _ => 0, 0, 0, 0, 0, 0, 0⟩

/-- A header of zeros. -/
def fkfs_header_t.zero : fkfs_header_t := ⟨0, 0, 0, 0, 0, fun _ => .zero, 0⟩

/-- The header with row `f` of its file table replaced. -/
def fkfs_header_t.setFile (h : fkfs_header_t) (f : FileNumber) (file : fkfs_file_t) :
    fkfs_header_t :=
  { h with files := Function.update h.files f file }

@[simp] theorem fkfs_header_t.setFile_self (h : fkfs_header_t) (f : FileNumber)
    (file : fkfs_file_t) : (h.setFile f file).files f = file :=
  Function.update_self ..

@[simp] theorem fkfs_header_t.setFile_other (h : fkfs_header_t) {f g : FileNumber} (hg : g ≠ f)
    (file : fkfs_file_t) : (h.setFile f file).files g = h.files g :=
  Function.update_of_ne hg ..

/-! ## Packed bytes -/

/-- The bytes of an entry header. -/
def fkfs_entry_t.bytes (e : fkfs_entry_t) : List UInt8 :=
  e.file :: (le16 e.size ++ (le16 e.available ++ le16 e.crc))

/-- The bytes of an entry header that its CRC covers
(`FKFS_ENTRY_SIZE_MINUS_CRC` of them). -/
def fkfs_entry_t.bodyBytes (e : fkfs_entry_t) : List UInt8 :=
  e.file :: (le16 e.size ++ le16 e.available)

/-- The bytes of a file row. -/
def fkfs_file_t.bytes (f : fkfs_file_t) : List UInt8 :=
  List.ofFn f.name ++ (le16 f.version ++ (le32 f.startBlock ++ (le16 f.startOffset
    ++ (le32 f.endBlock ++ (le16 f.endOffset ++ le32 f.size)))))

/-- The bytes of a header that its CRC covers. -/
def fkfs_header_t.bodyBytes (h : fkfs_header_t) : List UInt8 :=
  h.version :: (le32 h.generation ++ (le32 h.block ++ (le16 h.offset ++ (le32 h.time
    ++ ((h.files 0).bytes ++ ((h.files 1).bytes ++ ((h.files 2).bytes
      ++ (h.files 3).bytes)))))))

/-- The bytes of a header. -/
def fkfs_header_t.bytes (h : fkfs_header_t) : List UInt8 := h.bodyBytes ++ le16 h.crc

@[simp] theorem fkfs_entry_t.bytes_length (e : fkfs_entry_t) :
    e.bytes.length = 7 := rfl

@[simp] theorem fkfs_entry_t.bodyBytes_length (e : fkfs_entry_t) : e.bodyBytes.length = 5 := rfl

@[simp] theorem fkfs_file_t.bytes_length (f : fkfs_file_t) : f.bytes.length = 30 := by
  simp [fkfs_file_t.bytes]

@[simp] theorem fkfs_header_t.bodyBytes_length (h : fkfs_header_t) :
    h.bodyBytes.length = 135 := by
  simp [fkfs_header_t.bodyBytes]

@[simp] theorem fkfs_header_t.bytes_length (h : fkfs_header_t) :
    h.bytes.length = 137 := by
  simp [fkfs_header_t.bytes]

/-- The entry header at address `o`. -/
def entryAt (m : Mem) (o : ℕ) : fkfs_entry_t where
  file := m o
  size := u16 m (o + 1)
  available := u16 m (o + 3)
  crc := u16 m (o + 5)

/-- The file row at address `o`. -/
def fileAt (m : Mem) (o : ℕ) : fkfs_file_t where
  name := fun i => m (o + i)
  version := u16 m (o + 12)
  startBlock := u32 m (o + 14)
  startOffset := u16 m (o + 18)
  endBlock := u32 m (o + 20)
  endOffset := u16 m (o + 24)
  size := u32 m (o + 26)

/-- The header at address `o`. -/
def headerAt (m : Mem) (o : ℕ) : fkfs_header_t where
  version := m o
  generation := u32 m (o + 1)
  block := u32 m (o + 5)
  offset := u16 m (o + 9)
  time := u32 m (o + 11)
  files := fun i => fileAt m (o + 15 + 30 * i)
  crc := u16 m (o + 135)

/-! ## What was stored reads back -/

theorem entryAt_of_holds {m : Mem} {o : ℕ} {e : fkfs_entry_t} (h : Holds m o e.bytes) :
    entryAt m o = e := by
  simp only [fkfs_entry_t.bytes, holds_cons, holds_append, le16_length, Nat.add_assoc,
    Nat.reduceAdd] at h
  obtain ⟨hf, hs, ha, hc⟩ := h
  simp only [entryAt, hf, u16_of_holds hs, u16_of_holds ha, u16_of_holds hc]

theorem entryAt_congr {m m' : Mem} {o : ℕ}
    (h : ∀ i, o ≤ i → i < o + 7 → m i = m' i) : entryAt m o = entryAt m' o := by
  simp only [entryAt]
  rw [h o (by omega) (by omega), u16_congr (fun i h1 h2 => h i (by omega) (by omega)),
    u16_congr (o := o + 3) (fun i h1 h2 => h i (by omega) (by omega)),
    u16_congr (o := o + 5) (fun i h1 h2 => h i (by omega) (by omega))]

theorem fileAt_of_holds {m : Mem} {o : ℕ} {f : fkfs_file_t} (h : Holds m o f.bytes) :
    fileAt m o = f := by
  simp only [fkfs_file_t.bytes, holds_append, List.length_ofFn, le16_length, le32_length,
    Nat.add_assoc, Nat.reduceAdd] at h
  obtain ⟨hn, hv, hsb, hso, heb, heo, hs⟩ := h
  have hname : (fun i : Fin 12 => m (o + i)) = f.name := by
    funext i
    rw [holds_iff] at hn
    have := hn i.val (by simp)
    rw [this, List.getElem_ofFn]
  simp only [fileAt, hname, u16_of_holds hv, u32_of_holds hsb, u16_of_holds hso, u32_of_holds heb,
    u16_of_holds heo, u32_of_holds hs]

/-- **Header round trip**: a stored header reads back field for field. -/
theorem headerAt_of_holds {m : Mem} {o : ℕ} {h : fkfs_header_t} (hm : Holds m o h.bytes) :
    headerAt m o = h := by
  simp only [fkfs_header_t.bytes, fkfs_header_t.bodyBytes, holds_cons, holds_append, le16_length,
    le32_length, fkfs_file_t.bytes_length, List.length_append, List.length_cons, Nat.add_assoc,
    Nat.reduceAdd] at hm
  obtain ⟨⟨hv, hg, hb, ho, ht, h0, h1, h2, h3⟩, hc⟩ := hm
  have hfiles : (fun i : FileNumber => fileAt m (o + 15 + 30 * i)) = h.files := by
    funext i
    fin_cases i
    · exact fileAt_of_holds h0
    · exact fileAt_of_holds h1
    · exact fileAt_of_holds h2
    · exact fileAt_of_holds h3
  simp only [headerAt, hv, u32_of_holds hg, u32_of_holds hb, u16_of_holds ho, u32_of_holds ht,
    hfiles, u16_of_holds hc]

/-! ## What was read is what was stored -/

theorem holds_fileAt (m : Mem) (o : ℕ) : Holds m o (fileAt m o).bytes := by
  have hname : Holds m o (List.ofFn (fileAt m o).name) := by
    rw [holds_iff]
    intro k hk
    rw [List.getElem_ofFn]
    rfl
  simp only [fkfs_file_t.bytes, holds_append, List.length_ofFn, le16_length, le32_length,
    Nat.add_assoc, Nat.reduceAdd]
  exact ⟨hname, holds_u16 .., holds_u32 .., holds_u16 .., holds_u32 .., holds_u16 ..,
    holds_u32 ..⟩

/-- The header at an address is stored there. -/
theorem holds_headerAt (m : Mem) (o : ℕ) : Holds m o (headerAt m o).bytes := by
  simp only [fkfs_header_t.bytes, fkfs_header_t.bodyBytes, holds_cons, holds_append, le16_length,
    le32_length, fkfs_file_t.bytes_length, List.length_append, List.length_cons, Nat.add_assoc,
    Nat.reduceAdd]
  exact ⟨⟨rfl, holds_u32 .., holds_u32 .., holds_u16 .., holds_u32 .., holds_fileAt ..,
    holds_fileAt .., holds_fileAt .., holds_fileAt ..⟩, holds_u16 ..⟩

/-! ## The memory behind the buffer -/

/-- Byte `j` of `fs->files`: sync and priority of each file in turn. -/
def settingsByte (files : Settings) (j : ℕ) : UInt8 :=
  if j % 2 = 0 then (files (Fin.ofNat 4 (j / 2))).sync else (files (Fin.ofNat 4 (j / 2))).priority

/-- What a pointer into `fs->buffer` reads at offset `i`: the buffer, then
`fs->files`, then whatever comes after (`past`: the statistics and what the
program keeps behind `fs`). -/
def memory (buffer : Block) (files : Settings) (past : Mem) : Mem := fun i =>
  if h : i < 512 then buffer ⟨i, h⟩
  else if i < 520 then settingsByte files (i - 512)
  else past (i - 520)

theorem memory_lt (buffer : Block) (files : Settings) (past : Mem) {i : ℕ} (h : i < 512) :
    memory buffer files past i = buffer.mem i := by
  rw [memory, dif_pos h, Buf.mem_lt _ h]

/-- The memory a pointer into `fs->buffer` sees. -/
def fkfs_t.memory (fs : fkfs_t) (past : Mem) : Mem := Layout.memory fs.buffer fs.files past

end Fkfs.Layout
