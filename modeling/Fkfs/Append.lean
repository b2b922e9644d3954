/-
The write path of `fkfs.cpp`: `fkfs_fsync`, `fkfs_touch`, `fkfs_flush`,
`fkfs_file_allocate_block`, `fkfs_file_append` and the truncations.
-/
import Fkfs.Search

set_option autoImplicit false

namespace Fkfs.Append

open Bytes
open Fkfs.Crc Fkfs.Layout Fkfs.Device Fkfs.Search

/-- `FKFS_FIRST_BLOCK`. -/
def FKFS_FIRST_BLOCK : UInt32 := 8000

/-- `FKFS_SEEK_BLOCKS_MAX`. -/
def FKFS_SEEK_BLOCKS_MAX : ℕ := 5

/-- `FKFS_TESTING_LAST_BLOCK`. -/
def FKFS_TESTING_LAST_BLOCK : UInt32 := UINT32_MAX

/-! ## Writing out -/

/-- What `fkfs_fsync` does to `fs` between its two writes. -/
def fkfs_fsync_next (fs : fkfs_t) : fkfs_t :=
  { fs with
    cachedBlockNumber := UINT32_MAX
    cachedBlockDirty := false
    header := { fs.header with generation := fs.header.generation + 1 }
    headerIndex := fs.headerIndex + 1 }

/-- `fkfs_fsync`. -/
def fkfs_fsync (s : Machine) : Bool × Machine :=
  if s.fs.cachedBlockDirty then
    match fkfs_write_block s s.fs.header.block s.fs.buffer with
    | (false, s) => (false, s)
    | (true, s) =>
      match fkfs_header_write { s with fs := fkfs_fsync_next s.fs } false with
      | (false, s) => (false, s)
      | (true, s) =>
        (true, { s with fs := { s.fs with
          cachedBlockNumber := UINT32_MAX, cachedBlockDirty := false } })
  else (true, s)

/-- `fkfs_touch`. -/
def fkfs_touch (s : Machine) (time : UInt32) : Bool × Machine :=
  fkfs_header_write (s.setHeader { s.fs.header with time := time }) false

/-- `fkfs_flush`; `now` is what `millis()` reads. -/
def fkfs_flush (s : Machine) (now : UInt32) : Bool × Machine :=
  match fkfs_touch s now with
  | (false, s) => (false, s)
  | (true, s) => fkfs_fsync s

/-! ## Finding a place -/

/-- The wrap test the writer and the reader share. -/
def wrapsAt (fs : fkfs_t) (block : UInt32) : Bool :=
  block == fs.numberOfBlocks - 2 || block == FKFS_TESTING_LAST_BLOCK

/-- "Next block", with the wrap-around logic. -/
def fkfs_next_block (s : Machine) : Machine :=
  if wrapsAt s.fs (s.fs.header.block + 1) then
    { s.setHeader { s.fs.header with block := FKFS_FIRST_BLOCK, offset := 0 } with
      wraps := s.wraps + 1 }
  else s.setHeader { s.fs.header with block := s.fs.header.block + 1, offset := 0 }

/-- One round of the `do` loop of `fkfs_file_allocate_block` up to the search:
move on if the entry does not fit, and have the block in the cache. The source
repeats the lines of `fkfs_block_ensure` here. -/
def allocateRound (s : Machine) (required newOffset : UInt16) : Bool × Machine :=
  if SD_RAW_BLOCK_SIZE < required.toNat + newOffset.toNat then
    -- Flush any cached block before we move onto a new block.
    match fkfs_fsync s with
    | (false, s) => (false, s)
    | (true, s) =>
      let s := fkfs_next_block s
      fkfs_block_ensure s s.fs.header.block
  else fkfs_block_ensure s s.fs.header.block

/-- The `do` loop of `fkfs_file_allocate_block`. A round after the first always
moves on, so `FKFS_SEEK_BLOCKS_MAX + 1` rounds are all there are. -/
def allocateLoop (ov : Overrun) (pasts : ℕ → Mem) (fileNumber : FileNumber) (required : UInt16) :
    ℕ → Machine → UInt16 → ℕ → Bool × Machine
  | 0, s, _, _ => (false, s)
  | n + 1, s, newOffset, visitedBlocks =>
    let moves : Bool := SD_RAW_BLOCK_SIZE < required.toNat + newOffset.toNat
    match allocateRound s required newOffset with
    | (false, s) => (false, s)
    | (true, s) =>
      let visitedBlocks := if moves then visitedBlocks + 1 else visitedBlocks
      let newOffset := if moves then 0 else newOffset
      match fkfs_block_available_offset ov (pasts n) s.fs (s.fs.files fileNumber).priority
          required newOffset with
      | (true, search) => (true, s.setHeader { s.fs.header with offset := search.offset })
      | (false, _) =>
        -- Force a move to the following block.
        if visitedBlocks < FKFS_SEEK_BLOCKS_MAX then
          allocateLoop ov pasts fileNumber required n s 512 visitedBlocks
        else (false, s)

/-- `fkfs_file_allocate_block`. -/
def fkfs_file_allocate_block (ov : Overrun) (pasts : ℕ → Mem) (s : Machine)
    (fileNumber : FileNumber) (required : UInt16) : Bool × Machine :=
  allocateLoop ov pasts fileNumber required (FKFS_SEEK_BLOCKS_MAX + 1) s s.fs.header.offset 0

/-! ## Appending -/

/-- The entry header `fkfs_file_append` makes. -/
def newEntry (file : fkfs_file_t) (fileNumber : FileNumber) (data : List UInt8) : fkfs_entry_t :=
  let entry : fkfs_entry_t := {
    file := UInt8.ofNat fileNumber
    size := UInt16.ofNat data.length
    available := UInt16.ofNat data.length
    crc := 0 }
  { entry with crc := fkfs_block_crc file entry data }

/-- The lines of `fkfs_file_append` between the allocation and the sync. -/
def storeEntry (fs : fkfs_t) (fileNumber : FileNumber) (required : UInt16) (data : List UInt8) :
    fkfs_t :=
  let file := fs.header.files fileNumber
  let entry := newEntry file fileNumber data
  let buffer := memcpy fs.buffer fs.header.offset.toNat entry.bytes
  let buffer := memcpy buffer (fs.header.offset.toNat + sizeof_fkfs_entry_t) data
  let offset := fs.header.offset + required
  { fs with
    buffer := buffer
    cachedBlockDirty := true
    header := { fs.header with offset := offset }.setFile fileNumber { file with
      endBlock := fs.header.block
      endOffset := offset
      size := file.size + (UInt16.ofNat data.length).toUInt32 } }

/-- `fkfs_file_append` of the bytes `data`; `size` is their number, as the
16-bit argument it is. -/
def fkfs_file_append (ov : Overrun) (pasts : ℕ → Mem) (s : Machine) (fileNumber : FileNumber)
    (data : List UInt8) : Bool × Machine :=
  let size : UInt16 := UInt16.ofNat data.length
  let required : UInt16 := 7 + size
  if size = 0 ∨ SD_RAW_BLOCK_SIZE < required.toNat then (false, s)
  else
    match fkfs_file_allocate_block ov pasts s fileNumber required with
    | (false, s) => (false, s)
    | (true, s) =>
      let s := { s with fs := storeEntry s.fs fileNumber required data }
      if (s.fs.files fileNumber).sync ≠ 0 then fkfs_fsync s
      else (true, s)

/-! ## Truncating -/

/-- `fkfs_file_truncate`. -/
def fkfs_file_truncate (s : Machine) (fileNumber : FileNumber) : Machine :=
  let file := s.fs.header.files fileNumber
  s.setHeader (s.fs.header.setFile fileNumber { file with
    version := file.version + 1
    startBlock := s.fs.header.block
    endBlock := s.fs.header.block
    startOffset := 0
    endOffset := 0
    size := 0 })

/-- `fkfs_file_truncate_all`. -/
def fkfs_file_truncate_all (s : Machine) : Machine :=
  (List.finRange 4).foldl fkfs_file_truncate s

end Fkfs.Append
