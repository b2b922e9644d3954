/-
The in-block search of `fkfs.cpp`: `fkfs_block_crc`, `fkfs_block_check` and
`fkfs_block_available_offset`.

`fkfs_block_check` is called with whatever pointer the caller's arithmetic
gives. Above offset 505 the seven bytes of an entry header no longer fit the
block, and the code reads them all the same, out of `fs->files` and what comes
after it. `Overrun` keeps that apart from the idealised reading in which such
a position counts as a failed size test.
-/
import Fkfs.Device

set_option autoImplicit false

namespace Fkfs.Search

open Bytes
open Fkfs.Crc Fkfs.Layout Fkfs.Device

/-- What `fkfs_block_check` makes of an entry position above offset 505. -/
inductive Overrun
  /-- The code: the entry header is read from behind the buffer. -/
  | reads
  /-- The idealised reading: the position fails the size test. -/
  | stops
  deriving DecidableEq

/-- `FKFS_OFFSET_SEARCH_STATUS_*`. -/
inductive SearchStatus
  | good
  | size
  | crc
  | priority
  | eob
  deriving DecidableEq

/-- `fkfs_offset_search_t`. -/
structure fkfs_offset_search_t where
  offset : UInt16
  status : SearchStatus

/-- A file number read from the card; the size test keeps it below
`FKFS_FILES_MAX` before it is used as an index. -/
def fileIndex (file : UInt8) : FileNumber := Fin.ofNat 4 file.toNat

/-- `fkfs_block_crc`, with the `entry->size` bytes at `data` as a list. -/
def fkfs_block_crc (file : fkfs_file_t) (entry : fkfs_entry_t) (data : List UInt8) : UInt16 :=
  crc16_update (crc16_update file.version entry.bodyBytes) data

/-- `fkfs_block_check` at offset `ptr` of `fs->buffer`. -/
def fkfs_block_check (ov : Overrun) (past : Mem) (fs : fkfs_t) (ptr : ℕ) : SearchStatus :=
  let entry := entryAt (fs.memory past) ptr
  if ov = .stops ∧ 505 < ptr then .size
  else if FKFS_FILES_MAX ≤ entry.file.toNat then .size
  else if entry.size = 0 ∨ SD_RAW_BLOCK_SIZE ≤ entry.size.toNat
      ∨ entry.available = 0 ∨ SD_RAW_BLOCK_SIZE ≤ entry.available.toNat then .size
  else
    let blockFile := fs.header.files (fileIndex entry.file)
    let data := slice (fs.memory past) (ptr + sizeof_fkfs_entry_t) entry.size.toNat
    if entry.crc ≠ fkfs_block_crc blockFile entry data then .crc
    else .good

/-- The `do` loop of `fkfs_block_available_offset`, from `search->offset` on.
Every further round starts more than seven bytes on and below the end of the
block, so the first argument never runs out. -/
def availableLoop (ov : Overrun) (past : Mem) (fs : fkfs_t) (priority : UInt8)
    (required : UInt16) : ℕ → UInt16 → Bool × fkfs_offset_search_t
  | 0, offset => (false, ⟨offset, .eob⟩)
  | n + 1, offset =>
    let entry := entryAt (fs.memory past) offset.toNat
    match fkfs_block_check ov past fs offset.toNat with
    | .size => (true, ⟨offset, .size⟩)
    | .crc => (true, ⟨offset, .crc⟩)
    | _ =>
      -- We have precedence over this entry?
      if priority < (fs.files (fileIndex entry.file)).priority ∧ required ≤ entry.available then
        (true, ⟨offset, .priority⟩)
      else
        let offset := offset + (7 + entry.available)
        if offset.toNat + required.toNat < SD_RAW_BLOCK_SIZE then
          availableLoop ov past fs priority required n offset
        else (false, ⟨offset, .eob⟩)

/-- `fkfs_block_available_offset`, on `fs->buffer`. -/
def fkfs_block_available_offset (ov : Overrun) (past : Mem) (fs : fkfs_t) (priority : UInt8)
    (required : UInt16) (offset : UInt16) : Bool × fkfs_offset_search_t :=
  availableLoop ov past fs priority required SD_RAW_BLOCK_SIZE offset

end Fkfs.Search
