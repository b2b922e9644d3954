/-
Mounting: `fkfs_create`, `fkfs_initialize_file` and `fkfs_initialize`.
-/
import Fkfs.Append

set_option autoImplicit false

namespace Fkfs.Mount

open Bytes
open Fkfs.Crc Fkfs.Layout Fkfs.Device Fkfs.Append

/-- `fkfs_create`: every field zero. -/
def fkfs_create : fkfs_t where
  headerIndex := 0
  cachedBlockDirty := false
  cachedBlockNumber := 0
  numberOfBlocks := 0
  header := .zero
  buffer := zeroBlock
  files := fun _ => ⟨0, 0⟩

/-- `strncpy` into a twelve-byte name: up to the first NUL, padded with NULs. -/
def strncpy (src : List UInt8) : Fin 12 → UInt8 :=
  fun i => (src.takeWhile (· ≠ 0)).getD i 0

/-- The arguments of one `fkfs_initialize_file` call, and what `random` draws
in it. -/
structure FileConfig where
  priority : UInt8
  sync : UInt8
  name : List UInt8
  draw : UInt16

/-- `fkfs_initialize_file`. -/
def fkfs_initialize_file (fs : fkfs_t) (fileNumber : FileNumber) (c : FileConfig) : fkfs_t :=
  let file := fs.header.files fileNumber
  { fs with
    files := Function.update fs.files fileNumber ⟨c.sync, c.priority⟩
    header := fs.header.setFile fileNumber { file with
      name := strncpy c.name
      version := c.draw
      startBlock := FKFS_FIRST_BLOCK
      startOffset := 0
      endOffset := 0 } }

/-- `fkfs_create` and `fkfs_initialize_file` of all four files. -/
def configured (cfg : FileNumber → FileConfig) : fkfs_t :=
  (List.finRange 4).foldl (fun fs f => fkfs_initialize_file fs f (cfg f)) fkfs_create

/-- The slot the mount path of `fkfs_initialize` picks in a header block. -/
def selectHeader (headers : Block) : Fin 2 :=
  if !fkfs_header_crc_valid headers 1 then 0
  else if !fkfs_header_crc_valid headers 0 then 1
  else if (getHeader headers 1).generation < (getHeader headers 0).generation then 0
  else 1

/-- The file table of a new file system, with what `random` draws. -/
def wipedHeader (h : fkfs_header_t) (draws : FileNumber → UInt16) : fkfs_header_t :=
  { h with
    block := FKFS_FIRST_BLOCK
    generation := 0
    files := fun i => { h.files i with
      version := draws i
      size := 0
      startBlock := FKFS_FIRST_BLOCK
      startOffset := 0
      endBlock := FKFS_FIRST_BLOCK
      endOffset := 0 } }

/-- The wipe path of `fkfs_initialize`: both header slots are written, the
second with generation 1. -/
def wipeHeaders (s : Machine) (draws : FileNumber → UInt16) : Bool × Machine :=
  let header := wipedHeader s.fs.header draws
  let s := { s with fs := { s.fs with
    header := header, buffer := putHeader s.fs.buffer s.fs.headerIndex header } }
  match fkfs_header_write s true with
  | (false, s) => (false, s)
  | (true, s) =>
    let header := { s.fs.header with generation := 1 }
    let s := { s with fs := { s.fs with
      header := header, headerIndex := 1, buffer := putHeader s.fs.buffer 1 header } }
    fkfs_header_write s false

/-- A header with the names of another's file table. -/
def withNames (h names : fkfs_header_t) : fkfs_header_t :=
  { h with files := fun i => { h.files i with
      name := strncpy (List.ofFn (names.files i).name) } }

/-- The mount path of `fkfs_initialize`: take the newest header over, with the
configured names. -/
def mountHeader (fs : fkfs_t) : fkfs_t :=
  let i := selectHeader fs.buffer
  let header := withNames (getHeader fs.buffer i) fs.header
  { fs with headerIndex := i, header := header, buffer := putHeader fs.buffer i header }

/-- `fkfs_initialize`; `draws` is what `random` draws if a new file system is
made. `memzero(fs->buffer, sizeof(SD_RAW_BLOCK_SIZE))` clears two bytes. -/
def fkfs_initialize (s : Machine) (wipe : Bool) (draws : FileNumber → UInt16) : Bool × Machine :=
  let s := { s with fs := { s.fs with
    numberOfBlocks := sd_raw_card_size s.sd, buffer := memcpy s.fs.buffer 0 [0, 0] } }
  match fkfs_read_block s 0 s.fs.buffer with
  | (false, buffer, s) => (false, { s with fs := { s.fs with buffer := buffer } })
  | (true, buffer, s) =>
    let s := { s with fs := { s.fs with buffer := buffer } }
    -- If both checksums fail, then we're on a new card.
    if wipe || (!fkfs_header_crc_valid buffer 0 && !fkfs_header_crc_valid buffer 1) then
      wipeHeaders s draws
    else (true, { s with fs := mountHeader s.fs })

/-- A program start: `fkfs_create`, `fkfs_initialize_file` and `fkfs_initialize`
on a card. What the card went through before stays in the ghosts. -/
def boot (s : Machine) (cfg : FileNumber → FileConfig) (wipe : Bool)
    (draws : FileNumber → UInt16) : Bool × Machine :=
  fkfs_initialize { s with fs := configured cfg } wipe draws

end Fkfs.Mount
