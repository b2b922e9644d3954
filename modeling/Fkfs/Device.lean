/-
The card under the file system, and the calls of `fkfs.cpp` that touch it.

The driver is taken at block level: a read fills the destination or fails and
leaves it alone, a write replaces the card block or fails and leaves it alone.
Which of the coming calls fail is part of the card (`faults`), so a statement
about every failure pattern quantifies over it and a statement about working
I/O fixes it to the empty list.

`Machine` is a mounted `fkfs_t` together with its card. It carries two ghosts
that no definition reads: the list of the block writes issued so far, each with
`fs` as it stood then, and the number of times the writer has gone back to
`FKFS_FIRST_BLOCK`. The source only counts and logs these.
-/
import Fkfs.Layout

set_option autoImplicit false

namespace Fkfs.Device

open Bytes
open Fkfs.Crc Fkfs.Layout

/-! ## The card -/

/-- An SD card: the size it reports, what its blocks hold, and which of the
next block transfers fail (none, once the list is empty). -/
structure Card where
  size : UInt32
  blocks : ℕ → Block
  faults : List Bool

/-- A card of zeros on which nothing fails. -/
def blankCard (size : UInt32) : Card := ⟨size, fun _ => zeroBlock, []⟩

/-- The outcome of the next transfer. -/
def Card.fails (sd : Card) : Bool := sd.faults.headD false

/-- The card once that transfer is over. -/
def Card.next (sd : Card) : Card := { sd with faults := sd.faults.tail }

/-- `sd_raw_card_size`. -/
def sd_raw_card_size (sd : Card) : UInt32 := sd.size

/-- `sd_raw_read_block`: the status, what `destiny` holds afterwards, the card. -/
def sd_raw_read_block (sd : Card) (block : UInt32) (destiny : Block) : Bool × Block × Card :=
  if sd.fails then (false, destiny, sd.next) else (true, sd.blocks block.toNat, sd.next)

/-- `sd_raw_write_block`. -/
def sd_raw_write_block (sd : Card) (block : UInt32) (source : Block) : Bool × Card :=
  if sd.fails then (false, sd.next)
  else (true, { sd.next with blocks := Function.update sd.blocks block.toNat source })

/-! ## The machine -/

/-- A block write as it was issued, with `fs` as it stood. -/
structure Write where
  block : UInt32
  source : Block
  fs : fkfs_t
  ok : Bool

/-- `fs` and its card. `writes` and `wraps` are ghosts. -/
structure Machine where
  fs : fkfs_t
  sd : Card
  writes : List Write
  wraps : ℕ

/-- The machine with another header in `fs`. -/
def Machine.setHeader (s : Machine) (h : fkfs_header_t) : Machine :=
  { s with fs := { s.fs with header := h } }

/-- `fkfs_read_block`: the status, what `buffer` holds afterwards, the machine. -/
def fkfs_read_block (s : Machine) (block : UInt32) (buffer : Block) : Bool × Block × Machine :=
  let (status, buffer, sd) := sd_raw_read_block s.sd block buffer
  (status, buffer, { s with sd := sd })

/-- `fkfs_write_block`. -/
def fkfs_write_block (s : Machine) (block : UInt32) (buffer : Block) : Bool × Machine :=
  let (status, sd) := sd_raw_write_block s.sd block buffer
  (status, { s with sd := sd, writes := s.writes ++ [⟨block, buffer, s.fs, status⟩] })

/-! ## Header slots -/

/-- `headers[i]` of a header block. -/
def getHeader (b : Block) (i : Fin 2) : fkfs_header_t :=
  headerAt b.mem (sizeof_fkfs_header_t * i)

/-- `memcpy(&headers[i], h, sizeof(fkfs_header_t))`. -/
def putHeader (b : Block) (i : Fin 2) (h : fkfs_header_t) : Block :=
  memcpy b (sizeof_fkfs_header_t * i) h.bytes

/-- `fkfs_header_crc_valid(&headers[i])`. -/
def fkfs_header_crc_valid (b : Block) (i : Fin 2) : Bool :=
  u16 b.mem (sizeof_fkfs_header_t * i + FKFS_HEADER_SIZE_MINUS_CRC)
    == crc16_update 31337 (slice b.mem (sizeof_fkfs_header_t * i) FKFS_HEADER_SIZE_MINUS_CRC)

/-- `fkfs_header_crc_update`. -/
def fkfs_header_crc_update (header : fkfs_header_t) : fkfs_header_t :=
  { header with crc := crc16_update 31337 header.bodyBytes }

/-- `fkfs_header_write`. -/
def fkfs_header_write (s : Machine) (wipe : Bool) : Bool × Machine :=
  match if wipe then (true, zeroBlock, s) else fkfs_read_block s 0 zeroBlock with
  | (false, _, s) => (false, s)
  | (true, buffer, s) =>
    let s := s.setHeader (fkfs_header_crc_update s.fs.header)
    fkfs_write_block s 0 (putHeader buffer s.fs.headerIndex s.fs.header)

/-! ## The block cache -/

/-- `fkfs_block_ensure`. -/
def fkfs_block_ensure (s : Machine) (block : UInt32) : Bool × Machine :=
  if s.fs.cachedBlockNumber ≠ block then
    match fkfs_read_block s block s.fs.buffer with
    | (false, buffer, s) => (false, { s with fs := { s.fs with buffer := buffer } })
    | (true, buffer, s) =>
      (true, { s with fs := { s.fs with
        buffer := buffer, cachedBlockNumber := block, cachedBlockDirty := false } })
  else (true, s)

end Fkfs.Device
