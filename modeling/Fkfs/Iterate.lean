/-
The read path of `fkfs.cpp`: the iterators, `fkfs_file_iterate`, and
`fkfs_file_truncate_at`, which scans a file through it.

`fkfs_file_iterate` loops until it finds data or a reason to stop, so its model
takes a number of rounds and returns nothing when they are used up: a call
returns when some number of rounds is enough.
-/
import Fkfs.Append

set_option autoImplicit false

namespace Fkfs.Iterate

open Bytes
open Fkfs.Crc Fkfs.Layout Fkfs.Device Fkfs.Search Fkfs.Append

/-! ## Iterators -/

/-- `fkfs_file_iterator_create`. -/
def fkfs_file_iterator_create (fs : fkfs_t) (fileNumber : FileNumber) (iter : fkfs_file_iter_t) :
    fkfs_file_iter_t :=
  let file := fs.header.files fileNumber
  { iter with token := {
      file := fileNumber
      block := file.startBlock
      offset := file.startOffset
      lastBlock := file.endBlock
      lastOffset := file.endOffset
      size := file.size } }

/-- `fkfs_file_iterator_reopen`. -/
def fkfs_file_iterator_reopen (fs : fkfs_t) (iter : fkfs_file_iter_t)
    (token : fkfs_iterator_token_t) : fkfs_file_iter_t :=
  let file := fs.header.files token.file
  if file.size < token.size then fkfs_file_iterator_create fs token.file iter
  else { iter with token := {
      file := token.file
      block := token.block
      offset := token.offset
      lastBlock := file.endBlock
      lastOffset := file.endOffset
      size := file.size } }

/-- `fkfs_file_iterator_resume`. -/
def fkfs_file_iterator_resume (fs : fkfs_t) (iter : fkfs_file_iter_t)
    (token : fkfs_iterator_token_t) : fkfs_file_iter_t :=
  let file := fs.header.files token.file
  if file.size < token.size then fkfs_file_iterator_create fs token.file iter
  else { iter with token := {
      file := token.file
      block := token.block
      offset := token.offset
      lastBlock := token.lastBlock
      lastOffset := token.lastOffset
      size := token.size } }

/-- `fkfs_file_iterator_done`. -/
def fkfs_file_iterator_done (iter : fkfs_file_iter_t) : Bool :=
  iter.token.lastBlock < iter.token.block
    || (iter.token.block == iter.token.lastBlock && iter.token.lastOffset ≤ iter.token.offset)

/-- `fkfs_file_iterator_valid`. -/
def fkfs_file_iterator_valid (fs : fkfs_t) (iter : fkfs_file_iter_t) : Bool :=
  0 < iter.token.block && iter.token.block ≤ fs.header.block
    && (iter.token.block < iter.token.lastBlock
      || (iter.token.block == iter.token.lastBlock && iter.token.offset ≤ iter.token.lastOffset))

/-- The iterator with its token at another place. -/
def moveTo (iter : fkfs_file_iter_t) (block : UInt32) (offset : UInt16) : fkfs_file_iter_t :=
  { iter with token := { iter.token with block := block, offset := offset } }

/-- `fkfs_file_iterator_move_end`. -/
def fkfs_file_iterator_move_end (iter : fkfs_file_iter_t) : fkfs_file_iter_t :=
  moveTo iter iter.token.lastBlock iter.token.lastOffset

/-- `fkfs_file_iterator_ensure`; `true` stands for `FKFS_ENSURE_LOADED` and
`FKFS_ENSURE_NOOP`. -/
def fkfs_file_iterator_ensure (s : Machine) (iter : fkfs_file_iter_t) : Bool × Machine :=
  if s.fs.cachedBlockNumber = iter.token.block then (true, s)
  else fkfs_block_ensure s iter.token.block

/-- `fkfs_file_iterate_move`; `past` is what lies behind `fs->files`. -/
def fkfs_file_iterate_move (ov : Overrun) (past : Mem) (fs : fkfs_t) (checkBlock : Bool)
    (iter : fkfs_file_iter_t) : Bool × fkfs_file_iter_t :=
  let ptr := iter.token.offset.toNat
  let check := fkfs_block_check ov past fs ptr
  if checkBlock ∧ check ≠ .crc ∧ check ≠ .good then (false, iter)
  else
    let entry := entryAt (fs.memory past) ptr
    (true, moveTo iter iter.token.block (iter.token.offset + (entry.available + 7)))

/-! ## Iterating -/

/-- What a call finds around it: the clock when it starts, and in each round of
its loop the clock and the bytes behind `fs->files`. -/
structure Ambient where
  started : UInt32
  millis : ℕ → UInt32
  past : ℕ → Mem

/-- The bytes `data[0..size)` an iterator exposes. -/
def payload (iter : fkfs_file_iter_t) (fs : fkfs_t) (past : Mem) : List UInt8 :=
  slice (fs.memory past) iter.data iter.size.toNat

/-- The `do` loop of `fkfs_file_iterate`, `r` rounds in, with what is left of
`maxBlocks`. -/
def iterateLoop (ov : Overrun) (config : fkfs_iterator_config_t) (am : Ambient) :
    ℕ → ℕ → Machine → fkfs_file_iter_t → UInt32 → Option (Bool × Machine × fkfs_file_iter_t)
  | 0, _, _, _, _ => none
  | n + 1, r, s, iter, maxBlocks =>
    -- Make sure the block is loaded up into the cache.
    match fkfs_block_ensure s iter.token.block with
    | (false, s) => some (false, s, iter)
    | (true, s) =>
      let ptr := iter.token.offset.toNat
      let entry := entryAt (s.fs.memory (am.past r)) ptr
      let check := fkfs_block_check ov (am.past r) s.fs ptr
      if check = .crc ∨ check = .good then
        let next := moveTo iter iter.token.block (iter.token.offset + (entry.available + 7))
        if check = .good ∧ entry.file = UInt8.ofNat iter.token.file then
          let found := if config.manualNext = 0 then next else iter
          some (true, s, { found with
            size := entry.size
            data := ptr + sizeof_fkfs_entry_t
            iterated := iter.iterated + entry.size.toUInt32 })
        else if fkfs_file_iterator_done next then some (false, s, next)
        else iterateLoop ov config am n (r + 1) s next maxBlocks
      else
        let next := moveTo iter (iter.token.block + 1) 0
        -- When we started we remembered where to stop.
        if fkfs_file_iterator_done next then some (false, s, next)
        else
          let next := if wrapsAt s.fs next.token.block then moveTo next FKFS_FIRST_BLOCK 0 else next
          -- See if our self imposed ending terms have been reached.
          let maxBlocks := if 0 < config.maxBlocks then maxBlocks - 1 else maxBlocks
          let maxBlocksReached : Bool := 0 < config.maxBlocks && maxBlocks == 0
          let maxTimeReached : Bool :=
            0 < config.maxTime && config.maxTime < am.millis r - am.started
          if maxBlocksReached || maxTimeReached then some (false, s, next)
          else iterateLoop ov config am n (r + 1) s next maxBlocks

/-- `fkfs_file_iterate`, with `n` rounds at most. -/
def fkfs_file_iterate (ov : Overrun) (n : ℕ) (config : fkfs_iterator_config_t) (am : Ambient)
    (s : Machine) (iter : fkfs_file_iter_t) : Option (Bool × Machine × fkfs_file_iter_t) :=
  if !fkfs_file_iterator_valid s.fs iter then some (false, s, iter)
  else if fkfs_file_iterator_done iter then some (false, s, iter)
  else iterateLoop ov config am n 0 s iter config.maxBlocks

/-! ## Truncating at an iterator -/

/-- The `while` loop of `calculate_file_size`, `k` calls in. -/
def calculateLoop (ov : Overrun) (ams : ℕ → Ambient) (n : ℕ) (fileNumber : FileNumber) :
    ℕ → ℕ → Machine → fkfs_file_iter_t → Option Machine
  | 0, _, _, _ => none
  | m + 1, k, s, iter =>
    match fkfs_file_iterate ov n ⟨10, 0, 0⟩ (ams k) s iter with
    | none => none
    | some (false, s, _) => some s
    | some (true, s, iter) =>
      let file := s.fs.header.files fileNumber
      let s := s.setHeader (s.fs.header.setFile fileNumber
        { file with size := file.size + iter.size.toUInt32 })
      calculateLoop ov ams n fileNumber m (k + 1) s iter

/-- `calculate_file_size`. -/
def calculate_file_size (ov : Overrun) (ams : ℕ → Ambient) (n : ℕ) (s : Machine)
    (fileNumber : FileNumber) (iter : fkfs_file_iter_t) : Option Machine :=
  let file := s.fs.header.files fileNumber
  let s := s.setHeader (s.fs.header.setFile fileNumber { file with size := 0 })
  calculateLoop ov ams n fileNumber n 0 s (fkfs_file_iterator_create s.fs fileNumber iter)

/-- `fkfs_file_truncate_at`; `scratch` is the uninitialised local iterator. -/
def fkfs_file_truncate_at (ov : Overrun) (ams : ℕ → Ambient) (n : ℕ) (s : Machine)
    (iter scratch : fkfs_file_iter_t) : Option Machine :=
  let file := s.fs.header.files iter.token.file
  let s := s.setHeader (s.fs.header.setFile iter.token.file
    { file with startBlock := iter.token.lastBlock })
  calculate_file_size ov ams n s iter.token.file scratch

end Fkfs.Iterate
