/-
The SD driver, `src/sd_raw.cpp`, byte by byte on the SPI bus, and the DMA path
beside it, `src/sd_raw_dma.cpp`.

The card is whatever answers: `responses` is the stream of bytes it puts on the
bus, one for every byte that is clocked out, and `clock` is what `millis()` reads
each time it is called. Both are arbitrary, so a statement about every state is a
statement about every card and every clock. What goes over the wires is recorded
in `trace`, and `commands` is a ghost: the frames `sd_raw_command` was called on
to send.

A loop that ends by the card's answer or by the clock is given `n` rounds, and a
call that does not end within them has not returned. `SD_RAW_CRC_SUPPORT` and
`SD_PROTECT_BLOCK_ZERO` are defined nowhere, so what stands under them is not
compiled. What sets the SPI hardware up and sends nothing (`pinMode`,
`SPI.begin`, the clock divider, `beginTransaction`) leaves no trace here.
-/
import Fkfs.Lib.Programs
import Fkfs.Layout

set_option autoImplicit false

namespace Fkfs.Driver

open Programs
open Fkfs.Layout

/-! ## The bus -/

/-- What happens on the wires: a byte out and a byte in, or a pin that is
driven. -/
inductive Event
  | transfer (sent received : UInt8)
  | write (pin : UInt8) (high : Bool)
  deriving DecidableEq

/-- `sd_raw_t`. -/
structure sd_raw_t where
  cs : UInt8
  status : UInt8
  type : UInt8
  offset : UInt16
  inBlock : Bool
  block : UInt32

/-- The driver's state and the wires. `transferred` and `ticks` count how much
of the two streams is used up. -/
structure Bus where
  sd : sd_raw_t
  responses : ℕ → UInt8
  clock : ℕ → UInt32
  transferred : ℕ
  ticks : ℕ
  trace : List Event
  commands : List (UInt8 × UInt32)

/-- A zeroed `sd_raw_t`, nothing sent yet. -/
def zeroed (responses : ℕ → UInt8) (clock : ℕ → UInt32) : Bus :=
  ⟨⟨0, 0, 0, 0, false, 0⟩, responses, clock, 0, 0, [], []⟩

/-- The bytes sent to the card. -/
def Bus.sent (bus : Bus) : List UInt8 :=
  bus.trace.filterMap fun e => match e with
    | .transfer sent _ => some sent
    | .write _ _ => none

/-- What was last written to a pin. -/
def Bus.level (bus : Bus) (pin : UInt8) : Option Bool :=
  (bus.trace.filterMap fun e => match e with
    | .transfer _ _ => none
    | .write p high => if p = pin then some high else none).getLast?

/-- An event goes over the wires. -/
def Bus.add (bus : Bus) (e : Event) : Bus := { bus with trace := bus.trace ++ [e] }

/-- `SPI.transfer`. -/
def transfer (value : UInt8) : Prog Bus UInt8 := fun bus =>
  let received := bus.responses bus.transferred
  (some received, { bus.add (.transfer value received) with transferred := bus.transferred + 1 })

/-- `millis`. -/
def millis : Prog Bus UInt32 := fun bus =>
  (some (bus.clock bus.ticks), { bus with ticks := bus.ticks + 1 })

/-- `digitalWrite(sd->cs, …)`. -/
def digitalWrite (high : Bool) : Prog Bus PUnit :=
  update fun bus => bus.add (.write bus.sd.cs high)

/-- An assignment to fields of `sd`. -/
def setSd (f : sd_raw_t → sd_raw_t) : Prog Bus PUnit :=
  update fun bus => { bus with sd := f bus.sd }

/-- `sd->status = …`. -/
def setStatus (status : UInt8) : Prog Bus PUnit := setSd fun sd => { sd with status := status }

/-- The ghost of a command. -/
def note (command : UInt8) (arg : UInt32) : Prog Bus PUnit :=
  update fun bus => { bus with commands := bus.commands ++ [(command, arg)] }

/-! ## Constants -/

def CMD0 : UInt8 := 0x00
def CMD8 : UInt8 := 0x08
def CMD9 : UInt8 := 0x09
def CMD13 : UInt8 := 0x0D
def CMD17 : UInt8 := 0x11
def CMD24 : UInt8 := 0x18
def CMD32 : UInt8 := 0x20
def CMD33 : UInt8 := 0x21
def CMD38 : UInt8 := 0x26
def CMD55 : UInt8 := 0x37
def CMD58 : UInt8 := 0x3A
def ACMD41 : UInt8 := 0x29

def R1_READY_STATE : UInt8 := 0x00
def R1_IDLE_STATE : UInt8 := 0x01
def R1_ILLEGAL_COMMAND : UInt8 := 0x04
def DATA_START_BLOCK : UInt8 := 0xFE
def DATA_RES_MASK : UInt8 := 0x1F
def DATA_RES_ACCEPTED : UInt8 := 0x05

def SD_RAW_INIT_TIMEOUT : UInt32 := 2 * 1000
def SD_RAW_READ_TIMEOUT : UInt32 := 300
def SD_RAW_WRITE_TIMEOUT : UInt32 := 600
def SD_RAW_ERASE_TIMEOUT : UInt32 := 10 * 1000

def SD_CARD_ERROR_CMD0 : UInt8 := 0x1
def SD_CARD_ERROR_CMD8 : UInt8 := 0x2
def SD_CARD_ERROR_CMD17 : UInt8 := 0x3
def SD_CARD_ERROR_CMD24 : UInt8 := 0x4
def SD_CARD_ERROR_CMD58 : UInt8 := 0x6
def SD_CARD_ERROR_ACMD41 : UInt8 := 0x8
def SD_CARD_ERROR_BAD_CSD : UInt8 := 0x9
def SD_CARD_ERROR_ERASE : UInt8 := 0xA
def SD_CARD_ERROR_ERASE_SINGLE_BLOCK : UInt8 := 0xB
def SD_CARD_ERROR_ERASE_TIMEOUT : UInt8 := 0xC
def SD_CARD_ERROR_READ : UInt8 := 0xD
def SD_CARD_ERROR_READ_REG : UInt8 := 0xE
def SD_CARD_ERROR_READ_TIMEOUT : UInt8 := 0xF
def SD_CARD_ERROR_WRITE : UInt8 := 0x11
def SD_CARD_ERROR_WRITE_PROGRAMMING : UInt8 := 0x14
def SD_CARD_ERROR_WRITE_TIMEOUT : UInt8 := 0x15
def SD_CARD_ERROR_GENERAL : UInt8 := 0x17

def SD_CARD_TYPE_SD1 : UInt8 := 1
def SD_CARD_TYPE_SD2 : UInt8 := 2
def SD_CARD_TYPE_SDHC : UInt8 := 3

/-! ## Commands -/

/-- `sd_raw_cs_high`. -/
def sd_raw_cs_high : Prog Bus PUnit := digitalWrite true

/-- `sd_raw_cs_low`. -/
def sd_raw_cs_low : Prog Bus PUnit := digitalWrite false

/-- `sd_raw_spi_read`. -/
def sd_raw_spi_read : Prog Bus UInt8 := transfer 0xff

/-- `sd_raw_spi_write`. -/
def sd_raw_spi_write (value : UInt8) : Prog Bus UInt8 := transfer value

/-- `sd_raw_flush`. -/
def sd_raw_flush (n : ℕ) (timeoutMs : UInt16) : Prog Bus Bool := do
  let t0 ← millis
  loop (do
    let value ← sd_raw_spi_read
    if value = 0xff then
      pure (some true)
    else do
      let now ← millis
      pure (if now - t0 < timeoutMs.toUInt32 then none else some false)) n

/-- `sd->offset++ < SD_RAW_BLOCK_SIZE + 2`, once it is known to hold, and the
body of the loop in `sd_raw_read_end`. -/
def skipByte : Prog Bus UInt8 := do
  setSd fun sd => { sd with offset := sd.offset + 1 }
  sd_raw_spi_read

/-- `sd_raw_read_end` in a block, with `left` rounds of its loop to go. The test
that ends the loop counts `offset` once more. -/
def endBlock (left : ℕ) : Prog Bus PUnit := do
  let _ ← times skipByte left
  setSd fun sd => { sd with offset := sd.offset + 1 }
  sd_raw_cs_high
  setSd fun sd => { sd with inBlock := false }

/-- `sd_raw_read_end`. -/
def sd_raw_read_end : Prog Bus PUnit := do
  let sd ← read Bus.sd
  if sd.inBlock = true then
    endBlock (SD_RAW_BLOCK_SIZE + 2 - sd.offset.toNat)
  else
    pure ⟨⟩

/-- The loop at the end of `sd_raw_command`, with `i` rounds to go after this
one: until the top bit of the answer is clear. -/
def awaitResponse : ℕ → Prog Bus UInt8
  | 0 => do
    let status ← sd_raw_spi_read
    setStatus status
    pure status
  | i + 1 => do
    let status ← sd_raw_spi_read
    setStatus status
    if status &&& 0x80 ≠ 0 then awaitResponse i else pure status

/-- `sd_raw_command`, before it sends anything: an open block is ended, the card
selected and waited for. -/
def selectCard (n : ℕ) : Prog Bus Bool := do
  sd_raw_read_end
  sd_raw_cs_low
  sd_raw_flush n 300

/-- `sd_raw_command`, its frame and the answer. -/
def issue (command : UInt8) (arg : UInt32) : Prog Bus UInt8 := do
  note command arg
  let _ ← sd_raw_spi_write (command ||| 0x40)
  each (fun s => sd_raw_spi_write (arg >>> s).toUInt8) [24, 16, 8, 0]
  let crc : UInt8 := if command = CMD8 then 0x87 else if command = CMD0 then 0x95 else 0xff
  let _ ← sd_raw_spi_write crc
  awaitResponse 255

/-- `sd_raw_command`. -/
def sd_raw_command (n : ℕ) (command : UInt8) (arg : UInt32) : Prog Bus UInt8 := do
  let _ ← selectCard n
  issue command arg

/-- `sd_raw_acommand`. -/
def sd_raw_acommand (n : ℕ) (command : UInt8) (arg : UInt32) : Prog Bus UInt8 := do
  let _ ← sd_raw_command n CMD55 0
  sd_raw_command n command arg

/-- `sd_raw_error`, and what the call that has failed makes of its `false`. -/
def sd_raw_error {α : Type} (error : UInt8) (result : α) : Prog Bus α := do
  sd_raw_cs_high
  setStatus error
  pure result

/-! ## Initialization -/

/-- `sd_raw_spi_configure`: the card takes 74 clock cycles to start up. -/
def sd_raw_spi_configure : Prog Bus (List UInt8) := times (transfer 0xff) 10

/-- The two loops of `sd_raw_initialize`: until the card answers `state`, or the
time since `t0` is over. -/
def awaitState (n : ℕ) (t0 : UInt32) (ask : Prog Bus UInt8) (state : UInt8) : Prog Bus Bool :=
  loop (do
    let status ← ask
    setStatus status
    if status = state then
      pure (some true)
    else do
      let now ← millis
      pure (if now - t0 > SD_RAW_INIT_TIMEOUT then some false else none)) n

/-- `sd_raw_initialize`, "If SD2 read OCR register to check for SDHC card". -/
def readOcr (n : ℕ) : Prog Bus Bool := do
  let sd ← read Bus.sd
  if sd.type = SD_CARD_TYPE_SD2 then do
    let status ← sd_raw_command n CMD58 0
    if status ≠ 0 then
      sd_raw_error SD_CARD_ERROR_CMD58 false
    else do
      let ocr ← sd_raw_spi_read
      setSd fun sd => if ocr &&& 0xc0 = 0xc0 then { sd with type := SD_CARD_TYPE_SDHC } else sd
      -- Discard rest of ocr - contains allowed voltage range
      let _ ← times sd_raw_spi_read 3
      sd_raw_cs_high
      pure true
  else do
    sd_raw_cs_high
    pure true

/-- `sd_raw_initialize`, from "Initialize card and send host supports SDHC if
SD2" on. -/
def readyCard (n : ℕ) (t0 : UInt32) : Prog Bus Bool := do
  let sd ← read Bus.sd
  let arg : UInt32 := if sd.type = SD_CARD_TYPE_SD2 then 0x40000000 else 0
  let ready ← awaitState n t0 ( sd_raw_acommand n ACMD41 arg) R1_READY_STATE
  if ready = false then
    sd_raw_error SD_CARD_ERROR_ACMD41 false
  else
    readOcr n

/-- `sd_raw_initialize`. -/
def sd_raw_initialize (n : ℕ) (pinCs : UInt8) : Prog Bus Bool := do
  setSd fun sd => { sd with cs := pinCs }
  sd_raw_cs_high
  let _ ← sd_raw_spi_configure
  sd_raw_cs_low
  let t0 ← millis
  -- Command to go idle in SPI mode
  let idle ← awaitState n t0 ( sd_raw_command n CMD0 0) R1_IDLE_STATE
  if idle = false then
    sd_raw_error SD_CARD_ERROR_CMD0 false
  else do
    -- Check SD version
    let version ← sd_raw_command n CMD8 0x1aa
    if version &&& R1_ILLEGAL_COMMAND ≠ 0 then do
      setSd fun sd => { sd with type := SD_CARD_TYPE_SD1 }
      readyCard n t0
    else do
      -- Only need last byte of r7 response
      let _ ← times (do
        let status ← sd_raw_spi_read
        setStatus status) 4
      let sd ← read Bus.sd
      if sd.status ≠ 0xAA then
        sd_raw_error SD_CARD_ERROR_CMD8 false
      else do
        setSd fun sd => { sd with type := SD_CARD_TYPE_SD2 }
        readyCard n t0

/-! ## Reading -/

/-- `sd_wait_start_block`. -/
def sd_wait_start_block (n : ℕ) : Prog Bus Bool := do
  let t0 ← millis
  let started ← loop (do
    let status ← sd_raw_spi_read
    setStatus status
    if status = 0xff then do
      let now ← millis
      pure (if now - t0 > SD_RAW_READ_TIMEOUT then some false else none)
    else
      pure (some true)) n
  if started = false then
    sd_raw_error SD_CARD_ERROR_READ_TIMEOUT false
  else do
    let sd ← read Bus.sd
    if sd.status ≠ DATA_START_BLOCK then
      sd_raw_error SD_CARD_ERROR_READ false
    else
      pure true

/-- `sd_raw_read_register`: the sixteen bytes, or `none` where it fails. -/
def sd_raw_read_register (n : ℕ) (command : UInt8) : Prog Bus (Option (List UInt8)) := do
  let status ← sd_raw_command n command 0
  if status ≠ 0 then
    sd_raw_error SD_CARD_ERROR_READ_REG none
  else do
    let started ← sd_wait_start_block n
    if started = false then
      sd_raw_error SD_CARD_ERROR_GENERAL none
    else do
      let destiny ← times sd_raw_spi_read 16
      let _ ← sd_raw_spi_read -- CRC byte
      let _ ← sd_raw_spi_read -- CRC byte
      sd_raw_cs_high
      pure (some destiny)

/-- `sd_raw_read_csd`. -/
def sd_raw_read_csd (n : ℕ) : Prog Bus (Option (List UInt8)) := sd_raw_read_register n CMD9

/-- The address the card wants for a block: bytes, but for an SDHC card. -/
def sd_raw_t.address (sd : sd_raw_t) (block : UInt32) : UInt32 :=
  if sd.type ≠ SD_CARD_TYPE_SDHC then block <<< 9 else block

/-- The end of `sd_raw_read_data`, in the block: the skip to `offset`, the bytes,
and, `partialBlockRead` being false, the rest of the block. -/
def readBytes (offset size : UInt16) : Prog Bus (Bool × List UInt8) := do
  let sd ← read Bus.sd
  let _ ← times (do
    let _ ← sd_raw_spi_read
    setSd fun sd => { sd with offset := sd.offset + 1 }) (offset.toNat - sd.offset.toNat)
  let destiny ← times sd_raw_spi_read size.toNat
  setSd fun sd => { sd with offset := sd.offset + size }
  sd_raw_read_end
  pure (true, destiny)

/-- `sd_raw_read_data`, from its command on. -/
def readAt (n : ℕ) (address : UInt32) (offset size : UInt16) : Prog Bus (Bool × List UInt8) := do
  let status ← sd_raw_command n CMD17 address
  if status ≠ 0 then
    sd_raw_error SD_CARD_ERROR_CMD17 (false, [])
  else do
    let started ← sd_wait_start_block n
    if started = false then
      sd_raw_error SD_CARD_ERROR_GENERAL (false, [])
    else do
      setSd fun sd => { sd with offset := 0, inBlock := true }
      readBytes offset size

/-- `sd_raw_read_data` where it has to open the block. -/
def openBlock (n : ℕ) (block : UInt32) (offset size : UInt16) : Prog Bus (Bool × List UInt8) := do
  setSd fun sd => { sd with block := block }
  let sd ← read Bus.sd
  readAt n (sd.address block) offset size

/-- `sd_raw_read_data`: the result, and what was stored from `destiny` on. -/
def sd_raw_read_data (n : ℕ) (block : UInt32) (offset size : UInt16) :
    Prog Bus (Bool × List UInt8) := do
  if size = 0 then
    pure (true, [])
  else if SD_RAW_BLOCK_SIZE < size.toNat + offset.toNat then
    sd_raw_error SD_CARD_ERROR_GENERAL (false, [])
  else do
    let sd ← read Bus.sd
    if sd.inBlock = false ∨ block ≠ sd.block ∨ offset < sd.offset then
      openBlock n block offset size
    else
      readBytes offset size

/-- `sd_raw_read_block`. -/
def sd_raw_read_block (n : ℕ) (block : UInt32) : Prog Bus (Bool × List UInt8) :=
  sd_raw_read_data n block 0 512

/-! ## Writing -/

/-- `sd_raw_write_data`: the token, the block, a dummy CRC. -/
def sd_raw_write_data (token : UInt8) (source : Block) : Prog Bus Bool := do
  let _ ← sd_raw_spi_write token
  each sd_raw_spi_write (List.ofFn source)
  let _ ← sd_raw_spi_write 0xff
  let _ ← sd_raw_spi_write 0xff
  let status ← sd_raw_spi_read
  setStatus status
  if status &&& DATA_RES_MASK ≠ DATA_RES_ACCEPTED then
    sd_raw_error SD_CARD_ERROR_WRITE false
  else
    pure true

/-- `sd_raw_command(sd, CMD13, 0) || sd_raw_spi_read()`: "Response is r2 so get
and check two bytes for nonzero". -/
def checkStatus (n : ℕ) : Prog Bus Bool := do
  let status ← sd_raw_command n CMD13 0
  if status ≠ 0 then
    pure true
  else do
    let second ← sd_raw_spi_read
    pure (second != 0)

/-- `sd_raw_write_block`, from its command on. -/
def writeAt (n : ℕ) (address : UInt32) (source : Block) : Prog Bus Bool := do
  let status ← sd_raw_command n CMD24 address
  if status ≠ 0 then
    sd_raw_error SD_CARD_ERROR_CMD24 false
  else do
    let written ← sd_raw_write_data DATA_START_BLOCK source
    if written = false then
      sd_raw_error SD_CARD_ERROR_GENERAL false
    else do
      -- Wait for flash programming to complete
      let flushed ← sd_raw_flush n SD_RAW_WRITE_TIMEOUT.toUInt16
      if flushed = false then
        sd_raw_error SD_CARD_ERROR_WRITE_TIMEOUT false
      else do
        let failed ← checkStatus n
        if failed = true then
          sd_raw_error SD_CARD_ERROR_WRITE_PROGRAMMING false
        else do
          sd_raw_cs_high
          pure true

/-- `sd_raw_write_block`. -/
def sd_raw_write_block (n : ℕ) (block : UInt32) (source : Block) : Prog Bus Bool := do
  let sd ← read Bus.sd
  writeAt n (sd.address block) source

/-! ## The size of the card, and erasing -/

/-- `csd[i]`. -/
def csdByte (csd : List UInt8) (i : ℕ) : UInt32 := (csd.getD i 0).toUInt32

/-- `sd_raw_card_size`. Where the shift of a version 1 register comes out
negative, C leaves the result open. -/
def sd_raw_card_size (n : ℕ) : Prog Bus UInt32 := do
  let read ← sd_raw_read_csd n
  match read with
  | none => pure 0
  | some csd =>
    let csd_ver := csdByte csd 0 >>> 6
    if csd_ver = 0 then
      let readBlLen := csdByte csd 5 &&& 0xF
      let cSize := ((csdByte csd 6 &&& 3) <<< 10) ||| (csdByte csd 7 <<< 2)
        ||| (csdByte csd 8 >>> 6)
      let cSizeMult := ((csdByte csd 9 &&& 3) <<< 1) ||| (csdByte csd 10 >>> 7)
      pure ((cSize + 1) <<< (cSizeMult + readBlLen - 7))
    else if csd_ver = 1 then
      let cSize := ((csdByte csd 7 >>> 2) <<< 16) ||| (csdByte csd 8 <<< 8) ||| csdByte csd 9
      pure ((cSize + 1) * 1024)
    else
      sd_raw_error SD_CARD_ERROR_BAD_CSD 0

/-- `sd_raw_erase_single_block_enabled`. -/
def sd_raw_erase_single_block_enabled (n : ℕ) : Prog Bus Bool := do
  let read ← sd_raw_read_csd n
  pure (match read with
    | some csd => (csdByte csd 10 >>> 6) &&& 1 != 0
    | none => false)

/-- The three commands of `sd_raw_erase`, as far as they get: whether one of them
fails. -/
def eraseCommands (n : ℕ) (firstBlock lastBlock : UInt32) : Prog Bus Bool := do
  let first ← sd_raw_command n CMD32 firstBlock
  if first ≠ 0 then
    pure true
  else do
    let last ← sd_raw_command n CMD33 lastBlock
    if last ≠ 0 then
      pure true
    else do
      let erase ← sd_raw_command n CMD38 0
      pure (erase != 0)

/-- `sd_raw_erase`. -/
def sd_raw_erase (n : ℕ) (firstBlock lastBlock : UInt32) : Prog Bus Bool := do
  let enabled ← sd_raw_erase_single_block_enabled n
  if enabled = false then
    sd_raw_error SD_CARD_ERROR_ERASE_SINGLE_BLOCK false
  else do
    let sd ← read Bus.sd
    let failed ← eraseCommands n (sd.address firstBlock) (sd.address lastBlock)
    if failed = true then
      sd_raw_error SD_CARD_ERROR_ERASE false
    else do
      let flushed ← sd_raw_flush n SD_RAW_ERASE_TIMEOUT.toUInt16
      if flushed = false then
        sd_raw_error SD_CARD_ERROR_ERASE_TIMEOUT false
      else do
        sd_raw_cs_high
        pure true

/-! ## DMA -/

/-- `sd_raw_dma_t`, as far as a transfer uses it: the memory the transmit job
clocks out, the `length` of `sd_raw_dma_initialize` being 512. -/
structure sd_raw_dma_t where
  source_memory : Block

/-- The transmit job, from `dma_start_transfer_job` until it is no longer busy:
it clocks out the source bytes. What comes in meanwhile is what a receive job
stores. -/
def txJob (dma : sd_raw_dma_t) : Prog Bus PUnit := each transfer (List.ofFn dma.source_memory)

/-- `sd_raw_dma_write_block`. -/
def sd_raw_dma_write_block (n : ℕ) (sd_dma : sd_raw_dma_t) (block : UInt32) : Prog Bus Bool := do
  let status ← sd_raw_command n CMD24 block
  if status ≠ 0 then
    sd_raw_error SD_CARD_ERROR_CMD24 false
  else do
    let _ ← transfer DATA_START_BLOCK
    txJob sd_dma
    let _ ← transfer 0xff
    let _ ← transfer 0xff
    let status ← transfer 0xff
    setStatus status
    if status &&& DATA_RES_MASK ≠ DATA_RES_ACCEPTED then
      sd_raw_error SD_CARD_ERROR_WRITE false
    else do
      let flushed ← sd_raw_flush n SD_RAW_WRITE_TIMEOUT.toUInt16
      if flushed = false then
        sd_raw_error SD_CARD_ERROR_WRITE_TIMEOUT false
      else do
        let failed ← checkStatus n
        if failed = true then
          sd_raw_error SD_CARD_ERROR_WRITE_PROGRAMMING false
        else do
          sd_raw_cs_high
          pure true

/-- `sd_raw_dma_read_block`. -/
def sd_raw_dma_read_block (n : ℕ) (sd_dma : sd_raw_dma_t) (block : UInt32) : Prog Bus Bool := do
  let status ← sd_raw_command n CMD17 block
  if status ≠ 0 then
    sd_raw_error SD_CARD_ERROR_CMD17 false
  else do
    let started ← sd_wait_start_block n
    if started = false then
      sd_raw_error SD_CARD_ERROR_GENERAL false
    else do
      txJob sd_dma
      sd_raw_cs_high
      pure true

end Fkfs.Driver
