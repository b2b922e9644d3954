/-
The card at the other end of the SPI bus.

`src/sd_raw.cpp` is one party of a protocol, and this is the other: an SD card in
SPI mode, as far as the commands go that the driver sends it to be initialized,
to read and write a block and to read the CSD register. A card is slave to the
clock, so it takes a step with every byte on the wires and with chip-select. What
it does is a relation (`SpiCard.Step`), because a card has choices: how long it
takes to answer, within the eight bytes it is allowed, to fetch a block and to
program one; whether it refuses a command, sends an error token, turns a block
down or fails to program it. Any command but those listed it refuses.

The driver sees none of this. A run of it is a dialogue with the card when the
card can make the steps the run asks of it (`Dialogues.Plays`), and what is
proved of all dialogues is proved for every card and every timing.
-/
import Fkfs.Lib.Dialogues
import Fkfs.Driver

set_option autoImplicit false

namespace Fkfs.Spi

open Bytes Programs Dialogues
open Fkfs.Layout Fkfs.Driver

/-! ## Frames -/

/-- One bit into the seven-bit CRC of a command. -/
def crc7Bit (crc : UInt8) (bit : Bool) : UInt8 :=
  (if (crc &&& 0x40 != 0) = bit then crc <<< 1 else (crc <<< 1) ^^^ 0x09) &&& 0x7f

/-- The CRC of the first five bytes of a frame, high bits first. -/
def crc7 (bytes : List UInt8) : UInt8 :=
  (bytes.flatMap fun b => [7, 6, 5, 4, 3, 2, 1, 0].map fun s => (b >>> s) &&& 1 != 0).foldl
    crc7Bit 0

/-- A command as the card takes it from the wires. -/
structure Frame where
  command : UInt8
  arg : UInt32
  sound : Bool

/-- The frame in six bytes, the argument high byte first. In SPI mode the CRC is
only checked where the card may not know the mode yet. -/
def frame (bytes : List UInt8) : Frame :=
  let command := bytes.getD 0 0 &&& 0x3f
  ⟨command, UInt32.ofNat (((bytes.drop 1).take 4).foldl (fun n b => n * 256 + b.toNat) 0),
    (command != CMD0 && command != CMD8) || bytes.getD 5 0 == ((crc7 (bytes.take 5) <<< 1) ||| 1)⟩

/-! ## The card -/

/-- How far the card has come: not spoken to yet, in its idle state, ready. -/
inductive Mode
  | off
  | idle
  | ready

/-- What the card is doing.

`listening`: the bytes of a frame so far. `answering`: how many bytes more the
answer may take. `sending`: the byte that goes out next, and the rest.
`fetching`: what it will send once it has it. `awaiting` and `receiving`: the
block that is to be written, and what has come in of it. `judging`, `programming`:
what is to become of it. -/
inductive Phase
  | listening (bytes : List UInt8)
  | answering (f : Frame) (left : ℕ)
  | sending (byte : UInt8) (rest : List UInt8)
  | fetching (bytes : List UInt8)
  | awaiting (block : ℕ)
  | receiving (block : ℕ) (bytes : List UInt8)
  | judging (block : ℕ) (source : Block)
  | programming (block : ℕ) (source : Block)

/-- The pin it is selected by, what it is, what it holds, and how it stands.
`app` says that the last command was `CMD55`, `failed` that a block could not be
programmed and nobody has asked yet. -/
structure SpiCard where
  cs : UInt8
  sdhc : Bool
  csd : Buf 16
  blocks : ℕ → Block
  selected : Bool
  mode : Mode
  app : Bool
  failed : Bool
  phase : Phase

/-- The card goes over to another phase. -/
def SpiCard.to (c : SpiCard) (phase : Phase) : SpiCard := { c with phase := phase }

/-- Chip-select. -/
def SpiCard.select (c : SpiCard) (selected : Bool) : SpiCard := { c with selected := selected }

/-- Bytes to be sent, if there are any. -/
def after : List UInt8 → Phase
  | [] => .listening []
  | b :: bs => .sending b bs

/-- A block from the bytes that came in. -/
def blockOf (bytes : List UInt8) : Block := fun i => bytes.getD i 0

/-- The block an address means: in bytes, but for an SDHC card. -/
def SpiCard.addressed (c : SpiCard) (arg : UInt32) : ℕ :=
  if c.sdhc then arg.toNat else arg.toNat / 512

/-- What a command that is not `CMD55` leaves behind. -/
def SpiCard.done (c : SpiCard) (phase : Phase) : SpiCard := { c with app := false, phase := phase }

/-- The answer `r` to a command, and the card from there on. An answer has its
top bit clear; bit 0 says that the card is in its idle state, and any of the others
that it has refused. -/
inductive Obeys (c : SpiCard) (f : Frame) : UInt8 → SpiCard → Prop
  | refused (r : UInt8) (hr : r &&& 0x80 = 0) (he : r &&& 0x7e ≠ 0) :
      Obeys c f r (c.done (.listening []))
  | goIdle (hf : f.command = CMD0) (hs : f.sound = true) :
      Obeys c f 1 { c with app := false, failed := false, mode := .idle, phase := .listening [] }
  | interface (hf : f.command = CMD8) (hs : f.sound = true) (hm : c.mode = .idle)
      (b₀ b₁ b₂ : UInt8) : Obeys c f 1 (c.done (after [b₀, b₁, b₂, f.arg.toUInt8]))
  | appIdle (hf : f.command = CMD55) (hm : c.mode = .idle) :
      Obeys c f 1 { c with app := true, phase := .listening [] }
  | appReady (hf : f.command = CMD55) (hm : c.mode = .ready) :
      Obeys c f 0 { c with app := true, phase := .listening [] }
  | busy (hf : f.command = ACMD41) (ha : c.app = true) (hm : c.mode = .idle) :
      Obeys c f 1 (c.done (.listening []))
  | initialized (hf : f.command = ACMD41) (ha : c.app = true) (hm : c.mode ≠ .off)
      (hcs : c.sdhc = true → c.mode = .idle → f.arg &&& 0x40000000 ≠ 0) :
      Obeys c f 0 { c with app := false, mode := .ready, phase := .listening [] }
  | ocrIdle (hf : f.command = CMD58) (hm : c.mode = .idle) (b₀ b₁ b₂ b₃ : UInt8) :
      Obeys c f 1 (c.done (after [b₀, b₁, b₂, b₃]))
  | ocr (hf : f.command = CMD58) (hm : c.mode = .ready) (b₀ b₁ b₂ b₃ : UInt8)
      (hb : b₀ &&& 0xc0 = 0xc0 ↔ c.sdhc = true) :
      Obeys c f 0 (c.done (after [b₀, b₁, b₂, b₃]))
  | register (hf : f.command = CMD9) (hm : c.mode = .ready) (crc₀ crc₁ : UInt8) :
      Obeys c f 0 (c.done (.fetching (List.ofFn c.csd ++ [crc₀, crc₁])))
  | status (hf : f.command = CMD13) (hm : c.mode = .ready) (second : UInt8)
      (hfail : c.failed = true → second ≠ 0) :
      Obeys c f 0 { c with app := false, failed := false, phase := after [second] }
  | read (hf : f.command = CMD17) (hm : c.mode = .ready) (crc₀ crc₁ : UInt8) :
      Obeys c f 0
        (c.done (.fetching (List.ofFn (c.blocks (c.addressed f.arg)) ++ [crc₀, crc₁])))
  | write (hf : f.command = CMD24) (hm : c.mode = .ready) :
      Obeys c f 0 (c.done (.awaiting (c.addressed f.arg)))

/-- The end of programming: the block is stored, or is not and the card knows. -/
def Finished (c : SpiCard) (block : ℕ) (source : Block) (c' : SpiCard) : Prop :=
  c' = { c with blocks := Function.update c.blocks block source, phase := .listening [] }
    ∨ ∃ torn, c' = { c with
        blocks := Function.update c.blocks block torn, failed := true, phase := .listening [] }

/-- A byte each way while the card is selected. -/
def Exchange (c : SpiCard) (sent received : UInt8) (c' : SpiCard) : Prop :=
  match c.phase with
  | .listening bytes =>
    received = 0xff ∧ c' = c.to (
      if bytes = [] ∧ sent &&& 0xc0 ≠ 0x40 then .listening []
      else if bytes.length < 5 then .listening (bytes ++ [sent])
      else .answering (frame (bytes ++ [sent])) 8)
  | .answering f left =>
    (received &&& 0x80 ≠ 0 ∧ 0 < left ∧ c' = c.to (.answering f (left - 1)))
      ∨ (received &&& 0x80 ≠ 0 ∧ c.mode = .off ∧ c' = c.to (.listening []))
      ∨ Obeys c f received c'
  | .sending byte rest => received = byte ∧ c' = c.to (after rest)
  | .fetching bytes =>
    (received = 0xff ∧ c' = c) ∨ (received = DATA_START_BLOCK ∧ c' = c.to (after bytes))
      ∨ (received ≠ 0xff ∧ received ≠ DATA_START_BLOCK ∧ c' = c.to (.listening []))
  | .awaiting block =>
    received = 0xff ∧ c' = c.to (
      if sent = 0xff then .awaiting block
      else if sent = DATA_START_BLOCK then .receiving block []
      else .listening [])
  | .receiving block bytes =>
    received = 0xff ∧ c' = c.to (
      if bytes.length < 513 then .receiving block (bytes ++ [sent])
      else .judging block (blockOf bytes))
  | .judging block source =>
    c' = c.to (
      if received &&& DATA_RES_MASK = DATA_RES_ACCEPTED then .programming block source
      else .listening [])
  | .programming block source =>
    (received ≠ 0xff ∧ c' = c) ∨ (received = 0xff ∧ Finished c block source c')

/-- **What the card can make of an event.** A card that is not selected hears nothing
and goes on programming. -/
def Step (c : SpiCard) (e : Event) (c' : SpiCard) : Prop :=
  match e with
  | .write pin high => c' = if pin = c.cs then c.select (!high) else c
  | .transfer sent received =>
    if c.selected then Exchange c sent received c'
    else c' = c ∨ ∃ block source, c.phase = .programming block source ∧ Finished c block source c'

/-! ## Talking to it -/

section Rules

variable {α : Type} {P : SpiCard → Prop} {K : SpiCard} {sd : sd_raw_t}

/-- What a program has to say to the card. -/
abbrev Says (P : SpiCard → Bus → Prop) (p : Prog Bus α) (Q : α → SpiCard → Bus → Prop) : Prop :=
  Talk Bus.trace Step P p Q

/-- Where the two of them are. -/
def Facing (P : SpiCard → Prop) (sd : sd_raw_t) (c : SpiCard) (bus : Bus) : Prop :=
  P c ∧ bus.sd = sd

/-- From wherever the two of them can be. -/
theorem says_from {R : SpiCard → sd_raw_t → Prop} {p : Prog Bus α}
    {Q : α → SpiCard → Bus → Prop} (ha : Adds Bus.trace p)
    (h : ∀ K sd, R K sd → Says (Facing (Eq K) sd) p Q) : Says (fun c bus => R c bus.sd) p Q :=
  ⟨ha, fun {c s} _ _ _ _ hs hr he hp => (h c s.sd hs).tells ⟨rfl, rfl⟩ hr he hp⟩

theorem says_transfer (hsel : K.selected = true) (value : UInt8) :
    Says (Facing (Eq K) sd) (transfer value) fun r => Facing (Exchange K value r) sd := by
  refine Talk.emit (fun _ => rfl) (fun _ => rfl) ?_
  rintro c bus c' ⟨rfl, rfl⟩ hstep
  rw [Step, if_pos hsel] at hstep
  exact ⟨hstep, rfl⟩

/-- A byte that finds the card unselected, and not programming. -/
theorem says_deaf (hsel : K.selected = false)
    (hp : ∀ block source, K.phase ≠ .programming block source) (value : UInt8) :
    Says (Facing (Eq K) sd) (transfer value) fun _ => Facing (Eq K) sd := by
  refine Talk.emit (fun _ => rfl) (fun _ => rfl) ?_
  rintro c bus c' ⟨rfl, rfl⟩ hstep
  rw [Step, if_neg (by rw [hsel]; exact Bool.false_ne_true)] at hstep
  rcases hstep with rfl | ⟨block, source, h, -⟩
  · exact ⟨rfl, rfl⟩
  · exact absurd h (hp block source)

theorem says_pin (hcs : sd.cs = K.cs) (high : Bool) :
    Says (Facing (Eq K) sd) (digitalWrite high) fun _ =>
      Facing (Eq (K.select (!high))) sd := by
  refine Talk.emit (e := fun bus => .write bus.sd.cs high) (fun _ => rfl) (fun _ => rfl) ?_
  rintro c bus c' ⟨rfl, rfl⟩ hstep
  rw [Step, if_pos hcs] at hstep
  exact ⟨hstep.symm, rfl⟩

theorem says_sd (f : sd_raw_t → sd_raw_t) :
    Says (Facing P sd) (setSd f) fun _ => Facing P (f sd) :=
  Talk.update (fun _ => rfl) fun _ _ h => ⟨h.1, congrArg f h.2⟩

theorem says_status (status : UInt8) :
    Says (Facing P sd) (setStatus status) fun _ => Facing P { sd with status := status } :=
  says_sd _

theorem says_millis : Says (Facing P sd) millis fun _ => Facing P sd :=
  Talk.silent (f := fun bus => { bus with ticks := bus.ticks + 1 }) (fun _ => rfl) (fun _ => rfl)
    fun _ _ => id

theorem says_note (command : UInt8) (arg : UInt32) :
    Says (Facing P sd) (note command arg) fun _ => Facing P sd :=
  Talk.update (fun _ => rfl) fun _ _ => id

end Rules

end Fkfs.Spi
