/-
The driver always releases the bus.

`sd_raw_command` pulls chip-select low, and whatever happens then, the call it
was sent for ends with it high. Between calls the driver is `Idle`: `inBlock`,
which only `sd_raw_read_data` sets, is false again. So every call is proved from
one state of affairs to one state of affairs (`Released`), with `Keeps` for the
stretches in between, and a run is the calls one after another.

The stretches are the same whatever is to be kept, so they are walked once, for
anything that survives a byte on the wires, a reading of the clock, a pin that is
driven and an assignment to `sd` (`Stable`).
-/
import Fkfs.Driver

set_option autoImplicit false

namespace Fkfs.Release

open Programs
open Fkfs.Layout Fkfs.Driver

/-! ## What every stretch keeps -/

/-- Survives everything a call does on the wires, and to `sd` but for
`inBlock`. -/
structure Stable (I : Bus → Prop) : Prop where
  transfer : ∀ value, Keeps I (transfer value)
  millis : Keeps I millis
  digitalWrite : ∀ high, Keeps I (digitalWrite high)
  setSd : ∀ f : sd_raw_t → sd_raw_t, (∀ sd, (f sd).inBlock = sd.inBlock) → Keeps I (setSd f)

theorem stable_inBlock (b : Bool) : Stable fun bus => bus.sd.inBlock = b where
  transfer := fun _ _ => id
  millis := fun _ => id
  digitalWrite := fun _ _ => id
  setSd := fun _ hf _ h => (hf _).trans h

/-- The wires only see more. -/
theorem stable_trace (t : List Event) : Stable fun bus => t <+: bus.trace where
  transfer := fun _ _ h => h.trans (List.prefix_append _ _)
  millis := fun _ => id
  digitalWrite := fun _ _ h => h.trans (List.prefix_append _ _)
  setSd := fun _ _ _ => id

theorem stable_commands (c : List (UInt8 × UInt32)) : Stable fun bus => bus.commands = c where
  transfer := fun _ _ => id
  millis := fun _ => id
  digitalWrite := fun _ _ => id
  setSd := fun _ _ _ => id

namespace Stable

variable {I : Bus → Prop}

/-- An assignment that leaves `inBlock` alone. -/
theorem assign (h : Stable I) {f : sd_raw_t → sd_raw_t} (hf : ∀ sd, (f sd).inBlock = sd.inBlock) :
    Triple I (Driver.setSd f) fun _ => I :=
  (h.setSd f hf).triple

theorem status (h : Stable I) (status : UInt8) : Keeps I (setStatus status) :=
  h.setSd _ fun _ => rfl

theorem spi_read (h : Stable I) : Keeps I sd_raw_spi_read := h.transfer _

theorem flush (h : Stable I) (n : ℕ) (timeoutMs : UInt16) :
    Keeps I (sd_raw_flush n timeoutMs) := by
  refine Keeps.bind h.millis fun t0 => Keeps.loop ?_ n
  refine Keeps.bind h.spi_read fun value => Keeps.ite (Keeps.ret _) ?_
  exact Keeps.bind h.millis fun now => Keeps.ret _

theorem response (h : Stable I) (i : ℕ) : Keeps I (awaitResponse i) := by
  induction i with
  | zero =>
    exact Keeps.bind h.spi_read fun status =>
      Keeps.bind (h.status status) fun _ => Keeps.ret _
  | succ i ih =>
    exact Keeps.bind h.spi_read fun status =>
      Keeps.bind (h.status status) fun _ => Keeps.ite ih (Keeps.ret _)

theorem error (h : Stable I) {α : Type} (error : UInt8) (result : α) :
    Keeps I (sd_raw_error error result) :=
  Keeps.bind (h.digitalWrite _) fun _ => Keeps.bind (h.status error) fun _ => Keeps.ret _

theorem select (h : Stable I) (hend : Keeps I sd_raw_read_end) (n : ℕ) :
    Keeps I (selectCard n) :=
  Keeps.bind hend fun _ => Keeps.bind (h.digitalWrite _) fun _ => h.flush n _

/-- What ending a block and the ghost leave alone, a command leaves alone. -/
theorem command (h : Stable I) (hend : Keeps I sd_raw_read_end)
    (hnote : ∀ command arg, Keeps I (note command arg)) (n : ℕ) (command : UInt8) (arg : UInt32) :
    Keeps I (sd_raw_command n command arg) := by
  refine Keeps.bind (h.select hend n) fun _ => Keeps.bind (hnote _ _) fun _ => ?_
  refine Keeps.bind (h.transfer _) fun _ => Keeps.bind ?_ fun _ => ?_
  · exact Keeps.each (fun s => h.transfer _) _
  · exact Keeps.bind (h.transfer _) fun _ => h.response _

theorem wait_start_block (h : Stable I) (n : ℕ) : Keeps I (sd_wait_start_block n) := by
  refine Keeps.bind h.millis fun t0 => Keeps.bind (Keeps.loop ?_ n) fun started => ?_
  · refine Keeps.bind h.spi_read fun status => Keeps.bind (h.status status) fun _ => ?_
    exact Keeps.ite (Keeps.bind h.millis fun now => Keeps.ret _) (Keeps.ret _)
  · refine Keeps.ite (h.error _ _) (Keeps.bind (Keeps.read _) fun sd => ?_)
    exact Keeps.ite (h.error _ _) (Keeps.ret _)

theorem wait_state (h : Stable I) {ask : Prog Bus UInt8} (hask : Keeps I ask) (n : ℕ)
    (t0 : UInt32) (state : UInt8) : Keeps I (awaitState n t0 ask state) := by
  refine Keeps.loop (Keeps.bind hask fun status => Keeps.bind (h.status status) fun _ => ?_) n
  exact Keeps.ite (Keeps.ret _) (Keeps.bind h.millis fun now => Keeps.ret _)

theorem bytes (h : Stable I) (bytes : List UInt8) : Keeps I (each Driver.transfer bytes) :=
  Keeps.each h.transfer bytes

theorem write_data (h : Stable I) (token : UInt8) (source : Block) :
    Keeps I (sd_raw_write_data token source) := by
  refine Keeps.bind (h.transfer _) fun _ => Keeps.bind (h.bytes _) fun _ => ?_
  refine Keeps.bind (h.transfer _) fun _ => Keeps.bind (h.transfer _) fun _ => ?_
  refine Keeps.bind h.spi_read fun status => Keeps.bind (h.status status) fun _ => ?_
  exact Keeps.ite (h.error _ _) (Keeps.ret _)

theorem check_status (h : Stable I)
    (hcommand : ∀ n command arg, Keeps I (sd_raw_command n command arg)) (n : ℕ) :
    Keeps I (checkStatus n) := by
  refine Keeps.bind (hcommand n _ _) fun status => Keeps.ite (Keeps.ret _) ?_
  exact Keeps.bind h.spi_read fun second => Keeps.ret _

end Stable

/-! ## Idle -/

/-- Not in the middle of a block. -/
def Idle (bus : Bus) : Prop := bus.sd.inBlock = false

theorem stable_idle : Stable Idle := stable_inBlock false

/-- What a call leaves behind: not in a block, chip-select high. -/
def Released (bus : Bus) : Prop := Idle bus ∧ bus.level bus.sd.cs = some true

/-- With no block open there is nothing to end. -/
theorem read_end_idle {bus : Bus} (h : Idle bus) : sd_raw_read_end bus = (some ⟨⟩, bus) := by
  have hb : bus.sd.inBlock = false := h
  rw [sd_raw_read_end, bind_run_some (show read Bus.sd bus = (some bus.sd, bus) from rfl), hb]
  rfl

/-- With one open there is. -/
theorem read_end_open {bus : Bus} (h : bus.sd.inBlock = true) :
    sd_raw_read_end bus = endBlock (SD_RAW_BLOCK_SIZE + 2 - bus.sd.offset.toNat) bus := by
  rw [sd_raw_read_end, bind_run_some (show read Bus.sd bus = (some bus.sd, bus) from rfl), if_pos h]

theorem idle_read_end : Keeps Idle sd_raw_read_end := by
  intro bus h
  rw [read_end_idle h]
  exact h

theorem idle_command (n : ℕ) (command : UInt8) (arg : UInt32) :
    Keeps Idle (sd_raw_command n command arg) :=
  stable_idle.command idle_read_end (fun _ _ _ => id) n command arg

/-- With no block open, `sd_raw_read_block` opens one. -/
theorem read_block_idle {bus : Bus} (h : Idle bus) (n : ℕ) (block : UInt32) :
    sd_raw_read_block n block bus = openBlock n block 0 512 bus := by
  have hopen : bus.sd.inBlock = false ∨ block ≠ bus.sd.block ∨ (0 : UInt16) < bus.sd.offset :=
    Or.inl h
  change (if bus.sd.inBlock = false ∨ block ≠ bus.sd.block ∨ (0 : UInt16) < bus.sd.offset
    then openBlock n block 0 512 else readBytes 0 512) bus = _
  rw [if_pos hopen]

/-- Driving chip-select high is what is last written to it. -/
theorem level_add (bus : Bus) (high : Bool) :
    (bus.add (.write bus.sd.cs high)).level bus.sd.cs = some high := by
  simp [Bus.level, Bus.add]

theorem released_cs_high : Triple Idle sd_raw_cs_high fun _ => Released :=
  Triple.update fun bus h => ⟨h, level_add bus true⟩

/-- **Every error exit releases the bus.** -/
theorem released_error {α : Type} (error : UInt8) (result : α) :
    Triple Idle (sd_raw_error error result) fun _ => Released :=
  Triple.bind released_cs_high fun _ => Triple.bind (Triple.update fun _ h => h) fun _ =>
    Triple.ret fun _ h => h

/-- The end of a call that succeeds. -/
theorem released_done {α : Type} (result : α) :
    Triple Idle (do sd_raw_cs_high; pure result : Prog Bus α) fun _ => Released :=
  Triple.bind released_cs_high fun _ => Triple.ret fun _ h => h

/-! ## The calls -/

section Calls

variable (n : ℕ)

theorem released_readOcr : Triple Idle (readOcr n) fun _ => Released := by
  refine Triple.bind (Keeps.read _).triple fun sd => ?_
  refine Triple.ite (fun _ => ?_) fun _ => released_done _
  refine Triple.bind (idle_command n _ _).triple fun status => ?_
  refine Triple.ite (fun _ => released_error _ _) fun _ => ?_
  refine Triple.bind stable_idle.spi_read.triple fun ocr => ?_
  refine Triple.bind (stable_idle.assign fun sd => ?_) fun _ => ?_
  · split <;> rfl
  · exact Triple.bind (Keeps.times stable_idle.spi_read 3).triple fun _ => released_done _

theorem released_readyCard (t0 : UInt32) : Triple Idle (readyCard n t0) fun _ => Released := by
  refine Triple.bind (Keeps.read _).triple fun sd => ?_
  refine Triple.bind (stable_idle.wait_state ?_ n t0 _).triple fun ready => ?_
  · exact Keeps.bind (idle_command n _ _) fun _ => idle_command n _ _
  · exact Triple.ite (fun _ => released_error _ _) fun _ => released_readOcr n

theorem released_initialize (pinCs : UInt8) :
    Triple Idle ( sd_raw_initialize n pinCs) fun _ => Released := by
  refine Triple.bind (stable_idle.assign fun _ => rfl) fun _ => ?_
  refine Triple.bind (stable_idle.digitalWrite _).triple fun _ => ?_
  refine Triple.bind (Keeps.times (stable_idle.transfer _) 10).triple fun _ => ?_
  refine Triple.bind (stable_idle.digitalWrite _).triple fun _ => ?_
  refine Triple.bind stable_idle.millis.triple fun t0 => ?_
  refine Triple.bind (stable_idle.wait_state (idle_command n _ _) n t0 _).triple fun idle => ?_
  refine Triple.ite (fun _ => released_error _ _) fun _ => ?_
  refine Triple.bind (idle_command n _ _).triple fun version => Triple.ite (fun _ => ?_) fun _ => ?_
  · exact Triple.bind (stable_idle.assign fun _ => rfl) fun _ => released_readyCard n t0
  · refine Triple.bind (Keeps.times ?_ 4).triple fun _ => ?_
    · exact Keeps.bind stable_idle.spi_read fun status => stable_idle.status status
    · refine Triple.bind (Keeps.read _).triple fun sd => ?_
      refine Triple.ite (fun _ => released_error _ _) fun _ => ?_
      exact Triple.bind (stable_idle.assign fun _ => rfl) fun _ => released_readyCard n t0

theorem released_read_csd : Triple Idle (sd_raw_read_csd n) fun _ => Released := by
  refine Triple.bind (idle_command n _ _).triple fun status => ?_
  refine Triple.ite (fun _ => released_error _ _) fun _ => ?_
  refine Triple.bind (stable_idle.wait_start_block n).triple fun started => ?_
  refine Triple.ite (fun _ => released_error _ _) fun _ => ?_
  refine Triple.bind (Keeps.times stable_idle.spi_read 16).triple fun destiny => ?_
  refine Triple.bind stable_idle.spi_read.triple fun _ => ?_
  exact Triple.bind stable_idle.spi_read.triple fun _ => released_done _

theorem released_endBlock (left : ℕ) :
    Triple (fun _ => True) (endBlock left) fun _ => Released := by
  refine Triple.bind (R := fun _ _ => True) (fun _ _ _ _ _ => trivial) fun _ => ?_
  refine Triple.bind (R := fun _ _ => True) (Triple.update fun _ h => h) fun _ => ?_
  refine Triple.bind (R := fun _ bus => bus.level bus.sd.cs = some true)
    (Triple.update fun bus _ => level_add bus true) fun _ => ?_
  exact Triple.update fun bus h => ⟨rfl, h⟩

theorem released_readBytes (offset size : UInt16) :
    Triple (fun bus => bus.sd.inBlock = true) (readBytes offset size) fun _ => Released := by
  have hin := stable_inBlock true
  refine Triple.bind (Keeps.read _).triple fun sd => ?_
  refine Triple.bind (Keeps.times ?_ _).triple fun _ => ?_
  · exact Keeps.bind hin.spi_read fun _ => hin.setSd _ fun _ => rfl
  · refine Triple.bind (Keeps.times hin.spi_read _).triple fun destiny => ?_
    refine Triple.bind (hin.assign fun _ => rfl) fun _ => ?_
    refine Triple.bind (R := fun _ => Released) ?_ fun _ => Triple.ret fun _ h => h
    intro bus a bus' h hr
    rw [read_end_open h] at hr
    exact released_endBlock _ bus a bus' trivial hr

theorem released_readAt (address : UInt32) (offset size : UInt16) :
    Triple Idle (readAt n address offset size) fun _ => Released := by
  refine Triple.bind (idle_command n _ _).triple fun status => ?_
  refine Triple.ite (fun _ => released_error _ _) fun _ => ?_
  refine Triple.bind (stable_idle.wait_start_block n).triple fun started => ?_
  refine Triple.ite (fun _ => released_error _ _) fun _ => ?_
  exact Triple.bind (Triple.update fun _ _ => rfl) fun _ => released_readBytes _ _

theorem released_openBlock (block : UInt32) (offset size : UInt16) :
    Triple Idle (openBlock n block offset size) fun _ => Released := by
  refine Triple.bind (stable_idle.assign fun _ => rfl) fun _ => ?_
  exact Triple.bind (Keeps.read _).triple fun sd => released_readAt n _ offset size

theorem released_read_block (block : UInt32) :
    Triple Idle (sd_raw_read_block n block) fun _ => Released := by
  intro bus r bus' h hr
  rw [read_block_idle h] at hr
  exact released_openBlock n block 0 512 bus r bus' h hr

theorem released_card_size : Triple Idle (sd_raw_card_size n) fun _ => Released := by
  refine Triple.bind (released_read_csd n) fun csd => ?_
  cases csd with
  | none => exact Triple.ret fun _ h => h
  | some csd =>
    refine Triple.ite (fun _ => Triple.ret fun _ h => h) fun _ => ?_
    refine Triple.ite (fun _ => Triple.ret fun _ h => h) fun _ => ?_
    exact (released_error _ _).pre fun _ h => h.1

theorem released_erase (firstBlock lastBlock : UInt32) :
    Triple Idle (sd_raw_erase n firstBlock lastBlock) fun _ => Released := by
  have hcommands : ∀ first last, Keeps Idle (eraseCommands n first last) := by
    intro first last
    refine Keeps.bind (idle_command n _ _) fun a => Keeps.ite (Keeps.ret _) ?_
    refine Keeps.bind (idle_command n _ _) fun b => Keeps.ite (Keeps.ret _) ?_
    exact Keeps.bind (idle_command n _ _) fun c => Keeps.ret _
  have henabled : Triple Idle (sd_raw_erase_single_block_enabled n) fun _ => Idle :=
    Triple.bind (released_read_csd n) fun csd => Triple.ret fun _ h => h.1
  refine Triple.bind henabled fun enabled => Triple.ite (fun _ => released_error _ _) fun _ => ?_
  refine Triple.bind (Keeps.read _).triple fun sd => ?_
  refine Triple.bind (hcommands _ _).triple fun failed => ?_
  refine Triple.ite (fun _ => released_error _ _) fun _ => ?_
  refine Triple.bind (stable_idle.flush n _).triple fun flushed => ?_
  exact Triple.ite (fun _ => released_error _ _) fun _ => released_done _

/-- The end both write paths share: the programming, and the card's status. -/
theorem released_programmed (flushed : Prog Bus Bool) (h : Keeps Idle flushed) :
    Triple Idle (do
      let flushed ← flushed
      if flushed = false then
        sd_raw_error SD_CARD_ERROR_WRITE_TIMEOUT false
      else do
        let failed ← checkStatus n
        if failed = true then
          sd_raw_error SD_CARD_ERROR_WRITE_PROGRAMMING false
        else do
          sd_raw_cs_high
          pure true : Prog Bus Bool) fun _ => Released := by
  refine Triple.bind h.triple fun flushed => Triple.ite (fun _ => released_error _ _) fun _ => ?_
  refine Triple.bind (stable_idle.check_status idle_command n).triple fun failed => ?_
  exact Triple.ite (fun _ => released_error _ _) fun _ => released_done _

theorem released_write_block (block : UInt32) (source : Block) :
    Triple Idle (sd_raw_write_block n block source) fun _ => Released := by
  refine Triple.bind (Keeps.read _).triple fun sd => ?_
  refine Triple.bind (idle_command n _ _).triple fun status => ?_
  refine Triple.ite (fun _ => released_error _ _) fun _ => ?_
  refine Triple.bind (stable_idle.write_data _ source).triple fun written => ?_
  refine Triple.ite (fun _ => released_error _ _) fun _ => ?_
  exact released_programmed n _ (stable_idle.flush n _)

theorem released_dma_write_block (dma : sd_raw_dma_t) (block : UInt32) :
    Triple Idle (sd_raw_dma_write_block n dma block) fun _ => Released := by
  refine Triple.bind (idle_command n _ _).triple fun status => ?_
  refine Triple.ite (fun _ => released_error _ _) fun _ => ?_
  refine Triple.bind (stable_idle.transfer _).triple fun _ => ?_
  refine Triple.bind (stable_idle.bytes _).triple fun _ => ?_
  refine Triple.bind (stable_idle.transfer _).triple fun _ => ?_
  refine Triple.bind (stable_idle.transfer _).triple fun _ => ?_
  refine Triple.bind (stable_idle.transfer _).triple fun status => ?_
  refine Triple.bind (stable_idle.status status).triple fun _ => ?_
  refine Triple.ite (fun _ => released_error _ _) fun _ => ?_
  exact released_programmed n _ (stable_idle.flush n _)

theorem released_dma_read_block (dma : sd_raw_dma_t) (block : UInt32) :
    Triple Idle (sd_raw_dma_read_block n dma block) fun _ => Released := by
  refine Triple.bind (idle_command n _ _).triple fun status => ?_
  refine Triple.ite (fun _ => released_error _ _) fun _ => ?_
  refine Triple.bind (stable_idle.wait_start_block n).triple fun started => ?_
  refine Triple.ite (fun _ => released_error _ _) fun _ => ?_
  exact Triple.bind (stable_idle.bytes _).triple fun _ => released_done _

end Calls

/-! ## A block that is read -/

/-- A byte clocked in. -/
abbrev clocked (received : UInt8) : Event := .transfer 0xff received

/-- From `before` on, `bus` has seen a block read: a command the card answered
with zero, its wait, the start token, the 512 bytes of `data`, two more, and
chip-select high. -/
def BlockRead (before : List Event) (bus : Bus) (data : List UInt8) : Prop :=
  data.length = 512 ∧ ∃ opening waits c₁ c₂, bus.trace = before ++ opening ++ [clocked 0]
    ++ List.replicate waits (clocked 0xff) ++ [clocked DATA_START_BLOCK] ++ data.map clocked
    ++ [clocked c₁, clocked c₂, .write bus.sd.cs true]

theorem spi_read_trace (t : List Event) :
    Triple (fun bus => bus.trace = t) sd_raw_spi_read fun b bus =>
      bus.trace = t ++ [clocked b] := by
  rintro bus b bus' rfl hr
  cases hr
  rfl

theorem millis_trace (t : List Event) :
    Triple (fun bus => bus.trace = t) millis fun _ bus => bus.trace = t := by
  rintro bus now bus' rfl hr
  cases hr
  rfl

/-- An assignment to `sd` is not seen on the wires. -/
theorem setSd_trace (Q : List Event → Prop) (f : sd_raw_t → sd_raw_t) :
    Keeps (fun bus => Q bus.trace) (setSd f) :=
  fun _ h => h

theorem error_returns {α : Type} {P : Bus → Prop} (error : UInt8) (result : α) :
    Triple P (sd_raw_error error result) fun r _ => r = result := by
  intro bus r bus' _ hr
  cases hr
  rfl

/-- The answer `sd_raw_command` returns is the last byte it clocked in. -/
theorem response_last (t : List Event) (i : ℕ) :
    Triple (fun bus => ∃ l, bus.trace = t ++ l) (awaitResponse i) fun status bus =>
      ∃ l, bus.trace = t ++ l ++ [clocked status] := by
  have hread : Triple (fun bus => ∃ l, bus.trace = t ++ l) sd_raw_spi_read fun status bus =>
      ∃ l, bus.trace = t ++ l ++ [clocked status] :=
    Triple.exists_pre fun l => (spi_read_trace (t ++ l)).post fun _ _ h => ⟨l, h⟩
  have hset : ∀ status f, Triple (fun bus => ∃ l, bus.trace = t ++ l ++ [clocked status]) (setSd f)
      fun _ bus => ∃ l, bus.trace = t ++ l ++ [clocked status] := fun status f =>
    (setSd_trace (fun u => ∃ l, u = t ++ l ++ [clocked status]) f).triple
  induction i with
  | zero =>
    exact Triple.bind hread fun status => Triple.bind (hset status _) fun _ =>
      Triple.ret fun _ h => h
  | succ i ih =>
    refine Triple.bind hread fun status => Triple.bind (hset status _) fun _ => ?_
    refine Triple.ite (fun _ => ih.pre ?_) fun _ => Triple.ret fun _ h => h
    rintro bus ⟨l, hl⟩
    exact ⟨l ++ [clocked status], by rw [← List.append_assoc]; exact hl⟩

/-- The same of the whole command, sent with no block open. -/
theorem command_last (t : List Event) (n : ℕ) (command : UInt8) (arg : UInt32) :
    Triple (fun bus => bus.trace = t ∧ Idle bus) (sd_raw_command n command arg) fun status bus =>
      ∃ l, bus.trace = t ++ l ++ [clocked status] := by
  have hstable := stable_trace t
  have hend : Triple (fun bus => bus.trace = t ∧ Idle bus) sd_raw_read_end fun _ bus =>
      t <+: bus.trace := by
    rintro bus a bus' ⟨ht, hidle⟩ hr
    rw [read_end_idle hidle] at hr
    cases hr
    exact ⟨[], by rw [List.append_nil, ht]⟩
  have hselect : Triple (fun bus => bus.trace = t ∧ Idle bus) (selectCard n) fun _ bus =>
      t <+: bus.trace :=
    Triple.bind hend fun _ => Triple.bind (hstable.digitalWrite _).triple fun _ =>
      (hstable.flush n _).triple
  refine Triple.bind hselect fun _ => ?_
  refine Triple.bind (@Keeps.triple _ _ _ (note command arg) fun _ h => h) fun _ => ?_
  refine Triple.bind (hstable.transfer _).triple fun _ => ?_
  refine Triple.bind (Keeps.each (fun s => hstable.transfer _) _).triple fun _ => ?_
  refine Triple.bind (hstable.transfer _).triple fun _ => (response_last t _).pre ?_
  exact fun bus h => h.imp fun l hl => hl.symm

/-- Where `sd_wait_start_block` succeeds, it has clocked in nothing but `0xff`
and then the start token. -/
theorem wait_trace (t : List Event) (n : ℕ) :
    Triple (fun bus => bus.trace = t) (sd_wait_start_block n) fun started bus => started = true →
      ∃ waits, bus.trace
        = t ++ List.replicate waits (clocked 0xff) ++ [clocked DATA_START_BLOCK] := by
  refine Triple.bind (millis_trace t) fun t0 => ?_
  refine Triple.bind (R := fun started bus => started = true → ∃ waits, bus.trace
    = t ++ List.replicate waits (clocked 0xff) ++ [clocked bus.sd.status]) ?_ fun started => ?_
  · -- while it waits, it has clocked in nothing else
    refine (Triple.loop (I := fun bus => ∃ waits, bus.trace
      = t ++ List.replicate waits (clocked 0xff)) n ?_).pre fun bus h => ⟨0, by rw [h]; simp⟩
    refine Triple.exists_pre fun waits => Triple.bind (spi_read_trace _) fun status => ?_
    refine Triple.bind (R := fun _ bus => bus.trace
      = t ++ List.replicate waits (clocked 0xff) ++ [clocked status] ∧ bus.sd.status = status)
      (Triple.update fun bus h => ⟨h, rfl⟩) fun _ => Triple.ite (fun hff => ?_) fun _ => ?_
    · intro bus r bus' h hr
      cases hr
      dsimp only
      split
      · refine ⟨waits + 1, ?_⟩
        rw [List.replicate_succ', ← List.append_assoc]
        exact h.1.trans (by rw [hff])
      · exact fun _ => ⟨waits, by rw [h.2]; exact h.1⟩
    · exact Triple.ret fun bus h _ => ⟨waits, by rw [h.2]; exact h.1⟩
  · refine Triple.ite (fun hfailed => (error_returns _ _).post ?_) fun hstarted => ?_
    · rintro r bus rfl h
      cases h
    · refine Triple.bind (R := fun sd bus => (started = true → ∃ waits, bus.trace
        = t ++ List.replicate waits (clocked 0xff) ++ [clocked bus.sd.status]) ∧ sd = bus.sd)
        (Triple.read fun bus h => ⟨h, rfl⟩) fun sd => Triple.ite (fun _ => ?_) fun htoken => ?_
      · refine (error_returns _ _).post ?_
        rintro r bus rfl h
        cases h
      · refine Triple.ret ?_
        rintro bus ⟨h, rfl⟩ -
        rw [not_not.mp htoken] at h
        exact h (by cases started <;> simp at hstarted ⊢)

/-- Bytes that are clocked in one after another. -/
theorem times_trace {p : Prog Bus UInt8} (h : ∀ t, Triple (fun bus => bus.trace = t) p fun b bus =>
    bus.trace = t ++ [clocked b]) (t : List Event) (k : ℕ) :
    Triple (fun bus => bus.trace = t) (times p k) fun bs bus =>
      bus.trace = t ++ bs.map clocked ∧ bs.length = k := by
  refine (Triple.times (I := fun bs bus => bus.trace = t ++ bs.map clocked) k ?_ []).mono
    (fun bus h => by rw [h]; simp) fun bs bus h => h
  intro bs
  refine (h _).post fun b bus hb => ?_
  rw [hb, List.map_append, List.append_assoc, List.map_singleton]

theorem skipByte_trace (t : List Event) : Triple (fun bus => bus.trace = t) skipByte fun b bus =>
    bus.trace = t ++ [clocked b] :=
  Triple.bind (setSd_trace (· = t) _).triple fun _ => spi_read_trace t

/-- The end of a block that is read to its 512th byte: two more bytes, and
chip-select. -/
theorem endBlock_trace (t : List Event) :
    Triple (fun bus => bus.trace = t) (endBlock 2) fun _ bus =>
      ∃ c₁ c₂, bus.trace = t ++ [clocked c₁, clocked c₂, .write bus.sd.cs true] := by
  refine Triple.bind (times_trace skipByte_trace t 2) fun bs => ?_
  refine Triple.bind (R := fun _ bus => bus.trace = t ++ bs.map clocked ∧ bs.length = 2)
    (Triple.update fun _ h => h) fun _ => ?_
  refine Triple.bind (R := fun _ bus => bus.trace = t ++ bs.map clocked ++ [.write bus.sd.cs true]
    ∧ bs.length = 2) (Triple.update fun bus h => ⟨by rw [← h.1]; rfl, h.2⟩) fun _ => ?_
  refine Triple.update ?_
  rintro bus ⟨h, hlen⟩
  obtain ⟨c₁, c₂, rfl⟩ := List.length_eq_two.mp hlen
  exact ⟨c₁, c₂, h.trans (List.append_assoc _ _ _)⟩

/-- The rest of a read, from the open block on. -/
theorem readBytes_trace (t : List Event) :
    Triple (fun bus => bus.trace = t ∧ bus.sd.inBlock = true ∧ bus.sd.offset = 0) (readBytes 0 512)
      fun r bus => r.2.length = 512 ∧ ∃ c₁ c₂, bus.trace = t ++ r.2.map clocked
        ++ [clocked c₁, clocked c₂, .write bus.sd.cs true] := by
  refine Triple.bind (Keeps.read _).triple fun sd => ?_
  rw [show (0 : UInt16).toNat - sd.offset.toNat = 0 from Nat.zero_sub _]
  refine Triple.bind (R := fun _ bus => bus.trace = t ∧ bus.sd.inBlock = true
    ∧ bus.sd.offset = 0) (Triple.ret fun _ h => h) fun _ => ?_
  refine Triple.bind (R := fun bs bus => (bus.trace = t ++ bs.map clocked ∧ bs.length = 512)
    ∧ bus.sd.inBlock = true ∧ bus.sd.offset = 0) ?_ fun bs => ?_
  · have hsd : ∀ offset, Keeps (fun bus : Bus => bus.sd.inBlock = true ∧ bus.sd.offset = offset)
        sd_raw_spi_read := fun _ _ h => h
    rintro bus bs bus' ⟨ht, hin⟩ hr
    exact ⟨times_trace spi_read_trace t _ bus bs bus' ht hr,
      (Keeps.times (hsd 0) _).triple bus bs bus' hin hr⟩
  · refine Triple.bind (R := fun _ bus => (bus.trace = t ++ bs.map clocked ∧ bus.sd.inBlock = true
      ∧ bus.sd.offset = 512) ∧ bs.length = 512) (Triple.update fun bus h => ?_) fun _ => ?_
    · exact ⟨⟨h.1.1, h.2.1, by simp only [h.2.2]; rfl⟩, h.1.2⟩
    · refine Triple.bind (R := fun _ bus => (∃ c₁ c₂, bus.trace = t ++ bs.map clocked
        ++ [clocked c₁, clocked c₂, .write bus.sd.cs true]) ∧ bs.length = 512) ?_ fun _ =>
        Triple.ret fun bus h => ⟨h.2, h.1⟩
      rintro bus a bus' ⟨⟨ht, hin, hoff⟩, hlen⟩ hr
      rw [read_end_open hin, hoff] at hr
      exact ⟨endBlock_trace _ bus a bus' ht hr, hlen⟩

/-- **What `sd_raw_read_block` clocks in where it returns true.** -/
theorem openBlock_trace (before : List Event) (n : ℕ) (block : UInt32) :
    Triple (fun bus => bus.trace = before ∧ Idle bus) (openBlock n block 0 512) fun r bus =>
      r.1 = true → BlockRead before bus r.2 := by
  have hfail : ∀ {P : Bus → Prop} (error : UInt8), Triple P
      (sd_raw_error error ((false, []) : Bool × List UInt8)) fun r bus =>
        r.1 = true → BlockRead before bus r.2 := by
    intro P error
    refine (error_returns _ _).post ?_
    rintro r bus rfl h
    cases h
  refine Triple.bind (R := fun _ bus => bus.trace = before ∧ Idle bus)
    (Triple.update fun _ h => h) fun _ => ?_
  refine Triple.bind (Keeps.read _).triple fun sd => ?_
  refine Triple.bind (command_last before n _ _) fun status => ?_
  refine Triple.ite (fun _ => hfail _) fun hstatus => Triple.exists_pre fun opening => ?_
  rw [not_not.mp hstatus]
  refine Triple.bind (wait_trace _ n) fun started => ?_
  refine Triple.ite (fun _ => hfail _) fun hstarted => ?_
  have hstarted' : started = true := by simpa using hstarted
  refine (Triple.exists_pre (P := fun waits bus => bus.trace = before ++ opening ++ [clocked 0]
    ++ List.replicate waits (clocked 0xff) ++ [clocked DATA_START_BLOCK]) fun waits => ?_).pre
    fun bus h => h hstarted'
  refine Triple.bind (R := fun _ bus => bus.trace = before ++ opening ++ [clocked 0]
    ++ List.replicate waits (clocked 0xff) ++ [clocked DATA_START_BLOCK] ∧ bus.sd.inBlock = true
    ∧ bus.sd.offset = 0) (Triple.update fun bus h => ⟨h, rfl, rfl⟩) fun _ => ?_
  refine (readBytes_trace _).post ?_
  rintro r bus ⟨hlen, c₁, c₂, h⟩ -
  exact ⟨hlen, opening, waits, c₁, c₂, h⟩

/-! ## Any sequence of calls -/

/-- A call of the driver. -/
inductive Call
  | setup (pinCs : UInt8)
  | readBlock (block : UInt32)
  | writeBlock (block : UInt32) (source : Block)
  | cardSize
  | erase (firstBlock lastBlock : UInt32)
  | dmaWriteBlock (dma : sd_raw_dma_t) (block : UInt32)
  | dmaReadBlock (dma : sd_raw_dma_t) (block : UInt32)

/-- What a call returns. -/
inductive Result
  | status (ok : Bool)
  | read (ok : Bool) (destiny : List UInt8)
  | size (blocks : UInt32)

/-- The driver makes a call, with `n` rounds for each of its loops. -/
def Call.run (n : ℕ) : Call → Prog Bus Result
  | .setup pinCs => do
    let ok ← sd_raw_initialize n pinCs
    pure (.status ok)
  | .readBlock block => do
    let r ← sd_raw_read_block n block
    pure (.read r.1 r.2)
  | .writeBlock block source => do
    let ok ← sd_raw_write_block n block source
    pure (.status ok)
  | .cardSize => do
    let blocks ← sd_raw_card_size n
    pure (.size blocks)
  | .erase firstBlock lastBlock => do
    let ok ← sd_raw_erase n firstBlock lastBlock
    pure (.status ok)
  | .dmaWriteBlock dma block => do
    let ok ← sd_raw_dma_write_block n dma block
    pure (.status ok)
  | .dmaReadBlock dma block => do
    let ok ← sd_raw_dma_read_block n dma block
    pure (.status ok)

/-- The states between calls, from a zeroed `sd_raw_t` on: any calls, any
answers, any clock, as long as the calls return. -/
inductive Between : Bus → Prop
  | start (responses : ℕ → UInt8) (clock : ℕ → UInt32) : Between (zeroed responses clock)
  | call {bus bus' : Bus} {n : ℕ} {c : Call} {r : Result} (between : Between bus)
      (returned : c.run n bus = (some r, bus')) : Between bus'

/-- One call. -/
theorem released_run (n : ℕ) (c : Call) : Triple Idle (c.run n) fun _ => Released := by
  have hret : ∀ {α : Type} {p : Prog Bus α} (f : α → Result), Triple Idle p (fun _ => Released) →
      Triple Idle (p >>= fun a => pure (f a)) fun _ => Released :=
    fun f h => Triple.bind h fun _ => Triple.ret fun _ h => h
  cases c with
  | setup pinCs => exact hret _ ( released_initialize n pinCs)
  | readBlock block => exact hret _ (released_read_block n block)
  | writeBlock block source => exact hret _ (released_write_block n block source)
  | cardSize => exact hret _ (released_card_size n)
  | erase firstBlock lastBlock => exact hret _ (released_erase n firstBlock lastBlock)
  | dmaWriteBlock dma block => exact hret _ (released_dma_write_block n dma block)
  | dmaReadBlock dma block => exact hret _ (released_dma_read_block n dma block)

/-- Between calls no block is open. -/
theorem Between.idle {bus : Bus} (h : Between bus) : Idle bus := by
  induction h with
  | start responses clock => rfl
  | call _ returned ih => exact (released_run _ _ _ _ _ ih returned).1

/-- **The bus is released after every call**, whatever its result, and a read
that returns true has stored the 512 bytes after the start token and clocked
exactly two more. -/
theorem bus_released {bus bus' : Bus} {n : ℕ} {c : Call} {r : Result} (between : Between bus)
    (returned : c.run n bus = (some r, bus')) :
    Released bus' ∧ ∀ destiny, r = .read true destiny → BlockRead bus.trace bus' destiny := by
  refine ⟨released_run n c bus r bus' between.idle returned, ?_⟩
  rintro destiny rfl
  cases c with
  | readBlock block =>
    obtain ⟨⟨ok, stored⟩, b, hread, hr⟩ := bind_returned returned
    cases hr
    rw [read_block_idle between.idle] at hread
    exact openBlock_trace bus.trace n block bus _ _ ⟨rfl, between.idle⟩ hread rfl
  | _ =>
    obtain ⟨a, b, -, hr⟩ := bind_returned returned
    cases hr

/-- A card that answers at once, and has sevens in every block. -/
def sevens (i : ℕ) : UInt8 := if i < 7 then 0xff else if i = 7 then 0 else if i = 8 then 0xFE else 7

set_option maxRecDepth 100000 in
theorem read_sevens : (sd_raw_read_block 1 0 (zeroed sevens fun _ => 0)).1
    = some (true, List.replicate 512 7) := by
  decide +kernel

theorem bus_released_sevens : ∃ bus', Released bus' ∧
    BlockRead [] bus' (List.replicate 512 7) := by
  rcases h : sd_raw_read_block 1 0 (zeroed sevens fun _ => 0) with ⟨r, bus'⟩
  have hr : r = some (true, List.replicate 512 7) := by rw [← read_sevens, h]
  subst hr
  have hrun : (Call.readBlock 0).run 1 (zeroed sevens fun _ => 0)
      = (some (.read true (List.replicate 512 7)), bus') := bind_run_some h
  have hreleased := bus_released (.start sevens fun _ => 0) hrun
  exact ⟨bus', hreleased.1, hreleased.2 _ rfl⟩

end Fkfs.Release
