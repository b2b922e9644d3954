/-
The DMA path against the plain one.

From the command on, `sd_raw_dma_write_block` is `sd_raw_write_block` with the
block clocked out by a job: the same bytes and the same result, whatever the
card answers (`write_alike`). What differs is the address in the command.
`sd_raw_write_block` and `sd_raw_read_block` shift it by nine for a card that is
not SDHC; the DMA path passes the block number as it is. So the two address the
same block of an SDHC card, and block 0 of any other, and nothing else
(`dma_alike_iff`).

The frame of a command tells its argument (`frame_inj`) and what follows only
adds to what was sent, so that the bytes differ whenever the addresses do.
-/
import Fkfs.Release

set_option autoImplicit false

namespace Fkfs.DmaPaths

open Programs
open Fkfs.Layout Fkfs.Driver Fkfs.Release

/-! ## What is sent -/

theorem sent_transfer (bus : Bus) (value received : UInt8) :
    (bus.add (.transfer value received)).sent = bus.sent ++ [value] := by
  simp [Bus.sent, Bus.add]

theorem sent_write (bus : Bus) (pin : UInt8) (high : Bool) :
    (bus.add (.write pin high)).sent = bus.sent := by
  simp [Bus.sent, Bus.add]

theorem stable_sent (u : List UInt8) : Stable fun bus => u <+: bus.sent where
  transfer := fun value bus h => by
    change u <+: (bus.add (.transfer value _)).sent
    rw [sent_transfer]
    exact h.trans (List.prefix_append _ _)
  millis := fun _ => id
  digitalWrite := fun high bus h => by
    change u <+: (bus.add (.write _ high)).sent
    rw [sent_write]
    exact h
  setSd := fun _ _ _ => id

/-- Ending a block is kept through if forgetting it is. -/
theorem read_end_kept {I : Bus → Prop} (h : Stable I)
    (hclose : Keeps I (setSd fun sd => { sd with inBlock := false })) :
    Keeps I sd_raw_read_end := by
  refine Keeps.bind (Keeps.read _) fun sd => Keeps.ite ?_ (Keeps.ret _)
  refine Keeps.bind (Keeps.times ?_ _) fun _ => Keeps.bind (h.setSd _ fun _ => rfl) fun _ => ?_
  · exact Keeps.bind (h.setSd _ fun _ => rfl) fun _ => h.spi_read
  · exact Keeps.bind (h.digitalWrite _) fun _ => hclose

theorem command_sent (u : List UInt8) (n : ℕ) (command : UInt8) (arg : UInt32) :
    Keeps (fun bus => u <+: bus.sent) (sd_raw_command n command arg) :=
  have h := stable_sent u
  h.command (read_end_kept h fun _ => id) (fun _ _ _ => id) n command arg

/-! ## The frame of a command -/

/-- The five bytes of a frame that say what is asked for. -/
def frame (command : UInt8) (arg : UInt32) : List UInt8 :=
  [command ||| 0x40, (arg >>> 24).toUInt8, (arg >>> 16).toUInt8, (arg >>> 8).toUInt8,
    (arg >>> 0).toUInt8]

/-- A frame tells its argument. -/
theorem frame_inj {command : UInt8} {arg arg' : UInt32}
    (h : frame command arg = frame command arg') : arg = arg' := by
  simp only [frame, List.cons.injEq, and_true, true_and] at h
  obtain ⟨h₃, h₂, h₁, h₀⟩ := h
  have hbyte : ∀ {a b : UInt32} {s : UInt32}, (a >>> s).toUInt8 = (b >>> s).toUInt8 →
      (a.toNat >>> (s.toNat % 32)) % 256 = (b.toNat >>> (s.toNat % 32)) % 256 := by
    intro a b s hab
    have := congrArg UInt8.toNat hab
    simpa using this
  have e₃ := hbyte h₃
  have e₂ := hbyte h₂
  have e₁ := hbyte h₁
  have e₀ := hbyte h₀
  simp [Nat.shiftRight_eq_div_pow] at e₃ e₂ e₁ e₀
  apply UInt32.toNat_inj.mp
  have ha := arg.toNat_lt
  have hb := arg'.toNat_lt
  omega

/-- What is sent begins with the frame, and then there is only more. -/
theorem issue_sent (u : List UInt8) (command : UInt8) (arg : UInt32) :
    Triple (fun bus => bus.sent = u) (issue command arg) fun _ bus =>
      u ++ frame command arg <+: bus.sent := by
  have hsend : ∀ v value, Triple (fun bus => bus.sent = v) (transfer value) fun _ bus =>
      bus.sent = v ++ [value] := by
    rintro v value bus a bus' rfl hr
    cases hr
    exact sent_transfer bus value _
  refine Triple.bind (R := fun _ bus => bus.sent = u) (Triple.update fun _ h => h) fun _ => ?_
  refine Triple.bind (hsend u _) fun _ => ?_
  refine Triple.bind (R := fun _ bus => u ++ frame command arg <+: bus.sent) ?_ fun _ => ?_
  · refine Triple.bind (hsend _ _) fun _ => Triple.bind (hsend _ _) fun _ => ?_
    refine Triple.bind (hsend _ _) fun _ => Triple.bind (hsend _ _) fun _ => Triple.ret ?_
    intro bus h
    rw [h, List.append_assoc, List.append_assoc, List.append_assoc, List.append_assoc]
    exact List.prefix_refl _
  · refine Triple.bind ((stable_sent _).transfer _).triple fun _ => ?_
    exact ((stable_sent _).response _).triple

/-- One program after a command, run for two addresses: if the same is sent, the
addresses are the same. -/
theorem arg_eq_of_sent {n : ℕ} {command : UInt8} {arg arg' : UInt32} {α : Type}
    {f : UInt8 → Prog Bus α} {bus b b' : Bus} {a a' : α}
    (h : (sd_raw_command n command arg >>= f) bus = (some a, b))
    (h' : (sd_raw_command n command arg' >>= f) bus = (some a', b')) (hsent : b.sent = b'.sent)
    (hf : ∀ u status, Keeps (fun bus => u <+: bus.sent) (f status)) : arg = arg' := by
  simp only [sd_raw_command, bind_assoc] at h h'
  obtain ⟨selected, t, hselect, h⟩ := bind_returned h
  rw [bind_run_some hselect] at h'
  have hframe : ∀ arg, Triple (fun bus => bus.sent = t.sent) (issue command arg >>= f) fun _ bus =>
      t.sent ++ frame command arg <+: bus.sent := fun arg =>
    Triple.bind (issue_sent t.sent command arg) fun status => (hf _ status).triple
  have hp : t.sent ++ frame command arg <+: b.sent := hframe arg t a b rfl h
  have hp' : t.sent ++ frame command arg' <+: b'.sent := hframe arg' t a' b' rfl h'
  rw [← hsent] at hp'
  have heq := (List.prefix_of_prefix_length_le hp hp' (by simp [frame])).eq_of_length
    (by simp [frame])
  exact frame_inj (List.append_cancel_left heq)

/-! ## Addresses -/

/-- A block has its own number for an address on an SDHC card, and if it is
block 0. -/
theorem address_eq_iff (sd : sd_raw_t) (block : UInt32) :
    sd.address block = block ↔ sd.type = SD_CARD_TYPE_SDHC ∨ block = 0 := by
  unfold sd_raw_t.address
  by_cases h : sd.type = SD_CARD_TYPE_SDHC
  · simp [h]
  · rw [if_pos h]
    constructor
    · intro hshift
      right
      have hnat := congrArg UInt32.toNat hshift
      have hlt := block.toNat_lt
      simp [Nat.shiftLeft_eq] at hnat
      apply UInt32.toNat_inj.mp
      rw [UInt32.toNat_zero]
      omega
    · rintro (hsdhc | rfl)
      · exact absurd hsdhc h
      · rfl

/-! ## Writing -/

/-- **From the command on the two write paths are one.** -/
theorem write_alike (n : ℕ) (address : UInt32) (source : Block) :
    Alike Bus.sent (sd_raw_dma_write_block n ⟨source⟩ address) (writeAt n address source) := by
  refine Alike.bind fun status => Alike.ite (Alike.refl _) ?_
  simp only [sd_raw_write_data, bind_assoc]
  refine Alike.bind fun _ => Alike.bind fun _ => Alike.bind fun _ => Alike.bind fun _ => ?_
  refine Alike.bind fun status => Alike.bind fun _ => ?_
  by_cases hstatus : status &&& DATA_RES_MASK ≠ DATA_RES_ACCEPTED
  · -- the plain path deselects the card twice
    rw [if_pos hstatus, if_pos hstatus]
    exact fun bus => ⟨rfl, (sent_write ((sd_raw_error SD_CARD_ERROR_WRITE false) bus).2 _ _).symm⟩
  · rw [if_neg hstatus, if_neg hstatus]
    exact Alike.refl _

/-- `sd_raw_dma_write_block` and `sd_raw_write_block` of the same bytes return
the same and send the same. -/
def WritesAlike (n : ℕ) (dma : sd_raw_dma_t) (block : UInt32) (bus : Bus) : Prop :=
  (sd_raw_dma_write_block n dma block bus).1
      = (sd_raw_write_block n block dma.source_memory bus).1
    ∧ (sd_raw_dma_write_block n dma block bus).2.sent
      = (sd_raw_write_block n block dma.source_memory bus).2.sent

theorem writes_alike_of {n : ℕ} {dma : sd_raw_dma_t} {block : UInt32} {bus : Bus}
    (h : bus.sd.address block = block) : WritesAlike n dma block bus := by
  have hplain : sd_raw_write_block n block dma.source_memory bus
      = writeAt n block dma.source_memory bus := by
    change writeAt n (bus.sd.address block) dma.source_memory bus = _
    rw [h]
  rw [WritesAlike, hplain]
  exact write_alike n block dma.source_memory bus

theorem address_of_writes_alike {n : ℕ} {dma : sd_raw_dma_t} {block : UInt32} {bus bus' : Bus}
    {ok : Bool} (returned : sd_raw_write_block n block dma.source_memory bus = (some ok, bus'))
    (halike : WritesAlike n dma block bus) : bus.sd.address block = block := by
  obtain ⟨hok, hsent⟩ := halike
  -- the DMA write is the plain write from its command on, at `block`
  obtain ⟨hok', hsent'⟩ := write_alike n block dma.source_memory bus
  rcases hdma : writeAt n block dma.source_memory bus with ⟨r, b⟩
  rw [hdma] at hok' hsent'
  rw [returned] at hok hsent
  obtain rfl : r = some ok := hok'.symm.trans hok
  have hplain : writeAt n (bus.sd.address block) dma.source_memory bus = (some ok, bus') := returned
  refine arg_eq_of_sent hplain hdma (hsent.symm.trans hsent') fun u status => ?_
  have h := stable_sent u
  refine Keeps.ite (h.error _ _) (Keeps.bind (h.write_data _ _) fun written => ?_)
  refine Keeps.ite (h.error _ _) (Keeps.bind (h.flush n _) fun flushed => ?_)
  refine Keeps.ite (h.error _ _) (Keeps.bind (h.check_status (command_sent u) n) fun failed => ?_)
  exact Keeps.ite (h.error _ _) (Keeps.bind (h.digitalWrite _) fun _ => Keeps.ret _)

/-! ## Reading -/

/-- `sd_raw_dma_read_block` and `sd_raw_read_block` send the same commands. -/
def ReadsAlike (n : ℕ) (dma : sd_raw_dma_t) (block : UInt32) (bus : Bus) : Prop :=
  (sd_raw_dma_read_block n dma block bus).2.commands = (sd_raw_read_block n block bus).2.commands

/-- `sd->block = block`. -/
def setBlock (block : UInt32) (bus : Bus) : Bus := { bus with sd := { bus.sd with block := block } }

/-- Selecting the card does not look at `sd->block`. -/
theorem select_commutes (n : ℕ) (block : UInt32) {bus : Bus} (h : Idle bus) :
    selectCard n (setBlock block bus)
      = ((selectCard n bus).1, setBlock block (selectCard n bus).2) := by
  have hflush : Commutes (setBlock block)
      (do sd_raw_cs_low; sd_raw_flush n 300 : Prog Bus Bool) := by
    refine Commutes.bind (fun _ => rfl) fun _ => Commutes.bind (fun _ => rfl) fun t0 => ?_
    refine Commutes.loop (Commutes.bind (fun _ => rfl) fun value => ?_) n
    exact Commutes.ite (Commutes.ret _) (Commutes.bind (fun _ => rfl) fun now => Commutes.ret _)
  have hblock : Idle (setBlock block bus) := h
  rw [selectCard, bind_run_some (read_end_idle h), bind_run_some (read_end_idle hblock)]
  exact hflush bus

/-- A command adds itself to the commands, and nothing that follows it here adds
another. -/
theorem commands_of_command {n : ℕ} {command : UInt8} {arg : UInt32} {α : Type}
    {f : UInt8 → Prog Bus α} {bus t : Bus} {selected : Bool}
    (hselect : selectCard n bus = (some selected, t))
    (hf : ∀ c status, Keeps (fun bus => bus.commands = c) (f status)) :
    ((sd_raw_command n command arg >>= f) bus).2.commands = t.commands ++ [(command, arg)] := by
  have hc := stable_commands (t.commands ++ [(command, arg)])
  rw [sd_raw_command, bind_assoc, bind_run_some hselect, issue, bind_assoc,
    bind_run_some (show note command arg t
      = (some ⟨⟩, { t with commands := t.commands ++ [(command, arg)] }) from rfl)]
  refine Keeps.bind (Keeps.bind (hc.transfer _) fun _ => Keeps.bind ?_ fun _ => ?_) (hf _) _ rfl
  · exact Keeps.each (fun s => hc.transfer _) _
  · exact Keeps.bind (hc.transfer _) fun _ => hc.response _

theorem readAt_commands {n : ℕ} {address : UInt32} {bus t : Bus} {selected : Bool}
    (hselect : selectCard n bus = (some selected, t)) :
    (readAt n address 0 512 bus).2.commands = t.commands ++ [(CMD17, address)] := by
  refine commands_of_command hselect fun c status => ?_
  have h := stable_commands c
  refine Keeps.ite (h.error _ _) (Keeps.bind (h.wait_start_block n) fun started => ?_)
  refine Keeps.ite (h.error _ _) (Keeps.bind (Keeps.update fun _ => id) fun _ => ?_)
  refine Keeps.bind (Keeps.read _) fun sd => Keeps.bind (Keeps.times ?_ _) fun _ => ?_
  · exact Keeps.bind h.spi_read fun _ => h.setSd _ fun _ => rfl
  · refine Keeps.bind (Keeps.times h.spi_read _) fun destiny => ?_
    refine Keeps.bind (h.setSd _ fun _ => rfl) fun _ => ?_
    exact Keeps.bind (read_end_kept h fun _ => id) fun _ => Keeps.ret _

theorem dma_read_commands {n : ℕ} {dma : sd_raw_dma_t} {block : UInt32} {bus t : Bus}
    {selected : Bool} (hselect : selectCard n bus = (some selected, t)) :
    (sd_raw_dma_read_block n dma block bus).2.commands = t.commands ++ [(CMD17, block)] := by
  refine commands_of_command hselect fun c status => ?_
  have h := stable_commands c
  refine Keeps.ite (h.error _ _) (Keeps.bind (h.wait_start_block n) fun started => ?_)
  refine Keeps.ite (h.error _ _) (Keeps.bind (h.bytes _) fun _ => ?_)
  exact Keeps.bind (h.digitalWrite _) fun _ => Keeps.ret _

theorem reads_alike_iff {n : ℕ} {dma : sd_raw_dma_t} {block : UInt32} {bus bus' : Bus}
    {r : Bool × List UInt8} (idle : Idle bus)
    (returned : sd_raw_read_block n block bus = (some r, bus')) :
    ReadsAlike n dma block bus ↔ bus.sd.address block = block := by
  have hplain : sd_raw_read_block n block bus
      = readAt n (bus.sd.address block) 0 512 (setBlock block bus) := read_block_idle idle n block
  -- both select the card, and it answers both in the same way
  obtain ⟨status, b, hcommand, -⟩ := bind_returned (hplain.symm.trans returned)
  obtain ⟨selected, t, hselect, -⟩ := bind_returned hcommand
  have hboth := select_commutes n block idle
  rw [hselect] at hboth
  rcases hdma : selectCard n bus with ⟨r', t'⟩
  rw [hdma] at hboth
  obtain ⟨rfl, rfl⟩ : some selected = r' ∧ t = setBlock block t' := Prod.mk.inj hboth
  rw [ReadsAlike, hplain, readAt_commands hselect, dma_read_commands hdma]
  constructor
  · intro h
    have hlast := List.append_cancel_left (show t'.commands ++ _ = t'.commands ++ _ from h)
    simp at hlast
    exact hlast.symm
  · intro h
    rw [h]
    rfl

/-! ## The two paths -/

/-- **The DMA path is the plain path exactly where a block is addressed by its
number**: on an SDHC card, and for block 0. -/
theorem dma_alike_iff {n : ℕ} {dma : sd_raw_dma_t} {block : UInt32} {bus wrote fetched : Bus}
    {ok : Bool} {r : Bool × List UInt8} (between : Between bus)
    (written : sd_raw_write_block n block dma.source_memory bus = (some ok, wrote))
    (readBack : sd_raw_read_block n block bus = (some r, fetched)) :
    (WritesAlike n dma block bus ↔ bus.sd.type = SD_CARD_TYPE_SDHC ∨ block = 0)
      ∧ (ReadsAlike n dma block bus ↔ bus.sd.type = SD_CARD_TYPE_SDHC ∨ block = 0) := by
  rw [reads_alike_iff between.idle readBack, ← address_eq_iff]
  exact ⟨⟨address_of_writes_alike written, writes_alike_of⟩, Iff.rfl⟩

/-- An SD2 card, byte by byte: it is initialized, and answers the read or the
write that follows at once. -/
def sd2Answers (i : ℕ) : UInt8 :=
  if i ∈ [45, 53, 54, 65, 590, 591] then 0
  else if i ∈ [17, 25, 37] then 1
  else if i = 29 then 0xAA
  else if i = 66 then DATA_START_BLOCK
  else if i = 581 then DATA_RES_ACCEPTED
  else 0xff

/-- The driver once it has initialized that card. -/
def sd2 : Bus := ( sd_raw_initialize 1 7 (zeroed sd2Answers fun _ => 0)).2

theorem sd2_between : Between sd2 := by
  have hready : ( sd_raw_initialize 1 7 (zeroed sd2Answers fun _ => 0)).1 = some true := by
    decide +kernel
  exact .call (.start sd2Answers fun _ => 0) (c := .setup 7) (n := 1) (r := .status true)
    (bind_run_some (returned_of hready))

set_option maxRecDepth 100000 in
theorem sd2_returns : (sd_raw_write_block 1 1 zeroBlock sd2).1 = some true
    ∧ (sd_raw_read_block 1 1 sd2).1 = some (true, List.replicate 512 0xff) := by
  decide +kernel

theorem dma_alike_iff_sd2 :
    (WritesAlike 1 ⟨zeroBlock⟩ 1 sd2 ↔ sd2.sd.type = SD_CARD_TYPE_SDHC ∨ (1 : UInt32) = 0)
      ∧ (ReadsAlike 1 ⟨zeroBlock⟩ 1 sd2 ↔ sd2.sd.type = SD_CARD_TYPE_SDHC ∨ (1 : UInt32) = 0) :=
  dma_alike_iff sd2_between (returned_of sd2_returns.1) (returned_of sd2_returns.2)

set_option maxRecDepth 100000 in
/-- Block 1 of that card: where the plain path says 512, the DMA path says 1. All
calls return true. -/
theorem dma_addresses_bytes : Between sd2 ∧ sd2.sd.type = SD_CARD_TYPE_SD2
    ∧ (sd_raw_write_block 1 1 zeroBlock sd2).1 = some true
    ∧ (sd_raw_dma_write_block 1 ⟨zeroBlock⟩ 1 sd2).1 = some true
    ∧ (sd_raw_dma_write_block 1 ⟨zeroBlock⟩ 1 sd2).2.sent
      ≠ (sd_raw_write_block 1 1 zeroBlock sd2).2.sent
    ∧ (sd_raw_read_block 1 1 sd2).2.commands = sd2.commands ++ [(CMD17, 512)]
    ∧ (sd_raw_dma_read_block 1 ⟨zeroBlock⟩ 1 sd2).2.commands = sd2.commands ++ [(CMD17, 1)] := by
  refine ⟨sd2_between, ?_⟩
  decide +kernel

end Fkfs.DmaPaths
