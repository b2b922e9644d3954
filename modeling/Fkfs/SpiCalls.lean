/-
The driver's calls as dialogues with the card.

A command is six bytes out and the answer in, and the card keeps to the eight
bytes it has for it, so the 256 the driver waits for are enough: whatever comes
back without its top bit is the answer, and the card is where that answer leaves
it (`says_command`). From there a read is a token, 512 bytes and a CRC, a write
the same the other way, the verdict on it, the wait for the card to have
programmed it and `CMD13` to hear whether it has.

What each call comes to is stated over the card's blocks: the bytes a read
returns are those the card holds, and a write that reports success has stored its
source. A call that fails says less, and how much depends on where.
-/
import Fkfs.Spi
import Fkfs.Release

set_option autoImplicit false

namespace Fkfs.Spi

open Bytes Programs Dialogues
open Fkfs.Layout Fkfs.Driver Fkfs.Release

/-! ## What adds to the wires -/

theorem adds_read_end (t : List Event) : Keeps (fun bus => t <+: bus.trace) sd_raw_read_end := by
  have h := stable_trace t
  refine Keeps.bind (Keeps.read _) fun sd => Keeps.ite ?_ (Keeps.ret _)
  refine Keeps.bind (Keeps.times ?_ _) fun _ => Keeps.bind (fun _ => id) fun _ => ?_
  · exact Keeps.bind (fun _ => id) fun _ => h.spi_read
  · exact Keeps.bind (h.digitalWrite _) fun _ => fun _ => id

theorem adds_command (t : List Event) (n : ℕ) (command : UInt8) (arg : UInt32) :
    Keeps (fun bus => t <+: bus.trace) (sd_raw_command n command arg) :=
  (stable_trace t).command (adds_read_end t) (fun _ _ _ => id) n command arg

theorem adds_readBytes (t : List Event) (offset size : UInt16) :
    Keeps (fun bus => t <+: bus.trace) (readBytes offset size) := by
  have h := stable_trace t
  refine Keeps.bind (Keeps.read _) fun sd => Keeps.bind (Keeps.times ?_ _) fun _ => ?_
  · exact Keeps.bind h.spi_read fun _ => fun _ => id
  · refine Keeps.bind (Keeps.times h.spi_read _) fun _ => Keeps.bind (fun _ => id) fun _ => ?_
    exact Keeps.bind (adds_read_end t) fun _ => Keeps.ret _

theorem adds_readAt (t : List Event) (n : ℕ) (address : UInt32) (offset size : UInt16) :
    Keeps (fun bus => t <+: bus.trace) (readAt n address offset size) := by
  have h := stable_trace t
  refine Keeps.bind (adds_command t n _ _) fun _ => Keeps.ite (h.error _ _) ?_
  refine Keeps.bind (h.wait_start_block n) fun _ => Keeps.ite (h.error _ _) ?_
  exact Keeps.bind (fun _ => id) fun _ => adds_readBytes t _ _

theorem adds_writeAt (t : List Event) (n : ℕ) (address : UInt32) (source : Block) :
    Keeps (fun bus => t <+: bus.trace) (writeAt n address source) := by
  have h := stable_trace t
  refine Keeps.bind (adds_command t n _ _) fun _ => Keeps.ite (h.error _ _) ?_
  refine Keeps.bind (h.write_data _ _) fun _ => Keeps.ite (h.error _ _) ?_
  refine Keeps.bind (h.flush n _) fun _ => Keeps.ite (h.error _ _) ?_
  refine Keeps.bind (h.check_status (adds_command t) n) fun _ => Keeps.ite (h.error _ _) ?_
  exact Keeps.bind (h.digitalWrite _) fun _ => Keeps.ret _

/-! ## Listening -/

section Listening

variable {K : SpiCard} {sd : sd_raw_t}

theorem to_listening (hp : K.phase = .listening []) : K.to (.listening []) = K := by
  rw [SpiCard.to, ← hp]

/-- A card that is listening hears nothing in `0xff`. -/
theorem says_nothing (hsel : K.selected = true) (hp : K.phase = .listening []) :
    Says (Facing (Eq K) sd) sd_raw_spi_read fun r => Facing (fun c => r = 0xff ∧ K = c) sd := by
  refine (says_transfer hsel 0xff).post ?_
  rintro r c bus ⟨hx, hsd⟩
  rw [Exchange, hp] at hx
  exact ⟨⟨hx.1, ((hx.2.trans (to_listening hp))).symm⟩, hsd⟩

theorem says_flush (hsel : K.selected = true) (hp : K.phase = .listening []) (n : ℕ)
    (timeoutMs : UInt16) :
    Says (Facing (Eq K) sd) (sd_raw_flush n timeoutMs) fun _ => Facing (Eq K) sd := by
  refine Talk.bind says_millis fun t0 => Talk.loop n ?_
  refine Talk.bind (says_nothing hsel hp) fun value => ?_
  refine Talk.ite (fun _ => Talk.ret fun _ _ h => ⟨h.1.2, h.2⟩) fun _ => ?_
  refine Talk.bind says_millis fun now => Talk.ret fun c bus h => ?_
  have hend : Facing (Eq K) sd c bus := ⟨h.1.2, h.2⟩
  split
  · exact hend
  · exact hend

/-- From a card that does not answer, the driver hears that it does not. -/
theorem says_silence (hsel : K.selected = true) (hp : K.phase = .listening []) (i : ℕ) :
    Says (Facing (Eq K) sd) (awaitResponse i) fun r =>
      Facing (fun c => r = 0xff ∧ K = c) { sd with status := r } := by
  induction i generalizing sd with
  | zero =>
    refine Talk.bind (says_nothing hsel hp) fun r => ?_
    exact Talk.bind (says_status r) fun _ => Talk.ret fun _ _ => id
  | succ i ih =>
    refine Talk.bind (says_nothing hsel hp) fun r => Talk.bind (says_status r) fun _ => ?_
    refine Talk.ite (fun _ => ?_) fun _ => Talk.ret fun _ _ => id
    have hrest : Says (Facing (Eq K) { sd with status := r }) (awaitResponse i) fun r =>
        Facing (fun c => r = 0xff ∧ K = c) { sd with status := r } := ih
    exact hrest.pre fun c bus h => ⟨h.1.2, h.2⟩

end Listening

/-! ## Commands -/

/-- The CRC `sd_raw_command` sends. -/
def crcOf (command : UInt8) : UInt8 :=
  if command = CMD8 then 0x87 else if command = CMD0 then 0x95 else 0xff

/-- The bytes of a command. -/
def commandBytes (command : UInt8) (arg : UInt32) : List UInt8 :=
  [command ||| 0x40, (arg >>> 24).toUInt8, (arg >>> 16).toUInt8, (arg >>> 8).toUInt8,
    (arg >>> 0).toUInt8, crcOf command]

/-- What the card makes of them. -/
def sentFrame (command : UInt8) (arg : UInt32) : Frame := frame (commandBytes command arg)

/-- A command has six bits. -/
def SixBits (command : UInt8) : Prop :=
  (command ||| 0x40) &&& 0x3f = command ∧ (command ||| 0x40) &&& 0xc0 = 0x40

instance (command : UInt8) : Decidable (SixBits command) := by
  unfold SixBits
  infer_instance

theorem sent_command {command : UInt8} (h : SixBits command) (arg : UInt32) :
    (sentFrame command arg).command = command := h.1

/-- The four bytes are the argument. -/
theorem sent_arg (command : UInt8) (arg : UInt32) : (sentFrame command arg).arg = arg := by
  change UInt32.ofNat ((((0 * 256 + (arg >>> 24).toUInt8.toNat) * 256 + (arg >>> 16).toUInt8.toNat)
    * 256 + (arg >>> 8).toUInt8.toNat) * 256 + (arg >>> 0).toUInt8.toNat) = arg
  have h : arg.toNat < 4294967296 := arg.toNat_lt
  apply UInt32.toNat_inj.mp
  rw [UInt32.toNat_ofNat']
  simp only [UInt32.toNat_toUInt8, UInt32.toNat_shiftRight, UInt32.reduceToNat, Nat.reduceMod,
    Nat.shiftRight_eq_div_pow, Nat.reducePow]
  omega

/-- The two constants are the CRCs of the frames they are sent with. -/
theorem sent_sound_cmd0 : (sentFrame CMD0 0).sound = true := by decide +kernel

theorem sent_sound_cmd8 : (sentFrame CMD8 0x1aa).sound = true := by decide +kernel

/-- An answer has its top bit clear. -/
theorem Obeys.top {c c' : SpiCard} {f : Frame} {r : UInt8} (h : Obeys c f r c') :
    r &&& 0x80 = 0 := by
  cases h with
  | refused r hr he => exact hr
  | _ => decide

/-- What an answer leaves does not depend on the phase it came in. -/
theorem Obeys.phase {c c' : SpiCard} {f : Frame} {r : UInt8} {phase : Phase}
    (h : Obeys (c.to phase) f r c') : Obeys c f r c' := by
  cases h with
  | refused r hr he => exact .refused r hr he
  | goIdle hf hs => exact .goIdle hf hs
  | interface hf hs hm b₀ b₁ b₂ => exact Obeys.interface (c := c) hf hs hm b₀ b₁ b₂
  | appIdle hf hm => exact .appIdle hf hm
  | appReady hf hm => exact .appReady hf hm
  | busy hf ha hm => exact .busy hf ha hm
  | initialized hf ha hm hcs => exact .initialized hf ha hm hcs
  | ocrIdle hf hm b₀ b₁ b₂ b₃ => exact Obeys.ocrIdle (c := c) hf hm b₀ b₁ b₂ b₃
  | ocr hf hm b₀ b₁ b₂ b₃ hb => exact Obeys.ocr (c := c) hf hm b₀ b₁ b₂ b₃ hb
  | register hf hm crc₀ crc₁ => exact Obeys.register (c := c) hf hm crc₀ crc₁
  | status hf hm second hfail => exact Obeys.status (c := c) hf hm second hfail
  | read hf hm crc₀ crc₁ => exact Obeys.read (c := c) hf hm crc₀ crc₁
  | write hf hm => exact .write hf hm

/-- The answer to a command: from a card nobody has spoken to yet there may be none. -/
def Answered (K : SpiCard) (f : Frame) (r : UInt8) (c : SpiCard) : Prop :=
  Obeys K f r c ∨ (K.mode = .off ∧ r &&& 0x80 ≠ 0 ∧ c = K.to (.listening []))

section Commands

variable {K : SpiCard} {sd : sd_raw_t}

/-- One more byte of a frame that is not complete with it. -/
theorem says_frame_byte (hsel : K.selected = true) (first : UInt8) (bytes : List UInt8)
    (hlen : bytes.length < 4) (value : UInt8) :
    Says (Facing (Eq (K.to (.listening (first :: bytes)))) sd) (sd_raw_spi_write value) fun _ =>
      Facing (Eq (K.to (.listening (first :: (bytes ++ [value]))))) sd := by
  refine (says_transfer (K := K.to (.listening (first :: bytes))) hsel value).post ?_
  rintro r c bus ⟨⟨-, hc⟩, hsd⟩
  refine ⟨?_, hsd⟩
  rw [hc, if_neg (by simp), if_pos (by simp; omega)]
  rfl

/-- **The answer comes in time**: what the driver takes for it is it. -/
theorem says_answer (hsel : K.selected = true) (f : Frame) (i left : ℕ) (hleft : left ≤ i) :
    Says (Facing (Eq (K.to (.answering f left))) sd) (awaitResponse i) fun r =>
      Facing (Answered K f r) { sd with status := r } := by
  induction i generalizing left sd with
  | zero =>
    refine Talk.bind (says_transfer (K := K.to (.answering f left)) hsel 0xff) fun r => ?_
    refine Talk.bind (says_status r) fun _ => Talk.ret ?_
    rintro c bus ⟨⟨-, hpos, -⟩ | ⟨hr, hm, hc⟩ | h, hsd⟩
    · omega
    · exact ⟨Or.inr ⟨hm, hr, hc⟩, hsd⟩
    · exact ⟨Or.inl h.phase, hsd⟩
  | succ i ih =>
    refine Talk.bind (says_transfer (K := K.to (.answering f left)) hsel 0xff) fun r => ?_
    refine Talk.bind (says_status r) fun _ => Talk.ite (fun htop => ?_) fun htop => Talk.ret ?_
    · have hdelay : Says (Facing (Eq (K.to (.answering f (left - 1)))) { sd with status := r })
          (awaitResponse i) fun r => Facing (Answered K f r) { sd with status := r } :=
        ih (left - 1) (by omega)
      have hsilent : Says (fun c bus => K.mode = .off ∧
          Facing (Eq (K.to (.listening []))) { sd with status := r } c bus)
          (awaitResponse i) fun r => Facing (Answered K f r) { sd with status := r } := by
        refine Talk.fact hdelay.adds fun hm => ?_
        refine (says_silence (K := K.to (.listening [])) hsel rfl i).post ?_
        rintro r c bus ⟨⟨rfl, rfl⟩, hsd⟩
        exact ⟨Or.inr ⟨hm, by decide, rfl⟩, hsd⟩
      refine (hdelay.or_pre hsilent).pre ?_
      rintro c bus ⟨⟨-, -, hc⟩ | ⟨-, hm, hc⟩ | h, hsd⟩
      · exact Or.inl ⟨hc.symm, hsd⟩
      · exact Or.inr ⟨hm, hc.symm, hsd⟩
      · exact absurd h.top htop
    · rintro c bus ⟨⟨hr, -⟩ | ⟨hr, -⟩ | h, hsd⟩
      · exact absurd hr htop
      · exact absurd hr htop
      · exact ⟨Or.inl h.phase, hsd⟩

/-- **One command**, to a card that is listening. -/
theorem says_issue (hsel : K.selected = true) (hp : K.phase = .listening []) {command : UInt8}
    (hbits : SixBits command) (arg : UInt32) :
    Says (Facing (Eq K) sd) (issue command arg) fun r =>
      Facing (Answered K (sentFrame command arg) r) { sd with status := r } := by
  have hfirst : Says (Facing (Eq K) sd) (sd_raw_spi_write (command ||| 0x40)) fun _ =>
      Facing (Eq (K.to (.listening [command ||| 0x40]))) sd := by
    refine (says_transfer hsel _).post ?_
    rintro r c bus ⟨hx, hsd⟩
    rw [Exchange, hp] at hx
    refine ⟨?_, hsd⟩
    rw [hx.2, if_neg (fun h => h.2 hbits.2), if_pos (by decide)]
    rfl
  have hargs : Says (Facing (Eq (K.to (.listening [command ||| 0x40]))) sd)
      (each (fun s => sd_raw_spi_write (arg >>> s).toUInt8) [24, 16, 8, 0]) fun _ =>
      Facing (Eq (K.to (.listening ((command ||| 0x40) ::
        [24, 16, 8, 0].map fun s : UInt32 => (arg >>> s).toUInt8)))) sd := by
    refine Talk.each (I := fun done => Facing (Eq (K.to (.listening
      ((command ||| 0x40) :: done.map fun s => (arg >>> s).toUInt8)))) sd) [24, 16, 8, 0] ?_
    intro bs b cs hbs
    have hlen : 4 = bs.length + (cs.length + 1) := by
      rw [← List.length_cons (a := b), ← List.length_append, ← hbs]
      rfl
    rw [List.map_append]
    exact says_frame_byte hsel _ _ (by rw [List.length_map]; omega) _
  have hlast : Says (Facing (Eq (K.to (.listening ((command ||| 0x40) ::
      [24, 16, 8, 0].map fun s : UInt32 => (arg >>> s).toUInt8)))) sd)
      (sd_raw_spi_write (crcOf command))
      fun _ => Facing (Eq (K.to (.answering (sentFrame command arg) 8))) sd := by
    refine (says_transfer (K := K.to (.listening ((command ||| 0x40) ::
      [24, 16, 8, 0].map fun s : UInt32 => (arg >>> s).toUInt8))) hsel _).post ?_
    rintro r c bus ⟨⟨-, hc⟩, hsd⟩
    exact ⟨hc.symm, hsd⟩
  refine Talk.bind (says_note command arg) fun _ => Talk.bind hfirst fun _ => ?_
  exact Talk.bind hargs fun _ => Talk.bind hlast fun _ => says_answer hsel _ 255 8 (by decide)

/-- The driver, before a command, where no block is open. -/
theorem says_selectCard (hp : K.phase = .listening []) (hcs : sd.cs = K.cs)
    (hin : sd.inBlock = false) (n : ℕ) :
    Says (Facing (Eq K) sd) (selectCard n) fun _ => Facing (Eq (K.select true)) sd := by
  refine Talk.bind (R := fun _ => Facing (Eq K) sd) ?_ fun _ => ?_
  · refine Talk.congr (q := pure ⟨⟩) (adds_of_keeps adds_read_end) ?_ (Talk.ret fun _ _ => id)
    rintro c bus ⟨-, hsd⟩
    exact read_end_idle (show Idle bus from (congrArg sd_raw_t.inBlock hsd).trans hin)
  · exact Talk.bind (says_pin hcs false) fun _ => says_flush (K := K.select true) rfl hp n 300

/-- **One command and its answer.** -/
theorem says_command (hp : K.phase = .listening []) (hcs : sd.cs = K.cs)
    (hin : sd.inBlock = false) (n : ℕ) {command : UInt8} (hbits : SixBits command) (arg : UInt32) :
    Says (Facing (Eq K) sd) (sd_raw_command n command arg) fun r =>
      Facing (Answered (K.select true) (sentFrame command arg) r)
        { sd with status := r } :=
  Talk.bind (says_selectCard hp hcs hin n) fun _ => says_issue (K := K.select true) rfl hp hbits arg

end Commands

/-! ## What the answers come to -/

section Answers

variable {K c : SpiCard} {f : Frame} {r : UInt8}

theorem Answered.obeys (h : Answered K f r c) (hm : K.mode ≠ .off) : Obeys K f r c :=
  h.resolve_right fun hoff => hm hoff.1

/-- Refused: an error bit is set, and the card goes on listening. -/
def Refused (K : SpiCard) (r : UInt8) (c : SpiCard) : Prop :=
  r &&& 0x7e ≠ 0 ∧ K.done (.listening []) = c

theorem Refused.ne {r' : UInt8} (h : Refused K r c) (hr : r' &&& 0x7e = 0) : r ≠ r' := by
  rintro rfl
  exact h.1 hr

theorem Refused.ne_zero (h : Refused K r c) : r ≠ 0 := h.ne (by decide)

/-- What the card is, and what it holds. -/
structure Same (c c' : SpiCard) : Prop where
  cs : c'.cs = c.cs
  sdhc : c'.sdhc = c.sdhc
  csd : c'.csd = c.csd
  blocks : c'.blocks = c.blocks

/-- No answer changes what the card is. -/
theorem Obeys.same (h : Obeys K f r c) : Same K c := by
  cases h with
  | _ => exact ⟨rfl, rfl, rfl, rfl⟩

theorem Obeys.read_cases (h : Obeys K f r c) (hf : f.command = CMD17) :
    Refused K r c ∨ (r = 0 ∧ ∃ crc₀ crc₁, K.done (.fetching
      (List.ofFn (K.blocks (K.addressed f.arg)) ++ [crc₀, crc₁])) = c) := by
  cases h with
  | refused r hr he => exact Or.inl ⟨he, rfl⟩
  | read hf' hm crc₀ crc₁ => exact Or.inr ⟨rfl, crc₀, crc₁, rfl⟩
  | _ => exact absurd ‹f.command = _› (by rw [hf]; decide)

theorem Obeys.write_cases (h : Obeys K f r c) (hf : f.command = CMD24) :
    Refused K r c ∨ (r = 0 ∧ K.done (.awaiting (K.addressed f.arg)) = c) := by
  cases h with
  | refused r hr he => exact Or.inl ⟨he, rfl⟩
  | write hf' hm => exact Or.inr ⟨rfl, rfl⟩
  | _ => exact absurd ‹f.command = _› (by rw [hf]; decide)

theorem Obeys.status_cases (h : Obeys K f r c) (hf : f.command = CMD13) :
    Refused K r c ∨ (r = 0 ∧ ∃ second, (K.failed = true → second ≠ 0) ∧
      { K with app := false, failed := false, phase := after [second] } = c) := by
  cases h with
  | refused r hr he => exact Or.inl ⟨he, rfl⟩
  | status hf' hm second hfail => exact Or.inr ⟨rfl, second, hfail, rfl⟩
  | _ => exact absurd ‹f.command = _› (by rw [hf]; decide)

theorem Obeys.register_cases (h : Obeys K f r c) (hf : f.command = CMD9) :
    Refused K r c ∨ (r = 0 ∧ ∃ crc₀ crc₁,
      K.done (.fetching (List.ofFn K.csd ++ [crc₀, crc₁])) = c) := by
  cases h with
  | refused r hr he => exact Or.inl ⟨he, rfl⟩
  | register hf' hm crc₀ crc₁ => exact Or.inr ⟨rfl, crc₀, crc₁, rfl⟩
  | _ => exact absurd ‹f.command = _› (by rw [hf]; decide)

theorem Obeys.idle_cases (h : Obeys K f r c) (hf : f.command = CMD0) :
    Refused K r c ∨ (r = 1 ∧ c.mode = .idle ∧ c.phase = .listening []) := by
  cases h with
  | refused r hr he => exact Or.inl ⟨he, rfl⟩
  | goIdle hf' hs => exact Or.inr ⟨rfl, rfl, rfl⟩
  | _ => exact absurd ‹f.command = _› (by rw [hf]; decide)

theorem Obeys.interface_cases (h : Obeys K f r c) (hf : f.command = CMD8) :
    Refused K r c ∨ (r = 1 ∧ ∃ bytes : List UInt8, bytes.length = 4
      ∧ K.done (after bytes) = c) := by
  cases h with
  | refused r hr he => exact Or.inl ⟨he, rfl⟩
  | interface hf' hs hm b₀ b₁ b₂ => exact Or.inr ⟨rfl, _, rfl, rfl⟩
  | _ => exact absurd ‹f.command = _› (by rw [hf]; decide)

theorem Obeys.app_cases (h : Obeys K f r c) (hf : f.command = CMD55) :
    c.mode = K.mode ∧ c.phase = .listening [] := by
  cases h with
  | refused r hr he => exact ⟨rfl, rfl⟩
  | appIdle hf' hm => exact ⟨rfl, rfl⟩
  | appReady hf' hm => exact ⟨rfl, rfl⟩
  | _ => exact absurd ‹f.command = _› (by rw [hf]; decide)

/-- **`ACMD41`**: an SDHC card becomes ready only for a host that says it supports it. -/
theorem Obeys.ready_cases (h : Obeys K f r c) (hf : f.command = ACMD41) :
    c.phase = .listening [] ∧ ((r = 0 ∧ c.mode = .ready ∧ (K.sdhc = true → K.mode = .idle →
      f.arg &&& 0x40000000 ≠ 0)) ∨ (r ≠ 0 ∧ c.mode = K.mode)) := by
  cases h with
  | refused r hr he => exact ⟨rfl, Or.inr ⟨Refused.ne_zero (K := K) ⟨he, rfl⟩, rfl⟩⟩
  | busy hf' ha hm => exact ⟨rfl, Or.inr ⟨by decide, rfl⟩⟩
  | initialized hf' ha hm hcs => exact ⟨rfl, Or.inl ⟨rfl, rfl, hcs⟩⟩
  | _ => exact absurd ‹f.command = _› (by rw [hf]; decide)

theorem Obeys.ocr_cases (h : Obeys K f r c) (hf : f.command = CMD58) (hm : K.mode = .ready) :
    Refused K r c ∨ (r = 0 ∧ ∃ (b₀ : UInt8) (rest : List UInt8), rest.length = 3
      ∧ (b₀ &&& 0xc0 = 0xc0 ↔ K.sdhc = true) ∧ K.done (.sending b₀ rest) = c) := by
  cases h with
  | refused r hr he => exact Or.inl ⟨he, rfl⟩
  | ocrIdle hf' hm' b₀ b₁ b₂ b₃ => rw [hm] at hm'; cases hm'
  | ocr hf' hm' b₀ b₁ b₂ b₃ hb => exact Or.inr ⟨rfl, b₀, [b₁, b₂, b₃], rfl, hb, rfl⟩
  | _ => exact absurd ‹f.command = _› (by rw [hf]; decide)

end Answers

/-! ## Data -/

section Data

variable {K : SpiCard} {sd : sd_raw_t} {B : ℕ → Block}

/-- Errors change nothing on the card. -/
theorem says_error {α : Type} (error : UInt8) (result : α) :
    Says (fun c _ => c.blocks = B) (sd_raw_error error result) fun a c bus =>
      a = result ∧ bus.sd.status = error ∧ c.blocks = B := by
  refine Talk.bind (R := fun _ c _ => c.blocks = B) ?_ fun _ => ?_
  · refine Talk.emit (e := fun bus => .write bus.sd.cs true) (fun _ => rfl) (fun _ => rfl) ?_
    rintro c bus c' hc rfl
    split
    · exact hc
    · exact hc
  · refine Talk.bind (R := fun _ c bus => bus.sd.status = error ∧ c.blocks = B) ?_ fun _ => ?_
    · exact Talk.update (fun _ => rfl) fun _ _ h => ⟨rfl, h⟩
    · exact Talk.ret fun _ _ h => ⟨rfl, h⟩

/-- A byte that nobody looks at. -/
theorem says_skip (hsel : K.selected = true) (b : UInt8) (rest : List UInt8) :
    Says (Facing (Eq (K.to (.sending b rest))) sd) sd_raw_spi_read fun _ =>
      Facing (Eq (K.to (after rest))) sd := by
  refine (says_transfer (K := K.to (.sending b rest)) hsel 0xff).post ?_
  rintro r c bus ⟨⟨-, hc⟩, hsd⟩
  exact ⟨hc.symm, hsd⟩

/-- The bytes the card has to send, one after another. -/
theorem says_take (hsel : K.selected = true) (bytes rest : List UInt8) :
    Says (Facing (Eq (K.to (after (bytes ++ rest)))) sd) (times sd_raw_spi_read bytes.length)
      fun r => Facing (fun c => r = bytes ∧ K.to (after rest) = c) sd := by
  refine Talk.mono (Talk.times (I := fun as => Facing (fun c => ∃ more, bytes = as ++ more ∧
    K.to (after (more ++ rest)) = c) sd) bytes.length ?_) ?_ ?_
  · intro as hlen
    have hbyte : ∀ more, bytes = as ++ more → Says (Facing (Eq (K.to (after (more ++ rest)))) sd)
        sd_raw_spi_read fun a => Facing (fun c => ∃ more, bytes = (as ++ [a]) ++ more ∧
          K.to (after (more ++ rest)) = c) sd := by
      intro more hmore
      obtain ⟨b, more, rfl⟩ : ∃ b more', more = b :: more' := by
        refine List.exists_cons_of_ne_nil ?_
        rintro rfl
        rw [hmore, List.append_nil] at hlen
        omega
      refine (says_transfer (K := K.to (.sending b (more ++ rest))) hsel 0xff).post ?_
      rintro r c bus ⟨⟨rfl, hc⟩, hsd⟩
      exact ⟨⟨more, by rw [hmore, List.append_assoc, List.singleton_append], hc.symm⟩, hsd⟩
    refine ⟨fun s => List.prefix_append _ _, ?_⟩
    rintro c s a s' es c' ⟨⟨more, hmore, hc⟩, hsd⟩ hr he hplays
    exact (hbyte more hmore).tells ⟨hc, hsd⟩ hr he hplays
  · rintro c bus ⟨hc, hsd⟩
    exact ⟨⟨bytes, rfl, hc⟩, hsd⟩
  · rintro as c bus ⟨⟨⟨more, hmore, hc⟩, hsd⟩, hlen⟩
    have hnil : more = [] := by
      have hsum := congrArg List.length hmore
      rw [List.length_append] at hsum
      exact List.eq_nil_of_length_eq_zero (by omega)
    subst hnil
    rw [List.append_nil] at hmore
    exact ⟨⟨hmore.symm, hc⟩, hsd⟩

end Data

end Fkfs.Spi
