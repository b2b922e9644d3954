/-
Getting the card ready.

`sd_raw_initialize` meets a card it knows nothing about but that it is not in the
middle of a command: it may not have been spoken to, be idle or still be ready
from before a reset. When the call returns true the card is ready and the two
agree on whether it is an SDHC card, so that everything said of reads and writes
applies (`says_initialize`). The argument is short where the driver is careful: a
card that refuses `CMD8` is never told that the host supports SDHC, and an SDHC
card that is not told does not become ready.
-/
import Fkfs.SpiBlocks

set_option autoImplicit false

namespace Fkfs.Spi

open Bytes Programs Dialogues
open Fkfs.Layout Fkfs.Driver Fkfs.Release

/-! ## What adds to the wires -/

theorem adds_readOcr (t : List Event) (n : ℕ) :
    Keeps (fun bus => t <+: bus.trace) (readOcr n) := by
  have h := stable_trace t
  refine Keeps.bind (Keeps.read _) fun sd => Keeps.ite ?_ ?_
  · refine Keeps.bind (adds_command t n _ _) fun _ => Keeps.ite (h.error _ _) ?_
    refine Keeps.bind h.spi_read fun _ => Keeps.bind (fun _ => id) fun _ => ?_
    refine Keeps.bind (Keeps.times h.spi_read 3) fun _ => ?_
    exact Keeps.bind (h.digitalWrite _) fun _ => Keeps.ret _
  · exact Keeps.bind (h.digitalWrite _) fun _ => Keeps.ret _

theorem adds_readyCard (t : List Event) (n : ℕ) (t0 : UInt32) :
    Keeps (fun bus => t <+: bus.trace) (readyCard n t0) := by
  have h := stable_trace t
  refine Keeps.bind (Keeps.read _) fun sd => ?_
  refine Keeps.bind (h.wait_state ?_ n t0 _) fun _ => Keeps.ite (h.error _ _) (adds_readOcr t n)
  exact Keeps.bind (adds_command t n _ _) fun _ => adds_command t n _ _

theorem adds_four (t : List Event) : Keeps (fun bus => t <+: bus.trace) (times (do
    let status ← sd_raw_spi_read
    setStatus status) 4) :=
  Keeps.times (Keeps.bind (stable_trace t).spi_read fun _ => (stable_trace t).status _) 4

theorem adds_initialize (t : List Event) (n : ℕ) (pinCs : UInt8) :
    Keeps (fun bus => t <+: bus.trace) ( sd_raw_initialize n pinCs) := by
  have h := stable_trace t
  refine Keeps.bind (fun _ => id) fun _ => Keeps.bind (h.digitalWrite _) fun _ => ?_
  refine Keeps.bind (Keeps.times (h.transfer _) 10) fun _ => Keeps.bind (h.digitalWrite _) fun _ => ?_
  refine Keeps.bind h.millis fun t0 => Keeps.bind (h.wait_state (adds_command t n _ _) n t0 _) fun _ => ?_
  refine Keeps.ite (h.error _ _) (Keeps.bind (adds_command t n _ _) fun version => ?_)
  refine Keeps.ite (Keeps.bind (fun _ => id) fun _ => adds_readyCard t n t0) ?_
  refine Keeps.bind (adds_four t) fun _ => Keeps.bind (Keeps.read _) fun sd => ?_
  exact Keeps.ite (h.error _ _) (Keeps.bind (fun _ => id) fun _ => adds_readyCard t n t0)

/-! ## Waking up -/

/-- The card is listening, is the card it was, and the driver is not in a block. -/
structure Idling (K : SpiCard) (c : SpiCard) (sd : sd_raw_t) : Prop where
  phase : c.phase = .listening []
  same : Same K c
  pin : sd.cs = K.cs
  idle : sd.inBlock = false

section Start

variable {K : SpiCard} {sd : sd_raw_t}

theorem Idling.status {c : SpiCard} (h : Idling K c sd) (v : UInt8) :
    Idling K c { sd with status := v } :=
  ⟨h.phase, h.same, h.pin, h.idle⟩

theorem Idling.of_same {c c' : SpiCard} (h : Idling K c sd) (hphase : c'.phase = .listening [])
    (hs : Same (c.select true) c') (v : UInt8) : Idling K c' { sd with status := v } :=
  ⟨hphase, ⟨hs.cs.trans h.same.cs, hs.sdhc.trans h.same.sdhc, hs.csd.trans h.same.csd,
    hs.blocks.trans h.same.blocks⟩, h.pin, h.idle⟩

theorem Idling.done {c : SpiCard} (h : Idling K c sd) (v : UInt8) :
    Idling K ((c.select true).done (.listening [])) { sd with status := v } :=
  ⟨rfl, ⟨h.same.cs, h.same.sdhc, h.same.csd, h.same.blocks⟩, h.pin, h.idle⟩

/-- A command to a card that is waking up. -/
theorem says_idling (R : SpiCard → sd_raw_t → Prop) (n : ℕ) {command : UInt8}
    (hbits : SixBits command) (arg : UInt32) :
    Says (fun c bus => Idling K c bus.sd ∧ R c bus.sd) (sd_raw_command n command arg)
      fun r c bus => ∃ c₀ sd₀, Idling K c₀ sd₀ ∧ R c₀ sd₀
        ∧ Answered (c₀.select true) (sentFrame command arg) r c
        ∧ bus.sd = { sd₀ with status := r } := by
  refine says_from (R := fun c sd => Idling K c sd ∧ R c sd)
    (adds_of_keeps fun t => adds_command t n command arg) ?_
  rintro c sd ⟨h, hR⟩
  refine (says_command h.phase (h.pin.trans h.same.cs.symm) h.idle n hbits arg).post ?_
  rintro r c' bus ⟨ha, hsd⟩
  exact ⟨c, sd, h, hR, ha, hsd⟩

/-- A call that gives up returns false. -/
theorem says_false {P : SpiCard → Bus → Prop} {Q : SpiCard → Bus → Prop} (error : UInt8) :
    Says P (sd_raw_error error false) fun r c bus => r = true → Q c bus := by
  have hpin : Says P sd_raw_cs_high fun _ _ _ => True :=
    Talk.emit (e := fun bus => .write bus.sd.cs true) (fun _ => rfl) (fun _ => rfl)
      fun _ _ _ _ _ => trivial
  refine Talk.bind hpin fun _ => Talk.bind (R := fun _ _ _ => True) ?_ fun _ => Talk.ret ?_
  · exact Talk.update (fun _ => rfl) fun _ _ _ => trivial
  · exact fun _ _ _ hr => absurd hr Bool.false_ne_true

/-- **A loop of `sd_raw_initialize`**: as long as the card has not answered `state`
nothing has come of it, and when it has, what `ask` says of that holds. -/
theorem says_awaitState {I : SpiCard → sd_raw_t → Prop} {Q : SpiCard → sd_raw_t → Prop}
    {ask : Prog Bus UInt8} {state : UInt8} (n : ℕ) (t0 : UInt32)
    (hI : ∀ c sd v, I c sd → I c { sd with status := v })
    (hQ : ∀ c sd v, Q c sd → Q c { sd with status := v })
    (h : Says (fun c bus => I c bus.sd) ask fun r c bus =>
      (r = state → Q c bus.sd) ∧ (r ≠ state → I c bus.sd)) :
    Says (fun c bus => I c bus.sd) (awaitState n t0 ask state) fun ok c bus =>
      ok = true → Q c bus.sd := by
  refine Talk.loop n (Talk.bind h fun status => ?_)
  refine Talk.bind (R := fun _ c bus => (status = state → Q c bus.sd) ∧
    (status ≠ state → I c bus.sd)) ?_ fun _ => Talk.ite (fun heq => Talk.ret ?_) fun hne => ?_
  · exact Talk.update (fun _ => rfl) fun c bus h =>
      ⟨fun heq => hQ _ _ _ (h.1 heq), fun hne => hI _ _ _ (h.2 hne)⟩
  · exact fun c bus h _ => h.1 heq
  · refine Talk.bind (R := fun _ c bus => I c bus.sd) ?_ fun now => Talk.ret fun c bus h => ?_
    · exact Talk.silent (f := fun bus => { bus with ticks := bus.ticks + 1 }) (fun _ => rfl)
        (fun _ => rfl) fun c bus h => h.2 hne
    · split
      · exact h
      · next ok heq =>
        split at heq
        · cases heq
          exact fun hs => absurd hs Bool.false_ne_true
        · cases heq

/-- **`CMD0`**: the answer 1 says that the card is idle. -/
theorem says_cmd0 (n : ℕ) (t0 : UInt32) :
    Says (fun c bus => Idling K c bus.sd)
      (awaitState n t0 ( sd_raw_command n CMD0 0) R1_IDLE_STATE)
      fun ok c bus => ok = true → Idling K c bus.sd ∧ c.mode = .idle := by
  refine says_awaitState (I := Idling K) (Q := fun c sd => Idling K c sd ∧ c.mode = .idle) n t0
    (fun c sd v h => h.status v) (fun c sd v h => ⟨h.1.status v, h.2⟩) ?_
  refine Talk.mono (says_idling (fun _ _ => True) n (by decide) 0) (fun c bus h => ⟨h, trivial⟩) ?_
  rintro r c bus ⟨c₀, sd₀, h, -, ho | ⟨-, hr, rfl⟩, hsd⟩
  · rw [hsd]
    rcases ho.idle_cases (sent_command (by decide) 0) with href | ⟨hr, hm, hp⟩
    · exact ⟨fun heq => absurd heq (href.ne (by decide)),
        fun _ => h.of_same (by rw [← href.2]; rfl) ho.same r⟩
    · exact ⟨fun _ => ⟨h.of_same hp ho.same r, hm⟩, fun _ => h.of_same hp ho.same r⟩
  · have hsame : Same (c₀.select true) ((c₀.select true).to (.listening [])) :=
      ⟨rfl, rfl, rfl, rfl⟩
    rw [hsd]
    refine ⟨?_, fun _ => h.of_same rfl hsame r⟩
    rintro rfl
    exact absurd (by decide) hr

/-- **`ACMD41`**: the answer 0 says that the card is ready, which an SDHC card is
only if it was told. -/
theorem says_acmd41 (n : ℕ) (t0 arg : UInt32) (type : UInt8) :
    Says (fun c bus => Idling K c bus.sd ∧ c.mode = .idle ∧ bus.sd.type = type)
      (awaitState n t0 ( sd_raw_acommand n ACMD41 arg) R1_READY_STATE)
      fun ok c bus => ok = true → Idling K c bus.sd ∧ c.mode = .ready ∧ bus.sd.type = type
        ∧ (K.sdhc = true → arg &&& 0x40000000 ≠ 0) := by
  have hidle : Mode.idle ≠ .off := Mode.noConfusion
  refine says_awaitState (I := fun c sd => Idling K c sd ∧ c.mode = .idle ∧ sd.type = type)
    (Q := fun c sd => Idling K c sd ∧ c.mode = .ready ∧ sd.type = type
      ∧ (K.sdhc = true → arg &&& 0x40000000 ≠ 0))
    n t0 (fun c sd v h => ⟨h.1.status v, h.2⟩) (fun c sd v h => ⟨h.1.status v, h.2⟩) ?_
  refine Talk.bind (R := fun _ c bus => Idling K c bus.sd ∧ c.mode = .idle ∧ bus.sd.type = type)
    ((says_idling (fun c sd => c.mode = .idle ∧ sd.type = type) n (by decide) 0).post ?_) fun _ =>
      (says_idling (fun c sd => c.mode = .idle ∧ sd.type = type) n (by decide) arg).post ?_
  · rintro r c bus ⟨c₀, sd₀, h, ⟨hm, htype⟩, ha, hsd⟩
    have ho := ha.obeys (by rw [SpiCard.select, hm]; exact hidle)
    obtain ⟨hmode, hp⟩ := ho.app_cases (sent_command (by decide) 0)
    rw [hsd]
    exact ⟨h.of_same hp ho.same r, hmode.trans hm, htype⟩
  · rintro r c bus ⟨c₀, sd₀, h, ⟨hm, htype⟩, ha, hsd⟩
    have ho := ha.obeys (by rw [SpiCard.select, hm]; exact hidle)
    obtain ⟨hp, ⟨hr, hmode, hhcs⟩ | ⟨hr, hmode⟩⟩ := ho.ready_cases (sent_command (by decide) arg)
    · rw [hsd]
      refine ⟨fun _ => ⟨h.of_same hp ho.same r, hmode, htype, fun hs => ?_⟩, fun hne => absurd hr hne⟩
      rw [← sent_arg ACMD41 arg]
      exact hhcs (h.same.sdhc.trans hs) hm
    · rw [hsd]
      exact ⟨fun heq => absurd heq hr, fun _ => ⟨h.of_same hp ho.same r, hmode.trans hm, htype⟩⟩

/-- The card has so many bytes to send at most. -/
def Left (K : SpiCard) (m : ℕ) (c : SpiCard) : Prop :=
  ∃ bytes : List UInt8, bytes.length ≤ m ∧ K.to (after bytes) = c

theorem says_left (hsel : K.selected = true) (m : ℕ) :
    Says (Facing (Left K (m + 1)) sd) sd_raw_spi_read fun _ => Facing (Left K m) sd := by
  have hbyte : ∀ bytes : List UInt8, bytes.length ≤ m + 1 →
      Says (Facing (Eq (K.to (after bytes))) sd) sd_raw_spi_read fun _ => Facing (Left K m) sd := by
    intro bytes hlen
    cases bytes with
    | nil =>
      refine (says_nothing (K := K.to (.listening [])) hsel rfl).post ?_
      rintro r c bus ⟨⟨-, hc⟩, hsd⟩
      exact ⟨⟨[], Nat.zero_le m, hc⟩, hsd⟩
    | cons b bytes =>
      refine (says_transfer (K := K.to (.sending b bytes)) hsel 0xff).post ?_
      rintro r c bus ⟨⟨-, hc⟩, hsd⟩
      exact ⟨⟨bytes, Nat.le_of_succ_le_succ hlen, hc.symm⟩, hsd⟩
  refine Talk.pre (Talk.exists_pre fun bytes => Talk.fact ?_ (hbyte bytes)) ?_
  · exact adds_of_keeps fun t => (stable_trace t).spi_read
  · rintro c bus ⟨⟨bytes, hlen, hc⟩, hsd⟩
    exact ⟨bytes, hlen, hc, hsd⟩

/-- As many bytes are read as the card can have to send, and it is listening again. -/
theorem says_drained {α : Type} {p : Prog Bus α} (n : ℕ)
    (hp : ∀ m v, Says (Facing (Left K (m + 1)) { sd with status := v }) p fun _ c bus =>
      ∃ v, Facing (Left K m) { sd with status := v } c bus) :
    Says (Facing (Left K n) sd) (times p n) fun _ c bus =>
      ∃ v, Facing (Eq (K.to (.listening []))) { sd with status := v } c bus := by
  refine Talk.mono (Talk.times (I := fun as c bus =>
    ∃ v, Facing (Left K (n - as.length)) { sd with status := v } c bus) n ?_) ?_ ?_
  · intro as hlen
    have hm : n - as.length = (n - (as.length + 1)) + 1 := by omega
    rw [hm]
    refine Talk.exists_pre fun v => (hp _ v).post fun a c bus h => ?_
    rw [List.length_append, List.length_singleton]
    exact h
  · exact fun c bus h => ⟨sd.status, h⟩
  · rintro as c bus ⟨⟨v, ⟨bytes, hlen, hc⟩, hsd⟩, hn⟩
    have hnil : bytes = [] := List.eq_nil_of_length_eq_zero (by omega)
    rw [hnil] at hc
    exact ⟨v, hc, hsd⟩

/-- The card and the driver, once the card is ready. -/
theorem Idling.ready {c : SpiCard} (h : Idling K c sd) (hm : c.mode = .ready)
    (htype : sd.type = SD_CARD_TYPE_SDHC ↔ K.sdhc = true) : Ready K.sdhc K.blocks c sd :=
  ⟨h.phase, hm, h.same.sdhc, h.same.blocks, h.pin.trans h.same.cs.symm, h.idle, htype⟩

/-- The OCR, once the card has said that it comes: the type it gives, and the card
let go of. -/
theorem says_ocr {c : SpiCard} (h : Idling K c sd) (hm : c.mode = .ready)
    (htype : sd.type = SD_CARD_TYPE_SD2) {b₀ : UInt8} {rest : List UInt8} (hrest : rest.length = 3)
    (hb : b₀ &&& 0xc0 = 0xc0 ↔ K.sdhc = true) :
    Says (Facing (Eq ((c.select true).done (.sending b₀ rest))) sd) (do
        let ocr ← sd_raw_spi_read
        setSd fun sd => if ocr &&& 0xc0 = 0xc0 then { sd with type := SD_CARD_TYPE_SDHC } else sd
        let _ ← times sd_raw_spi_read 3
        sd_raw_cs_high
        pure true) fun ok c bus => ok = true → Ready K.sdhc K.blocks c bus.sd := by
  have hset : ∀ ocr, Says (fun c' bus => ocr = b₀ ∧
        Facing (Left ((c.select true).done (.listening [])) 3) sd c' bus)
      (setSd fun sd => if ocr &&& 0xc0 = 0xc0 then { sd with type := SD_CARD_TYPE_SDHC } else sd)
      fun _ c' bus => ∃ t, (t = SD_CARD_TYPE_SDHC ↔ K.sdhc = true) ∧
        Facing (Left ((c.select true).done (.listening [])) 3) { sd with type := t } c' bus := by
    refine fun ocr => Talk.update (fun _ => rfl) ?_
    rintro c' bus ⟨rfl, hc, hsd⟩
    by_cases hs : K.sdhc = true
    · refine ⟨SD_CARD_TYPE_SDHC, iff_of_true rfl hs, hc, ?_⟩
      exact (if_pos (hb.mpr hs)).trans (by rw [hsd])
    · refine ⟨SD_CARD_TYPE_SD2, iff_of_false (by decide) hs, hc, ?_⟩
      exact (if_neg fun h => hs (hb.mp h)).trans (by rw [hsd, ← htype])
  have hdrained : ∀ t, Says (Facing (Left ((c.select true).done (.listening [])) 3)
      { sd with type := t }) (times sd_raw_spi_read 3) fun _ c' bus => ∃ v,
        Facing (Eq ((c.select true).done (.listening []))) { sd with type := t, status := v } c' bus :=
    fun t => says_drained 3 fun m v => (says_left rfl m).post fun _ _ _ hc => ⟨v, hc⟩
  refine Talk.bind (Talk.post (says_transfer (K := (c.select true).done (.sending b₀ rest)) rfl 0xff)
    ?_) fun ocr => Talk.bind (hset ocr) fun _ => Talk.exists_pre fun t => Talk.fact ?_ fun ht => ?_
  · rintro r c' bus ⟨⟨hr, hc⟩, hsd⟩
    exact ⟨hr, ⟨rest, hrest.le, hc.symm⟩, hsd⟩
  · exact adds_of_keeps fun t => Keeps.bind (Keeps.times (stable_trace t).spi_read 3) fun _ =>
      Keeps.bind ((stable_trace t).digitalWrite _) fun _ => Keeps.ret _
  · refine Talk.bind (hdrained t) fun _ => Talk.exists_pre fun v => ?_
    refine Talk.bind (says_pin (K := (c.select true).done (.listening []))
      (by exact h.pin.trans h.same.cs.symm) true) fun _ => Talk.ret ?_
    rintro c' bus ⟨rfl, hsd⟩ -
    rw [hsd]
    exact ⟨rfl, hm, h.same.sdhc, h.same.blocks, h.pin.trans h.same.cs.symm, h.idle, ht⟩

/-- **The OCR** tells what kind of card it is. -/
theorem says_readOcr (n : ℕ) :
    Says (fun c bus => Idling K c bus.sd ∧ c.mode = .ready ∧ (bus.sd.type = SD_CARD_TYPE_SD2
      ∨ (bus.sd.type = SD_CARD_TYPE_SD1 ∧ K.sdhc = false))) (readOcr n) fun ok c bus =>
      ok = true → Ready K.sdhc K.blocks c bus.sd := by
  have hadds : Adds Bus.trace (readOcr n) := adds_of_keeps fun t => adds_readOcr t n
  refine says_from (R := fun c sd => Idling K c sd ∧ c.mode = .ready ∧ (sd.type = SD_CARD_TYPE_SD2
    ∨ (sd.type = SD_CARD_TYPE_SD1 ∧ K.sdhc = false))) hadds ?_
  rintro c sd ⟨h, hm, htype⟩
  have hpin : sd.cs = c.cs := h.pin.trans h.same.cs.symm
  have hoff : (c.select true).mode ≠ .off := by
    rw [show (c.select true).mode = .ready from hm]
    exact Mode.noConfusion
  refine Talk.get sd hadds (fun c bus hc => hc.2) (Talk.ite (fun htwo => ?_) fun hone => ?_)
  · refine Talk.bind (says_command h.phase hpin h.idle n (by decide) 0) fun status => ?_
    refine Talk.ite (fun _ => says_false _) fun heq => ?_
    have hocr : ∀ ocr : UInt8 × List UInt8, ocr.2.length = 3 ∧ (ocr.1 &&& 0xc0 = 0xc0 ↔
        K.sdhc = true) → Says (Facing (Eq ((c.select true).done (.sending ocr.1 ocr.2)))
        { sd with status := status }) _ fun ok c bus => ok = true → Ready K.sdhc K.blocks c bus.sd :=
      fun ocr hocr => says_ocr (h.status status) hm htwo hocr.1 hocr.2
    refine Talk.pre (Talk.exists_pre fun ocr => Talk.fact ?_ (hocr ocr)) ?_
    · exact adds_of_keeps fun t => Keeps.bind (stable_trace t).spi_read fun _ =>
        Keeps.bind (fun _ => id) fun _ => Keeps.bind (Keeps.times (stable_trace t).spi_read 3)
          fun _ => Keeps.bind ((stable_trace t).digitalWrite _) fun _ => Keeps.ret _
    · rintro c' bus ⟨ha, hsd⟩
      rcases (ha.obeys hoff).ocr_cases (sent_command (by decide) 0) hm with
        hr | ⟨-, b₀, rest, hrest, hb, hc⟩
      · exact absurd hr.ne_zero heq
      · exact ⟨(b₀, rest), ⟨hrest, hb.trans (by rw [← h.same.sdhc]; rfl)⟩, hc, hsd⟩
  · obtain ⟨hsd1, hs⟩ := htype.resolve_left hone
    refine Talk.bind (says_pin hpin true) fun _ => Talk.ret ?_
    rintro c' bus ⟨rfl, hsd⟩ -
    refine Idling.ready ⟨h.phase, ⟨h.same.cs, h.same.sdhc, h.same.csd, h.same.blocks⟩, ?_, ?_⟩ hm ?_
    · rw [hsd]
      exact h.pin
    · rw [hsd]
      exact h.idle
    · rw [hsd, hsd1, hs]
      decide

/-- The card becomes ready. -/
theorem says_readyCard (n : ℕ) (t0 : UInt32) (type : UInt8)
    (htype : type = SD_CARD_TYPE_SD2 ∨ type = SD_CARD_TYPE_SD1) :
    Says (fun c bus => Idling K c bus.sd ∧ c.mode = .idle ∧ bus.sd.type = type) (readyCard n t0)
      fun ok c bus => ok = true → Ready K.sdhc K.blocks c bus.sd := by
  have hwith : Says (fun c bus => Idling K c bus.sd ∧ c.mode = .idle ∧ bus.sd.type = type) (do
      let ready ← awaitState n t0 ( sd_raw_acommand n ACMD41
        (if type = SD_CARD_TYPE_SD2 then 0x40000000 else 0)) R1_READY_STATE
      if ready = false then sd_raw_error SD_CARD_ERROR_ACMD41 false else readOcr n)
      fun ok c bus => ok = true → Ready K.sdhc K.blocks c bus.sd := by
    refine Talk.bind (says_acmd41 n t0 _ type) fun ready => ?_
    refine Talk.ite (fun _ => says_false _) fun hr => (says_readOcr n).pre fun c bus hc => ?_
    obtain ⟨h, hm, ht, hhcs⟩ := hc (by rwa [Bool.not_eq_false] at hr)
    refine ⟨h, hm, ?_⟩
    rcases htype with rfl | rfl
    · exact Or.inl ht
    · refine Or.inr ⟨ht, ?_⟩
      rw [Bool.eq_false_iff]
      exact fun hs => hhcs hs (by decide)
  refine Talk.congr (adds_of_keeps fun t => adds_readyCard t n t0) ?_ hwith
  rintro c bus ⟨-, -, ht⟩
  rw [← ht]
  rfl

/-- `CMD8` and the four bytes that follow it, where they do. -/
theorem says_cmd8 (n : ℕ) :
    Says (fun c bus => Idling K c bus.sd ∧ c.mode = .idle) ( sd_raw_command n CMD8 0x1aa)
      fun r c bus => ∃ c₀ sd₀ m, Idling K c₀ sd₀ ∧ c₀.mode = .idle
        ∧ Facing (Left ((c₀.select true).done (.listening [])) m) sd₀ c bus
        ∧ (r &&& R1_ILLEGAL_COMMAND ≠ 0 → m = 0) ∧ m ≤ 4 := by
  refine (says_idling (fun c _ => c.mode = .idle) n (by decide) 0x1aa).post ?_
  rintro r c bus ⟨c₀, sd₀, h, hm, ha, hsd⟩
  have ho := ha.obeys (by rw [SpiCard.select, hm]; exact Mode.noConfusion)
  rcases ho.interface_cases (sent_command (by decide) _) with href | ⟨rfl, bytes, hlen, hc⟩
  · exact ⟨c₀, _, 0, h.status r, hm, ⟨⟨[], Nat.zero_le 0, href.2⟩, hsd⟩, fun _ => rfl, by decide⟩
  · exact ⟨c₀, _, 4, h.status 1, hm, ⟨⟨bytes, hlen.le, hc⟩, hsd⟩,
      fun hill => absurd (by decide) hill, le_rfl⟩

/-- The driver settles for a version, and the card becomes ready. -/
theorem says_version (n : ℕ) (t0 : UInt32) (type : UInt8)
    (htype : type = SD_CARD_TYPE_SD2 ∨ type = SD_CARD_TYPE_SD1) :
    Says (fun c bus => Idling K c bus.sd ∧ c.mode = .idle) (do
        setSd fun sd => { sd with type := type }
        readyCard n t0) fun ok c bus => ok = true → Ready K.sdhc K.blocks c bus.sd := by
  refine Talk.bind (R := fun _ c bus => Idling K c bus.sd ∧ c.mode = .idle ∧ bus.sd.type = type)
    (Talk.update (fun _ => rfl) ?_) fun _ => says_readyCard n t0 type htype
  exact fun c bus h => ⟨⟨h.1.phase, h.1.same, h.1.pin, h.1.idle⟩, h.2, rfl⟩

/-- What `CMD8` has left on the card is listened to. -/
theorem says_rest :
    Says (fun c bus => ∃ c₀ sd₀ m, Idling K c₀ sd₀ ∧ c₀.mode = .idle
        ∧ Facing (Left ((c₀.select true).done (.listening [])) m) sd₀ c bus ∧ m ≤ 4)
      (times (do
        let status ← sd_raw_spi_read
        setStatus status) 4) fun _ c bus => Idling K c bus.sd ∧ c.mode = .idle := by
  refine ⟨adds_of_keeps adds_four, ?_⟩
  rintro c s a s' es c' ⟨c₀, sd₀, m, h, hm, ⟨⟨bytes, hlen, hc⟩, hsd⟩, hm4⟩ hr he hplays
  have hdrained : Says (Facing (Left ((c₀.select true).done (.listening [])) 4) sd₀) (times (do
      let status ← sd_raw_spi_read
      setStatus status) 4) fun _ c bus => ∃ v,
        Facing (Eq ((c₀.select true).done (.listening []))) { sd₀ with status := v } c bus :=
    says_drained 4 fun m v => Talk.bind (says_left rfl m) fun r =>
      (says_status r).post fun _ _ _ hc => ⟨r, hc⟩
  obtain ⟨v, rfl, hsd'⟩ := hdrained.tells ⟨⟨bytes, hlen.trans hm4, hc⟩, hsd⟩ hr he hplays
  rw [hsd']
  exact ⟨h.done v, hm⟩

/-- **`sd_raw_initialize`**: true says that the card is ready, and that the driver
knows what kind it is. -/
theorem says_initialize (n : ℕ) (pinCs : UInt8) (hcs : K.cs = pinCs)
    (hp : K.phase = .listening []) :
    Says (fun c bus => K = c ∧ Idle bus) ( sd_raw_initialize n pinCs) fun ok c bus =>
      ok = true → Ready K.sdhc K.blocks c bus.sd := by
  refine says_from (R := fun c sd => K = c ∧ sd.inBlock = false)
    (adds_of_keeps fun t => adds_initialize t n pinCs) ?_
  rintro _ sd ⟨rfl, hin⟩
  have hquiet : ∀ sd, Says (Facing (Eq (K.select false)) sd) sd_raw_spi_configure fun _ =>
      Facing (Eq (K.select false)) sd := by
    intro sd
    refine (Talk.times (I := fun _ => Facing (Eq (K.select false)) sd) 10 fun _ _ => ?_).post
      fun _ _ _ h => h.1
    refine says_deaf rfl ?_ 0xff
    intro block source hphase
    rw [show (K.select false).phase = .listening [] from hp] at hphase
    cases hphase
  have hhigh : Says (Facing (Eq K) { sd with cs := pinCs }) sd_raw_cs_high fun _ =>
      Facing (Eq (K.select false)) { sd with cs := pinCs } := says_pin hcs.symm true
  have hlow : Says (Facing (Eq (K.select false)) { sd with cs := pinCs }) sd_raw_cs_low fun _ =>
      Facing (Eq (K.select true)) { sd with cs := pinCs } := says_pin hcs.symm false
  refine Talk.bind (says_sd _) fun _ => Talk.bind hhigh fun _ => Talk.bind (hquiet _) fun _ => ?_
  refine Talk.bind hlow fun _ => Talk.bind says_millis fun t0 => ?_
  have hwake : ∀ c bus, Facing (Eq (K.select true)) { sd with cs := pinCs } c bus →
      Idling K c bus.sd := by
    rintro c bus ⟨rfl, hsd⟩
    rw [hsd]
    exact ⟨hp, ⟨rfl, rfl, rfl, rfl⟩, hcs.symm, hin⟩
  refine Talk.bind (Talk.pre (says_cmd0 n t0) hwake) fun idle => ?_
  refine Talk.ite (fun _ => says_false _) fun hidle => ?_
  refine Talk.bind (Talk.pre (says_cmd8 n) fun c bus hc => hc (by rwa [Bool.not_eq_false] at hidle))
    fun version => ?_
  refine Talk.ite (fun hill => (says_version n t0 SD_CARD_TYPE_SD1 (Or.inr rfl)).pre ?_) fun _ => ?_
  · rintro c bus ⟨c₀, sd₀, m, h, hm, ⟨⟨bytes, hlen, rfl⟩, hsd⟩, hzero, -⟩
    have hnil : bytes = [] := List.eq_nil_of_length_eq_zero (by have := hzero hill; omega)
    rw [hnil, hsd]
    exact ⟨h.done sd₀.status, hm⟩
  · refine Talk.bind ((says_rest (K := K)).pre ?_) fun _ => ?_
    · rintro c bus ⟨c₀, sd₀, m, h, hm, hc, -, hm4⟩
      exact ⟨c₀, sd₀, m, h, hm, hc, hm4⟩
    · refine Talk.bind (R := fun _ c bus => Idling K c bus.sd ∧ c.mode = .idle)
        (Talk.read fun _ _ => id) fun sd' => ?_
      refine Talk.ite (fun _ => says_false _) fun _ => ?_
      exact says_version n t0 SD_CARD_TYPE_SD2 (Or.inl rfl)

end Start

end Fkfs.Spi
