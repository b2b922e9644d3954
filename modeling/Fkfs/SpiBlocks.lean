/-
Reading and writing blocks over the wires.

Between calls the card is listening and ready, the driver is not in a block, and
the two agree on how blocks are addressed (`Ready`). A call begun so either does
what it reports and ends so, or its first command was refused and it ends so too,
or it went wrong later. Then the card may be in the middle of anything, and all
that is left is what it can have done to its blocks: a read nothing, a write
nothing but to the block it was for.

The address on the wire has 32 bits. A card that is not SDHC is addressed by
bytes, so for such a card the block has to be below `2 ^ 23`; the driver does not
check that.
-/
import Fkfs.SpiCalls

set_option autoImplicit false

namespace Fkfs.Spi

open Bytes Programs Dialogues
open Fkfs.Layout Fkfs.Driver Fkfs.Release

/-! ## Between calls -/

/-- The card and the driver between calls: `B` is what the blocks hold. -/
structure Ready (sdhc : Bool) (B : ℕ → Block) (c : SpiCard) (sd : sd_raw_t) : Prop where
  phase : c.phase = .listening []
  mode : c.mode = .ready
  card : c.sdhc = sdhc
  blocks : c.blocks = B
  cs : sd.cs = c.cs
  idle : sd.inBlock = false
  type : sd.type = SD_CARD_TYPE_SDHC ↔ sdhc = true

theorem Ready.on {sdhc : Bool} {B : ℕ → Block} {c : SpiCard} {sd : sd_raw_t}
    (h : Ready sdhc B c sd) : c.mode ≠ .off := by
  rw [h.mode]
  exact Mode.noConfusion

/-- The block the address can name. -/
def Addressable (sdhc : Bool) (block : UInt32) : Prop := sdhc = true ∨ block.toNat < 2 ^ 23

/-- **The address on the wire names the block.** -/
theorem addressed_address {sdhc : Bool} {block : UInt32} (h : Addressable sdhc block)
    {c : SpiCard} (hc : c.sdhc = sdhc) {sd : sd_raw_t}
    (htype : sd.type = SD_CARD_TYPE_SDHC ↔ sdhc = true) :
    c.addressed (sd.address block) = block.toNat := by
  rw [SpiCard.addressed, sd_raw_t.address, hc]
  by_cases hs : sdhc = true
  · rw [if_pos hs, if_neg (not_not.mpr (htype.mpr hs))]
  · have hlt : block.toNat < 2 ^ 23 := h.resolve_left hs
    rw [if_neg hs, if_pos (fun ht => hs (htype.mp ht)), UInt32.toNat_shiftLeft]
    simp only [UInt32.reduceToNat, Nat.reduceMod, Nat.shiftLeft_eq, Nat.reducePow]
    omega

section Blocks

variable {K : SpiCard} {sd : sd_raw_t}

/-- The loop of `sd_wait_start_block`: it has seen a byte that is not `0xff`, or
the time is over. -/
theorem says_start_byte (hsel : K.selected = true) (bytes : List UInt8) (n : ℕ) (t0 : UInt32) :
    Says (fun c bus => ∃ v, Facing (Eq (K.to (.fetching bytes))) { sd with status := v } c bus)
      (loop (do
        let status ← sd_raw_spi_read
        setStatus status
        if status = 0xff then do
          let now ← millis
          pure (if now - t0 > SD_RAW_READ_TIMEOUT then some false else none)
        else
          pure (some true)) n) fun started c bus =>
      (started = true → ∃ v, Facing (fun c => (v = DATA_START_BLOCK ∧ K.to (after bytes) = c)
        ∨ (v ≠ DATA_START_BLOCK ∧ K.to (.listening []) = c)) { sd with status := v } c bus)
      ∧ c.blocks = K.blocks := by
  refine Talk.loop n (Talk.exists_pre fun v => ?_)
  refine Talk.bind (says_transfer (K := K.to (.fetching bytes)) hsel 0xff) fun r => ?_
  refine Talk.bind (says_status r) fun _ => Talk.ite (fun hff => ?_) fun hff => Talk.ret ?_
  · refine Talk.bind (R := fun _ => Facing (Eq (K.to (.fetching bytes))) { sd with status := r })
      (Talk.pre says_millis ?_) fun now => Talk.ret fun c bus h => ?_
    · rintro c bus ⟨⟨-, hc⟩ | ⟨hr, -⟩ | ⟨hr, -⟩, hsd⟩
      · exact ⟨hc.symm, hsd⟩
      · rw [hff] at hr
        exact absurd hr (by decide)
      · exact absurd hff hr
    · split
      · exact ⟨r, h⟩
      · next started heq =>
        split at heq
        · cases heq
          exact ⟨fun hs => absurd hs Bool.false_ne_true, by rw [← h.1]; rfl⟩
        · cases heq
  · rintro c bus ⟨⟨hr, -⟩ | ⟨hr, rfl⟩ | ⟨-, hr, rfl⟩, hsd⟩
    · exact absurd hr hff
    · exact ⟨fun _ => ⟨r, Or.inl ⟨hr, rfl⟩, hsd⟩, rfl⟩
    · exact ⟨fun _ => ⟨r, Or.inr ⟨hr, rfl⟩, hsd⟩, rfl⟩

/-- **Waiting for a block**: the token is the card's, and its bytes come next. -/
theorem says_wait_start_block (hsel : K.selected = true) (bytes : List UInt8) (n : ℕ) :
    Says (Facing (Eq (K.to (.fetching bytes))) sd) (sd_wait_start_block n) fun started c bus =>
      (started = true → ∃ v, Facing (Eq (K.to (after bytes))) { sd with status := v } c bus)
      ∧ c.blocks = K.blocks := by
  have herror : ∀ e, Says (fun c _ => c.blocks = K.blocks) (sd_raw_error e false)
      fun started c bus => (started = true →
        ∃ v, Facing (Eq (K.to (after bytes))) { sd with status := v } c bus)
        ∧ c.blocks = K.blocks := by
    intro e
    refine (says_error e false).post ?_
    rintro a c bus ⟨rfl, -, hB⟩
    exact ⟨fun hs => absurd hs Bool.false_ne_true, hB⟩
  refine Talk.bind says_millis fun t0 => ?_
  have hfirst : ∀ c bus, Facing (Eq (K.to (.fetching bytes))) sd c bus →
      ∃ v, Facing (Eq (K.to (.fetching bytes))) { sd with status := v } c bus :=
    fun c bus h => ⟨sd.status, h⟩
  refine Talk.bind (Talk.pre (says_start_byte hsel bytes n t0) hfirst) fun started => ?_
  refine Talk.ite (fun _ => (herror _).pre fun c bus h => h.2) fun hs => ?_
  rw [Bool.not_eq_false] at hs
  refine Talk.bind (R := fun sd' c bus => bus.sd = sd' ∧ ((started = true →
    ∃ v, Facing (fun c => (v = DATA_START_BLOCK ∧ K.to (after bytes) = c)
      ∨ (v ≠ DATA_START_BLOCK ∧ K.to (.listening []) = c)) { sd with status := v } c bus)
      ∧ c.blocks = K.blocks)) (Talk.read fun _ _ h => ⟨rfl, h⟩) fun sd' => ?_
  refine Talk.ite (fun _ => (herror _).pre fun c bus h => h.2.2) fun htoken => Talk.ret ?_
  rintro c bus ⟨hsd', h, hB⟩
  refine ⟨fun _ => ?_, hB⟩
  obtain ⟨v, ⟨-, hc⟩ | ⟨hv, -⟩, hsd⟩ := h hs
  · exact ⟨v, hc, hsd⟩
  · refine absurd hv (not_not.mpr ?_)
    rw [← not_not.mp htoken, ← hsd', hsd]

/-- The end of a block: its CRC is skipped. -/
theorem says_endBlock (hsel : K.selected = true) (hcs : sd.cs = K.cs) (crc₀ crc₁ : UInt8) :
    Says (Facing (Eq (K.to (after [crc₀, crc₁]))) sd) (endBlock 2) fun _ =>
      Facing (Eq ((K.to (.listening [])).select false))
        { sd with offset := sd.offset + 1 + 1 + 1, inBlock := false } := by
  have hskip : ∀ (sd : sd_raw_t) (b : UInt8) (rest : List UInt8),
      Says (Facing (Eq (K.to (.sending b rest))) sd) skipByte fun _ =>
        Facing (Eq (K.to (after rest))) { sd with offset := sd.offset + 1 } := by
    exact fun sd b rest => Talk.bind (says_sd _) fun _ => says_skip hsel b rest
  refine Talk.bind (R := fun _ => Facing (Eq (K.to (.listening [])))
    { sd with offset := sd.offset + 1 + 1 }) ?_ fun _ => ?_
  · refine Talk.bind (hskip sd crc₀ [crc₁]) fun _ => ?_
    refine Talk.bind ?_ fun _ => Talk.ret fun _ _ => id
    exact Talk.bind (hskip _ crc₁ []) fun _ => Talk.ret fun _ _ => id
  · refine Talk.bind (says_sd _) fun _ => ?_
    refine Talk.bind (says_pin (K := K.to (.listening [])) ?_ true) fun _ => says_sd _
    exact hcs

/-- `sd_raw_read_end` where all of a block has been read but the CRC. -/
theorem says_read_end (hsel : K.selected = true) (hcs : sd.cs = K.cs) (hoff : sd.offset = 512)
    (hin : sd.inBlock = true) (crc₀ crc₁ : UInt8) :
    Says (Facing (Eq (K.to (after [crc₀, crc₁]))) sd) sd_raw_read_end fun _ c bus =>
      ∃ o, Facing (Eq ((K.to (.listening [])).select false))
        { sd with offset := o, inBlock := false } c bus := by
  refine Talk.congr (adds_of_keeps adds_read_end) ?_
    ((says_endBlock hsel hcs crc₀ crc₁).post fun _ _ _ h => ⟨_, h⟩)
  rintro c bus ⟨-, hsd⟩
  have hleft : SD_RAW_BLOCK_SIZE + 2 - bus.sd.offset.toNat = 2 := by
    rw [hsd, hoff]
    decide
  rw [read_end_open (by rw [hsd]; exact hin), hleft]

/-- **The bytes of a block**, of which the card has all and the CRC to send. -/
theorem says_readBytes (hsel : K.selected = true) (hcs : sd.cs = K.cs) (hoff : sd.offset = 0)
    (hin : sd.inBlock = true) (b : Block) (crc₀ crc₁ : UInt8) :
    Says (Facing (Eq (K.to (after (List.ofFn b ++ [crc₀, crc₁])))) sd) (readBytes 0 512)
      fun r c bus => r = (true, List.ofFn b) ∧ ∃ o,
        Facing (Eq ((K.to (.listening [])).select false))
          { sd with offset := o, inBlock := false } c bus := by
  have hlen : (512 : UInt16).toNat = (List.ofFn b).length := by
    rw [List.length_ofFn]
    decide
  have hall : sd.offset + 512 = 512 := by
    rw [hoff]
    decide
  refine Talk.bind (R := fun _ => Facing (Eq (K.to (after (List.ofFn b ++ [crc₀, crc₁])))) sd)
    (Talk.read fun _ _ => id) fun sd' => ?_
  rw [show (0 : UInt16).toNat - sd'.offset.toNat = 0 from Nat.zero_sub _, hlen]
  refine Talk.bind (R := fun _ => Facing (Eq (K.to (after (List.ofFn b ++ [crc₀, crc₁])))) sd)
    (Talk.ret fun _ _ => id) fun _ => ?_
  refine Talk.bind (says_take hsel (List.ofFn b) [crc₀, crc₁]) fun destiny => ?_
  obtain ⟨sd₁, hsd₁, hcs₁, hoff₁, hin₁, hrest⟩ :
      ∃ sd₁, { sd with offset := sd.offset + 512 } = sd₁ ∧
      sd₁.cs = K.cs ∧ sd₁.offset = 512 ∧ sd₁.inBlock = true ∧
      ∀ o, { sd₁ with offset := o, inBlock := false } = { sd with offset := o, inBlock := false } :=
    ⟨_, rfl, hcs, hall, hin, fun _ => rfl⟩
  have hset : Says (Facing (fun c => destiny = List.ofFn b ∧ K.to (after [crc₀, crc₁]) = c) sd)
      (setSd fun sd => { sd with offset := sd.offset + 512 }) fun _ c bus =>
      destiny = List.ofFn b ∧ Facing (Eq (K.to (after [crc₀, crc₁]))) sd₁ c bus := by
    rw [← hsd₁]
    exact (says_sd _).post fun _ c bus h => ⟨h.1.1, h.1.2, h.2⟩
  have hend := says_read_end hsel hcs₁ hoff₁ hin₁ crc₀ crc₁
  refine Talk.bind hset fun _ => ?_
  refine Talk.bind (Talk.fact hend.adds fun h => hend.post fun _ c bus hc => And.intro h hc)
    fun _ => Talk.ret ?_
  rintro c bus ⟨hd, o, hc⟩
  rw [hrest] at hc
  exact ⟨congrArg (Prod.mk true) hd, o, hc⟩

/-! ## Reading a block -/

/-- What a read comes to: the block, or a refusal that leaves everything as it was,
or a failure that leaves the blocks as they were. -/
def ReadOutcome (sdhc : Bool) (B : ℕ → Block) (block : UInt32) (r : Bool × List UInt8)
    (c : SpiCard) (sd : sd_raw_t) : Prop :=
  (r = (true, List.ofFn (B block.toNat)) ∧ Ready sdhc B c sd)
    ∨ (r = (false, []) ∧ sd.status = SD_CARD_ERROR_CMD17 ∧ Ready sdhc B c sd)
    ∨ (r = (false, []) ∧ sd.status = SD_CARD_ERROR_GENERAL ∧ c.blocks = B)

/-- A command was refused: the card goes on listening, and the driver lets go of it. -/
theorem says_refused {α : Type} {sdhc : Bool} {B : ℕ → Block} (h : Ready sdhc B K sd) (v : UInt8)
    (error : UInt8) (result : α) :
    Says (Facing (Eq ((K.select true).done (.listening []))) { sd with status := v })
      (sd_raw_error error result) fun a c bus =>
      a = result ∧ bus.sd.status = error ∧ Ready sdhc B c bus.sd := by
  refine Talk.bind (R := fun _ => Facing (Eq (((K.select true).done (.listening [])).select false))
    { sd with status := v }) ?_ fun _ => Talk.bind (says_status _) fun _ => Talk.ret ?_
  · exact says_pin (K := (K.select true).done (.listening [])) (by exact h.cs) true
  · rintro c bus ⟨rfl, hsd⟩
    rw [hsd]
    exact ⟨rfl, rfl, rfl, h.mode, h.card, h.blocks, h.cs, h.idle, h.type⟩

/-- `sd_raw_read_data`, from its command on. -/
theorem says_readAt {sdhc : Bool} {B : ℕ → Block} {block : UInt32}
    (haddr : Addressable sdhc block) (h : Ready sdhc B K sd) (n : ℕ) :
    Says (Facing (Eq K) sd) (readAt n (sd.address block) 0 512) fun r c bus =>
      ReadOutcome sdhc B block r c bus.sd := by
  have hf : (sentFrame CMD17 (sd.address block)).command = CMD17 := sent_command (by decide) _
  have hb : (K.select true).blocks ((K.select true).addressed
      (sentFrame CMD17 (sd.address block)).arg) = B block.toNat := by
    rw [sent_arg, ← h.blocks]
    exact congrArg K.blocks (addressed_address haddr (c := K.select true) h.card h.type)
  have hcs : ∀ v, { sd with status := v }.cs = ((K.select true).done (.listening [])).cs :=
    fun _ => h.cs
  have hfail : ∀ e, Says (fun c _ => c.blocks = B) (sd_raw_error e (false, ([] : List UInt8)))
      fun r c bus => r = (false, []) ∧ bus.sd.status = e ∧ c.blocks = B := fun e => says_error e _
  refine Talk.bind (says_command h.phase h.cs h.idle n (by decide) _) fun status => ?_
  refine Talk.ite (fun hne => ?_) fun heq => ?_
  · refine ((says_refused h status SD_CARD_ERROR_CMD17 (false, [])).mono ?_ ?_)
    · rintro c bus ⟨ha, hsd⟩
      rcases (ha.obeys h.on).read_cases hf with hr | ⟨hr, -⟩
      · exact ⟨hr.2, hsd⟩
      · exact absurd hr hne
    · exact fun r c bus hc => Or.inr (Or.inl hc)
  · have hfetch : Says (fun c bus => ∃ crcs : UInt8 × UInt8, Facing (Eq ((K.select true).done
        (.fetching (List.ofFn (B block.toNat) ++ [crcs.1, crcs.2])))) { sd with status := status }
        c bus) (do
          let started ← sd_wait_start_block n
          if started = false then
            sd_raw_error SD_CARD_ERROR_GENERAL (false, [])
          else do
            setSd fun sd => { sd with offset := 0, inBlock := true }
            readBytes 0 512) fun r c bus => ReadOutcome sdhc B block r c bus.sd := by
      refine Talk.exists_pre fun crcs => ?_
      refine Talk.bind (says_wait_start_block (K := (K.select true).done (.listening [])) rfl _ n)
        fun started => Talk.ite (fun _ => ?_) fun hs => ?_
      · refine ((hfail _).pre fun c bus hc => hc.2.trans h.blocks).post ?_
        exact fun r c bus hc => Or.inr (Or.inr hc)
      · have hread : Says (fun c bus => ∃ v, Facing (Eq (((K.select true).done (.listening [])).to
            (after (List.ofFn (B block.toNat) ++ [crcs.1, crcs.2])))) { sd with status := v } c bus)
            (do
              setSd fun sd => { sd with offset := 0, inBlock := true }
              readBytes 0 512) fun r c bus => ReadOutcome sdhc B block r c bus.sd := by
          refine Talk.exists_pre fun v => Talk.bind (says_sd _) fun _ => ?_
          refine (says_readBytes (K := (K.select true).done (.listening [])) rfl ?_ ?_ ?_
            (B block.toNat) crcs.1 crcs.2).post ?_
          · exact hcs v
          · rfl
          · rfl
          · rintro r c bus ⟨hr, o, rfl, hsd⟩
            refine Or.inl ⟨hr, ?_⟩
            rw [hsd]
            exact ⟨rfl, h.mode, h.card, h.blocks, h.cs, rfl, h.type⟩
        refine hread.pre fun c bus hc => ?_
        obtain ⟨v, hv⟩ := hc.1 (by rwa [Bool.not_eq_false] at hs)
        exact ⟨v, hv⟩
    refine hfetch.pre ?_
    rintro c bus ⟨ha, hsd⟩
    rcases (ha.obeys h.on).read_cases hf with hr | ⟨-, crc₀, crc₁, hc⟩
    · exact absurd hr.ne_zero heq
    · rw [hb] at hc
      exact ⟨(crc₀, crc₁), hc, hsd⟩

/-- **A read**, begun between calls. -/
theorem says_read_block {sdhc : Bool} {B : ℕ → Block} {block : UInt32}
    (haddr : Addressable sdhc block) (n : ℕ) :
    Says (fun c bus => Ready sdhc B c bus.sd) (sd_raw_read_block n block) fun r c bus =>
      ReadOutcome sdhc B block r c bus.sd := by
  have hadds : ∀ t, Keeps (fun bus => t <+: bus.trace) (openBlock n block 0 512) := fun t =>
    Keeps.bind (fun _ => id) fun _ => Keeps.bind (Keeps.read _) fun _ => adds_readAt t _ _ _ _
  have hopen : ∀ K sd, Ready sdhc B K sd → Says (Facing (Eq K) sd) (openBlock n block 0 512)
      fun r c bus => ReadOutcome sdhc B block r c bus.sd := by
    intro K sd h
    have hblock : Ready sdhc B K { sd with block := block } :=
      ⟨h.phase, h.mode, h.card, h.blocks, h.cs, h.idle, h.type⟩
    refine Talk.bind (says_sd _) fun _ => Talk.get { sd with block := block } ?_ ?_ ?_
    · exact adds_of_keeps fun t => Keeps.bind (Keeps.read _) fun _ => adds_readAt t _ _ _ _
    · exact fun c bus hc => hc.2
    · exact says_readAt haddr hblock n
  refine Talk.congr (adds_of_keeps fun t => ?_) ?_ (says_from (adds_of_keeps hadds) hopen)
  · refine Keeps.ite (Keeps.ret _) (Keeps.ite ((stable_trace t).error _ _) ?_)
    exact Keeps.bind (Keeps.read _) fun sd => Keeps.ite (hadds t) (adds_readBytes t _ _)
  · exact fun c bus h => read_block_idle h.idle n block
/-! ## Writing a block -/

/-- What a write comes to: the block is stored, or a refusal has left everything as
it was, or it has failed and only this block can have changed. -/
def WriteOutcome (sdhc : Bool) (B : ℕ → Block) (block : UInt32) (source : Block) (r : Bool)
    (c : SpiCard) (sd : sd_raw_t) : Prop :=
  (r = true ∧ Ready sdhc (Function.update B block.toNat source) c sd)
    ∨ (r = false ∧ sd.status = SD_CARD_ERROR_CMD24 ∧ Ready sdhc B c sd)
    ∨ (r = false ∧ sd.status ≠ SD_CARD_ERROR_CMD24
      ∧ ∃ torn, c.blocks = Function.update B block.toNat torn)

/-- A failed write that has not got as far as the block. -/
theorem write_outcome_failed {sdhc : Bool} {B : ℕ → Block} {block : UInt32} {source : Block}
    {r : Bool} {c : SpiCard} {sd : sd_raw_t} (hr : r = false)
    (he : sd.status ≠ SD_CARD_ERROR_CMD24) (hB : c.blocks = B) :
    WriteOutcome sdhc B block source r c sd :=
  Or.inr (Or.inr ⟨hr, he, B block.toNat, by rw [hB, Function.update_eq_self]⟩)

/-- The block the card takes from the bytes sent to it, the dummy CRC with them. -/
theorem blockOf_sent (source : Block) (crc : List UInt8) :
    blockOf (List.ofFn source ++ crc) = source := by
  funext i
  have hi : (i : ℕ) < (List.ofFn source).length := by
    rw [List.length_ofFn]
    exact i.isLt
  rw [blockOf, List.getD_eq_getElem?_getD, List.getElem?_append_left hi, List.getElem?_ofFn,
    dif_pos i.isLt]
  rfl

/-- One more byte of a block. -/
theorem says_block_byte (hsel : K.selected = true) (b : ℕ) (bytes : List UInt8)
    (hlen : bytes.length < 513) (value : UInt8) :
    Says (Facing (Eq (K.to (.receiving b bytes))) sd) (sd_raw_spi_write value) fun _ =>
      Facing (Eq (K.to (.receiving b (bytes ++ [value])))) sd := by
  refine (says_transfer (K := K.to (.receiving b bytes)) hsel value).post ?_
  rintro r c bus ⟨⟨-, hc⟩, hsd⟩
  rw [if_pos hlen] at hc
  exact ⟨hc.symm, hsd⟩

/-- **The block goes out**, and the card's verdict on it comes in. -/
theorem says_write_data (hsel : K.selected = true) (b : ℕ) (source : Block) :
    Says (Facing (Eq (K.to (.awaiting b))) sd) (sd_raw_write_data DATA_START_BLOCK source)
      fun written c bus => (written = true →
        ∃ v, Facing (Eq (K.to (.programming b source))) { sd with status := v } c bus)
        ∧ c.blocks = K.blocks := by
  have htoken : Says (Facing (Eq (K.to (.awaiting b))) sd) (sd_raw_spi_write DATA_START_BLOCK)
      fun _ => Facing (Eq (K.to (.receiving b []))) sd := by
    refine (says_transfer (K := K.to (.awaiting b)) hsel _).post ?_
    rintro r c bus ⟨⟨-, hc⟩, hsd⟩
    rw [if_neg (by decide), if_pos rfl] at hc
    exact ⟨hc.symm, hsd⟩
  have hbytes : Says (Facing (Eq (K.to (.receiving b []))) sd)
      (each sd_raw_spi_write (List.ofFn source)) fun _ =>
      Facing (Eq (K.to (.receiving b (List.ofFn source)))) sd := by
    refine Talk.each (I := fun done => Facing (Eq (K.to (.receiving b done))) sd) _ ?_
    intro bs x cs hbs
    have hlen := congrArg List.length hbs
    rw [List.length_ofFn, List.length_append, List.length_cons] at hlen
    exact says_block_byte hsel b bs (by omega) x
  have hlast : Says (Facing (Eq (K.to (.receiving b (List.ofFn source ++ [0xff])))) sd)
      (sd_raw_spi_write 0xff) fun _ => Facing (Eq (K.to (.judging b source))) sd := by
    refine (says_transfer (K := K.to (.receiving b _)) hsel _).post ?_
    rintro r c bus ⟨⟨-, hc⟩, hsd⟩
    have hfull : ¬ (List.ofFn source ++ [(0xff : UInt8)]).length < 513 := by
      rw [List.length_append, List.length_ofFn, List.length_singleton]
      exact Nat.lt_irrefl _
    rw [if_neg hfull, blockOf_sent] at hc
    exact ⟨hc.symm, hsd⟩
  have hlen : (List.ofFn source).length < 513 := by
    rw [List.length_ofFn]
    exact Nat.lt_succ_self _
  refine Talk.bind htoken fun _ => Talk.bind hbytes fun _ => ?_
  refine Talk.bind (says_block_byte hsel b _ hlen 0xff) fun _ => Talk.bind hlast fun _ => ?_
  refine Talk.bind (says_transfer (K := K.to (.judging b source)) hsel 0xff) fun status => ?_
  refine Talk.bind (says_status status) fun _ => Talk.ite (fun hne => ?_) fun heq => Talk.ret ?_
  · refine Talk.mono (says_error (B := K.blocks) _ false) ?_ ?_
    · rintro c bus ⟨hc, -⟩
      rw [show c = _ from hc]
      rfl
    · rintro r c bus ⟨rfl, -, hB⟩
      exact ⟨fun hs => absurd hs Bool.false_ne_true, hB⟩
  · rintro c bus ⟨hc, hsd⟩
    have hc' : c = (K.to (.judging b source)).to (if status &&& DATA_RES_MASK = DATA_RES_ACCEPTED
      then .programming b source else .listening []) := hc
    rw [if_pos (not_not.mp heq)] at hc'
    exact ⟨fun _ => ⟨status, hc'.symm, hsd⟩, by rw [hc']; rfl⟩

/-- **The wait for a block to be programmed**: `0xff` says that it is over. -/
theorem says_programmed (hsel : K.selected = true) (b : ℕ) (source : Block) (n : ℕ)
    (timeoutMs : UInt16) :
    Says (Facing (Eq (K.to (.programming b source))) sd) (sd_raw_flush n timeoutMs)
      fun flushed c bus => (flushed = true →
        Facing (Finished (K.to (.programming b source)) b source) sd c bus)
        ∧ (flushed = false → c.blocks = K.blocks) := by
  refine Talk.bind says_millis fun t0 => Talk.loop n ?_
  refine Talk.bind (says_transfer (K := K.to (.programming b source)) hsel 0xff) fun value => ?_
  refine Talk.ite (fun hff => Talk.ret ?_) fun hff => ?_
  · rintro c bus ⟨⟨hne, -⟩ | ⟨-, hfin⟩, hsd⟩
    · exact absurd hff hne
    · exact ⟨fun _ => ⟨hfin, hsd⟩, fun hs => absurd hs.symm Bool.false_ne_true⟩
  · refine Talk.bind (R := fun _ => Facing (Eq (K.to (.programming b source))) sd)
      (Talk.pre says_millis ?_) fun now => Talk.ret fun c bus h => ?_
    · rintro c bus ⟨⟨-, hc⟩ | ⟨heq, -⟩, hsd⟩
      · exact ⟨hc.symm, hsd⟩
      · exact absurd heq hff
    · split
      · exact h
      · next flushed heq =>
        split at heq
        · cases heq
        · cases heq
          exact ⟨fun hs => absurd hs Bool.false_ne_true, fun _ => by rw [← h.1]; rfl⟩

/-- **`CMD13`**: nothing but zeros says that nothing has failed. -/
theorem says_checkStatus (hp : K.phase = .listening []) (hm : K.mode = .ready)
    (hcs : sd.cs = K.cs) (hin : sd.inBlock = false) (n : ℕ) :
    Says (Facing (Eq K) sd) (checkStatus n) fun bad c bus => (bad = false → K.failed = false ∧
        ∃ v, Facing (Eq { K.select true with app := false, failed := false })
          { sd with status := v } c bus) ∧ c.blocks = K.blocks := by
  have hf : (sentFrame CMD13 0).command = CMD13 := sent_command (by decide) _
  have hon : (K.select true).mode ≠ .off := by
    rw [show (K.select true).mode = .ready from hm]
    exact Mode.noConfusion
  refine Talk.bind (says_command hp hcs hin n (by decide) 0) fun status => ?_
  refine Talk.ite (fun hne => Talk.ret ?_) fun heq => ?_
  · rintro c bus ⟨ha, hsd⟩
    refine ⟨fun hs => absurd hs.symm Bool.false_ne_true, ?_⟩
    rcases (ha.obeys hon).status_cases hf with hr | ⟨hr, -⟩
    · rw [← hr.2]
      rfl
    · exact absurd hr hne
  · have hsecond : ∀ second, (K.failed = true → second ≠ 0) →
        Says (Facing (Eq { K.select true with
          app := false, failed := false, phase := after [second] }) { sd with status := status })
          (do let second ← sd_raw_spi_read; pure (second != 0)) fun bad c bus =>
          (bad = false → K.failed = false ∧
            ∃ v, Facing (Eq { K.select true with app := false, failed := false })
              { sd with status := v } c bus) ∧ c.blocks = K.blocks := by
      intro second hfail
      refine Talk.bind (says_transfer (K := { K.select true with
        app := false, failed := false, phase := after [second] }) rfl 0xff) fun r => Talk.ret ?_
      rintro c bus ⟨⟨rfl, rfl⟩, hsd⟩
      refine ⟨fun hzero => ⟨?_, status, ?_, hsd⟩, rfl⟩
      · rw [Bool.eq_false_iff]
        intro htrue
        exact hfail htrue (by simpa using hzero)
      · rw [show K.select true = { K.select true with phase := .listening [] } by
          rw [SpiCard.select, ← hp]]
        rfl
    refine Talk.pre (Talk.exists_pre fun second => Talk.fact ?_ (hsecond second)) ?_
    · exact adds_of_keeps fun t => Keeps.bind (stable_trace t).spi_read fun _ => Keeps.ret _
    · rintro c bus ⟨ha, hsd⟩
      rcases (ha.obeys hon).status_cases hf with hr | ⟨-, second, hfail, hc⟩
      · exact absurd hr.ne_zero heq
      · exact ⟨second, hfail, hc, hsd⟩

/-- The end of a write, once the card has stopped programming: `stored` is what the
block holds now, and the card knows whether that is what was sent. -/
theorem says_confirm {sdhc : Bool} {B : ℕ → Block} {block : UInt32} {source : Block}
    (stored : Block) (hstored : K.failed = false → stored = source)
    (h : Ready sdhc (Function.update B block.toNat stored) K sd) (n : ℕ) :
    Says (Facing (Eq K) sd) (do
        let failed ← checkStatus n
        if failed = true then
          sd_raw_error SD_CARD_ERROR_WRITE_PROGRAMMING false
        else do
          sd_raw_cs_high
          pure true) fun r c bus => WriteOutcome sdhc B block source r c bus.sd := by
  refine Talk.bind (says_checkStatus h.phase h.mode h.cs h.idle n) fun bad => ?_
  refine Talk.ite (fun _ => ?_) fun hbad => ?_
  · refine Talk.mono (says_error (B := Function.update B block.toNat stored) _ false) ?_ ?_
    · exact fun c bus hc => hc.2.trans h.blocks
    · rintro r c bus ⟨hr, he, hB⟩
      exact Or.inr (Or.inr ⟨hr, by rw [he]; decide, stored, hB⟩)
  · have hgood : Says (fun c bus => ∃ v, K.failed = false ∧
        Facing (Eq { K.select true with app := false, failed := false })
          { sd with status := v } c bus) (do sd_raw_cs_high; pure true) fun r c bus =>
        WriteOutcome sdhc B block source r c bus.sd := by
      refine Talk.exists_pre fun v => Talk.fact ?_ fun hok => ?_
      · exact adds_of_keeps fun t => Keeps.bind ((stable_trace t).digitalWrite _) fun _ => Keeps.ret _
      · refine Talk.bind (says_pin (K := { K.select true with app := false, failed := false })
          (by exact h.cs) true) fun _ => Talk.ret ?_
        rintro c bus ⟨rfl, hsd⟩
        refine Or.inl ⟨rfl, ?_⟩
        rw [hsd, ← hstored hok]
        exact ⟨h.phase, h.mode, h.card, h.blocks, h.cs, h.idle, h.type⟩
    refine hgood.pre ?_
    rintro c bus ⟨hc, -⟩
    obtain ⟨hok, v, hv⟩ := hc (by rwa [Bool.not_eq_true] at hbad)
    exact ⟨v, hok, hv⟩

/-- `sd_raw_write_block`, from its command on. -/
theorem says_writeAt {sdhc : Bool} {B : ℕ → Block} {block : UInt32}
    (haddr : Addressable sdhc block) (h : Ready sdhc B K sd) (source : Block) (n : ℕ) :
    Says (Facing (Eq K) sd) (writeAt n (sd.address block) source) fun r c bus =>
      WriteOutcome sdhc B block source r c bus.sd := by
  have hf : (sentFrame CMD24 (sd.address block)).command = CMD24 := sent_command (by decide) _
  have hb : (K.select true).addressed (sentFrame CMD24 (sd.address block)).arg = block.toNat := by
    rw [sent_arg]
    exact addressed_address haddr (c := K.select true) h.card h.type
  have hfail : ∀ e, e ≠ SD_CARD_ERROR_CMD24 → Says (fun c _ => c.blocks = B)
      (sd_raw_error e false) fun r c bus => WriteOutcome sdhc B block source r c bus.sd := by
    intro e he
    refine (says_error e false).post ?_
    rintro r c bus ⟨hr, hstatus, hB⟩
    exact write_outcome_failed hr (by rwa [hstatus]) hB
  generalize hK : (K.select true).done (.listening []) = K₁
  have hready : ∀ (v : UInt8) (stored : Block) (b : Bool), Ready sdhc
      (Function.update B block.toNat stored) { K₁ with
        blocks := Function.update K₁.blocks block.toNat stored, failed := b, phase := .listening [] }
      { sd with status := v } := by
    intro v stored b
    rw [← hK]
    refine ⟨rfl, h.mode, h.card, ?_, h.cs, h.idle, h.type⟩
    rw [← h.blocks]
    rfl
  have hB : K₁.blocks = B := by
    rw [← hK]
    exact h.blocks
  have hsel : K₁.selected = true := by
    rw [← hK]
    rfl
  have hdata : ∀ v, Says (Facing (Eq (K₁.to (.awaiting block.toNat))) { sd with status := v })
      (sd_raw_write_data DATA_START_BLOCK source) fun written c bus => (written = true →
        ∃ v, Facing (Eq (K₁.to (.programming block.toNat source))) { sd with status := v } c bus)
        ∧ c.blocks = K₁.blocks :=
    fun v => says_write_data hsel block.toNat source
  have hwait : ∀ v, Says (Facing (Eq (K₁.to (.programming block.toNat source)))
      { sd with status := v }) (sd_raw_flush n SD_RAW_WRITE_TIMEOUT.toUInt16) fun flushed c bus =>
        (flushed = true → Facing (Finished (K₁.to (.programming block.toNat source)) block.toNat
          source) { sd with status := v } c bus) ∧ (flushed = false → c.blocks = K₁.blocks) :=
    fun v => says_programmed hsel block.toNat source n _
  refine Talk.bind (says_command h.phase h.cs h.idle n (by decide) _) fun status => ?_
  refine Talk.ite (fun hne => ?_) fun heq => ?_
  · refine (says_refused h status SD_CARD_ERROR_CMD24 false).mono ?_ ?_
    · rintro c bus ⟨ha, hsd⟩
      rcases (ha.obeys h.on).write_cases hf with hr | ⟨hr, -⟩
      · exact ⟨hr.2, hsd⟩
      · exact absurd hr hne
    · exact fun r c bus hc => Or.inr (Or.inl hc)
  · refine Talk.bind (Talk.pre (hdata status) ?_) fun written => ?_
    · rintro c bus ⟨ha, hsd⟩
      rcases (ha.obeys h.on).write_cases hf with hr | ⟨-, hc⟩
      · exact absurd hr.ne_zero heq
      · rw [hb] at hc
        rw [← hK]
        exact ⟨hc, hsd⟩
    refine Talk.ite (fun _ => ?_) fun hw => ?_
    · exact (hfail _ (by decide)).pre fun c bus hc => hc.2.trans hB
    refine Talk.pre (Talk.exists_pre fun v => Talk.bind (hwait v) fun flushed => ?_)
      fun c bus hc => hc.1 (by rwa [Bool.not_eq_false] at hw)
    refine Talk.ite (fun hs => ?_) fun hs => ?_
    · exact (hfail _ (by decide)).pre fun c bus hc => (hc.2 hs).trans hB
    rw [Bool.not_eq_false] at hs
    refine Talk.pre ((says_confirm source (fun _ => rfl)
      (hready v source K₁.failed) n).or_pre (Talk.exists_pre fun torn =>
        says_confirm torn ?_ (hready v torn true) n)) ?_
    · exact fun hok => absurd hok.symm Bool.false_ne_true
    · rintro c bus ⟨hc, -⟩
      obtain ⟨rfl | ⟨torn, rfl⟩, hsd⟩ := hc hs
      · exact Or.inl ⟨rfl, hsd⟩
      · exact Or.inr ⟨torn, rfl, hsd⟩

/-- **A write**, begun between calls. -/
theorem says_write_block {sdhc : Bool} {B : ℕ → Block} {block : UInt32}
    (haddr : Addressable sdhc block) (source : Block) (n : ℕ) :
    Says (fun c bus => Ready sdhc B c bus.sd) (sd_raw_write_block n block source) fun r c bus =>
      WriteOutcome sdhc B block source r c bus.sd := by
  have hadds : Adds Bus.trace (sd_raw_write_block n block source) :=
    adds_of_keeps fun t => Keeps.bind (Keeps.read _) fun sd => adds_writeAt t n _ source
  refine says_from hadds fun K sd h => ?_
  exact Talk.get sd hadds (fun c bus hc => hc.2) (says_writeAt haddr h source n)

end Blocks

end Fkfs.Spi
