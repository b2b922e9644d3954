/-
The size of the card.

`fkfs_initialize` takes the number of blocks from `sd_raw_card_size`, which reads
the CSD register and decodes it. What the register says is `capacity`, in the
terms of the register: a version 1 register gives a block length, a number of
blocks and a multiplier, a version 2 register the number of 512 KiB units in the
twenty-two bits from bit 48 on.

`csd2_t` puts the two reserved bits of byte 7 below `c_size_high` and not above,
so the driver reads that byte shifted down by two. Up to 32 GiB the byte is zero
and nothing comes of it; for a larger card the driver has a different size
(`card_size_exact`).
-/
import Fkfs.SpiRuns

set_option autoImplicit false

namespace Fkfs.Spi

open Bytes Programs Dialogues
open Fkfs.Layout Fkfs.Driver Fkfs.Release

/-! ## The register -/

/-- The blocks of 512 bytes a card has, by its CSD register. -/
def capacity (csd : Buf 16) : ℕ :=
  if (csd 0).toNat / 64 = 0 then
    let readBlLen := (csd 5).toNat % 16
    let cSize := (csd 6).toNat % 4 * 1024 + (csd 7).toNat * 4 + (csd 8).toNat / 64
    let cSizeMult := (csd 9).toNat % 4 * 2 + (csd 10).toNat / 128
    (cSize + 1) * 2 ^ (cSizeMult + 2) * 2 ^ readBlLen / 512
  else
    ((csd 7).toNat % 64 * 65536 + (csd 8).toNat * 256 + (csd 9).toNat + 1) * 1024

/-- A register as cards have it: version 1 with blocks of 512, 1024 or 2048 bytes, or
version 2 with the reserved bits of byte 7 clear. -/
def Proper (csd : Buf 16) : Prop :=
  ((csd 0).toNat / 64 = 0 ∧ 9 ≤ (csd 5).toNat % 16 ∧ (csd 5).toNat % 16 ≤ 11)
    ∨ ((csd 0).toNat / 64 = 1 ∧ (csd 7).toNat < 64)

instance (csd : Buf 16) : Decidable (Proper csd) := by
  unfold Proper
  infer_instance

/-- `sd_raw_card_size`, once the register is read. -/
def decodeCsd (csd : List UInt8) : UInt32 :=
  if csdByte csd 0 >>> 6 = 0 then
    let readBlLen := csdByte csd 5 &&& 0xF
    let cSize := ((csdByte csd 6 &&& 3) <<< 10) ||| (csdByte csd 7 <<< 2) ||| (csdByte csd 8 >>> 6)
    let cSizeMult := ((csdByte csd 9 &&& 3) <<< 1) ||| (csdByte csd 10 >>> 7)
    (cSize + 1) <<< (cSizeMult + readBlLen - 7)
  else
    let cSize := ((csdByte csd 7 >>> 2) <<< 16) ||| (csdByte csd 8 <<< 8) ||| csdByte csd 9
    (cSize + 1) * 1024

/-- A disjunction of bits that do not meet is a sum. -/
theorem or_toNat {a b : UInt32} (s : UInt32) (n p : ℕ) (hs : s.toNat = n) (hn : n < 32)
    (hp : 2 ^ n = p) (ha : a.toNat * p < 2 ^ 32) (hb : b.toNat < p) :
    ((a <<< s) ||| b).toNat = a.toNat * p + b.toNat := by
  subst hp
  rw [UInt32.toNat_or, UInt32.toNat_shiftLeft, hs, Nat.mod_eq_of_lt hn, Nat.shiftLeft_eq,
    Nat.mod_eq_of_lt ha, ← Nat.shiftLeft_eq, ← Nat.shiftLeft_add_eq_or_of_lt hb, Nat.shiftLeft_eq]

theorem and_toNat (b m : UInt32) (n p : ℕ) (hm : m.toNat = 2 ^ n - 1) (hp : 2 ^ n = p) :
    (b &&& m).toNat = b.toNat % p := by
  rw [UInt32.toNat_and, hm, Nat.and_two_pow_sub_one_eq_mod, hp]

theorem shift_toNat (b s : UInt32) (n p : ℕ) (hs : s.toNat = n) (hn : n < 32)
    (hp : 2 ^ n = p) : (b >>> s).toNat = b.toNat / p := by
  rw [UInt32.toNat_shiftRight, hs, Nat.mod_eq_of_lt hn, Nat.shiftRight_eq_div_pow, hp]

/-- `c_size` of version 1, in three bytes. -/
theorem size_one {a b c : UInt32} (hb : b.toNat < 256) (hc : c.toNat < 256) :
    (((a &&& 3) <<< 10) ||| (b <<< 2) ||| (c >>> 6)).toNat
      = a.toNat % 4 * 1024 + b.toNat * 4 + c.toNat / 64 := by
  have hhigh : (a &&& 3).toNat = a.toNat % 4 := and_toNat a 3 2 4 rfl rfl
  have hlow : (c >>> 6).toNat = c.toNat / 64 := shift_toNat c 6 6 64 rfl (by decide) rfl
  have hmid : ((b <<< 2) ||| (c >>> 6)).toNat = b.toNat * 4 + c.toNat / 64 := by
    rw [or_toNat 2 2 4 rfl (by decide) rfl (by omega) (by omega), hlow]
  rw [UInt32.or_assoc, or_toNat 10 10 1024 rfl (by decide) rfl (by omega) (by omega), hhigh, hmid,
    Nat.add_assoc]

/-- `c_size_mult`, in two. -/
theorem mult_one {a b : UInt32} (hb : b.toNat < 256) :
    (((a &&& 3) <<< 1) ||| (b >>> 7)).toNat = a.toNat % 4 * 2 + b.toNat / 128 := by
  have hhigh : (a &&& 3).toNat = a.toNat % 4 := and_toNat a 3 2 4 rfl rfl
  have hlow : (b >>> 7).toNat = b.toNat / 128 := shift_toNat b 7 7 128 rfl (by decide) rfl
  rw [or_toNat 1 1 2 rfl (by decide) rfl (by omega) (by omega), hhigh, hlow]

/-- `c_size` of version 2 as the driver has it. -/
theorem size_two {a b c : UInt32} (ha : a.toNat < 256) (hb : b.toNat < 256) (hc : c.toNat < 256) :
    (((a >>> 2) <<< 16) ||| (b <<< 8) ||| c).toNat
      = a.toNat / 4 * 65536 + b.toNat * 256 + c.toNat := by
  have hhigh : (a >>> 2).toNat = a.toNat / 4 := shift_toNat a 2 2 4 rfl (by decide) rfl
  have hmid : ((b <<< 8) ||| c).toNat = b.toNat * 256 + c.toNat :=
    or_toNat 8 8 256 rfl (by decide) rfl (by omega) (by omega)
  rw [UInt32.or_assoc, or_toNat 16 16 65536 rfl (by decide) rfl (by omega) (by omega), hhigh, hmid,
    Nat.add_assoc]

section Decode

variable {csd : Buf 16}

theorem csdByte_toNat (csd : Buf 16) (k : ℕ) (i : Fin 16) (hi : i.val = k) :
    (csdByte (List.ofFn csd) k).toNat = (csd i).toNat := by
  rw [csdByte, List.getD_eq_getElem?_getD, List.getElem?_ofFn, dif_pos (hi ▸ i.isLt)]
  subst hi
  rfl

theorem csdByte_lt (csd : Buf 16) (k : ℕ) : (csdByte (List.ofFn csd) k).toNat < 256 := by
  rw [csdByte, UInt8.toNat_toUInt32]
  exact UInt8.toNat_lt _

theorem version_toNat (csd : Buf 16) :
    (csdByte (List.ofFn csd) 0 >>> 6).toNat = (csd 0).toNat / 64 := by
  rw [shift_toNat _ 6 6 64 rfl (by decide) rfl, csdByte_toNat csd 0 0 rfl]

/-- **Version 1**: the driver's shift is the register's product. -/
theorem decode_one (hver : (csd 0).toNat / 64 = 0) (hlen : 9 ≤ (csd 5).toNat % 16)
    (hlen' : (csd 5).toNat % 16 ≤ 11) :
    (decodeCsd (List.ofFn csd)).toNat = capacity csd := by
  have h0 : csdByte (List.ofFn csd) 0 >>> 6 = 0 := by
    apply UInt32.toNat_inj.mp
    rw [version_toNat, hver]
    rfl
  have hl : (csdByte (List.ofFn csd) 5 &&& 0xF).toNat = (csd 5).toNat % 16 := by
    rw [and_toNat _ 0xF 4 16 rfl rfl, csdByte_toNat csd 5 5 rfl]
  have hc := size_one (a := csdByte (List.ofFn csd) 6) (csdByte_lt csd 7) (csdByte_lt csd 8)
  have hm := mult_one (a := csdByte (List.ofFn csd) 9) (csdByte_lt csd 10)
  rw [csdByte_toNat csd 6 6 rfl, csdByte_toNat csd 7 7 rfl, csdByte_toNat csd 8 8 rfl] at hc
  rw [csdByte_toNat csd 9 9 rfl, csdByte_toNat csd 10 10 rfl] at hm
  have h7 : (csd 7).toNat < 256 := (csd 7).toNat_lt
  have h8 : (csd 8).toNat < 256 := (csd 8).toNat_lt
  have h10 : (csd 10).toNat < 256 := (csd 10).toNat_lt
  rw [decodeCsd, if_pos h0, capacity, if_pos hver]
  generalize (csd 5).toNat % 16 = l at hlen hlen' hl ⊢
  generalize hC : (csd 6).toNat % 4 * 1024 + (csd 7).toNat * 4 + (csd 8).toNat / 64 = C at hc ⊢
  generalize hM : (csd 9).toNat % 4 * 2 + (csd 10).toNat / 128 = M at hm ⊢
  have hC' : C < 4096 := by omega
  have hM' : M ≤ 7 := by omega
  have hs : ((((csdByte (List.ofFn csd) 9 &&& 3) <<< 1) ||| (csdByte (List.ofFn csd) 10 >>> 7))
      + (csdByte (List.ofFn csd) 5 &&& 0xF) - 7).toNat = M + l - 7 := by
    rw [UInt32.toNat_sub, UInt32.toNat_add, hm, hl]
    change (4294967296 - 7 + (M + l) % 4294967296) % 4294967296 = M + l - 7
    omega
  obtain ⟨k, rfl⟩ : ∃ k, l = k + 9 := ⟨l - 9, by omega⟩
  have hpow : 2 ^ (M + 2) * 2 ^ (k + 9) = 2 ^ (M + (k + 9) - 7) * 512 := by
    rw [← pow_add, show M + 2 + (k + 9) = (M + (k + 9) - 7) + 9 by omega, pow_add]
    rfl
  have hle : 2 ^ (M + (k + 9) - 7) ≤ 2 ^ 11 := Nat.pow_le_pow_right (by decide) (by omega)
  have hlt : (C + 1) * 2 ^ (M + (k + 9) - 7) < 4294967296 :=
    lt_of_le_of_lt (Nat.mul_le_mul (Nat.succ_le_of_lt hC') hle) (by decide)
  rw [UInt32.toNat_shiftLeft, hs, UInt32.toNat_add, hc, Nat.mod_eq_of_lt (by omega : _ < 32),
    Nat.shiftLeft_eq]
  change (C + 1) % 4294967296 * 2 ^ (M + (k + 9) - 7) % 4294967296 = _
  change _ = (C + 1) * 2 ^ (M + 2) * 2 ^ (k + 9) / 512
  rw [Nat.mod_eq_of_lt (by omega : C + 1 < 4294967296), Nat.mod_eq_of_lt hlt,
    Nat.mul_assoc (C + 1) (2 ^ (M + 2)), hpow, ← Nat.mul_assoc, Nat.mul_div_cancel _ (by decide)]

/-- **Version 2**: byte 7 comes out shifted. -/
theorem decode_two (hver : (csd 0).toNat / 64 = 1) (h7 : (csd 7).toNat < 64) :
    (decodeCsd (List.ofFn csd)).toNat
      = ((csd 7).toNat / 4 * 65536 + (csd 8).toNat * 256 + (csd 9).toNat + 1) * 1024 := by
  have h0 : csdByte (List.ofFn csd) 0 >>> 6 ≠ 0 := by
    intro h
    have hzero := congrArg UInt32.toNat h
    rw [version_toNat, hver] at hzero
    exact absurd hzero (by decide)
  have hc := size_two (csdByte_lt csd 7) (csdByte_lt csd 8) (csdByte_lt csd 9)
  rw [csdByte_toNat csd 7 7 rfl, csdByte_toNat csd 8 8 rfl, csdByte_toNat csd 9 9 rfl] at hc
  have h8 : (csd 8).toNat < 256 := (csd 8).toNat_lt
  have h9 : (csd 9).toNat < 256 := (csd 9).toNat_lt
  rw [decodeCsd, if_neg h0, UInt32.toNat_mul, UInt32.toNat_add, hc]
  change (_ + 1) % 4294967296 * 1024 % 4294967296 = _
  omega

/-- A card with a version 1 register is not that large. -/
theorem capacity_one (hver : (csd 0).toNat / 64 = 0) (hlen : (csd 5).toNat % 16 ≤ 11) :
    capacity csd ≤ 2 ^ 26 := by
  have h7 : (csd 7).toNat < 256 := (csd 7).toNat_lt
  have h8 : (csd 8).toNat < 256 := (csd 8).toNat_lt
  have h10 : (csd 10).toNat < 256 := (csd 10).toNat_lt
  have hsize : (csd 6).toNat % 4 * 1024 + (csd 7).toNat * 4 + (csd 8).toNat / 64 + 1 ≤ 4096 := by
    omega
  have hmult : 2 ^ ((csd 9).toNat % 4 * 2 + (csd 10).toNat / 128 + 2) ≤ 2 ^ 9 :=
    Nat.pow_le_pow_right (by decide) (by omega)
  have hblLen : 2 ^ ((csd 5).toNat % 16) ≤ 2 ^ 11 := Nat.pow_le_pow_right (by decide) hlen
  rw [capacity, if_pos hver]
  exact Nat.div_le_of_le_mul (le_trans (Nat.mul_le_mul (Nat.mul_le_mul hsize hmult) hblLen)
    (by decide))

/-- **The driver has the size right** exactly up to `2 ^ 26` blocks. -/
theorem decode_exact (h : Proper csd) :
    (decodeCsd (List.ofFn csd)).toNat = capacity csd ↔ capacity csd ≤ 2 ^ 26 := by
  rcases h with ⟨hver, hlen, hlen'⟩ | ⟨hver, h7⟩
  · exact iff_of_true (decode_one hver hlen hlen') (capacity_one hver hlen')
  · have h8 : (csd 8).toNat < 256 := (csd 8).toNat_lt
    have h9 : (csd 9).toNat < 256 := (csd 9).toNat_lt
    rw [decode_two hver h7, capacity, if_neg (by rw [hver]; decide), Nat.mod_eq_of_lt h7]
    omega

end Decode

/-! ## Over the wires -/

section Register

variable {K : SpiCard} {sd : sd_raw_t}

/-- `sd_raw_read_register`: the sixteen bytes of the register, and the call is over,
or it has failed. -/
theorem says_read_csd {sdhc : Bool} {B : ℕ → Block} (h : Ready sdhc B K sd) (n : ℕ) :
    Says (Facing (Eq K) sd) (sd_raw_read_csd n) fun r c bus =>
      (r = some (List.ofFn K.csd) ∧ Ready sdhc B c bus.sd) ∨ (r = none ∧ c.blocks = B) := by
  have hf : (sentFrame CMD9 0).command = CMD9 := sent_command (by decide) 0
  have hfail : ∀ e, Says (fun c _ => c.blocks = B) (sd_raw_error e none) fun r c bus =>
      (r = some (List.ofFn K.csd) ∧ Ready sdhc B c bus.sd) ∨ (r = none ∧ c.blocks = B) :=
    fun e => (says_error e none).post fun r c bus hc => Or.inr ⟨hc.1, hc.2.2⟩
  refine Talk.bind (says_command h.phase h.cs h.idle n (by decide) 0) fun status => ?_
  refine Talk.ite (fun hne => ?_) fun heq => ?_
  · refine (hfail _).pre ?_
    rintro c bus ⟨ha, hsd⟩
    rw [(ha.obeys h.on).same.blocks]
    exact h.blocks
  generalize hK : (K.select true).done (.listening []) = K₁
  have hsel : K₁.selected = true := by
    rw [← hK]
    rfl
  have hcs : sd.cs = K₁.cs := by
    rw [← hK]
    exact h.cs
  have hB : K₁.blocks = B := by
    rw [← hK]
    exact h.blocks
  have hready : ∀ v, Ready sdhc B ((K₁.to (.listening [])).select false) { sd with status := v } := by
    intro v
    rw [← hK]
    exact ⟨rfl, h.mode, h.card, h.blocks, h.cs, h.idle, h.type⟩
  have hcrc : ∀ v (crc₀ crc₁ : UInt8) (destiny : List UInt8), destiny = List.ofFn K.csd →
      Says (Facing (Eq (K₁.to (after [crc₀, crc₁]))) { sd with status := v }) (do
        let _ ← sd_raw_spi_read
        let _ ← sd_raw_spi_read
        sd_raw_cs_high
        pure (some destiny)) fun r c bus =>
        (r = some (List.ofFn K.csd) ∧ Ready sdhc B c bus.sd) ∨ (r = none ∧ c.blocks = B) := by
    intro v crc₀ crc₁ destiny hd
    refine Talk.bind (says_skip hsel crc₀ [crc₁]) fun _ => ?_
    refine Talk.bind (says_skip hsel crc₁ []) fun _ => ?_
    refine Talk.bind (says_pin (K := K₁.to (.listening [])) (by exact hcs) true) fun _ => ?_
    refine Talk.ret ?_
    rintro c bus ⟨rfl, hsd⟩
    rw [hsd]
    exact Or.inl ⟨congrArg some hd, hready v⟩
  have hbytes : ∀ v (crc₀ crc₁ : UInt8),
      Says (Facing (Eq (K₁.to (after (List.ofFn K.csd ++ [crc₀, crc₁])))) { sd with status := v })
      (do
        let destiny ← times sd_raw_spi_read 16
        let _ ← sd_raw_spi_read
        let _ ← sd_raw_spi_read
        sd_raw_cs_high
        pure (some destiny)) fun r c bus =>
        (r = some (List.ofFn K.csd) ∧ Ready sdhc B c bus.sd) ∨ (r = none ∧ c.blocks = B) := by
    intro v crc₀ crc₁
    refine Talk.bind (says_take hsel (List.ofFn K.csd) [crc₀, crc₁]) fun destiny => ?_
    refine (Talk.fact ?_ fun hd => hcrc v crc₀ crc₁ destiny hd).pre ?_
    · exact adds_of_keeps fun t => Keeps.bind (stable_trace t).spi_read fun _ =>
        Keeps.bind (stable_trace t).spi_read fun _ =>
          Keeps.bind ((stable_trace t).digitalWrite _) fun _ => Keeps.ret _
    · rintro c bus ⟨⟨hd, hc⟩, hsd⟩
      exact ⟨hd, hc, hsd⟩
  have hwait : ∀ crcs : UInt8 × UInt8,
      Says (Facing (Eq (K₁.to (.fetching (List.ofFn K.csd ++ [crcs.1, crcs.2]))))
        { sd with status := status }) (do
          let started ← sd_wait_start_block n
          if started = false then
            sd_raw_error SD_CARD_ERROR_GENERAL none
          else do
            let destiny ← times sd_raw_spi_read 16
            let _ ← sd_raw_spi_read
            let _ ← sd_raw_spi_read
            sd_raw_cs_high
            pure (some destiny)) fun r c bus =>
        (r = some (List.ofFn K.csd) ∧ Ready sdhc B c bus.sd) ∨ (r = none ∧ c.blocks = B) := by
    intro crcs
    refine Talk.bind (says_wait_start_block hsel _ n) fun started =>
      Talk.ite (fun _ => ?_) fun hs => ?_
    · exact (hfail _).pre fun c bus hc => hc.2.trans hB
    · refine (Talk.exists_pre fun v => hbytes v crcs.1 crcs.2).pre fun c bus hc => ?_
      exact hc.1 (by rwa [Bool.not_eq_false] at hs)
  refine (Talk.exists_pre hwait).pre ?_
  rintro c bus ⟨ha, hsd⟩
  rcases (ha.obeys h.on).register_cases hf with hr | ⟨-, crc₀, crc₁, hc⟩
  · exact absurd hr.ne_zero heq
  · rw [← hK]
    exact ⟨(crc₀, crc₁), hc, hsd⟩

theorem adds_read_csd (t : List Event) (n : ℕ) :
    Keeps (fun bus => t <+: bus.trace) (sd_raw_read_csd n) := by
  have h := stable_trace t
  refine Keeps.bind (adds_command t n _ _) fun _ => Keeps.ite (h.error _ _) ?_
  refine Keeps.bind (h.wait_start_block n) fun _ => Keeps.ite (h.error _ _) ?_
  refine Keeps.bind (Keeps.times h.spi_read 16) fun _ => Keeps.bind h.spi_read fun _ => ?_
  exact Keeps.bind h.spi_read fun _ => Keeps.bind (h.digitalWrite _) fun _ => Keeps.ret _

/-- `sd_raw_card_size`: what the register decodes to, or zero. -/
theorem says_card_size {sdhc : Bool} {B : ℕ → Block} {csd : Buf 16} (hproper : Proper csd) (n : ℕ) :
    Says (fun c bus => Ready sdhc B c bus.sd ∧ c.csd = csd) (sd_raw_card_size n) fun r c bus =>
      (r = decodeCsd (List.ofFn csd) ∧ Ready sdhc B c bus.sd) ∨ (r = 0 ∧ c.blocks = B) := by
  have hcsd : Says (fun c bus => Ready sdhc B c bus.sd ∧ c.csd = csd) (sd_raw_read_csd n)
      fun r c bus => (r = some (List.ofFn csd) ∧ Ready sdhc B c bus.sd)
        ∨ (r = none ∧ c.blocks = B) := by
    refine says_from (R := fun c sd => Ready sdhc B c sd ∧ c.csd = csd)
      (adds_of_keeps fun t => adds_read_csd t n) ?_
    rintro K sd ⟨h, rfl⟩
    exact says_read_csd h n
  refine Talk.bind hcsd fun read => ?_
  cases read with
  | none =>
    refine Talk.ret ?_
    rintro c bus (⟨hr, -⟩ | ⟨-, hB⟩)
    · cases hr
    · exact Or.inr ⟨rfl, hB⟩
  | some bytes =>
    have hknown : ∀ (c : SpiCard) (bus : Bus), (some bytes = some (List.ofFn csd) ∧ Ready sdhc B c bus.sd)
        ∨ (some bytes = none ∧ c.blocks = B) → bytes = List.ofFn csd ∧ Ready sdhc B c bus.sd := by
      rintro c bus (⟨hr, h⟩ | ⟨hr, -⟩)
      · exact ⟨Option.some.inj hr, h⟩
      · cases hr
    refine Talk.pre (Talk.ite (fun h0 => Talk.ret ?_) fun h0 => Talk.ite (fun h1 => Talk.ret ?_)
      fun h1 => ?_) hknown
    · rintro c bus ⟨rfl, h⟩
      refine Or.inl ⟨?_, h⟩
      rw [decodeCsd, if_pos h0]
    · rintro c bus ⟨rfl, h⟩
      refine Or.inl ⟨?_, h⟩
      rw [decodeCsd, if_neg h0]
    · exact (says_error _ 0).mono (fun c bus h => h.2.blocks) fun r c bus h => Or.inr ⟨h.1, h.2.2⟩

/-- **The size of the card**: where the driver has one it is what the register says
exactly up to 32 GiB, and the card goes on being ready; otherwise it is zero. -/
theorem card_size_exact {sdhc : Bool} {B : ℕ → Block} {n : ℕ} {c c' : SpiCard} {bus bus' : Bus}
    {r : UInt32} {es : List Event} (hready : Ready sdhc B c bus.sd) (hproper : Proper c.csd)
    (hrun : sd_raw_card_size n bus = (some r, bus')) (htrace : bus'.trace = bus.trace ++ es)
    (hplays : Plays Step es c c') :
    (r = 0 ∧ c'.blocks = B) ∨ (Ready sdhc B c' bus'.sd
      ∧ (r.toNat = capacity c.csd ↔ capacity c.csd ≤ 2 ^ 26)) := by
  rcases (says_card_size hproper n).tells ⟨hready, rfl⟩ hrun htrace hplays with ⟨hr, h⟩ | h
  · rw [hr]
    exact Or.inr ⟨h, decode_exact hproper⟩
  · exact Or.inl h

/-- A card of more than 32 GiB. -/
def largeCard : SpiCard :=
  { newCard with mode := .ready, csd := fun i => if i.val = 0 then 0x40 else 7 }

/-- What it says when it is asked. -/
def largeCardBytes (i : ℕ) : UInt8 :=
  if i = 7 ∨ 25 ≤ i then 0 else if i = 8 then 0xfe else if i = 9 then 0x40
  else if 10 ≤ i then 7 else 0xff

def largeBus : Bus :=
  ⟨⟨4, 0, SD_CARD_TYPE_SDHC, 0, false, 0⟩, largeCardBytes, fun _ => 0, 0, 0, [], []⟩

set_option maxRecDepth 100000 in
theorem largeCard_follows : (sd_raw_card_size 1 largeBus).1 = some 68952064
    ∧ (follow largeCard (sd_raw_card_size 1 largeBus).2.trace).isSome = true := by
  decide +kernel

theorem card_size_exact_large : ∃ c' bus',
    sd_raw_card_size 1 largeBus = (some 68952064, bus') ∧ (((68952064 : UInt32) = 0
      ∧ c'.blocks = fun _ _ => 7) ∨ (Ready true (fun _ _ => 7) c' bus'.sd
      ∧ ((68952064 : UInt32).toNat = capacity largeCard.csd ↔ capacity largeCard.csd ≤ 2 ^ 26))) := by
  obtain ⟨hsome, hfollow⟩ := largeCard_follows
  generalize hrun : sd_raw_card_size 1 largeBus = run at hsome hfollow ⊢
  obtain ⟨r, bus'⟩ := run
  obtain ⟨c', hc⟩ := Option.isSome_iff_exists.mp hfollow
  have hdone : (r, bus') = (some 68952064, bus') := congrArg (fun r => (r, bus')) hsome
  have hready : Ready true (fun _ _ => 7) largeCard largeBus.sd :=
    ⟨rfl, rfl, rfl, rfl, rfl, rfl, iff_of_true rfl rfl⟩
  exact ⟨c', bus', hdone, card_size_exact hready (by decide) (hrun.trans hdone)
    (List.nil_append _).symm (follow_plays hc)⟩

end Register

end Fkfs.Spi
