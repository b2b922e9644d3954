/-
The CRC layer: `crc16_update`, and that it never forgets its start.

`fkfs_block_crc` seeds the CRC with the version of the owning file, and
truncation is nothing but a bump of that version, so whether an old entry can
pass for a current one comes down to one question: can two different starts
meet on the same bytes? They cannot. A nibble step shifts the state right by
four and xors a table word picked by the nibble that was shifted out, and the
sixteen table words differ in their top nibble, where the shifted state is
zero. So the top nibble of the result names the nibble that was lost.
-/
import Mathlib.Tactic

set_option autoImplicit false

namespace Fkfs.Crc

/-! ## The source's function -/

/-- `crc16_table`. -/
def crc16_table : List UInt16 := [
  0x0000, 0xCC01, 0xD801, 0x1400, 0xF001, 0x3C00, 0x2800, 0xE401,
  0xA001, 0x6C00, 0x7800, 0xB401, 0x5000, 0x9C01, 0x8801, 0x4400]

/-- `crc16_table[i]`; every index the source forms is masked with `0xF`. -/
def crc16_entry (i : UInt16) : UInt16 := crc16_table.getD i.toNat 0

/-- One round of the `while` loop of `crc16_update`: the byte `p`, low nibble
first. -/
def crc16_byte (crc : UInt16) (p : UInt8) : UInt16 :=
  let r := crc16_entry (crc &&& 0xF)
  let crc := (crc >>> 4) &&& 0x0FFF
  let crc := crc ^^^ r ^^^ crc16_entry (p &&& 0xF).toUInt16
  let r := crc16_entry (crc &&& 0xF)
  let crc := (crc >>> 4) &&& 0x0FFF
  crc ^^^ r ^^^ crc16_entry ((p >>> 4) &&& 0xF).toUInt16

/-- `crc16_update(start, p, n)`, with the `n` bytes at `p` as a list. -/
def crc16_update (start : UInt16) (p : List UInt8) : UInt16 := p.foldl crc16_byte start

@[simp] theorem crc16_update_nil (start : UInt16) : crc16_update start [] = start := rfl

theorem crc16_update_append (start : UInt16) (as bs : List UInt8) :
    crc16_update start (as ++ bs) = crc16_update (crc16_update start as) bs := by
  simp only [crc16_update, List.foldl_append]

/-! ## A nibble step is injective in the state -/

/-- What half a round makes of the state before the byte comes in. -/
def shiftStep (crc : UInt16) : UInt16 := ((crc >>> 4) &&& 0x0FFF) ^^^ crc16_entry (crc &&& 0xF)

/-- Half a round: the state `crc` with the nibble `x` of the byte. -/
def nibbleStep (crc x : UInt16) : UInt16 := shiftStep crc ^^^ crc16_entry x

/-- A round is two nibble steps. -/
theorem crc16_byte_eq (crc : UInt16) (p : UInt8) :
    crc16_byte crc p
      = nibbleStep (nibbleStep crc (p &&& 0xF).toUInt16) ((p >>> 4) &&& 0xF).toUInt16 := rfl

/-- The top nibbles of the table tell its sixteen words apart. -/
theorem crc16_entry_top_inj : ∀ i j : Fin 16,
    (crc16_table.getD i.val 0).toNat >>> 12 = (crc16_table.getD j.val 0).toNat >>> 12 → i = j := by
  decide +kernel

/-- The state moved down four places, as a number. -/
theorem shifted_toNat (crc : UInt16) : ((crc >>> 4) &&& 0x0FFF).toNat = crc.toNat / 16 := by
  have hc := crc.toNat_lt
  rw [UInt16.toNat_and, UInt16.toNat_shiftRight]
  change crc.toNat >>> 4 &&& (2 ^ 12 - 1) = _
  rw [Nat.and_two_pow_sub_one_eq_mod, Nat.shiftRight_eq_div_pow]
  omega

theorem low_nibble_toNat (crc : UInt16) : (crc &&& 0xF).toNat = crc.toNat % 16 := by
  rw [UInt16.toNat_and]
  change crc.toNat &&& (2 ^ 4 - 1) = _
  rw [Nat.and_two_pow_sub_one_eq_mod]

/-- The top nibble of a step, before the byte comes in, is the table's alone. -/
theorem shiftStep_top (crc : UInt16) :
    (shiftStep crc).toNat >>> 12 = (crc16_table.getD (crc.toNat % 16) 0).toNat >>> 12 := by
  have hc := crc.toNat_lt
  have hz : (crc.toNat / 16) >>> 12 = 0 := by
    rw [Nat.shiftRight_eq_div_pow]
    omega
  rw [shiftStep, UInt16.toNat_xor, Nat.shiftRight_xor_distrib, shifted_toNat, hz, Nat.zero_xor,
    crc16_entry, low_nibble_toNat]

/-- Two states that step to the same state on the same nibble are equal. -/
theorem nibbleStep_inj {a b x : UInt16} (h : nibbleStep a x = nibbleStep b x) : a = b := by
  have hx : shiftStep a = shiftStep b := (UInt16.xor_left_inj _).mp h
  have hlow : a.toNat % 16 = b.toNat % 16 := by
    have ht := congrArg (fun v : UInt16 => v.toNat >>> 12) hx
    simp only [shiftStep_top] at ht
    have := crc16_entry_top_inj ⟨a.toNat % 16, Nat.mod_lt _ (by omega)⟩
      ⟨b.toNat % 16, Nat.mod_lt _ (by omega)⟩ ht
    exact congrArg Fin.val this
  have hsame : crc16_entry (a &&& 0xF) = crc16_entry (b &&& 0xF) := by
    simp only [crc16_entry, low_nibble_toNat, hlow]
  rw [shiftStep, shiftStep, hsame] at hx
  have hhigh : a.toNat / 16 = b.toNat / 16 := by
    rw [← shifted_toNat, ← shifted_toNat, (UInt16.xor_left_inj _).mp hx]
  apply UInt16.toNat_inj.mp
  omega

/-! ## The start is never forgotten -/

theorem crc16_byte_inj {a b : UInt16} {p : UInt8} (h : crc16_byte a p = crc16_byte b p) :
    a = b := by
  rw [crc16_byte_eq, crc16_byte_eq] at h
  exact nibbleStep_inj (nibbleStep_inj h)

/-- **Different starts stay apart**: on the same bytes, `crc16_update` is
injective in its start. -/
theorem crc16_update_inj {a b : UInt16} (p : List UInt8)
    (h : crc16_update a p = crc16_update b p) : a = b := by
  induction p generalizing a b with
  | nil => exact h
  | cons x p ih => exact crc16_byte_inj (ih h)

end Fkfs.Crc
