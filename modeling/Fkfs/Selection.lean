/-
Which of the two headers: the device and the exporter.

`fkfs_initialize` tests the CRC of both slots first and compares generations only
when both pass; `ReadHeader` compares generations and nothing else. So the two
take the same header exactly when the slot the comparison points to is a valid
one. After an interrupted header write it need not be: the slot being written is
the one with the newer generation, and it is the one that is damaged.
-/
import Fkfs.Slots
import Fkfs.Checksum

set_option autoImplicit false

namespace Fkfs.Selection

open Bytes
open Fkfs.Crc Fkfs.Layout Fkfs.Device Fkfs.Mount Fkfs.Cache Fkfs.Slots Fkfs.Checksum
open Fkfs.Exporter

/-! ## The card as the exporter sees it -/

/-- A header as the exporter sees it. -/
def exportedHeader (h : fkfs_header_t) : HeaderBlock where
  Version := h.version
  Generation := h.generation
  Block := h.block
  Offset := h.offset
  Time := h.time
  Files := fun i => exported (h.files i)
  Crc := h.crc

/-- The two programs read the same fields from the same places. -/
theorem headerOf_eq (m : Mem) (o : ℕ) : headerOf m o = exportedHeader (headerAt m o) := rfl

theorem exported_inj {a b : fkfs_file_t} (h : exported a = exported b) : a = b := by
  cases a
  cases b
  simp only [exported, File.mk.injEq] at h
  simp only [h]

theorem exportedHeader_inj {a b : fkfs_header_t} (h : exportedHeader a = exportedHeader b) :
    a = b := by
  obtain ⟨v, g, bl, o, t, files, c⟩ := a
  obtain ⟨v', g', bl', o', t', files', c'⟩ := b
  simp only [exportedHeader, HeaderBlock.mk.injEq] at h
  obtain ⟨rfl, rfl, rfl, rfl, rfl, hfiles, rfl⟩ := h
  have hrows : files = files' := by
    funext i
    exact exported_inj (congrFun hfiles i)
  rw [hrows]

/-- `f` is an image of the card: its blocks in order, as far as it goes. -/
def ImageOf (f : Image) (sd : Card) : Prop :=
  ∀ b i, i < 512 → 512 * b + i < f.size → f.bytes (512 * b + i) = (sd.blocks b).mem i

/-- The first `n` blocks of a card. -/
def imageOf (sd : Card) (n : ℕ) : Image := ⟨512 * n, fun i => (sd.blocks (i / 512)).mem (i % 512)⟩

theorem imageOf_spec (sd : Card) (n : ℕ) : ImageOf (imageOf sd n) sd := by
  intro b i hi _
  have hb : (512 * b + i) / 512 = b := by omega
  have hr : (512 * b + i) % 512 = i := by omega
  simp only [imageOf, hb, hr]

/-! ## The two choices -/

/-- The slot with the greater generation, slot 1 if they are equal. -/
def newer (sd : Card) : Fin 2 := if (slot sd 1).generation < (slot sd 0).generation then 0 else 1

/-- The exporter takes the newer slot. -/
theorem ReadHeader_eq {f : Image} {sd : Card} (hf : ImageOf f sd) (hsize : 512 ≤ f.size) :
    ReadHeader f = .ok (exportedHeader (slot sd (newer sd))) := by
  have hslot : ∀ i : Fin 2, headerOf f.bytes (137 * i) = exportedHeader (slot sd i) := by
    intro i
    rw [headerOf_eq, slot, getHeader]
    congr 1
    apply headerAt_congr
    intro k h1 h2
    have := hf 0 k (by omega) (by omega)
    rwa [Nat.mul_zero, Nat.zero_add] at this
  have h0 : headerOf f.bytes (137 * 0) = exportedHeader (slot sd 0) := hslot 0
  have h1 : headerOf f.bytes (137 * 1) = exportedHeader (slot sd 1) := hslot 1
  unfold ReadHeader newer
  rw [if_neg (by omega)]
  simp only [h0, h1]
  by_cases hg : (slot sd 1).generation < (slot sd 0).generation
  · rw [if_pos hg]
    exact if_pos hg
  · rw [if_neg hg]
    exact if_neg hg

/-- A slot is valid if the header in it is sealed: nothing else enters the CRC. -/
theorem slotValid_iff (sd : Card) (i : Fin 2) : slotValid sd i ↔ Sealed (slot sd i) := by
  have hm := holds_headerAt (sd.blocks 0).mem (137 * i)
  rw [fkfs_header_t.bytes, holds_append, fkfs_header_t.bodyBytes_length] at hm
  unfold slotValid fkfs_header_crc_valid
  rw [hm.1.slice_eq (fkfs_header_t.bodyBytes_length _), beq_iff_eq]
  exact Iff.rfl

/-- The device takes the newer slot if it is valid. -/
theorem selected_eq_newer {sd : Card} (hv : slotValid sd (newer sd)) :
    selected sd = newer sd := by
  have hgen : ∀ i, getHeader (sd.blocks 0) i = slot sd i := fun _ => rfl
  unfold slotValid at hv
  unfold selected selectHeader newer at *
  rw [hgen, hgen]
  by_cases hg : (slot sd 1).generation < (slot sd 0).generation
  · rw [if_pos hg] at hv ⊢
    simp only [hv, Bool.not_true, Bool.false_eq_true, if_false, ite_self]
  · rw [if_neg hg] at hv ⊢
    simp only [hv, Bool.not_true, Bool.false_eq_true, if_false, ite_self]

/-- The slot `fkfs_initialize` mounts. -/
theorem initialize_headerIndex {s : Machine} {i : Fin 2} (hread : s.sd.fails = false)
    (hv : slotValid s.sd i) (draws : FileNumber → UInt16) :
    ( fkfs_initialize s false draws).1 = true
      ∧ ( fkfs_initialize s false draws).2.fs.headerIndex = selected s.sd := by
  simp only [Mount.fkfs_initialize, fkfs_read_block, sd_raw_read_block, Bool.false_or, hread,
    Bool.false_eq_true, if_false, UInt32.toNat_zero, not_new_card hv]
  exact ⟨trivial, rfl⟩

/-- **Exporter and device take the same header** exactly when the slot with the
greater generation is valid. -/
theorem same_header_iff {s : Machine} {i : Fin 2} {f : Image} (hread : s.sd.fails = false)
    (hv : slotValid s.sd i) (hf : ImageOf f s.sd) (hsize : 512 ≤ f.size)
    (draws : FileNumber → UInt16) :
    ReadHeader f
        = .ok (exportedHeader (slot s.sd ( fkfs_initialize s false draws).2.fs.headerIndex))
      ↔ slotValid s.sd (newer s.sd) := by
  rw [(initialize_headerIndex hread hv draws).2, ReadHeader_eq hf hsize]
  constructor
  · intro h
    have hsame : slot s.sd (newer s.sd) = slot s.sd (selected s.sd) :=
      exportedHeader_inj (Except.ok.inj h)
    rw [slotValid_iff, hsame, ← slotValid_iff]
    exact selectHeader_valid hv
  · intro h
    rw [selected_eq_newer h]

/-! ## An interrupted write -/

/-- A wipe of a blank card whose second header write does not come about. -/
def interruptedWipe : Machine :=
  (boot ⟨fkfs_create, { blankCard 16000 with faults := [false, false, true] }, [], 0⟩
    (fun _ => ⟨0, 0, [65], 0⟩) true fun _ => 7).2

set_option maxRecDepth 100000 in
/-- The device mounts slot 0 there; the exporter takes the zeros of slot 1. -/
theorem interrupted_wipe_differs :
    slotValid interruptedWipe.sd 0
      ∧ ( fkfs_initialize interruptedWipe false fun _ => 0).1 = true
      ∧ ReadHeader (imageOf interruptedWipe.sd 16000)
        ≠ .ok (exportedHeader (slot interruptedWipe.sd
          ( fkfs_initialize interruptedWipe false fun _ => 0).2.fs.headerIndex)) := by
  refine ⟨show fkfs_header_crc_valid (interruptedWipe.sd.blocks 0) 0 = true by decide +kernel,
    by decide +kernel, fun h => ?_⟩
  have hblock := congrArg (Except.map HeaderBlock.Block) h
  revert hblock
  decide +kernel

set_option maxRecDepth 100000 in
/-- `same_header_iff` after a wipe that came to its end. -/
theorem same_header_iff_wiped :
    let s := (boot ⟨fkfs_create, blankCard 16000, [], 0⟩ (fun _ => ⟨0, 0, [65], 0⟩) true
      fun _ => 7).2
    ReadHeader (imageOf s.sd 16000)
        = .ok (exportedHeader (slot s.sd ( fkfs_initialize s false fun _ => 0).2.fs.headerIndex))
      ↔ slotValid s.sd (newer s.sd) := by
  intro s
  have hread : s.sd.fails = false := by decide +kernel
  have hv : slotValid s.sd 1 :=
    show fkfs_header_crc_valid (s.sd.blocks 0) 1 = true by decide +kernel
  exact same_header_iff hread hv (imageOf_spec s.sd 16000) (show 512 ≤ 512 * 16000 by omega)
    fun _ => 0

end Fkfs.Selection
