/-
The two header slots of block 0, and what mounting makes of them.

`fkfs_header_write` reads block 0, replaces one slot and writes the block back,
so a slot is either the image of the last header that was written into it or
untouched. Mounting checks the CRC of both slots and takes the newer one.
Everything later proofs need to know of block 0 is here: a written slot is valid
and reads back (`getHeader_putHeader`, `crc_valid_putHeader`), the other one is
as it was, and `fkfs_initialize` ends with the selected header (`mounts`).
-/
import Fkfs.Cache
import Fkfs.Mount

set_option autoImplicit false

namespace Fkfs.Slots

open Bytes
open Fkfs.Crc Fkfs.Layout Fkfs.Device Fkfs.Append Fkfs.Mount Fkfs.Cache

/-! ## Slots of a header block -/

theorem u32_congr {m m' : Mem} {o : ℕ} (h : ∀ i, o ≤ i → i < o + 4 → m i = m' i) :
    u32 m o = u32 m' o := by
  unfold u32
  rw [h o (by omega) (by omega), h (o + 1) (by omega) (by omega), h (o + 2) (by omega) (by omega),
    h (o + 3) (by omega) (by omega)]

theorem fileAt_congr {m m' : Mem} {o : ℕ} (h : ∀ i, o ≤ i → i < o + 30 → m i = m' i) :
    fileAt m o = fileAt m' o := by
  have hname : (fun i : Fin 12 => m (o + i)) = fun i : Fin 12 => m' (o + i) := by
    funext i
    exact h (o + i) (by omega) (by omega)
  simp only [fileAt, hname]
  rw [u16_congr (o := o + 12) fun i _ _ => h i (by omega) (by omega),
    u32_congr (o := o + 14) fun i _ _ => h i (by omega) (by omega),
    u16_congr (o := o + 18) fun i _ _ => h i (by omega) (by omega),
    u32_congr (o := o + 20) fun i _ _ => h i (by omega) (by omega),
    u16_congr (o := o + 24) fun i _ _ => h i (by omega) (by omega),
    u32_congr (o := o + 26) fun i _ _ => h i (by omega) (by omega)]

/-- A header is read from its own 137 bytes. -/
theorem headerAt_congr {m m' : Mem} {o : ℕ} (h : ∀ i, o ≤ i → i < o + 137 → m i = m' i) :
    headerAt m o = headerAt m' o := by
  have hfiles : (fun i : FileNumber => fileAt m (o + 15 + 30 * i))
      = fun i : FileNumber => fileAt m' (o + 15 + 30 * i) := by
    funext i
    exact fileAt_congr fun k _ _ => h k (by omega) (by omega)
  simp only [headerAt, hfiles]
  rw [h o (by omega) (by omega),
    u32_congr (o := o + 1) fun i _ _ => h i (by omega) (by omega),
    u32_congr (o := o + 5) fun i _ _ => h i (by omega) (by omega),
    u16_congr (o := o + 9) fun i _ _ => h i (by omega) (by omega),
    u32_congr (o := o + 11) fun i _ _ => h i (by omega) (by omega),
    u16_congr (o := o + 135) fun i _ _ => h i (by omega) (by omega)]

/-- Two header blocks hold the same bytes in slot `i`. -/
def SameSlot (b b' : Block) (i : Fin 2) : Prop :=
  ∀ k, 137 * i.val ≤ k → k < 137 * i.val + 137 → b.mem k = b'.mem k

theorem SameSlot.getHeader {b b' : Block} {i : Fin 2} (h : SameSlot b b' i) :
    getHeader b i = getHeader b' i := headerAt_congr h

theorem SameSlot.crc_valid {b b' : Block} {i : Fin 2} (h : SameSlot b b' i) :
    fkfs_header_crc_valid b i = fkfs_header_crc_valid b' i := by
  unfold fkfs_header_crc_valid
  simp only [sizeof_fkfs_header_t, FKFS_HEADER_SIZE_MINUS_CRC]
  rw [u16_congr fun k _ _ => h k (by omega) (by omega),
    slice_congr fun k _ _ => h k (by omega) (by omega)]

theorem putHeader_holds (b : Block) (i : Fin 2) (h : fkfs_header_t) :
    Holds (putHeader b i h).mem (137 * i) h.bytes :=
  memcpy_holds b (137 * i) _ (by rw [fkfs_header_t.bytes_length]; omega)

/-- Writing one slot leaves the other alone. -/
theorem putHeader_other (b : Block) {i j : Fin 2} (hij : i ≠ j) (h : fkfs_header_t) :
    SameSlot (putHeader b i h) b j := by
  intro k h1 h2
  have hne : i.val ≠ j.val := fun hc => hij (Fin.ext hc)
  exact memcpy_outside b (137 * i) _ (by rw [fkfs_header_t.bytes_length]; omega)

/-- A written slot reads back. -/
theorem getHeader_putHeader (b : Block) (i : Fin 2) (h : fkfs_header_t) :
    getHeader (putHeader b i h) i = h := headerAt_of_holds (putHeader_holds b i h)

/-- A written slot is valid if the header's CRC was brought up to date. -/
theorem crc_valid_putHeader (b : Block) (i : Fin 2) {h : fkfs_header_t}
    (hc : h.crc = crc16_update 31337 h.bodyBytes) :
    fkfs_header_crc_valid (putHeader b i h) i = true := by
  have hm := putHeader_holds b i h
  rw [fkfs_header_t.bytes, holds_append, fkfs_header_t.bodyBytes_length] at hm
  unfold fkfs_header_crc_valid
  rw [u16_of_holds hm.2, hm.1.slice_eq (fkfs_header_t.bodyBytes_length h), hc, beq_iff_eq]

/-- Two slots: what is not one of them is the other. -/
theorem slot_cases (i j : Fin 2) : j = i ∨ j = i + 1 := by omega

theorem slot_succ_ne (i : Fin 2) : i + 1 ≠ i := by omega

/-- Mounting takes slot `i` if it is valid and the other one is invalid or
older. -/
theorem selectHeader_eq {b : Block} {i : Fin 2} (hv : fkfs_header_crc_valid b i = true)
    (hg : fkfs_header_crc_valid b (i + 1) = true →
      (getHeader b (i + 1)).generation < (getHeader b i).generation) :
    selectHeader b = i := by
  have hi : i = 0 ∨ i = 1 := slot_cases 0 i
  unfold selectHeader
  rcases hi with rfl | rfl
  · rw [show (0 : Fin 2) + 1 = 1 from rfl] at hg
    cases h1 : fkfs_header_crc_valid b 1
    · rfl
    · simp only [hv, Bool.not_true, Bool.false_eq_true, if_false, hg h1, if_true]
  · rw [show (1 : Fin 2) + 1 = 0 from rfl] at hg
    simp only [hv, Bool.not_true, Bool.false_eq_true, if_false]
    cases h0 : fkfs_header_crc_valid b 0
    · rfl
    · have hlt := UInt32.lt_iff_toNat_lt.mp (hg h0)
      have hnlt : ¬ (getHeader b 1).generation < (getHeader b 0).generation := fun hc => by
        have := UInt32.lt_iff_toNat_lt.mp hc
        omega
      simp only [Bool.not_true, Bool.false_eq_true, if_false, hnlt]

/-- The slot mounting takes is decided by the validity and the generation of
the two. -/
theorem selectHeader_congr {b b' : Block}
    (hv : ∀ i, fkfs_header_crc_valid b i = fkfs_header_crc_valid b' i)
    (hg : ∀ i, (getHeader b i).generation = (getHeader b' i).generation) :
    selectHeader b = selectHeader b' := by
  simp only [selectHeader, hv, hg]

/-- The slot mounting takes is valid, if there is a valid one. -/
theorem selectHeader_valid {b : Block} {i : Fin 2} (h : fkfs_header_crc_valid b i = true) :
    fkfs_header_crc_valid b (selectHeader b) = true := by
  unfold selectHeader
  cases h0 : fkfs_header_crc_valid b 0 <;> cases h1 : fkfs_header_crc_valid b 1
  · have hi : i = 0 ∨ i = 1 := slot_cases 0 i
    rcases hi with rfl | rfl
    · rw [h] at h0
      cases h0
    · rw [h] at h1
      cases h1
  · simp [h1]
  · simp [h0]
  · simp only [Bool.not_true, Bool.false_eq_true, if_false]
    split
    · exact h0
    · exact h1

/-! ## The two slots of a card -/

/-- The header in slot `i` of a card. -/
def slot (sd : Card) (i : Fin 2) : fkfs_header_t := getHeader (sd.blocks 0) i

/-- Slot `i` of a card passes its CRC. -/
def slotValid (sd : Card) (i : Fin 2) : Prop := fkfs_header_crc_valid (sd.blocks 0) i = true

/-- The slot a mount of the card takes. -/
def selected (sd : Card) : Fin 2 := selectHeader (sd.blocks 0)

/-- A header whose CRC is up to date. -/
def Sealed (h : fkfs_header_t) : Prop := h.crc = crc16_update 31337 h.bodyBytes

/-- The bytes the CRC covers do not include it. -/
theorem bodyBytes_crc (h : fkfs_header_t) (c : UInt16) :
    fkfs_header_t.bodyBytes { h with crc := c } = h.bodyBytes := rfl

theorem sealHeader_sealed (s : Machine) : Sealed (sealHeader s).fs.header := by
  simp only [Sealed, sealHeader, Machine.setHeader, fkfs_header_crc_update, bodyBytes_crc]

/-- The card after slot `i` was written. -/
structure SlotPut (sd sd' : Card) (i : Fin 2) (h : fkfs_header_t) : Prop where
  written : slot sd' i = h
  written_valid : slotValid sd' i
  other : slot sd' (i + 1) = slot sd (i + 1)
  other_valid : slotValid sd' (i + 1) ↔ slotValid sd (i + 1)

/-- A header write puts one slot. -/
theorem slotPut_put (sd : Card) (i : Fin 2) {h : fkfs_header_t} (hs : Sealed h) :
    SlotPut sd (Card.put sd 0 (putHeader (sd.blocks 0) i h)) i h := by
  have h0 : (Card.put sd 0 (putHeader (sd.blocks 0) i h)).blocks 0
      = putHeader (sd.blocks 0) i h := by
    simp only [Card.put, UInt32.toNat_zero, Function.update_self]
  have ho := putHeader_other (sd.blocks 0) (slot_succ_ne i).symm h
  constructor
  · rw [slot, h0, getHeader_putHeader]
  · rw [slotValid, h0, crc_valid_putHeader _ _ hs]
  · rw [slot, h0, ho.getHeader, slot]
  · rw [slotValid, h0, ho.crc_valid, slotValid]

/-- Writing over a valid slot with the same generation does not change what a mount
takes. -/
theorem SlotPut.selected {sd sd' : Card} {i : Fin 2} {h : fkfs_header_t} (hp : SlotPut sd sd' i h)
    (hv : slotValid sd i) (hg : h.generation = (slot sd i).generation) :
    selected sd' = selected sd := by
  refine selectHeader_congr (fun j => ?_) fun j => ?_ <;> rcases slot_cases i j with rfl | rfl
  · exact hp.written_valid.trans (Eq.symm hv)
  · exact Bool.eq_iff_iff.mpr hp.other_valid
  · exact (congrArg fkfs_header_t.generation hp.written).trans hg
  · exact congrArg fkfs_header_t.generation hp.other

/-- A write to a data block touches no slot. -/
theorem put_data_blocks_zero (sd : Card) {b : UInt32} (source : Block) (hb : 8000 ≤ b.toNat) :
    (Card.put sd b source).blocks 0 = sd.blocks 0 :=
  Function.update_of_ne (by omega) _ _

/-! ## Mounting -/

/-- The runtime settings the configuration calls leave. -/
def settingsOf (cfg : FileNumber → FileConfig) : Settings :=
  fun f => ⟨(cfg f).sync, (cfg f).priority⟩

theorem configured_files (cfg : FileNumber → FileConfig) :
    (configured cfg).files = settingsOf cfg := by
  funext f
  fin_cases f <;> rfl

/-- `fs` after `fkfs_initialize` has mounted the card. -/
def mounted (cfg : FileNumber → FileConfig) (sd : Card) : fkfs_t :=
  mountHeader { configured cfg with numberOfBlocks := sd.size, buffer := sd.blocks 0 }

/-- The header a mount leaves in `fs`: the selected one with the configured
names. -/
theorem mounted_header (cfg : FileNumber → FileConfig) (sd : Card) :
    (mounted cfg sd).header = withNames (slot sd (selected sd)) (configured cfg).header := rfl

theorem mounted_headerIndex (cfg : FileNumber → FileConfig) (sd : Card) :
    (mounted cfg sd).headerIndex = selected sd := rfl

theorem mounted_files (cfg : FileNumber → FileConfig) (sd : Card) :
    (mounted cfg sd).files = settingsOf cfg := configured_files cfg

/-- A card with a valid slot is not taken for a new one. -/
theorem not_new_card {sd : Card} {i : Fin 2} (hv : slotValid sd i) :
    (!fkfs_header_crc_valid (sd.blocks 0) 0 && !fkfs_header_crc_valid (sd.blocks 0) 1) = false := by
  have hi : i = 0 ∨ i = 1 := slot_cases 0 i
  rcases hi with rfl | rfl
  · rw [show fkfs_header_crc_valid (sd.blocks 0) 0 = true from hv]
    rfl
  · rw [show fkfs_header_crc_valid (sd.blocks 0) 1 = true from hv, Bool.not_true, Bool.and_false]

/-- **Every way a mount can end** when one of the slots is valid: the card is
read or it is not, and nothing is written. -/
theorem boot_cases {s : Machine} {i : Fin 2} (hv : slotValid s.sd i)
    (cfg : FileNumber → FileConfig) (draws : FileNumber → UInt16) :
    (∃ fs, boot s cfg false draws = (false, { afterRead s with fs := fs }))
      ∨ boot s cfg false draws = (true, { afterRead s with fs := mounted cfg s.sd }) := by
  simp only [boot, Mount.fkfs_initialize, fkfs_read_block, sd_raw_read_block, Bool.false_or]
  cases h : s.sd.fails
  · right
    simp only [Bool.false_eq_true, if_false, UInt32.toNat_zero, not_new_card hv]
    rfl
  · left
    exact ⟨_, rfl⟩

/-- **A mount on a working card** takes over the selected header. -/
theorem boot_works {s : Machine} {i : Fin 2} (hw : Works s.sd) (hv : slotValid s.sd i)
    (cfg : FileNumber → FileConfig) (draws : FileNumber → UInt16) :
    boot s cfg false draws = (true, { s with fs := mounted cfg s.sd }) := by
  simp only [boot, Mount.fkfs_initialize, fkfs_read_block, sd_raw_read_block, Bool.false_or,
    hw.fails, hw.next, Bool.false_eq_true, if_false, UInt32.toNat_zero, not_new_card hv]
  rfl

/-! ## Wiping -/

/-- `fkfs_header_write` of a wiped block: nothing is read. -/
theorem header_write_wipe_cases (s : Machine) :
    fkfs_header_write s true = (false, afterFailedWrite (afterRead (sealHeader s)) 0
        (headerImage (sealHeader s).fs zeroBlock))
      ∨ fkfs_header_write s true = (true, afterWrite (afterRead (sealHeader s)) 0
        (headerImage (sealHeader s).fs zeroBlock)) :=
  write_block_cases (sealHeader s) 0 (headerImage (sealHeader s).fs zeroBlock)

/-- The machine before the first header write of a wipe. -/
def wipeFirst (s : Machine) (draws : FileNumber → UInt16) : Machine :=
  let header := wipedHeader s.fs.header draws
  { s with fs := { s.fs with
    header := header, buffer := putHeader s.fs.buffer s.fs.headerIndex header } }

/-- The machine before the second header write of a wipe. -/
def wipeSecond (s : Machine) : Machine :=
  let header := { s.fs.header with generation := 1 }
  { s with fs := { s.fs with
    header := header, headerIndex := 1, buffer := putHeader s.fs.buffer 1 header } }

/-- A wipe is its two header writes. -/
theorem wipeHeaders_eq (s : Machine) (draws : FileNumber → UInt16) : wipeHeaders s draws
    = match fkfs_header_write (wipeFirst s draws) true with
      | (false, s) => (false, s)
      | (true, s) => fkfs_header_write (wipeSecond s) false := rfl

/-- A wipe that returned true wrote both slots. -/
theorem wipeHeaders_true {s s' : Machine} {draws : FileNumber → UInt16}
    (h : wipeHeaders s draws = (true, s')) :
    ∃ s1 s2, fkfs_header_write (wipeFirst s draws) true = (true, s1)
      ∧ s1 = afterWrite (afterRead (sealHeader (wipeFirst s draws))) 0
        (headerImage (sealHeader (wipeFirst s draws)).fs zeroBlock)
      ∧ s2 = afterRead (sealHeader (afterRead (wipeSecond s1)))
      ∧ s' = afterWrite s2 0 (headerImage s2.fs (s1.sd.blocks 0)) := by
  rw [wipeHeaders_eq] at h
  rcases header_write_wipe_cases (wipeFirst s draws) with e | e
  · rw [e] at h
    cases h
  · rw [e] at h
    dsimp only at h
    refine ⟨_, _, e, rfl, rfl, ?_⟩
    rcases header_write_cases (wipeSecond (afterWrite (afterRead (sealHeader (wipeFirst s draws))) 0
      (headerImage (sealHeader (wipeFirst s draws)).fs zeroBlock))) with e2 | e2 | e2
    · rw [e2] at h
      cases h
    · rw [e2] at h
      cases h
    · rw [e2] at h
      cases h
      rfl

/-- `fs` when a wipe starts. -/
def unmounted (cfg : FileNumber → FileConfig) (sd : Card) : fkfs_t :=
  { configured cfg with numberOfBlocks := sd.size, buffer := sd.blocks 0 }

/-- A program start that makes a new file system reads block 0 and wipes. -/
theorem boot_new {s : Machine} {wipe : Bool}
    (hw : wipe = true ∨ ∀ i, ¬ slotValid s.sd i) (cfg : FileNumber → FileConfig)
    (draws : FileNumber → UInt16) :
    (∃ fs, boot s cfg wipe draws = (false, { afterRead s with fs := fs }))
      ∨ boot s cfg wipe draws
        = wipeHeaders { afterRead s with fs := unmounted cfg s.sd } draws := by
  have hnew : (wipe || (!fkfs_header_crc_valid (s.sd.blocks 0) 0
      && !fkfs_header_crc_valid (s.sd.blocks 0) 1)) = true := by
    rcases hw with rfl | hv
    · rfl
    · have h0 : fkfs_header_crc_valid (s.sd.blocks 0) 0 = false := by simpa [slotValid] using hv 0
      have h1 : fkfs_header_crc_valid (s.sd.blocks 0) 1 = false := by simpa [slotValid] using hv 1
      rw [h0, h1]
      cases wipe <;> rfl
  simp only [boot, Mount.fkfs_initialize, fkfs_read_block, sd_raw_read_block]
  cases h : s.sd.fails
  · right
    simp only [Bool.false_eq_true, if_false, UInt32.toNat_zero, hnew, if_true]
    rfl
  · left
    exact ⟨_, rfl⟩

/-- A row of a new file system: empty, at the first block. -/
structure EmptyRow (file : fkfs_file_t) : Prop where
  startBlock : file.startBlock = FKFS_FIRST_BLOCK
  startOffset : file.startOffset = 0
  endBlock : file.endBlock = FKFS_FIRST_BLOCK
  endOffset : file.endOffset = 0
  size : file.size = 0

/-- What a wiping program start leaves on a card that works. -/
structure Wiped (cfg : FileNumber → FileConfig) (s s' : Machine) : Prop where
  works : Works s'.sd
  dirty : s'.fs.cachedBlockDirty = false
  cached : s'.fs.cachedBlockNumber = 0
  block : s'.fs.header.block = FKFS_FIRST_BLOCK
  offset : s'.fs.header.offset = 0
  row : ∀ f, EmptyRow (s'.fs.header.files f)
  settings : s'.fs.files = settingsOf cfg
  size : s'.fs.numberOfBlocks = s'.sd.size
  blocks : ∀ b, 8000 ≤ b → s'.sd.blocks b = s.sd.blocks b
  wraps : s'.wraps = s.wraps

/-- **A wipe** leaves the data blocks alone and an empty file system over them. -/
theorem wipe_works {s s' : Machine} {cfg : FileNumber → FileConfig}
    {draws : FileNumber → UInt16} (hw : Works s.sd) (h : boot s cfg true draws = (true, s')) :
    Wiped cfg s s' := by
  rcases boot_new (.inl rfl) cfg draws with ⟨fs, e⟩ | e
  · rw [e] at h
    cases h
  · rw [e, afterRead_works hw] at h
    obtain ⟨s1, s2, -, rfl, rfl, rfl⟩ := wipeHeaders_true h
    refine ⟨?_, rfl, rfl, rfl, rfl, fun _ => ⟨rfl, rfl, rfl, rfl, rfl⟩, configured_files cfg, rfl,
      fun b hb => ?_, rfl⟩
    · simp only [Works, afterWrite, afterRead, Card.put, Card.next]
      change s.sd.faults.tail.tail.tail = []
      rw [show s.sd.faults = [] from hw]
      rfl
    · exact (put_zero _ _ hb).trans (put_zero _ _ hb)

end Fkfs.Slots
