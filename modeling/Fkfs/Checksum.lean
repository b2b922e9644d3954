/-
The checksum: what the table computes, and which damage it shows.

The device and the exporter each carry a table of sixteen words and use it
nibble by nibble. Both compute the CRC-16 of the polynomial 0xA001, bit by bit
(`crc16`): the table holds four steps of every nibble, and the rest of the state
only moves down (`Lfsr.steps_split`). So the two agree on every entry.

The same view gives what a truncation and a torn write rely on. The register
loses nothing, and two bytes of message fit in it together, so neither another
start nor any damage within two adjacent bytes leaves the checksum as it was
(`crc16_update_ne_of_slip`), and `fkfs_block_check` sees it.
-/
import Fkfs.Lib.Lfsr
import Fkfs.Exporter
import Fkfs.Walk

set_option autoImplicit false

namespace Fkfs.Checksum

open Bytes
open Fkfs.Crc Fkfs.Layout Fkfs.Search Fkfs.Append Fkfs.Walk

/-! ## CRC-16, bit by bit -/

/-- One bit of the message has gone through the state. -/
def crc16_bit (crc : UInt16) : UInt16 :=
  if crc &&& 1 = 1 then (crc >>> 1) ^^^ 0xA001 else crc >>> 1

/-- One byte of the message: into the state, and eight bits through it. -/
def crc16_bits (crc : UInt16) (b : UInt8) : UInt16 := crc16_bit^[8] (crc ^^^ b.toUInt16)

/-- The reflected CRC-16 with the polynomial 0xA001. -/
def crc16 (start : UInt16) (p : List UInt8) : UInt16 := p.foldl crc16_bits start

/-- The polynomial. -/
abbrev poly : BitVec 16 := 0xA001#16

theorem crc16_bit_toBitVec (crc : UInt16) :
    (crc16_bit crc).toBitVec = Lfsr.step poly crc.toBitVec := by
  have hlow : crc &&& 1 = 1 ↔ crc.toBitVec.getLsbD 0 = true := by
    rw [← UInt16.toBitVec_inj, UInt16.toBitVec_and, UInt16.toBitVec_one,
      BitVec.and_one_eq_setWidth_ofBool_getLsbD]
    cases crc.toBitVec.getLsbD 0 <;> decide
  unfold crc16_bit Lfsr.step
  by_cases h : crc.toBitVec.getLsbD 0 = true
  · rw [if_pos (hlow.mpr h), if_pos h]
    rfl
  · rw [if_neg fun hc => h (hlow.mp hc), if_neg h]
    rfl

theorem crc16_bit_iterate (n : ℕ) (crc : UInt16) :
    (crc16_bit^[n] crc).toBitVec = Lfsr.steps poly n crc.toBitVec := by
  induction n generalizing crc with
  | zero => rfl
  | succ n ih => rw [Function.iterate_succ_apply, ih, crc16_bit_toBitVec, Lfsr.steps]

theorem crc16_bits_toBitVec (crc : UInt16) (b : UInt8) :
    (crc16_bits crc b).toBitVec
      = Lfsr.steps poly 8 (crc.toBitVec ^^^ b.toBitVec.setWidth 16) :=
  crc16_bit_iterate 8 _

/-! ## The table -/

/-- The table holds four steps of every nibble. -/
theorem crc16_table_steps : ∀ i : Fin 16,
    (crc16_table.getD i.val 0).toBitVec = Lfsr.steps poly 4 (BitVec.ofNat 16 i.val) := by
  decide

theorem crc16_entry_toBitVec {i : UInt16} (h : i.toNat < 16) :
    (crc16_entry i).toBitVec = Lfsr.steps poly 4 i.toBitVec := by
  rw [crc16_entry, crc16_table_steps ⟨i.toNat, h⟩]
  congr 1
  exact (BitVec.ofNat_toNat 16 i.toBitVec).trans (BitVec.setWidth_eq _)

/-- **A nibble step is four steps of the register.** -/
theorem nibbleStep_toBitVec (crc : UInt16) {x : UInt16} (h : x.toNat < 16) :
    (nibbleStep crc x).toBitVec = Lfsr.steps poly 4 (crc.toBitVec ^^^ x.toBitVec) := by
  have hlow : (crc &&& 0xF).toNat < 16 := by
    rw [low_nibble_toNat]
    omega
  have hhigh : ((crc >>> 4) &&& 0x0FFF).toBitVec = crc.toBitVec >>> 4 := by
    apply BitVec.eq_of_toNat_eq
    rw [UInt16.toNat_toBitVec, shifted_toNat, BitVec.toNat_ushiftRight, Nat.shiftRight_eq_div_pow]
    rfl
  rw [nibbleStep, shiftStep, UInt16.toBitVec_xor, UInt16.toBitVec_xor, crc16_entry_toBitVec h,
    crc16_entry_toBitVec hlow, hhigh, Lfsr.steps_xor, Lfsr.steps_split poly 4 crc.toBitVec,
    BitVec.xor_comm (crc.toBitVec >>> 4)]
  rfl

theorem low_nibble_lt (p : UInt8) : (p &&& 0xF).toUInt16.toNat < 16 := by
  rw [UInt8.toNat_toUInt16, UInt8.toNat_and]
  exact lt_of_le_of_lt Nat.and_le_right (by decide)

theorem high_nibble_lt (p : UInt8) : ((p >>> 4) &&& 0xF).toUInt16.toNat < 16 := low_nibble_lt _

/-- The nibbles of a byte, as they go into the register. -/
theorem nibbles_toBitVec : ∀ p : BitVec 8,
    let hi := ((p >>> 4#8) &&& 0xF#8).setWidth 16
    hi <<< 4 >>> 4 = hi ∧ (p &&& 0xF#8).setWidth 16 ^^^ hi <<< 4 = p.setWidth 16 := by
  decide +kernel

/-- A round of the table is eight bits of the message. -/
theorem crc16_byte_eq_bits (crc : UInt16) (p : UInt8) : crc16_byte crc p = crc16_bits crc p := by
  obtain ⟨hhi, hxor⟩ := nibbles_toBitVec p.toBitVec
  apply UInt16.toBitVec_inj.mp
  rw [crc16_byte_eq, nibbleStep_toBitVec _ (high_nibble_lt p),
    nibbleStep_toBitVec _ (low_nibble_lt p), crc16_bits_toBitVec, ← hxor]
  exact Lfsr.steps_two poly 4 4 rfl hhi

/-- The device's checksum is the CRC-16. -/
theorem crc16_update_eq (start : UInt16) (p : List UInt8) : crc16_update start p = crc16 start p := by
  rw [crc16_update, crc16]
  congr 1
  funext crc b
  exact crc16_byte_eq_bits crc b

/-! ## The exporter's checksum -/

theorem Crc16Round_eq (crc : UInt16) (b : UInt8) : Exporter.Crc16Round crc b = crc16_byte crc b :=
  rfl

/-- The exporter's loop takes the first `n` bytes, if there are that many. -/
theorem Crc16Update_eq (start : UInt16) (data : List UInt8) {n : ℕ} (h : n ≤ data.length) :
    Exporter.Crc16Update start data n = .ok (crc16_update start (data.take n)) := by
  induction n with
  | zero => rfl
  | succ n ih =>
    have hn : n < data.length := h
    have hprev := ih (by omega)
    unfold Exporter.Crc16Update at hprev ⊢
    rw [List.range_succ, List.foldlM_append, hprev, List.take_succ_eq_append_getElem hn,
      crc16_update_append]
    simp only [bind, Except.bind, List.foldlM_cons, List.foldlM_nil, Exporter.index,
      List.getElem?_eq_getElem hn]
    rfl

/-- A row of the file table as the exporter sees it. -/
def exported (file : fkfs_file_t) : Exporter.File where
  Name := file.name
  Version := file.version
  StartBlock := file.startBlock
  StartOffset := file.startOffset
  EndBlock := file.endBlock
  EndOffset := file.endOffset
  Size := file.size

/-- An entry header as the exporter sees it. -/
def exportedEntry (entry : fkfs_entry_t) : Exporter.Entry where
  File := entry.file
  Size := entry.size
  Available := entry.available
  Crc := entry.crc

/-- The exporter's checksum of an entry is the device's. -/
theorem BlockChecksum_eq (file : fkfs_file_t) (entry : fkfs_entry_t) (data : List UInt8) :
    Exporter.BlockChecksum (exported file) (exportedEntry entry) data
      = .ok (fkfs_block_crc file entry data) := by
  have hhead : Exporter.Crc16Update file.version (exportedEntry entry).bytes
      ((exportedEntry entry).bytes.length - 2) = .ok (crc16_update file.version entry.bodyBytes) :=
    Crc16Update_eq _ _ (by omega)
  have hdata := Crc16Update_eq (crc16_update file.version entry.bodyBytes) data (le_refl _)
  rw [List.take_length] at hdata
  rw [Exporter.BlockChecksum, show (exported file).Version = file.version from rfl, hhead]
  exact hdata

/-- **The table-driven CRC is the CRC-16, in both languages**, and the two
programs agree on the checksum of every entry. -/
theorem table_driven_is_crc16 :
    (∀ (start : UInt16) (p : List UInt8),
      crc16_update start p = crc16 start p
        ∧ Exporter.Crc16Update start p p.length = .ok (crc16 start p))
    ∧ ∀ (file : fkfs_file_t) (entry : fkfs_entry_t) (data : List UInt8),
      Exporter.BlockChecksum (exported file) (exportedEntry entry) data
        = .ok (fkfs_block_crc file entry data) := by
  refine ⟨fun start p => ⟨crc16_update_eq start p, ?_⟩, BlockChecksum_eq⟩
  rw [Crc16Update_eq start p (le_refl _), List.take_length, crc16_update_eq]

/-- The check value of the standard: the digits 1 to 9 from a zero state. -/
example : crc16 0 [0x31, 0x32, 0x33, 0x34, 0x35, 0x36, 0x37, 0x38, 0x39] = 0xBB3D := by
  decide +kernel

/-! ## Damage within two bytes -/

/-- Two strings of one length that differ, and only inside one byte or two
adjacent ones. -/
def Slip (d d' : List UInt8) : Prop :=
  ∃ before x y after, d = before ++ x ++ after ∧ d' = before ++ y ++ after
    ∧ x.length = y.length ∧ x.length ≤ 2 ∧ x ≠ y

theorem Slip.length_eq {d d' : List UInt8} (h : Slip d d') : d'.length = d.length := by
  obtain ⟨before, x, y, after, rfl, rfl, hlen, -, -⟩ := h
  simp only [List.length_append]
  omega

/-- Two bytes of message lie in the register side by side. -/
theorem crc16_two (start : UInt16) (a b : UInt8) :
    (crc16 start [a, b]).toBitVec
      = Lfsr.steps poly 16 (start.toBitVec ^^^ (b.toBitVec ++ a.toBitVec)) := by
  have hmove : ∀ b : BitVec 8, b.setWidth 16 <<< 8 >>> 8 = b.setWidth 16 := by decide +kernel
  have hpair : a.toBitVec.setWidth 16 ^^^ b.toBitVec.setWidth 16 <<< 8
      = b.toBitVec ++ a.toBitVec := by
    apply BitVec.eq_of_getLsbD_eq
    intro i hi
    rw [BitVec.getLsbD_xor, BitVec.getLsbD_shiftLeft, BitVec.getLsbD_setWidth,
      BitVec.getLsbD_setWidth, BitVec.getLsbD_append]
    by_cases h8 : i < 8
    · simp [h8, hi]
    · simp [h8, hi, BitVec.getLsbD_of_ge a.toBitVec i (by omega), show i - 8 < 16 by omega]
  rw [crc16, List.foldl_cons, List.foldl_cons, List.foldl_nil, crc16_bits_toBitVec,
    crc16_bits_toBitVec, ← hpair]
  exact Lfsr.steps_two poly 8 8 rfl (hmove _)

/-- Up to two bytes of message are told apart. -/
theorem crc16_inj_short (start : UInt16) {x y : List UInt8} (hlen : x.length = y.length)
    (hx : x.length ≤ 2) (h : crc16 start x = crc16 start y) : x = y := by
  have hpoly : poly.msb = true := by decide
  match x, y, hlen, hx with
  | [], [], _, _ => rfl
  | [a], [b], _, _ =>
    have hv := congrArg UInt16.toBitVec h
    simp only [crc16, List.foldl_cons, List.foldl_nil, crc16_bits_toBitVec] at hv
    have hab := (BitVec.xor_right_inj _).mp (Lfsr.steps_inj hpoly 8 hv)
    have hbyte := congrArg (BitVec.setWidth 8) hab
    rw [BitVec.setWidth_setWidth_of_le _ (by omega), BitVec.setWidth_setWidth_of_le _ (by omega),
      BitVec.setWidth_eq, BitVec.setWidth_eq] at hbyte
    rw [UInt8.toBitVec_inj.mp hbyte]
  | [a, b], [a', b'], _, _ =>
    have hv := congrArg UInt16.toBitVec h
    rw [crc16_two, crc16_two] at hv
    have hab := (BitVec.xor_right_inj _).mp (Lfsr.steps_inj hpoly 16 hv)
    have ha : a.toBitVec = a'.toBitVec := by
      have hlow := congrArg (BitVec.setWidth 8) hab
      rwa [BitVec.setWidth_append_eq_right, BitVec.setWidth_append_eq_right] at hlow
    rw [ha] at hab
    rw [UInt8.toBitVec_inj.mp ha, UInt8.toBitVec_inj.mp ((BitVec.append_left_inj _).mp hab)]

/-- **Damage inside two adjacent bytes changes the checksum.** -/
theorem crc16_update_ne_of_slip (start : UInt16) {d d' : List UInt8} (h : Slip d d') :
    crc16_update start d ≠ crc16_update start d' := by
  obtain ⟨before, x, y, after, rfl, rfl, hlen, hx, hne⟩ := h
  intro he
  rw [crc16_update_append, crc16_update_append, crc16_update_append, crc16_update_append] at he
  have hxy := crc16_update_inj after he
  rw [crc16_update_eq _ x, crc16_update_eq _ y] at hxy
  exact hne (crc16_inj_short _ hlen hx hxy)

/-! ## What `fkfs_block_check` sees -/

/-- The file system with the bytes at `o` of its buffer overwritten. -/
abbrev overwritten (fs : fkfs_t) (o : ℕ) (bytes : List UInt8) : fkfs_t :=
  { fs with buffer := memcpy fs.buffer o bytes }

/-- A stored entry whose payload was overwritten: the header is still there, and
the payload is the new one. -/
theorem overwritten_memory {fs : fkfs_t} {o : ℕ} {r : Rec} {d : List UInt8}
    (h : Stored fs.buffer o r) (hd : d.length = r.data.length) (past : Mem) :
    entryAt ((overwritten fs (o + 7) d).memory past) o = r.entry
      ∧ slice ((overwritten fs (o + 7) d).memory past) (o + 7) r.entry.size.toNat = d := by
  have hroom := h.room
  unfold Rec.length at hroom
  have hin : ∀ i, i < 512 → (overwritten fs (o + 7) d).memory past i
      = (memcpy fs.buffer (o + 7) d).mem i := fun i hi => memory_lt _ _ _ hi
  constructor
  · have hsame : ∀ i, o ≤ i → i < o + 7 →
        (overwritten fs (o + 7) d).memory past i = fs.buffer.mem i := by
      intro i _ hi
      have hpos := h.fits.1
      rw [hin i (by omega), memcpy_outside _ _ _ (.inl hi)]
    rw [entryAt_congr hsame, h.entryAt]
  · have hsame : ∀ i, o + 7 ≤ i → i < o + 7 + r.data.length →
        (overwritten fs (o + 7) d).memory past i = (memcpy fs.buffer (o + 7) d).mem i :=
      fun i _ hi => hin i (by omega)
    rw [Rec.entry_size h.fits, slice_congr hsame]
    exact (memcpy_holds _ _ _ (by omega)).slice_eq hd

/-- An entry whose payload was damaged does not pass. -/
theorem check_of_slip {fs : fkfs_t} {o : ℕ} {r : Rec} {d : List UInt8}
    (h : Stored fs.buffer o r) (hv : (fs.header.files r.file).version = r.version)
    (hd : Slip r.data d) (ov : Overrun) (past : Mem) :
    fkfs_block_check ov past (overwritten fs (o + 7) d) o ≠ .good := by
  intro hgood
  obtain ⟨hentry, hpay⟩ := overwritten_memory h hd.length_eq past
  rcases check_cases ov past (overwritten fs (o + 7) d) o with ⟨hs, -⟩ | ⟨-, ⟨-, hc⟩ | ⟨hc, -⟩⟩
  · exact nomatch hgood.symm.trans hs
  · -- The CRC in the header is that of the old payload.
    unfold CrcMatches at hc
    rw [hentry, hpay, r.fileIndex_file] at hc
    have hcrc : r.entry.crc = crc16_update
        (crc16_update (fs.header.files r.file).version r.entry.bodyBytes) d := hc
    rw [hv] at hcrc
    exact crc16_update_ne_of_slip _ hd hcrc
  · exact nomatch hgood.symm.trans hc

/-- **CRC separation and error detection.** Different starts stay apart on the
same bytes, and damage inside two adjacent bytes changes the checksum. So a
stored entry stops passing when two adjacent bytes of its payload, or one, are
changed, and when its file gets another version. -/
theorem damage_shows :
    (∀ (a b : UInt16) (d : List UInt8), a ≠ b → crc16_update a d ≠ crc16_update b d)
    ∧ (∀ (start : UInt16) (d d' : List UInt8), Slip d d' →
      crc16_update start d ≠ crc16_update start d')
    ∧ ∀ (ov : Overrun) (past : Mem) (fs : fkfs_t) (o : ℕ) (r : Rec), Stored fs.buffer o r →
      ((fs.header.files r.file).version = r.version → ∀ d, Slip r.data d →
        fkfs_block_check ov past (overwritten fs (o + 7) d) o ≠ .good)
      ∧ ∀ fs' : fkfs_t, fs'.buffer = fs.buffer → (fs'.header.files r.file).version ≠ r.version →
        fkfs_block_check ov past fs' o ≠ .good := by
  refine ⟨fun a b d hab he => hab (crc16_update_inj d he),
    fun start d d' hd => crc16_update_ne_of_slip start hd,
    fun ov past fs o r h => ⟨fun hv d hd => check_of_slip h hv hd ov past, ?_⟩⟩
  intro fs' hbuf hv hgood
  rw [h.check ov past fs' hbuf, if_neg hv] at hgood
  exact nomatch hgood

/-- A payload of two bytes, stored at the start of a block. -/
abbrev stored : Rec := ⟨0, 5, [1, 2]⟩

/-- `damage_shows` on a file system that holds it, the second byte changed. -/
theorem damage_shows_byte :
    let header := fkfs_header_t.zero.setFile 0 { fkfs_file_t.zero with version := 5 }
    let fs : fkfs_t := ⟨0, false, 0, 0, header, memcpy zeroBlock 0 stored.bytes, fun _ => ⟨0, 0⟩⟩
    fkfs_block_check .reads (fun _ => 0) (overwritten fs 7 [1, 3]) 0 ≠ .good := by
  have hstored : Stored (memcpy zeroBlock 0 stored.bytes) 0 stored :=
    ⟨⟨by decide, by decide⟩, by decide, memcpy_holds _ _ _ (by decide)⟩
  exact (damage_shows.2.2 .reads (fun _ => 0) _ 0 stored hstored).1 rfl [1, 3]
    ⟨[1], [2], [3], [], rfl, rfl, rfl, by decide, by decide⟩

end Fkfs.Checksum
