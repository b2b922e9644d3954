/-
Mounting recovers the newest header.

`fkfs_fsync` counts the generation up and turns to the other slot before it
knows whether its header write succeeds, and `fkfs_touch` writes the current
slot without counting. What holds all the same, failures included (`Newest`):
the slot of the last successful header write is valid and newer than the other
one, the generation in `fs` has not fallen behind it, and if `fs` has turned to
the other slot it is ahead. So the next header write, wherever it goes, leaves
its slot the newest again.

The generation is a 32-bit counter; it goes up by one with each data block that
is written, so the runs are those with fewer than `2^32 - 1` of them.
-/
import Fkfs.Structure

set_option autoImplicit false

namespace Fkfs.Generations

open Bytes
open Fkfs.Crc Fkfs.Layout Fkfs.Device Fkfs.Search Fkfs.Append Fkfs.Iterate Fkfs.Mount Fkfs.Cache
open Fkfs.Walk Fkfs.Writer Fkfs.Reader Fkfs.Run Fkfs.Slots Fkfs.Structure

/-! ## The log of writes -/

/-- A write of block 0 that succeeded. -/
def isHeaderWrite (w : Write) : Bool := w.block == 0 && w.ok

/-- The last successful header write. -/
def lastHeaderWrite (ws : List Write) : Option Write := (ws.filter isHeaderWrite).getLast?

/-- The number of data blocks that were written, successfully or not: one for
each dirty `fkfs_fsync`. -/
def dataWrites (ws : List Write) : ℕ := (ws.filter fun w => w.block != 0).length

theorem lastHeaderWrite_append (ws : List Write) (w : Write) :
    lastHeaderWrite (ws ++ [w]) = if isHeaderWrite w = true then some w else lastHeaderWrite ws := by
  unfold lastHeaderWrite
  rw [List.filter_append]
  by_cases h : isHeaderWrite w = true
  · rw [List.filter_cons_of_pos h, if_pos h, List.filter_nil, List.getLast?_append]
    rfl
  · rw [List.filter_cons_of_neg h, if_neg h, List.filter_nil, List.append_nil]

theorem dataWrites_append (ws : List Write) (w : Write) :
    dataWrites (ws ++ [w]) = dataWrites ws + if w.block = 0 then 0 else 1 := by
  unfold dataWrites
  rw [List.filter_append, List.length_append]
  by_cases h : w.block = 0
  · rw [if_pos h, List.filter_cons_of_neg (by simp [h])]
    rfl
  · rw [if_neg h, List.filter_cons_of_pos (by simp [h])]
    rfl

theorem dataWrites_le (ws : List Write) (w : Write) : dataWrites ws ≤ dataWrites (ws ++ [w]) := by
  rw [dataWrites_append]
  omega

/-! ## The invariant -/

/-- The card's newest header is the one the write `w` put there. -/
structure NewestOnCard (s : Machine) (w : Write) : Prop where
  last : lastHeaderWrite s.writes = some w
  written : slot s.sd w.fs.headerIndex = w.fs.header
  valid : slotValid s.sd w.fs.headerIndex
  older : slotValid s.sd (w.fs.headerIndex + 1) →
    (slot s.sd (w.fs.headerIndex + 1)).generation < w.fs.header.generation
  counted : w.fs.header.generation.toNat ≤ 1 + dataWrites s.writes
  inside : 8000 ≤ w.fs.header.block.toNat ∧ w.fs.header.block.toNat < 4294967295
    ∧ w.fs.header.offset.toNat ≤ 512

/-- And `fs` has not fallen behind it. -/
structure NewestIn (s : Machine) (w : Write) : Prop where
  card : NewestOnCard s w
  coherent : Coherent s
  behind : w.fs.header.generation.toNat ≤ s.fs.header.generation.toNat
  ahead : s.fs.headerIndex ≠ w.fs.headerIndex →
    w.fs.header.generation.toNat < s.fs.header.generation.toNat
  counted : s.fs.header.generation.toNat ≤ 1 + dataWrites s.writes

/-- The invariant of a mounted file system, as long as the generation has not
run over. -/
def Newest (s : Machine) : Prop :=
  dataWrites s.writes < 4294967295 → ∃ w, NewestIn s w

/-- Operations that write nothing, and keep the generation and the slot. -/
theorem NewestIn.of_quiet {s s' : Machine} {w : Write} (h : NewestIn s w) (hc : Coherent s')
    (hw : s'.writes = s.writes) (hb : s'.sd.blocks 0 = s.sd.blocks 0)
    (hi : s'.fs.headerIndex = s.fs.headerIndex)
    (hg : s'.fs.header.generation = s.fs.header.generation) : NewestIn s' w := by
  obtain ⟨hcard, -, h1, h2, h3⟩ := h
  refine ⟨⟨by rw [hw]; exact hcard.last, ?_, ?_, ?_, by rw [hw]; exact hcard.counted,
    hcard.inside⟩, hc, by rw [hg]; exact h1, ?_, by rw [hg, hw]; exact h3⟩
  · rw [slot, hb]
    exact hcard.written
  · rw [slotValid, hb]
    exact hcard.valid
  · rw [slotValid, slot, hb]
    exact hcard.older
  · rw [hi, hg]
    exact h2

/-- A write that failed leaves the newest slot as it is. -/
theorem NewestIn.failed {s : Machine} {w : Write} (h : NewestIn s w) (block : UInt32)
    (source : Block) : NewestIn (afterFailedWrite s block source) w := by
  obtain ⟨hcard, hc, h1, h2, h3⟩ := h
  have hcount : dataWrites s.writes ≤ dataWrites (afterFailedWrite s block source).writes :=
    dataWrites_le _ _
  have hlast : lastHeaderWrite (afterFailedWrite s block source).writes
      = lastHeaderWrite s.writes := by
    refine (lastHeaderWrite_append s.writes _).trans ?_
    rw [if_neg (by simp [isHeaderWrite])]
  exact ⟨⟨hlast.trans hcard.last, hcard.written, hcard.valid, hcard.older,
    le_trans hcard.counted (Nat.add_le_add_left hcount 1), hcard.inside⟩, ⟨hc.block_ge, hc.block_lt,
    hc.offset_le, hc.dirty, hc.clean⟩, h1, h2, le_trans h3 (Nat.add_le_add_left hcount 1)⟩

/-- A slot that is written is the newest, wherever `fs` stood. -/
theorem NewestIn.put {s : Machine} {w : Write} (h : NewestIn s w) (image : Block)
    (hs : Sealed s.fs.header) (himage : image = headerImage s.fs (s.sd.blocks 0)) :
    NewestIn (afterWrite s 0 image) ⟨0, image, s.fs, true⟩ := by
  obtain ⟨hcard, hc, h1, h2, h3⟩ := h
  have hput : SlotPut s.sd (afterWrite s 0 image).sd s.fs.headerIndex s.fs.header := by
    rw [himage]
    exact slotPut_put s.sd s.fs.headerIndex hs
  have hcount : dataWrites (afterWrite s 0 image).writes = dataWrites s.writes :=
    dataWrites_append s.writes _
  refine ⟨⟨lastHeaderWrite_append s.writes _, hput.written, hput.written_valid, ?_, ?_,
    hc.block_ge, hc.block_lt, hc.offset_le⟩, ?_, le_refl _, fun hne => absurd rfl hne, ?_⟩
  · intro hv
    rw [hput.other, UInt32.lt_iff_toNat_lt]
    rw [hput.other_valid] at hv
    -- The other slot is the old newest one, or the one that was older already.
    by_cases hi : s.fs.headerIndex = w.fs.headerIndex
    · change (slot s.sd (s.fs.headerIndex + 1)).generation.toNat < s.fs.header.generation.toNat
      rw [hi] at hv ⊢
      have := UInt32.lt_iff_toNat_lt.mp (hcard.older hv)
      omega
    · have hother : s.fs.headerIndex + 1 = w.fs.headerIndex := by
        have := slot_cases (s.fs.headerIndex + 1) w.fs.headerIndex
        omega
      change (slot s.sd (s.fs.headerIndex + 1)).generation.toNat < s.fs.header.generation.toNat
      rw [hother, hcard.written]
      exact h2 hi
  · rw [hcount]
    exact h3
  · refine ⟨hc.block_ge, hc.block_lt, hc.offset_le, hc.dirty, ?_⟩
    intro hd hb hm
    exact (hc.clean hd hb hm).trans (put_zero _ _ hb).symm
  · rw [hcount]
    exact h3

/-- **`fkfs_header_write`** keeps the invariant, whether it succeeds or not. -/
theorem header_write_newest {s : Machine} {w : Write} (h : NewestIn s w) :
    ∃ w', NewestIn (fkfs_header_write s false).2 w' := by
  have hread : NewestIn (afterRead (sealHeader (afterRead s))) w :=
    h.of_quiet ⟨h.coherent.block_ge, h.coherent.block_lt, h.coherent.offset_le, h.coherent.dirty,
      h.coherent.clean⟩ rfl rfl rfl rfl
  rcases header_write_cases s with e | e | e
  · rw [e]
    exact ⟨w, h.of_quiet ⟨h.coherent.block_ge, h.coherent.block_lt, h.coherent.offset_le,
      h.coherent.dirty, h.coherent.clean⟩ rfl rfl rfl rfl⟩
  · rw [e]
    exact ⟨w, hread.failed _ _⟩
  · rw [e]
    exact ⟨_, hread.put _ (sealHeader_sealed _) rfl⟩

/-- On a working card the header in `fs` is the one that was written. -/
theorem header_write_written {s : Machine} {w : Write} (hw : Works s.sd) (h : NewestIn s w) :
    ∃ w', NewestIn (fkfs_header_write s false).2 w' ∧ w'.fs = (fkfs_header_write s false).2.fs := by
  have hseal : NewestIn (sealHeader s) w :=
    h.of_quiet ⟨h.coherent.block_ge, h.coherent.block_lt, h.coherent.offset_le, h.coherent.dirty,
      h.coherent.clean⟩ rfl rfl rfl rfl
  rw [header_write_works hw]
  exact ⟨_, hseal.put _ (sealHeader_sealed s) rfl, rfl⟩

/-- Header writes are not counted. -/
theorem header_write_counts (s : Machine) :
    dataWrites (fkfs_header_write s false).2.writes = dataWrites s.writes := by
  rcases header_write_cases s with e | e | e <;> rw [e]
  · rfl
  · exact dataWrites_append s.writes _
  · exact dataWrites_append s.writes _

theorem block_ne_zero {s : Machine} (h : Coherent s) : s.fs.header.block ≠ 0 := by
  intro hcon
  have := h.block_ge
  rw [hcon] at this
  simp at this

/-- The data write of `fkfs_fsync` is counted. -/
theorem afterDataWrite_counts {s : Machine} (h : Coherent s) :
    dataWrites (afterDataWrite s).writes = dataWrites s.writes + 1 := by
  refine (dataWrites_append s.writes _).trans ?_
  rw [if_neg (block_ne_zero h)]

/-- The data write of `fkfs_fsync` moves the generation and the slot on. -/
theorem afterDataWrite_newest {s : Machine} {w : Write} (h : NewestIn s w)
    (hd : s.fs.cachedBlockDirty = true) (hb : dataWrites s.writes + 1 < 4294967295) :
    NewestIn (afterDataWrite s) w := by
  have hzero : (afterDataWrite s).sd.blocks 0 = s.sd.blocks 0 :=
    put_data_blocks_zero s.sd s.fs.buffer h.coherent.block_ge
  have hcount := afterDataWrite_counts h.coherent
  have hlast : lastHeaderWrite (afterDataWrite s).writes = lastHeaderWrite s.writes := by
    refine (lastHeaderWrite_append s.writes _).trans ?_
    rw [if_neg (by simp [isHeaderWrite, block_ne_zero h.coherent])]
  have hgen : (afterDataWrite s).fs.header.generation.toNat
      = s.fs.header.generation.toNat + 1 := by
    have := h.counted
    change (s.fs.header.generation + 1).toNat = _
    exact succ_toNat (by omega)
  obtain ⟨hcard, hc, h1, -, h3⟩ := h
  refine ⟨⟨hlast.trans hcard.last, ?_, ?_, ?_, ?_, hcard.inside⟩,
    (afterDataWrite_keeps hc hd).1, by omega, fun _ => by omega, by omega⟩
  · rw [slot, hzero]
    exact hcard.written
  · rw [slotValid, hzero]
    exact hcard.valid
  · rw [slotValid, slot, hzero]
    exact hcard.older
  · have := hcard.counted
    omega

/-- A dirty fsync on a working card writes the header as it leaves it. -/
theorem fsync_written {s : Machine} {w : Write} (hw : Works s.sd) (h : NewestIn s w)
    (hd : s.fs.cachedBlockDirty = true) (hb : dataWrites s.writes + 1 < 4294967295) :
    ∃ w', NewestIn (fkfs_fsync s).2 w' ∧ w'.fs = (fkfs_fsync s).2.fs := by
  rw [fsync_works hw hd]
  exact header_write_written (s := afterDataWrite s) hw (afterDataWrite_newest h hd hb)

/-- So does a touch. -/
theorem touch_written {s : Machine} {w : Write} (hw : Works s.sd) (h : NewestIn s w)
    (time : UInt32) : ∃ w', NewestIn (fkfs_touch s time).2 w' ∧ w'.fs = (fkfs_touch s time).2.fs := by
  have ht : NewestIn (s.setHeader { s.fs.header with time := time }) w :=
    h.of_quiet ⟨h.coherent.block_ge, h.coherent.block_lt, h.coherent.offset_le, h.coherent.dirty,
      h.coherent.clean⟩ rfl rfl rfl rfl
  exact header_write_written (s := s.setHeader { s.fs.header with time := time }) hw ht

/-- **`fkfs_fsync`** keeps the invariant, wherever it fails. -/
theorem fsync_newest {s : Machine} (h : Newest s) : Newest (fkfs_fsync s).2 := by
  cases hd : s.fs.cachedBlockDirty
  · rw [fsync_clean hd]
    exact h
  · rcases fsync_cases hd with e | e
    · rw [e]
      intro hb
      have hcount : dataWrites s.writes ≤ dataWrites
          (afterFailedWrite (afterRead s) s.fs.header.block s.fs.buffer).writes := dataWrites_le _ _
      obtain ⟨w, hw⟩ := h (lt_of_le_of_lt hcount hb)
      have hread : NewestIn (afterRead s) w :=
        hw.of_quiet ⟨hw.coherent.block_ge, hw.coherent.block_lt, hw.coherent.offset_le,
          hw.coherent.dirty, hw.coherent.clean⟩ rfl rfl rfl rfl
      exact ⟨w, hread.failed _ _⟩
    · rw [e]
      intro hb
      rw [header_write_counts] at hb
      have hcount : dataWrites s.writes ≤ dataWrites (afterDataWrite (afterRead s)).writes :=
        dataWrites_le _ _
      obtain ⟨w, hw⟩ := h (lt_of_le_of_lt hcount hb)
      have hread : NewestIn (afterRead s) w :=
        hw.of_quiet ⟨hw.coherent.block_ge, hw.coherent.block_lt, hw.coherent.offset_le,
          hw.coherent.dirty, hw.coherent.clean⟩ rfl rfl rfl rfl
      have hbound := lt_of_eq_of_lt (afterDataWrite_counts hread.coherent).symm hb
      exact header_write_newest (afterDataWrite_newest hread hd hbound)

/-- **Every primitive keeps the invariant.** -/
theorem newest_survives : Survives Newest where
  header := fun hm hsame hb => by
    obtain ⟨w, hw⟩ := hm hb
    exact ⟨w, hw.of_quiet (coherent_survives.header hw.coherent hsame) rfl rfl rfl hsame.2.2⟩
  header_write := fun hm hb => by
    rw [header_write_counts] at hb
    obtain ⟨w, hw⟩ := hm hb
    exact header_write_newest hw
  sync := fun hm => fsync_newest hm
  next := fun {m} hm hd hb => by
    obtain ⟨-, -, hsd, hwr, hfs⟩ := next_block_keeps m
    rw [hwr] at hb
    obtain ⟨w, hw⟩ := hm hb
    refine ⟨w, hw.of_quiet (next_block_coherent hw.coherent hd) hwr (by rw [hsd]) (by rw [hfs]) ?_⟩
    unfold fkfs_next_block
    split <;> rfl
  load := fun {m} b hm hb => by
    have hc := fun h => block_ensure_coherent (s := m) h b
    rcases block_ensure_cases m b with ⟨-, e⟩ | ⟨-, e⟩ | ⟨-, e⟩ <;> rw [e] at hb hc ⊢ <;>
      obtain ⟨w, hw⟩ := hm hb <;>
      exact ⟨w, hw.of_quiet (hc hw.coherent) rfl rfl rfl rfl⟩
  place := fun hm ho hb => by
    obtain ⟨w, hw⟩ := hm hb
    exact ⟨w, hw.of_quiet (coherent_survives.place hw.coherent ho) rfl rfl rfl rfl⟩
  store := fun hm hc hlen hroom hb => by
    obtain ⟨w, hw⟩ := hm hb
    exact ⟨w, hw.of_quiet (coherent_survives.store hw.coherent hc hlen hroom) rfl rfl rfl rfl⟩

/-! ## Runs with remounts -/

/-- A run from a wiping program start over calls and remounts, with any pattern
of failing block transfers; the flag says whether the last `fkfs_initialize`
returned true. A careful application makes no calls on a file system that is
not mounted. -/
inductive Served (ov : Overrun) (careful : Prop) : Bool → Machine → Prop
  | wipe {s s' : Machine} {cfg : FileNumber → FileConfig} {draws : FileNumber → UInt16} {ok : Bool}
      (hlog : s.writes = []) (hok : careful → ok = true) (h : boot s cfg true draws = (ok, s')) :
      Served ov careful ok s'
  | call {m : Bool} {s s' : Machine} {c : Call} {ok : Bool} (hs : Served ov careful m s)
      (hm : careful → m = true) (faults : List Bool) (hc : c.Sane)
      (h : perform ov (withFaults s faults) c = some (ok, s')) : Served ov careful m s'
  | remount {m : Bool} {s s' : Machine} {cfg : FileNumber → FileConfig}
      {draws : FileNumber → UInt16} {ok : Bool} (hs : Served ov careful m s) (faults : List Bool)
      (h : boot (withFaults s faults) cfg false draws = (ok, s')) : Served ov careful ok s'

theorem wipeHeaders_counts (s : Machine) (draws : FileNumber → UInt16) :
    dataWrites (wipeHeaders s draws).2.writes = dataWrites s.writes := by
  rw [wipeHeaders_eq]
  rcases header_write_wipe_cases (wipeFirst s draws) with e | e
  · rw [e]
    exact dataWrites_append s.writes _
  · rw [e]
    exact (header_write_counts _).trans (dataWrites_append s.writes _)

/-- A program start writes no data block. -/
theorem boot_counts (s : Machine) (cfg : FileNumber → FileConfig) (wipe : Bool)
    (draws : FileNumber → UInt16) :
    dataWrites (boot s cfg wipe draws).2.writes = dataWrites s.writes := by
  by_cases hnew : wipe = true ∨ ∀ i, ¬ slotValid s.sd i
  · rcases boot_new hnew cfg draws with ⟨fs, e⟩ | e
    · rw [e]
      rfl
    · rw [e, wipeHeaders_counts]
      rfl
  · simp only [not_or, Bool.not_eq_true, not_forall, not_not] at hnew
    obtain ⟨rfl, i, hv⟩ := hnew
    rcases boot_cases hv cfg draws with ⟨fs, e⟩ | e <;> rw [e] <;> rfl

/-- A header slot that was written, whatever the rest of the block was. -/
theorem slot_put (sd : Card) (base : Block) (i : Fin 2) {h : fkfs_header_t} (hs : Sealed h) :
    slot (Card.put sd 0 (putHeader base i h)) i = h
      ∧ slotValid (Card.put sd 0 (putHeader base i h)) i := by
  have h0 : (Card.put sd 0 (putHeader base i h)).blocks 0 = putHeader base i h := by
    simp only [Card.put, UInt32.toNat_zero, Function.update_self]
  constructor
  · rw [slot, h0, getHeader_putHeader]
  · rw [slotValid, h0, crc_valid_putHeader _ _ hs]

/-- A wipe that returned true leaves generation 1 in slot 1 and generation 0 in
slot 0. -/
theorem wipe_written {s s' : Machine} {cfg : FileNumber → FileConfig}
    {draws : FileNumber → UInt16} (hlog : s.writes = [])
    (h : boot s cfg true draws = (true, s')) :
    ∃ w, NewestIn s' w ∧ w.fs = s'.fs ∧ dataWrites s'.writes = 0 := by
  rcases boot_new (.inl rfl) cfg draws with ⟨fs, e⟩ | e
  · rw [e] at h
    cases h
  · rw [e] at h
    obtain ⟨s1, s2, -, hs1, hs2, rfl⟩ := wipeHeaders_true h
    have hseal : Sealed s2.fs.header := by
      rw [hs2]
      exact sealHeader_sealed _
    have hzero : s2.sd.blocks 0 = s1.sd.blocks 0 := by rw [hs2]; rfl
    have hput : SlotPut s2.sd (afterWrite s2 0 (headerImage s2.fs (s1.sd.blocks 0))).sd
        s2.fs.headerIndex s2.fs.header := by
      rw [← hzero]
      exact slotPut_put s2.sd s2.fs.headerIndex hseal
    have hone : s2.fs.headerIndex = 1 ∧ s2.fs.header.generation = 1
        ∧ s2.fs.header.block = FKFS_FIRST_BLOCK ∧ s2.fs.header.offset = 0 := by
      rw [hs2, hs1]
      exact ⟨rfl, rfl, rfl, rfl⟩
    have hfirst : (slot s2.sd 0).generation = 0 := by
      rw [slot, hzero, hs1]
      exact congrArg fkfs_header_t.generation
        (slot_put _ zeroBlock 0 (sealHeader_sealed (wipeFirst _ draws))).1
    have hwrites : s2.writes = s1.writes := by rw [hs2]; rfl
    have hcounts : dataWrites (afterWrite s2 0 (headerImage s2.fs (s1.sd.blocks 0))).writes = 0 := by
      refine (dataWrites_append s2.writes _).trans ?_
      rw [hwrites, hs1]
      refine (congrArg (· + 0) (dataWrites_append s.writes _)).trans ?_
      rw [hlog]
      rfl
    obtain ⟨h1, h2, h3, h4⟩ := hone
    have hge : 8000 ≤ s2.fs.header.block.toNat := by rw [h3]; simp
    have hlt : s2.fs.header.block.toNat < 4294967295 := by rw [h3]; simp
    have ho : s2.fs.header.offset.toNat ≤ 512 := by rw [h4]; simp
    refine ⟨⟨0, _, s2.fs, true⟩, ⟨⟨lastHeaderWrite_append _ _, hput.written, hput.written_valid, ?_,
      ?_, hge, hlt, ho⟩, coherent_of_fresh hge hlt ho ?_ ?_, le_refl _, fun hne => absurd rfl hne,
      ?_⟩, rfl, hcounts⟩
    · intro _
      rw [hput.other]
      change (slot s2.sd (s2.fs.headerIndex + 1)).generation < s2.fs.header.generation
      rw [h1, h2]
      change (slot s2.sd 0).generation < 1
      rw [hfirst]
      decide
    · rw [hcounts]
      change s2.fs.header.generation.toNat ≤ _
      rw [h2]
      decide
    · rw [hs2, hs1]
      rfl
    · rw [hs2, hs1]
      rfl
    · rw [hcounts]
      change s2.fs.header.generation.toNat ≤ _
      rw [h2]
      decide

theorem wipe_newest {s s' : Machine} {cfg : FileNumber → FileConfig}
    {draws : FileNumber → UInt16} (hlog : s.writes = [])
    (h : boot s cfg true draws = (true, s')) : Newest s' := by
  intro _
  obtain ⟨w, hw, -⟩ := wipe_written hlog h
  exact ⟨w, hw⟩

/-- Mounting takes the newest slot. -/
theorem selected_newest {s : Machine} {w : Write} (h : NewestOnCard s w) :
    selected s.sd = w.fs.headerIndex := by
  refine selectHeader_eq h.valid fun hv => ?_
  have := h.older hv
  rw [← h.written] at this
  exact this

/-- **What a remount does**: it fails and the card stays, or it takes over the
newest header. -/
theorem remount_newest {s s' : Machine} {w : Write} {cfg : FileNumber → FileConfig}
    {draws : FileNumber → UInt16} {ok : Bool} (h : NewestOnCard s w)
    (hb : boot s cfg false draws = (ok, s')) :
    NewestOnCard s' w ∧ (ok = true → NewestIn s' w ∧ s'.fs.headerIndex = w.fs.headerIndex
      ∧ s'.fs.header = withNames w.fs.header (configured cfg).header) := by
  have hcard : ∀ fs, NewestOnCard { afterRead s with fs := fs } w := fun fs =>
    ⟨h.last, h.written, h.valid, h.older, h.counted, h.inside⟩
  rcases boot_cases h.valid cfg draws with ⟨fs, e⟩ | e
  · rw [e] at hb
    cases hb
    exact ⟨hcard fs, fun hok => nomatch hok⟩
  · rw [e] at hb
    cases hb
    have hi : (mounted cfg s.sd).headerIndex = w.fs.headerIndex := selected_newest h
    have hh : (mounted cfg s.sd).header = withNames w.fs.header (configured cfg).header := by
      rw [mounted_header, selected_newest h, h.written]
    obtain ⟨h1, h2, h3⟩ := h.inside
    refine ⟨hcard _, fun _ => ⟨⟨hcard _, coherent_of_fresh ?_ ?_ ?_ rfl rfl, ?_,
      fun hne => absurd hi hne, ?_⟩, hi, hh⟩⟩
    · exact le_of_le_of_eq h1 (congrArg (·.block.toNat) hh).symm
    · exact lt_of_eq_of_lt (congrArg (·.block.toNat) hh) h2
    · exact le_of_eq_of_le (congrArg (·.offset.toNat) hh) h3
    · exact le_of_eq (congrArg (·.generation.toNat) hh).symm
    · exact le_of_eq_of_le (congrArg (·.generation.toNat) hh) h.counted

theorem served_newest {ov : Overrun} {m : Bool} {s : Machine} (h : Served ov True m s) :
    (dataWrites s.writes < 4294967295 → ∃ w, NewestOnCard s w) ∧ (m = true → Newest s) := by
  induction h with
  | wipe hlog hok h =>
    rw [hok trivial] at h
    have hn := wipe_newest hlog h
    refine ⟨fun hb => ?_, fun _ => hn⟩
    obtain ⟨w, hw⟩ := hn hb
    exact ⟨w, hw.card⟩
  | @call m s s' c ok hs hm faults hc h ih =>
    have hn : Newest (withFaults s faults) := fun hb => by
      obtain ⟨w, hw⟩ := ih.2 (hm trivial) hb
      exact ⟨w, hw.of_quiet ⟨hw.coherent.block_ge, hw.coherent.block_lt, hw.coherent.offset_le,
        hw.coherent.dirty, hw.coherent.clean⟩ rfl rfl rfl rfl⟩
    have hn' := perform_rule newest_survives hc hn h
    refine ⟨fun hb => ?_, fun _ => hn'⟩
    obtain ⟨w, hw⟩ := hn' hb
    exact ⟨w, hw.card⟩
  | @remount m s s' cfg draws ok hs faults h ih =>
    have hcount := boot_counts (withFaults s faults) cfg false draws
    rw [h] at hcount
    have hcard : dataWrites s'.writes < 4294967295 →
        ∃ w, NewestOnCard (withFaults s faults) w := fun hb => by
      obtain ⟨w, hw⟩ := ih.1 (lt_of_eq_of_lt hcount.symm hb)
      exact ⟨w, hw.last, hw.written, hw.valid, hw.older, hw.counted, hw.inside⟩
    constructor
    · intro hb
      obtain ⟨w, hw⟩ := hcard hb
      exact ⟨w, (remount_newest hw h).1⟩
    · intro hok hb
      obtain ⟨w, hw⟩ := hcard hb
      exact ⟨w, ((remount_newest hw h).2 hok).1⟩

/-- **Mounting recovers the newest header**: after any careful run, a remount
that succeeds takes the slot of the last successful header write, and its header
is what `fs->header` was then, with the configured names. -/
theorem mount_recovers_newest {ov : Overrun} {m : Bool} {s s' : Machine}
    {cfg : FileNumber → FileConfig} {draws : FileNumber → UInt16} (h : Served ov True m s)
    (hb : dataWrites s.writes < 4294967295) (faults : List Bool)
    (hboot : boot (withFaults s faults) cfg false draws = (true, s')) :
    ∃ w, lastHeaderWrite s.writes = some w ∧ s'.fs.headerIndex = w.fs.headerIndex
      ∧ s'.fs.header = withNames w.fs.header (configured cfg).header := by
  obtain ⟨w, hw⟩ := (served_newest h).1 hb
  have hcard : NewestOnCard (withFaults s faults) w :=
    ⟨hw.last, hw.written, hw.valid, hw.older, hw.counted, hw.inside⟩
  exact ⟨w, hw.last, ((remount_newest hcard hboot).2 rfl).2⟩

/-! ## Calls on a file system that is not mounted -/

/-- A wiped card whose remount could not read block 0. -/
def unmountedMachine : Machine :=
  (boot (withFaults (wipedMachine 9000) [true]) plainConfig false fun _ => 7).2

/-- The same, touched. -/
def touchedUnmounted : Machine := (fkfs_touch (withFaults unmountedMachine []) 5).2

/-- The care is needed: after a remount that failed, `fs` holds the header of
`fkfs_create`, and a touch puts it into slot 0 with generation 0. The next mount
takes slot 1. -/
theorem mount_passes_over_unmounted_touch :
    ∃ s', Served .reads False false touchedUnmounted
      ∧ dataWrites touchedUnmounted.writes < 4294967295
      ∧ boot (withFaults touchedUnmounted []) plainConfig false (fun _ => 7) = (true, s')
      ∧ (lastHeaderWrite touchedUnmounted.writes).map (fun w => w.fs.headerIndex) = some 0
      ∧ s'.fs.headerIndex = 1 := by
  have hw : Served .reads False true (wipedMachine 9000) :=
    .wipe rfl (fun h => h.elim) (wipedMachine_boot 9000)
  have hboot := of_status (show (boot (withFaults (wipedMachine 9000) [true]) plainConfig false
    fun _ => 7).1 = false by decide +kernel)
  have hc : (Call.touch 5).Sane := by simp [Call.Sane]
  have htouch : perform .reads (withFaults unmountedMachine []) (.touch 5)
      = some ((fkfs_touch (withFaults unmountedMachine []) 5).1, touchedUnmounted) := rfl
  have hs := Served.call (.remount hw [true] hboot) (fun h => h.elim) [] hc htouch
  have hmount := of_status (show (boot (withFaults touchedUnmounted []) plainConfig false
    fun _ => 7).1 = true by decide +kernel)
  exact ⟨_, hs, by decide +kernel, hmount, by decide +kernel, by decide +kernel⟩

/-- A remount right after the wipe takes slot 1, the last that was written. -/
theorem mount_recovers_newest_wiped :
    ∃ w, lastHeaderWrite (wipedMachine 9000).writes = some w
      ∧ (boot (withFaults (wipedMachine 9000) []) plainConfig false fun _ => 7).2.fs.headerIndex
        = w.fs.headerIndex
      ∧ (boot (withFaults (wipedMachine 9000) []) plainConfig false fun _ => 7).2.fs.header
        = withNames w.fs.header (configured plainConfig).header := by
  have hw : Served .reads True true (wipedMachine 9000) :=
    .wipe rfl (fun _ => rfl) (wipedMachine_boot 9000)
  have hmount := of_status (show (boot (withFaults (wipedMachine 9000) []) plainConfig false
    fun _ => 7).1 = true by decide +kernel)
  exact mount_recovers_newest hw (by decide +kernel) [] hmount

end Fkfs.Generations
