/-
What calls keep on a card that works.

The header in `fs` marks stretches of the blocks as they are seen, and so does the
header a mount of the card would take (`Sound`). Nothing is asked of the card but
that its transfers succeed: the data blocks may hold anything, files of both kinds
share them, and the generation may run over. What is asked of the calls is that no
block is read over a dirty one (`Quietly`).

A `Desk` is a machine together with the ends its iterators were given. Every careful
run keeps it (`Desk.Run.holds`), restarts included, because what a mount takes was
marked when it was written and no byte before its writer's place has changed since.
-/
import Fkfs.Durable

set_option autoImplicit false

namespace Fkfs.Upkeep

open Bytes Relation
open Fkfs.Crc Fkfs.Layout Fkfs.Device Fkfs.Search Fkfs.Append Fkfs.Iterate Fkfs.Mount Fkfs.Cache
open Fkfs.Walk Fkfs.Writer Fkfs.Reader Fkfs.Run Fkfs.Slots Fkfs.Log Fkfs.CardLog Fkfs.Structure
open Fkfs.Generations Fkfs.Marking Fkfs.Durable

/-- Nothing is marked. -/
def nothing : Payloads := fun _ => []

/-! ## The invariant -/

/-- A header that marks stretches of the blocks as they are seen, and is not ahead of
the one in `fs`. -/
structure Marked (m : Machine) (h : fkfs_header_t) : Prop where
  marks : Marks (view m) h nothing
  behind : writerPlace h ≤ writerPlace m.fs.header
  block_lt : h.block.toNat < 4294967295
  offset_le : h.offset.toNat ≤ 512

/-- The header in `fs` marks `K`; the one a mount would take is marked too. -/
structure Sound (K : Payloads) (m : Machine) : Prop where
  ram : Marks (view m) m.fs.header K
  unwrapped : Unwrapped m.fs m.fs.header.block.toNat
  size : m.fs.numberOfBlocks = m.sd.size
  valid : slotValid m.sd m.fs.headerIndex
  generation : (slot m.sd m.fs.headerIndex).generation = m.fs.header.generation
  here : Marked m (slot m.sd m.fs.headerIndex)
  chosen : selected m.sd = m.fs.headerIndex ∨ Marked m (slot m.sd (m.fs.headerIndex + 1))

/-- That, on a card that works, as long as the writer has not wrapped. -/
structure Upholds (K : Payloads) (m : Machine) : Prop where
  works : Works m.sd
  coherent : Coherent m
  sound : m.wraps = 0 → Sound K m

section Primitives

variable {K K' : Payloads} {m m' : Machine} {f : FileNumber} {h : fkfs_header_t}

/-- No byte before the writer's place changes, and the writer does not go back. -/
theorem Marked.mono (hm : Marked m h) (hV : Below (view m) (view m') (writerPlace m.fs.header))
    (hw : writerPlace m.fs.header ≤ writerPlace m'.fs.header) : Marked m' h :=
  ⟨hm.marks.congr (hV.mono hm.behind) rfl fun _ => .refl _, le_trans hm.behind hw, hm.block_lt,
    hm.offset_le⟩

/-- What leaves the header block, the slot and the generation alone keeps the slots. -/
theorem Sound.of_step (hs : Sound K m) (hV : Below (view m) (view m') (writerPlace m.fs.header))
    (hw : writerPlace m.fs.header ≤ writerPlace m'.fs.header)
    (hzero : m'.sd.blocks 0 = m.sd.blocks 0) (hindex : m'.fs.headerIndex = m.fs.headerIndex)
    (hgen : m'.fs.header.generation = m.fs.header.generation)
    (hsize : m'.fs.numberOfBlocks = m'.sd.size) (hram : Marks (view m') m'.fs.header K')
    (hu : Unwrapped m'.fs m'.fs.header.block.toNat) : Sound K' m' := by
  have hslot : ∀ i, slot m'.sd i = slot m.sd i := fun i => by rw [slot, slot, hzero]
  refine ⟨hram, hu, hsize, ?_, ?_, ?_, ?_⟩
  · rw [hindex, slotValid, hzero]
    exact hs.valid
  · rw [hindex, hslot, hgen]
    exact hs.generation
  · rw [hindex, hslot]
    exact hs.here.mono hV hw
  · rw [hindex, hslot, selected, hzero]
    exact hs.chosen.imp id fun ho => ho.mono hV hw

/-- So does what moves the cache only. -/
theorem Sound.of_keeps (hs : Sound K m) (hk : Keeps m m') (hzero : m'.sd.blocks 0 = m.sd.blocks 0)
    (hindex : m'.fs.headerIndex = m.fs.headerIndex)
    (hgen : m'.fs.header.generation = m.fs.header.generation) : Sound K m' := by
  have hwriter := Keeps.writer hk
  refine hs.of_step (below_of_eq hk.view _) (le_of_eq hwriter.symm) hzero hindex hgen ?_ ?_ ?_
  · rw [hk.blocks, hk.size]
    exact hs.size
  · refine (Marks.keeps hs.ram hk).congr (below_of_eq (fun _ _ => rfl) _) hwriter fun f => ?_
    rw [hk.table]
    exact .refl _
  · rw [hk.block]
    exact unwrapped_congr hs.unwrapped hk.blocks

/-- **A header write**: the slot of `fs` holds what `fs` holds. -/
theorem header_write_sound (hw : Works m.sd) (hc : Coherent m) (hram : Marks (view m) m.fs.header K)
    (hu : Unwrapped m.fs m.fs.header.block.toNat) (hsize : m.fs.numberOfBlocks = m.sd.size)
    (hchosen : selected (fkfs_header_write m false).2.sd = m.fs.headerIndex
      ∨ Marked m (slot m.sd (m.fs.headerIndex + 1))) :
    Sound K (fkfs_header_write m false).2 := by
  obtain ⟨-, hk, -⟩ := header_write_keeps hc
  rw [header_write_works hw] at hk hchosen ⊢
  have hput := slotPut_put m.sd m.fs.headerIndex (sealHeader_sealed m)
  have hbelow := below_of_eq hk.view (writerPlace m.fs.header)
  have hseal : Marks (view m) (sealHeader m).fs.header K :=
    hram.congr (below_of_eq (fun _ _ => rfl) _) rfl fun _ => .refl _
  have hsealed : Marked m (sealHeader m).fs.header :=
    ⟨hseal.sublist fun _ => List.nil_sublist _, le_refl _, hc.block_lt, hc.offset_le⟩
  refine ⟨hseal.congr hbelow rfl fun _ => .refl _, unwrapped_congr hu rfl, hsize, hput.written_valid,
    congrArg _ hput.written, ?_, ?_⟩
  · exact (congrArg (Marked _) hput.written).mpr (hsealed.mono hbelow (le_refl _))
  · exact hchosen.imp id fun ho =>
      (congrArg (Marked _) hput.other).mpr (ho.mono hbelow (le_refl _))

/-- A header write with the generation the slot has: a mount goes on choosing as it
did. -/
theorem Upholds.header_write (h : Upholds K m) : Upholds K (fkfs_header_write m false).2 := by
  obtain ⟨hc, hk, -⟩ := header_write_keeps h.coherent
  refine ⟨(header_write_succeeds h.works).2, hc, fun h0 => ?_⟩
  have hs := h.sound (hk.wraps.symm.trans h0)
  refine header_write_sound h.works h.coherent hs.ram hs.unwrapped hs.size
    (hs.chosen.imp (fun hsel => ?_) id)
  have hput := slotPut_put m.sd m.fs.headerIndex (sealHeader_sealed m)
  rw [header_write_works h.works]
  exact (hput.selected hs.valid hs.generation.symm).trans hsel

/-- **`fkfs_touch`** sets the time and writes the header. -/
theorem Upholds.touch (h : Upholds K m) (time : UInt32) : Upholds K (fkfs_touch m time).2 := by
  have ht : Upholds K (m.setHeader { m.fs.header with time := time }) := by
    refine ⟨h.works, ⟨h.coherent.block_ge, h.coherent.block_lt, h.coherent.offset_le,
      h.coherent.dirty, h.coherent.clean⟩, fun h0 => ?_⟩
    exact (h.sound h0).of_keeps ⟨rfl, rfl, rfl, rfl, rfl, rfl, rfl, fun _ _ => rfl⟩ rfl rfl rfl
  exact ht.header_write

/-- **`fkfs_fsync`** writes over the other slot: what was newest is now the older one. -/
theorem Upholds.sync (h : Upholds K m) : Upholds K (fkfs_fsync m).2 := by
  by_cases hd : m.fs.cachedBlockDirty = true
  · obtain ⟨hc, hk⟩ := afterDataWrite_keeps h.coherent hd
    obtain ⟨hc', hk', -⟩ := header_write_keeps hc
    have hworks : Works (afterDataWrite m).sd := h.works
    have hzero : (afterDataWrite m).sd.blocks 0 = m.sd.blocks 0 :=
      put_data_blocks_zero m.sd m.fs.buffer h.coherent.block_ge
    rw [fsync_works h.works hd]
    refine ⟨(header_write_succeeds hworks).2, hc', fun h0 => ?_⟩
    have hs := h.sound ((hk.trans hk').wraps.symm.trans h0)
    have hbelow := below_of_eq hk.view (writerPlace m.fs.header)
    have hram : Marks (view (afterDataWrite m)) (afterDataWrite m).fs.header K :=
      (Marks.keeps hs.ram hk).congr (below_of_eq (fun _ _ => rfl) _) rfl fun _ => .refl _
    refine header_write_sound hworks hc hram hs.unwrapped hs.size (.inr ?_)
    have hold : slot (afterDataWrite m).sd (m.fs.headerIndex + 1 + 1)
        = slot m.sd m.fs.headerIndex := by
      rw [slot, slot, hzero, show m.fs.headerIndex + 1 + 1 = m.fs.headerIndex by omega]
    exact (congrArg (Marked _) hold).mpr (hs.here.mono hbelow (le_refl _))
  · rw [fsync_clean (Bool.not_eq_true _ ▸ hd)]
    exact h

theorem Upholds.flush (h : Upholds K m) (now : UInt32) : Upholds K (fkfs_flush m now).2 := by
  rw [flush_works h.works]
  exact (h.touch now).sync

/-- A call that only moves blocks through the cache. -/
theorem Upholds.loads (h : Upholds K m) (hl : Loads m m') : Upholds K m' := by
  refine ⟨by rw [hl.sd]; exact h.works, hl.coherent h.coherent, fun h0 => ?_⟩
  exact (h.sound (hl.wraps.symm.trans h0)).of_keeps hl.keeps (by rw [hl.sd]) hl.index
    (by rw [hl.header])

theorem Upholds.next (h : Upholds K m) (hd : m.fs.cachedBlockDirty = false) :
    Upholds K (fkfs_next_block m) := by
  obtain ⟨ho, hf, hsd, -, hfs⟩ := next_block_keeps m
  refine ⟨by rw [hsd]; exact h.works, next_block_coherent h.coherent hd, fun h0 => ?_⟩
  have hsame : (fkfs_next_block m).wraps = m.wraps := by
    rcases next_block_cases m with ⟨-, hw, -⟩ | ⟨-, hw, -⟩
    · omega
    · exact hw
  have hs := h.sound (hsame.symm.trans h0)
  obtain ⟨hb, hu⟩ := next_block_unwrapped h.coherent hs.unwrapped hsame
  have hgen : (fkfs_next_block m).fs.header.generation = m.fs.header.generation := by
    unfold fkfs_next_block
    split <;> rfl
  refine hs.of_step ?_ (place_le.mpr (.inl (by omega))) (by rw [hsd]) (by rw [hfs]) hgen ?_ ?_ hu
  · rw [next_block_view]
    exact below_of_eq (fun _ _ => rfl) _
  · rw [hfs, hsd]
    exact hs.size
  · rw [next_block_view]
    exact hs.ram.next hb ho hf

/-- **The allocator keeps it.** -/
theorem upholds_allocates (K : Payloads) (required : ℕ) : Allocates required (Upholds K) where
  sync := fun hm => hm.sync
  next := fun hm hd => hm.next hd
  load := by
    intro m hm
    obtain ⟨m', e, hl, -⟩ := block_ensure_loads hm.works hm.coherent.dirty
    rw [e]
    exact hm.loads hl
  place := by
    intro m o hm hcache hchain ho
    rw [hm.coherent.buffer_eq hcache hm.coherent.block_ge hm.coherent.block_ne_max] at hchain
    refine ⟨hm.works, coherent_survives.place hm.coherent (by omega), fun h0 => ?_⟩
    have hs := hm.sound h0
    exact hs.of_step (below_of_eq (fun _ _ => rfl) _) (place_le.mpr (.inr ⟨rfl, hchain.le⟩)) rfl rfl
      rfl hs.size (hs.ram.seek hchain) hs.unwrapped

/-- An entry is stored at the writer's place. -/
theorem Upholds.store (h : Upholds K m) {data : List UInt8}
    (hcache : m.fs.cachedBlockNumber = m.fs.header.block) (hpos : 0 < data.length)
    (hlen : data.length ≤ 505) (hroom : m.fs.header.offset.toNat + (7 + data.length) ≤ 512) :
    Upholds (K.push f data) (afterStore m f data) := by
  refine ⟨h.works, afterStore_coherent h.coherent hcache hlen hroom, fun h0 => ?_⟩
  have hs := h.sound h0
  have hbelow : Below (view m) (view (afterStore m f data)) (writerPlace m.fs.header) :=
    afterStore_below h.coherent hcache
  have hwriter : writerPlace (afterStore m f data).fs.header
      = place m.fs.header.block.toNat (m.fs.header.offset.toNat + (7 + data.length)) := by
    rw [writerPlace, afterStore_offset (f := f) hlen hroom]
    rfl
  refine hs.of_step hbelow ?_ rfl rfl rfl hs.size ?_ hs.unwrapped
  · rw [hwriter]
    exact place_le.mpr (.inr ⟨rfl, Nat.le_add_right _ _⟩)
  · refine hs.ram.store hbelow (afterStore_stored h.coherent hcache hpos hlen hroom) hwriter
      (fun g hg => afterStore_other hg) (afterStore_version f) ?_ ?_
    · rw [afterStore_row]
      rfl
    · rw [afterStore_row]
      rfl

/-- A row is replaced by one that still marks a line. -/
theorem Upholds.setFile (h : Upholds K m) {file : fkfs_file_t} {xs : List (List UInt8)}
    (hf : FileMarks (view m) m.fs.header f (K f) →
      FileMarks (view m) (m.fs.header.setFile f file) f xs) :
    Upholds (Function.update K f xs) (m.setHeader (m.fs.header.setFile f file)) := by
  refine ⟨h.works, ⟨h.coherent.block_ge, h.coherent.block_lt, h.coherent.offset_le,
    h.coherent.dirty, h.coherent.clean⟩, fun h0 => ?_⟩
  have hs := h.sound h0
  exact hs.of_step (below_of_eq (fun _ _ => rfl) _) (le_refl _) rfl rfl rfl hs.size
    (hs.ram.setFile rfl (fun g hg => fkfs_header_t.setFile_other _ hg _) (hf (hs.ram.file f)))
    hs.unwrapped

theorem Upholds.among (h : Upholds K m) (hk : Among K' K) : Upholds K' m := by
  refine ⟨h.works, h.coherent, fun h0 => ?_⟩
  have hs := h.sound h0
  exact ⟨hs.ram.sublist hk, hs.unwrapped, hs.size, hs.valid, hs.generation, hs.here, hs.chosen⟩

end Primitives

/-! ## Program starts -/

section Starts

variable {m m' : Machine} {cfg : FileNumber → FileConfig} {draws : FileNumber → UInt16}

/-- **A wipe** marks nothing. -/
theorem upholds_wiped {s : Machine} (hlog : s.writes = []) (hw : Works s.sd)
    (h : boot s cfg true draws = (true, m)) : Upholds nothing m ∧ m.wraps = s.wraps
      ∧ m.fs.cachedBlockDirty = false ∧ m.fs.files = settingsOf cfg := by
  have hwiped := wipe_works hw h
  obtain ⟨w, hn, hfs, -⟩ := wipe_written hlog h
  have hplace : ∀ f, startPlace (m.fs.header.files f) = origin
      ∧ endPlace (m.fs.header.files f) = origin := by
    intro f
    have hrow := hwiped.row f
    rw [startPlace, endPlace, hrow.startBlock, hrow.startOffset, hrow.endBlock, hrow.endOffset]
    exact ⟨rfl, rfl⟩
  have hwriter : writerPlace m.fs.header = origin := by
    rw [writerPlace, hwiped.block, hwiped.offset]
    rfl
  have hmarks : Marks (view m) m.fs.header nothing := by
    refine ⟨by rw [hwiped.block]; exact le_of_eq FKFS_FIRST_BLOCK_toNat.symm, ?_, fun f => ?_⟩
    · rw [hwiped.offset]
      exact .refl
    · obtain ⟨hstart, hlast⟩ := hplace f
      refine ⟨by rw [hstart, origin, blockOf_place], by rw [hstart]; rfl, by rw [hlast, hwriter], ?_⟩
      rw [hstart, hlast]
      exact .refl _
  have hslot : slot m.sd m.fs.headerIndex = m.fs.header := by
    rw [← hfs]
    exact hn.card.written
  have hvalid : slotValid m.sd m.fs.headerIndex := by
    rw [← hfs]
    exact hn.card.valid
  refine ⟨⟨hwiped.works, hn.coherent, fun _ => ⟨hmarks, fun b h1 h2 => ?_, hwiped.size, hvalid,
    congrArg _ hslot, ?_, .inl ?_⟩⟩, hwiped.wraps, hwiped.dirty, hwiped.settings⟩
  · rw [hwiped.block, FKFS_FIRST_BLOCK_toNat] at h2
    omega
  · rw [hslot]
    exact ⟨hmarks, le_refl _, hn.coherent.block_lt, hn.coherent.offset_le⟩
  · rw [selected_newest hn.card, hfs]

/-- **A restart** with nothing in the buffer takes a header that is marked. -/
theorem Upholds.restart {K : Payloads} (h : Upholds K m) (hd : m.fs.cachedBlockDirty = false)
    (h0 : m.wraps = 0) (he : boot m cfg false draws = (true, m')) :
    Upholds nothing m' ∧ m'.wraps = 0 ∧ m'.fs.cachedBlockDirty = false
      ∧ m'.fs.files = settingsOf cfg := by
  have hs := h.sound h0
  rw [boot_works h.works hs.valid] at he
  cases he
  -- Whichever slot is taken is valid and marked.
  have htaken : Marked m (slot m.sd (selected m.sd)) := by
    rcases slot_cases m.fs.headerIndex (selected m.sd) with hi | hi
    · rw [hi]
      exact hs.here
    · rw [hi]
      exact hs.chosen.resolve_left fun hc => absurd (hi.symm.trans hc) (slot_succ_ne _)
  have hvalid : slotValid m.sd (selected m.sd) := selectHeader_valid hs.valid
  have hview : view { m with fs := mounted cfg m.sd } = m.sd.blocks := by
    funext b
    exact view_clean rfl b
  have hbelow : ∀ p, Below (view m) m.sd.blocks p := fun p =>
    below_of_eq (fun b _ => (view_clean hd b).symm) p
  have hmarks : Marks m.sd.blocks (mounted cfg m.sd).header nothing :=
    htaken.marks.congr (hbelow _) rfl fun _ => ⟨rfl, rfl, rfl⟩
  have hblock : (mounted cfg m.sd).header.block.toNat ≤ m.fs.header.block.toNat :=
    blockOf_le htaken.behind
  have hslotted : Marked { m with fs := mounted cfg m.sd } (slot m.sd (selected m.sd)) := by
    refine ⟨?_, le_refl _, htaken.block_lt, htaken.offset_le⟩
    rw [hview]
    exact htaken.marks.congr (hbelow _) rfl fun _ => .refl _
  refine ⟨⟨h.works, coherent_of_fresh ?_ htaken.block_lt htaken.offset_le rfl rfl, fun _ =>
    ⟨?_, fun b h1 h2 => ?_, rfl, hvalid, rfl, hslotted, .inl rfl⟩⟩, h0, rfl, mounted_files cfg m.sd⟩
  · exact htaken.marks.block_ge
  · rw [hview]
    exact hmarks
  · exact unwrapped_congr hs.unwrapped (show m.sd.size = _ from hs.size.symm) b h1
      (le_trans h2 hblock)

end Starts

/-! ## Reading quietly -/

/-- The header with file `iter.token.file` starting at the end of the iterator. -/
def cutAt (h : fkfs_header_t) (iter : fkfs_file_iter_t) : fkfs_header_t :=
  h.setFile iter.token.file
    { h.files iter.token.file with startBlock := iter.token.lastBlock, size := 0 }

/-- The iterator `fkfs_file_truncate_at` scans with. -/
def scanOf (m : Machine) (iter scratch : fkfs_file_iter_t) : fkfs_file_iter_t :=
  fkfs_file_iterator_create (m.setHeader (cutAt m.fs.header iter)).fs iter.token.file scratch

/-- An iteration from the iterator on evicts no dirty block. -/
def ReadsQuietly (m : Machine) (iter : fkfs_file_iter_t) : Prop :=
  fkfs_file_iterator_valid m.fs iter = true → fkfs_file_iterator_done iter = false →
    Quiet m iter.token

/-- The call evicts no dirty block. -/
def Quietly (m : Machine) : Call → Prop
  | .ensure iter => QuietAt m iter.token.block
  | .iterate _ _ _ iter => ReadsQuietly m iter
  | .truncateAt iter scratch _ _ => ReadsQuietly m (scanOf m iter scratch)
  | _ => True

section Reading

variable {ov : Overrun} {Inv : Machine → Prop} {m m' : Machine} {iter scratch : fkfs_file_iter_t}

/-- A quiet `fkfs_file_iterator_ensure` moves blocks through the cache. -/
theorem ensure_loads {ok : Bool} (hw : Works m.sd) (hq : QuietAt m iter.token.block)
    (h : fkfs_file_iterator_ensure m iter = (ok, m')) : Loads m m' := by
  unfold fkfs_file_iterator_ensure at h
  split at h
  · cases h
    exact .refl m
  · obtain ⟨s, e, hl, -⟩ := block_ensure_loads hw hq
    rw [e] at h
    cases h
    exact hl

/-- The scan of `fkfs_file_truncate_at` keeps what quiet reading and a change of the
file's size keep. -/
theorem calculateLoop_quiet {f : FileNumber}
    (hbase : ∀ {s}, Inv s → Works s.sd ∧ Coherent s)
    (hload : ∀ {s s'}, Inv s → Loads s s' → Inv s')
    (hsize : ∀ {s} (n : UInt32), Inv s →
      Inv (s.setHeader (s.fs.header.setFile f { s.fs.header.files f with size := n })))
    {ams : ℕ → Ambient} {n k j : ℕ} (hm : Inv m) (hq : ReadsQuietly m iter)
    (h : calculateLoop ov ams n f k j m iter = some m') : Inv m' := by
  induction k generalizing j m iter with
  | zero => cases h
  | succ k ih =>
    obtain ⟨hw, hc⟩ := hbase hm
    simp only [calculateLoop] at h
    split at h
    · cases h
    · rename_i s iter' e
      cases h
      exact hload hm (iterate_loads hw hc hq e).1
    · rename_i s iter' e
      obtain ⟨hl, -, hquiet⟩ := iterate_loads hw hc hq e
      exact ih (hsize _ (hload hm hl)) (fun _ _ => hquiet rfl) h

/-- So does `fkfs_file_truncate_at`, once the file starts at the iterator's end. -/
theorem truncateAt_quiet (hbase : ∀ {s}, Inv s → Works s.sd ∧ Coherent s)
    (hload : ∀ {s s'}, Inv s → Loads s s' → Inv s')
    (hsize : ∀ {s} (n : UInt32), Inv s → Inv (s.setHeader (s.fs.header.setFile iter.token.file
      { s.fs.header.files iter.token.file with size := n })))
    {ams : ℕ → Ambient} {n : ℕ} (hcut : Inv (m.setHeader (cutAt m.fs.header iter)))
    (hq : ReadsQuietly m (scanOf m iter scratch))
    (h : fkfs_file_truncate_at ov ams n m iter scratch = some m') : Inv m' := by
  have hcutAt : (m.fs.header.setFile iter.token.file { m.fs.header.files iter.token.file with
      startBlock := iter.token.lastBlock }).setFile iter.token.file
        { (m.fs.header.setFile iter.token.file { m.fs.header.files iter.token.file with
          startBlock := iter.token.lastBlock }).files iter.token.file with size := 0 }
      = cutAt m.fs.header iter := by
    simp only [cutAt, fkfs_header_t.setFile, Function.update_self, Function.update_idem]
  simp only [fkfs_file_truncate_at, calculate_file_size, Machine.setHeader] at h
  rw [hcutAt] at h
  exact calculateLoop_quiet hbase hload hsize hcut hq h

end Reading

/-! ## One call -/

/-- No file ends in an earlier block. -/
def Forward (m m' : Machine) : Prop :=
  ∀ g, (m.fs.header.files g).endBlock.toNat ≤ (m'.fs.header.files g).endBlock.toNat

section Calls

variable {ov : Overrun} {m m' : Machine} {f : FileNumber}

/-- A row is replaced by one that marks nothing. -/
theorem Upholds.setRow (h : Upholds nothing m) {file : fkfs_file_t}
    (hf : FileMarks (view m) m.fs.header f [] →
      FileMarks (view m) (m.fs.header.setFile f file) f []) :
    Upholds nothing (m.setHeader (m.fs.header.setFile f file)) := by
  have hs := h.setFile hf
  rw [show Function.update nothing f [] = nothing from Function.update_eq_self f nothing] at hs
  exact hs

theorem forward_of_files (hf : m'.fs.header.files = m.fs.header.files) : Forward m m' := by
  intro g
  rw [hf]

theorem setFile_forward {file : fkfs_file_t}
    (hf : (m.fs.header.files f).endBlock.toNat ≤ file.endBlock.toNat) :
    Forward m (m.setHeader (m.fs.header.setFile f file)) := by
  intro g
  by_cases hg : g = f
  · subst hg
    exact le_of_le_of_eq hf (by rw [Machine.setHeader, fkfs_header_t.setFile_self])
  · exact le_of_eq (by rw [Machine.setHeader, fkfs_header_t.setFile_other _ hg])

/-- **`fkfs_file_truncate`** starts the file anew where the writer is. -/
theorem Upholds.truncate (h : Upholds nothing m) (f : FileNumber) :
    Upholds nothing (fkfs_file_truncate m f) := by
  refine h.setRow fun hm => ?_
  have hplace : place m.fs.header.block.toNat 0 ≤ writerPlace m.fs.header :=
    place_le.mpr (.inr ⟨rfl, Nat.zero_le _⟩)
  refine ⟨?_, ?_, ?_, ?_⟩ <;> rw [fkfs_header_t.setFile_self]
  · exact h.coherent.block_ge
  · rfl
  · exact hplace
  · exact .refl _

theorem truncate_forward (h : Upholds nothing m) (h0 : m.wraps = 0) (f : FileNumber) :
    Forward m (fkfs_file_truncate m f) :=
  setFile_forward (blockOf_le ((h.sound h0).ram.file f).last_le)

theorem Upholds.truncate_all (h : Upholds nothing m) : Upholds nothing (fkfs_file_truncate_all m) := by
  unfold fkfs_file_truncate_all
  induction List.finRange 4 generalizing m with
  | nil => exact h
  | cons f fs ih => exact ih (h.truncate f)

theorem truncate_all_forward (h : Upholds nothing m) (h0 : m.wraps = 0) :
    Forward m (fkfs_file_truncate_all m) := by
  unfold fkfs_file_truncate_all
  induction List.finRange 4 generalizing m with
  | nil => exact forward_of_files rfl
  | cons f fs ih =>
    exact fun g => le_trans (truncate_forward h h0 f g) (ih (h.truncate f) h0 g)

/-- A file keeps its line when it starts at a block on its way. -/
theorem cutAt_marks {iter : fkfs_file_iter_t} (hge : 8000 ≤ iter.token.lastBlock.toNat)
    (hle : iter.token.lastBlock.toNat ≤ (m.fs.header.files iter.token.file).endBlock.toNat)
    (hm : FileMarks (view m) m.fs.header iter.token.file []) :
    FileMarks (view m) (cutAt m.fs.header iter) iter.token.file [] := by
  have hstart : (m.fs.header.files iter.token.file).startOffset.toNat = 0 := hm.start
  have hself : (cutAt m.fs.header iter).files iter.token.file
      = { m.fs.header.files iter.token.file with
        startBlock := iter.token.lastBlock, size := 0 } := fkfs_header_t.setFile_self ..
  have hplace : startPlace ((cutAt m.fs.header iter).files iter.token.file)
      = place iter.token.lastBlock.toNat 0 := by
    rw [hself, ← hstart]
    rfl
  have hlast : endPlace ((cutAt m.fs.header iter).files iter.token.file)
      = endPlace (m.fs.header.files iter.token.file) := by
    rw [hself]
    rfl
  refine ⟨?_, ?_, ?_, ?_⟩
  · rw [hplace]
    exact hge
  · rw [hplace]
    rfl
  · rw [hlast]
    exact hm.last_le
  · rw [hplace, hlast]
    refine markTrail_between _ _ .refl hm.last_chain ?_
    rw [← place_eta (endPlace _)]
    have hb : iter.token.lastBlock.toNat
        ≤ blockOf (endPlace (m.fs.header.files iter.token.file)) := hle
    rcases Nat.lt_or_eq_of_le hb with hb | hb
    · exact place_le.mpr (.inl hb)
    · exact place_le.mpr (.inr ⟨hb, Nat.zero_le _⟩)

/-- **`fkfs_file_truncate_at`** moves the start of the file along its line. -/
theorem Upholds.truncateAt (h : Upholds nothing m) {iter scratch : fkfs_file_iter_t} {ams : ℕ → Ambient}
    {n : ℕ} (hge : 8000 ≤ iter.token.lastBlock.toNat)
    (hle : iter.token.lastBlock.toNat ≤ (m.fs.header.files iter.token.file).endBlock.toNat)
    (hq : ReadsQuietly m (scanOf m iter scratch))
    (he : fkfs_file_truncate_at ov ams n m iter scratch = some m') :
    Upholds nothing m' ∧ Forward m m' := by
  refine @truncateAt_quiet ov (fun s => Upholds nothing s ∧ Forward m s) m m' iter scratch
    (fun hs => ⟨hs.1.works, hs.1.coherent⟩)
    (fun hs hl => ⟨hs.1.loads hl, fun g => by rw [hl.header]; exact hs.2 g⟩)
    (fun n hs => ⟨hs.1.setRow fun hm => ?_, fun g => ?_⟩) ams _
    ⟨h.setRow (cutAt_marks hge hle), setFile_forward (le_refl _)⟩ hq he
  · refine hm.congr (below_of_eq (fun _ _ => rfl) _) ?_ (le_refl _)
    rw [fkfs_header_t.setFile_self]
    exact ⟨rfl, rfl, rfl⟩
  · refine le_trans (hs.2 g) (setFile_forward ?_ g)
    exact le_refl _

/-- **`fkfs_file_append`** puts its entry where the row of its file says. -/
theorem append_upholds (h : Upholds nothing m) {data : List UInt8} (hlen : data.length ≤ 505)
    {pasts : ℕ → Mem} {ok : Bool} (he : fkfs_file_append ov pasts m f data = (ok, m')) :
    Upholds nothing m' ∧ (m'.wraps = 0 → Forward m m')
      ∧ (ok = true → Upholds (nothing.push f data) m'
        ∧ 8000 ≤ (m'.fs.header.files f).endBlock.toNat
        ∧ Stored (view m' (m'.fs.header.files f).endBlock.toNat)
          ((m'.fs.header.files f).endOffset.toNat - (7 + data.length))
          (recordOf m.fs.header f data)) := by
  have htable : Allocates (7 + data.length) fun s => Coherent s
      ∧ s.fs.header.files = m.fs.header.files := by
    have hc := coherent_survives.allocates (7 + data.length)
    refine ⟨fun hs => ⟨hc.sync hs.1, ?_⟩, fun hs hd => ⟨hc.next hs.1 hd, ?_⟩,
      fun hs => ⟨hc.load hs.1, ?_⟩, fun hs h1 h2 h3 => ⟨hc.place hs.1 h1 h2 h3, hs.2⟩⟩
    · rw [(fsync_keeps hs.1).2.1.table]
      exact hs.2
    · rw [(next_block_keeps _).2.1]
      exact hs.2
    · rw [block_ensure_header]
      exact hs.2
  rcases append_cases ov f ((upholds_allocates nothing _).and htable) hlen pasts
      ⟨h, h.coherent, rfl⟩ with ⟨s, hs, e⟩ | ⟨hpos, s, ⟨hs, -, hfiles⟩, hcache, hr, e⟩
  · rw [e] at he
    cases he
    exact ⟨hs.1, fun _ => forward_of_files hs.2.2, fun hok => nomatch hok⟩
  · have hstore := hs.store (f := f) hcache hpos hlen hr
    -- Synced or not, the machine is the one with the entry stored.
    have hm' : Upholds (nothing.push f data) m' ∧ Keeps (afterStore s f data) m' := by
      split at e
      · rw [e] at he
        have hu := hstore.sync
        have hk := (fsync_keeps hstore.coherent).2.1
        rw [he] at hu hk
        exact ⟨hu, hk⟩
      · rw [e] at he
        cases he
        exact ⟨hstore, .refl _⟩
    obtain ⟨hu, hk⟩ := hm'
    have hrow : m'.fs.header.files f = (afterStore s f data).fs.header.files f := by rw [hk.table]
    rw [afterStore_row] at hrow
    refine ⟨hu.among (among_push nothing f data), fun h0 g => ?_, fun _ => ⟨hu, ?_, ?_⟩⟩
    · have h0s : s.wraps = 0 := hk.wraps.symm.trans h0
      rw [← hfiles]
      by_cases hg : g = f
      · subst hg
        rw [hrow]
        exact blockOf_le ((hs.sound h0s).ram.file g).last_le
      · rw [hk.table, afterStore_other hg]
    · rw [hrow]
      exact hs.coherent.block_ge
    · have hrec : recordOf m.fs.header f data = recordOf s.fs.header f data := by
        rw [recordOf, recordOf, hfiles]
      have hback : (afterStore s f data).fs.header.offset.toNat - (7 + data.length)
          = s.fs.header.offset.toNat := by
        rw [afterStore_offset (f := f) hlen hr]
        exact Nat.add_sub_cancel _ _
      rw [hrow, hrec]
      dsimp only
      rw [hback, hk.view _ hs.coherent.block_ge]
      exact afterStore_stored hs.coherent hcache hpos hlen hr

end Calls

/-! ## Runs -/

/-- A machine and the tokens of its iterators. -/
structure Desk where
  machine : Machine
  tokens : List fkfs_iterator_token_t

/-- A token is produced. -/
def Desk.give (x : Desk) (token : fkfs_iterator_token_t) : Desk :=
  { x with tokens := token :: x.tokens }

/-- A file is truncated at an iterator whose token was produced. -/
def Given (x : Desk) : Call → Prop
  | .truncateAt iter .. => iter.token ∈ x.tokens
  | _ => True

/-- Runs from a wiped card on which nothing fails, before the writer wraps, over
configurations of one kind. A careful run reads quietly, and starts the program again
only with nothing dirty. Tokens are given up on a restart, or kept if nothing of the
header is lost in it. -/
inductive Desk.Run (ov : Overrun) (careful : Prop) (kind : (FileNumber → FileConfig) → Prop) :
    Desk → Prop
  | wipe {s m : Machine} {cfg : FileNumber → FileConfig} {draws : FileNumber → UInt16}
      (hlog : s.writes = []) (hw : Works s.sd) (hwraps : s.wraps = 0) (hkind : kind cfg)
      (h : boot s cfg true draws = (true, m)) : Run ov careful kind ⟨m, []⟩
  | call {x : Desk} (hx : Run ov careful kind x) {c : Call} (hc : c.Sane) (hgiven : Given x c)
      (hquiet : careful → Quietly x.machine c) {ok : Bool} {m : Machine}
      (h : perform ov x.machine c = some (ok, m)) (hwraps : m.wraps = 0) :
      Run ov careful kind ⟨m, x.tokens⟩
  | create {x : Desk} (hx : Run ov careful kind x) (f : FileNumber) (iter : fkfs_file_iter_t) :
      Run ov careful kind (x.give (fkfs_file_iterator_create x.machine.fs f iter).token)
  | reopen {x : Desk} (hx : Run ov careful kind x) {token : fkfs_iterator_token_t}
      (htoken : token ∈ x.tokens) (iter : fkfs_file_iter_t) :
      Run ov careful kind (x.give (fkfs_file_iterator_reopen x.machine.fs iter token).token)
  | poll {x : Desk} (hx : Run ov careful kind x) {iter iter' : fkfs_file_iter_t}
      (htoken : iter.token ∈ x.tokens) {config : fkfs_iterator_config_t} {am : Ambient} {n : ℕ}
      (hquiet : careful → ReadsQuietly x.machine iter) {ok : Bool} {m : Machine}
      (h : fkfs_file_iterate ov n config am x.machine iter = some (ok, m, iter')) :
      Run ov careful kind (Desk.give ⟨m, x.tokens⟩ iter'.token)
  | restart {x : Desk} (hx : Run ov careful kind x)
      (hclean : careful → x.machine.fs.cachedBlockDirty = false) {m : Machine}
      {cfg : FileNumber → FileConfig} {draws : FileNumber → UInt16} (hkind : kind cfg)
      (h : boot x.machine cfg false draws = (true, m)) : Run ov careful kind ⟨m, []⟩
  | resume {x : Desk} (hx : Run ov careful kind x)
      (hclean : careful → x.machine.fs.cachedBlockDirty = false) {m : Machine}
      {cfg : FileNumber → FileConfig} {draws : FileNumber → UInt16} (hkind : kind cfg)
      (h : boot x.machine cfg false draws = (true, m))
      (hwriter : writerPlace x.machine.fs.header ≤ writerPlace m.fs.header)
      (hends : Forward x.machine m) : Run ov careful kind ⟨m, x.tokens⟩

/-- What holds along a careful run. -/
structure Desk.Holds (x : Desk) : Prop where
  upholds : Upholds nothing x.machine
  wraps : x.machine.wraps = 0
  ends : ∀ t ∈ x.tokens, 8000 ≤ t.lastBlock.toNat
    ∧ t.lastBlock.toNat ≤ (x.machine.fs.header.files t.file).endBlock.toNat

section Running

variable {ov : Overrun} {kind : (FileNumber → FileConfig) → Prop} {x : Desk} {m : Machine}
  {c : Call} {ok : Bool}

/-- **Every quiet call** keeps it. -/
theorem Desk.Holds.perform (h : x.Holds) (hc : c.Sane) (hgiven : Given x c)
    (hq : Quietly x.machine c) (he : perform ov x.machine c = some (ok, m)) (h0 : m.wraps = 0) :
    Upholds nothing m ∧ Forward x.machine m := by
  have hu := h.upholds
  cases c with
  | append f data pasts =>
    simp only [perform, Option.some.injEq] at he
    obtain ⟨h1, h2, -⟩ := append_upholds hu hc he
    exact ⟨h1, h2 h0⟩
  | truncate f =>
    cases he
    exact ⟨hu.truncate f, truncate_forward hu h0 f⟩
  | truncateAll =>
    cases he
    exact ⟨hu.truncate_all, truncate_all_forward hu h.wraps⟩
  | truncateAt iter scratch ams n =>
    simp only [perform, Option.map_eq_some_iff, Prod.mk.injEq] at he
    obtain ⟨s, he, -, rfl⟩ := he
    obtain ⟨hge, hle⟩ := h.ends _ hgiven
    exact hu.truncateAt hge hle hq he
  | touch time =>
    have ht := hu.touch time
    have hk := (touch_keeps hu.coherent time).2.1
    simp only [perform, Option.some.injEq] at he
    rw [he] at ht hk
    exact ⟨ht, forward_of_files hk.table⟩
  | flush now =>
    have hf := hu.flush now
    have hk := (flush_keeps hu.coherent now).2.1
    simp only [perform, Option.some.injEq] at he
    rw [he] at hf hk
    exact ⟨hf, forward_of_files hk.table⟩
  | ensure iter =>
    simp only [perform, Option.some.injEq] at he
    have hl := ensure_loads hu.works hq he
    exact ⟨hu.loads hl, forward_of_files (by rw [hl.header])⟩
  | iterate config am n iter =>
    simp only [perform, Option.map_eq_some_iff, Prod.mk.injEq] at he
    obtain ⟨⟨ok1, s1, iter1⟩, he, -, rfl⟩ := he
    have hl := (iterate_loads hu.works hu.coherent hq he).1
    exact ⟨hu.loads hl, forward_of_files (by rw [hl.header])⟩

/-- Another machine, whose files end no earlier. -/
theorem Desk.Holds.moved (h : x.Holds) (hu : Upholds nothing m) (h0 : m.wraps = 0)
    (hf : Forward x.machine m) : Desk.Holds ⟨m, x.tokens⟩ := by
  refine ⟨hu, h0, fun t ht => ?_⟩
  obtain ⟨h1, h2⟩ := h.ends t ht
  exact ⟨h1, le_trans h2 (hf t.file)⟩

theorem Desk.Holds.give (h : x.Holds) {token : fkfs_iterator_token_t}
    (ht : 8000 ≤ token.lastBlock.toNat
      ∧ token.lastBlock.toNat ≤ (x.machine.fs.header.files token.file).endBlock.toNat) :
    (x.give token).Holds := by
  refine ⟨h.upholds, h.wraps, fun t hmem => ?_⟩
  rcases List.mem_cons.mp hmem with rfl | hmem
  · exact ht
  · exact h.ends t hmem

/-- An iterator that ends where its file does at present. -/
theorem Desk.Holds.give_end (h : x.Holds) {token : fkfs_iterator_token_t}
    (hlast : token.lastBlock = (x.machine.fs.header.files token.file).endBlock) :
    (x.give token).Holds := by
  have hm := (h.upholds.sound h.wraps).ram.file token.file
  refine h.give ?_
  rw [hlast]
  exact ⟨le_trans hm.start_ge (blockOf_le hm.start_le), le_refl _⟩

/-- The end a reopened iterator has. -/
theorem reopen_last (fs : fkfs_t) (iter : fkfs_file_iter_t) (token : fkfs_iterator_token_t) :
    (fkfs_file_iterator_reopen fs iter token).token.lastBlock
      = (fs.header.files (fkfs_file_iterator_reopen fs iter token).token.file).endBlock := by
  unfold fkfs_file_iterator_reopen
  dsimp only
  split <;> rfl

/-- **Every careful run upholds it.** -/
theorem Desk.Run.holds (h : x.Run ov True kind) : x.Holds := by
  induction h with
  | wipe hlog hw hwraps hkind h =>
    obtain ⟨hu, h0, -⟩ := upholds_wiped hlog hw h
    exact ⟨hu, h0.trans hwraps, fun t ht => nomatch ht⟩
  | call hx hc hgiven hquiet h hwraps ih =>
    obtain ⟨hu, hf⟩ := ih.perform hc hgiven (hquiet trivial) h hwraps
    exact ih.moved hu hwraps hf
  | create hx f iter ih => exact ih.give_end rfl
  | reopen hx htoken iter ih => exact ih.give_end (reopen_last _ iter _)
  | poll hx htoken hquiet h ih =>
    obtain ⟨hl, hsame, -⟩ := iterate_loads ih.upholds.works ih.upholds.coherent (hquiet trivial) h
    have hmoved := ih.moved (ih.upholds.loads hl) (hl.wraps.trans ih.wraps)
      (forward_of_files (by rw [hl.header]))
    refine hmoved.give ?_
    rw [hsame.1, hsame.2.1]
    exact hmoved.ends _ htoken
  | restart hx hclean hkind h ih =>
    obtain ⟨hu, h0, -⟩ := ih.upholds.restart (hclean trivial) ih.wraps h
    exact ⟨hu, h0, fun t ht => nomatch ht⟩
  | resume hx hclean hkind h hwriter hends ih =>
    obtain ⟨hu, h0, -⟩ := ih.upholds.restart (hclean trivial) ih.wraps h
    exact ih.moved hu h0 hends

end Running

end Fkfs.Upkeep
