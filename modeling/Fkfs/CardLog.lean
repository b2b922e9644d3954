/-
A machine with a log: what appending adds to it and what reading gets from it.

`Logged recs` says that the header in `fs` describes the blocks as they are seen
at present, and that the records on them are `recs`. Every operation but the
append leaves the records alone, the append adds one (`append_logged`), and an
iterator whose place and end are places of the log delivers the records between
them, those of its file and its version (`poll_logged`, `drain_logged`).

All of this is under the condition that the writer has not wrapped.
-/
import Fkfs.Log
import Fkfs.Slots

set_option autoImplicit false

namespace Fkfs.CardLog

open Bytes Relation
open Fkfs.Crc Fkfs.Layout Fkfs.Device Fkfs.Search Fkfs.Append Fkfs.Iterate Fkfs.Mount Fkfs.Cache
open Fkfs.Walk Fkfs.Writer Fkfs.Reader Fkfs.Run Fkfs.Slots Fkfs.Log

/-! ## Writing -/

theorem unwrapped_congr {fs fs' : fkfs_t} {top : ℕ} (h : Unwrapped fs top)
    (hn : fs'.numberOfBlocks = fs.numberOfBlocks) : Unwrapped fs' top := by
  intro b h1 h2
  have := h b h1 h2
  unfold wrapsAt at this ⊢
  rw [hn]
  exact this

/-- The next block of a writer that does not wrap. -/
theorem next_block_unwrapped {s : Machine} (hc : Coherent s)
    (hu : Unwrapped s.fs s.fs.header.block.toNat) (hw : (fkfs_next_block s).wraps = s.wraps) :
    (fkfs_next_block s).fs.header.block.toNat = s.fs.header.block.toNat + 1
      ∧ Unwrapped (fkfs_next_block s).fs (fkfs_next_block s).fs.header.block.toNat := by
  obtain ⟨-, -, -, -, hfs⟩ := next_block_keeps s
  have hn : (fkfs_next_block s).fs.numberOfBlocks = s.fs.numberOfBlocks := by rw [hfs]
  rcases next_block_cases s with ⟨-, hw', -⟩ | ⟨hnw, -, hb⟩
  · omega
  have hs : (fkfs_next_block s).fs.header.block.toNat = s.fs.header.block.toNat + 1 := by
    rw [hb, succ_toNat hc.block_lt]
  refine ⟨hs, fun b h1 h2 => ?_⟩
  rcases Nat.lt_or_ge s.fs.header.block.toNat b.toNat with hlt | hge
  · -- The block the writer has just gone on to.
    have hbe : b = s.fs.header.block + 1 := by
      apply UInt32.toNat_inj.mp
      rw [succ_toNat hc.block_lt]
      omega
    rw [hbe]
    unfold wrapsAt at hnw ⊢
    rw [hn]
    exact hnw
  · exact unwrapped_congr hu hn b h1 hge

/-- The records on the blocks as they are seen, as long as the writer has not wrapped. -/
structure Recorded (recs : List Rec) (s : Machine) : Prop where
  coherent : Coherent s
  told : s.wraps = 0 → Describes (view s) s.fs.header recs
  unwrapped : s.wraps = 0 → Unwrapped s.fs s.fs.header.block.toNat

namespace Recorded

variable {recs : List Rec} {s s' : Machine}

theorem of_keeps (h : Recorded recs s) (hc : Coherent s') (hk : Keeps s s') : Recorded recs s' := by
  refine ⟨hc, fun h0 => ?_, fun h0 => ?_⟩
  · refine (h.told (by rw [← hk.wraps]; exact h0)).congr hk.view ?_ fun f => ?_
    · rw [writerPlace, writerPlace, hk.block, hk.offset]
    · rw [hk.table]
      exact .refl _
  · rw [hk.block]
    exact unwrapped_congr (h.unwrapped (by rw [← hk.wraps]; exact h0)) hk.blocks

theorem sync (h : Recorded recs s) : Recorded recs (fkfs_fsync s).2 := by
  obtain ⟨hc, hk, -⟩ := fsync_keeps h.coherent
  exact h.of_keeps hc hk

theorem touch (h : Recorded recs s) (time : UInt32) : Recorded recs (fkfs_touch s time).2 := by
  obtain ⟨hc, hk, -⟩ := touch_keeps h.coherent time
  exact h.of_keeps hc hk

theorem load (h : Recorded recs s) {b : UInt32} (hq : QuietAt s b) :
    Recorded recs (fkfs_block_ensure s b).2 :=
  h.of_keeps (block_ensure_coherent h.coherent b) (block_ensure_keeps hq)

theorem next (h : Recorded recs s) (hd : s.fs.cachedBlockDirty = false) :
    Recorded recs (fkfs_next_block s) := by
  obtain ⟨ho, hf, -, -, -⟩ := next_block_keeps s
  refine ⟨next_block_coherent h.coherent hd, fun h0 => ?_, fun h0 => ?_⟩
  all_goals
    have hsame : (fkfs_next_block s).wraps = s.wraps := by
      rcases next_block_cases s with ⟨-, hw, -⟩ | ⟨-, hw, -⟩
      · omega
      · exact hw
    have h0' : s.wraps = 0 := by omega
    obtain ⟨hs, hu⟩ := next_block_unwrapped h.coherent (h.unwrapped h0') hsame
  · rw [next_block_view]
    exact (h.told h0').next h.coherent.block_ge hs ho hf
  · exact hu

/-- The search for a place goes nowhere: there are zeros where the writer is. -/
theorem place (h : Recorded recs s) {o : UInt16}
    (hcache : s.fs.cachedBlockNumber = s.fs.header.block)
    (hchain : Chain s.fs.buffer s.fs.header.offset.toNat o.toNat) (ho : o.toNat ≤ 512) :
    Recorded recs (s.setHeader { s.fs.header with offset := o }) := by
  refine ⟨coherent_survives.place h.coherent ho, fun h0 => ?_, h.unwrapped⟩
  have hd := h.told h0
  rw [h.coherent.buffer_eq hcache h.coherent.block_ge h.coherent.block_ne_max] at hchain
  have hstay := Trails.reach_stuck (hd.no_link h.coherent.block_ge) hchain
  refine hd.congr (fun _ _ => rfl) ?_ fun f => .refl _
  exact congrArg (Writer.place s.fs.header.block.toNat) hstay

theorem store (h : Recorded recs s) {f : FileNumber} {data : List UInt8}
    (hcache : s.fs.cachedBlockNumber = s.fs.header.block) (hpos : 0 < data.length)
    (hlen : data.length ≤ 505) (hroom : s.fs.header.offset.toNat + (7 + data.length) ≤ 512) :
    Recorded (recs ++ [recordOf s.fs.header f data]) (afterStore s f data) := by
  refine ⟨afterStore_coherent h.coherent hcache hlen hroom, fun h0 => ?_, h.unwrapped⟩
  have hoff := afterStore_offset (f := f) hlen hroom
  refine (h.told h0).store (f := f) (afterStore_below h.coherent hcache) (fun b i _ hi => ?_)
    (afterStore_stored h.coherent hcache hpos hlen hroom) ?_ rfl rfl
    (fun g hg => afterStore_other hg) ?_
  · refine afterStore_outside h.coherent hcache ?_
    rcases place_le.mp hi with hi | ⟨-, hi⟩
    · exact .inl (by omega)
    · exact .inr (.inr hi)
  · rw [writerPlace, hoff]
    rfl
  · have hsize : (UInt16.ofNat data.length).toUInt32 = UInt32.ofNat data.length := by
      apply UInt32.toNat_inj.mp
      rw [UInt16.toNat_toUInt32, UInt16.toNat_ofNat', UInt32.toNat_ofNat']
      omega
    rw [afterStore_row, hsize]
    rfl

/-- Truncating a file takes it out of every record there is, if its new version
was never used. -/
theorem truncate (h : Recorded recs s) {f : FileNumber}
    (hv : ∀ r ∈ recs, r.file = f → r.version ≠ (s.fs.header.files f).version + 1) :
    Recorded recs (fkfs_file_truncate s f) := by
  refine ⟨coherent_survives.header h.coherent ⟨rfl, rfl, rfl⟩, fun h0 => ?_, h.unwrapped⟩
  have hrow : (fkfs_file_truncate s f).fs.header.files f = { s.fs.header.files f with
      version := (s.fs.header.files f).version + 1
      startBlock := s.fs.header.block
      endBlock := s.fs.header.block
      startOffset := 0
      endOffset := 0
      size := 0 } := Function.update_self _ _ _
  refine (h.told h0).truncate (f := f) rfl (fun g hg => Function.update_of_ne hg _ _) ?_ ?_ ?_ ?_
  · rw [hrow]
    rfl
  · rw [hrow]
    rfl
  · rw [hrow]
  · rw [hrow]
    exact hv

end Recorded

/-- The records on a card that works. -/
structure Logged (recs : List Rec) (s : Machine) : Prop where
  works : Works s.sd
  coherent : Coherent s
  told : s.wraps = 0 → Describes (view s) s.fs.header recs
  unwrapped : s.wraps = 0 → Unwrapped s.fs s.fs.header.block.toNat

theorem Recorded.logged {recs : List Rec} {s : Machine} (h : Recorded recs s) (hw : Works s.sd) :
    Logged recs s := ⟨hw, h.coherent, h.told, h.unwrapped⟩

namespace Logged

variable {recs : List Rec} {s s' : Machine}

theorem recorded (h : Logged recs s) : Recorded recs s := ⟨h.coherent, h.told, h.unwrapped⟩

theorem of_keeps (h : Logged recs s) (hw : Works s'.sd) (hc : Coherent s') (hk : Keeps s s') :
    Logged recs s' := (h.recorded.of_keeps hc hk).logged hw

theorem sync (h : Logged recs s) : Logged recs (fkfs_fsync s).2 :=
  h.recorded.sync.logged (fsync_succeeds h.works).2

theorem touch (h : Logged recs s) (time : UInt32) : Logged recs (fkfs_touch s time).2 :=
  (h.recorded.touch time).logged (touch_succeeds h.works time).2

theorem flush (h : Logged recs s) (now : UInt32) : Logged recs (fkfs_flush s now).2 := by
  rw [flush_works h.works]
  exact (h.touch now).sync

theorem loads (h : Logged recs s) (hl : Loads s s') : Logged recs s' :=
  h.of_keeps (by rw [hl.sd]; exact h.works) (hl.coherent h.coherent) hl.keeps

theorem next (h : Logged recs s) (hd : s.fs.cachedBlockDirty = false) :
    Logged recs (fkfs_next_block s) :=
  (h.recorded.next hd).logged (works_survive.next h.works hd)

theorem place (h : Logged recs s) {o : UInt16}
    (hcache : s.fs.cachedBlockNumber = s.fs.header.block)
    (hchain : Chain s.fs.buffer s.fs.header.offset.toNat o.toNat) (ho : o.toNat ≤ 512) :
    Logged recs (s.setHeader { s.fs.header with offset := o }) :=
  (h.recorded.place hcache hchain ho).logged h.works

theorem store (h : Logged recs s) {f : FileNumber} {data : List UInt8}
    (hcache : s.fs.cachedBlockNumber = s.fs.header.block) (hpos : 0 < data.length)
    (hlen : data.length ≤ 505) (hroom : s.fs.header.offset.toNat + (7 + data.length) ≤ 512) :
    Logged (recs ++ [recordOf s.fs.header f data]) (afterStore s f data) :=
  (h.recorded.store hcache hpos hlen hroom).logged h.works

theorem truncate (h : Logged recs s) {f : FileNumber}
    (hv : ∀ r ∈ recs, r.file = f → r.version ≠ (s.fs.header.files f).version + 1) :
    Logged recs (fkfs_file_truncate s f) :=
  (h.recorded.truncate hv).logged h.works

/-- A new file system over zeros has the empty log. -/
theorem of_wiped {cfg : FileNumber → FileConfig} (hw : Wiped cfg s s')
    (hzero : ∀ b, 8000 ≤ b → s.sd.blocks b = zeroBlock) : Logged [] s' := by
  have hwriter : writerPlace s'.fs.header = origin := by
    rw [writerPlace, hw.block, hw.offset]
    rfl
  have hstart : ∀ f, startPlace (s'.fs.header.files f) = origin := fun f => by
    rw [startPlace, (hw.row f).startBlock, (hw.row f).startOffset]
    rfl
  have hlast : ∀ f, endPlace (s'.fs.header.files f) = origin := fun f => by
    rw [endPlace, (hw.row f).endBlock, (hw.row f).endOffset]
    rfl
  refine ⟨hw.works, ⟨?_, ?_, ?_, ?_, ?_⟩, fun _ => ⟨?_, ?_, fun f => ⟨⟨[], ?_, rfl⟩, ⟨[], ?_, rfl⟩,
    ?_, ?_, ?_⟩⟩, fun _ => ?_⟩
  · rw [hw.block, FKFS_FIRST_BLOCK_toNat]
  · rw [hw.block, FKFS_FIRST_BLOCK_toNat]
    omega
  · rw [hw.offset]
    exact Nat.zero_le _
  · intro hd
    rw [hw.dirty] at hd
    cases hd
  · intro _ hb
    rw [hw.cached] at hb
    exact absurd hb (by simp)
  · rw [hwriter]
    exact .refl _
  · intro b i hb _
    rw [view_clean hw.dirty, hw.blocks b hb, hzero b hb, zeroBlock_mem]
  · rw [hstart]
    exact .refl _
  · rw [hlast]
    exact .refl _
  · rw [hstart, hlast]
  · rw [hlast, hwriter]
  · rw [(hw.row f).size]
    rfl
  · intro b h1 h2
    rw [hw.block, FKFS_FIRST_BLOCK_toNat] at h2
    omega

end Logged

/-! ## What grows -/

/-- From `s` to `s'` nothing before the writer changed, and it did not go back. -/
structure Grown (s s' : Machine) : Prop where
  below : Below (view s) (view s') (writerPlace s.fs.header)
  forward : writerPlace s.fs.header ≤ writerPlace s'.fs.header

theorem Grown.trans {s s' s'' : Machine} (h : Grown s s') (h' : Grown s' s'') : Grown s s'' := by
  refine ⟨fun b i hb hi => ?_, le_trans h.forward h'.forward⟩
  rw [h.below b i hb hi, h'.below b i hb (lt_of_lt_of_le hi h.forward)]

theorem grown_of_keeps {s s' : Machine} (hk : Keeps s s') : Grown s s' := by
  refine ⟨below_of_eq hk.view _, le_of_eq ?_⟩
  rw [writerPlace, writerPlace, hk.block, hk.offset]

/-! ## Appending from a clean cache -/

/-- From `s` to `s'` a clean cache was moved along and nothing was written. -/
structure Seeks (s s' : Machine) : Prop where
  dirty : s'.fs.cachedBlockDirty = false
  sd : s'.sd = s.sd
  writes : s'.writes = s.writes
  index : s'.fs.headerIndex = s.fs.headerIndex
  generation : s'.fs.header.generation = s.fs.header.generation
  table : s'.fs.header.files = s.fs.header.files
  settings : s'.fs.files = s.fs.files
  blocks : s'.fs.numberOfBlocks = s.fs.numberOfBlocks
  forward : s'.wraps = 0 → writerPlace s.fs.header ≤ writerPlace s'.fs.header

/-- A log that is looked for a place in, with nothing dirty. -/
structure Seeking (recs : List Rec) (s m : Machine) : Prop where
  logged : Logged recs m
  seeks : Seeks s m

/-- **The allocator** writes nothing if nothing is dirty, and finds the end of
the log. -/
theorem seeking_allocates (recs : List Rec) (s : Machine) (required : ℕ) :
    Allocates required (Seeking recs s) where
  sync := by
    intro m hm
    rw [fsync_clean hm.seeks.dirty]
    exact hm
  next := by
    intro m hm hd
    obtain ⟨-, hf, hsd, hw, hfs⟩ := next_block_keeps m
    have hg : (fkfs_next_block m).fs.header.generation = m.fs.header.generation := by
      unfold fkfs_next_block
      split <;> rfl
    have hk := hm.seeks
    refine ⟨hm.logged.next hd, ?_, hsd.trans hk.sd, hw.trans hk.writes, ?_, hg.trans hk.generation,
      hf.trans hk.table, ?_, ?_, fun h0 => ?_⟩
    · rw [hfs]
      exact hd
    · rw [hfs]
      exact hk.index
    · rw [hfs]
      exact hk.settings
    · rw [hfs]
      exact hk.blocks
    · rcases next_block_cases m with ⟨-, hw, -⟩ | ⟨-, hw, hb⟩
      · omega
      · refine le_trans (hk.forward (by omega)) (place_le.mpr (.inl ?_))
        rw [hb, succ_toNat hm.logged.coherent.block_lt]
        omega
  load := by
    intro m hm
    obtain ⟨m', e, hl, -⟩ := block_ensure_loads (b := m.fs.header.block) hm.logged.works
      hm.logged.coherent.dirty
    have hk := hm.seeks
    rw [e]
    exact ⟨hm.logged.loads hl, hl.dirty.trans hk.dirty, hl.sd.trans hk.sd,
      hl.writes.trans hk.writes, hl.index.trans hk.index, by rw [hl.header]; exact hk.generation,
      by rw [hl.header]; exact hk.table, hl.files.trans hk.settings, hl.blocks.trans hk.blocks,
      fun h0 => by rw [hl.header]; exact hk.forward (by rw [← hl.wraps]; exact h0)⟩
  place := by
    intro m o hm hc hch ho
    have hk := hm.seeks
    refine ⟨hm.logged.place hc hch (by omega), hk.dirty, hk.sd, hk.writes, hk.index, hk.generation,
      hk.table, hk.settings, hk.blocks, fun h0 => le_trans (hk.forward h0) ?_⟩
    exact place_le.mpr (.inr ⟨rfl, Chain.le hch⟩)

/-- **`fkfs_file_append`** on a clean cache: it finds no place, or it stores the
record at the end of the log and syncs it. -/
theorem append_logged (ov : Overrun) {recs : List Rec} {s : Machine} {f : FileNumber}
    {data : List UInt8} (h : Logged recs s) (hd : s.fs.cachedBlockDirty = false)
    (hsync : (s.fs.files f).sync ≠ 0) (hlen : data.length ≤ 505) (pasts : ℕ → Mem) :
    (∃ m, Seeking recs s m ∧ fkfs_file_append ov pasts s f data = (false, m))
      ∨ ∃ m, Seeking recs s m ∧ 0 < data.length ∧ Grown m (afterStore m f data)
        ∧ Logged (recs ++ [recordOf s.fs.header f data]) (afterStore m f data)
        ∧ fkfs_file_append ov pasts s f data = fkfs_fsync (afterStore m f data) := by
  have hs : Seeking recs s s := ⟨h, hd, rfl, rfl, rfl, rfl, rfl, rfl, rfl, fun _ => le_refl _⟩
  rcases append_cases ov f (seeking_allocates recs s (7 + data.length)) hlen pasts hs
    with ⟨m, hm, e⟩ | ⟨hpos, m, hm, hc, hr, e⟩
  · exact .inl ⟨m, hm, e⟩
  · rw [hm.seeks.settings, if_pos hsync] at e
    have hrec : recordOf m.fs.header f data = recordOf s.fs.header f data := by
      rw [recordOf, hm.seeks.table]
      rfl
    have hstore := hm.logged.store (f := f) hc hpos hlen hr
    rw [hrec] at hstore
    have hgrown : Grown m (afterStore m f data) := by
      refine ⟨afterStore_below hm.logged.coherent hc, place_le.mpr (.inr ⟨rfl, ?_⟩)⟩
      rw [afterStore_offset hlen hr]
      omega
    exact .inr ⟨m, hm, hpos, hgrown, hstore, e⟩

/-- What looking for a place leaves as it was. -/
theorem Seeking.grown {recs : List Rec} {s m : Machine} (h : Seeking recs s m)
    (hd : s.fs.cachedBlockDirty = false) (h0 : m.wraps = 0) : Grown s m := by
  refine ⟨below_of_eq (fun b _ => ?_) _, h.seeks.forward h0⟩
  rw [view_clean hd, view_clean h.seeks.dirty, h.seeks.sd]

/-! ## Reading -/

section Reading

variable {ov : Overrun} {files : Settings} {V : ℕ → Block} {h : fkfs_header_t} {f : FileNumber}

/-- A step of the reader along the log: it delivers what the record holds of the
file. -/
theorem readStep_of_logStep {p q r : Place} {xs : List (List UInt8)} {rs : List Rec}
    (hs : ReadStep ov files V h f p xs q) (hl : LogStep V p rs r) : q = r ∧ xs = mine h f rs := by
  rcases hs with ⟨o', hlink, rfl, hx⟩ | ⟨hf, rfl, rfl⟩ <;>
    rcases hl with ⟨rec, hr, rfl, rfl⟩ | ⟨⟨-, hn⟩, rfl, rfl⟩
  · rw [link_unique _ hlink hr.link, mine_singleton]
    exact ⟨rfl, hx rec hr⟩
  · exact absurd hlink (hn _)
  · exact absurd hr.link hf.not_link
  · exact ⟨rfl, rfl⟩

/-- The reader walks the log, if the chains of the blocks it leaves end. -/
theorem reach_of_log {p e : Place} {rs : List Rec} (h : Trails.Trail (LogStep V) p e rs)
    (hends : ∀ b, blockOf p ≤ b → b < blockOf e → Ends ov files (V b) 0) :
    Reach ov files V p e := by
  induction h with
  | refl p => exact .refl
  | @head p c e xs ys hs t ih =>
    have hpc : blockOf p ≤ blockOf c := blockOf_le (le_of_lt hs.lt)
    have hce : blockOf c ≤ blockOf e := blockOf_le (t.le LogStep.lt)
    refine .head ?_ (ih fun b h1 h2 => hends b (le_trans hpc h1) h2)
    rcases hs with ⟨r, hr, rfl, -⟩ | ⟨⟨hchain, hn⟩, rfl, -⟩
    · exact .inl ⟨_, hr.link, rfl⟩
    · rw [blockOf_place] at hce
      obtain ⟨e', hc', hf⟩ := (hends _ (le_refl _) (by omega)).of_chain hchain
      rw [Trails.reach_stuck hn hc'] at hf
      exact .inr ⟨hf, rfl⟩

/-- **What a walk of the reader delivers** is what lies on the log between its
ends. -/
theorem log_of_read {p q e : Place} {xs : List (List UInt8)} {as es : List Rec}
    (ht : Trails.Trail (ReadStep ov files V h f) p q xs) (hp : LogTo V p as) (he : LogTo V e es)
    (hqe : q ≤ e) : ∃ bs, LogTo V q (as ++ bs) ∧ as ++ bs <+: es ∧ xs = mine h f bs := by
  have hpe : p ≤ e := le_trans (ht.le fun hs => hs.next.lt) hqe
  obtain ⟨ds, rfl, hd⟩ := hp.split he hpe
  obtain ⟨bs, cs, rfl, h1, -, rfl⟩ := Trails.Trail.follow
    (fun xs rs => xs = mine h f rs) rfl
    (fun h1 h2 => by rw [h1, h2, mine_append]) ReadStep.lt readStep_of_logStep ht hd hqe
  refine ⟨bs, hp.trans h1, ?_, rfl⟩
  rw [← List.append_assoc]
  exact List.prefix_append _ _

end Reading

/-! ## Iterators on the log -/

/-- The places of an iterator are places of the log, with these records before
them. -/
structure OnLog (s : Machine) (token : fkfs_iterator_token_t) (as es : List Rec) : Prop where
  here : LogTo (view s) (place token.block.toNat token.offset.toNat) as
  last : LogTo (view s) (place token.lastBlock.toNat token.lastOffset.toNat) es
  here_le : place token.block.toNat token.offset.toNat ≤ writerPlace s.fs.header
  last_le : place token.lastBlock.toNat token.lastOffset.toNat ≤ writerPlace s.fs.header

/-- The chains of the blocks an iterator will leave end, each before it is read
past its block. -/
def Clear (ov : Overrun) (s : Machine) (token : fkfs_iterator_token_t) : Prop :=
  ∀ b, token.block.toNat ≤ b → b < token.lastBlock.toNat → Ends ov s.fs.files (s.sd.blocks b) 0

section Iterators

variable {ov : Overrun} {recs as es : List Rec} {s s' : Machine} {iter : fkfs_file_iter_t}

/-- Places of the log stay places of it as long as nothing before the writer is
changed. -/
theorem OnLog.grown {token : fkfs_iterator_token_t} (ho : OnLog s token as es)
    (hg : Grown s s') : OnLog s' token as es :=
  ⟨ho.here.below hg.below ho.here_le, ho.last.below hg.below ho.last_le,
    le_trans ho.here_le hg.forward, le_trans ho.last_le hg.forward⟩

variable (h : Logged recs s) (h0 : s.wraps = 0) (hd : s.fs.cachedBlockDirty = false)
  (ho : OnLog s iter.token as es) (hc : Clear ov s iter.token)

include h h0 hd ho hc

/-- An iterator on the log that is not past its end is on its way there. -/
theorem ready_logged (hle : tokenPlace iter ≤ lastPlace iter) :
    Ready ov s.fs.files (view s) s.fs.header iter.token.file (lastPlace iter) s iter := by
  obtain ⟨ds, -, ht⟩ := ho.here.split ho.last hle
  refine ⟨h.works, h.coherent, rfl, rfl, fun _ _ => rfl, rfl, rfl, ho.here.block_ge,
    blockOf_le ho.last_le, h.unwrapped h0, ⟨fun hc => ?_, fun hc => ?_⟩,
    reach_of_log ht fun b h1 h2 => ?_⟩
  · rw [hd] at hc
    cases hc
  · rw [hd] at hc
    cases hc
  · rw [view_clean hd]
    exact hc b h1 h2

/-- **A call of `fkfs_file_iterate`** returns, and moves the token over records of
which it delivers none but the last. -/
theorem poll_logged (config : fkfs_iterator_config_t) (am : Ambient) :
    ∃ N ok s' iter' bs, (∀ n, N ≤ n →
        fkfs_file_iterate ov n config am s iter = some (ok, s', iter'))
      ∧ Loads s s' ∧ SameEnd iter iter' ∧ OnLog s' iter'.token (as ++ bs) es
      ∧ (tokenPlace iter ≤ lastPlace iter → tokenPlace iter' ≤ lastPlace iter')
      ∧ (ok = false → mine s.fs.header iter.token.file bs = [])
      ∧ (ok = true → config.manualNext = 0 → ∀ past,
        mine s.fs.header iter.token.file bs = [payload iter' s'.fs past]) := by
  rcases lt_or_ge (tokenPlace iter) (lastPlace iter) with hlt | hge
  · have hr := ready_logged h h0 hd ho hc (le_of_lt hlt)
    obtain ⟨N, hN⟩ := iterate_spec (h := s.fs.header) (f := iter.token.file) hr.reach
    obtain ⟨ok, s', iter', he, hout⟩ := hN N (le_refl N) config am s iter hr rfl hlt
    have hle' : tokenPlace iter' ≤ lastPlace iter := hout.ready.reach.le
    have hsame := (iterate_loads h.works h.coherent (fun _ _ => hr.quiet) he).2.1
    have hplaces : ∀ bs, LogTo (view s) (tokenPlace iter') (as ++ bs) →
        OnLog s' iter'.token (as ++ bs) es := by
      intro bs hb
      have hlast := ho.last
      rw [← hsame.2.1, ← hsame.2.2.1] at hlast
      refine OnLog.grown (s := s) ⟨hb, hlast, le_trans hle' ho.last_le, ?_⟩
        (grown_of_keeps hout.loads.keeps)
      rw [hsame.2.1, hsame.2.2.1]
      exact ho.last_le
    have hrun : ∀ n, N ≤ n → fkfs_file_iterate ov n config am s iter = some (ok, s', iter') :=
      fun n hn => iterate_mono he hn
    cases ok with
    | false =>
      obtain ⟨ht, -⟩ := hout.stops rfl
      obtain ⟨bs, hb, -, hx⟩ := log_of_read ht ho.here ho.last hle'
      exact ⟨N, false, s', iter', bs, hrun, hout.loads, hsame, hplaces bs hb,
        fun _ => by rw [hsame.last]; exact hle', fun _ => hx.symm, fun hok => nomatch hok⟩
    | true =>
      obtain ⟨q, c, ht, hdata, hce, hplace, -⟩ := hout.finds rfl
      by_cases hm : config.manualNext = 0
      · rw [if_pos hm] at hplace
        have hread : ∀ past, ∃ bs, LogTo (view s) (tokenPlace iter') (as ++ bs)
            ∧ [payload iter' s'.fs past] = mine s.fs.header iter.token.file bs := by
          intro past
          obtain ⟨bs, hb, -, hx⟩ := log_of_read (ht.trans (.single (hdata past))) ho.here ho.last
            (Reach.le hce)
          rw [← hplace] at hb
          exact ⟨bs, hb, hx⟩
        obtain ⟨bs, hb, -⟩ := hread fun _ => 0
        refine ⟨N, true, s', iter', bs, hrun, hout.loads, hsame, hplaces bs hb,
          fun _ => by rw [hsame.last]; exact hle', (fun hok => nomatch hok), fun _ _ past => ?_⟩
        obtain ⟨bs', hb', hx⟩ := hread past
        rw [List.append_cancel_left (hb.unique hb'), hx]
      · rw [if_neg hm] at hplace
        have hq : tokenPlace iter' ≤ lastPlace iter := hle'
        rw [← hplace] at ht
        obtain ⟨bs, hb, -, -⟩ := log_of_read ht ho.here ho.last hq
        exact ⟨N, true, s', iter', bs, hrun, hout.loads, hsame, hplaces bs hb,
          fun _ => by rw [hsame.last]; exact hle', (fun hok => nomatch hok),
          fun _ hcon => absurd hcon hm⟩
  · have hdone : fkfs_file_iterator_done iter = true := (done_iff iter).mpr hge
    refine ⟨0, false, s, iter, [], fun n _ => iterate_of_done hdone, .refl s, .refl iter, ?_,
      id, fun _ => rfl, fun hok => nomatch hok⟩
    rw [List.append_nil]
    exact ho

end Iterators

end Fkfs.CardLog
