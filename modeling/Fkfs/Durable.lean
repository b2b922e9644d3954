/-
What survives the loss of RAM.

A machine holds two headers over the same blocks: the one in `fs`, and the newest
one on the card. `Secures L D` says that the first marks the payloads `L` and the
second the payloads `D` on the blocks as they are seen at present, and that the card
alone is enough for the second. The one thing that breaks the latter is a header
write made while the buffer is dirty: until the data block follows, the header on
the card is ahead of the data (`Ahead`).

Every primitive keeps this, whether its transfers succeed or not, so a power cut
needs no treatment of its own: it is a call whose transfers fail from some point
on, after which RAM is lost. A program start then finds `D` (`Secures.restart`).
-/
import Fkfs.Marking
import Fkfs.CardLog
import Fkfs.Generations

set_option autoImplicit false

namespace Fkfs.Durable

open Bytes Relation
open Fkfs.Crc Fkfs.Layout Fkfs.Device Fkfs.Search Fkfs.Append Fkfs.Iterate Fkfs.Mount Fkfs.Cache
open Fkfs.Walk Fkfs.Writer Fkfs.Reader Fkfs.Run Fkfs.Slots Fkfs.Log Fkfs.CardLog Fkfs.Structure
open Fkfs.Generations Fkfs.Marking

/-- Some payloads for each file. -/
abbrev Payloads : Type := FileNumber → List (List UInt8)

/-- The payloads of each file are among these, in order. -/
def Among (K L : Payloads) : Prop := ∀ f, (K f).Sublist (L f)

theorem Among.refl (K : Payloads) : Among K K := fun _ => List.Sublist.refl _

/-- The payloads with one more of file `f`. -/
def Payloads.push (K : Payloads) (f : FileNumber) (data : List UInt8) : Payloads :=
  Function.update K f (K f ++ [data])

theorem among_push (K : Payloads) (f : FileNumber) (data : List UInt8) :
    Among K (K.push f data) := by
  intro g
  unfold Payloads.push
  by_cases hg : g = f
  · subst hg
    rw [Function.update_self]
    exact List.sublist_append_left _ _
  · rw [Function.update_of_ne hg]

/-! ## Reading what is marked -/

/-- **Iterating until done** delivers what is marked of a file, and maybe more in
between. -/
theorem drain_marked {ov : Overrun} {s : Machine} {f : FileNumber} {ys : List (List UInt8)}
    (hw : Works s.sd) (hc : Coherent s) (hu : Unwrapped s.fs s.fs.header.block.toNat)
    (hd : s.fs.cachedBlockDirty = false) (hm : FileMarks (view s) s.fs.header f ys)
    (iter : fkfs_file_iter_t) (hclear : Clear ov s (fkfs_file_iterator_create s.fs f iter).token) :
    ∃ N, ∀ n, N ≤ n → ∀ polls : ℕ → Poll, (∀ k, (polls k).config.manualNext = 0) →
      ∃ xs s' iter', drain ov n polls n 0 s (fkfs_file_iterator_create s.fs f iter)
        = some (xs, s', iter') ∧ ys.Sublist xs := by
  have hends : ∀ b, blockOf (startPlace (s.fs.header.files f)) ≤ b →
      b < blockOf (endPlace (s.fs.header.files f)) → Ends ov s.fs.files (view s b) 0 := by
    intro b h1 h2
    rw [view_clean hd]
    exact hclear b h1 h2
  have hr : Ready ov s.fs.files (view s) s.fs.header f (endPlace (s.fs.header.files f)) s
      (fkfs_file_iterator_create s.fs f iter) := by
    refine ⟨hw, hc, rfl, rfl, fun _ _ => rfl, rfl, rfl, hm.start_ge, blockOf_le hm.last_le, hu,
      ⟨fun h => ?_, fun h => ?_⟩, MarkTrail.reach hm.line hm.start_chain hends⟩
    · rw [hd] at h
      cases h
    · rw [hd] at h
      cases h
  obtain ⟨N, hN⟩ := drain_spec hr
  refine ⟨N, fun n hn polls hpolls => ?_⟩
  obtain ⟨xs, s', iter', he, ht, -⟩ := hN n hn polls hpolls
  exact ⟨xs, s', iter', he, hm.line.delivered ht⟩

/-! ## Ahead of the data -/

/-- The last block write that reached the card. -/
def lastWrite (ws : List Write) : Option Write := (ws.filter fun w => w.ok).getLast?

/-- It was a header write, made while the buffer was dirty. -/
def Ahead (ws : List Write) : Prop :=
  ∃ w, lastWrite ws = some w ∧ w.block = 0 ∧ w.fs.cachedBlockDirty = true

theorem lastWrite_append (ws : List Write) (w : Write) :
    lastWrite (ws ++ [w]) = if w.ok = true then some w else lastWrite ws := by
  unfold lastWrite
  rw [List.filter_append]
  by_cases h : w.ok = true
  · rw [List.filter_cons_of_pos h, if_pos h, List.filter_nil, List.getLast?_append]
    rfl
  · rw [List.filter_cons_of_neg h, if_neg h, List.filter_nil, List.append_nil]

/-- A write that failed puts nothing ahead. -/
theorem ahead_failed {ws : List Write} {w : Write} (hw : w.ok = false) :
    Ahead (ws ++ [w]) ↔ Ahead ws := by
  unfold Ahead
  rw [lastWrite_append, if_neg (by rw [hw]; exact Bool.false_ne_true)]

/-- A write that succeeded does if it is a header write over a dirty buffer. -/
theorem ahead_written {ws : List Write} {w : Write} (hw : w.ok = true) :
    Ahead (ws ++ [w]) ↔ w.block = 0 ∧ w.fs.cachedBlockDirty = true := by
  unfold Ahead
  rw [lastWrite_append, if_pos hw]
  constructor
  · rintro ⟨w', he, h⟩
    cases he
    exact h
  · intro h
    exact ⟨w, rfl, h⟩

/-! ## The invariant -/

/-- The header in `fs` marks `L`, the newest header on the card marks `D`, and
unless it is ahead of the data the card is enough for it. -/
structure Secured (L D : Payloads) (m : Machine) (w : Write) : Prop where
  newest : NewestIn m w
  ram : Marks (view m) m.fs.header L
  card : Marks (view m) w.fs.header D
  behind : writerPlace w.fs.header ≤ writerPlace m.fs.header
  solid : ¬ Ahead m.writes → Below (view m) m.sd.blocks (writerPlace w.fs.header)
  unwrapped : Unwrapped m.fs m.fs.header.block.toNat
  size : m.fs.numberOfBlocks = m.sd.size

section Primitives

variable {L D L' D' : Payloads} {m m' : Machine} {w : Write}

theorem Secured.among (h : Secured L D m w) (hl : Among L' L) (hd : Among D' D) :
    Secured L' D' m w :=
  { h with ram := h.ram.sublist hl, card := h.card.sublist hd }

theorem Keeps.writer (hk : Keeps m m') : writerPlace m'.fs.header = writerPlace m.fs.header := by
  rw [writerPlace, writerPlace, hk.block, hk.offset]

theorem Marks.keeps {h : fkfs_header_t} {K : Payloads} (hm : Marks (view m) h K)
    (hk : Keeps m m') : Marks (view m') h K :=
  hm.congr (below_of_eq hk.view _) rfl fun _ => .refl _

/-- Operations that leave the blocks as they are seen, and the newest header. -/
theorem Secured.of_keeps (h : Secured L D m w) (hn : NewestIn m' w) (hk : Keeps m m')
    (hsolid : ¬ Ahead m'.writes → Below (view m') m'.sd.blocks (writerPlace w.fs.header)) :
    Secured L D m' w := by
  refine ⟨hn, ?_, Marks.keeps h.card hk, by rw [Keeps.writer hk]; exact h.behind, hsolid, ?_, ?_⟩
  · refine (Marks.keeps h.ram hk).congr (below_of_eq (fun _ _ => rfl) _) (Keeps.writer hk) fun f => ?_
    rw [hk.table]
    exact .refl _
  · rw [hk.block]
    exact unwrapped_congr h.unwrapped hk.blocks
  · rw [hk.blocks, hk.size]
    exact h.size

/-- A header that was just written is the one in `fs`. -/
theorem Secured.of_written (h : Secured L D m w) {w' : Write} (hn : NewestIn m' w')
    (hw : w'.fs.header = m'.fs.header) (hk : Keeps m m')
    (hsolid : ¬ Ahead m'.writes → m'.fs.cachedBlockDirty = false) : Secured L L m' w' := by
  have hwriter := Keeps.writer hk
  have hram : Marks (view m') m'.fs.header L := by
    refine (Marks.keeps h.ram hk).congr (below_of_eq (fun _ _ => rfl) _) hwriter fun f => ?_
    rw [hk.table]
    exact .refl _
  refine ⟨hn, hram, by rw [hw]; exact hram, by rw [hw], fun hna => ?_, ?_, ?_⟩
  · refine below_of_eq (fun b _ => ?_) _
    rw [view_clean (hsolid hna)]
  · rw [hk.block]
    exact unwrapped_congr h.unwrapped hk.blocks
  · rw [hk.blocks, hk.size]
    exact h.size

/-- A transfer that is over. -/
theorem NewestIn.read (h : NewestIn m w) : NewestIn (afterRead m) w :=
  h.of_quiet ⟨h.coherent.block_ge, h.coherent.block_lt, h.coherent.offset_le, h.coherent.dirty,
    h.coherent.clean⟩ rfl rfl rfl rfl

theorem Secured.read (h : Secured L D m w) : Secured L D (afterRead m) w :=
  h.of_keeps (NewestIn.read h.newest) ⟨rfl, rfl, rfl, rfl, rfl, rfl, rfl, fun _ _ => rfl⟩ h.solid

/-- The header's CRC is brought up to date. -/
theorem Secured.seal (h : Secured L D m w) : Secured L D (sealHeader m) w :=
  h.of_keeps (h.newest.of_quiet ⟨h.newest.coherent.block_ge, h.newest.coherent.block_lt,
      h.newest.coherent.offset_le, h.newest.coherent.dirty, h.newest.coherent.clean⟩ rfl rfl rfl rfl)
    ⟨rfl, rfl, rfl, rfl, rfl, rfl, rfl, fun _ _ => rfl⟩ h.solid

/-- A write that failed leaves everything as it is. -/
theorem Secured.failed (h : Secured L D m w) (block : UInt32) (source : Block) :
    Secured L D (afterFailedWrite m block source) w :=
  h.of_keeps (h.newest.failed _ _) ⟨rfl, rfl, rfl, rfl, rfl, rfl, rfl, fun _ _ => rfl⟩
    fun hna => h.solid fun ha => hna ((ahead_failed rfl).mpr ha)

/-- **`fkfs_header_write`**: if it succeeds the card has what `fs` has, at least if
nothing is dirty. -/
theorem Secured.header_write (h : Secured L D m w) :
    (fkfs_header_write m false).1 = false ∧ Secured L D (fkfs_header_write m false).2 w
      ∨ (fkfs_header_write m false).1 = true
        ∧ ∃ w', Secured L L (fkfs_header_write m false).2 w' := by
  obtain ⟨-, hk, -⟩ := header_write_keeps h.newest.coherent
  rcases header_write_cases m with e | e | e
  · left
    rw [e]
    exact ⟨rfl, h.read⟩
  · left
    rw [e]
    exact ⟨rfl, h.read.seal.read.failed _ _⟩
  · right
    rw [e] at hk ⊢
    have hput := h.read.seal.read.newest.put _ (sealHeader_sealed (afterRead m)) rfl
    refine ⟨rfl, _, h.of_written hput rfl hk fun hna => ?_⟩
    by_contra hd
    exact hna ((ahead_written rfl).mpr ⟨rfl, Bool.of_not_eq_false hd⟩)

/-- **The data write of `fkfs_fsync`** brings the card level with what is seen. -/
theorem Secured.data_write (h : Secured L D m w) (hd : m.fs.cachedBlockDirty = true)
    (hb : dataWrites m.writes + 1 < 4294967295) : Secured L D (afterDataWrite m) w := by
  refine h.of_keeps (afterDataWrite_newest h.newest hd hb)
    (afterDataWrite_keeps h.newest.coherent hd).2 fun _ => below_of_eq (fun b _ => ?_) _
  rw [view_clean rfl]

/-- **`fkfs_fsync`**: if it succeeds and there was something to write the card has
what `fs` has. -/
theorem Secured.fsync (h : Secured L D m w) (hdl : Among D L)
    (hb : dataWrites (fkfs_fsync m).2.writes < 4294967295) :
    (∃ w', Secured L D (fkfs_fsync m).2 w')
      ∧ (m.fs.cachedBlockDirty = true → (fkfs_fsync m).1 = true →
        ∃ w', Secured L L (fkfs_fsync m).2 w') := by
  by_cases hd : m.fs.cachedBlockDirty = true
  · rcases fsync_cases hd with e | e
    · rw [e]
      exact ⟨⟨w, h.read.failed _ _⟩, fun _ hok => nomatch hok⟩
    · rw [e] at hb ⊢
      rw [header_write_counts, afterDataWrite_counts h.read.newest.coherent] at hb
      rcases (h.read.data_write hd hb).header_write with ⟨hf, hs⟩ | ⟨-, w', hs⟩
      · exact ⟨⟨w, hs⟩, fun _ hok => absurd hok (by rw [hf]; exact Bool.false_ne_true)⟩
      · exact ⟨⟨w', hs.among (.refl L) hdl⟩, fun _ _ => ⟨w', hs⟩⟩
  · rw [fsync_clean (Bool.not_eq_true _ ▸ hd)]
    exact ⟨⟨w, h⟩, fun hc => absurd hc hd⟩

/-- A read that evicts nothing dirty. -/
theorem Secured.load (h : Secured L D m w) {b : UInt32} (hq : QuietAt m b) :
    Secured L D (fkfs_block_ensure m b).2 w := by
  have hc := block_ensure_coherent h.newest.coherent b
  have hk := block_ensure_keeps hq
  have hblocks : (fkfs_block_ensure m b).2.sd.blocks = m.sd.blocks := by
    rcases block_ensure_cases m b with ⟨-, e⟩ | ⟨-, e⟩ | ⟨-, e⟩ <;> rw [e] <;> rfl
  have hwrites : (fkfs_block_ensure m b).2.writes = m.writes := by
    rcases block_ensure_cases m b with ⟨-, e⟩ | ⟨-, e⟩ | ⟨-, e⟩ <;> rw [e] <;> rfl
  have hheader := block_ensure_header m b
  have hindex : (fkfs_block_ensure m b).2.fs.headerIndex = m.fs.headerIndex := by
    rcases block_ensure_cases m b with ⟨-, e⟩ | ⟨-, e⟩ | ⟨-, e⟩ <;> rw [e] <;> rfl
  refine h.of_keeps (h.newest.of_quiet hc hwrites (by rw [hblocks]) hindex (by rw [hheader])) hk ?_
  rw [hwrites, hblocks]
  intro hna b i hb hi
  rw [hk.view b hb]
  exact h.solid hna b i hb hi

/-- The writer goes on to the next block and does not wrap. -/
theorem Secured.next (h : Secured L D m w) (hd : m.fs.cachedBlockDirty = false)
    (hwraps : (fkfs_next_block m).wraps = m.wraps) : Secured L D (fkfs_next_block m) w := by
  obtain ⟨ho, hf, hsd, hwr, hfs⟩ := next_block_keeps m
  obtain ⟨hb, hu⟩ := next_block_unwrapped h.newest.coherent h.unwrapped hwraps
  have hindex : (fkfs_next_block m).fs.headerIndex = m.fs.headerIndex := by rw [hfs]
  have hgen : (fkfs_next_block m).fs.header.generation = m.fs.header.generation := by
    unfold fkfs_next_block
    split <;> rfl
  refine ⟨?_, ?_, ?_, le_trans h.behind (place_le.mpr (.inl (by omega))), ?_, hu, ?_⟩
  · exact h.newest.of_quiet (next_block_coherent h.newest.coherent hd) hwr (by rw [hsd]) hindex hgen
  · rw [next_block_view]
    exact h.ram.next hb ho hf
  · rw [next_block_view]
    exact h.card
  · rw [next_block_view, hwr, hsd]
    exact h.solid
  · rw [hfs, hsd]
    exact h.size

/-- The search moves the writer along the chain of its block. -/
theorem Secured.seek (h : Secured L D m w) {o : UInt16}
    (hcache : m.fs.cachedBlockNumber = m.fs.header.block)
    (hchain : Chain m.fs.buffer m.fs.header.offset.toNat o.toNat) (ho : o.toNat ≤ 512) :
    Secured L D (m.setHeader { m.fs.header with offset := o }) w := by
  have hc := h.newest.coherent
  rw [hc.buffer_eq hcache hc.block_ge hc.block_ne_max] at hchain
  refine ⟨h.newest.of_quiet (coherent_survives.place hc ho) rfl rfl rfl rfl, h.ram.seek hchain,
    h.card, le_trans h.behind (place_le.mpr (.inr ⟨rfl, hchain.le⟩)), h.solid, h.unwrapped, h.size⟩

/-- An entry is stored at the writer's place. -/
theorem Secured.store (h : Secured L D m w) {f : FileNumber} {data : List UInt8}
    (hcache : m.fs.cachedBlockNumber = m.fs.header.block) (hpos : 0 < data.length)
    (hlen : data.length ≤ 505) (hroom : m.fs.header.offset.toNat + (7 + data.length) ≤ 512) :
    Secured (L.push f data) D (afterStore m f data) w := by
  have hc := h.newest.coherent
  have hbelow : Below (view m) (view (afterStore m f data)) (writerPlace m.fs.header) :=
    afterStore_below hc hcache
  have hoff := afterStore_offset (f := f) hlen hroom
  have hwriter : writerPlace (afterStore m f data).fs.header
      = place m.fs.header.block.toNat (m.fs.header.offset.toNat + (7 + data.length)) := by
    rw [writerPlace, hoff]
    rfl
  refine ⟨?_, ?_, ?_, ?_, fun hna => ?_, h.unwrapped, h.size⟩
  · exact h.newest.of_quiet (afterStore_coherent hc hcache hlen hroom) rfl rfl rfl rfl
  · refine h.ram.store hbelow (afterStore_stored hc hcache hpos hlen hroom) hwriter
      (fun g hg => afterStore_other hg) (afterStore_version f) ?_ ?_
    · rw [afterStore_row]
      rfl
    · rw [afterStore_row]
      rfl
  · exact h.card.congr (hbelow.mono h.behind) rfl fun _ => .refl _
  · rw [hwriter]
    exact le_trans h.behind (place_le.mpr (.inr ⟨rfl, by omega⟩))
  · intro b i hb hi
    rw [← hbelow b i hb (lt_of_lt_of_le hi h.behind)]
    exact h.solid hna b i hb hi

end Primitives

/-! ## Every call keeps it -/

/-- The header in `fs` marks `L` and the newest header on the card `D`, as long as the
writer has not wrapped and the generation has not run over. -/
def Secures (L D : Payloads) (m : Machine) : Prop :=
  Coherent m ∧ (m.wraps = 0 → dataWrites m.writes < 4294967295 → ∃ w, Secured L D m w)

section Calls

variable {ov : Overrun} {L D L' D' : Payloads} {m m' : Machine}

theorem Secures.among (h : Secures L D m) (hl : Among L' L) (hd : Among D' D) :
    Secures L' D' m := by
  refine ⟨h.1, fun h0 hb => ?_⟩
  obtain ⟨w, hw⟩ := h.2 h0 hb
  exact ⟨w, hw.among hl hd⟩

/-- Data blocks are written, never taken back from the log. -/
theorem fsync_counts (m : Machine) : dataWrites m.writes ≤ dataWrites (fkfs_fsync m).2.writes := by
  by_cases hd : m.fs.cachedBlockDirty = true
  · rcases fsync_cases hd with e | e
    · rw [e]
      exact dataWrites_le _ _
    · rw [e, header_write_counts]
      exact dataWrites_le _ _
  · rw [fsync_clean (Bool.not_eq_true _ ▸ hd)]

theorem Secures.sync (h : Secures L D m) (hdl : Among D L) : Secures L D (fkfs_fsync m).2 := by
  obtain ⟨hc, hk, -⟩ := fsync_keeps h.1
  refine ⟨hc, fun h0 hb => ?_⟩
  obtain ⟨w, hw⟩ := h.2 (hk.wraps.symm.trans h0) (lt_of_le_of_lt (fsync_counts m) hb)
  exact (hw.fsync hdl hb).1

/-- What was to be written is secured once it is written. -/
theorem Secures.synced (h : Secures L D m) (hdl : Among D L)
    (hd : m.fs.cachedBlockDirty = true) (hok : (fkfs_fsync m).1 = true) :
    Secures L L (fkfs_fsync m).2 := by
  obtain ⟨hc, hk, -⟩ := fsync_keeps h.1
  refine ⟨hc, fun h0 hb => ?_⟩
  obtain ⟨w, hw⟩ := h.2 (hk.wraps.symm.trans h0) (lt_of_le_of_lt (fsync_counts m) hb)
  exact (hw.fsync hdl hb).2 hd hok

theorem Secures.header_write (h : Secures L D m) (hdl : Among D L) :
    Secures L D (fkfs_header_write m false).2 := by
  obtain ⟨hc, hk, -⟩ := header_write_keeps h.1
  refine ⟨hc, fun h0 hb => ?_⟩
  rw [header_write_counts] at hb
  obtain ⟨w, hw⟩ := h.2 (hk.wraps.symm.trans h0) hb
  rcases hw.header_write with ⟨-, hs⟩ | ⟨-, w', hs⟩
  · exact ⟨w, hs⟩
  · exact ⟨w', hs.among (.refl L) hdl⟩

theorem Secures.next (h : Secures L D m) (hd : m.fs.cachedBlockDirty = false) :
    Secures L D (fkfs_next_block m) := by
  obtain ⟨-, -, -, hwr, -⟩ := next_block_keeps m
  refine ⟨next_block_coherent h.1 hd, fun h0 hb => ?_⟩
  rw [hwr] at hb
  have hsame : (fkfs_next_block m).wraps = m.wraps := by
    rcases next_block_cases m with ⟨-, hw, -⟩ | ⟨-, hw, -⟩
    · omega
    · exact hw
  obtain ⟨w, hw⟩ := h.2 (hsame.symm.trans h0) hb
  exact ⟨w, hw.next hd hsame⟩

theorem Secures.load (h : Secures L D m) {b : UInt32} (hq : QuietAt m b) :
    Secures L D (fkfs_block_ensure m b).2 := by
  have hwrites : (fkfs_block_ensure m b).2.writes = m.writes
      ∧ (fkfs_block_ensure m b).2.wraps = m.wraps := by
    rcases block_ensure_cases m b with ⟨-, e⟩ | ⟨-, e⟩ | ⟨-, e⟩ <;> rw [e] <;> exact ⟨rfl, rfl⟩
  refine ⟨block_ensure_coherent h.1 b, fun h0 hb => ?_⟩
  rw [hwrites.2] at h0
  rw [hwrites.1] at hb
  obtain ⟨w, hw⟩ := h.2 h0 hb
  exact ⟨w, hw.load hq⟩

/-- **The allocator keeps both headers' marks.** -/
theorem secures_allocates (hdl : Among D L) {required : ℕ} :
    Allocates required (Secures L D) where
  sync := fun hm => hm.sync hdl
  next := fun hm hd => hm.next hd
  load := fun hm => hm.load hm.1.dirty
  place := fun hm hcache hchain ho =>
    ⟨coherent_survives.place hm.1 (by omega), fun h0 hb => by
      obtain ⟨w, hw⟩ := hm.2 h0 hb
      exact ⟨w, hw.seek hcache hchain (by omega)⟩⟩

/-- An entry is stored at the writer's place. -/
theorem Secures.store (h : Secures L D m) {f : FileNumber} {data : List UInt8}
    (hcache : m.fs.cachedBlockNumber = m.fs.header.block) (hpos : 0 < data.length)
    (hlen : data.length ≤ 505) (hroom : m.fs.header.offset.toNat + (7 + data.length) ≤ 512) :
    Secures (L.push f data) D (afterStore m f data) := by
  refine ⟨afterStore_coherent h.1 hcache hlen hroom, fun h0 hb => ?_⟩
  obtain ⟨w, hw⟩ := h.2 h0 hb
  exact ⟨w, hw.store hcache hpos hlen hroom⟩

/-- **`fkfs_file_append`** of a payload: it fails and adds nothing, or it adds the
payload to what `fs` marks, and if the file is a sync file to what the card has. -/
theorem append_secures (h : Secures L D m) (hdl : Among D L) (f : FileNumber) {data : List UInt8}
    (hlen : data.length ≤ 505) (pasts : ℕ → Mem) :
    Secures L D (fkfs_file_append ov pasts m f data).2
      ∧ ((fkfs_file_append ov pasts m f data).1 = true →
        Secures (L.push f data) D (fkfs_file_append ov pasts m f data).2
          ∧ ((m.fs.files f).sync ≠ 0 → Secures (L.push f data) (L.push f data)
            (fkfs_file_append ov pasts m f data).2)) := by
  -- The settings are carried along: they decide whether the entry is synced.
  have hfiles := (@secures_allocates L D hdl (7 + data.length)).and
    ((settings_survive m.fs.files).allocates _)
  rcases append_cases ov f hfiles hlen pasts ⟨h, rfl⟩ with ⟨s, hs, e⟩ | ⟨hpos, s, hs, hcache, hr, e⟩
  · rw [e]
    exact ⟨hs.1, fun hok => nomatch hok⟩
  · have hstore := hs.1.store (f := f) hcache hpos hlen hr
    have hdl' : Among D (L.push f data) := fun g => (hdl g).trans (among_push L f data g)
    rw [e, ← hs.2]
    by_cases hsync : (s.fs.files f).sync ≠ 0
    · rw [if_pos hsync]
      have hsynced := hstore.sync hdl'
      exact ⟨hsynced.among (among_push L f data) (.refl D), fun hok => ⟨hsynced, fun _ =>
        hstore.synced hdl' rfl hok⟩⟩
    · rw [if_neg hsync]
      exact ⟨hstore.among (among_push L f data) (.refl D), fun _ => ⟨hstore, fun hc => absurd hc hsync⟩⟩

/-- **`fkfs_touch`** adds nothing and loses nothing. -/
theorem touch_secures (h : Secures L D m) (hdl : Among D L) (time : UInt32) :
    Secures L D (fkfs_touch m time).2 := by
  have ht : Secures L D (m.setHeader { m.fs.header with time := time }) := by
    refine ⟨⟨h.1.block_ge, h.1.block_lt, h.1.offset_le, h.1.dirty, h.1.clean⟩, fun h0 hb => ?_⟩
    obtain ⟨w, hw⟩ := h.2 h0 hb
    have hc := hw.newest.coherent
    exact ⟨w, hw.of_keeps (hw.newest.of_quiet ⟨hc.block_ge, hc.block_lt, hc.offset_le, hc.dirty,
      hc.clean⟩ rfl rfl rfl rfl) ⟨rfl, rfl, rfl, rfl, rfl, rfl, rfl, fun _ _ => rfl⟩ hw.solid⟩
  exact ht.header_write hdl

/-- **`fkfs_flush`** adds nothing and loses nothing. -/
theorem flush_secures (h : Secures L D m) (hdl : Among D L) (now : UInt32) :
    Secures L D (fkfs_flush m now).2 := by
  have ht := touch_secures h hdl now
  unfold fkfs_flush
  split
  · rename_i s e
    rw [e] at ht
    exact ht
  · rename_i s e
    rw [e] at ht
    exact ht.sync hdl

/-- The same, with nothing dirty. -/
def Rests (L D : Payloads) (m : Machine) : Prop :=
  Secures L D m ∧ m.fs.cachedBlockDirty = false

theorem Rests.load (h : Rests L D m) (b : UInt32) : Rests L D (fkfs_block_ensure m b).2 := by
  refine ⟨h.1.load fun hc => absurd (h.2.symm.trans hc) Bool.false_ne_true, ?_⟩
  rcases block_ensure_cases m b with ⟨-, e⟩ | ⟨-, e⟩ | ⟨-, e⟩ <;> rw [e]
  · exact h.2
  · exact h.2
  · rfl

/-- **`fkfs_file_iterate`** over a clean buffer, wherever the token points. -/
theorem iterate_secures (h : Rests L D m) {config : fkfs_iterator_config_t} {am : Ambient}
    {n : ℕ} {iter iter' : fkfs_file_iter_t} {ok : Bool}
    (he : fkfs_file_iterate ov n config am m iter = some (ok, m', iter')) : Rests L D m' :=
  @iterate_rule ov (Rests L D) (fun b hs => hs.load b) _ _ _ _ _ _ _ _ h he

/-- Which transfers fail next has no part in it. -/
theorem Secures.withFaults (h : Secures L D m) (faults : List Bool) :
    Secures L D (withFaults m faults) := by
  refine ⟨coherent_survives_faults h.1 faults, fun h0 hb => ?_⟩
  obtain ⟨w, hw⟩ := h.2 h0 hb
  exact ⟨w, hw.of_keeps (hw.newest.of_quiet (coherent_survives_faults hw.newest.coherent faults)
    rfl rfl rfl rfl) ⟨rfl, rfl, rfl, rfl, rfl, rfl, rfl, fun _ _ => rfl⟩ hw.solid⟩

end Calls

/-! ## Program starts -/

/-- What a program start leaves on a card that works. -/
structure Fresh (cfg : FileNumber → FileConfig) (m : Machine) : Prop where
  works : Works m.sd
  clean : m.fs.cachedBlockDirty = false
  level : ¬ Ahead m.writes
  settings : m.fs.files = settingsOf cfg

section Starts

variable {D L : Payloads} {m m' : Machine} {cfg : FileNumber → FileConfig}
  {draws : FileNumber → UInt16}

/-- **A restart** finds what the newest header on the card marks, unless that header
is ahead of the data. -/
theorem Secures.restart (h : Secures L D m) (hw : Works m.sd) (h0 : m.wraps = 0)
    (hb : dataWrites m.writes < 4294967295) (hahead : ¬ Ahead m.writes)
    (he : boot m cfg false draws = (true, m')) :
    Secures D D m' ∧ Fresh cfg m' ∧ m'.writes = m.writes ∧ m'.wraps = m.wraps := by
  obtain ⟨w, hs⟩ := h.2 h0 hb
  obtain ⟨-, hmount⟩ := remount_newest hs.newest.card he
  obtain ⟨hn, -, hheader⟩ := hmount rfl
  rw [boot_works hw hs.newest.card.valid] at he
  cases he
  have hwriter : writerPlace (mounted cfg m.sd).header = writerPlace w.fs.header := by
    rw [show (mounted cfg m.sd).header = _ from hheader]
    rfl
  have hview : view { m with fs := mounted cfg m.sd } = m.sd.blocks := by
    funext b
    exact view_clean rfl b
  have hcard : Marks m.sd.blocks w.fs.header D :=
    hs.card.congr (hs.solid hahead) rfl fun _ => .refl _
  have hram : Marks m.sd.blocks (mounted cfg m.sd).header D := by
    refine hcard.congr (below_of_eq (fun _ _ => rfl) _) hwriter fun f => ?_
    rw [show (mounted cfg m.sd).header = _ from hheader]
    exact ⟨rfl, rfl, rfl⟩
  have hblock : (mounted cfg m.sd).header.block.toNat ≤ m.fs.header.block.toNat := by
    have := blockOf_le hs.behind
    rw [← hwriter] at this
    exact this
  refine ⟨⟨hn.coherent, fun _ _ => ⟨w, hn, ?_, ?_, ?_, fun _ => ?_, fun b h1 h2 => ?_, rfl⟩⟩,
    ⟨hw, rfl, hahead, mounted_files cfg m.sd⟩, rfl, rfl⟩
  · rw [hview]
    exact hram
  · rw [hview]
    exact hcard
  · exact le_of_eq hwriter.symm
  · rw [hview]
    exact below_of_eq (fun _ _ => rfl) _
  · exact unwrapped_congr hs.unwrapped (show m.sd.size = _ from hs.size.symm) b h1
      (le_trans h2 hblock)

/-- The last write of a wipe is a header write over a clean buffer. -/
theorem wiped_level {s : Machine} (he : boot s cfg true draws = (true, m')) :
    ¬ Ahead m'.writes := by
  rcases boot_new (.inl rfl) cfg draws with ⟨fs, e⟩ | e
  · rw [e] at he
    cases he
  · rw [e] at he
    obtain ⟨s1, s2, -, rfl, rfl, rfl⟩ := wipeHeaders_true he
    intro ha
    exact absurd ((ahead_written rfl).mp ha).2 Bool.false_ne_true

/-- **A wipe** marks nothing. -/
theorem secures_wiped {s : Machine} (hlog : s.writes = []) (hw : Works s.sd) (h0 : s.wraps = 0)
    (he : boot s cfg true draws = (true, m')) :
    Secures (fun _ => []) (fun _ => []) m' ∧ Fresh cfg m' ∧ m'.wraps = 0
      ∧ dataWrites m'.writes = 0 := by
  have hlevel := wiped_level he
  obtain ⟨w, hn, hfs, hcount⟩ := wipe_written hlog he
  have hwiped := wipe_works hw he
  have hplace : ∀ f, startPlace (m'.fs.header.files f) = origin
      ∧ endPlace (m'.fs.header.files f) = origin := by
    intro f
    have hrow := hwiped.row f
    rw [startPlace, endPlace, hrow.startBlock, hrow.startOffset, hrow.endBlock, hrow.endOffset]
    exact ⟨rfl, rfl⟩
  have hwriter : writerPlace m'.fs.header = origin := by
    rw [writerPlace, hwiped.block, hwiped.offset]
    rfl
  have hmarks : Marks (view m') m'.fs.header fun _ => [] := by
    refine ⟨by rw [hwiped.block]; exact le_of_eq FKFS_FIRST_BLOCK_toNat.symm, ?_, fun f => ?_⟩
    · rw [hwiped.offset]
      exact .refl
    · obtain ⟨hstart, hlast⟩ := hplace f
      refine ⟨by rw [hstart, origin, blockOf_place], by rw [hstart]; rfl, by rw [hlast, hwriter], ?_⟩
      rw [hstart, hlast]
      exact .refl _
  refine ⟨⟨hn.coherent, fun _ _ => ⟨w, hn, hmarks, by rw [hfs]; exact hmarks, by rw [hfs],
    fun _ => below_of_eq (fun b _ => ?_) _, fun b h1 h2 => ?_, hwiped.size⟩⟩,
    ⟨hwiped.works, hwiped.dirty, hlevel, hwiped.settings⟩, hwiped.wraps.trans h0, hcount⟩
  · rw [view_clean hwiped.dirty]
  · rw [hwiped.block, FKFS_FIRST_BLOCK_toNat] at h2
    omega

end Starts

end Fkfs.Durable
