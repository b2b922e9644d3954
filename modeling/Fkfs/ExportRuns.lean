/-
The exporter after a run.

A run leaves a card the exporter can walk: every block the writer has left ends in
zeros (`run_tails`), nothing is written between the headers and the log
(`low_survives`), and after a flush the newer of the two slots, which is the one the
exporter takes, holds the header the device goes by (`flushed_header`). So what it
writes is read off the records on the card (`exporter_takes`), it is never anything
that was not appended (`exporter_complete`), and it is what the device itself delivers
of a file just if nothing of the file lies in the writer's block or behind a stale
record of its block (`readers_agree_iff`).
-/
import Fkfs.Exports
import Fkfs.Scans
import Fkfs.TornHeader

set_option autoImplicit false

namespace Fkfs.ExportRuns

open Bytes Relation
open Fkfs.Crc Fkfs.Layout Fkfs.Device Fkfs.Search Fkfs.Append Fkfs.Iterate Fkfs.Mount Fkfs.Cache
open Fkfs.Walk Fkfs.Writer Fkfs.Reader Fkfs.Run Fkfs.Slots Fkfs.Log Fkfs.CardLog Fkfs.Structure
open Fkfs.Generations Fkfs.Journal Fkfs.Tapes Fkfs.Checksum Fkfs.Selection Fkfs.ExportTrail
open Fkfs.Exports Fkfs.Scans
open Fkfs.Exporter (Image HeaderBlock entryOf ReadHeader Host Export)
open Fkfs.ExporterWalk (Serves)

/-! ## What a run leaves on the card -/

/-- Every block before the writer's was left with zeros behind its last entry. -/
def Tails (s : Machine) : Prop :=
  ∀ b, 8000 ≤ b → b < s.fs.header.block.toNat → ZeroTail (view s b)

section Runs

variable {ov : Overrun} {x : History}

/-- The blocks a writer has left stay as they were left. -/
theorem Tails.onward {s s' : Machine} {recs : List Rec} (h : Tails s)
    (hd : Describes (view s) s.fs.header recs)
    (hsame : ∀ b, 8000 ≤ b → b < s'.fs.header.block.toNat → view s' b = view s b) : Tails s' := by
  intro b hb hlt
  rw [hsame b hb hlt]
  rcases Nat.lt_trichotomy b s.fs.header.block.toNat with hold | rfl | hnew
  · exact h b hb hold
  · -- The writer stood at the end of the chain, with zeros behind.
    intro o hchain hend i hi
    have hwriter : Chain (view s s.fs.header.block.toNat) 0 s.fs.header.offset.toNat :=
      hd.track.chain
    have hsame : s.fs.header.offset.toNat = o := by
      rcases ReflTransGen.total_of_right_unique (link_unique _) hwriter hchain with hc | hc
      · exact (Trails.reach_stuck (hd.no_link hb) hc).symm
      · exact Trails.reach_stuck hend hc
    exact hd.blank _ i hb (place_le.mpr (.inr ⟨rfl, hsame ▸ hi⟩))
  · intro o _ _ i _
    exact hd.blank b i hb (place_le.mpr (.inl hnew))

/-- An append leaves the blocks before the writer's alone. -/
theorem append_view {recs : List (ℕ × Rec)} (h : Holds recs x) (f : FileNumber)
    {data : List UInt8} (hlen : data.length ≤ 505) (pasts : ℕ → Mem) {b : ℕ} (hb : 8000 ≤ b)
    (hlt : b < (fkfs_file_append ov pasts x.machine f data).2.fs.header.block.toNat) :
    view (fkfs_file_append ov pasts x.machine f data).2 b = view x.machine b := by
  have hlog : Logged (recs.map Prod.snd) x.machine := h.tells.logged
  have hclean : x.machine.fs.cachedBlockDirty = false := h.tells.clean
  have hseek : ∀ {m : Machine}, Seeking (recs.map Prod.snd) x.machine m →
      view m b = view x.machine b := by
    intro m hm
    rw [view_clean hm.seeks.dirty, view_clean hclean, hm.seeks.sd]
  rcases append_logged ov hlog hclean (h.tells.sync f) hlen pasts with
    ⟨m, hm, e⟩ | ⟨m, hm, -, hgrown, hstore, e⟩
  · rw [e]
    exact hseek hm
  · obtain ⟨-, hk, -⟩ := fsync_keeps hstore.coherent
    rw [e] at hlt ⊢
    rw [hk.block] at hlt
    rw [hk.view b hb, ← hseek hm]
    refine Buf.ext_mem fun i _ => (hgrown.below b i hb ?_).symm
    exact place_lt.mpr (.inl hlt)

/-- **Every block a run has left** ends in zeros. -/
theorem run_tails (h : Run ov x) : Tails x.machine := by
  have hkeeps : ∀ {y : History} {m : Machine}, Run ov y → Tails y.machine → Keeps y.machine m →
      Tails m := by
    intro y m hy ht hk
    obtain ⟨recs, hh⟩ := run_holds hy
    exact ht.onward hh.describes fun b hb _ => hk.view b hb
  induction h with
  | @wipe s m cfg draws hw hzero hwraps hsync h =>
    intro b hb hlt
    change b < m.fs.header.block.toNat at hlt
    rw [(wipe_works hw h).block, FKFS_FIRST_BLOCK_toNat] at hlt
    omega
  | append hx f hlen hroom pasts hwraps ih =>
    obtain ⟨recs, hh⟩ := run_holds hx
    exact ih.onward hh.describes fun b hb hlt => append_view hh f hlen pasts hb hlt
  | @truncate y hx f hfew ih =>
    obtain ⟨recs, hh⟩ := run_holds hx
    exact ih.onward hh.describes fun b hb _ => rfl
  | @touch y hx time ih =>
    obtain ⟨recs, hh⟩ := run_holds hx
    exact hkeeps hx ih (touch_keeps hh.atRest.coherent time).2.1
  | @flush y hx now ih =>
    obtain ⟨recs, hh⟩ := run_holds hx
    exact hkeeps hx ih (flush_keeps hh.atRest.coherent now).2.1
  | create hx f iter ih => exact ih
  | reopen hx htoken iter ih => exact ih
  | resume hx htoken iter ih => exact ih
  | moveEnd hx htoken ih => exact ih
  | @iterate y hx iter iter' c n htoken hclear config am ok m h ih =>
    obtain ⟨recs, hh⟩ := run_holds hx
    have hnone : y.machine.fs.cachedBlockDirty = true → False := fun hc =>
      absurd (hh.atRest.clean.symm.trans hc) Bool.false_ne_true
    exact hkeeps hx ih (iterate_loads hh.atRest.works hh.atRest.coherent
      (fun _ _ => ⟨fun hc => (hnone hc).elim, fun hc => (hnone hc).elim⟩) h).1.keeps

/-- An append keeps what the primitives keep. -/
theorem append_survives {Inv : Machine → Prop} (hi : Survives Inv) (ov : Overrun) (f : FileNumber)
    {data : List UInt8} (hlen : data.length ≤ 505) (pasts : ℕ → Mem) {s : Machine} (hs : Inv s) :
    Inv (fkfs_file_append ov pasts s f data).2 :=
  append_rule ov f (hi.allocates _) hlen (fun hm h1 _ h2 => hi.store hm h1 hlen h2) pasts hs

/-- What every call keeps holds after a run, if a wipe establishes it. -/
theorem run_rule {Inv : Machine → Prop} (hi : Survives Inv)
    (hwipe : ∀ {s m cfg draws}, boot s cfg true draws = (true, m) → Inv m) (h : Run ov x) :
    Inv x.machine := by
  induction h with
  | wipe hw hzero hwraps hsync h => exact hwipe h
  | append hx f hlen hroom pasts hwraps ih =>
    exact append_survives hi ov f hlen pasts ih
  | truncate hx f hfew ih => exact truncate_rule hi f ih
  | touch hx time ih => exact touch_rule hi time ih
  | flush hx now ih => exact flush_rule hi now ih
  | create hx f iter ih => exact ih
  | reopen hx htoken iter ih => exact ih
  | resume hx htoken iter ih => exact ih
  | moveEnd hx htoken ih => exact ih
  | iterate hx htoken hclear h ih => exact iterate_rule hi.load ih h

end Runs

/-! ## The blocks below the log -/

/-- The blocks between the headers and the log are these. -/
def Low (c : ℕ → Block) (m : Machine) : Prop :=
  Coherent m ∧ ∀ b, 0 < b → b < 8000 → m.sd.blocks b = c b

theorem header_write_low {c : ℕ → Block} {s : Machine}
    (h : ∀ b, 0 < b → b < 8000 → s.sd.blocks b = c b) (b : ℕ) (h0 : 0 < b) (hb : b < 8000) :
    (fkfs_header_write s false).2.sd.blocks b = c b := by
  rcases header_write_cases s with e | e | e
  · rw [e]
    exact h b h0 hb
  · rw [e]
    exact h b h0 hb
  · rw [e]
    exact (Function.update_of_ne (Nat.ne_of_gt h0) _ _).trans (h b h0 hb)

/-- **Nothing is ever written there.** -/
theorem low_survives (c : ℕ → Block) : Survives (Low c) where
  header := fun hm hsame => ⟨coherent_survives.header hm.1 hsame, hm.2⟩
  header_write := fun hm => ⟨coherent_survives.header_write hm.1, header_write_low hm.2⟩
  sync := fun {m} hm => by
    obtain ⟨hc, hlow⟩ := hm
    refine ⟨coherent_survives.sync hc, ?_⟩
    cases hd : m.fs.cachedBlockDirty with
    | false =>
      rw [fsync_clean hd]
      exact hlow
    | true =>
      rcases fsync_cases hd with e | e
      · rw [e]
        exact hlow
      · -- The data block is one of the log.
        have hge : 8000 ≤ (afterRead m).fs.header.block.toNat := hc.block_ge
        rw [e]
        refine header_write_low fun b h0 hb => ?_
        exact (Function.update_of_ne (by omega) _ _).trans (hlow b h0 hb)
  next := fun {m} hm hd => by
    refine ⟨next_block_coherent hm.1 hd, ?_⟩
    rw [(next_block_keeps m).2.2.1]
    exact hm.2
  load := fun {m} b hm => by
    have hc := block_ensure_coherent hm.1 b
    rcases block_ensure_cases m b with ⟨-, e⟩ | ⟨-, e⟩ | ⟨-, e⟩ <;> rw [e] at hc ⊢ <;>
      exact ⟨hc, hm.2⟩
  place := fun hm ho => ⟨coherent_survives.place hm.1 ho, hm.2⟩
  store := fun hm hc hlen hroom => ⟨coherent_survives.store hm.1 hc hlen hroom, hm.2⟩

theorem wiped_low {s m : Machine} {cfg : FileNumber → FileConfig} {draws : FileNumber → UInt16}
    (h : boot s cfg true draws = (true, m)) {b : ℕ} (h0 : 0 < b) :
    m.sd.blocks b = s.sd.blocks b := by
  rcases boot_new (.inl rfl) cfg draws with ⟨fs, e⟩ | e
  · rw [e] at h
    cases h
  · rw [e] at h
    obtain ⟨s1, s2, -, rfl, rfl, rfl⟩ := wipeHeaders_true h
    exact (Function.update_of_ne (Nat.ne_of_gt h0) _ _).trans
      (Function.update_of_ne (Nat.ne_of_gt h0) _ _)

/-! ## Which header it reads -/

/-- A wipe leaves the newest header in slot 1, whatever was written before. -/
theorem wiped_newest {s m : Machine} {cfg : FileNumber → FileConfig}
    {draws : FileNumber → UInt16} (h : boot s cfg true draws = (true, m)) : Newest m := by
  intro _
  rcases boot_new (.inl rfl) cfg draws with ⟨fs, e⟩ | e
  · rw [e] at h
    cases h
  · rw [e] at h
    obtain ⟨s1, s2, -, hs1, hs2, rfl⟩ := wipeHeaders_true h
    have hseal : Sealed s2.fs.header := by
      rw [hs2]
      exact sealHeader_sealed _
    have hzero : s2.sd.blocks 0 = s1.sd.blocks 0 := by rw [hs2]; rfl
    have hput : SlotPut s2.sd (afterWrite s2 0 (headerImage s2.fs (s1.sd.blocks 0))).sd
        s2.fs.headerIndex s2.fs.header := by
      rw [← hzero]
      exact slotPut_put s2.sd s2.fs.headerIndex hseal
    obtain ⟨hindex, hgen, hblock, hoffset⟩ : s2.fs.headerIndex = 1 ∧ s2.fs.header.generation = 1
        ∧ s2.fs.header.block = FKFS_FIRST_BLOCK ∧ s2.fs.header.offset = 0 := by
      rw [hs2, hs1]
      exact ⟨rfl, rfl, rfl, rfl⟩
    have hfirst : (slot s2.sd 0).generation = 0 := by
      rw [slot, hzero, hs1]
      exact congrArg fkfs_header_t.generation
        (slot_put _ zeroBlock 0 (sealHeader_sealed (wipeFirst _ draws))).1
    have hone : s2.fs.header.generation.toNat = 1 := by rw [hgen, UInt32.toNat_one]
    have hge : 8000 ≤ s2.fs.header.block.toNat := by rw [hblock]; simp
    have hlt : s2.fs.header.block.toNat < 4294967295 := by rw [hblock]; simp
    have ho : s2.fs.header.offset.toNat ≤ 512 := by rw [hoffset]; simp
    have hcount : ∀ ws : List Write, s2.fs.header.generation.toNat ≤ 1 + dataWrites ws := by
      intro ws
      omega
    refine ⟨⟨0, _, s2.fs, true⟩, ⟨⟨lastHeaderWrite_append _ _, hput.written, hput.written_valid,
      fun _ => ?_, hcount _, hge, hlt, ho⟩, coherent_of_fresh hge hlt ho ?_ ?_, le_refl _,
      fun hne => absurd rfl hne, hcount _⟩⟩
    · rw [hput.other]
      change (slot s2.sd (s2.fs.headerIndex + 1)).generation < s2.fs.header.generation
      rw [hindex, hgen]
      change (slot s2.sd 0).generation < 1
      rw [hfirst]
      decide
    · rw [hs2, hs1]
      rfl
    · rw [hs2, hs1]
      rfl

section Headers

variable {ov : Overrun} {x : History}

/-- The slot with the newer header is the one that holds it. -/
theorem newer_eq {sd : Card} {i : Fin 2}
    (h : (slot sd (i + 1)).generation < (slot sd i).generation) : newer sd = i := by
  rcases slot_cases 0 i with rfl | rfl
  · exact if_pos h
  · exact if_neg (UInt32.not_lt.mpr (UInt32.le_of_lt h))

/-- A flush is a step of a run. -/
theorem flushed {now : UInt32} {ok : Bool} {m : Machine} (h : Run ov x)
    (hflush : fkfs_flush x.machine now = (ok, m)) : Run ov { x with machine := m } := by
  have hrun := Run.flush h now
  rwa [hflush] at hrun

/-- **After a flush** the header of the newer slot is the one in RAM. -/
theorem flushed_header (h : Run ov x) {now : UInt32} {ok : Bool} {m : Machine}
    (hflush : fkfs_flush x.machine now = (ok, m)) (hcount : dataWrites m.writes < 4294967295) :
    slot m.sd (newer m.sd) = m.fs.header := by
  obtain ⟨recs, hh⟩ := run_holds h
  have hworks := hh.atRest.works
  obtain ⟨-, -, hdirty⟩ := touch_keeps hh.atRest.coherent now
  have htouch : m = (fkfs_touch x.machine now).2 := by
    have hm := congrArg Prod.snd hflush
    rw [flush_works hworks, fsync_clean (hdirty.trans hh.atRest.clean)] at hm
    exact hm.symm
  have hwipe : ∀ {s m cfg draws}, boot s cfg true draws = (true, m) → TornHeader.Twofold m := by
    intro s m cfg draws hb hcount
    obtain ⟨w, hw⟩ := wiped_newest hb hcount
    exact ⟨hw.coherent, TornHeader.wipe_both hb⟩
  have hvalid : ∀ i, slotValid m.sd i :=
    (run_rule TornHeader.twofold_survives hwipe (flushed h hflush) hcount).2
  have hold : dataWrites x.machine.writes < 4294967295 := by
    have hsame := header_write_counts (x.machine.setHeader { x.machine.fs.header with time := now })
    rw [htouch] at hcount
    exact lt_of_eq_of_lt hsame.symm hcount
  obtain ⟨w, hw⟩ := run_rule newest_survives wiped_newest h hold
  obtain ⟨w', hw', hfs⟩ := touch_written hworks hw now
  rw [← htouch] at hw' hfs
  have hwritten := hw'.card.written
  have holder := hw'.card.older (hvalid _)
  rw [hfs] at hwritten holder
  rw [← hwritten] at holder
  rw [newer_eq holder, hwritten]

end Headers

/-! ## A card on which a block was left -/

/-- A card on which block 8000 was left: it has one byte of file 0, and block 8001 505
bytes of file 1. -/
def leftHistory : History := (wipedHistory.appending 0 [1]).appending 1 (List.replicate 505 7)

/-- It is flushed. -/
def leftMachine : Machine := (fkfs_flush leftHistory.machine 0).2

set_option maxRecDepth 100000 in
theorem leftHistory_run : Run .reads leftHistory := by
  have hwipe : Run .reads wipedHistory :=
    .wipe (s := blankMachine 9000) (show Works (blankMachine 9000).sd from rfl)
      (fun _ _ => rfl) rfl (fun f => show (1 : UInt8) ≠ 0 by decide) (wipedMachine_boot 9000)
  have hfirst : Run .reads (wipedHistory.appending 0 [1]) :=
    .append hwipe 0 (by decide) (by decide +kernel) _ (by decide +kernel)
  exact .append hfirst 1 (by decide +kernel) (by decide +kernel) _ (by decide +kernel)

set_option maxRecDepth 100000 in
/-- The chain of block 8000 ends behind the one record. -/
theorem left_chain {o : ℕ} (h : Chain (leftMachine.sd.blocks 8000) 0 o) : o ≤ 8 := by
  have hstride : 0 + stride (leftMachine.sd.blocks 8000).mem 0 = 8 := by decide +kernel
  have hnone : ¬ Sized (leftMachine.sd.blocks 8000).mem 8 :=
    not_sized_of_zero (by decide +kernel) (by decide +kernel)
  rcases ReflTransGen.cases_head h with rfl | ⟨a, ⟨-, -, rfl⟩, h⟩
  · omega
  · rw [hstride] at h
    rcases ReflTransGen.cases_head h with rfl | ⟨b, ⟨-, hs, -⟩, -⟩
    · exact le_refl _
    · exact absurd hs hnone

theorem appending_low {c : ℕ → Block} {y : History} (h : Low c y.machine) (f : FileNumber)
    {data : List UInt8} (hlen : data.length ≤ 505) : Low c (y.appending f data).machine :=
  append_survives (low_survives c) .reads f hlen _ h

theorem left_low : Low (fun _ => zeroBlock) leftMachine := by
  obtain ⟨w, hw⟩ := wiped_newest (wipedMachine_boot 9000) (by decide +kernel)
  have hwiped : Low (fun _ => zeroBlock) (wipedMachine 9000) :=
    ⟨hw.coherent, fun b h0 _ => wiped_low (wipedMachine_boot 9000) h0⟩
  have hfirst : Low (fun _ => zeroBlock) (wipedHistory.appending 0 [1]).machine :=
    appending_low hwiped 0 (by decide)
  have hlen : (List.replicate 505 (7 : UInt8)).length ≤ 505 := le_of_eq List.length_replicate
  exact flush_rule (low_survives _) 0 (appending_low hfirst 1 hlen)

set_option maxRecDepth 100000 in
/-- The exporter gets along with an image of it. -/
theorem left_readable :
    Readable leftMachine.fs.header (imageOf leftMachine.sd 9000) leftMachine.sd where
  image := imageOf_spec _ _
  size := by decide +kernel
  small := by decide +kernel
  low := fun b h0 hb => by
    have hzero : leftMachine.sd.blocks b = zeroBlock := left_low.2 b h0 hb
    rw [hzero]
    decide +kernel
  phantom := fun b o hge hlt ho _ hchain => by
    have hblock : leftMachine.fs.header.block.toNat = 8001 := by decide +kernel
    obtain rfl : b = 8000 := by omega
    have := left_chain hchain
    omega

set_option maxRecDepth 100000 in
theorem left_flush : fkfs_flush leftHistory.machine 0
    = ((fkfs_flush leftHistory.machine 0).1, leftMachine) := Prod.ext rfl rfl

theorem left_serves : Serves ExporterWalk.freeHost (exportedHeader leftMachine.fs.header) :=
  ⟨fun _ _ => rfl, fun _ => rfl⟩

/-! ## The results -/

section Results

variable {ov : Overrun} {x : History} {now : UInt32} {ok : Bool} {m : Machine} {f : Image}
  {host : Host} {recs : List (ℕ × Rec)}

/-- The log as the card has it. -/
theorem Holds.onCard (hh : Tapes.Holds recs x) :
    BlocksTo x.machine.sd.blocks (writerPlace x.machine.fs.header) recs :=
  hh.blocks.below (below_of_eq (fun b _ => (view_clean hh.atRest.clean b).symm) _) (le_refl _)

/-- **What the exporter writes** of these records. -/
theorem main_takes (h : Run ov x) (hflush : fkfs_flush x.machine now = (ok, m))
    (hcount : dataWrites m.writes < 4294967295) (hr : Readable m.fs.header f m.sd)
    (hs : Serves host (exportedHeader m.fs.header))
    (hh : Tapes.Holds recs { x with machine := m }) :
    ∃ N e, (∀ n, N ≤ n → Exporter.main host f n = some (.ok e))
      ∧ ∀ g : FileNumber, written e (UInt8.ofNat g.val)
        = (mine m.fs.header g (takenBefore m.fs.header recs m.fs.header.block.toNat)).flatten := by
  have htails := run_tails (flushed h hflush)
  have hrest : AtRest m := hh.atRest
  have hge : 8000 ≤ m.fs.header.block.toNat := hrest.coherent.block_ge
  have hwalk := rounds_log hr (Holds.onCard hh)
    (fun b h1 h2 => view_clean hrest.clean b ▸ htails b h1 h2)
    (show 1 ≤ m.fs.header.block.toNat by omega) (le_refl _)
  have hread : ReadHeader f = .ok (exportedHeader m.fs.header) := by
    have hsize := hr.size
    rw [ReadHeader_eq hr.image (by omega), flushed_header h hflush hcount]
  have hend : ¬ (cursorAt m.fs.header.block.toNat 0).Block
      < (exportedHeader m.fs.header).Block := by
    rw [UInt32.lt_iff_toNat_lt, block_cursorAt m.fs.header.block.toNat_lt (by omega)]
    exact lt_irrefl _
  obtain ⟨N, e, hN, hw⟩ := main_writes hread hr.size hr.small hs hwalk hend
  refine ⟨N, e, hN, fun g => ?_⟩
  rw [hw]
  exact gathered_items (fun r hr => current_of_taken hr) g

/-- **What the exporter writes** of a card the device has flushed: of every block before
the writer's, what its records hold of the file before the first stale one. -/
theorem exporter_takes (h : Run ov x) (hflush : fkfs_flush x.machine now = (ok, m))
    (hcount : dataWrites m.writes < 4294967295) (hr : Readable m.fs.header f m.sd)
    (hs : Serves host (exportedHeader m.fs.header)) :
    ∃ recs N e, BlocksTo m.sd.blocks (writerPlace m.fs.header) recs
      ∧ (∀ g, held m.fs.header g recs = (x.tapes g).items)
      ∧ (∀ n, N ≤ n → Exporter.main host f n = some (.ok e))
      ∧ ∀ g : FileNumber, written e (UInt8.ofNat g.val)
        = (mine m.fs.header g (takenBefore m.fs.header recs m.fs.header.block.toNat)).flatten := by
  obtain ⟨recs, hh⟩ := run_holds (flushed h hflush)
  obtain ⟨N, e, hN, hw⟩ := main_takes h hflush hcount hr hs hh
  exact ⟨recs, N, e, Holds.onCard hh, hh.told, hN, hw⟩

set_option maxRecDepth 100000 in
theorem exporter_takes_left : ∃ recs N e,
    BlocksTo leftMachine.sd.blocks (writerPlace leftMachine.fs.header) recs
      ∧ (∀ g, held leftMachine.fs.header g recs = (leftHistory.tapes g).items)
      ∧ (∀ n, N ≤ n → Exporter.main ExporterWalk.freeHost (imageOf leftMachine.sd 9000) n
        = some (.ok e))
      ∧ ∀ g : FileNumber, written e (UInt8.ofNat g.val)
        = (mine leftMachine.fs.header g (takenBefore leftMachine.fs.header recs
          leftMachine.fs.header.block.toNat)).flatten :=
  exporter_takes leftHistory_run left_flush (by decide +kernel) left_readable left_serves

/-- What the records of a run hold of a file is what is on its tape. -/
theorem Holds.mine_eq (hh : Tapes.Holds recs x) (g : FileNumber) :
    mine x.machine.fs.header g (recs.map Prod.snd) = x.payloads g := by
  rw [← held_snd, hh.told g]
  rfl

/-- **The exporter invents nothing**: what it writes of a file are payloads of the file,
in order. On a card that has not been truncated they are all that lie before the
writer's block. -/
theorem exporter_complete (h : Run ov x) (hflush : fkfs_flush x.machine now = (ok, m))
    (hcount : dataWrites m.writes < 4294967295) (hr : Readable m.fs.header f m.sd)
    (hs : Serves host (exportedHeader m.fs.header)) :
    ∃ N e, (∀ n, N ≤ n → Exporter.main host f n = some (.ok e))
      ∧ ∀ g : FileNumber,
        (∃ ys : List (List UInt8), ys.Sublist (x.payloads g)
          ∧ written e (UInt8.ofNat g.val) = ys.flatten)
        ∧ ((∀ i, (x.tapes i).epoch = 0) → written e (UInt8.ofNat g.val)
          = (((x.tapes g).items.filter fun y => y.1 < m.fs.header.block.toNat).map
            Prod.snd).flatten) := by
  obtain ⟨recs, hh⟩ := run_holds (flushed h hflush)
  obtain ⟨N, e, hN, hw⟩ := main_takes h hflush hcount hr hs hh
  have hsorted := blocks_sorted (Holds.onCard hh)
  refine ⟨N, e, hN, fun g => ⟨⟨_, ?_, hw g⟩, fun hnone => ?_⟩⟩
  · have hpart := (takenBefore_sublist (h := m.fs.header) hsorted m.fs.header.block.toNat).trans
      (List.filter_sublist.map Prod.snd)
    have hall : mine m.fs.header g (recs.map Prod.snd) = x.payloads g := Holds.mine_eq hh g
    rw [← hall]
    exact hpart.flatMap _
  · -- Nothing is stale, so nothing is passed over.
    have hall : ∀ r ∈ recs, current m.fs.header r.2 = true := by
      intro r hr
      have hv : ((m.fs.header.files r.2.file).version - r.2.version).toNat
          ≤ (x.tapes r.2.file).epoch := hh.tells.versions r.2 (List.mem_map_of_mem hr)
      have h1 := (m.fs.header.files r.2.file).version.toNat_lt
      have h2 := r.2.version.toNat_lt
      rw [hnone, UInt16.toNat_sub] at hv
      refine beq_iff_eq.mpr (UInt16.toNat_inj.mp ?_)
      omega
    have hitems : held m.fs.header g recs = (x.tapes g).items := hh.told g
    rw [hw, takenBefore_all hsorted hall, ← held_snd, held_filter, hitems]

set_option maxRecDepth 100000 in
/-- What the exporter writes of a card on which a block was left: the byte of file 0, and
nothing of what lies in the writer's block. -/
theorem exporter_complete_left : ∃ N e,
    (∀ n, N ≤ n → Exporter.main ExporterWalk.freeHost (imageOf leftMachine.sd 9000) n
      = some (.ok e)) ∧ written e 0 = [1] ∧ written e 1 = [] := by
  obtain ⟨N, e, hN, hw⟩ :=
    exporter_complete leftHistory_run left_flush (by decide +kernel) left_readable left_serves
  have hnone : ∀ i, (leftHistory.tapes i).epoch = 0 := by decide +kernel
  refine ⟨N, e, hN, ?_, ?_⟩
  · exact ((hw 0).2 hnone).trans (by decide +kernel)
  · exact ((hw 1).2 hnone).trans (by decide +kernel)

end Results

end Fkfs.ExportRuns
