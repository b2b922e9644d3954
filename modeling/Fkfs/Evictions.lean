/-
Reading while a block is dirty.

`fs->buffer` is the writer's block until it is synced and the reader's block
whenever a call reads, and `fkfs_block_ensure` replaces a dirty block without
writing it. So an entry that was appended and not synced survives a call that reads
exactly if the call stays in the dirty block (`Quiet`).

One quiet call after another leaves an appended entry where it is (`Kept`), on
whatever iterators and however other files are truncated, until `fkfs_flush` puts it
on the card.
-/
import Fkfs.Upkeep

set_option autoImplicit false

namespace Fkfs.Evictions

open Bytes Relation
open Fkfs.Crc Fkfs.Layout Fkfs.Device Fkfs.Search Fkfs.Append Fkfs.Iterate Fkfs.Mount Fkfs.Cache
open Fkfs.Walk Fkfs.Writer Fkfs.Reader Fkfs.Run Fkfs.Slots Fkfs.Log Fkfs.CardLog Fkfs.Structure
open Fkfs.Marking Fkfs.Durable Fkfs.Upkeep

/-! ## An entry that stays -/

/-- Record `r` of file `f` lies at the place `p`, and the header in `fs` marks its
payload. -/
structure Kept (f : FileNumber) (r : Rec) (p : Place) (m : Machine) : Prop where
  works : Works m.sd
  coherent : Coherent m
  unwrapped : Unwrapped m.fs m.fs.header.block.toNat
  file : FileMarks (view m) m.fs.header f [r.data]
  block_ge : 8000 ≤ blockOf p
  stored : Stored (view m (blockOf p)) (offsetOf p) r

section Keeping

variable {ov : Overrun} {m m' : Machine} {f : FileNumber} {r : Rec} {p : Place}

theorem Kept.of_keeps (h : Kept f r p m) (hw : Works m'.sd) (hc : Coherent m')
    (hk : Keeps m m') : Kept f r p m' := by
  refine ⟨hw, hc, ?_, ?_, h.block_ge, ?_⟩
  · rw [hk.block]
    exact unwrapped_congr h.unwrapped hk.blocks
  · refine h.file.congr (below_of_eq hk.view _) ?_ (le_of_eq (Keeps.writer hk).symm)
    rw [hk.table]
    exact .refl _
  · rw [hk.view _ h.block_ge]
    exact h.stored

theorem Kept.loads (h : Kept f r p m) (hl : Loads m m') : Kept f r p m' :=
  h.of_keeps (by rw [hl.sd]; exact h.works) (hl.coherent h.coherent) hl.keeps

/-- The row of another file is replaced. -/
theorem Kept.setFile (h : Kept f r p m) {g : FileNumber} (hg : g ≠ f) (file : fkfs_file_t) :
    Kept f r p (m.setHeader (m.fs.header.setFile g file)) := by
  refine ⟨h.works, ⟨h.coherent.block_ge, h.coherent.block_lt, h.coherent.offset_le,
    h.coherent.dirty, h.coherent.clean⟩, h.unwrapped, ?_, h.block_ge, h.stored⟩
  refine h.file.congr (below_of_eq (fun _ _ => rfl) _) ?_ (le_refl _)
  rw [show ((m.setHeader (m.fs.header.setFile g file)).fs.header.files f) = m.fs.header.files f from
    Function.update_of_ne (Ne.symm hg) _ _]
  exact .refl _

end Keeping

/-! ## What reading leaves -/

section Running

variable {ov : Overrun} {kind : (FileNumber → FileConfig) → Prop} {x : Desk}

/-- A call that reads: an iteration, an ensure, or a truncation of a file other than `f`
at an iterator. -/
def ReadsBeside (f : FileNumber) : Call → Prop
  | .ensure _ => True
  | .iterate .. => True
  | .truncateAt iter .. => iter.token.file ≠ f
  | _ => False

/-- Any number of such calls, on any iterators. -/
inductive Readings (ov : Overrun) (careful : Prop) (f : FileNumber) (m : Machine) : Machine → Prop
  | refl : Readings ov careful f m m
  | tail {m' m'' : Machine} {c : Call} {ok : Bool} (hm : Readings ov careful f m m')
      (hc : ReadsBeside f c) (hquiet : careful → Quietly m' c)
      (h : perform ov m' c = some (ok, m'')) : Readings ov careful f m m''

/-- **Quiet reading** leaves an entry where it is. -/
theorem Readings.kept {f : FileNumber} {r : Rec} {p : Place} {m m' : Machine}
    (h : Readings ov True f m m') (hk : Kept f r p m) : Kept f r p m' := by
  induction h with
  | refl => exact hk
  | @tail m' m'' c ok hm hc hquiet h ih =>
    have hkept := ih
    have hq := hquiet trivial
    cases c with
    | ensure iter =>
      simp only [perform, Option.some.injEq] at h
      exact hkept.loads (ensure_loads hkept.works hq h)
    | iterate config am n iter =>
      simp only [perform, Option.map_eq_some_iff, Prod.mk.injEq] at h
      obtain ⟨⟨ok1, s1, iter1⟩, h, -, rfl⟩ := h
      exact hkept.loads (iterate_loads hkept.works hkept.coherent hq h).1
    | truncateAt iter scratch ams n =>
      simp only [perform, Option.map_eq_some_iff, Prod.mk.injEq] at h
      obtain ⟨s, h, -, rfl⟩ := h
      exact @truncateAt_quiet ov (Kept f r p) m' s iter scratch
        (fun hs => ⟨hs.works, hs.coherent⟩) (fun hs hl => hs.loads hl)
        (fun n hs => hs.setFile hc _) ams _ (hkept.setFile hc _) hq h
    | append | truncate | truncateAll | touch | flush => exact hc.elim

/-- **Unsynced writes survive quiet reading**: in every careful run, an entry whose append
returned true is on the card where the append put it once `fkfs_flush` has returned true,
whatever was read in between; and iterating its file delivers its payload, if the reader
comes to the end of every block it leaves. -/
theorem unsynced_survive (h : x.Run ov True kind) {f : FileNumber} {data : List UInt8}
    (hlen : data.length ≤ 505) {pasts : ℕ → Mem} {appended read flushed : Machine}
    (happend : fkfs_file_append ov pasts x.machine f data = (true, appended))
    (hwraps : appended.wraps = 0) (hread : Readings ov True f appended read) {now : UInt32}
    (hflush : fkfs_flush read now = (true, flushed)) :
    Stored (flushed.sd.blocks (appended.fs.header.files f).endBlock.toNat)
        ((appended.fs.header.files f).endOffset.toNat - (7 + data.length))
        (recordOf x.machine.fs.header f data)
      ∧ ∀ iter, Clear ov flushed (fkfs_file_iterator_create flushed.fs f iter).token →
        ∃ N, ∀ n, N ≤ n → ∀ polls : ℕ → Poll, (∀ k, (polls k).config.manualNext = 0) →
          ∃ xs s' iter', drain ov n polls n 0 flushed
              (fkfs_file_iterator_create flushed.fs f iter) = some (xs, s', iter') ∧ data ∈ xs := by
  obtain ⟨-, -, hstored⟩ := append_upholds h.holds.upholds hlen happend
  obtain ⟨hu, hge, hstored⟩ := hstored rfl
  have hs := hu.sound hwraps
  have hfile : FileMarks (view appended) appended.fs.header f [data] := by
    have hm := hs.ram.file f
    rw [Payloads.push, Function.update_self] at hm
    exact hm
  have hkept : Kept f (recordOf x.machine.fs.header f data)
      (place (appended.fs.header.files f).endBlock.toNat
        ((appended.fs.header.files f).endOffset.toNat - (7 + data.length))) read :=
    hread.kept ⟨hu.works, hu.coherent, hs.unwrapped, hfile, hge, hstored⟩
  obtain ⟨hc, hk, hclean⟩ := flush_keeps hkept.coherent now
  have hw := (flush_succeeds hkept.works now).2
  rw [hflush] at hc hk hclean hw
  have hflushed := hkept.of_keeps hw hc hk
  refine ⟨?_, fun iter hclear => ?_⟩
  · have hstored := hflushed.stored
    rw [view_clean (hclean rfl)] at hstored
    exact hstored
  · obtain ⟨N, hN⟩ := drain_marked hw hc hflushed.unwrapped (hclean rfl) hflushed.file iter hclear
    refine ⟨N, fun n hn polls hpolls => ?_⟩
    obtain ⟨xs, s', iter', he, hsub⟩ := hN n hn polls hpolls
    exact ⟨xs, s', iter', he, hsub.subset (List.mem_singleton.mpr rfl)⟩

end Running

/-- `data` appended to file 0, on a card of 9000 blocks without sync files. -/
def unsynced (s : Machine) (data : List UInt8) : Machine :=
  (fkfs_file_append .reads (fun _ _ => 0) s 0 data).2

/-- The first payload fills most of a block, so the second goes to the next one. -/
def firstUnsynced : Machine := unsynced (lazyWiped 9000) (List.replicate 250 7)

/-- Both payloads are appended; the block of the second is in the buffer, dirty. -/
def secondUnsynced : Machine := unsynced firstUnsynced (List.replicate 250 8)

/-- An iterator of file 0, at its first block. -/
def firstIterator : fkfs_file_iter_t :=
  fkfs_file_iterator_create secondUnsynced.fs 0 ⟨⟨0, 0, 0, 0, 0, 0⟩, 0, 0, 0⟩

/-- A call that iterates from there. -/
def firstIterate : Call := .iterate ⟨0, 0, 0⟩ ⟨0, fun _ => 0, fun _ _ => 0⟩ 3 firstIterator

/-- The machine it leaves. -/
def evicted : Machine := ((perform .reads secondUnsynced firstIterate).getD (true, secondUnsynced)).2

/-- Any configuration. -/
def anyKind (_ : FileNumber → FileConfig) : Prop := True

theorem lazyDesk_run (careful : Prop) : Desk.Run .reads careful anyKind ⟨lazyWiped 9000, []⟩ := by
  have hworks : Works (blankMachine 9000).sd := rfl
  exact .wipe rfl hworks rfl trivial (lazyWiped_boot 9000)

theorem desk_unsynced {careful : Prop} {x : Desk} (hx : x.Run .reads careful anyKind)
    {data : List UInt8} (hlen : data.length ≤ 505)
    (hok : (fkfs_file_append .reads (fun _ _ => 0) x.machine 0 data).1 = true)
    (h0 : (unsynced x.machine data).wraps = 0) :
    Desk.Run .reads careful anyKind ⟨unsynced x.machine data, x.tokens⟩ :=
  .call hx (c := .append 0 data fun _ _ => 0) hlen trivial (fun _ => trivial)
    (congrArg some (of_status hok)) h0

set_option maxRecDepth 100000 in
/-- The care is needed: one iteration from the start of the file evicts the dirty block
with the second payload, and no flush writes it any more. -/
theorem reading_loses_unsynced :
    ∃ x read flushed, Desk.Run .reads False anyKind x
      ∧ fkfs_file_append .reads (fun _ _ => 0) x.machine 0 (List.replicate 250 8)
        = (true, secondUnsynced)
      ∧ Readings .reads False 0 secondUnsynced read
      ∧ fkfs_flush read 9 = (true, flushed)
      ∧ ¬ Stored (flushed.sd.blocks (secondUnsynced.fs.header.files 0).endBlock.toNat)
        ((secondUnsynced.fs.header.files 0).endOffset.toNat - (7 + 250))
        (recordOf x.machine.fs.header 0 (List.replicate 250 8))
      ∧ (drain .reads 10 (fun _ => ⟨⟨0, 0, 0⟩, ⟨0, fun _ => 0, fun _ _ => 0⟩, fun _ => 0⟩) 10 0
          flushed (fkfs_file_iterator_create flushed.fs 0 ⟨⟨0, 0, 0, 0, 0, 0⟩, 0, 0, 0⟩)).map Prod.fst
        = some [List.replicate 250 7] := by
  have hfirst : Desk.Run .reads False anyKind ⟨firstUnsynced, []⟩ :=
    desk_unsynced (lazyDesk_run False) (by decide) (by decide +kernel) (by decide +kernel)
  have hsecond := of_status (show (fkfs_file_append .reads (fun _ _ => 0) firstUnsynced 0
    (List.replicate 250 8)).1 = true by decide +kernel)
  have hfound : (perform .reads secondUnsynced firstIterate).map Prod.fst = some true := by
    decide +kernel
  have hread : perform .reads secondUnsynced firstIterate = some (true, evicted) := by
    obtain ⟨⟨ok, m⟩, hm, rfl⟩ := Option.map_eq_some_iff.mp hfound
    rw [evicted, hm]
    rfl
  have hflush := of_status (show (fkfs_flush evicted 9).1 = true by decide +kernel)
  refine ⟨_, _, _, hfirst, hsecond,
    .tail .refl (c := firstIterate) trivial (fun h => h.elim) hread, hflush, fun hs => ?_, ?_⟩
  · exact not_sized_of_zero (by decide +kernel) (by decide +kernel) hs.sized
  · decide +kernel

/-- An iterator of file 0 at the second payload. -/
def secondIterator : fkfs_file_iter_t := moveTo firstIterator 8001 0

set_option maxRecDepth 100000 in
/-- The second payload survives a quiet call: its block is the one in the buffer. -/
theorem unsynced_survive_quiet :
    Stored ((fkfs_flush secondUnsynced 9).2.sd.blocks
        (secondUnsynced.fs.header.files 0).endBlock.toNat)
      ((secondUnsynced.fs.header.files 0).endOffset.toNat - (7 + (List.replicate 250 8).length))
      (recordOf firstUnsynced.fs.header 0 (List.replicate 250 8)) := by
  have hfirst : Desk.Run .reads True anyKind ⟨firstUnsynced, []⟩ :=
    desk_unsynced (lazyDesk_run True) (by decide) (by decide +kernel) (by decide +kernel)
  have hsecond := of_status (show (fkfs_file_append .reads (fun _ _ => 0) firstUnsynced 0
    (List.replicate 250 8)).1 = true by decide +kernel)
  have hcached : secondUnsynced.fs.cachedBlockNumber = secondIterator.token.block := by
    decide +kernel
  have hread : perform .reads secondUnsynced (.ensure secondIterator)
      = some (true, secondUnsynced) := congrArg some (if_pos hcached)
  have hreadings : Readings .reads True 0 secondUnsynced secondUnsynced :=
    .tail .refl (c := .ensure secondIterator) trivial (fun _ _ => hcached) hread
  have hflush := of_status (show (fkfs_flush secondUnsynced 9).1 = true by decide +kernel)
  exact (unsynced_survive hfirst (by decide) hsecond (by decide +kernel) hreadings hflush).1

end Fkfs.Evictions
