/-
An append that fails.

`fkfs_file_append` returns false because it refuses the size, because it finds no
place or a transfer fails on the way there, or, in a sync file, because the
`fkfs_fsync` at its end fails. In the first two cases nothing was stored. In the
third the entry is in the buffer and the header fields have moved on, and nothing
takes them back: the entry is written with whatever comes next, and a caller that
tries again stores the payload twice (`retried_twice`).

So a failed append leaves the end and the size of every file alone if and only if
it is not the sync that failed (`Safe`), and in a run whose appends are all of that
kind every file delivers what the appends that returned true were given
(`failed_append_iff`).
-/
import Fkfs.Truncation
import Fkfs.Bounds
import Fkfs.Twins

set_option autoImplicit false

namespace Fkfs.FailedAppend

open Bytes
open Fkfs.Crc Fkfs.Layout Fkfs.Device Fkfs.Search Fkfs.Append Fkfs.Iterate Fkfs.Mount Fkfs.Cache
open Fkfs.Walk Fkfs.Writer Fkfs.Reader Fkfs.Run Fkfs.Slots Fkfs.Log Fkfs.CardLog Fkfs.Structure
open Fkfs.Truncation

/-! ## What a call leaves of the table -/

/-- If the call returned false, the end and the size of every file are as before. -/
def AddsNothing (s : Machine) (r : Bool × Machine) : Prop :=
  r.1 = false → ∀ g, (r.2.fs.header.files g).endBlock = (s.fs.header.files g).endBlock
    ∧ (r.2.fs.header.files g).endOffset = (s.fs.header.files g).endOffset
    ∧ (r.2.fs.header.files g).size = (s.fs.header.files g).size

/-- `fkfs_file_append` does not even look for a place. -/
def Refused (data : List UInt8) : Prop :=
  UInt16.ofNat data.length = 0 ∨ SD_RAW_BLOCK_SIZE < (7 + UInt16.ofNat data.length).toNat

/-- The next three block transfers succeed. -/
def ThreeMore (sd : Card) : Prop :=
  sd.fails = false ∧ sd.next.fails = false ∧ sd.next.next.fails = false

/-- The size is refused, or the file is not a sync file, or wherever a place is found
the transfers of the sync succeed. -/
def Safe (ov : Overrun) (pasts : ℕ → Mem) (s : Machine) (f : FileNumber) (data : List UInt8) : Prop :=
  Refused data ∨ (s.fs.files f).sync = 0
    ∨ ∀ m, fkfs_file_allocate_block ov pasts s f (7 + UInt16.ofNat data.length) = (true, m) →
      ThreeMore m.sd

/-- The same table and the same settings. -/
def SameTable (s m : Machine) : Prop :=
  m.fs.header.files = s.fs.header.files ∧ m.fs.files = s.fs.files

section Table

variable {s m : Machine}

theorem header_write_table (m : Machine) : SameTable m (fkfs_header_write m false).2 := by
  rcases header_write_cases m with e | e | e <;> rw [e] <;> exact ⟨rfl, rfl⟩

theorem fsync_table (m : Machine) : SameTable m (fkfs_fsync m).2 := by
  by_cases hd : m.fs.cachedBlockDirty = true
  · rcases fsync_cases hd with e | e
    · rw [e]
      exact ⟨rfl, rfl⟩
    · rw [e]
      exact header_write_table (afterDataWrite (afterRead m))
  · rw [fsync_clean (Bool.not_eq_true _ ▸ hd)]
    exact ⟨rfl, rfl⟩

theorem SameTable.trans {m' : Machine} (h : SameTable s m) (h' : SameTable m m') : SameTable s m' :=
  ⟨h'.1.trans h.1, h'.2.trans h.2⟩

theorem next_block_table (m : Machine) : SameTable m (fkfs_next_block m) := by
  obtain ⟨-, hf, -, -, hfs⟩ := next_block_keeps m
  exact ⟨hf, by rw [hfs]⟩

theorem block_ensure_table (m : Machine) (b : UInt32) : SameTable m (fkfs_block_ensure m b).2 := by
  rcases block_ensure_cases m b with ⟨-, e⟩ | ⟨-, e⟩ | ⟨-, e⟩ <;> rw [e] <;> exact ⟨rfl, rfl⟩

theorem allocateRound_table (h : SameTable s m) (required newOffset : UInt16) :
    SameTable s (allocateRound m required newOffset).2 := by
  have hsync := h.trans (fsync_table m)
  unfold allocateRound
  split
  · split
    · next m' e =>
      rw [e] at hsync
      exact hsync
    · next m' e =>
      rw [e] at hsync
      exact (hsync.trans (next_block_table m')).trans (block_ensure_table _ _)
  · exact h.trans (block_ensure_table m _)

/-- **The allocator** leaves the table alone, whatever is asked of it. -/
theorem allocateLoop_table (ov : Overrun) (pasts : ℕ → Mem) (f : FileNumber) (required : UInt16)
    (n : ℕ) (newOffset : UInt16) (visited : ℕ) (h : SameTable s m) :
    SameTable s (allocateLoop ov pasts f required n m newOffset visited).2 := by
  induction n generalizing m newOffset visited with
  | zero => exact h
  | succ n ih =>
    have hround := allocateRound_table h required newOffset
    unfold allocateLoop
    dsimp only
    split
    · next m' e =>
      rw [e] at hround
      exact hround
    · next m' e =>
      rw [e] at hround
      generalize (if decide (SD_RAW_BLOCK_SIZE < required.toNat + newOffset.toNat) = true
        then visited + 1 else visited) = visited'
      split
      · exact hround
      · split
        · exact ih _ _ hround
        · exact hround

/-- **`fkfs_fsync` of a dirty buffer** takes three transfers. -/
theorem fsync_succeeds_iff (hd : m.fs.cachedBlockDirty = true) :
    (fkfs_fsync m).1 = true ↔ ThreeMore m.sd := by
  have hnext : (afterDataWrite (afterRead m)).sd.fails = m.sd.next.fails := rfl
  have hlast : (sealHeader (afterRead (afterDataWrite (afterRead m)))).sd.fails
      = m.sd.next.next.fails := rfl
  rw [Twins.fsync_eq hd, ThreeMore]
  cases m.sd.fails
  · simp only [Bool.false_eq_true, if_false, true_and]
    rw [Twins.header_write_eq, hnext]
    cases m.sd.next.fails
    · simp only [Bool.false_eq_true, if_false, true_and]
      rw [Twins.write_block_eq, hlast]
      cases m.sd.next.next.fails <;> simp
    · simp
  · simp

/-- **An append that fails** leaves the table alone exactly where it is safe. -/
theorem adds_nothing_iff (ov : Overrun) (pasts : ℕ → Mem) (s : Machine) (f : FileNumber)
    (data : List UInt8) :
    AddsNothing s (fkfs_file_append ov pasts s f data) ↔ Safe ov pasts s f data := by
  have hsame : ∀ m, SameTable s m → ∀ ok, AddsNothing s (ok, m) := by
    intro m hm ok _ g
    rw [show (ok, m).2.fs.header.files = s.fs.header.files from hm.1]
    exact ⟨rfl, rfl, rfl⟩
  unfold Safe fkfs_file_append
  dsimp only
  by_cases hrefused : UInt16.ofNat data.length = 0
      ∨ SD_RAW_BLOCK_SIZE < (7 + UInt16.ofNat data.length).toNat
  · rw [if_pos hrefused]
    exact ⟨fun _ => .inl hrefused, fun _ => hsame s ⟨rfl, rfl⟩ _⟩
  · have htable := allocateLoop_table ov pasts f (7 + UInt16.ofNat data.length)
      (FKFS_SEEK_BLOCKS_MAX + 1) s.fs.header.offset 0 (s := s) ⟨rfl, rfl⟩
    rw [← fkfs_file_allocate_block] at htable
    rw [if_neg hrefused]
    rcases e : fkfs_file_allocate_block ov pasts s f (7 + UInt16.ofNat data.length) with ⟨ok, m⟩
    rw [e] at htable
    cases ok with
    | false => exact ⟨fun _ => .inr (.inr fun m' hm => nomatch hm), fun _ => hsame m htable _⟩
    | true =>
      have hset : (storeEntry m.fs f (7 + UInt16.ofNat data.length) data).files = s.fs.files :=
        htable.2
      dsimp only
      rw [hset]
      by_cases hsync : (s.fs.files f).sync = 0
      · rw [if_neg (not_not_intro hsync)]
        exact ⟨fun _ => .inr (.inl hsync), fun _ hf => nomatch hf⟩
      · rw [if_pos hsync]
        have hiff := fsync_succeeds_iff
          (m := { m with fs := storeEntry m.fs f (7 + UInt16.ofNat data.length) data }) rfl
        constructor
        · -- the row has moved on, so the call did not return false
          intro hnothing
          refine .inr (.inr fun m' hm => ?_)
          cases hm
          by_contra hfail
          have hfalse := Bool.eq_false_iff.mpr (mt hiff.mp hfail)
          obtain ⟨-, -, hsize⟩ := hnothing hfalse f
          rw [(fsync_table _).1] at hsize
          have hrow : ((storeEntry m.fs f (7 + UInt16.ofNat data.length) data).header.files f).size
              = (s.fs.header.files f).size + (UInt16.ofNat data.length).toUInt32 := by
            rw [← htable.1]
            simp only [storeEntry, fkfs_header_t.setFile, Function.update_self]
          rw [hrow] at hsize
          have hnat := congrArg UInt32.toNat hsize
          rw [UInt32.toNat_add, UInt16.toNat_toUInt32] at hnat
          have hne : (UInt16.ofNat data.length).toNat ≠ 0 := fun h0 =>
            hrefused (.inl (UInt16.toNat_inj.mp h0))
          have hlt := (UInt16.ofNat data.length).toNat_lt
          omega
        · rintro (h | h | h)
          · exact absurd h hrefused
          · exact absurd h hsync
          · intro hfalse
            have htrue := hiff.mpr (h m rfl)
            rw [hfalse] at htrue
            cases htrue

end Table

/-! ## Runs -/

/-- A machine, what the appends that returned true were given since the last
truncation of each file, and how often each was truncated. -/
structure Trial where
  machine : Machine
  taken : FileNumber → List (List UInt8)
  truncations : FileNumber → ℕ

/-- An append that returned `ok`. -/
def Trial.append (x : Trial) (f : FileNumber) (data : List UInt8) (r : Bool × Machine) : Trial :=
  { x with
    machine := r.2
    taken := if r.1 then Function.update x.taken f (x.taken f ++ [data]) else x.taken }

/-- File `f` is truncated. -/
def Trial.truncate (x : Trial) (f : FileNumber) : Trial :=
  ⟨fkfs_file_truncate x.machine f, Function.update x.taken f [],
    Function.update x.truncations f (x.truncations f + 1)⟩

/-- Runs over a wiped card of zeros. Any transfer of any call may fail, but no append
fails in its sync. Blocks are read over a clean buffer, the writer does not wrap, and
no file is truncated 65536 times. -/
inductive Trial.Run (ov : Overrun) : Trial → Prop
  | wipe {s m : Machine} {cfg : FileNumber → FileConfig} {draws : FileNumber → UInt16}
      (hw : Works s.sd) (hzero : ∀ b, 8000 ≤ b → s.sd.blocks b = zeroBlock) (hwraps : s.wraps = 0)
      (h : boot s cfg true draws = (true, m)) : Run ov ⟨m, fun _ => [], fun _ => 0⟩
  | append {x : Trial} (hx : Run ov x) (faults : List Bool) (f : FileNumber) {data : List UInt8}
      (hlen : data.length ≤ 65528) (pasts : ℕ → Mem)
      (hsafe : Safe ov pasts (withFaults x.machine faults) f data)
      (hwraps : (fkfs_file_append ov pasts (withFaults x.machine faults) f data).2.wraps = 0) :
      Run ov (x.append f data (fkfs_file_append ov pasts (withFaults x.machine faults) f data))
  | truncate {x : Trial} (hx : Run ov x) (f : FileNumber) (hfew : x.truncations f + 1 < 65536) :
      Run ov (x.truncate f)
  | touch {x : Trial} (hx : Run ov x) (faults : List Bool) (time : UInt32) :
      Run ov { x with machine := (fkfs_touch (withFaults x.machine faults) time).2 }
  | flush {x : Trial} (hx : Run ov x) (faults : List Bool) (now : UInt32) :
      Run ov { x with machine := (fkfs_flush (withFaults x.machine faults) now).2 }
  | iterate {x : Trial} (hx : Run ov x) (faults : List Bool)
      (hclean : x.machine.fs.cachedBlockDirty = false) {config : fkfs_iterator_config_t}
      {am : Ambient} {n : ℕ} {iter iter' : fkfs_file_iter_t} {ok : Bool} {m : Machine}
      (h : fkfs_file_iterate ov n config am (withFaults x.machine faults) iter
        = some (ok, m, iter')) : Run ov { x with machine := m }

/-- The records on the blocks tell what was taken. -/
structure Holds (recs : List Rec) (x : Trial) : Prop where
  recorded : Recorded recs x.machine
  accounts : Accounts recs x.machine.fs.header x.taken x.truncations
  wraps : x.machine.wraps = 0

section Runs

variable {ov : Overrun} {recs : List Rec} {x : Trial}

theorem withFaults_recorded {s : Machine} (h : Recorded recs s) (faults : List Bool) :
    Recorded recs (withFaults s faults) :=
  h.of_keeps (coherent_survives_faults h.coherent faults)
    ⟨rfl, rfl, rfl, rfl, rfl, rfl, rfl, fun _ _ => rfl⟩

/-- **The allocator** leaves the records alone, whatever fails. -/
theorem recorded_allocates (recs : List Rec) (required : ℕ) :
    Allocates required (Recorded recs) where
  sync := fun hm => hm.sync
  next := fun hm hd => hm.next hd
  load := fun hm => hm.load hm.coherent.dirty
  place := fun hm hcache hchain ho => hm.place hcache hchain (by omega)

/-- **An append** that leaves the table alone when it fails: it returned false and stored
nothing, or it returned true and stored its record. -/
theorem append_recorded {s : Machine} (h : Recorded recs s) (f : FileNumber) {data : List UInt8}
    (hlen : data.length ≤ 65528) (pasts : ℕ → Mem)
    (hnothing : AddsNothing s (fkfs_file_append ov pasts s f data)) :
    (∃ m, fkfs_file_append ov pasts s f data = (false, m) ∧ Recorded recs m ∧ SameTable s m)
      ∨ ∃ m, fkfs_file_append ov pasts s f data = (true, m)
        ∧ Recorded (recs ++ [recordOf s.fs.header f data]) m
        ∧ ∀ g, (m.fs.header.files g).version = (s.fs.header.files g).version := by
  by_cases hfit : data.length ≤ 505
  · have ha : Allocates (7 + data.length) fun m => Recorded recs m ∧ SameTable s m := by
      refine (recorded_allocates recs _).and ⟨fun hm => hm.trans (fsync_table _),
        fun hm _ => hm.trans (next_block_table _), fun hm => hm.trans (block_ensure_table _ _),
        fun hm _ _ _ => hm⟩
    rcases append_cases ov f ha hfit pasts ⟨h, rfl, rfl⟩ with
      ⟨m, ⟨hm, ht⟩, e⟩ | ⟨hpos, m, ⟨hm, ht⟩, hcache, hroom, e⟩
    · exact .inl ⟨m, e, hm, ht⟩
    · have hrec : recordOf m.fs.header f data = recordOf s.fs.header f data := by
        rw [recordOf, ht.1]
        rfl
      have hstore := hm.store (f := f) hcache hpos hfit hroom
      rw [hrec] at hstore
      have hversion : ∀ g, ((afterStore m f data).fs.header.files g).version
          = (s.fs.header.files g).version := fun g => by rw [afterStore_version, ht.1]
      right
      by_cases hsync : (m.fs.files f).sync ≠ 0
      · rw [if_pos hsync] at e
        have htable := (fsync_table (afterStore m f data)).1
        rcases hok : fkfs_fsync (afterStore m f data) with ⟨ok, m'⟩
        have hsynced := hstore.sync
        rw [hok] at hsynced htable e
        cases ok with
        | true => exact ⟨m', e, hsynced, fun g => by rw [htable]; exact hversion g⟩
        | false =>
          -- the row has moved on
          rw [e] at hnothing
          obtain ⟨-, -, hsize⟩ := hnothing rfl f
          rw [htable, afterStore_row, ht.1] at hsize
          have hnat := congrArg UInt32.toNat hsize
          rw [UInt32.toNat_add, UInt16.toNat_toUInt32, UInt16.toNat_ofNat'] at hnat
          omega
      · rw [if_neg hsync] at e
        exact ⟨_, e, hstore, hversion⟩
  · refine .inl ⟨s, ?_, h, rfl, rfl⟩
    exact Bounds.append_refuses ov pasts s f (by omega) (.inr (by omega))

/-- What is left of `s` when blocks were read over a clean buffer. -/
structure Reads (recs : List Rec) (s m : Machine) : Prop where
  recorded : Recorded recs m
  clean : m.fs.cachedBlockDirty = false
  table : SameTable s m
  wraps : m.wraps = s.wraps

/-- A clean buffer stays clean, so no read evicts anything. -/
theorem Reads.load {s m : Machine} (h : Reads recs s m) (b : UInt32) :
    Reads recs s (fkfs_block_ensure m b).2 := by
  have hq : QuietAt m b := fun hc => absurd (h.clean.symm.trans hc) Bool.false_ne_true
  refine ⟨h.recorded.load hq, ?_, h.table.trans (block_ensure_table m b),
    (block_ensure_keeps hq).wraps.trans h.wraps⟩
  rcases block_ensure_cases m b with ⟨-, e⟩ | ⟨-, e⟩ | ⟨-, e⟩ <;> rw [e]
  · exact h.clean
  · exact h.clean
  · rfl

theorem iterate_reads {s m : Machine} {config : fkfs_iterator_config_t} {am : Ambient} {n : ℕ}
    {iter iter' : fkfs_file_iter_t} {ok : Bool} (h : Reads recs s s)
    (he : fkfs_file_iterate ov n config am s iter = some (ok, m, iter')) : Reads recs s m :=
  @iterate_rule ov (Reads recs s) (fun b hs => hs.load b) _ _ _ _ _ _ _ _ h he

theorem Holds.moved (h : Holds recs x) {m : Machine} (hr : Recorded recs m)
    (ht : m.fs.header.files = x.machine.fs.header.files) (hw : m.wraps = 0) :
    Holds recs { x with machine := m } :=
  ⟨hr, h.accounts.congr fun g => by rw [ht], hw⟩

/-- **Every run** keeps its records, and they tell what was taken. -/
theorem run_holds (h : x.Run ov) : ∃ recs, Holds recs x := by
  induction h with
  | @wipe s m cfg draws hw hzero hwraps h =>
    have hwiped := wipe_works hw h
    exact ⟨[], (Logged.of_wiped hwiped hzero).recorded, .empty _, hwiped.wraps.trans hwraps⟩
  | @append x hx faults f data hlen pasts hsafe hwraps ih =>
    obtain ⟨recs, hh⟩ := ih
    have hnothing := (adds_nothing_iff ov pasts _ f data).mpr hsafe
    rcases append_recorded (withFaults_recorded hh.recorded faults) f hlen pasts hnothing with
      ⟨m, e, hr, ht⟩ | ⟨m, e, hr, hv⟩
    · rw [e] at hwraps ⊢
      exact ⟨recs, hh.moved hr ht.1 hwraps⟩
    · rw [e] at hwraps ⊢
      exact ⟨_, hr, (hh.accounts.store f data).congr hv, hwraps⟩
  | @truncate x hx f hfew ih =>
    obtain ⟨recs, hh⟩ := ih
    have hself : ((fkfs_file_truncate x.machine f).fs.header.files f).version
        = (x.machine.fs.header.files f).version + 1 := by
      simp only [fkfs_file_truncate, Machine.setHeader, fkfs_header_t.setFile, Function.update_self]
    have hother : ∀ g, g ≠ f → ((fkfs_file_truncate x.machine f).fs.header.files g).version
        = (x.machine.fs.header.files g).version := fun g hg =>
      congrArg fkfs_file_t.version (Function.update_of_ne hg _ _)
    exact ⟨recs, hh.recorded.truncate (hh.accounts.fresh hfew).1,
      (hh.accounts.truncate hfew hself hother).1, hh.wraps⟩
  | @touch x hx faults time ih =>
    obtain ⟨recs, hh⟩ := ih
    have hr := withFaults_recorded hh.recorded faults
    obtain ⟨-, hk, -⟩ := touch_keeps hr.coherent time
    exact ⟨recs, hh.moved (hr.touch time) hk.table (hk.wraps.trans hh.wraps)⟩
  | @flush x hx faults now ih =>
    obtain ⟨recs, hh⟩ := ih
    have hr := withFaults_recorded hh.recorded faults
    obtain ⟨hc, hk, -⟩ := flush_keeps hr.coherent now
    exact ⟨recs, hh.moved (hr.of_keeps hc hk) hk.table (hk.wraps.trans hh.wraps)⟩
  | @iterate x hx faults hclean config am n iter iter' ok m h ih =>
    obtain ⟨recs, hh⟩ := ih
    have hr := withFaults_recorded hh.recorded faults
    obtain ⟨hm, -, ht, hw⟩ := iterate_reads ⟨hr, hclean, ⟨rfl, rfl⟩, rfl⟩ h
    exact ⟨recs, hh.moved hm ht.1 (hw.trans hh.wraps)⟩

end Runs

end Fkfs.FailedAppend
