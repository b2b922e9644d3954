/-
When `fkfs_file_iterate` returns.

Without a budget the loop of `fkfs_file_iterate` ends when it finds data, when a
read fails, or when it passes the end its token names. The walk itself never
ends: behind the last data block it goes on at `FKFS_FIRST_BLOCK` (`advance`). The
end is looked for before the wrap, at block `numberOfBlocks - 2`; a token whose
end is behind the start of that block has an end the walk never passes, and then
only a good entry of the file stops it (`iterate_returns_iff`).

All of this is in the idealised reading, where an entry position above 505 fails
the size test.
-/
import Mathlib.Logic.Function.Iterate
import Fkfs.Run
import Fkfs.Structure

set_option autoImplicit false

namespace Fkfs.Termination

open Bytes
open Fkfs.Crc Fkfs.Layout Fkfs.Device Fkfs.Search Fkfs.Append Fkfs.Iterate Fkfs.Mount Fkfs.Cache
open Fkfs.Walk Fkfs.Writer Fkfs.Reader Fkfs.Run Fkfs.Slots Fkfs.Structure

/-! ## The walk -/

/-- A position of the walk, with the content of the block as it is seen there. -/
structure Spot where
  blk : Block
  block : UInt32
  offset : UInt16

/-- What `fkfs_block_ensure` leaves in the buffer for block `b`. -/
def seen (s : Machine) (b : UInt32) : Block :=
  if s.fs.cachedBlockNumber = b then s.fs.buffer else s.sd.blocks b.toNat

/-- Where the walk from a token starts. -/
def Spot.start (s : Machine) (iter : fkfs_file_iter_t) : Spot :=
  ⟨seen s iter.token.block, iter.token.block, iter.token.offset⟩

instance (m : Mem) (o : ℕ) : Decidable (Sized m o) := decidable_of_iff _ (sized_iff m o).symm

/-- The next block of the walk, around the end of the card. -/
def following (fs : fkfs_t) (b : UInt32) : UInt32 :=
  if wrapsAt fs (b + 1) then FKFS_FIRST_BLOCK else b + 1

/-- One step of the walk: over an entry header that passes the size test, or to
the start of the next block, which is read from the card unless it is the one in
the buffer. -/
def advance (s : Machine) (p : Spot) : Spot :=
  if p.offset.toNat ≤ 505 ∧ Sized p.blk.mem p.offset.toNat then
    { p with offset := p.offset + ((entryAt p.blk.mem p.offset.toNat).available + 7) }
  else
    let b := following s.fs p.block
    ⟨if p.block = b then p.blk else s.sd.blocks b.toNat, b, 0⟩

/-- `fs` with another block in its buffer. -/
def withBuffer (fs : fkfs_t) (blk : Block) : fkfs_t := { fs with buffer := blk }

/-- There is good data of the file, with `past` behind `fs->files`. -/
def HitAt (fs : fkfs_t) (f : FileNumber) (past : Mem) (p : Spot) : Prop :=
  fkfs_block_check .stops past (withBuffer fs p.blk) p.offset.toNat = .good
    ∧ (entryAt (memory p.blk fs.files past) p.offset.toNat).file = UInt8.ofNat f

/-- There is good data of the file, whatever lies behind `fs->files`. -/
def Hit (fs : fkfs_t) (f : FileNumber) (p : Spot) : Prop := ∀ past, HitAt fs f past p

/-! ## One round -/

/-- The loop stands at the spot `p` of the walk over the machine `s`. -/
structure Follows (s : Machine) (f : FileNumber) (last : Place) (m : Machine)
    (iter : fkfs_file_iter_t) (p : Spot) : Prop where
  header : m.fs.header = s.fs.header
  settings : m.fs.files = s.fs.files
  number : m.fs.numberOfBlocks = s.fs.numberOfBlocks
  blocks : m.sd.blocks = s.sd.blocks
  file : iter.token.file = f
  last : lastPlace iter = last
  block : iter.token.block = p.block
  offset : iter.token.offset = p.offset
  sees : seen m p.block = p.blk
  inside : p.block.toNat < s.fs.numberOfBlocks.toNat - 2

section Round

variable {s m : Machine} {f : FileNumber} {last : Place} {iter : fkfs_file_iter_t} {p : Spot}
  {config : fkfs_iterator_config_t} (am : Ambient)

/-- The block of the spot, once it is in the buffer. -/
structure Loaded (s m m1 : Machine) (p : Spot) : Prop where
  header : m1.fs.header = s.fs.header
  settings : m1.fs.files = s.fs.files
  number : m1.fs.numberOfBlocks = s.fs.numberOfBlocks
  blocks : m1.sd.blocks = s.sd.blocks
  cached : m1.fs.cachedBlockNumber = p.block
  buffer : m1.fs.buffer = p.blk
  works : Works m.sd → Works m1.sd

theorem Follows.ensure (h : Follows s f last m iter p) :
    (¬ Works m.sd ∧ (fkfs_block_ensure m iter.token.block).1 = false)
      ∨ ∃ m1, fkfs_block_ensure m iter.token.block = (true, m1) ∧ Loaded s m m1 p := by
  have hsees := h.sees
  unfold seen at hsees
  rw [h.block]
  rcases block_ensure_cases m p.block with ⟨hc, e⟩ | ⟨hc, e⟩ | ⟨hc, e⟩
  · rw [if_pos hc] at hsees
    exact .inr ⟨m, e, h.header, h.settings, h.number, h.blocks, hc, hsees, id⟩
  · left
    rw [e]
    refine ⟨fun hw => ?_, rfl⟩
    rw [block_ensure_works hw] at e
    cases e
  · rw [if_neg hc] at hsees
    refine .inr ⟨_, e, h.header, h.settings, h.number, h.blocks, rfl, hsees, fun hw => ?_⟩
    rw [afterRead_works hw]
    exact hw

/-- The spot behind the block: its number, before the wrap is looked at, is at
most the block where writer and reader wrap around. -/
theorem Follows.succ (h : Follows s f last m iter p) :
    (p.block + 1).toNat = p.block.toNat + 1 := by
  have h1 := h.inside
  have h2 := s.fs.numberOfBlocks.toNat_lt
  exact succ_toNat (by omega)

/-- A block that is not past the last data block is not one to wrap at. -/
theorem following_eq {fs : fkfs_t} {b : UInt32} (hN : 8002 < fs.numberOfBlocks.toNat)
    (hb : (b + 1).toNat < fs.numberOfBlocks.toNat - 2) : following fs b = b + 1 := by
  have hlt := fs.numberOfBlocks.toNat_lt
  unfold following wrapsAt
  rw [if_neg]
  simp only [Bool.or_eq_true, beq_iff_eq]
  rintro (hc | hc)
  · rw [hc, last_block_toNat hN] at hb
    omega
  · rw [hc] at hb
    simp only [FKFS_TESTING_LAST_BLOCK, UINT32_MAX_toNat] at hb
    omega

/-- The next block of the walk is a block before the end. -/
theorem following_inside {fs : fkfs_t} {b : UInt32} (hN : 8002 < fs.numberOfBlocks.toNat)
    (hb : b.toNat < fs.numberOfBlocks.toNat - 2) :
    (following fs b).toNat < fs.numberOfBlocks.toNat - 2 := by
  have hlt := fs.numberOfBlocks.toNat_lt
  have hs : (b + 1).toNat = b.toNat + 1 := succ_toNat (by omega)
  rcases Nat.lt_or_ge (b + 1).toNat (fs.numberOfBlocks.toNat - 2) with h | h
  · rw [following_eq hN h]
    exact h
  · have hw : wrapsAt fs (b + 1) = true := by
      have he : b + 1 = fs.numberOfBlocks - 2 := by
        apply UInt32.toNat_inj.mp
        rw [last_block_toNat hN]
        omega
      unfold wrapsAt
      rw [he, beq_self_eq_true, Bool.true_or]
    rw [following, if_pos hw, FKFS_FIRST_BLOCK_toNat]
    omega

/-- The check at the spot, made on the block that was loaded. -/
theorem Loaded.check {m1 : Machine} (hl : Loaded s m m1 p) (past : Mem) :
    fkfs_block_check .stops past m1.fs p.offset.toNat
        = fkfs_block_check .stops past (withBuffer s.fs p.blk) p.offset.toNat
      ∧ m1.fs.memory past = memory p.blk s.fs.files past := by
  have hmem : m1.fs.memory past = memory p.blk s.fs.files past := by
    rw [fkfs_t.memory, hl.buffer, hl.settings]
  refine ⟨?_, hmem⟩
  unfold fkfs_block_check
  rw [hmem, hl.header]
  rfl

/-- **One round of the loop**: it ends the call, or it takes one step of the walk.
On a working card it ends the call only if it found data or passed the end. -/
theorem round (hN : 8002 < s.fs.numberOfBlocks.toNat) (h : Follows s f last m iter p)
    (hb : config.maxBlocks = 0) (ht : config.maxTime = 0) (n r : ℕ) (mb : UInt32) :
    (∃ res, iterateLoop .stops config am (n + 1) r m iter mb = some res
        ∧ (Works m.sd → HitAt s.fs f (am.past r) p
          ∨ last ≤ place (s.fs.numberOfBlocks.toNat - 2) 0))
      ∨ ∃ m1 next, iterateLoop .stops config am (n + 1) r m iter mb
          = iterateLoop .stops config am n (r + 1) m1 next mb
        ∧ Follows s f last m1 next (advance s p) ∧ (Works m.sd → Works m1.sd)
        ∧ ¬ HitAt s.fs f (am.past r) p
        ∧ (last ≤ place (s.fs.numberOfBlocks.toNat - 2) 0 →
          tokenPlace iter < tokenPlace next ∧ tokenPlace next < last) := by
  rcases h.ensure with ⟨hw, hfail⟩ | ⟨m1, e, hl⟩
  · -- The block could not be read.
    left
    refine ⟨(false, (fkfs_block_ensure m iter.token.block).2, iter), ?_, fun hc => absurd hc hw⟩
    simp only [iterateLoop]
    split
    · rename_i e
      rw [e]
    · rename_i e
      rw [e] at hfail
      cases hfail
  obtain ⟨hcheck, hmem⟩ := hl.check (am.past r)
  have hblock := h.inside
  simp only [iterateLoop, e, h.offset, hmem]
  rw [hcheck]
  rcases check_cases .stops (am.past r) (withBuffer s.fs p.blk) p.offset.toNat with
    ⟨hc, hnot⟩ | ⟨hpass, hc⟩
  · -- The size test fails: on to the next block.
    have hno : ¬ HitAt s.fs f (am.past r) p := by
      rintro ⟨hgood, -⟩
      rw [hc] at hgood
      cases hgood
    have hadv : advance s p = ⟨if p.block = following s.fs p.block then p.blk
        else s.sd.blocks (following s.fs p.block).toNat, following s.fs p.block, 0⟩ := by
      unfold advance
      rw [if_neg]
      rintro ⟨ho, hs⟩
      exact hnot ((passes_mem_iff ho).mpr hs)
    have hplace : tokenPlace (moveTo iter (iter.token.block + 1) 0) = place (p.block.toNat + 1) 0 := by
      rw [← h.succ, ← h.block]
      rfl
    rw [hc]
    simp only [reduceCtorEq, or_self, if_false, hb, ht]
    split
    · rename_i hdone
      rw [done_iff, hplace, (sameEnd_moveTo iter _ _).last, h.last] at hdone
      left
      refine ⟨_, rfl, fun _ => .inr (le_trans hdone (place_le.mpr ?_))⟩
      omega
    · rename_i hdone
      rw [done_iff, hplace, (sameEnd_moveTo iter _ _).last, h.last, not_le] at hdone
      right
      have hnext : (if wrapsAt m1.fs (moveTo iter (iter.token.block + 1) 0).token.block = true
          then moveTo (moveTo iter (iter.token.block + 1) 0) FKFS_FIRST_BLOCK 0
          else moveTo iter (iter.token.block + 1) 0) = moveTo iter (following s.fs p.block) 0 := by
        have hwrap : wrapsAt m1.fs (p.block + 1) = wrapsAt s.fs (p.block + 1) := by
          unfold wrapsAt
          rw [hl.number]
        unfold following
        rw [h.block]
        change (if wrapsAt m1.fs (p.block + 1) = true then _ else _) = _
        rw [hwrap]
        split <;> rfl
      rw [hnext, hadv]
      refine ⟨m1, _, rfl, ?_, hl.works, hno, fun hlast => ?_⟩
      · refine ⟨hl.header, hl.settings, hl.number, hl.blocks, h.file, h.last, rfl, rfl, ?_,
          following_inside hN hblock⟩
        unfold seen
        rw [hl.cached, hl.buffer, hl.blocks]
      · -- Before the end there is no wrap.
        have hb1 : p.block.toNat + 1 < s.fs.numberOfBlocks.toNat - 2 := by
          rcases place_lt.mp (lt_of_lt_of_le hdone hlast) with h1 | ⟨-, h1⟩
          · exact h1
          · omega
        have hf : following s.fs p.block = p.block + 1 := following_eq hN (by rw [h.succ]; exact hb1)
        rw [hf, ← h.block, hplace]
        refine ⟨place_lt.mpr (.inl ?_), hdone⟩
        rw [h.block]
        omega
  · -- An entry header: the token stays in the block, unless this is what is looked for.
    have ho : p.offset.toNat ≤ 505 := by
      by_contra hgt
      exact hpass.1 ⟨rfl, by omega⟩
    have hsized : Sized p.blk.mem p.offset.toNat := (passes_mem_iff ho).mp hpass
    have hentry : entryAt (memory p.blk s.fs.files (am.past r)) p.offset.toNat
        = entryAt p.blk.mem p.offset.toNat :=
      entryAt_congr fun i _ _ => memory_lt _ _ _ (by omega)
    have hadv : advance s p
        = { p with offset := p.offset + ((entryAt p.blk.mem p.offset.toNat).available + 7) } :=
      if_pos ⟨ho, hsized⟩
    have hcond : fkfs_block_check .stops (am.past r) (withBuffer s.fs p.blk) p.offset.toNat = .crc
        ∨ fkfs_block_check .stops (am.past r) (withBuffer s.fs p.blk) p.offset.toNat = .good := by
      rcases hc with ⟨hc, -⟩ | ⟨hc, -⟩
      · exact .inr hc
      · exact .inl hc
    rw [if_pos hcond, h.file]
    by_cases hfound : HitAt s.fs f (am.past r) p
    · left
      have hguard : fkfs_block_check .stops (am.past r) (withBuffer s.fs p.blk) p.offset.toNat = .good
          ∧ (entryAt (memory p.blk s.fs.files (am.past r)) p.offset.toNat).file
            = UInt8.ofNat f := hfound
      rw [if_pos hguard]
      exact ⟨_, rfl, fun _ => .inl hfound⟩
    · have hguard : ¬ (fkfs_block_check .stops (am.past r) (withBuffer s.fs p.blk) p.offset.toNat
          = .good ∧ (entryAt (memory p.blk s.fs.files (am.past r)) p.offset.toNat).file
            = UInt8.ofNat f) := hfound
      rw [if_neg hguard, hentry]
      have hnat : (p.offset + ((entryAt p.blk.mem p.offset.toNat).available + 7)).toNat
          = p.offset.toNat + (7 + (entryAt p.blk.mem p.offset.toNat).available.toNat) := by
        rw [UInt16.add_comm (entryAt p.blk.mem p.offset.toNat).available,
          step_toNat (by omega) hsized.avail_lt]
      have hplace : tokenPlace (moveTo iter iter.token.block
            (p.offset + ((entryAt p.blk.mem p.offset.toNat).available + 7)))
          = place p.block.toNat
            (p.offset.toNat + (7 + (entryAt p.blk.mem p.offset.toNat).available.toNat)) := by
        rw [← hnat, ← h.block]
        rfl
      split
      · rename_i hdone
        rw [done_iff, hplace, (sameEnd_moveTo iter _ _).last, h.last] at hdone
        left
        refine ⟨_, rfl, fun _ => .inr (le_trans hdone (place_le.mpr (.inl hblock)))⟩
      · rename_i hdone
        rw [done_iff, hplace, (sameEnd_moveTo iter _ _).last, h.last, not_le] at hdone
        right
        rw [hadv]
        refine ⟨m1, _, rfl, ?_, hl.works, hfound, fun _ => ⟨?_, ?_⟩⟩
        · refine ⟨hl.header, hl.settings, hl.number, hl.blocks, h.file, h.last, h.block, rfl, ?_,
            hblock⟩
          unfold seen
          rw [hl.cached, if_pos rfl, hl.buffer]
        · rw [hplace, tokenPlace, h.block, h.offset]
          exact place_lt.mpr (.inr ⟨rfl, by omega⟩)
        · rw [hplace]
          exact hdone

/-! ## The loop -/

/-- How far it is from the token to the end. -/
def distance (iter : fkfs_file_iter_t) : ℕ :=
  (iter.token.lastBlock.toNat + 1 - iter.token.block.toNat) * 65536 - iter.token.offset.toNat

/-- A token that moves on, not past its end, has less way to go. -/
theorem distance_lt {iter next : fkfs_file_iter_t} (hsame : lastPlace next = lastPlace iter)
    (hlt : tokenPlace iter < tokenPlace next) (hlast : tokenPlace next < lastPlace iter) :
    distance next < distance iter := by
  have h1 := iter.token.offset.toNat_lt
  have h2 := next.token.offset.toNat_lt
  have hb : next.token.lastBlock.toNat = iter.token.lastBlock.toNat := congrArg blockOf hsame
  have hle := blockOf_le (le_of_lt hlast)
  simp only [tokenPlace, lastPlace, blockOf_place] at hlt hle
  unfold distance
  rw [hb]
  rcases place_lt.mp hlt with h | ⟨h, h'⟩
  · omega
  · rw [h]
    omega

/-- **Towards an end the walk passes** the loop returns: each round takes the
token further towards it. -/
theorem loop_returns_of_last (hN : 8002 < s.fs.numberOfBlocks.toNat)
    (hlast : last ≤ place (s.fs.numberOfBlocks.toNat - 2) 0) (hb : config.maxBlocks = 0)
    (ht : config.maxTime = 0) {n r : ℕ} (mb : UInt32) (h : Follows s f last m iter p)
    (hn : distance iter < n) : ∃ res, iterateLoop .stops config am n r m iter mb = some res := by
  induction n generalizing r m iter p with
  | zero => omega
  | succ n ih =>
    rcases round am hN h hb ht n r mb with ⟨res, e, -⟩ | ⟨m1, next, e, hf, -, -, hprog⟩
    · exact ⟨res, e⟩
    · rw [e]
      obtain ⟨hlt, hend⟩ := hprog hlast
      have hless := distance_lt (hf.last.trans h.last.symm) hlt (by rw [h.last]; exact hend)
      exact ih hf (by omega)

/-- **If the walk comes to good data of the file** the loop returns. -/
theorem loop_returns_of_hit (hN : 8002 < s.fs.numberOfBlocks.toNat) (hb : config.maxBlocks = 0)
    (ht : config.maxTime = 0) {k r : ℕ} (mb : UInt32) (h : Follows s f last m iter p)
    (hhit : Hit s.fs f ((advance s)^[k] p)) :
    ∃ res, iterateLoop .stops config am (k + 1) r m iter mb = some res := by
  induction k generalizing r m iter p with
  | zero =>
    rcases round am hN h hb ht 0 r mb with ⟨res, e, -⟩ | ⟨m1, next, -, -, -, hno, -⟩
    · exact ⟨res, e⟩
    · exact absurd (hhit _) hno
  | succ k ih =>
    rcases round am hN h hb ht (k + 1) r mb with ⟨res, e, -⟩ | ⟨m1, next, e, hf, -⟩
    · exact ⟨res, e⟩
    · rw [e]
      exact ih hf hhit

/-- **Otherwise** the loop never returns on a card on which nothing fails, if what
lies behind `fs->files` makes no entry good that could be bad. -/
theorem loop_runs_on (hN : 8002 < s.fs.numberOfBlocks.toNat)
    (hlast : ¬ last ≤ place (s.fs.numberOfBlocks.toNat - 2) 0) (hb : config.maxBlocks = 0)
    (ht : config.maxTime = 0) (mb : UInt32) {p0 : Spot}
    (hno : ∀ r, ¬ HitAt s.fs f (am.past r) ((advance s)^[r] p0)) {n r : ℕ} (hw : Works m.sd)
    (h : Follows s f last m iter ((advance s)^[r] p0)) :
    iterateLoop .stops config am n r m iter mb = none := by
  induction n generalizing r m iter with
  | zero => rfl
  | succ n ih =>
    rcases round am hN h hb ht n r mb with ⟨res, -, hend⟩ | ⟨m1, next, e, hf, hw1, -⟩
    · rcases hend hw with hhit | hle
      · exact absurd hhit (hno r)
      · exact absurd hle hlast
    · rw [e]
      rw [← Function.iterate_succ_apply' (advance s) r p0] at hf
      exact ih (hw1 hw) hf

end Round

/-! ## A call -/

/-- A call without a budget returns, whatever it finds around it and whatever
reads fail. -/
def Returns (s : Machine) (iter : fkfs_file_iter_t) : Prop :=
  ∀ (config : fkfs_iterator_config_t) (am : Ambient) (faults : List Bool),
    config.maxBlocks = 0 → config.maxTime = 0 →
    ∃ n res, fkfs_file_iterate .stops n config am (withFaults s faults) iter = some res

/-- The token's end is at or before the block where the reader wraps around. -/
def EndsBeforeWrap (s : Machine) (iter : fkfs_file_iter_t) : Prop :=
  lastPlace iter ≤ place (s.fs.numberOfBlocks.toNat - 2) 0

section Call

variable {s : Machine} {iter : fkfs_file_iter_t}

/-- A valid token starts the walk inside the card. -/
theorem follows_start (hb : s.fs.header.block.toNat < s.fs.numberOfBlocks.toNat - 2)
    (hv : fkfs_file_iterator_valid s.fs iter = true) (faults : List Bool) :
    Follows s iter.token.file (lastPlace iter) (withFaults s faults) iter (.start s iter) := by
  refine ⟨rfl, rfl, rfl, rfl, rfl, rfl, rfl, rfl, rfl, ?_⟩
  simp only [fkfs_file_iterator_valid, Bool.and_eq_true, decide_eq_true_eq] at hv
  have := UInt32.le_iff_toNat_le.mp hv.1.2
  exact lt_of_le_of_lt this hb

/-- **A call without a budget returns exactly if** its token ends before the wrap,
or the walk from the token around the card comes to good data of the file. -/
theorem iterate_returns_iff (hN : 8002 < s.fs.numberOfBlocks.toNat)
    (hb : s.fs.header.block.toNat < s.fs.numberOfBlocks.toNat - 2)
    (hv : fkfs_file_iterator_valid s.fs iter = true) :
    Returns s iter ↔ EndsBeforeWrap s iter
      ∨ ∃ k, Hit s.fs iter.token.file ((advance s)^[k] (.start s iter)) := by
  constructor
  · intro h
    by_contra hno
    simp only [not_or, not_exists, Hit, not_forall] at hno
    obtain ⟨hlast, hmiss⟩ := hno
    -- What lies behind `fs->files` in each round spoils the entry the walk is at then.
    choose past hpast using hmiss
    obtain ⟨n, res, e⟩ := h ⟨0, 0, 0⟩ ⟨0, fun _ => 0, past⟩ [] rfl rfl
    have hrun : iterateLoop .stops ⟨0, 0, 0⟩ ⟨0, fun _ => 0, past⟩ n 0 (withFaults s []) iter 0 = none :=
      loop_runs_on _ hN hlast rfl rfl 0 hpast rfl (follows_start hb hv [])
    have hdone : ¬ fkfs_file_iterator_done iter = true := by
      rw [done_iff]
      intro hle
      refine hlast (le_trans hle (le_of_lt (place_lt.mpr (.inl ?_))))
      exact (follows_start hb hv []).inside
    have hvalid : fkfs_file_iterator_valid (withFaults s []).fs iter = true := hv
    unfold fkfs_file_iterate at e
    rw [hvalid, Bool.not_true, if_neg Bool.false_ne_true, if_neg hdone, hrun] at e
    cases e
  · intro h config am faults hmb hmt
    have hloop : ∃ n res, iterateLoop .stops config am n 0 (withFaults s faults) iter
        config.maxBlocks = some res := by
      rcases h with hlast | ⟨k, hhit⟩
      · obtain ⟨res, e⟩ := loop_returns_of_last (n := distance iter + 1) (r := 0) am hN
          hlast hmb hmt config.maxBlocks (follows_start hb hv faults) (by omega)
        exact ⟨_, res, e⟩
      · obtain ⟨res, e⟩ := loop_returns_of_hit (r := 0) am hN hmb hmt config.maxBlocks
          (follows_start hb hv faults) hhit
        exact ⟨_, res, e⟩
    obtain ⟨n, res, e⟩ := hloop
    refine ⟨n, ?_⟩
    unfold fkfs_file_iterate
    split
    · exact ⟨_, rfl⟩
    · split
      · exact ⟨_, rfl⟩
      · exact ⟨res, e⟩

end Call

/-- A token of file 0 whose end is behind the last data block of a card of 9000
blocks. -/
def farToken : fkfs_file_iter_t := ⟨⟨0, 8000, 0, 8999, 0, 0⟩, 0, 0, 0⟩

/-- On a blank card every spot of the walk is at the start of a block of zeros. -/
theorem advance_blank {s : Machine} (hzero : ∀ b, 8000 ≤ b → s.sd.blocks b = zeroBlock)
    (hN : 8002 < s.fs.numberOfBlocks.toNat) {p : Spot} (hp : p.blk = zeroBlock ∧ p.offset = 0
      ∧ 8000 ≤ p.block.toNat ∧ p.block.toNat < s.fs.numberOfBlocks.toNat - 2) :
    (advance s p).blk = zeroBlock ∧ (advance s p).offset = 0 ∧ 8000 ≤ (advance s p).block.toNat
      ∧ (advance s p).block.toNat < s.fs.numberOfBlocks.toNat - 2 := by
  obtain ⟨hblk, hoff, hge, hlt⟩ := hp
  have hadv : advance s p = ⟨if p.block = following s.fs p.block then p.blk
      else s.sd.blocks (following s.fs p.block).toNat, following s.fs p.block, 0⟩ := by
    unfold advance
    rw [if_neg]
    rintro ⟨-, hs⟩
    rw [hblk] at hs
    exact not_sized_of_zero (zeroBlock_mem _) (zeroBlock_mem _) hs
  have hge' : 8000 ≤ (following s.fs p.block).toNat := by
    have := s.fs.numberOfBlocks.toNat_lt
    unfold following
    split
    · exact le_of_eq FKFS_FIRST_BLOCK_toNat.symm
    · rw [succ_toNat (by omega)]
      omega
  rw [hadv]
  refine ⟨?_, rfl, hge', following_inside hN hlt⟩
  dsimp only
  split
  · exact hblk
  · exact hzero _ hge'

set_option maxRecDepth 100000 in
/-- That token is valid, and a call with it on the wiped card never returns. -/
theorem far_token_never_returns :
    fkfs_file_iterator_valid (wipedMachine 9000).fs farToken = true
      ∧ ∀ n, fkfs_file_iterate .stops n ⟨0, 0, 0⟩ ⟨0, fun _ => 0, fun _ _ => 0⟩ (wipedMachine 9000)
        farToken = none := by
  have hv : fkfs_file_iterator_valid (wipedMachine 9000).fs farToken = true := by decide +kernel
  have hN : 8002 < (wipedMachine 9000).fs.numberOfBlocks.toNat := by decide
  have hzero : ∀ b, 8000 ≤ b → (wipedMachine 9000).sd.blocks b = zeroBlock := fun b hb =>
    (wipe_works (s := blankMachine 9000) (show Works (blankMachine 9000).sd from rfl)
      (wipedMachine_boot 9000)).blocks b hb
  have hspot : ∀ r, ((advance (wipedMachine 9000))^[r] (.start (wipedMachine 9000) farToken)).blk
      = zeroBlock ∧ ((advance (wipedMachine 9000))^[r] (.start (wipedMachine 9000) farToken)).offset = 0
      ∧ 8000 ≤ ((advance (wipedMachine 9000))^[r] (.start (wipedMachine 9000) farToken)).block.toNat
      ∧ ((advance (wipedMachine 9000))^[r] (.start (wipedMachine 9000) farToken)).block.toNat
        < (wipedMachine 9000).fs.numberOfBlocks.toNat - 2 := by
    intro r
    induction r with
    | zero => exact ⟨hzero 8000 (le_refl _), rfl, by decide, by decide⟩
    | succ r ih =>
      rw [Function.iterate_succ_apply']
      exact advance_blank hzero hN ih
  refine ⟨hv, fun n => ?_⟩
  have hb : (wipedMachine 9000).fs.header.block.toNat
      < (wipedMachine 9000).fs.numberOfBlocks.toNat - 2 := by decide
  have hlast : ¬ lastPlace farToken ≤ place ((wipedMachine 9000).fs.numberOfBlocks.toNat - 2) 0 := by
    rw [lastPlace, place_le]
    decide
  have hno : ∀ r, ¬ HitAt (wipedMachine 9000).fs 0 (fun _ => 0)
      ((advance (wipedMachine 9000))^[r] (.start (wipedMachine 9000) farToken)) := by
    rintro r ⟨hgood, -⟩
    obtain ⟨hblk, hoff, -⟩ := hspot r
    rw [hblk, hoff, check_of_not_passes] at hgood
    · cases hgood
    · exact not_passes_zeroBlock _ _ _
  have hrun : iterateLoop .stops ⟨0, 0, 0⟩ ⟨0, fun _ => 0, fun _ _ => 0⟩ n 0 (wipedMachine 9000)
      farToken 0 = none :=
    loop_runs_on _ hN hlast rfl rfl 0 hno rfl (follows_start hb hv [])
  unfold fkfs_file_iterate
  rw [hv]
  exact hrun

set_option maxRecDepth 100000 in
/-- A token that ends in the block it is in. -/
theorem near_token_returns : Returns (wipedMachine 9000) ⟨⟨0, 8000, 0, 8000, 8, 1⟩, 0, 0, 0⟩ := by
  have hv : fkfs_file_iterator_valid (wipedMachine 9000).fs ⟨⟨0, 8000, 0, 8000, 8, 1⟩, 0, 0, 0⟩
      = true := by decide +kernel
  have hlast : EndsBeforeWrap (wipedMachine 9000) ⟨⟨0, 8000, 0, 8000, 8, 1⟩, 0, 0, 0⟩ :=
    place_le.mpr (.inl (by decide))
  exact (iterate_returns_iff (by decide) (by decide) hv).mpr (.inl hlast)

end Fkfs.Termination
