/-
The structural invariant of the mounted file system.

Whatever is called and however the card fails, the writer stays between
`FKFS_FIRST_BLOCK` and the last two blocks, a dirty buffer belongs to the
writer's block, a clean one is a copy of its card block, and no write goes
anywhere but to block 0 with a header image or to the writer's block with the
buffer. Every primitive keeps this (`structural_survives`), so every run does.
-/
import Fkfs.Run
import Fkfs.Slots

set_option autoImplicit false

namespace Fkfs.Structure

open Bytes
open Fkfs.Crc Fkfs.Layout Fkfs.Device Fkfs.Search Fkfs.Append Fkfs.Iterate Fkfs.Mount Fkfs.Cache
open Fkfs.Walk Fkfs.Writer Fkfs.Reader Fkfs.Run Fkfs.Slots

/-- A block write of the file system: a header image to block 0, or the buffer
to the writer's block, as `fs` stood when it was issued. -/
def FromWriter (w : Write) : Prop :=
  (w.block = 0 ∧ ∃ base, w.source = headerImage w.fs base)
    ∨ (w.block = w.fs.header.block ∧ w.source = w.fs.buffer)

/-- The structural invariant. -/
structure Structural (s : Machine) : Prop where
  coherent : Coherent s
  card : s.fs.numberOfBlocks = sd_raw_card_size s.sd
  size : 8002 < s.fs.numberOfBlocks.toNat
  block_lt : s.fs.header.block.toNat < s.fs.numberOfBlocks.toNat - 2
  writes : ∀ w ∈ s.writes, FromWriter w

/-- The block where writer and reader wrap around, on a card of that size. -/
theorem last_block_toNat {n : UInt32} (h : 8002 < n.toNat) : (n - 2).toNat = n.toNat - 2 := by
  rw [UInt32.toNat_sub_of_le _ _ (UInt32.le_iff_toNat_le.mpr (by
    rw [show (2 : UInt32).toNat = 2 from rfl]; omega))]
  rfl

section Primitives

variable {s : Machine}

/-- One more write of the right form. -/
theorem writes_append {ws : List Write} {w : Write} (h : ∀ w ∈ ws, FromWriter w)
    (hw : FromWriter w) : ∀ w' ∈ ws ++ [w], FromWriter w' := by
  intro w' hmem
  rcases List.mem_append.mp hmem with hmem | hmem
  · exact h w' hmem
  · rw [List.mem_singleton.mp hmem]
    exact hw

theorem header_write_writes (h : ∀ w ∈ s.writes, FromWriter w) :
    ∀ w ∈ (fkfs_header_write s false).2.writes, FromWriter w := by
  rcases header_write_cases s with e | e | e
  · rw [e]
    exact h
  all_goals
    rw [e]
    exact writes_append h (.inl ⟨rfl, _, rfl⟩)

theorem fsync_writes (h : ∀ w ∈ s.writes, FromWriter w) :
    ∀ w ∈ (fkfs_fsync s).2.writes, FromWriter w := by
  cases hd : s.fs.cachedBlockDirty
  · rw [fsync_clean hd]
    exact h
  · rcases fsync_cases hd with e | e
    · rw [e]
      exact writes_append h (.inr ⟨rfl, rfl⟩)
    · rw [e]
      exact header_write_writes (writes_append h (.inr ⟨rfl, rfl⟩))

/-- Operations that keep the writer's block keep the bounds on it. -/
theorem Structural.of_keeps {s' : Machine} (h : Structural s) (hc : Coherent s')
    (hk : Keeps s s') (hw : ∀ w ∈ s'.writes, FromWriter w) : Structural s' :=
  ⟨hc, by rw [hk.blocks, h.card]; exact hk.size.symm, by rw [hk.blocks]; exact h.size, by rw [hk.block, hk.blocks]; exact h.block_lt, hw⟩

theorem next_block_structural (h : Structural s) (hd : s.fs.cachedBlockDirty = false) :
    Structural (fkfs_next_block s) := by
  obtain ⟨-, -, hsd, hw, hfs⟩ := next_block_keeps s
  have hn : (fkfs_next_block s).fs.numberOfBlocks = s.fs.numberOfBlocks := by rw [hfs]
  refine ⟨next_block_coherent h.coherent hd, by rw [hn, hsd]; exact h.card, by rw [hn]; exact h.size,
    ?_, by rw [hw]; exact h.writes⟩
  rw [hn]
  have hsize := h.size
  rcases next_block_cases s with ⟨-, -, e⟩ | ⟨hwr, -, e⟩
  · rw [e, FKFS_FIRST_BLOCK_toNat]
    omega
  · -- The block after the writer's is not the one to wrap at.
    have hs := succ_toNat h.coherent.block_lt
    have hlt := h.block_lt
    have hne : s.fs.header.block + 1 ≠ s.fs.numberOfBlocks - 2 := by
      intro hcon
      simp [wrapsAt, hcon] at hwr
    have hne' : (s.fs.header.block + 1).toNat ≠ s.fs.numberOfBlocks.toNat - 2 := by
      rw [← last_block_toNat hsize]
      exact fun hcon => hne (UInt32.toNat_inj.mp hcon)
    rw [e]
    omega

end Primitives

/-- **Every primitive keeps the structural invariant.** -/
theorem structural_survives : Survives Structural where
  header := by
    intro m h hm hsame
    refine ⟨coherent_survives.header hm.coherent hsame, hm.card, hm.size, ?_, hm.writes⟩
    change h.block.toNat < _
    rw [hsame.1]
    exact hm.block_lt
  header_write := by
    intro m hm
    obtain ⟨hc, hk, -⟩ := header_write_keeps hm.coherent
    exact hm.of_keeps hc hk (header_write_writes hm.writes)
  sync := by
    intro m hm
    obtain ⟨hc, hk, -⟩ := fsync_keeps hm.coherent
    exact hm.of_keeps hc hk (fsync_writes hm.writes)
  next := fun hm hd => next_block_structural hm hd
  load := by
    intro m b hm
    have hc := block_ensure_coherent hm.coherent b
    rcases block_ensure_cases m b with ⟨-, e⟩ | ⟨-, e⟩ | ⟨-, e⟩ <;> rw [e] at hc ⊢ <;>
      exact ⟨hc, hm.card, hm.size, hm.block_lt, hm.writes⟩
  place := fun hm ho =>
    ⟨coherent_survives.place hm.coherent ho, hm.card, hm.size, hm.block_lt, hm.writes⟩
  store := fun hm hc hlen hroom =>
    ⟨coherent_survives.store hm.coherent hc hlen hroom, hm.card, hm.size, hm.block_lt, hm.writes⟩

/-! ## Runs -/

/-- The header a mount would take over has its writer inside the card. -/
def SelectedInside (sd : Card) : Prop :=
  8000 ≤ (slot sd (selected sd)).block.toNat
    ∧ (slot sd (selected sd)).block.toNat < sd.size.toNat - 2
    ∧ (slot sd (selected sd)).offset.toNat ≤ 512

/-- A machine that comes from one program start and any calls after it, with any
pattern of failing block transfers in each. The iterators of the calls are
arbitrary. -/
inductive Reachable (ov : Overrun) : Machine → Prop
  | mount {s s' : Machine} {cfg : FileNumber → FileConfig} {wipe : Bool}
      {draws : FileNumber → UInt16} (hlog : s.writes = []) (hsize : 8002 < s.sd.size.toNat)
      (hsel : wipe = false → (∃ i, slotValid s.sd i) → SelectedInside s.sd)
      (h : boot s cfg wipe draws = (true, s')) : Reachable ov s'
  | call {s s' : Machine} {c : Call} {ok : Bool} (hs : Reachable ov s) (faults : List Bool)
      (hc : c.Sane) (h : perform ov (withFaults s faults) c = some (ok, s')) : Reachable ov s'

/-- A machine whose cache is clean and holds no data block is coherent if the
writer is inside. -/
theorem coherent_of_fresh {s : Machine} (hge : 8000 ≤ s.fs.header.block.toNat)
    (hlt : s.fs.header.block.toNat < 4294967295) (ho : s.fs.header.offset.toNat ≤ 512)
    (hd : s.fs.cachedBlockDirty = false) (hc : s.fs.cachedBlockNumber = 0) : Coherent s :=
  ⟨hge, hlt, ho, fun h => absurd h (by rw [hd]; simp), fun _ h => absurd h (by rw [hc]; simp)⟩

/-- A wipe that returned true leaves the structural invariant. -/
theorem wipe_structural {s s' : Machine} {cfg : FileNumber → FileConfig}
    {draws : FileNumber → UInt16} (hlog : s.writes = []) (hsize : 8002 < s.sd.size.toNat)
    (h : wipeHeaders { afterRead s with fs := unmounted cfg s.sd } draws = (true, s')) :
    Structural s' := by
  obtain ⟨s1, s2, -, rfl, rfl, rfl⟩ := wipeHeaders_true h
  refine ⟨coherent_of_fresh ?_ ?_ ?_ rfl rfl, rfl, hsize, ?_, ?_⟩
  · exact le_of_eq FKFS_FIRST_BLOCK_toNat.symm
  · exact lt_of_eq_of_lt FKFS_FIRST_BLOCK_toNat (by omega)
  · exact Nat.zero_le _
  · exact lt_of_eq_of_lt FKFS_FIRST_BLOCK_toNat (Nat.lt_sub_of_add_lt hsize)
  · change ∀ w ∈ (s.writes ++ [_]) ++ [_], FromWriter w
    rw [hlog]
    refine writes_append (writes_append (fun w hw => nomatch hw) ?_) ?_
    · exact .inl ⟨rfl, _, rfl⟩
    · exact .inl ⟨rfl, _, rfl⟩

theorem reachable_structural {ov : Overrun} {s : Machine} (h : Reachable ov s) : Structural s := by
  induction h with
  | @mount s s' cfg wipe draws hlog hsize hsel h =>
    by_cases hnew : wipe = true ∨ ∀ i, ¬ slotValid s.sd i
    · rcases boot_new hnew cfg draws with ⟨fs, e⟩ | e
      · rw [e] at h
        cases h
      · rw [e] at h
        exact wipe_structural hlog hsize h
    · simp only [not_or, Bool.not_eq_true, not_forall, not_not] at hnew
      obtain ⟨rfl, i, hv⟩ := hnew
      obtain ⟨h1, h2, h3⟩ := hsel rfl ⟨i, hv⟩
      rcases boot_cases hv cfg draws with ⟨fs, e⟩ | e
      · rw [e] at h
        cases h
      · rw [e] at h
        cases h
        have hlt := s.sd.size.toNat_lt
        refine ⟨coherent_of_fresh h1 (lt_trans h2 (by omega)) h3 rfl rfl, rfl, hsize, h2, ?_⟩
        intro w hw
        rw [show ({ afterRead s with fs := mounted cfg s.sd } : Machine).writes = [] from hlog] at hw
        cases hw
  | @call s s' c ok hs faults hc h ih =>
    refine perform_rule structural_survives hc ?_ h
    exact ⟨coherent_survives_faults ih.coherent faults, ih.card, ih.size, ih.block_lt, ih.writes⟩

/-- **The structural invariant** of every reachable state, spelled out. -/
theorem structural_invariant {ov : Overrun} {s : Machine} (h : Reachable ov s) :
    (8000 ≤ s.fs.header.block.toNat
        ∧ s.fs.header.block.toNat < (sd_raw_card_size s.sd).toNat - 2)
      ∧ s.fs.header.offset.toNat ≤ 512
      ∧ (s.fs.cachedBlockDirty = true → s.fs.cachedBlockNumber = s.fs.header.block)
      ∧ (s.fs.cachedBlockDirty = false → 8000 ≤ s.fs.cachedBlockNumber.toNat →
        s.fs.cachedBlockNumber ≠ UINT32_MAX →
        s.fs.buffer = s.sd.blocks s.fs.cachedBlockNumber.toNat)
      ∧ ∀ w ∈ s.writes, (w.block = 0 ∧ ∃ base, w.source = headerImage w.fs base)
        ∨ (w.block = w.fs.header.block ∧ w.source = w.fs.buffer) := by
  have hs := reachable_structural h
  refine ⟨⟨hs.coherent.block_ge, ?_⟩, hs.coherent.offset_le, hs.coherent.dirty, hs.coherent.clean,
    hs.writes⟩
  rw [← hs.card]
  exact hs.block_lt

/-- A call's result, once its status is known. -/
theorem of_status {p : Bool × Machine} {ok : Bool} (h : p.1 = ok) : p = (ok, p.2) := by
  rw [← h]

/-- A machine that never was mounted, with a blank card in it. -/
def blankMachine (size : UInt32) : Machine := ⟨fkfs_create, blankCard size, [], 0⟩

/-- Four sync files of one priority. -/
def plainConfig : FileNumber → FileConfig := fun _ => ⟨0, 1, [], 0⟩

/-- File 0 takes precedence over the others; all are sync files. -/
def wrapConfig : FileNumber → FileConfig := fun f => ⟨if f = 0 then 0 else 255, 1, [], 5⟩

/-- The machine a wipe leaves on a blank card. -/
def wipedMachine (size : UInt32) : Machine :=
  (boot (blankMachine size) plainConfig true fun _ => 7).2

theorem wipedMachine_boot (size : UInt32) :
    boot (blankMachine size) plainConfig true (fun _ => 7) = (true, wipedMachine size) := rfl

/-- Four files that are not sync files. -/
def lazyConfig : FileNumber → FileConfig := fun _ => ⟨0, 0, [], 0⟩

/-- The machine a wipe of a blank card leaves over them. -/
def lazyWiped (size : UInt32) : Machine :=
  (boot (blankMachine size) lazyConfig true fun _ => 7).2

theorem lazyWiped_boot (size : UInt32) :
    boot (blankMachine size) lazyConfig true (fun _ => 7) = (true, lazyWiped size) := rfl

/-- The machine after an append on a card that works. -/
def appended (s : Machine) (f : FileNumber) (data : List UInt8) : Machine :=
  (fkfs_file_append .reads (fun _ _ => 0) (withFaults s []) f data).2

theorem Reachable.append {s : Machine} (h : Reachable .reads s) (f : FileNumber)
    {data : List UInt8} (hlen : data.length ≤ 505) : Reachable .reads (appended s f data) := by
  have hc : (Call.append f data fun _ _ => 0).Sane := hlen
  exact .call h [] hc rfl

theorem Reachable.truncate {s : Machine} (h : Reachable .reads s) (f : FileNumber) :
    Reachable .reads (fkfs_file_truncate (withFaults s []) f) := by
  have hc : (Call.truncate f).Sane := by simp [Call.Sane]
  exact .call h [] hc rfl

theorem wipedMachine_reachable : Reachable .reads (wipedMachine 9000) := by
  have hsize : 8002 < (blankMachine 9000).sd.size.toNat := by decide
  exact .mount rfl hsize (fun (h : true = false) => nomatch h) (wipedMachine_boot 9000)

/-- The invariant of a wiped blank card after one append. -/
theorem structural_invariant_append : 8000 ≤ (appended (wipedMachine 9000) 0 [1]).fs.header.block.toNat := by
  have hlen : [(1 : UInt8)].length ≤ 505 := by decide
  exact (structural_invariant (wipedMachine_reachable.append 0 hlen)).1.1

end Fkfs.Structure
