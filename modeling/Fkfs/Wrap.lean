/-
Iteration around the end of the card.

The writer goes back to `FKFS_FIRST_BLOCK` at block `numberOfBlocks - 2`, and
so does the loop of `fkfs_file_iterate`. But the two tests in front of the loop
compare block numbers as if they only grew: once a file ends at a block before
the one it starts at, an iterator that was just created counts as done, and as
not valid either. Nothing of such a file is delivered, so a complete delivery
is to be had exactly when there is nothing to deliver (`wrapped_delivery_iff`).
-/
import Fkfs.Structure

set_option autoImplicit false

namespace Fkfs.Wrap

open Bytes
open Fkfs.Crc Fkfs.Layout Fkfs.Device Fkfs.Search Fkfs.Append Fkfs.Iterate Fkfs.Mount Fkfs.Cache
open Fkfs.Walk Fkfs.Writer Fkfs.Reader Fkfs.Run Fkfs.Structure

/-! ## What there is to deliver -/

/-- The payloads of file `f` in `fs->buffer` from offset `o` on: a walk over
good and CRC-failing entries that keeps the good ones of the file. -/
def intactFrom (ov : Overrun) (past : Mem) (fs : fkfs_t) (f : FileNumber) :
    ℕ → ℕ → List (List UInt8)
  | 0, _ => []
  | n + 1, o =>
    let entry := entryAt (fs.memory past) o
    let data := slice (fs.memory past) (o + sizeof_fkfs_entry_t) entry.size.toNat
    let rest := intactFrom ov past fs f n (o + (sizeof_fkfs_entry_t + entry.available.toNat))
    match fkfs_block_check ov past fs o with
    | .good => if entry.file = UInt8.ofNat f then data :: rest else rest
    | .crc => rest
    | _ => []

/-- The payloads of file `f` that are intact in block `b` of the card. -/
def intact (ov : Overrun) (past : Mem) (s : Machine) (f : FileNumber) (b : ℕ) : List (List UInt8) :=
  intactFrom ov past { s.fs with buffer := s.sd.blocks b } f SD_RAW_BLOCK_SIZE 0

/-- The blocks from `s` to the last one before the wrap, and on from
`FKFS_FIRST_BLOCK` to `e`. -/
def wrappedBlocks (numberOfBlocks s e : ℕ) : List ℕ :=
  List.range' s (numberOfBlocks - 2 - s) ++ List.range' 8000 (e + 1 - 8000)

/-- What iterating a wrapped file should deliver. -/
def wrappedPayloads (ov : Overrun) (past : Mem) (s : Machine) (f : FileNumber) :
    List (List UInt8) :=
  (wrappedBlocks s.fs.numberOfBlocks.toNat (s.fs.header.files f).startBlock.toNat
    (s.fs.header.files f).endBlock.toNat).flatMap (intact ov past s f)

/-! ## Iterating with an unlimited budget -/

/-- Call `fkfs_file_iterate` until it returns false, `m` times at most, and
collect what it finds. -/
def collect (ov : Overrun) (n : ℕ) (polls : ℕ → Poll) :
    ℕ → ℕ → Machine → fkfs_file_iter_t → Option (List (List UInt8) × Machine × fkfs_file_iter_t)
  | 0, _, _, _ => none
  | m + 1, k, s, iter =>
    match fkfs_file_iterate ov n (polls k).config (polls k).ambient s iter with
    | none => none
    | some (false, s, iter) => some ([], s, iter)
    | some (true, s, iter) =>
      (collect ov n polls m (k + 1) s iter).map fun r =>
        (payload iter s.fs (polls k).seen :: r.1, r.2)

/-- Iterating file `f` from `fkfs_file_iterator_create` delivers the payloads
`xs`, and then the iterator is done. -/
def Delivers (ov : Overrun) (polls : ℕ → Poll) (s : Machine) (f : FileNumber)
    (scratch : fkfs_file_iter_t) (xs : List (List UInt8)) : Prop :=
  ∃ n m s' iter', collect ov n polls m 0 s (fkfs_file_iterator_create s.fs f scratch)
      = some (xs, s', iter')
    ∧ fkfs_file_iterator_done iter' = true

section Wrapped

variable {ov : Overrun} {s : Machine} {f : FileNumber}

/-- An iterator of a wrapped file is done when it is created. -/
theorem create_done (h : (s.fs.header.files f).endBlock < (s.fs.header.files f).startBlock)
    (scratch : fkfs_file_iter_t) :
    fkfs_file_iterator_done (fkfs_file_iterator_create s.fs f scratch) = true := by
  rw [done_iff]
  exact place_le.mpr (.inl (UInt32.lt_iff_toNat_lt.mp h))

/-- So its first call returns false, and nothing was found. -/
theorem collect_wrapped (h : (s.fs.header.files f).endBlock < (s.fs.header.files f).startBlock)
    (scratch : fkfs_file_iter_t) (polls : ℕ → Poll) (n m : ℕ) :
    collect ov n polls (m + 1) 0 s (fkfs_file_iterator_create s.fs f scratch)
      = some ([], s, fkfs_file_iterator_create s.fs f scratch) := by
  simp only [collect, iterate_of_done (create_done h scratch)]

/-- A wrapped file delivers nothing. -/
theorem delivers_wrapped (h : (s.fs.header.files f).endBlock < (s.fs.header.files f).startBlock)
    (scratch : fkfs_file_iter_t) (polls : ℕ → Poll) (xs : List (List UInt8)) :
    Delivers ov polls s f scratch xs ↔ xs = [] := by
  constructor
  · rintro ⟨n, m, s', iter', hc, -⟩
    cases m with
    | zero => cases hc
    | succ m =>
      rw [collect_wrapped h scratch polls n m] at hc
      cases hc
      rfl
  · rintro rfl
    exact ⟨0, 1, _, _, collect_wrapped h scratch polls 0 0, create_done h scratch⟩

/-- **A wrapped file is delivered exactly when it has no intact entry left.** -/
theorem wrapped_delivery_iff (hs : Reachable ov s)
    (h : (s.fs.header.files f).endBlock < (s.fs.header.files f).startBlock)
    (scratch : fkfs_file_iter_t) (polls : ℕ → Poll) (past : Mem) :
    Delivers ov polls s f scratch (wrappedPayloads ov past s f)
      ↔ ∀ b ∈ wrappedBlocks (sd_raw_card_size s.sd).toNat (s.fs.header.files f).startBlock.toNat
          (s.fs.header.files f).endBlock.toNat, intact ov past s f b = [] := by
  rw [delivers_wrapped h, wrappedPayloads, List.flatMap_eq_nil_iff,
    (reachable_structural hs).card]

end Wrapped

/-! ## A wrapped file with an intact entry -/

/-- A card of 8004 blocks, wiped: the writer wraps after block 8001. -/
def wrapStart : Machine := (boot (blankMachine 8004) wrapConfig true fun _ => 5).2

/-- File 1 fills both blocks, file 0 is truncated in the second. -/
def wrapFilled : Machine :=
  let s := appended (appended wrapStart 1 (List.replicate 300 1)) 1 (List.replicate 300 1)
  fkfs_file_truncate (withFaults s []) 0

/-- The append to file 0 wraps and takes the place of the first entry. -/
def wrapMachine : Machine := appended wrapFilled 0 (List.replicate 199 2)

theorem wrapMachine_reachable : Reachable .reads wrapMachine := by
  have hsize : 8002 < (blankMachine 8004).sd.size.toNat := by decide
  have hboot : boot (blankMachine 8004) wrapConfig true (fun _ => 5) = (true, wrapStart) := rfl
  have h0 : Reachable .reads wrapStart :=
    .mount rfl hsize (fun (h : true = false) => nomatch h) hboot
  have hlen : ∀ n, n ≤ 505 → ∀ x : UInt8, (List.replicate n x).length ≤ 505 := by
    intro n hn x
    rw [List.length_replicate]
    exact hn
  have h1 := (h0.append 1 (hlen 300 (by omega) 1)).append 1 (hlen 300 (by omega) 1)
  exact (h1.truncate 0).append 0 (hlen 199 (by omega) 2)

set_option maxRecDepth 100000 in
/-- What the machine looks like: file 0 runs from block 8001 around to block
8000, where its entry is intact. -/
theorem wrapMachine_state :
    wrapMachine.fs.cachedBlockDirty = false ∧ wrapMachine.wraps = 1
      ∧ (wrapMachine.fs.header.files 0).startBlock = 8001
      ∧ (wrapMachine.fs.header.files 0).endBlock = 8000
      ∧ intact .reads (fun _ => 0) wrapMachine 0 8000 = [List.replicate 199 2] := by
  decide +kernel

/-- **The reader does not follow the writer around**: a reachable flushed state
with a wrapped file that has an intact entry, and no iteration delivers it. -/
theorem wrapped_file_not_delivered :
    ∃ s, Reachable .reads s ∧ s.fs.cachedBlockDirty = false ∧ s.wraps = 1
      ∧ (s.fs.header.files 0).endBlock < (s.fs.header.files 0).startBlock
      ∧ ∀ polls scratch, ¬ Delivers .reads polls s 0 scratch
        (wrappedPayloads .reads (fun _ => 0) s 0) := by
  obtain ⟨hd, hw, hs, he, hi⟩ := wrapMachine_state
  have hlt : (wrapMachine.fs.header.files 0).endBlock < (wrapMachine.fs.header.files 0).startBlock := by
    rw [hs, he]
    decide
  refine ⟨wrapMachine, wrapMachine_reachable, hd, hw, hlt, fun polls scratch hdel => ?_⟩
  rw [delivers_wrapped hlt, wrappedPayloads, List.flatMap_eq_nil_iff] at hdel
  have hmem : 8000 ∈ wrappedBlocks wrapMachine.fs.numberOfBlocks.toNat
      (wrapMachine.fs.header.files 0).startBlock.toNat
      (wrapMachine.fs.header.files 0).endBlock.toNat := by
    rw [he]
    simp [wrappedBlocks]
  have hnil := hdel 8000 hmem
  rw [hi] at hnil
  cases hnil

/-- The condition decides for the same machine: it has an intact entry, so it is
not delivered. -/
theorem wrapped_delivery_iff_wrapMachine :
    Delivers .reads (fun _ => ⟨⟨0, 0, 0⟩, ⟨0, fun _ => 0, fun _ _ => 0⟩, fun _ => 0⟩) wrapMachine 0
        ⟨⟨0, 0, 0, 0, 0, 0⟩, 0, 0, 0⟩ (wrappedPayloads .reads (fun _ => 0) wrapMachine 0)
      ↔ ∀ b ∈ wrappedBlocks (sd_raw_card_size wrapMachine.sd).toNat
          (wrapMachine.fs.header.files 0).startBlock.toNat
          (wrapMachine.fs.header.files 0).endBlock.toNat,
        intact .reads (fun _ => 0) wrapMachine 0 b = [] := by
  obtain ⟨-, -, hs, he, -⟩ := wrapMachine_state
  have hlt : (wrapMachine.fs.header.files 0).endBlock < (wrapMachine.fs.header.files 0).startBlock := by
    rw [hs, he]
    decide
  exact wrapped_delivery_iff wrapMachine_reachable hlt _ _ _

end Fkfs.Wrap
