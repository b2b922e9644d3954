/-
What the exporter writes.

A round of the loop of `main` at a place of the image writes the payload of the
entry there, if it takes one, and goes on. Which of the two it does is decided by the
image alone (`Round`), so the loop is a walk that gives off payloads, and when it has
come to the header's block it has written to every file's copy what the walk gave off
for that file, in order (`loop_writes`).
-/
import Fkfs.ExporterWalk

set_option autoImplicit false

namespace Fkfs.ExportTrail

open Bytes
open Fkfs.Exporter Fkfs.ExporterWalk

/-- A payload and the file it belongs to. -/
abbrev Item : Type := UInt8 × List UInt8

/-- What is given off for file `i`. -/
def gathered (xs : List Item) (i : UInt8) : List UInt8 :=
  (xs.filter fun x => x.1 = i).flatMap Prod.snd

/-- What `main` has written to the copy of file `i`. -/
def written (x : Export) (i : UInt8) : List UInt8 := (x.files i).elim [] FileInfo.Written

@[simp] theorem gathered_nil (i : UInt8) : gathered [] i = [] := rfl

@[simp] theorem gathered_append (xs ys : List Item) (i : UInt8) :
    gathered (xs ++ ys) i = gathered xs i ++ gathered ys i := by
  rw [gathered, List.filter_append, List.flatMap_append]
  rfl

theorem gathered_singleton (x : Item) (i : UInt8) :
    gathered [x] i = if x.1 = i then x.2 else [] := by
  by_cases h : x.1 = i <;> simp [gathered, h]

/-! ## Rounds -/

/-- A round at `c`, what it gives off, and where it goes on. -/
inductive Round (header : HeaderBlock) (f : Image) (c : Cursor) : List Item → Cursor → Prop
  /-- The header there is none of an entry. -/
  | refused (hb : c.Block < header.Block) (h : (entryOf f.bytes (place c)).refused = true) :
      Round header f c [] c.skip
  /-- The CRC is none of the file as it is now. -/
  | mismatch {file : File} (hb : c.Block < header.Block)
      (h : (entryOf f.bytes (place c)).refused = false)
      (hf : header.file (entryOf f.bytes (place c)).File = .ok file) (hm : ¬ Matches f c file) :
      Round header f c [] c.skip
  | taken {file : File} (hb : c.Block < header.Block)
      (h : (entryOf f.bytes (place c)).refused = false)
      (hf : header.file (entryOf f.bytes (place c)).File = .ok file) (hm : Matches f c file) :
      Round header f c [((entryOf f.bytes (place c)).File,
        slice f.bytes (place c + sizeEntry) (entryOf f.bytes (place c)).Size.toNat)]
        (c.past (entryOf f.bytes (place c)).Size)

section Rounds

variable {host : Host} {header : HeaderBlock} {f : Image} {c d : Cursor} {xs : List Item}

theorem Round.onward (h : Round header f c xs d) : Onward header f c d := by
  cases h with
  | refused hb h => exact ⟨hb, .inl ⟨h, rfl⟩⟩
  | mismatch hb h hf hm => exact ⟨hb, .inr ⟨h, _, hf, .inr ⟨hm, rfl⟩⟩⟩
  | taken hb h hf hm => exact ⟨hb, .inr ⟨h, _, hf, .inl ⟨hm, rfl⟩⟩⟩

/-- What `ReadBlock` returns on a round: nothing to write, or a payload and the row of
its file. -/
def Gives (header : HeaderBlock) (b : Block) (xs : List Item) : Prop :=
  b.Entry = none ∧ xs = []
    ∨ ∃ entry i, b.Entry = some entry ∧ b.File = some (header.Files i)
      ∧ xs = [(entry.File, b.Data)]

/-- The payload of an entry lies inside the image. -/
theorem read_inside (hsize : 512 * (header.Block.toNat + 1) ≤ f.size) (hb : c.Block < header.Block)
    (ho : c.Offset.toNat < 512) {n : ℕ} (hn : n ≤ 505) :
    f.read (place c + sizeEntry) n = .ok (slice f.bytes (place c + sizeEntry) n) := by
  have hin := reads_inside hsize hb ho
  have h7 : place c + sizeEntry = place c + 7 := rfl
  have hall : n - (f.size - (place c + sizeEntry)) = 0 := by omega
  have hmin : min n (f.size - (place c + sizeEntry)) = n := by omega
  rw [Image.read, if_neg (by omega), hall, hmin, List.replicate_zero, List.append_nil]

/-- **One call of `ReadBlock`** on a round. -/
theorem readBlock_round (hsize : 512 * (header.Block.toNat + 1) ≤ f.size)
    (ho : c.Offset.toNat < 512) (hpos : position c = place c) (h : Round header f c xs d) :
    ∃ b, ReadBlock header c f = .ok b ∧ b.Next = d ∧ Gives header b xs := by
  have hb : c.Block < header.Block := h.onward.1
  have hin := reads_inside hsize hb ho
  have hentry : f.readEntry (place c) = .ok (entryOf f.bytes (place c)) := if_pos (by
    change place c + 7 ≤ f.size
    omega)
  unfold ReadBlock
  rw [hpos, hentry]
  simp only [bind, Except.bind, pure, Except.pure]
  cases h with
  | refused hb h =>
    rw [if_pos h]
    exact ⟨_, rfl, rfl, .inl ⟨rfl, rfl⟩⟩
  | @mismatch file hb h hf hm =>
    rw [if_neg (by rw [h]; exact Bool.false_ne_true)]
    rw [read_inside hsize hb ho (size_of_not_refused h).2, hf]
    obtain ⟨v, hv⟩ := BlockChecksum_ok file (entryOf f.bytes (place c))
      (slice f.bytes (place c + sizeEntry) (entryOf f.bytes (place c)).Size.toNat)
    have hne : (entryOf f.bytes (place c)).Crc ≠ v := fun he =>
      hm (hv.trans (congrArg Except.ok he.symm))
    simp only [hv]
    rw [if_pos hne]
    exact ⟨_, rfl, rfl, .inl ⟨rfl, rfl⟩⟩
  | @taken file hb h hf hm =>
    rw [if_neg (by rw [h]; exact Bool.false_ne_true)]
    rw [read_inside hsize hb ho (size_of_not_refused h).2, hf]
    have hv : BlockChecksum file (entryOf f.bytes (place c))
        (slice f.bytes (place c + sizeEntry) (entryOf f.bytes (place c)).Size.toNat)
          = .ok (entryOf f.bytes (place c)).Crc := hm
    obtain ⟨i, rfl⟩ := file_eq_ok hf
    simp only [hv]
    rw [if_neg (not_not.mpr rfl)]
    exact ⟨_, rfl, rfl, .inr ⟨_, i, rfl, rfl, rfl⟩⟩

/-- What the loop does with a block is to write what it gives. -/
theorem exportBlock_writes (hs : Serves host header) {b : Block} (hb : Gives header b xs)
    (x : Export) : ∃ x', exportBlock host x b = .ok x'
      ∧ ∀ i, written x' i = written x i ++ gathered xs i := by
  obtain ⟨bfile, bentry, data, next⟩ := b
  unfold exportBlock
  rcases hb with ⟨rfl, rfl⟩ | ⟨entry, i, rfl, rfl, rfl⟩
  · exact ⟨x, rfl, fun i => (List.append_nil _).symm⟩
  · have hopen : ∃ info, openExport host x entry.File (header.Files i) = .ok info
        ∧ info.Written = written x entry.File := by
      unfold openExport written
      split
      · next info hinfo => exact ⟨info, rfl, by rw [hinfo]; rfl⟩
      · next hinfo => exact ⟨_, if_pos (hs.opens _ _), by rw [hinfo]; rfl⟩
    obtain ⟨info, hinfo, hold⟩ := hopen
    simp only [hinfo, bind, Except.bind, hs.writes, if_true]
    refine ⟨_, rfl, fun j => ?_⟩
    rw [gathered_singleton]
    by_cases hj : entry.File = j
    · subst hj
      rw [if_pos rfl, ← hold, written]
      simp only [Function.update_self]
      rfl
    · rw [if_neg hj, List.append_nil, written]
      simp only [Function.update_of_ne (Ne.symm hj)]
      rfl

/-- **The loop writes what the walk gives off**, if the walk comes to the header's
block. -/
theorem loop_writes (hsize : 512 * (header.Block.toNat + 1) ≤ f.size)
    (hmax : header.Block.toNat ≤ 2 ^ 23) (hs : Serves host header)
    (h : Trails.Trail (Round header f) c d xs) (hd : ¬ d.Block < header.Block)
    (hc : 0 < c.Block.toNat) (ho : c.Offset.toNat < 512) (x : Export) :
    ∃ N x', (∀ n, N ≤ n → exportLoop host header f n c x = some (.ok x'))
      ∧ ∀ i, written x' i = written x i ++ gathered xs i := by
  induction h generalizing x with
  | refl c =>
    refine ⟨1, x, fun n hn => ?_, fun i => (List.append_nil _).symm⟩
    obtain ⟨n, rfl⟩ : ∃ m, n = m + 1 := ⟨n - 1, by omega⟩
    rw [exportLoop, if_neg hd]
  | @head c e d xs ys hround t ih =>
    have hb : c.Block < header.Block := hround.onward.1
    have hpos : position c = place c := by
      have hlt := UInt32.lt_iff_toNat_lt.mp hb
      rw [position_eq, place]
      omega
    obtain ⟨b, hread, rfl, hgives⟩ := readBlock_round hsize ho hpos hround
    obtain ⟨x1, hx1, hwrote⟩ := exportBlock_writes hs hgives { x with visits := x.visits ++ [c] }
    have hfwd := hround.onward.forward ho
    obtain ⟨N, x', hN, hw⟩ := ih hd (hfwd.block_pos hc) hfwd.offset x1
    refine ⟨N + 1, x', fun n hn => ?_, fun i => ?_⟩
    · obtain ⟨n, rfl⟩ : ∃ m, n = m + 1 := ⟨n - 1, by omega⟩
      rw [exportLoop_round hb hc, hread]
      simp only [hx1]
      exact hN n (by omega)
    · have hold : written { x with visits := x.visits ++ [c] } i = written x i := rfl
      rw [hw, hwrote, hold, gathered_append, List.append_assoc]

/-- **`main` writes what the walk gives off** from block 1 on. -/
theorem main_writes (hheader : ReadHeader f = .ok header)
    (hsize : 512 * (header.Block.toNat + 1) ≤ f.size) (hmax : header.Block.toNat ≤ 2 ^ 23)
    (hs : Serves host header) (h : Trails.Trail (Round header f) start d xs)
    (hd : ¬ d.Block < header.Block) :
    ∃ N e, (∀ n, N ≤ n → main host f n = some (.ok e)) ∧ ∀ i, written e i = gathered xs i := by
  obtain ⟨N, e, hN, hw⟩ := loop_writes hsize hmax hs h hd (by decide) (by decide)
    ⟨fun _ => none, 0, []⟩
  refine ⟨N, e, fun n hn => ?_, hw⟩
  rw [main, hheader]
  exact hN n hn

end Rounds

end Fkfs.ExportTrail
