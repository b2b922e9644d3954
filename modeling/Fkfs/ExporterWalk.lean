/-
How the exporter walks an image.

The loop of `main` stands on a place, reads the seven bytes there as an entry
header whatever they are, and goes on behind the entry or to the next block. So
its walk is decided by the image alone (`Onward`), it goes forward by at least a
byte a round, and it ends at the header's block. An image of one block more is
enough for every read.

Two things go wrong on the way. The bound on the file number is 6 where the
table has 4 rows, so a header that names file 4 or 5 makes the program panic
(`Foreign`); and the byte position is a sum of 32-bit words, which wraps at block
2^23. Where neither comes up the exporter is total, and only there
(`exporter_total_iff`).
-/
import Mathlib.Logic.Relation
import Fkfs.Exporter
import Fkfs.Lib.Trails

set_option autoImplicit false

namespace Fkfs.ExporterWalk

open Bytes Relation
open Fkfs.Exporter

/-! ## Places -/

/-- The byte a cursor stands for. -/
def place (c : Cursor) : ℕ := 512 * c.Block.toNat + c.Offset.toNat

/-- The order of the places: by block, then by offset. -/
def Before (c d : Cursor) : Prop := c.Block < d.Block ∨ c.Block = d.Block ∧ c.Offset < d.Offset

/-- `ReadBlock` looks at the place the cursor stands for, up to the width of a
word. -/
theorem position_eq (c : Cursor) : position c = place c % 2 ^ 32 := by
  simp only [position, place, UInt32.toNat_add, UInt32.toNat_mul, UInt16.toNat_toUInt32]
  change (c.Block.toNat * 512 % 2 ^ 32 + c.Offset.toNat) % 2 ^ 32 = _
  omega

theorem Before.trans {c d e : Cursor} (h : Before c d) (h' : Before d e) : Before c e := by
  simp only [Before, UInt32.lt_iff_toNat_lt, UInt16.lt_iff_toNat_lt, ← UInt32.toNat_inj] at *
  omega

/-- The file index `ReadBlock` uses at a cursor, if it comes to use one. -/
def indexUsed (f : Image) (c : Cursor) : Option UInt8 :=
  let entry := entryOf f.bytes (position c)
  if entry.refused then none else some entry.File

/-- At the place `c` lies what passes for the header of an entry of file 4 or 5. -/
def Foreign (f : Image) (c : Cursor) : Prop :=
  let entry := entryOf f.bytes (place c)
  entry.refused = false ∧ 4 ≤ entry.File.toNat

/-! ## The walk -/

/-- The entry at the place `c` passes with this row of the file table. -/
def Matches (f : Image) (c : Cursor) (file : File) : Prop :=
  let entry := entryOf f.bytes (place c)
  BlockChecksum file entry (slice f.bytes (place c + sizeEntry) entry.Size.toNat) = .ok entry.Crc

/-- From the place `c` the walk goes on to `d`: behind the entry at `c`, if there
is one that passes, and to the next block otherwise. -/
def Onward (header : HeaderBlock) (f : Image) (c d : Cursor) : Prop :=
  let entry := entryOf f.bytes (place c)
  c.Block < header.Block ∧
    (entry.refused = true ∧ d = c.skip
      ∨ entry.refused = false ∧ ∃ file, header.file entry.File = .ok file
        ∧ (Matches f c file ∧ d = c.past entry.Size ∨ ¬ Matches f c file ∧ d = c.skip))

/-- The walk from `c` passes `d`. -/
abbrev Passes (header : HeaderBlock) (f : Image) : Cursor → Cursor → Prop :=
  ReflTransGen (Onward header f)

/-- Where the walk starts. -/
abbrev start : Cursor := ⟨1, 0⟩

theorem onward_unique (header : HeaderBlock) (f : Image) :
    Relator.RightUnique (Onward header f) := by
  rintro c d d' ⟨-, ⟨hr, rfl⟩ | ⟨hr, file, hf, hd⟩⟩ ⟨-, ⟨hr', rfl⟩ | ⟨hr', file', hf', hd'⟩⟩
  · rfl
  · rw [hr] at hr'
    cases hr'
  · rw [hr] at hr'
    cases hr'
  · obtain rfl : file = file' := Except.ok.inj (hf.symm.trans hf')
    rcases hd with ⟨hm, rfl⟩ | ⟨hm, rfl⟩ <;> rcases hd' with ⟨hm', rfl⟩ | ⟨hm', rfl⟩
    · rfl
    · exact absurd hm hm'
    · exact absurd hm' hm
    · rfl

/-- One step forward: `d` lies behind `c`, in the same block or the next one. -/
structure Forward (c d : Cursor) : Prop where
  before : Before c d
  place_lt : place c < place d
  offset : d.Offset.toNat < 512
  block : d.Block.toNat ≤ c.Block.toNat + 1

theorem forward_skip {c : Cursor} {b : UInt32} (hb : c.Block < b) (ho : c.Offset.toNat < 512) :
    Forward c c.skip := by
  have hlt := UInt32.lt_iff_toNat_lt.mp hb
  have hmax := b.toNat_lt
  have hnext : (c.Block + 1).toNat = c.Block.toNat + 1 := by
    rw [UInt32.toNat_add, UInt32.toNat_one]
    omega
  have hlt' : c.Block < c.skip.Block := by
    rw [UInt32.lt_iff_toNat_lt, Cursor.skip, hnext]
    omega
  refine ⟨.inl hlt', ?_, show (0 : UInt16).toNat < 512 by decide, by rw [Cursor.skip, hnext]⟩
  simp only [place, Cursor.skip, hnext, UInt16.toNat_zero]
  omega

/-- The bounds on an entry header: its size is a proper one. -/
theorem size_of_not_refused {entry : Entry} (h : entry.refused = false) :
    0 < entry.Size.toNat ∧ entry.Size.toNat ≤ 505 := by
  simp only [Entry.refused, Bool.or_eq_false_iff, decide_eq_false_iff_not, beq_eq_false_iff_ne,
    ← UInt16.toNat_inj, ne_eq, UInt16.toNat_zero, MaximumEntrySize] at h
  omega

theorem forward_past {c : Cursor} {b : UInt32} (hb : c.Block < b) (ho : c.Offset.toNat < 512)
    {size : UInt16} (hs : size.toNat ≤ 505) : Forward c (c.past size) := by
  have hoff : (c.Offset + size + 7).toNat = c.Offset.toNat + size.toNat + 7 := by
    rw [UInt16.toNat_add, UInt16.toNat_add, show (7 : UInt16).toNat = 7 from rfl]
    omega
  by_cases h : MaximumBlockSize ≤ (c.Offset + size + 7).toNat
  · rw [show c.past size = c.skip from if_pos h]
    exact forward_skip hb ho
  · rw [show c.past size = ⟨c.Block, c.Offset + size + 7⟩ from if_neg h]
    refine ⟨.inr ⟨rfl, ?_⟩, ?_, Nat.lt_of_not_le h, Nat.le_succ _⟩
    · rw [UInt16.lt_iff_toNat_lt, hoff]
      omega
    · simp only [place, hoff]
      omega

/-- **Every step goes forward**, by a byte at least and by a block at most. -/
theorem Onward.forward {header : HeaderBlock} {f : Image} {c d : Cursor}
    (h : Onward header f c d) (ho : c.Offset.toNat < 512) : Forward c d := by
  obtain ⟨hb, ⟨-, rfl⟩ | ⟨hr, file, -, ⟨-, rfl⟩ | ⟨-, rfl⟩⟩⟩ := h
  · exact forward_skip hb ho
  · exact forward_past hb ho (size_of_not_refused hr).2
  · exact forward_skip hb ho

/-- The places of a walk lie inside their blocks. -/
theorem passes_offset {header : HeaderBlock} {f : Image} {c d : Cursor}
    (h : Passes header f c d) (ho : c.Offset.toNat < 512) : d.Offset.toNat < 512 := by
  induction h with
  | refl => exact ho
  | tail _ hs ih => exact (hs.forward ih).offset

/-! ## One call of `ReadBlock` -/

/-- What `ReadBlock` returns when it gets that far: a block to skip, or an entry
of a file of the table. -/
def Returns (header : HeaderBlock) (b : Block) : Prop :=
  b.Entry = none ∨ ∃ entry i, b.Entry = some entry ∧ b.File = some (header.Files i)

/-- An image of one block more than the header's holds whatever is read. -/
theorem reads_inside {header : HeaderBlock} {f : Image} {c : Cursor}
    (hsize : 512 * (header.Block.toNat + 1) ≤ f.size) (hb : c.Block < header.Block)
    (ho : c.Offset.toNat < 512) : place c + 7 + 505 < f.size := by
  have := UInt32.lt_iff_toNat_lt.mp hb
  unfold place
  omega

theorem file_eq_ok {header : HeaderBlock} {i : UInt8} {file : File}
    (h : header.file i = .ok file) : ∃ j, file = header.Files j := by
  unfold HeaderBlock.file at h
  split at h
  · exact ⟨_, (Except.ok.inj h).symm⟩
  · cases h

/-- The exporter's loop over the bytes never leaves them. -/
theorem Crc16Update_ok (crc : UInt16) (data : List UInt8) {n : ℕ} (h : n ≤ data.length) :
    ∃ v, Crc16Update crc data n = .ok v := by
  induction n with
  | zero => exact ⟨crc, rfl⟩
  | succ n ih =>
    obtain ⟨v, hv⟩ := ih (by omega)
    unfold Crc16Update at hv ⊢
    rw [List.range_succ, List.foldlM_append, hv]
    simp only [bind, Except.bind, List.foldlM_cons, List.foldlM_nil, index,
      List.getElem?_eq_getElem (show n < data.length from h)]
    exact ⟨_, rfl⟩

theorem BlockChecksum_ok (file : File) (entry : Entry) (data : List UInt8) :
    ∃ v, BlockChecksum file entry data = .ok v := by
  obtain ⟨u, hu⟩ := Crc16Update_ok file.Version entry.bytes
    (show entry.bytes.length - 2 ≤ entry.bytes.length by omega)
  obtain ⟨v, hv⟩ := Crc16Update_ok u data (le_refl _)
  refine ⟨v, ?_⟩
  rw [BlockChecksum, hu]
  exact hv

/-- **One call**, where it looks where it says: it panics on an entry of file 4 or
5, and otherwise returns what the walk goes on from. -/
theorem readBlock_spec {header : HeaderBlock} {f : Image} {c : Cursor}
    (hsize : 512 * (header.Block.toNat + 1) ≤ f.size) (hb : c.Block < header.Block)
    (ho : c.Offset.toNat < 512) (hpos : position c = place c) :
    Foreign f c ∧ ReadBlock header c f = .error .index
      ∨ ¬ Foreign f c ∧ ∃ b, ReadBlock header c f = .ok b ∧ Returns header b
        ∧ Onward header f c b.Next := by
  have hin := reads_inside hsize hb ho
  have hentry : f.readEntry (place c) = .ok (entryOf f.bytes (place c)) := if_pos (by
    show place c + 7 ≤ f.size
    omega)
  unfold ReadBlock
  rw [hpos, hentry]
  simp only [bind, Except.bind, pure, Except.pure]
  cases hr : (entryOf f.bytes (place c)).refused
  · -- The header passes for one: the payload is read, and the table is indexed.
    have hs := size_of_not_refused hr
    have hdata : f.read (place c + sizeEntry) (entryOf f.bytes (place c)).Size.toNat
        = .ok (slice f.bytes (place c + sizeEntry) (entryOf f.bytes (place c)).Size.toNat) := by
      unfold Image.read
      rw [if_neg (by show ¬ f.size ≤ place c + 7; omega)]
      rw [min_eq_left (by show _ ≤ f.size - (place c + 7); omega),
        show (entryOf f.bytes (place c)).Size.toNat - (f.size - (place c + sizeEntry)) = 0 by
          show _ - (f.size - (place c + 7)) = 0
          omega, List.replicate_zero, List.append_nil]
    simp only [hdata, Bool.false_eq_true, if_false]
    by_cases hi : (entryOf f.bytes (place c)).File.toNat < 4
    · right
      refine ⟨fun hf => absurd hf.2 (by omega), ?_⟩
      have hfile : header.file (entryOf f.bytes (place c)).File = .ok (header.Files ⟨_, hi⟩) :=
        dif_pos hi
      obtain ⟨v, hv⟩ := BlockChecksum_ok (header.Files ⟨_, hi⟩) (entryOf f.bytes (place c))
        (slice f.bytes (place c + sizeEntry) (entryOf f.bytes (place c)).Size.toNat)
      simp only [hfile, hv]
      by_cases hcrc : (entryOf f.bytes (place c)).Crc = v
      · rw [if_neg (not_not.mpr hcrc)]
        refine ⟨_, rfl, .inr ⟨_, _, rfl, rfl⟩, hb, .inr ⟨hr, _, hfile, .inl ⟨?_, rfl⟩⟩⟩
        exact hv.trans (congrArg Except.ok hcrc.symm)
      · rw [if_pos hcrc]
        refine ⟨_, rfl, .inl rfl, hb, .inr ⟨hr, _, hfile, .inr ⟨fun hm => hcrc ?_, rfl⟩⟩⟩
        exact Except.ok.inj (hm.symm.trans hv)
    · left
      refine ⟨⟨hr, by omega⟩, ?_⟩
      rw [show header.file (entryOf f.bytes (place c)).File = .error .index from dif_neg hi]
  · right
    refine ⟨fun hf => ?_, _, rfl, .inl rfl, hb, .inl ⟨hr, rfl⟩⟩
    rw [Foreign, hr] at hf
    cases hf.1

/-! ## The places of a walk -/

/-- The walk from `c` visits `vs` and then comes to the header's block. -/
inductive Walk (header : HeaderBlock) (f : Image) : Cursor → List Cursor → Prop
  | ended {c : Cursor} (h : ¬ c.Block < header.Block) : Walk header f c []
  | step {c d : Cursor} {vs : List Cursor} (h : Onward header f c d) (t : Walk header f d vs) :
      Walk header f c (c :: vs)

section Walks

variable {header : HeaderBlock} {f : Image} {c : Cursor} {vs : List Cursor}

/-- **A walk visits its places in order.** -/
theorem Walk.ordered (h : Walk header f c vs) (ho : c.Offset.toNat < 512) :
    vs.Pairwise Before ∧ ∀ v ∈ vs, v = c ∨ Before c v := by
  induction h with
  | ended => exact ⟨.nil, fun v hv => nomatch hv⟩
  | @step c d vs hs t ih =>
    have hf := hs.forward ho
    obtain ⟨hp, hle⟩ := ih hf.offset
    have hlt : ∀ v ∈ vs, Before c v := by
      intro v hv
      rcases hle v hv with rfl | hd
      · exact hf.before
      · exact hf.before.trans hd
    refine ⟨.cons hlt hp, fun v hv => ?_⟩
    rcases List.mem_cons.mp hv with rfl | hv
    · exact .inl rfl
    · exact .inr (hlt v hv)

/-- What a walk visits it passes, before the header's block. -/
theorem Walk.passes (h : Walk header f c vs) :
    ∀ v ∈ vs, Passes header f c v ∧ v.Block < header.Block := by
  induction h with
  | ended => exact fun v hv => nomatch hv
  | step hs t ih =>
    intro v hv
    rcases List.mem_cons.mp hv with rfl | hv
    · exact ⟨.refl, hs.1⟩
    · exact ⟨.head hs (ih v hv).1, (ih v hv).2⟩

/-- What a walk passes before the header's block it visits. -/
theorem Walk.covers (h : Walk header f c vs) {d : Cursor} (hd : Passes header f c d)
    (hb : d.Block < header.Block) : d ∈ vs := by
  induction h with
  | ended hn =>
    rcases ReflTransGen.cases_head hd with rfl | ⟨e, he, -⟩
    · exact absurd hb hn
    · exact absurd he.1 hn
  | step hs t ih =>
    rcases ReflTransGen.cases_head hd with rfl | ⟨e, he, hed⟩
    · exact List.mem_cons_self
    · rw [onward_unique header f he hs] at hed
      exact List.mem_cons_of_mem _ (ih hed)

/-- A walk visits every block on its way. -/
theorem Walk.blocks (h : Walk header f c vs) (ho : c.Offset.toNat < 512) {b : ℕ}
    (hc : c.Block.toNat ≤ b) (hb : b < header.Block.toNat) : ∃ v ∈ vs, v.Block.toNat = b := by
  induction h with
  | ended hn =>
    rw [UInt32.lt_iff_toNat_lt] at hn
    omega
  | @step c d vs hs t ih =>
    have hf := hs.forward ho
    rcases Nat.lt_or_ge c.Block.toNat b with hlt | hge
    · obtain ⟨v, hv, hvb⟩ := ih hf.offset (le_trans hf.block hlt)
      exact ⟨v, List.mem_cons_of_mem _ hv, hvb⟩
    · exact ⟨c, List.mem_cons_self, by omega⟩

end Walks

/-! ## The loop -/

/-- The operating system opens a file for every name of the table and takes what
is written. -/
structure Serves (host : Host) (header : HeaderBlock) : Prop where
  opens : ∀ n i, host.opens n (exportName host (header.Files i)) = true
  writes : ∀ n, host.writes n = true

section Loop

variable {host : Host} {header : HeaderBlock} {f : Image}

theorem exportBlock_ok (hs : Serves host header) {b : Block} (hb : Returns header b) (x : Export) :
    ∃ x', exportBlock host x b = .ok x' := by
  obtain ⟨bfile, bentry, data, next⟩ := b
  unfold exportBlock
  rcases hb with rfl | ⟨entry, i, rfl, rfl⟩
  · exact ⟨x, rfl⟩
  · have hopen : ∃ info, openExport host x entry.File (header.Files i) = .ok info := by
      unfold openExport
      split
      · exact ⟨_, rfl⟩
      · exact ⟨_, if_pos (hs.opens _ _)⟩
    obtain ⟨info, hinfo⟩ := hopen
    simp only [hinfo, bind, Except.bind, hs.writes, if_true]
    exact ⟨_, rfl⟩

theorem exportBlock_visits {x x' : Export} {b : Block} (h : exportBlock host x b = .ok x') :
    x'.visits = x.visits := by
  unfold exportBlock at h
  split at h
  · next entry file _ _ =>
    cases ho : openExport host x entry.File file with
    | error p =>
      rw [ho] at h
      cases h
    | ok info =>
      simp only [ho, bind, Except.bind] at h
      split at h
      · cases h
        rfl
      · cases h
  · cases h
    rfl

/-- A round of the loop away from block 0. -/
theorem exportLoop_round {n : ℕ} {c : Cursor} {x : Export} (hb : c.Block < header.Block)
    (hc : 0 < c.Block.toNat) :
    exportLoop host header f (n + 1) c x
      = match ReadBlock header c f with
        | .error p => some (.error p)
        | .ok b =>
          match exportBlock host { x with visits := x.visits ++ [c] } b with
          | .error p => some (.error p)
          | .ok x => exportLoop host header f n b.Next x := by
  have h0 : ¬ c.Block = 0 := by
    rintro h
    rw [h] at hc
    exact absurd hc (by decide)
  exact (if_pos hb).trans (if_neg h0)

theorem Forward.block_pos {c d : Cursor} (h : Forward c d) (hc : 0 < c.Block.toNat) :
    0 < d.Block.toNat := by
  have hb := h.before
  simp only [Before, UInt32.lt_iff_toNat_lt, ← UInt32.toNat_inj] at hb
  omega

/-- **Nothing goes wrong on the walk from `c`**: then the loop follows it to its
end, in as many rounds as there are bytes left. -/
theorem loop_total (hsize : 512 * (header.Block.toNat + 1) ≤ f.size)
    (hmax : header.Block.toNat ≤ 2 ^ 23) (hs : Serves host header) {n : ℕ} {c : Cursor}
    (x : Export) (hc : 0 < c.Block.toNat) (ho : c.Offset.toNat < 512) (hn : 0 < n)
    (hfuel : 512 * header.Block.toNat < place c + n)
    (hgood : ∀ d, Passes header f c d → d.Block < header.Block → ¬ Foreign f d) :
    ∃ x' vs, exportLoop host header f n c x = some (.ok x') ∧ x'.visits = x.visits ++ vs
      ∧ Walk header f c vs := by
  induction n generalizing c x with
  | zero => omega
  | succ n ih =>
    by_cases hb : c.Block < header.Block
    · have hlt := UInt32.lt_iff_toNat_lt.mp hb
      have hpl : place c < 512 * header.Block.toNat := by
        unfold place
        omega
      have hpos : position c = place c := by
        rw [position_eq]
        omega
      rcases readBlock_spec hsize hb ho hpos with ⟨hf, -⟩ | ⟨-, b, hread, hret, hnext⟩
      · exact absurd hf (hgood c .refl hb)
      · obtain ⟨x1, hx1⟩ := exportBlock_ok hs hret { x with visits := x.visits ++ [c] }
        have hfwd := hnext.forward ho
        have hplace := hfwd.place_lt
        obtain ⟨x', vs, hloop, hvis, hwalk⟩ := ih x1 (hfwd.block_pos hc) hfwd.offset (by omega)
          (by omega) fun d hd => hgood d (.head hnext hd)
        refine ⟨x', c :: vs, ?_, ?_, .step hnext hwalk⟩
        · rw [exportLoop_round hb hc, hread]
          simp only [hx1]
          exact hloop
        · rw [hvis, exportBlock_visits hx1, List.append_assoc]
          rfl
    · refine ⟨x, [], ?_, by rw [List.append_nil], .ended hb⟩
      rw [exportLoop, if_neg hb]

/-- How a loop that came to its end began: it was over, it left block 0, or it
read a block and went on. -/
theorem exportLoop_cases {n : ℕ} {c : Cursor} {x x' : Export}
    (h : exportLoop host header f (n + 1) c x = some (.ok x')) :
    ¬ c.Block < header.Block ∧ x' = x
      ∨ c.Block = 0 ∧ exportLoop host header f n ⟨c.Block + 1, c.Offset⟩ x = some (.ok x')
      ∨ c.Block < header.Block ∧ ∃ b x1, ReadBlock header c f = .ok b
        ∧ x1.visits = x.visits ++ [c] ∧ exportLoop host header f n b.Next x1 = some (.ok x') := by
  rw [exportLoop] at h
  by_cases hb : c.Block < header.Block
  · rw [if_pos hb] at h
    by_cases h0 : c.Block = 0
    · rw [if_pos h0] at h
      exact .inr (.inl ⟨h0, h⟩)
    · rw [if_neg h0] at h
      refine .inr (.inr ⟨hb, ?_⟩)
      cases hread : ReadBlock header c f with
      | error p =>
        rw [hread] at h
        cases h
      | ok b =>
        rw [hread] at h
        dsimp only at h
        cases hx : exportBlock host { x with visits := x.visits ++ [c] } b with
        | error p =>
          rw [hx] at h
          cases h
        | ok x1 =>
          rw [hx] at h
          exact ⟨b, x1, rfl, exportBlock_visits hx, h⟩
  · rw [if_neg hb] at h
    cases h
    exact .inl ⟨hb, rfl⟩

/-- More rounds change nothing once the loop has come to its end. -/
theorem exportLoop_mono {n m : ℕ} (hnm : n ≤ m) {c : Cursor} {x x' : Export}
    (h : exportLoop host header f n c x = some (.ok x')) :
    exportLoop host header f m c x = some (.ok x') := by
  induction n generalizing m c x with
  | zero => cases h
  | succ n ih =>
    obtain ⟨m, rfl⟩ : ∃ k, m = k + 1 := ⟨m - 1, by omega⟩
    rw [exportLoop] at h ⊢
    by_cases hb : c.Block < header.Block
    · rw [if_pos hb] at h ⊢
      by_cases h0 : c.Block = 0
      · rw [if_pos h0] at h ⊢
        exact ih (by omega) h
      · rw [if_neg h0] at h ⊢
        split at h
        · cases h
        · split at h
          · cases h
          · exact ih (by omega) h
    · rw [if_neg hb] at h ⊢
      exact h

/-- The loop forgets no visit. -/
theorem exportLoop_grows {n : ℕ} {c : Cursor} {x x' : Export}
    (h : exportLoop host header f n c x = some (.ok x')) : x.visits <+: x'.visits := by
  induction n generalizing c x with
  | zero => cases h
  | succ n ih =>
    rcases exportLoop_cases h with ⟨-, rfl⟩ | ⟨-, hloop⟩ | ⟨-, b, x1, -, hx1, hloop⟩
    · exact List.prefix_rfl
    · exact ih hloop
    · exact (List.prefix_append _ _).trans (hx1 ▸ ih hloop)

/-- A loop that came to its end and looked where it says has followed the walk,
and there was nothing foreign on it. -/
theorem loop_walked (hsize : 512 * (header.Block.toNat + 1) ≤ f.size) {n : ℕ} {c : Cursor}
    {x x' : Export} (hc : 0 < c.Block.toNat) (ho : c.Offset.toNat < 512)
    (h : exportLoop host header f n c x = some (.ok x'))
    (hpos : ∀ v ∈ x'.visits, position v = place v) :
    ∃ vs, x'.visits = x.visits ++ vs ∧ Walk header f c vs ∧ ∀ v ∈ vs, ¬ Foreign f v := by
  induction n generalizing c x with
  | zero => cases h
  | succ n ih =>
    rcases exportLoop_cases h with ⟨hb, rfl⟩ | ⟨h0, -⟩ | ⟨hb, b, x1, hread, hx1, hloop⟩
    · exact ⟨[], by rw [List.append_nil], .ended hb, fun v hv => nomatch hv⟩
    · rw [h0] at hc
      exact absurd hc (by decide)
    · have hmem : c ∈ x'.visits := by
        apply (exportLoop_grows hloop).subset
        rw [hx1]
        exact List.mem_append_right _ (List.mem_singleton_self c)
      rcases readBlock_spec hsize hb ho (hpos c hmem) with ⟨-, he⟩ | ⟨hf, b', hread', -, hnext⟩
      · rw [hread] at he
        cases he
      · obtain rfl : b = b' := Except.ok.inj (hread.symm.trans hread')
        have hfwd := hnext.forward ho
        obtain ⟨vs, hvis, hwalk, hgood⟩ := ih (hfwd.block_pos hc) hfwd.offset hloop
        refine ⟨c :: vs, ?_, .step hnext hwalk, fun v hv => ?_⟩
        · rw [hvis, hx1, List.append_assoc]
          rfl
        · rcases List.mem_cons.mp hv with rfl | hv
          · exact hf
          · exact hgood v hv

end Loop

/-! ## When the exporter is total -/

/-- The exporter is total on an image: the loop comes to its end in every run of
enough rounds, it visits its places in increasing order, and every `ReadBlock`
call reads at the byte its cursor stands for and uses a row the table has. -/
def Total (host : Host) (header : HeaderBlock) (f : Image) : Prop :=
  ∃ x N, (∀ n, N ≤ n → exportFrom host header f n = some (.ok x))
    ∧ x.visits.Pairwise Before
    ∧ ∀ c ∈ x.visits, position c = 512 * c.Block.toNat + c.Offset.toNat
      ∧ ∀ i ∈ indexUsed f c, i.toNat < 4

/-- An entry of a row the table has is not foreign, and the other way round. -/
theorem not_foreign_iff {f : Image} {c : Cursor} (hpos : position c = place c) :
    ¬ Foreign f c ↔ ∀ i ∈ indexUsed f c, i.toNat < 4 := by
  unfold Foreign indexUsed
  rw [hpos]
  cases (entryOf f.bytes (place c)).refused <;> simp

/-- **When the exporter is total.** For every header and every image of one block
more than the header's: exactly if the header's block is at most 2^23, and at no
place the walk passes lies what passes for an entry of file 4 or 5. -/
theorem exporter_total_iff {host : Host} {header : HeaderBlock} {f : Image}
    (hs : Serves host header) (hsize : 512 * (header.Block.toNat + 1) ≤ f.size) :
    Total host header f ↔ header.Block.toNat ≤ 2 ^ 23
      ∧ ∀ c, Passes header f start c → c.Block < header.Block → ¬ Foreign f c := by
  have hc : 0 < start.Block.toNat := by decide
  have ho : start.Offset.toNat < 512 := by decide
  constructor
  · rintro ⟨x, N, hrun, -, hvis⟩
    obtain ⟨vs, hx, hwalk, hgood⟩ := loop_walked hsize hc ho (hrun N (le_refl N))
      fun v hv => (hvis v hv).1
    rw [List.nil_append] at hx
    refine ⟨?_, fun c hp hb => hgood c (hwalk.covers hp hb)⟩
    -- Behind block 2^23 the byte position is no longer the place.
    by_contra hmax
    obtain ⟨v, hv, hvb⟩ := hwalk.blocks ho (b := 2 ^ 23) (by decide) (by omega)
    have hpos := (hvis v (hx ▸ hv)).1
    rw [position_eq, place] at hpos
    omega
  · rintro ⟨hmax, hgood⟩
    obtain ⟨x, vs, hx, hvis, hwalk⟩ := loop_total hsize hmax hs ⟨fun _ => none, 0, []⟩ hc ho
      (show 0 < 512 * header.Block.toNat + 1 by omega) (by unfold place; omega) hgood
    rw [List.nil_append] at hvis
    refine ⟨x, 512 * header.Block.toNat + 1, fun n hn => exportLoop_mono hn hx, ?_, fun v hv => ?_⟩
    · rw [hvis]
      exact (hwalk.ordered ho).1
    · rw [hvis] at hv
      obtain ⟨hp, hb⟩ := hwalk.passes v hv
      have hoff : v.Offset.toNat < 512 := passes_offset hp ho
      have hpos : position v = place v := by
        rw [position_eq, place]
        have := UInt32.lt_iff_toNat_lt.mp hb
        omega
      exact ⟨hpos, (not_foreign_iff hpos).mp (hgood v hp hb)⟩

/-! ## A byte 4 where an entry could start -/

/-- An operating system that refuses nothing. -/
def freeHost : Host := ⟨[], fun _ _ => true, fun _ => true⟩

/-- A header of zeros, but for its block. -/
def headerTo (block : UInt32) : HeaderBlock := { headerOf (fun _ => 0) 0 with Block := block }

/-- Three blocks of zeros, but for the first five bytes of block 1: the header of
an entry of file 4 with one byte of payload. -/
def foreignImage : Image :=
  ⟨1536, fun i => if i = 512 then 4 else if i = 513 ∨ i = 515 then 1 else 0⟩

/-- The exporter panics on it: file 4 is within its bounds, and there is no row
for it. -/
theorem foreign_panics : ¬ Total freeHost (headerTo 2) foreignImage := by
  rintro ⟨x, N, hrun, -⟩
  have hround := hrun (N + 1) (Nat.le_succ N)
  have hpanic : ReadBlock (headerTo 2) start foreignImage = .error .index := by rfl
  rw [exportFrom, exportLoop_round (by decide) (by decide), hpanic] at hround
  cases hround

/-- `exporter_total_iff` on three blocks of zeros. -/
theorem exporter_total_zeros : Total freeHost (headerTo 2) ⟨1536, fun _ => 0⟩ := by
  refine (exporter_total_iff ⟨fun _ _ => rfl, fun _ => rfl⟩ (by decide)).mpr
    ⟨by decide, fun c _ _ hf => ?_⟩
  exact absurd (show (entryOf (fun _ => 0) 0).refused = false from hf.1) (by decide)

end Fkfs.ExporterWalk
