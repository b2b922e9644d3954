/-
The exporter on a card the device has written.

The two programs read one log and step over it differently. The device steps over an
entry of an older version and goes on behind it; the exporter gives up the block. The
device reads to the writer's place; the exporter stops before the writer's block. So
of every block before that one the exporter takes the records before the first that a
truncation has made stale (`taken`), and on a card without truncations that is all
there is in those blocks (`exporter_takes`, `exporter_complete`).

A block is left with zeros behind its last entry (`ZeroTail`), and there the exporter
goes on to the next one. At offset 510 or 511 it reads the bytes of the next block as
the rest of an entry header, and only the CRC stands between it and a payload nobody
has written (`NoPhantom`).
-/
import Fkfs.ExportTrail
import Fkfs.Selection
import Fkfs.Tapes

set_option autoImplicit false

namespace Fkfs.Exports

open Bytes Relation
open Fkfs.Crc Fkfs.Layout Fkfs.Device Fkfs.Search Fkfs.Append Fkfs.Iterate Fkfs.Mount Fkfs.Cache
open Fkfs.Walk Fkfs.Writer Fkfs.Reader Fkfs.Run Fkfs.Slots Fkfs.Log Fkfs.CardLog Fkfs.Structure
open Fkfs.Journal Fkfs.Tapes Fkfs.Checksum Fkfs.Selection Fkfs.ExportTrail
open Fkfs.Exporter (Image HeaderBlock entryOf ReadHeader sizeEntry Host Export)
open Fkfs.ExporterWalk (Matches Serves start)

/-! ## What the exporter takes -/

/-- The record is of the version its file has now. -/
def current (h : fkfs_header_t) (r : Rec) : Bool := (h.files r.file).version == r.version

/-- What the exporter takes of block `b`: the records before the first stale one. -/
def taken (h : fkfs_header_t) (recs : List (ℕ × Rec)) (b : ℕ) : List Rec :=
  ((recs.filter fun r => r.1 = b).map Prod.snd).takeWhile (current h)

/-- What it takes of the blocks before `b`. -/
def takenBefore (h : fkfs_header_t) (recs : List (ℕ × Rec)) (b : ℕ) : List Rec :=
  (List.range b).flatMap (taken h recs)

/-- A record as the exporter gives it off. -/
def item (r : Rec) : Item := (r.entry.file, r.data)

/-- Behind the last entry of the block there are zeros. -/
def ZeroTail (blk : Block) : Prop :=
  ∀ o, Chain blk 0 o → (∀ o', ¬ Link blk o o') → ∀ i, o ≤ i → blk.mem i = 0

/-- Where the exporter stands in block `b`. -/
def cursorAt (b o : ℕ) : Exporter.Cursor :=
  if o = 512 then ⟨UInt32.ofNat (b + 1), 0⟩ else ⟨UInt32.ofNat b, UInt16.ofNat o⟩

/-- No chain that ends in the last two bytes of a block is gone on with by bytes of the
next block that pass for an entry. -/
def NoPhantom (h : fkfs_header_t) (f : Image) (sd : Card) : Prop :=
  ∀ b o, 8000 ≤ b → b < h.block.toNat → 509 < o → o < 512 → Chain (sd.blocks b) 0 o →
    ¬ Matches f (cursorAt b o) (exported (h.files 0))

/-! ## Places -/

section Places

variable {b o : ℕ}

theorem cursorAt_of_lt (ho : o < 512) : cursorAt b o = ⟨UInt32.ofNat b, UInt16.ofNat o⟩ :=
  if_neg (by omega)

theorem cursorAt_full (b : ℕ) : cursorAt b 512 = ⟨UInt32.ofNat (b + 1), 0⟩ := if_pos rfl

theorem cursorAt_zero (b : ℕ) : cursorAt b 0 = ⟨UInt32.ofNat b, 0⟩ := if_neg (by omega)

theorem offset_toNat (ho : o < 512) : (UInt16.ofNat o).toNat = o := by
  rw [UInt16.toNat_ofNat']
  omega

theorem block_cursorAt (hb : b < 2 ^ 32) (ho : o < 512) : (cursorAt b o).Block.toNat = b := by
  rw [cursorAt_of_lt ho]
  exact UInt32.toNat_ofNat_of_lt' hb

theorem place_cursorAt (hb : b < 2 ^ 32) (ho : o < 512) :
    ExporterWalk.place (cursorAt b o) = 512 * b + o := by
  rw [ExporterWalk.place, block_cursorAt hb ho, cursorAt_of_lt ho, offset_toNat ho]

theorem skip_cursorAt (b : ℕ) (ho : o < 512) : (cursorAt b o).skip = cursorAt (b + 1) 0 := by
  have hnext : UInt32.ofNat b + 1 = UInt32.ofNat (b + 1) := by
    rw [← UInt32.toNat_inj, UInt32.toNat_add, UInt32.toNat_ofNat', UInt32.toNat_ofNat',
      UInt32.toNat_one]
    omega
  rw [cursorAt_of_lt ho, cursorAt_zero, Exporter.Cursor.skip, hnext]

theorem past_cursorAt (b : ℕ) (ho : o < 512) {size : UInt16}
    (hroom : o + (7 + size.toNat) ≤ 512) :
    (cursorAt b o).past size = cursorAt b (o + (7 + size.toNat)) := by
  have hoff : (UInt16.ofNat o + size + 7).toNat = o + (7 + size.toNat) := by
    rw [UInt16.toNat_add, UInt16.toNat_add, offset_toNat ho, show (7 : UInt16).toNat = 7 from rfl]
    omega
  have hskip := skip_cursorAt b ho
  rw [cursorAt_of_lt ho] at hskip ⊢
  by_cases hfull : o + (7 + size.toNat) = 512
  · rw [hfull, cursorAt_full, ← cursorAt_zero, ← hskip]
    exact if_pos (le_of_eq (hfull.symm.trans hoff.symm))
  · have hlt : o + (7 + size.toNat) < 512 := by omega
    have hin : ¬ Exporter.MaximumBlockSize ≤ (UInt16.ofNat o + size + 7).toNat := by
      rw [hoff]
      exact Nat.not_le_of_lt hlt
    have hsame : UInt16.ofNat o + size + 7 = UInt16.ofNat (o + (7 + size.toNat)) := by
      rw [← UInt16.toNat_inj, hoff, offset_toNat hlt]
    rw [cursorAt_of_lt hlt, ← hsame]
    exact if_neg hin

end Places

/-! ## The records of a block -/

section Blocks

variable {h : fkfs_header_t} {f : Image} {sd : Card} {b : ℕ}

/-- What the exporter reads in block `b` is what lies there. -/
theorem holds_image (hf : ImageOf f sd) (hsize : 512 * (b + 1) ≤ f.size) {o : ℕ}
    {bs : List UInt8} (hroom : o + bs.length ≤ 512) (hh : Holds (sd.blocks b).mem o bs) :
    Holds f.bytes (512 * b + o) bs := by
  rw [holds_iff] at hh ⊢
  intro i hi
  rw [← hh i hi, Nat.add_assoc]
  exact hf b (o + i) (by omega) (by omega)

/-- What is read as an entry header is laid out as one. -/
theorem holds_entryAt (m : Mem) (o : ℕ) : Holds m o (entryAt m o).bytes := by
  simp only [fkfs_entry_t.bytes, holds_cons, holds_append, le16_length,
    Nat.add_assoc, Nat.reduceAdd]
  exact ⟨rfl, holds_u16 m (o + 1), holds_u16 m (o + 3), holds_u16 m (o + 5)⟩

/-- The entry of a stored record, as the exporter reads it. -/
theorem stored_image (hf : ImageOf f sd) (hsize : 512 * (b + 1) ≤ f.size) {o : ℕ} {r : Rec}
    (hs : Stored (sd.blocks b) o r) :
    entryOf f.bytes (512 * b + o) = exportedEntry r.entry
      ∧ slice f.bytes (512 * b + o + sizeEntry) r.data.length = r.data := by
  have hroom := hs.room
  have hh := holds_image hf hsize (by rw [Rec.bytes_length]; exact hroom) hs.holds
  rw [Rec.bytes, holds_append] at hh
  have hentry : entryAt f.bytes (512 * b + o) = r.entry := entryAt_of_holds hh.1
  exact ⟨congrArg exportedEntry hentry, hh.2⟩

/-- **A round over a stored record**: the exporter takes it if it is current, and
otherwise gives up the block. -/
theorem round_stored (hf : ImageOf f sd) (hsize : 512 * (b + 1) ≤ f.size)
    (hb : b < h.block.toNat) (hmax : h.block.toNat ≤ 2 ^ 23) {o : ℕ} {r : Rec}
    (hs : Stored (sd.blocks b) o r) :
    (current h r = true
        ∧ Round (exportedHeader h) f (cursorAt b o) [item r] (cursorAt b (o + r.length)))
      ∨ current h r = false
        ∧ Round (exportedHeader h) f (cursorAt b o) [] (cursorAt (b + 1) 0) := by
  have ho : o < 512 := lt_of_le_of_lt hs.le (by omega)
  have hroom := hs.room
  rw [Rec.length] at hroom
  obtain ⟨hentry, hdata⟩ := stored_image hf hsize hs
  have hplace : ExporterWalk.place (cursorAt b o) = 512 * b + o := place_cursorAt (by omega) ho
  rw [← hplace] at hentry hdata
  have hblock : (cursorAt b o).Block < (exportedHeader h).Block := by
    rw [UInt32.lt_iff_toNat_lt, block_cursorAt (by omega) ho]
    exact hb
  have hlen := Rec.entry_size hs.fits
  have hfits := hs.fits
  have hrefused : (entryOf f.bytes (ExporterWalk.place (cursorAt b o))).refused = false := by
    have h3 := r.file.isLt
    rw [hentry]
    simp only [Exporter.Entry.refused, exportedEntry, Bool.or_eq_false_iff,
      decide_eq_false_iff_not, beq_eq_false_iff_ne, ← UInt16.toNat_inj, ne_eq, UInt16.toNat_zero,
      Exporter.MaximumEntrySize, Rec.entry_available hs.fits, hlen, r.entry_file]
    unfold Rec.Fits at hfits
    omega
  have hfile : (exportedHeader h).file (entryOf f.bytes (ExporterWalk.place (cursorAt b o))).File
      = .ok (exported (h.files r.file)) := by
    have hi : r.entry.file.toNat < 4 := by
      rw [r.entry_file]
      exact r.file.isLt
    rw [hentry]
    refine (dif_pos hi).trans (congrArg Except.ok (congrArg exported (congrArg h.files ?_)))
    exact Fin.ext r.entry_file
  have hslice : slice f.bytes (ExporterWalk.place (cursorAt b o) + sizeEntry)
      (entryOf f.bytes (ExporterWalk.place (cursorAt b o))).Size.toNat = r.data := by
    rw [hentry]
    change slice f.bytes _ r.entry.size.toNat = r.data
    rw [hlen]
    exact hdata
  -- Only the version enters the CRC of what was stored.
  have hmatch : Matches f (cursorAt b o) (exported (h.files r.file))
      ↔ (h.files r.file).version = r.version := by
    unfold Matches
    dsimp only
    rw [hslice, hentry, BlockChecksum_eq]
    constructor
    · intro hc
      exact crc16_update_inj _ (crc16_update_inj _ (Except.ok.inj hc))
    · intro hv
      refine congrArg Except.ok ?_
      unfold fkfs_block_crc
      rw [hv]
      rfl
  by_cases hv : (h.files r.file).version = r.version
  · left
    have hround := Round.taken hblock hrefused hfile (hmatch.mpr hv)
    rw [hslice, hentry] at hround
    have hpast : (cursorAt b o).past r.entry.size = cursorAt b (o + r.length) := by
      rw [past_cursorAt b ho (by rw [hlen]; exact hroom), hlen, Rec.length]
    refine ⟨beq_iff_eq.mpr hv, ?_⟩
    rw [← hpast]
    exact hround
  · right
    have hround := Round.mismatch hblock hrefused hfile fun hm => hv (hmatch.mp hm)
    rw [skip_cursorAt b ho] at hround
    exact ⟨beq_eq_false_iff_ne.mpr hv, hround⟩

/-- **A round at the end of a block** goes on to the next. -/
theorem round_end (hf : ImageOf f sd) (hsize : 512 * (b + 1) ≤ f.size) (hge : 8000 ≤ b)
    (hb : b < h.block.toNat) (hmax : h.block.toNat ≤ 2 ^ 23) (hno : NoPhantom h f sd) {o : ℕ}
    (ho : o < 512) (hchain : Chain (sd.blocks b) 0 o)
    (hzero : ∀ i, o ≤ i → (sd.blocks b).mem i = 0) :
    Round (exportedHeader h) f (cursorAt b o) [] (cursorAt (b + 1) 0) := by
  have hplace : ExporterWalk.place (cursorAt b o) = 512 * b + o := place_cursorAt (by omega) ho
  have hblock : (cursorAt b o).Block < (exportedHeader h).Block := by
    rw [UInt32.lt_iff_toNat_lt, block_cursorAt (by omega) ho]
    exact hb
  have hbyte : ∀ i, o + i < 512 → f.bytes (512 * b + o + i) = 0 := by
    intro i hi
    rw [Nat.add_assoc, hf b (o + i) hi (by omega)]
    exact hzero _ (by omega)
  rw [← skip_cursorAt b ho]
  cases hr : (entryOf f.bytes (ExporterWalk.place (cursorAt b o))).refused with
  | true => exact .refused hblock hr
  | false =>
    -- The size is not zero, so its two bytes are not both of this block.
    have hpos := (ExporterWalk.size_of_not_refused hr).1
    rw [hplace] at hpos
    have hlast : 509 < o := by
      by_contra hle
      have hnone : u16 f.bytes (512 * b + o + 1) = 0 := by
        rw [u16, hbyte 1 (by omega), Nat.add_assoc (512 * b + o), hbyte 2 (by omega)]
        rfl
      rw [entryOf, hnone] at hpos
      exact absurd hpos (lt_irrefl 0)
    have hfile : (exportedHeader h).file
        (entryOf f.bytes (ExporterWalk.place (cursorAt b o))).File = .ok (exported (h.files 0)) := by
      have h0 : (entryOf f.bytes (ExporterWalk.place (cursorAt b o))).File = 0 := by
        rw [hplace]
        exact hbyte 0 (by omega)
      rw [h0]
      rfl
    exact .mismatch hblock hr hfile (hno b o hge hb hlast ho hchain)

/-- **A block that was left**: the exporter takes the records before the first stale
one. -/
theorem rounds_block (hf : ImageOf f sd) (hsize : 512 * (b + 1) ≤ f.size) (hge : 8000 ≤ b)
    (hb : b < h.block.toNat) (hmax : h.block.toNat ≤ 2 ^ 23) (hno : NoPhantom h f sd)
    (hz : ZeroTail (sd.blocks b)) {p q : Place} {rs : List Rec}
    (ht : Trails.Trail (LogStep sd.blocks) p q rs) (hq : q = place (b + 1) 0)
    (hp : blockOf p = b) (ho : offsetOf p ≤ 512) (hchain : Chain (sd.blocks b) 0 (offsetOf p)) :
    Trails.Trail (Round (exportedHeader h) f) (cursorAt b (offsetOf p)) (cursorAt (b + 1) 0)
      ((rs.takeWhile (current h)).map item) := by
  induction ht with
  | refl p =>
    rw [hq, blockOf_place] at hp
    omega
  | @head p c q xs ys hs t ih =>
    subst hp
    rcases hs with ⟨r, hr, rfl, rfl⟩ | ⟨⟨-, hend⟩, rfl, rfl⟩
    · have hrest := ih hq rfl hr.room (hchain.tail hr.link)
      rw [List.singleton_append]
      rcases round_stored hf hsize hb hmax hr with ⟨hcur, hround⟩ | ⟨hcur, hround⟩
      · rw [List.takeWhile_cons_of_pos hcur, List.map_cons, ← List.singleton_append]
        exact .head hround hrest
      · rw [List.takeWhile_cons_of_neg (by rw [hcur]; exact Bool.false_ne_true)]
        exact .single hround
    · -- Nothing is left of the trail.
      have hys : ys = [] := by
        subst hq
        cases t with
        | refl => rfl
        | head hs' t' => exact absurd (lt_of_lt_of_le hs'.lt (t'.le LogStep.lt)) (lt_irrefl _)
      rw [hys]
      rcases eq_or_lt_of_le ho with hfull | hlt
      · rw [hfull, cursorAt_full, ← cursorAt_zero]
        exact .refl _
      · exact .single (round_end hf hsize hge hb hmax hno hlt hchain (hz _ hchain hend))

end Blocks

/-! ## The records by blocks -/

section Groups

variable {α : Type*} {l : List (ℕ × α)}

/-- A list in the order of its tags, one tag further. -/
theorem filter_lt_succ (h : l.Pairwise fun x y => x.1 ≤ y.1) (n : ℕ) :
    l.filter (fun x => x.1 < n + 1)
      = l.filter (fun x => x.1 < n) ++ l.filter fun x => x.1 = n := by
  induction l with
  | nil => rfl
  | cons x l ih =>
    obtain ⟨hx, hl⟩ := List.pairwise_cons.mp h
    rcases Nat.lt_trichotomy x.1 n with hlt | heq | hgt
    · have hne : ¬ x.1 = n := by omega
      simp only [List.filter_cons, hlt, hne, show x.1 < n + 1 by omega, decide_true, decide_false,
        if_true, Bool.false_eq_true, if_false, ih hl, List.cons_append]
    · -- What comes behind is not smaller.
      have hnone : l.filter (fun x => x.1 < n) = [] := by
        refine List.filter_eq_nil_iff.mpr fun y hy => ?_
        have := hx y hy
        simp only [decide_eq_true_eq]
        omega
      have hih := ih hl
      rw [hnone, List.nil_append] at hih
      simp only [List.filter_cons, heq, Nat.lt_irrefl, Nat.lt_succ_self, decide_true, decide_false,
        if_true, Bool.false_eq_true, if_false, hih, hnone, List.nil_append]
    · simp only [List.filter_cons, show ¬ x.1 < n by omega, show ¬ x.1 = n by omega,
        show ¬ x.1 < n + 1 by omega, decide_false, Bool.false_eq_true, if_false, ih hl]

end Groups

section Records

variable {V : ℕ → Block} {p q : Place} {h : fkfs_header_t} {recs : List (ℕ × Rec)} {b : ℕ}

/-- The records of a log lie in the order of their blocks. -/
theorem blocks_sorted (ht : Trails.Trail (BlockStep V) p q recs) :
    recs.Pairwise fun x y => x.1 ≤ y.1 := by
  induction ht with
  | refl p => exact .nil
  | @head p c q xs ys hs t ih =>
    have hge : blockOf p ≤ blockOf c := blockOf_le (le_of_lt hs.lt)
    obtain ⟨zs, -, rfl⟩ := hs
    have htag : ∀ x ∈ zs.map fun r => (blockOf p, r), x.1 = blockOf p := by
      intro x hx
      obtain ⟨z, -, rfl⟩ := List.mem_map.mp hx
      rfl
    refine List.pairwise_append.mpr ⟨?_, ih, fun x hx y hy => ?_⟩
    · exact List.pairwise_of_forall_mem_list fun x hx y hy => by rw [htag x hx, htag y hy]
    · rw [htag x hx]
      exact le_trans hge (blocks_ge t y hy)

/-- **What lies in one block** is the log from its start to that of the next. -/
theorem block_records (hlog : BlocksTo V p recs) (hge : 8000 ≤ b) (hlt : b < blockOf p) :
    Trails.Trail (LogStep V) (place b 0) (place (b + 1) 0)
      ((recs.filter fun r => r.1 = b).map Prod.snd) := by
  have hstart : ∀ c, 8000 ≤ c → c ≤ blockOf p → ∃ as, BlocksTo V (place c 0) as := by
    intro c h1 h2
    obtain ⟨rs, hrs, -⟩ := hlog.log.block_start h1 h2
    obtain ⟨as, has, -⟩ := blocksTo_of_log hrs
    exact ⟨as, has⟩
  obtain ⟨as, has⟩ := hstart b hge (le_of_lt hlt)
  obtain ⟨bs, hbs⟩ := hstart (b + 1) (by omega) hlt
  obtain ⟨ds, rfl, hds⟩ := has.split hbs (place_le.mpr (.inl (by omega)))
  have hle : place (b + 1) 0 ≤ p := by
    rw [← place_eta p, place_le]
    omega
  obtain ⟨es, rfl, hes⟩ := hbs.split hlog hle
  have h1 : as.filter (fun r => r.1 = b) = [] := by
    refine List.filter_eq_nil_iff.mpr fun r hr => ?_
    have := blocks_lt has r hr
    simp only [decide_eq_true_eq]
    omega
  have h2 : ds.filter (fun r => r.1 = b) = ds := by
    refine List.filter_eq_self.mpr fun r hr => ?_
    have hlow := blocks_ge hds r hr
    have hhigh := blocks_lt hbs r (List.mem_append_right _ hr)
    rw [blockOf_place] at hlow
    simp only [decide_eq_true_eq]
    omega
  have h3 : es.filter (fun r => r.1 = b) = [] := by
    refine List.filter_eq_nil_iff.mpr fun r hr => ?_
    have := blocks_ge hes r hr
    rw [blockOf_place] at this
    simp only [decide_eq_true_eq]
    omega
  rw [List.filter_append, List.filter_append, h1, h2, h3, List.nil_append, List.append_nil]
  exact Trails.Trail.unmarked (fun _ _ => rfl) hds

/-- There is nothing below the first block of the log. -/
theorem taken_low (hlog : BlocksTo V p recs) (hb : b < 8000) : taken h recs b = [] := by
  have hnone : recs.filter (fun r => r.1 = b) = [] := by
    refine List.filter_eq_nil_iff.mpr fun r hr => ?_
    have := blocks_ge hlog r hr
    rw [origin, blockOf_place] at this
    simp only [decide_eq_true_eq]
    omega
  rw [taken, hnone]
  rfl

theorem takenBefore_succ (h : fkfs_header_t) (recs : List (ℕ × Rec)) (b : ℕ) :
    takenBefore h recs (b + 1) = takenBefore h recs b ++ taken h recs b := by
  rw [takenBefore, List.range_succ, List.flatMap_append, List.flatMap_singleton]
  rfl

/-- What the exporter takes is current. -/
theorem current_of_taken {r : Rec} (hr : r ∈ takenBefore h recs b) : current h r = true := by
  obtain ⟨c, -, hc⟩ := List.mem_flatMap.mp hr
  exact List.mem_takeWhile_imp hc

/-- What it takes lies in the blocks before, in that order. -/
theorem takenBefore_sublist (hs : recs.Pairwise fun x y => x.1 ≤ y.1) (b : ℕ) :
    (takenBefore h recs b).Sublist ((recs.filter fun r => r.1 < b).map Prod.snd) := by
  induction b with
  | zero => exact List.nil_sublist _
  | succ b ih =>
    rw [takenBefore_succ, filter_lt_succ hs, List.map_append]
    exact ih.append (List.takeWhile_sublist _)

/-- **Nothing is passed over** where nothing is stale. -/
theorem takenBefore_all (hs : recs.Pairwise fun x y => x.1 ≤ y.1)
    (hall : ∀ r ∈ recs, current h r.2 = true) (b : ℕ) :
    takenBefore h recs b = (recs.filter fun r => r.1 < b).map Prod.snd := by
  induction b with
  | zero =>
    have hnone : recs.filter (fun r => r.1 < 0) = [] :=
      List.filter_eq_nil_iff.mpr fun r _ => by simp
    rw [hnone]
    rfl
  | succ b ih =>
    rw [takenBefore_succ, filter_lt_succ hs, List.map_append, ih, taken]
    congr 1
    refine List.takeWhile_eq_self_iff.mpr fun r hr => ?_
    obtain ⟨x, hx, rfl⟩ := List.mem_map.mp hr
    exact hall x (List.mem_of_mem_filter hx)

/-- What records hold in the blocks before `b`. -/
theorem held_filter (h : fkfs_header_t) (g : FileNumber) (recs : List (ℕ × Rec)) (b : ℕ) :
    held h g (recs.filter fun r => r.1 < b) = (held h g recs).filter fun y => y.1 < b := by
  induction recs with
  | nil => rfl
  | cons r recs ih =>
    have hcons : held h g (r :: recs) = held h g [r] ++ held h g recs := by
      rw [← held_append]
      rfl
    have htag : ∀ y ∈ held h g [r], y.1 = r.1 := by
      intro y hy
      obtain ⟨r', hr', hy⟩ := List.mem_flatMap.mp hy
      obtain ⟨d, -, rfl⟩ := List.mem_map.mp hy
      rw [List.mem_singleton.mp hr']
    rw [hcons, List.filter_append, ← ih]
    by_cases hr : r.1 < b
    · have hself : (held h g [r]).filter (fun y => y.1 < b) = held h g [r] :=
        List.filter_eq_self.mpr fun y hy => by simpa [htag y hy] using hr
      rw [List.filter_cons_of_pos (by simpa using hr), hself, ← held_append]
      rfl
    · have hnone : (held h g [r]).filter (fun y => y.1 < b) = [] :=
        List.filter_eq_nil_iff.mpr fun y hy => by simpa [htag y hy] using hr
      rw [List.filter_cons_of_neg (by simpa using hr), hnone, List.nil_append]

/-- What is given off for a file is what the records hold of it, as far as they are
current. -/
theorem gathered_items {rs : List Rec} (hall : ∀ r ∈ rs, current h r = true) (g : FileNumber) :
    gathered (rs.map item) (UInt8.ofNat g.val) = (mine h g rs).flatten := by
  induction rs with
  | nil => rfl
  | cons r rs ih =>
    have hcur : (h.files r.file).version = r.version :=
      beq_iff_eq.mp (hall r List.mem_cons_self)
    have hfile : (item r).1 = UInt8.ofNat g.val ↔ r.file = g := by
      have h1 := r.entry_file
      have h2 := r.file.isLt
      have h3 := g.isLt
      rw [item, ← UInt8.toNat_inj, h1, UInt8.toNat_ofNat', Fin.ext_iff]
      omega
    rw [← List.singleton_append, mine_append, mine_singleton, List.map_append, gathered_append,
      List.flatten_append, ih fun r hr => hall r (List.mem_cons_of_mem _ hr), List.map_singleton,
      gathered_singleton]
    congr 1
    unfold pick
    by_cases hg : r.file = g
    · subst hg
      rw [if_pos (hfile.mpr rfl), if_pos ⟨rfl, hcur⟩]
      exact (List.append_nil _).symm
    · rw [if_neg fun he => hg (hfile.mp he), if_neg fun he => hg he.1]
      rfl

end Records

/-! ## The walk over a card -/

/-- An image the exporter gets along with: all of the card up to the header's block,
no further than a byte position of 32 bits goes, and nothing in it that passes for an
entry but what was stored. -/
structure Readable (h : fkfs_header_t) (f : Image) (sd : Card) : Prop where
  image : ImageOf f sd
  size : 512 * (h.block.toNat + 1) ≤ f.size
  small : h.block.toNat ≤ 2 ^ 23
  low : ∀ b, 0 < b → b < 8000 → (entryOf (sd.blocks b).mem 0).refused = true
  phantom : NoPhantom h f sd

/-- **The walk of the exporter over the log** gives off what it takes of every block. -/
theorem rounds_log {h : fkfs_header_t} {f : Image} {sd : Card} {recs : List (ℕ × Rec)}
    (hr : Readable h f sd) (hlog : BlocksTo sd.blocks (writerPlace h) recs)
    (hz : ∀ b, 8000 ≤ b → b < h.block.toNat → ZeroTail (sd.blocks b)) {b : ℕ} (hpos : 1 ≤ b)
    (hle : b ≤ h.block.toNat) :
    Trails.Trail (Round (exportedHeader h) f) start (cursorAt b 0)
      ((takenBefore h recs b).map item) := by
  have hmax := hr.small
  induction b, hpos using Nat.le_induction with
  | base =>
    have hnone : takenBefore h recs 1 = [] := by
      rw [takenBefore_succ, taken_low hlog (by omega)]
      rfl
    rw [hnone]
    exact .refl _
  | succ b hpos ih =>
    have hsize : 512 * (b + 1) ≤ f.size := by
      have := hr.size
      omega
    rw [takenBefore_succ, List.map_append]
    refine (ih (by omega)).trans ?_
    by_cases hge : 8000 ≤ b
    · exact rounds_block hr.image hsize hge hle hmax hr.phantom (hz b hge hle)
        (block_records hlog hge hle) rfl rfl (Nat.zero_le _) .refl
    · rw [taken_low hlog (by omega), List.map_nil,
        ← skip_cursorAt b (show 0 < 512 by omega)]
      refine .single (.refused ?_ ?_)
      · rw [UInt32.lt_iff_toNat_lt, block_cursorAt (by omega) (by omega)]
        exact hle
      · rw [place_cursorAt (by omega) (by omega)]
        have hsame : entryOf f.bytes (512 * b + 0) = entryOf (sd.blocks b).mem 0 := by
          have hbytes : Holds f.bytes (512 * b + 0) (entryAt (sd.blocks b).mem 0).bytes :=
            holds_image hr.image hsize (by simp) (holds_entryAt _ _)
          exact congrArg exportedEntry (entryAt_of_holds hbytes)
        rw [hsame]
        exact hr.low b hpos (by omega)

end Fkfs.Exports
