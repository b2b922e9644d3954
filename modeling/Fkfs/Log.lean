/-
The log: what lies on the card, in the order it was appended.

As long as nothing is lost the data blocks are one line of records, from offset
0 of `FKFS_FIRST_BLOCK` to the writer's place, with zeros behind it (`LogHeader`).
The writer adds a record at the end of the line or goes on to the next block;
a file is a stretch of the line, and an iterator is a place on it. The reader
walks the same line, so what it has delivered between two places is read off the
records between them (`log_of_read`).

Which of the records belong to a file as it is now is decided by their version
(`mine`), and a version is all a truncation changes.
-/
import Fkfs.Run

set_option autoImplicit false

namespace Fkfs.Log

open Bytes Relation
open Fkfs.Crc Fkfs.Layout Fkfs.Device Fkfs.Search Fkfs.Append Fkfs.Iterate Fkfs.Cache Fkfs.Walk
open Fkfs.Writer Fkfs.Reader Fkfs.Run

/-! ## The line of records -/

/-- One step along the log: over a record, or from the end of what a block holds
to the next block. -/
def LogStep (V : ℕ → Block) (p : Place) (rs : List Rec) (q : Place) : Prop :=
  (∃ r, Stored (V (blockOf p)) (offsetOf p) r ∧ q = place (blockOf p) (offsetOf p + r.length)
      ∧ rs = [r])
    ∨ (Chain (V (blockOf p)) 0 (offsetOf p) ∧ (∀ o', ¬ Link (V (blockOf p)) (offsetOf p) o'))
      ∧ q = place (blockOf p + 1) 0 ∧ rs = []

/-- Where the log starts. -/
def origin : Place := place 8000 0

/-- The log from the origin to the place `p`. -/
abbrev LogTo (V : ℕ → Block) (p : Place) (rs : List Rec) : Prop :=
  Trails.Trail (LogStep V) origin p rs

section Line

variable {V V' : ℕ → Block}

theorem LogStep.lt {p q : Place} {rs : List Rec} (h : LogStep V p rs q) : p < q := by
  rw [← place_eta p]
  rcases h with ⟨r, hs, rfl, -⟩ | ⟨-, rfl, -⟩
  · exact place_lt.mpr (.inr ⟨rfl, hs.link.lt⟩)
  · exact place_lt.mpr (.inl (by omega))

/-- A step is decided by where it starts. -/
theorem logStep_unique {p q q' : Place} {rs rs' : List Rec} (h : LogStep V p rs q)
    (h' : LogStep V p rs' q') : q = q' := by
  rcases h with ⟨r, hs, rfl, -⟩ | ⟨⟨-, hn⟩, rfl, -⟩ <;>
    rcases h' with ⟨r', hs', rfl, -⟩ | ⟨⟨-, hn'⟩, rfl, -⟩
  · rw [link_unique _ hs.link hs'.link]
  · exact absurd hs.link (hn' _)
  · exact absurd hs'.link (hn _)
  · rfl

/-- The log up to a place does not depend on the bytes behind it. -/
theorem logTrail_congr {a p : Place} {rs : List Rec} (hV : Below V V' p) (ha : 8000 ≤ blockOf a)
    (h : Trails.Trail (LogStep V) a p rs) : Trails.Trail (LogStep V') a p rs := by
  induction h with
  | refl p => exact .refl p
  | @head a c p xs ys hs t ih =>
    have hle : c ≤ p := t.le LogStep.lt
    have hc : 8000 ≤ blockOf c := le_trans ha (blockOf_le (le_of_lt hs.lt))
    refine .head ?_ (ih hV hc)
    rcases hs with ⟨r, hr, rfl, rfl⟩ | ⟨⟨h0, hn⟩, rfl, rfl⟩
    · exact .inl ⟨r, hV.stored ha hr hle, rfl, rfl⟩
    · -- The whole block lies before the place.
      have hin : ∀ i, (V (blockOf a)).mem i = (V' (blockOf a)).mem i := fun i =>
        hV _ i ha (lt_of_lt_of_le (place_lt.mpr (.inl (by omega))) hle)
      refine .inr ⟨⟨h0.congr fun i _ _ => hin i, fun o' hl => hn o' ?_⟩, rfl, rfl⟩
      exact hl.congr fun i _ _ => (hin i).symm

/-- Every place of the log is on the chain of its block. -/
theorem chain_of_logTrail {a p : Place} {rs : List Rec} (h : Trails.Trail (LogStep V) a p rs)
    (ha : Chain (V (blockOf a)) 0 (offsetOf a)) : Chain (V (blockOf p)) 0 (offsetOf p) := by
  induction h with
  | refl p => exact ha
  | @head a c p xs ys hs t ih =>
    apply ih
    rcases hs with ⟨r, hr, rfl, -⟩ | ⟨-, rfl, -⟩
    · exact ha.tail hr.link
    · exact .refl

theorem LogTo.chain {p : Place} {rs : List Rec} (h : LogTo V p rs) :
    Chain (V (blockOf p)) 0 (offsetOf p) := chain_of_logTrail h .refl

theorem LogTo.block_ge {p : Place} {rs : List Rec} (h : LogTo V p rs) : 8000 ≤ blockOf p := by
  have := blockOf_le (h.le LogStep.lt)
  exact this

/-- Two places of the log: what lies between them. -/
theorem LogTo.split {p q : Place} {rs rs' : List Rec} (h : LogTo V p rs) (h' : LogTo V q rs')
    (hle : p ≤ q) : ∃ ds, rs' = rs ++ ds ∧ Trails.Trail (LogStep V) p q ds := by
  have hrel : ∀ {a xs b ys c}, LogStep V a xs b → LogStep V a ys c → b = c ∧ xs = ys := by
    intro a xs b ys c hs hs'
    have hbc := logStep_unique hs hs'
    refine ⟨hbc, ?_⟩
    rcases hs with ⟨r, hr, -, rfl⟩ | ⟨⟨-, hn⟩, -, rfl⟩ <;>
      rcases hs' with ⟨r', hr', -, rfl⟩ | ⟨⟨-, hn'⟩, -, rfl⟩
    · rw [hr.unique hr']
    · exact absurd hr.link (hn' _)
    · exact absurd hr'.link (hn _)
    · rfl
  obtain ⟨cs, ds, rfl, -, h2, rfl⟩ := Trails.Trail.follow (fun as bs => as = bs) rfl
    (fun h1 h2 => by rw [h1, h2]) LogStep.lt hrel h h' hle
  exact ⟨ds, rfl, h2⟩

/-- A place has one log. -/
theorem LogTo.unique {p : Place} {rs rs' : List Rec} (h : LogTo V p rs) (h' : LogTo V p rs') :
    rs = rs' := by
  obtain ⟨ds, rfl, hd⟩ := h.split h' (le_refl p)
  cases hd with
  | refl => rw [List.append_nil]
  | head hs t => exact absurd (lt_of_lt_of_le hs.lt (t.le LogStep.lt)) (lt_irrefl _)

/-- A log that goes on to later blocks passes the start of each. -/
theorem logTrail_block_start {a p : Place} {rs : List Rec} (h : Trails.Trail (LogStep V) a p rs)
    {b : ℕ} (hlt : blockOf a < b) (hle : b ≤ blockOf p) :
    ∃ rs', Trails.Trail (LogStep V) a (place b 0) rs' ∧ rs' <+: rs := by
  induction h with
  | refl p => exact absurd (lt_of_lt_of_le hlt hle) (lt_irrefl _)
  | @head a c p xs ys hs t ih =>
    rcases Nat.lt_or_ge (blockOf c) b with hb | hb
    · obtain ⟨ys', ht', hpre⟩ := ih hb hle
      exact ⟨xs ++ ys', .head hs ht', (List.prefix_append_right_inj xs).mpr hpre⟩
    · -- The step into the block is the step over its edge.
      have hskip := hs
      rcases hs with ⟨r, -, rfl, -⟩ | ⟨-, rfl, rfl⟩
      · rw [blockOf_place] at hb
        omega
      · rw [blockOf_place] at hb
        have hbe : blockOf a + 1 = b := by omega
        rw [← hbe]
        exact ⟨[], .single hskip, List.nil_prefix⟩

/-- The log passes the start of every block up to the one it ends in. -/
theorem LogTo.block_start {p : Place} {rs : List Rec} (h : LogTo V p rs) {b : ℕ} (hge : 8000 ≤ b)
    (hle : b ≤ blockOf p) : ∃ rs', LogTo V (place b 0) rs' ∧ rs' <+: rs := by
  rcases eq_or_lt_of_le hge with hb | hb
  · rw [← hb]
    exact ⟨[], .refl _, List.nil_prefix⟩
  · exact logTrail_block_start h hb hle

end Line

/-! ## A header over the log -/

/-- What the records hold of file `f` as it is now. -/
def mine (h : fkfs_header_t) (f : FileNumber) (recs : List Rec) : List (List UInt8) :=
  recs.flatMap (pick h f)

/-- The number of bytes of some payloads. -/
def total (xs : List (List UInt8)) : ℕ := (xs.map List.length).sum

section Mine

variable {h h' : fkfs_header_t} {f : FileNumber}

@[simp] theorem mine_nil : mine h f [] = [] := rfl

@[simp] theorem mine_append (as bs : List Rec) :
    mine h f (as ++ bs) = mine h f as ++ mine h f bs := List.flatMap_append

@[simp] theorem mine_singleton (r : Rec) : mine h f [r] = pick h f r := by
  simp [mine]

@[simp] theorem total_append (as bs : List (List UInt8)) :
    total (as ++ bs) = total as + total bs := by
  simp [total]

/-- Only the version of the file decides. -/
theorem mine_congr (hv : (h'.files f).version = (h.files f).version) (recs : List Rec) :
    mine h' f recs = mine h f recs := by
  unfold mine
  congr 1
  funext r
  simp only [pick, hv]

/-- Of a prefix that holds nothing, nothing is lost. -/
theorem mine_of_prefix {as bs : List Rec} (hpre : as <+: bs) (hb : mine h f bs = []) :
    mine h f as = [] := by
  obtain ⟨cs, rfl⟩ := hpre
  rw [mine_append, List.append_eq_nil_iff] at hb
  exact hb.1

/-- Records of other versions are no longer the file's. -/
theorem mine_of_stale {recs : List Rec}
    (hv : ∀ r ∈ recs, r.file = f → r.version ≠ (h.files f).version) : mine h f recs = [] := by
  rw [mine, List.flatMap_eq_nil_iff]
  intro r hr
  unfold pick
  split
  · rename_i hp
    exact absurd hp.2.symm (hv r hr hp.1)
  · rfl

end Mine

/-- Row `f` of the file table marks a stretch of the log: all of the file is in
it, and nothing of the file is before it. -/
structure Row (V : ℕ → Block) (h : fkfs_header_t) (recs : List Rec) (f : FileNumber) : Prop where
  start : ∃ rs, LogTo V (startPlace (h.files f)) rs ∧ mine h f rs = []
  last : ∃ rs, LogTo V (endPlace (h.files f)) rs ∧ mine h f rs = mine h f recs
  start_le : startPlace (h.files f) ≤ endPlace (h.files f)
  last_le : endPlace (h.files f) ≤ writerPlace h
  size : (h.files f).size = UInt32.ofNat (total (mine h f recs))

/-- The log ends at the writer's place, with zeros behind. -/
structure Tracks (V : ℕ → Block) (h : fkfs_header_t) (recs : List Rec) : Prop where
  track : LogTo V (writerPlace h) recs
  blank : ∀ b i, 8000 ≤ b → writerPlace h ≤ place b i → (V b).mem i = 0

/-- The header describes the log: it ends at the writer's place with zeros
behind, and the file table marks stretches of it. -/
structure Describes (V : ℕ → Block) (h : fkfs_header_t) (recs : List Rec) : Prop where
  track : LogTo V (writerPlace h) recs
  blank : ∀ b i, 8000 ≤ b → writerPlace h ≤ place b i → (V b).mem i = 0
  row : ∀ f, Row V h recs f

/-- Two rows that differ in the name at most. -/
structure SameRow (file file' : fkfs_file_t) : Prop where
  version : file'.version = file.version
  start : startPlace file' = startPlace file
  last : endPlace file' = endPlace file
  size : file'.size = file.size

theorem SameRow.refl (file : fkfs_file_t) : SameRow file file := ⟨rfl, rfl, rfl, rfl⟩

/-- A place of the log is one of any blocks that look the same up to there. -/
theorem LogTo.below {V V' : ℕ → Block} {p q : Place} {rs : List Rec} (hV : Below V V' q) (hle : p ≤ q)
    (ht : LogTo V p rs) : LogTo V' p rs :=
  logTrail_congr (hV.mono hle) (by rw [origin, blockOf_place]) ht

namespace Tracks

variable {V V' : ℕ → Block} {h h' : fkfs_header_t} {recs : List Rec}

theorem congr (ht : Tracks V h recs) (hV : ∀ b, 8000 ≤ b → V' b = V b)
    (hw : writerPlace h' = writerPlace h) : Tracks V' h' recs := by
  refine ⟨?_, fun b i hb hi => ?_⟩
  · rw [hw]
    exact ht.track.below (below_of_eq hV _) (le_refl _)
  · rw [hV b hb]
    exact ht.blank b i hb (by rw [← hw]; exact hi)

/-- Nothing starts where the writer stands. -/
theorem no_link (ht : Tracks V h recs) (hge : 8000 ≤ h.block.toNat) (o : ℕ) :
    ¬ Link (V h.block.toNat) h.offset.toNat o := by
  rintro ⟨-, hs, -⟩
  have hzero : ∀ i, h.offset.toNat ≤ i → (V h.block.toNat).mem i = 0 := fun i hi =>
    ht.blank _ i hge (place_le.mpr (.inr ⟨rfl, hi⟩))
  exact not_sized_of_zero (hzero _ (by omega)) (hzero _ (by omega)) hs

/-- The writer goes on to the next block. -/
theorem next (ht : Tracks V h recs) (hge : 8000 ≤ h.block.toNat)
    (hw : writerPlace h' = place (h.block.toNat + 1) 0) : Tracks V h' recs := by
  have hle : writerPlace h ≤ writerPlace h' := by
    rw [hw]
    exact place_le.mpr (.inl (by omega))
  refine ⟨?_, fun b i hb hi => ht.blank b i hb (le_trans hle hi)⟩
  rw [hw, ← List.append_nil recs]
  exact ht.track.trans (.single (.inr ⟨⟨ht.track.chain, ht.no_link hge⟩, rfl, rfl⟩))

/-- A record is stored at the writer's place. -/
theorem store (ht : Tracks V h recs) {r : Rec} (hV : Below V V' (writerPlace h))
    (hblank : ∀ b i, 8000 ≤ b → place h.block.toNat (h.offset.toNat + r.length) ≤ place b i →
      (V' b).mem i = (V b).mem i)
    (hs : Stored (V' h.block.toNat) h.offset.toNat r)
    (hw : writerPlace h' = place h.block.toNat (h.offset.toNat + r.length)) :
    Tracks V' h' (recs ++ [r]) := by
  have hle : writerPlace h ≤ writerPlace h' := by
    rw [hw]
    exact place_le.mpr (.inr ⟨rfl, by omega⟩)
  refine ⟨?_, fun b i hb hi => ?_⟩
  · rw [hw]
    exact (ht.track.below hV (le_refl _)).trans (.single (.inl ⟨r, hs, rfl, rfl⟩))
  · rw [hblank b i hb (by rw [← hw]; exact hi)]
    exact ht.blank b i hb (le_trans hle hi)

end Tracks

namespace Describes

variable {V V' : ℕ → Block} {h h' : fkfs_header_t} {recs : List Rec}

theorem tracks (hd : Describes V h recs) : Tracks V h recs := ⟨hd.track, hd.blank⟩

/-- A row goes on marking its stretch when the log grows by records that are not
the file's. -/
theorem row_below {f : FileNumber} {recs' : List Rec} (hr : Row V h recs f)
    (hV : Below V V' (writerPlace h)) (hsame : SameRow (h.files f) (h'.files f))
    (hw : writerPlace h ≤ writerPlace h') (hrecs : mine h f recs' = mine h f recs) :
    Row V' h' recs' f := by
  obtain ⟨⟨S, hS, hmS⟩, ⟨E, hE, hmE⟩, h1, h2, h3⟩ := hr
  have hm : ∀ rs, mine h' f rs = mine h f rs := mine_congr hsame.version
  refine ⟨⟨S, ?_, by rw [hm, hmS]⟩, ⟨E, ?_, by rw [hm, hm, hmE, hrecs]⟩, ?_, ?_, ?_⟩
  · rw [hsame.start]
    exact hS.below hV (le_trans h1 h2)
  · rw [hsame.last]
    exact hE.below hV h2
  · rw [hsame.start, hsame.last]
    exact h1
  · rw [hsame.last]
    exact le_trans h2 hw
  · rw [hsame.size, h3, hm, hrecs]

/-- The description lasts as long as the blocks, the writer and the rows do. -/
theorem congr (hd : Describes V h recs) (hV : ∀ b, 8000 ≤ b → V' b = V b)
    (hw : writerPlace h' = writerPlace h) (hrow : ∀ f, SameRow (h.files f) (h'.files f)) :
    Describes V' h' recs := by
  obtain ⟨htrack, hblank⟩ := hd.tracks.congr hV hw
  exact ⟨htrack, hblank, fun f =>
    row_below (hd.row f) (below_of_eq hV _) (hrow f) (le_of_eq hw.symm) rfl⟩

/-- Nothing starts where the writer stands. -/
theorem no_link (hd : Describes V h recs) (hge : 8000 ≤ h.block.toNat) (o : ℕ) :
    ¬ Link (V h.block.toNat) h.offset.toNat o := hd.tracks.no_link hge o

/-- The writer goes on to the next block. -/
theorem next (hd : Describes V h recs) (hge : 8000 ≤ h.block.toNat)
    (hb : h'.block.toNat = h.block.toNat + 1) (ho : h'.offset = 0) (hf : h'.files = h.files) :
    Describes V h' recs := by
  have hw : writerPlace h' = place (h.block.toNat + 1) 0 := by
    rw [writerPlace, hb, ho]
    rfl
  have hle : writerPlace h ≤ writerPlace h' := by
    rw [hw]
    exact place_le.mpr (.inl (by omega))
  obtain ⟨htrack, hblank⟩ := hd.tracks.next hge hw
  exact ⟨htrack, hblank, fun f =>
    row_below (hd.row f) (below_of_eq (fun _ _ => rfl) _) (by rw [hf]; exact .refl _) hle rfl⟩

/-- A record is stored at the writer's place. -/
theorem store (hd : Describes V h recs) {f : FileNumber} {r : Rec}
    (hV : Below V V' (writerPlace h))
    (hblank : ∀ b i, 8000 ≤ b → place h.block.toNat (h.offset.toNat + r.length) ≤ place b i →
      (V' b).mem i = (V b).mem i)
    (hs : Stored (V' h.block.toNat) h.offset.toNat r)
    (hw : writerPlace h' = place h.block.toNat (h.offset.toNat + r.length))
    (hfile : r.file = f) (hversion : r.version = (h.files f).version)
    (hother : ∀ g, g ≠ f → h'.files g = h.files g)
    (hrow : h'.files f = { h.files f with
      endBlock := h'.block
      endOffset := h'.offset
      size := (h.files f).size + UInt32.ofNat r.data.length }) :
    Describes V' h' (recs ++ [r]) := by
  have hle : writerPlace h ≤ writerPlace h' := by
    rw [hw]
    exact place_le.mpr (.inr ⟨rfl, by omega⟩)
  obtain ⟨htrack, hblank'⟩ := hd.tracks.store hV hblank hs hw
  refine ⟨htrack, hblank', fun g => ?_⟩
  by_cases hg : g = f
  · subst hg
    obtain ⟨⟨S, hS, hmS⟩, -, h1, h2, h3⟩ := hd.row g
    have hm : ∀ rs, mine h' g rs = mine h g rs := mine_congr (by rw [hrow])
    have hstart : startPlace (h'.files g) = startPlace (h.files g) := by
      rw [hrow]
      rfl
    have hlast : endPlace (h'.files g) = writerPlace h' := by
      rw [hrow]
      rfl
    have hmine : mine h' g (recs ++ [r]) = mine h g recs ++ [r.data] := by
      rw [hm, mine_append, mine_singleton, pick, if_pos ⟨hfile, hversion.symm⟩]
    refine ⟨⟨S, ?_, by rw [hm, hmS]⟩, ⟨recs ++ [r], by rw [hlast]; exact htrack, rfl⟩, ?_, ?_, ?_⟩
    · rw [hstart]
      exact hS.below hV (le_trans h1 h2)
    · rw [hstart, hlast]
      exact le_trans (le_trans h1 h2) hle
    · rw [hlast]
    · rw [hmine, total_append, hrow]
      simp only [h3, total, List.map_cons, List.map_nil, List.sum_cons, List.sum_nil,
        Nat.add_zero, UInt32.ofNat_add]
  · refine row_below (hd.row g) hV (by rw [hother g hg]; exact .refl _) hle ?_
    rw [mine_append, mine_singleton, pick, if_neg, List.append_nil]
    rintro ⟨hc, -⟩
    exact hg (hc.symm.trans hfile)

/-- A file is truncated: no record carries its new version. -/
theorem truncate (hd : Describes V h recs) {f : FileNumber}
    (hw : writerPlace h' = writerPlace h) (hother : ∀ g, g ≠ f → h'.files g = h.files g)
    (hstart : startPlace (h'.files f) = place h.block.toNat 0)
    (hlast : endPlace (h'.files f) = place h.block.toNat 0) (hsize : (h'.files f).size = 0)
    (hv : ∀ r ∈ recs, r.file = f → r.version ≠ (h'.files f).version) :
    Describes V h' recs := by
  refine ⟨by rw [hw]; exact hd.track, by rw [hw]; exact hd.blank, fun g => ?_⟩
  by_cases hg : g = f
  · subst hg
    have hnone := mine_of_stale hv
    obtain ⟨rs, ht, hpre⟩ := hd.track.block_start hd.track.block_ge (le_refl _)
    have hrs := mine_of_prefix hpre hnone
    refine ⟨⟨rs, by rw [hstart]; exact ht, hrs⟩, ⟨rs, by rw [hlast]; exact ht, by rw [hrs, hnone]⟩,
      by rw [hstart, hlast], ?_, by rw [hsize, hnone]; rfl⟩
    rw [hlast, hw]
    exact place_le.mpr (.inr ⟨rfl, Nat.zero_le _⟩)
  · exact row_below (hd.row g) (below_of_eq (fun _ _ => rfl) _) (by rw [hother g hg]; exact .refl _)
      (le_of_eq hw.symm) rfl

end Describes

end Fkfs.Log
