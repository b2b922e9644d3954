/-
What a header marks on blocks that hold anything.

`Log` describes a card that was all zeros. After a crash it is not: behind the
writer's place lie entries no header knows of, whole or overwritten in part. What
is left is this: the writer's place is on the chain of its block, every file starts
at the start of a block and ends on the chain of one, and its payloads are the
records of some of the steps in between (`Marks`). It is enough, because the
reader walks the same chain: what it delivers contains the payloads in order
(`Marks.drains`), whatever else it finds between them.

Nothing in it depends on the bytes from the writer's place on.
-/
import Fkfs.Log

set_option autoImplicit false

namespace Fkfs.Marking

open Bytes Relation
open Fkfs.Crc Fkfs.Layout Fkfs.Device Fkfs.Search Fkfs.Append Fkfs.Iterate Fkfs.Cache Fkfs.Walk
open Fkfs.Writer Fkfs.Reader Fkfs.Run Fkfs.Log

/-! ## The line a file lies on -/

/-- One step along the blocks: over an entry header, which may be noted as a record
of file `f` in version `v`, or from where there is none to the next block. -/
def MarkStep (V : ℕ → Block) (f : FileNumber) (v : UInt16) (p : Place) (xs : List (List UInt8))
    (q : Place) : Prop :=
  (∃ o', Link (V (blockOf p)) (offsetOf p) o' ∧ q = place (blockOf p) o'
      ∧ (xs = [] ∨ ∃ data, Stored (V (blockOf p)) (offsetOf p) ⟨f, v, data⟩ ∧ xs = [data]))
    ∨ (∀ o', ¬ Link (V (blockOf p)) (offsetOf p) o') ∧ q = place (blockOf p + 1) 0 ∧ xs = []

/-- The payloads `xs` of file `f`, in this order, on the way from `p` to `q`. -/
abbrev MarkTrail (V : ℕ → Block) (f : FileNumber) (v : UInt16) : Place → Place →
    List (List UInt8) → Prop :=
  Trails.Trail (MarkStep V f v)

section Line

variable {V V' : ℕ → Block} {f : FileNumber} {v : UInt16} {p q : Place} {xs ys : List (List UInt8)}

theorem MarkStep.lt (h : MarkStep V f v p xs q) : p < q := by
  rw [← place_eta p]
  rcases h with ⟨o', hl, rfl, -⟩ | ⟨-, rfl, -⟩
  · exact place_lt.mpr (.inr ⟨rfl, hl.lt⟩)
  · exact place_lt.mpr (.inl (by omega))

/-- The line up to a place does not depend on the bytes behind it. -/
theorem markTrail_congr (hV : Below V V' q) (hp : 8000 ≤ blockOf p)
    (h : MarkTrail V f v p q xs) : MarkTrail V' f v p q xs := by
  induction h with
  | refl p => exact .refl p
  | @head a c e xs ys hs t ih =>
    have hle : c ≤ e := t.le MarkStep.lt
    have hc : 8000 ≤ blockOf c := le_trans hp (blockOf_le (le_of_lt hs.lt))
    refine .head ?_ (ih hV hc)
    rcases hs with ⟨o', hl, rfl, hx⟩ | ⟨hn, rfl, rfl⟩
    · have hin : ∀ i, offsetOf a ≤ i → i < o' →
          (V (blockOf a)).mem i = (V' (blockOf a)).mem i := fun i _ hi =>
        hV _ i hp (lt_of_lt_of_le (place_lt.mpr (.inr ⟨rfl, hi⟩)) hle)
      have hb := hl.bounds
      refine .inl ⟨o', hl.congr fun i h1 h2 => hin i h1 (by omega), rfl, ?_⟩
      rcases hx with rfl | ⟨data, hst, rfl⟩
      · exact .inl rfl
      · have ho := link_unique _ hl hst.link
        exact .inr ⟨data, hst.congr fun i h1 h2 => hin i h1 (by omega), rfl⟩
    · -- The whole block lies before the place.
      have hin : ∀ i, (V (blockOf a)).mem i = (V' (blockOf a)).mem i := fun i =>
        hV _ i hp (lt_of_lt_of_le (place_lt.mpr (.inl (by omega))) hle)
      refine .inr ⟨fun o' hl => hn o' ?_, rfl, rfl⟩
      exact hl.congr fun i _ _ => (hin i).symm

/-- Every place of the line is on the chain of its block. -/
theorem MarkTrail.chain (h : MarkTrail V f v p q xs) (hp : Chain (V (blockOf p)) 0 (offsetOf p)) :
    Chain (V (blockOf q)) 0 (offsetOf q) := by
  induction h with
  | refl p => exact hp
  | @head a c e xs ys hs t ih =>
    apply ih
    rcases hs with ⟨o', hl, rfl, -⟩ | ⟨-, rfl, -⟩
    · exact hp.tail hl
    · exact .refl

/-- Some of the payloads, in the same order. -/
theorem MarkTrail.sublist (h : MarkTrail V f v p q xs) (hy : ys.Sublist xs) :
    MarkTrail V f v p q ys := by
  induction h generalizing ys with
  | refl p =>
    rw [List.sublist_nil.mp hy]
    exact .refl p
  | @head a c e xs xs' hs t ih =>
    obtain ⟨ys₁, ys₂, rfl, h1, h2⟩ := List.sublist_append_iff.mp hy
    refine .head ?_ (ih h2)
    rcases hs with ⟨o', hl, hq, hx⟩ | ⟨hn, hq, rfl⟩
    · refine .inl ⟨o', hl, hq, ?_⟩
      rcases hx with rfl | ⟨data, hst, rfl⟩
      · exact .inl (List.sublist_nil.mp h1)
      · rcases List.sublist_singleton.mp h1 with hnone | hone
        · exact .inl hnone
        · exact .inr ⟨data, hst, hone⟩
    · exact .inr ⟨hn, hq, List.sublist_nil.mp h1⟩

/-- **Between two places on chains there is a line**: from the earlier on, every
block leads to the next. -/
theorem markTrail_between (f : FileNumber) (v : UInt16)
    (hp : Chain (V (blockOf p)) 0 (offsetOf p)) (hq : Chain (V (blockOf q)) 0 (offsetOf q))
    (hle : p ≤ q) : MarkTrail V f v p q [] := by
  have hsettings : Settings := fun _ => ⟨0, 0⟩
  have hreach : Reach .stops hsettings V p q := by
    rw [← place_eta p, ← place_eta q] at hle ⊢
    rcases place_le.mp hle with hb | ⟨hb, ho⟩
    · have hrest := @reach_block .stops hsettings V _ _
        (show blockOf p + 1 ≤ blockOf q by omega) fun c _ _ => ends_stops _ _ _
      exact ((reach_succ (ends_stops _ _ _)).trans hrest).trans (reach_of_chain hq)
    · rw [← hb] at hq ⊢
      exact reach_of_chain (hp.between hq ho)
  refine Trails.Trail.of_reach ?_ hreach
  rintro a b (⟨o', hl, hb⟩ | ⟨hf, hb⟩)
  · exact .inl ⟨o', hl, hb, .inl rfl⟩
  · exact .inr ⟨fun o' => hf.not_link, hb, rfl⟩

end Line

/-! ## Reading along the line -/

section Reading

variable {ov : Overrun} {files : Settings} {V : ℕ → Block} {h : fkfs_header_t} {f g : FileNumber}
  {v : UInt16} {p q q' : Place} {xs ys : List (List UInt8)}

/-- The reader goes along the line, if the blocks it leaves end before it reads past
them. -/
theorem MarkTrail.reach (ht : MarkTrail V g v p q ys) (hp : Chain (V (blockOf p)) 0 (offsetOf p))
    (hends : ∀ b, blockOf p ≤ b → b < blockOf q → Ends ov files (V b) 0) :
    Reach ov files V p q := by
  induction ht with
  | refl p => exact .refl
  | @head a c e xs ys hs t ih =>
    have hac : blockOf a ≤ blockOf c := blockOf_le (le_of_lt hs.lt)
    have hce : blockOf c ≤ blockOf e := blockOf_le (t.le MarkStep.lt)
    have hc := MarkTrail.chain (.single hs) hp
    refine .head ?_ (ih hc fun b h1 h2 => hends b (le_trans hac h1) h2)
    rcases hs with ⟨o', hl, rfl, -⟩ | ⟨hn, rfl, -⟩
    · exact .inl ⟨_, hl, rfl⟩
    · rw [blockOf_place] at hce
      obtain ⟨o, hchain, hf⟩ := (hends _ (le_refl _) (by omega)).of_chain hp
      rw [Trails.reach_stuck hn hchain] at hf
      exact .inr ⟨hf, rfl⟩

/-- What the reader delivers in a step contains what the line notes of it. -/
theorem readStep_of_markStep (hr : ReadStep ov files V h f p xs q)
    (hm : MarkStep V f (h.files f).version p ys q') : q = q' ∧ ys.Sublist xs := by
  rcases hr with ⟨o, hl, rfl, hx⟩ | ⟨hf, rfl, rfl⟩ <;>
    rcases hm with ⟨o', hl', rfl, hy⟩ | ⟨hn, rfl, rfl⟩
  · rw [link_unique _ hl hl']
    refine ⟨rfl, ?_⟩
    rcases hy with rfl | ⟨data, hst, rfl⟩
    · exact List.nil_sublist _
    · rw [hx _ hst, pick, if_pos ⟨rfl, rfl⟩]
  · exact absurd hl (hn o)
  · exact absurd hl' hf.not_link
  · exact ⟨rfl, List.Sublist.refl _⟩

/-- **What the reader delivers on the line contains what is noted on it**, in
order. -/
theorem MarkTrail.delivered (hm : MarkTrail V f (h.files f).version p q ys)
    (hr : Trails.Trail (ReadStep ov files V h f) p q xs) : ys.Sublist xs :=
  Trails.Trail.lift (fun xs ys => ys.Sublist xs) (List.Sublist.refl _)
    (fun h1 h2 => h1.append h2) ReadStep.lt MarkStep.lt
    (fun h1 h2 => readStep_of_markStep h1 h2) hr hm

end Reading

/-! ## Headers -/

/-- Two rows with the same line. -/
structure SameLine (file file' : fkfs_file_t) : Prop where
  version : file'.version = file.version
  start : startPlace file' = startPlace file
  last : endPlace file' = endPlace file

theorem SameLine.refl (file : fkfs_file_t) : SameLine file file := ⟨rfl, rfl, rfl⟩

/-- File `f` lies on the line from the start of a block to a place that is not
behind the writer's, and `xs` is noted of it. -/
structure FileMarks (V : ℕ → Block) (h : fkfs_header_t) (f : FileNumber)
    (xs : List (List UInt8)) : Prop where
  start_ge : 8000 ≤ blockOf (startPlace (h.files f))
  start : offsetOf (startPlace (h.files f)) = 0
  last_le : endPlace (h.files f) ≤ writerPlace h
  line : MarkTrail V f (h.files f).version (startPlace (h.files f)) (endPlace (h.files f)) xs

/-- The writer's place is on the chain of its block, and every file on its line. -/
structure Marks (V : ℕ → Block) (h : fkfs_header_t) (K : FileNumber → List (List UInt8)) :
    Prop where
  block_ge : 8000 ≤ h.block.toNat
  track : Chain (V h.block.toNat) 0 h.offset.toNat
  file : ∀ f, FileMarks V h f (K f)

section Headers

variable {V V' : ℕ → Block} {h h' : fkfs_header_t} {f : FileNumber} {xs ys : List (List UInt8)}
  {K K' : FileNumber → List (List UInt8)}

theorem FileMarks.start_chain (hm : FileMarks V h f xs) :
    Chain (V (blockOf (startPlace (h.files f)))) 0 (offsetOf (startPlace (h.files f))) := by
  rw [hm.start]

/-- The end of the file is on the chain of its block. -/
theorem FileMarks.last_chain (hm : FileMarks V h f xs) :
    Chain (V (blockOf (endPlace (h.files f)))) 0 (offsetOf (endPlace (h.files f))) :=
  hm.line.chain hm.start_chain

theorem FileMarks.start_le (hm : FileMarks V h f xs) :
    startPlace (h.files f) ≤ endPlace (h.files f) := hm.line.le MarkStep.lt

/-- A file keeps its line as long as the blocks before its end and its row stay and
the writer does not go back. -/
theorem FileMarks.congr (hm : FileMarks V h f xs) (hV : Below V V' (writerPlace h))
    (hrow : SameLine (h.files f) (h'.files f)) (hw : writerPlace h ≤ writerPlace h') :
    FileMarks V' h' f xs := by
  refine ⟨?_, ?_, ?_, ?_⟩
  · rw [hrow.start]
    exact hm.start_ge
  · rw [hrow.start]
    exact hm.start
  · rw [hrow.last]
    exact le_trans hm.last_le hw
  · rw [hrow.start, hrow.last, hrow.version]
    exact markTrail_congr (hV.mono hm.last_le) hm.start_ge hm.line

namespace Marks

/-- Some of what is marked, in the same order. -/
theorem sublist (hm : Marks V h K) (hk : ∀ f, (K' f).Sublist (K f)) : Marks V h K' :=
  ⟨hm.block_ge, hm.track, fun f => ⟨(hm.file f).start_ge, (hm.file f).start, (hm.file f).last_le,
    (hm.file f).line.sublist (hk f)⟩⟩

/-- The marks last as long as the blocks up to the writer's place, the writer and
the rows do. -/
theorem congr (hm : Marks V h K) (hV : Below V V' (writerPlace h))
    (hw : writerPlace h' = writerPlace h) (hrow : ∀ f, SameLine (h.files f) (h'.files f)) :
    Marks V' h' K := by
  have hb : h'.block.toNat = h.block.toNat := congrArg blockOf hw
  have ho : h'.offset.toNat = h.offset.toNat := congrArg offsetOf hw
  refine ⟨?_, ?_, fun f => (hm.file f).congr hV (hrow f) (le_of_eq hw.symm)⟩
  · rw [hb]
    exact hm.block_ge
  · rw [hb, ho]
    exact hV.chain hm.block_ge hm.track (le_refl _)

/-- The writer goes on to the next block. -/
theorem next (hm : Marks V h K) (hb : h'.block.toNat = h.block.toNat + 1) (ho : h'.offset = 0)
    (hf : h'.files = h.files) : Marks V h' K := by
  have hle : writerPlace h ≤ writerPlace h' := place_le.mpr (.inl (by omega))
  refine ⟨by have := hm.block_ge; omega, ?_, fun f => ?_⟩
  · rw [ho]
    exact .refl
  · exact (hm.file f).congr (below_of_eq (fun _ _ => rfl) _) (by rw [hf]; exact .refl _) hle

/-- The search moves the writer along the chain. -/
theorem seek (hm : Marks V h K) {o : UInt16}
    (hc : Chain (V h.block.toNat) h.offset.toNat o.toNat) : Marks V { h with offset := o } K := by
  have hle : writerPlace h ≤ writerPlace { h with offset := o } :=
    place_le.mpr (.inr ⟨rfl, hc.le⟩)
  exact ⟨hm.block_ge, hm.track.trans hc, fun f =>
    (hm.file f).congr (below_of_eq (fun _ _ => rfl) _) (.refl _) hle⟩

/-- One file's row changes, and its line with it. -/
theorem setFile (hm : Marks V h K) (hw : writerPlace h' = writerPlace h)
    (hother : ∀ g, g ≠ f → h'.files g = h.files g) (hf : FileMarks V h' f xs) :
    Marks V h' (Function.update K f xs) := by
  have hb : h'.block.toNat = h.block.toNat := congrArg blockOf hw
  have ho : h'.offset.toNat = h.offset.toNat := congrArg offsetOf hw
  refine ⟨by rw [hb]; exact hm.block_ge, by rw [hb, ho]; exact hm.track, fun g => ?_⟩
  by_cases hg : g = f
  · subst hg
    rw [Function.update_self]
    exact hf
  · rw [Function.update_of_ne hg]
    exact (hm.file g).congr (below_of_eq (fun _ _ => rfl) _) (by rw [hother g hg]; exact .refl _)
      (le_of_eq hw.symm)

/-- A record is stored at the writer's place: its file goes on to there and over
it. -/
theorem store (hm : Marks V h K) {data : List UInt8} (hV : Below V V' (writerPlace h))
    (hs : Stored (V' h.block.toNat) h.offset.toNat ⟨f, (h.files f).version, data⟩)
    (hw : writerPlace h' = place h.block.toNat (h.offset.toNat + (7 + data.length)))
    (hother : ∀ g, g ≠ f → h'.files g = h.files g)
    (hversion : (h'.files f).version = (h.files f).version)
    (hstart : startPlace (h'.files f) = startPlace (h.files f))
    (hlast : endPlace (h'.files f) = writerPlace h') :
    Marks V' h' (Function.update K f (K f ++ [data])) := by
  have hle : writerPlace h ≤ writerPlace h' := by
    rw [hw]
    exact place_le.mpr (.inr ⟨rfl, by omega⟩)
  have hb : h'.block.toNat = h.block.toNat := congrArg blockOf hw
  have ho : h'.offset.toNat = h.offset.toNat + (7 + data.length) := congrArg offsetOf hw
  have htrack : Chain (V' h.block.toNat) 0 h.offset.toNat :=
    hV.chain hm.block_ge hm.track (le_refl _)
  refine ⟨by rw [hb]; exact hm.block_ge, ?_, fun g => ?_⟩
  · rw [hb, ho]
    exact htrack.tail hs.link
  · by_cases hg : g = f
    · subst hg
      rw [Function.update_self]
      have hold : FileMarks V' h g (K g) := (hm.file g).congr hV (.refl _) (le_refl _)
      refine ⟨?_, ?_, le_of_eq hlast, ?_⟩
      · rw [hstart]
        exact hold.start_ge
      · rw [hstart]
        exact hold.start
      · have hgap := markTrail_between g (h.files g).version hold.last_chain
          (show Chain (V' (blockOf (writerPlace h))) 0 (offsetOf (writerPlace h)) from htrack)
          hold.last_le
        have hrec : MarkTrail V' g (h.files g).version (writerPlace h) (writerPlace h') [data] :=
          .single (.inl ⟨_, hs.link, hw, .inr ⟨data, hs, rfl⟩⟩)
        rw [hstart, hlast, hversion]
        exact hold.line.trans (hgap.trans hrec)
    · rw [Function.update_of_ne hg]
      exact (hm.file g).congr hV (by rw [hother g hg]; exact .refl _) hle

end Marks

end Headers

end Fkfs.Marking
