/-
The records of a log with the blocks they lie in, and what one call of
`fkfs_file_iterate` does among them.

A reader that is given a budget counts the blocks it leaves, so which payload a
call finds, or whether it finds one at all, is decided by the blocks the payloads
lie in. A log is therefore walked a second time with every record tagged by its
block (`BlocksTo`), and an iterator is a place on it with `as` before it and `es`
before its end (`Between`). What is left to deliver is what `es` holds of the file
behind what `as` holds of it, and a call delivers the first of it or nothing
(`poll_between`).

Nothing here needs the header to describe the log, so it goes on to hold while a
scan rewrites the size of a file.
-/
import Fkfs.Truncation

set_option autoImplicit false

namespace Fkfs.Journal

open Bytes Relation
open Fkfs.Crc Fkfs.Layout Fkfs.Device Fkfs.Search Fkfs.Append Fkfs.Iterate Fkfs.Mount Fkfs.Cache
open Fkfs.Walk Fkfs.Writer Fkfs.Reader Fkfs.Run Fkfs.Slots Fkfs.Log Fkfs.CardLog

/-! ## Records and their blocks -/

/-- One step along the log, its record tagged with its block. -/
abbrev BlockStep (V : ℕ → Block) : Place → List (ℕ × Rec) → Place → Prop :=
  Trails.Marked (fun p r => (blockOf p, r)) (LogStep V)

/-- The log from the origin to the place `p`, every record with its block. -/
abbrev BlocksTo (V : ℕ → Block) (p : Place) (rs : List (ℕ × Rec)) : Prop :=
  Trails.Trail (BlockStep V) origin p rs

/-- What the records hold of file `f` as it is now, every payload with its block. -/
def held (h : fkfs_header_t) (f : FileNumber) (rs : List (ℕ × Rec)) : List (ℕ × List UInt8) :=
  rs.flatMap fun r => (pick h f r.2).map (Prod.mk r.1)

section Held

variable {h h' : fkfs_header_t} {f : FileNumber}

@[simp] theorem held_nil : held h f [] = [] := rfl

@[simp] theorem held_append (as bs : List (ℕ × Rec)) :
    held h f (as ++ bs) = held h f as ++ held h f bs := List.flatMap_append

/-- Without the blocks it is what the records hold. -/
theorem held_snd (rs : List (ℕ × Rec)) :
    (held h f rs).map Prod.snd = mine h f (rs.map Prod.snd) := by
  induction rs with
  | nil => rfl
  | cons r rs ih =>
    rw [← List.singleton_append, held_append, List.map_append, ih, List.map_append, mine_append]
    congr 1
    simp [held, mine]

/-- Only the version of the file decides. -/
theorem held_congr (hv : (h'.files f).version = (h.files f).version) (rs : List (ℕ × Rec)) :
    held h' f rs = held h f rs := by
  unfold held
  congr 1
  funext r
  simp only [pick, hv]

/-- Records that hold nothing of a file hold nothing of it with their blocks. -/
theorem held_eq_nil {rs : List (ℕ × Rec)} : held h f rs = [] ↔ mine h f (rs.map Prod.snd) = [] := by
  rw [← held_snd, List.map_eq_nil_iff]

/-- A prefix that holds as much of a file holds all of it. -/
theorem held_of_prefix {as rs : List (ℕ × Rec)} (hpre : as <+: rs)
    (hall : mine h f (as.map Prod.snd) = mine h f (rs.map Prod.snd)) :
    held h f as = held h f rs := by
  obtain ⟨bs, rfl⟩ := hpre
  rw [List.map_append, mine_append] at hall
  have hnone : held h f bs = [] := held_eq_nil.mpr (List.append_cancel_left
    (hall.symm.trans (List.append_nil _).symm))
  rw [held_append, hnone, List.append_nil]

end Held

/-! ## The tagged log -/

section Blocks

variable {V V' : ℕ → Block} {p q : Place} {rs rs' : List (ℕ × Rec)}

theorem BlockStep.lt (h : BlockStep V p rs q) : p < q := by
  obtain ⟨_, hs, _⟩ := h
  exact hs.lt

/-- A step is decided by where it starts, its record included. -/
theorem blockStep_unique {q' : Place} (h : BlockStep V p rs q) (h' : BlockStep V p rs' q') :
    q = q' ∧ rs = rs' := by
  obtain ⟨ys, hs, rfl⟩ := h
  obtain ⟨ys', hs', rfl⟩ := h'
  refine ⟨logStep_unique hs hs', congrArg _ ?_⟩
  rcases hs with ⟨r, hr, -, rfl⟩ | ⟨⟨-, hn⟩, -, rfl⟩ <;>
    rcases hs' with ⟨r', hr', -, rfl⟩ | ⟨⟨-, hn'⟩, -, rfl⟩
  · rw [hr.unique hr']
  · exact absurd hr.link (hn' _)
  · exact absurd hr'.link (hn _)
  · rfl

/-- A log with its blocks, from one without. -/
theorem blocksTo_of_log {xs : List Rec} (h : LogTo V p xs) :
    ∃ rs, BlocksTo V p rs ∧ rs.map Prod.snd = xs := Trails.Trail.marked (fun _ _ => rfl) h

theorem BlocksTo.log (h : BlocksTo V p rs) : LogTo V p (rs.map Prod.snd) :=
  Trails.Trail.unmarked (fun _ _ => rfl) h

/-- Two places of the log: what lies between them. -/
theorem BlocksTo.split (h : BlocksTo V p rs) (h' : BlocksTo V q rs') (hle : p ≤ q) :
    ∃ ds, rs' = rs ++ ds ∧ Trails.Trail (BlockStep V) p q ds := by
  obtain ⟨cs, ds, rfl, -, h2, rfl⟩ := Trails.Trail.follow (fun as bs => as = bs) rfl
    (fun h1 h2 => by rw [h1, h2]) BlockStep.lt blockStep_unique h h' hle
  exact ⟨ds, rfl, h2⟩

/-- A place has one log. -/
theorem BlocksTo.unique (h : BlocksTo V p rs) (h' : BlocksTo V p rs') : rs = rs' :=
  Trails.Trail.lift (fun as bs => as = bs) rfl (fun h1 h2 => by rw [h1, h2]) BlockStep.lt
    BlockStep.lt blockStep_unique h h'

/-- The log up to a place does not depend on the bytes behind it. -/
theorem BlocksTo.below (hV : Below V V' q) (hle : p ≤ q) (h : BlocksTo V p rs) :
    BlocksTo V' p rs := by
  suffices hgen : ∀ {a p rs}, 8000 ≤ blockOf a → p ≤ q → Trails.Trail (BlockStep V) a p rs →
      Trails.Trail (BlockStep V') a p rs from hgen (by rw [origin, blockOf_place]) hle h
  intro a p rs ha hle h
  induction h with
  | refl p => exact .refl p
  | @head a c p xs ys hs t ih =>
    have hcp : c ≤ p := t.le BlockStep.lt
    have hac : a < c := hs.lt
    refine .head ?_ (ih (le_trans ha (blockOf_le (le_of_lt hac))) hle)
    obtain ⟨zs, hs, rfl⟩ := hs
    refine ⟨zs, ?_, rfl⟩
    rcases hs with ⟨r, hr, rfl, rfl⟩ | ⟨⟨h0, hn⟩, rfl, rfl⟩
    · exact .inl ⟨r, hV.stored ha hr (le_trans hcp hle), rfl, rfl⟩
    · -- The whole block lies before the place.
      have hin : ∀ i, (V (blockOf a)).mem i = (V' (blockOf a)).mem i := fun i =>
        hV _ i ha (lt_of_lt_of_le (place_lt.mpr (.inl (by omega))) (le_trans hcp hle))
      refine .inr ⟨⟨h0.congr fun i _ _ => hin i, fun o' hl => hn o' ?_⟩, rfl, rfl⟩
      exact hl.congr fun i _ _ => (hin i).symm

/-- No record lies before the block the log starts in. -/
theorem blocks_ge (h : Trails.Trail (BlockStep V) p q rs) : ∀ r ∈ rs, blockOf p ≤ r.1 :=
  Trails.Trail.tags_ge h (fun _ _ => le_refl _) fun hs => blockOf_le (le_of_lt (LogStep.lt hs))

/-- Every record starts before the place the log ends at. -/
theorem blocks_before (h : Trails.Trail (BlockStep V) p q rs) :
    ∀ r ∈ rs, ∃ a, a < q ∧ blockOf a = r.1 := by
  induction h with
  | refl p => exact fun r hr => absurd hr List.not_mem_nil
  | @head p c q xs ys hs t ih =>
    intro r hr
    rcases List.mem_append.mp hr with hr | hr
    · have hpq : p < q := lt_of_lt_of_le hs.lt (t.le BlockStep.lt)
      obtain ⟨zs, -, rfl⟩ := hs
      obtain ⟨z, -, rfl⟩ := List.mem_map.mp hr
      exact ⟨p, hpq, rfl⟩
    · exact ih r hr

/-- Every record holds something. -/
theorem blocks_fit (h : Trails.Trail (BlockStep V) p q rs) : ∀ r ∈ rs, r.2.Fits := by
  induction h with
  | refl p => exact fun r hr => absurd hr List.not_mem_nil
  | @head p c q xs ys hs t ih =>
    intro r hr
    rcases List.mem_append.mp hr with hr | hr
    · obtain ⟨zs, ⟨z, hz, -, rfl⟩ | ⟨-, -, rfl⟩, rfl⟩ := hs
      · rw [List.mem_singleton.mp hr]
        exact hz.fits
      · exact absurd hr List.not_mem_nil
    · exact ih r hr

/-- Up to the start of a block the log has no record of it. -/
theorem blocks_lt {b : ℕ} (h : Trails.Trail (BlockStep V) p (place b 0) rs) :
    ∀ r ∈ rs, r.1 < b := by
  intro r hr
  obtain ⟨a, ha, hb⟩ := blocks_before h r hr
  rw [← place_eta a, place_lt] at ha
  omega

/-- A log that ends inside a block ends with a record of that block. -/
theorem blocks_last (h : Trails.Trail (BlockStep V) p q rs) (hlt : p < q) (hin : 0 < offsetOf q) :
    ∃ rs' r, rs = rs' ++ [(blockOf q, r)] := by
  induction h with
  | refl p => exact absurd hlt (lt_irrefl p)
  | @head p c q xs ys hs t ih =>
    rcases eq_or_lt_of_le (t.le BlockStep.lt) with hcq | hcq
    · -- The first step is the last one, and it does not go to another block.
      subst hcq
      obtain ⟨zs, ⟨r, -, rfl, rfl⟩ | ⟨-, rfl, rfl⟩, rfl⟩ := hs
      · cases t with
        | refl => exact ⟨[], r, rfl⟩
        | head hs' t' =>
          exact absurd (lt_of_lt_of_le hs'.lt (t'.le BlockStep.lt)) (lt_irrefl _)
      · exact absurd hin (lt_irrefl 0)
    · obtain ⟨rs', r, rfl⟩ := ih hcq hin
      exact ⟨xs ++ rs', r, (List.append_assoc _ _ _).symm⟩

end Blocks

/-! ## The reader among the records -/

section Reading

variable {ov : Overrun} {files : Settings} {V : ℕ → Block} {h : fkfs_header_t} {f : FileNumber}

/-- One step of a reader of file `f`, what it delivers tagged with its block. -/
abbrev FindStep (ov : Overrun) (files : Settings) (V : ℕ → Block) (h : fkfs_header_t)
    (f : FileNumber) : Place → List (ℕ × List UInt8) → Place → Prop :=
  Trails.Marked (fun p x => (blockOf p, x)) (ReadStep ov files V h f)

theorem findStep_notes (ov : Overrun) (files : Settings) (V : ℕ → Block) (h : fkfs_header_t)
    (f : FileNumber) : Notes ov files V h f Prod.mk (FindStep ov files V h f) where
  next := by
    rintro p xs q ⟨ys, hs, -⟩
    exact hs.next
  skip := fun hf => ⟨[], (readStep_notes ov files V h f).skip hf, rfl⟩
  silent := fun hh hb hl hno => ⟨[], (readStep_notes ov files V h f).silent hh hb hl hno, rfl⟩
  data := fun hh hb hl hgood hfile past =>
    ⟨_, (readStep_notes ov files V h f).data hh hb hl hgood hfile past, rfl⟩

/-- A step of the reader along the log delivers what its record holds of the file. -/
theorem findStep_of_blockStep {p q r : Place} {xs : List (ℕ × List UInt8)} {rs : List (ℕ × Rec)}
    (hs : FindStep ov files V h f p xs q) (hl : BlockStep V p rs r) :
    q = r ∧ xs = held h f rs := by
  obtain ⟨ys, hs, rfl⟩ := hs
  obtain ⟨zs, hl, rfl⟩ := hl
  obtain ⟨hq, rfl⟩ := readStep_of_logStep hs hl
  refine ⟨hq, ?_⟩
  simp only [held, mine, List.map_flatMap, List.flatMap_map]

theorem FindStep.lt {p q : Place} {xs : List (ℕ × List UInt8)}
    (hs : FindStep ov files V h f p xs q) : p < q := by
  obtain ⟨_, hs, _⟩ := hs
  exact hs.lt

/-- **What a walk of the reader delivers** is what lies on the log between its ends. -/
theorem held_of_found {p q e : Place} {xs : List (ℕ × List UInt8)} {as es : List (ℕ × Rec)}
    (ht : Trails.Trail (FindStep ov files V h f) p q xs) (hp : BlocksTo V p as)
    (he : BlocksTo V e es) (hqe : q ≤ e) :
    ∃ bs, BlocksTo V q (as ++ bs) ∧ as ++ bs <+: es ∧ xs = held h f bs := by
  obtain ⟨ds, rfl, hd⟩ := hp.split he (le_trans (ht.le FindStep.lt) hqe)
  obtain ⟨bs, cs, rfl, h1, -, rfl⟩ := Trails.Trail.follow (fun xs rs => xs = held h f rs) rfl
    (fun h1 h2 => by rw [h1, h2, held_append]) FindStep.lt findStep_of_blockStep ht hd hqe
  refine ⟨bs, hp.trans h1, ?_, rfl⟩
  rw [← List.append_assoc]
  exact List.prefix_append _ _

end Reading

/-! ## One call -/

/-- A machine that works, with a clean cache, whose writer has not wrapped. -/
structure AtRest (s : Machine) : Prop where
  works : Works s.sd
  coherent : Coherent s
  clean : s.fs.cachedBlockDirty = false
  unwrapped : Unwrapped s.fs s.fs.header.block.toNat

theorem AtRest.loads {s s' : Machine} (h : AtRest s) (hl : Loads s s') : AtRest s' := by
  refine ⟨by rw [hl.sd]; exact h.works, hl.coherent h.coherent, hl.dirty.trans h.clean, ?_⟩
  rw [hl.header]
  exact unwrapped_congr h.unwrapped hl.blocks

/-- The places of an iterator are places of the log, with these records before them. -/
structure Between (s : Machine) (token : fkfs_iterator_token_t)
    (as es : List (ℕ × Rec)) : Prop where
  here : BlocksTo (view s) (place token.block.toNat token.offset.toNat) as
  last : BlocksTo (view s) (place token.lastBlock.toNat token.lastOffset.toNat) es
  here_le : place token.block.toNat token.offset.toNat ≤ writerPlace s.fs.header
  last_le : place token.lastBlock.toNat token.lastOffset.toNat ≤ writerPlace s.fs.header

/-- What is left to an iterator of file `f` with these records before it and before its
end. -/
def left (h : fkfs_header_t) (f : FileNumber) (as es : List (ℕ × Rec)) : List (ℕ × List UInt8) :=
  (held h f es).drop (held h f as).length

/-- A call with this budget, from this block on, gets to the first of these payloads. -/
def Reaches (budget : UInt32) (b : ℕ) : List (ℕ × List UInt8) → Prop
  | [] => False
  | x :: _ => budget = 0 ∨ x.1 < b + budget.toNat

namespace Between

variable {s s' : Machine} {token : fkfs_iterator_token_t} {as es : List (ℕ × Rec)}
  {h : fkfs_header_t} {f : FileNumber}

theorem onLog (ho : Between s token as es) :
    OnLog s token (as.map Prod.snd) (es.map Prod.snd) :=
  ⟨ho.here.log, ho.last.log, ho.here_le, ho.last_le⟩

/-- Places of the log stay places of it as long as nothing before the writer is
changed. -/
theorem grown (ho : Between s token as es) (hg : Grown s s') : Between s' token as es :=
  ⟨ho.here.below hg.below ho.here_le, ho.last.below hg.below ho.last_le,
    le_trans ho.here_le hg.forward, le_trans ho.last_le hg.forward⟩

/-- What lies between the token and its end is what is left. -/
theorem left_eq (ho : Between s token as es)
    (hle : place token.block.toNat token.offset.toNat
      ≤ place token.lastBlock.toNat token.lastOffset.toNat) :
    ∃ ds, es = as ++ ds ∧ left h f as es = held h f ds
      ∧ ∀ x ∈ left h f as es, token.block.toNat ≤ x.1 := by
  obtain ⟨ds, rfl, ht⟩ := ho.here.split ho.last hle
  have hleft : left h f as (as ++ ds) = held h f ds := by
    rw [left, held_append, List.drop_left]
  refine ⟨ds, rfl, hleft, fun x hx => ?_⟩
  rw [hleft, held, List.mem_flatMap] at hx
  obtain ⟨r, hr, hx⟩ := hx
  obtain ⟨y, -, rfl⟩ := List.mem_map.mp hx
  exact blocks_ge ht r hr

/-- Nothing is left to a token that is past its end. -/
theorem left_past (ho : Between s token as es)
    (hle : place token.lastBlock.toNat token.lastOffset.toNat
      ≤ place token.block.toNat token.offset.toNat) : left h f as es = [] := by
  obtain ⟨ds, rfl, -⟩ := ho.last.split ho.here hle
  rw [left, held_append, List.length_append]
  exact List.drop_eq_nil_of_le (Nat.le_add_right _ _)

end Between

/-- What a call did that found something, or nothing. -/
structure Polled (s : Machine) (config : fkfs_iterator_config_t) (iter : fkfs_file_iter_t)
    (as es : List (ℕ × Rec)) (ok : Bool) (s' : Machine) (iter' : fkfs_file_iter_t)
    (bs : List (ℕ × Rec)) : Prop where
  loads : Loads s s'
  same : SameEnd iter iter'
  between : Between s' iter'.token (as ++ bs) es
  /-- A call that finds nothing passes nothing, and without a limit on its time it
  gives up only where the budget does not reach. -/
  nothing : ok = false → held s.fs.header iter.token.file bs = []
    ∧ (config.maxTime = 0 → ¬ Reaches config.maxBlocks iter.token.block.toNat
        (left s.fs.header iter.token.file as es))
  /-- A call that finds something finds what comes first, and passes it if it is to. -/
  found : ok = true → ∃ x rest, left s.fs.header iter.token.file as es = x :: rest
    ∧ Reaches config.maxBlocks iter.token.block.toNat (x :: rest)
    ∧ (∀ past, payload iter' s'.fs past = x.2) ∧ iter'.token.block.toNat = x.1
    ∧ held s.fs.header iter.token.file bs = if config.manualNext = 0 then [x] else []

section Poll

variable {ov : Overrun} {s : Machine} {iter : fkfs_file_iter_t} {as es : List (ℕ × Rec)}

/-- An iterator on the log that is not past its end is on its way there. -/
theorem ready_between (hs : AtRest s) (ho : Between s iter.token as es)
    (hc : Clear ov s iter.token) (hle : tokenPlace iter ≤ lastPlace iter) :
    Ready ov s.fs.files (view s) s.fs.header iter.token.file (lastPlace iter) s iter := by
  obtain ⟨ds, -, ht⟩ := ho.onLog.here.split ho.onLog.last hle
  refine ⟨hs.works, hs.coherent, rfl, rfl, fun _ _ => rfl, rfl, rfl, ho.onLog.here.block_ge,
    blockOf_le ho.last_le, hs.unwrapped, ⟨fun hd => ?_, fun hd => ?_⟩,
    reach_of_log ht fun b h1 h2 => ?_⟩
  · rw [hs.clean] at hd
    exact absurd hd Bool.false_ne_true
  · rw [hs.clean] at hd
    exact absurd hd Bool.false_ne_true
  · rw [view_clean hs.clean]
    exact hc b h1 h2

/-- **A call of `fkfs_file_iterate`** from a place of the log returns, with the first
of what is left or with nothing. -/
theorem poll_between (hs : AtRest s) (ho : Between s iter.token as es)
    (hc : Clear ov s iter.token) (config : fkfs_iterator_config_t) (am : Ambient) :
    ∃ N ok s' iter' bs, (∀ n, N ≤ n →
        fkfs_file_iterate ov n config am s iter = some (ok, s', iter'))
      ∧ Polled s config iter as es ok s' iter' bs := by
  rcases lt_or_ge (tokenPlace iter) (lastPlace iter) with hlt | hge
  · have hle : tokenPlace iter ≤ lastPlace iter := le_of_lt hlt
    have hr := ready_between hs ho hc hle
    obtain ⟨N, hN⟩ := iterate_noted (findStep_notes ov s.fs.files (view s) s.fs.header
      iter.token.file) hr.reach
    obtain ⟨ok, s', iter', he, hout⟩ := hN N (le_refl N) config am s iter hr rfl hlt
    have hle' : tokenPlace iter' ≤ lastPlace iter := hout.ready.reach.le
    have hsame : SameEnd iter iter' :=
      (iterate_loads hs.works hs.coherent (fun _ _ => hr.quiet) he).2.1
    have hlast := ho.last
    rw [← hsame.2.1, ← hsame.2.2.1] at hlast
    have hplaces : ∀ bs, BlocksTo (view s) (tokenPlace iter') (as ++ bs) →
        Between s' iter'.token (as ++ bs) es := by
      intro bs hb
      refine Between.grown (s := s) ⟨hb, hlast, le_trans hle' ho.last_le, ?_⟩
        (grown_of_keeps hout.loads.keeps)
      rw [hsame.2.1, hsame.2.2.1]
      exact ho.last_le
    obtain ⟨ds, hes, hleft, hblocks⟩ :=
      ho.left_eq (h := s.fs.header) (f := iter.token.file) hle
    refine ⟨N, ok, s', iter', ?_⟩
    cases ok with
    | false =>
      obtain ⟨ht, -⟩ := hout.stops rfl
      obtain ⟨bs, hb, hpre, hx⟩ := held_of_found ht ho.here ho.last hle'
      have hbetween := hplaces bs hb
      refine ⟨bs, fun n hn => iterate_mono he hn, hout.loads, hsame, hbetween,
        fun _ => ⟨hx.symm, fun htime => ?_⟩, fun hok => absurd hok Bool.false_ne_true⟩
      -- Of what was left nothing was passed, so it is all still to come.
      have hstill : left s.fs.header iter.token.file as es
          = left s.fs.header iter.token.file (as ++ bs) es := by
        rw [left, left, held_append, ← hx, List.append_nil]
      by_cases hend : tokenPlace iter' = lastPlace iter
      · rw [hstill, hbetween.left_past]
        · exact id
        · rw [hsame.2.1, hsame.2.2.1]
          exact le_of_eq hend.symm
      · obtain ⟨hpos, hblock⟩ := hout.budget rfl htime hend
        obtain ⟨-, -, -, hfar⟩ := hbetween.left_eq (h := s.fs.header) (f := iter.token.file)
          (by rw [hsame.2.1, hsame.2.2.1]; exact hle')
        rw [hstill]
        intro hreach
        cases hl : left s.fs.header iter.token.file (as ++ bs) es with
        | nil =>
          rw [hl] at hreach
          exact hreach
        | cons x rest =>
          rw [hl] at hreach
          have h1 := hfar x (by rw [hl]; exact List.mem_cons_self)
          have h2 : iter'.token.block.toNat = iter.token.block.toNat + config.maxBlocks.toNat :=
            hblock hpos
          have h3 := UInt32.lt_iff_toNat_lt.mp hpos
          rcases hreach with h0 | hnear
          · rw [h0] at h3
            exact absurd h3 (lt_irrefl _)
          · omega
    | true =>
      obtain ⟨q, c, ht, hdata, hce, hplace, hblock, hnear⟩ := hout.finds rfl
      have hnotes := findStep_notes ov s.fs.files (view s) s.fs.header iter.token.file
      have hqc : q < c := (hnotes.next (hdata fun _ => 0)).lt
      have hce' : c ≤ lastPlace iter := Reach.le hce
      -- Up to the entry nothing is passed; the entry is the first of what is left.
      obtain ⟨bs, hb, -, hx⟩ := held_of_found ht ho.here ho.last (le_trans (le_of_lt hqc) hce')
      have hentry : ∀ past, ∃ cs, BlocksTo (view s) c (as ++ cs) ∧ as ++ cs <+: es
          ∧ [(blockOf q, payload iter' s'.fs past)] = held s.fs.header iter.token.file cs :=
        fun past => held_of_found (ht.trans (.single (hdata past))) ho.here ho.last hce'
      obtain ⟨cs, hcs, hpre, hone⟩ := hentry fun _ => 0
      have hsame_data : ∀ past, payload iter' s'.fs past = payload iter' s'.fs fun _ => 0 := by
        intro past
        obtain ⟨cs', hcs', -, hone'⟩ := hentry past
        rw [List.append_cancel_left (hcs'.unique hcs), ← hone] at hone'
        simpa using hone'
      have hfirst : ∃ rest, left s.fs.header iter.token.file as es
          = (blockOf q, payload iter' s'.fs fun _ => 0) :: rest := by
        obtain ⟨ts, rfl⟩ := hpre
        refine ⟨held s.fs.header iter.token.file ts, ?_⟩
        rw [left, held_append, held_append, ← hone, List.append_assoc, List.drop_left]
        rfl
      obtain ⟨rest, hrest⟩ := hfirst
      have hreach : Reaches config.maxBlocks iter.token.block.toNat
          ((blockOf q, payload iter' s'.fs fun _ => 0) :: rest) := by
        by_cases h0 : config.maxBlocks = 0
        · exact .inl h0
        · have hpos : 0 < config.maxBlocks := by
            rw [UInt32.lt_iff_toNat_lt, UInt32.toNat_zero]
            exact Nat.pos_of_ne_zero fun hz => h0 (UInt32.toNat_inj.mp hz)
          exact .inr (hnear hpos hpos)
      have hin : iter'.token.block.toNat = blockOf q := by
        have hplaced : blockOf (tokenPlace iter') = blockOf q := by
          rw [hplace]
          split
          · exact hblock
          · rfl
        exact hplaced
      by_cases hm : config.manualNext = 0
      · rw [if_pos hm] at hplace
        rw [← hplace] at hcs
        refine ⟨cs, fun n hn => iterate_mono he hn, hout.loads, hsame, hplaces cs hcs,
          fun hok => absurd hok.symm Bool.false_ne_true,
          fun _ => ⟨_, rest, hrest, hreach, hsame_data, hin, ?_⟩⟩
        rw [if_pos hm, ← hone]
      · rw [if_neg hm] at hplace
        rw [← hplace] at hb
        refine ⟨bs, fun n hn => iterate_mono he hn, hout.loads, hsame, hplaces bs hb,
          fun hok => absurd hok.symm Bool.false_ne_true,
          fun _ => ⟨_, rest, hrest, hreach, hsame_data, hin, ?_⟩⟩
        rw [if_neg hm, ← hx]
  · have hdone : fkfs_file_iterator_done iter = true := (done_iff iter).mpr hge
    refine ⟨0, false, s, iter, [], fun n _ => iterate_of_done hdone, .refl s, .refl iter, ?_,
      fun _ => ⟨rfl, fun _ => ?_⟩, fun hok => absurd hok Bool.false_ne_true⟩
    · rw [List.append_nil]
      exact ho
    · rw [ho.left_past hge]
      exact id

end Poll

end Fkfs.Journal
