/-
What the owner of a card has on it, and what his iterators are.

Every file is a tape: payloads are put on it, each in the block the writer was in,
and a truncation empties it. A token is a cursor into the tape of its file
(`Stands`), whichever call made it: `fkfs_file_iterator_create` one over all there
is, `fkfs_file_iterator_reopen` one that goes on from the old place to what is the
end by now, `fkfs_file_iterator_resume` the old one again, and a call of
`fkfs_file_iterate` the one behind the payload it found. So a token can be kept
across appends, truncations and other iterations, and what it delivers is what its
cursor has left (`resumption`, `polls_advance`).

A token from before a truncation has nothing left. Only the sizes tell it apart:
a file that is smaller than the token's size is started over, one that has grown
again is not, and resuming the token delivers nothing of it.
-/
import Fkfs.Lib.Cursors
import Fkfs.Journal

set_option autoImplicit false

namespace Fkfs.Tapes

open Bytes Cursors
open Fkfs.Crc Fkfs.Layout Fkfs.Device Fkfs.Search Fkfs.Append Fkfs.Iterate Fkfs.Mount Fkfs.Cache
open Fkfs.Walk Fkfs.Writer Fkfs.Reader Fkfs.Run Fkfs.Slots Fkfs.Log Fkfs.CardLog Fkfs.Structure
open Fkfs.Truncation Fkfs.Journal

/-! ## Histories -/

/-- A machine, what is on the tapes of its files, and the tokens its calls have
produced, each with the cursor it stands for. -/
structure History where
  machine : Machine
  tapes : FileNumber → Tape (ℕ × List UInt8)
  tokens : List (fkfs_iterator_token_t × Cursor)

namespace History

/-- The payloads of file `f`. -/
def payloads (x : History) (f : FileNumber) : List (List UInt8) := (x.tapes f).items.map Prod.snd

/-- A token is produced. -/
def produce (x : History) (token : fkfs_iterator_token_t) (c : Cursor) : History :=
  { x with tokens := (token, c) :: x.tokens }

/-- An append: a payload that was stored lies in the block the writer is in. -/
def append (x : History) (f : FileNumber) (data : List UInt8) (r : Bool × Machine) : History :=
  { x with
    machine := r.2
    tapes := if r.1 then
        Function.update x.tapes f ((x.tapes f).push (r.2.fs.header.block.toNat, data))
      else x.tapes }

/-- File `f` is truncated. -/
def truncate (x : History) (f : FileNumber) : History :=
  { x with
    machine := fkfs_file_truncate x.machine f
    tapes := Function.update x.tapes f (x.tapes f).clear }

/-- What `fkfs_file_iterator_resume` makes of a token. Of one from before a truncation
it makes a new one if the file is smaller than the token says. -/
def resumed (x : History) (token : fkfs_iterator_token_t) (c : Cursor) : Cursor :=
  if c.epoch = (x.tapes token.file).epoch then c
  else if total (x.payloads token.file) < token.size.toNat then (x.tapes token.file).whole
  else (x.tapes token.file).nothing

/-- The machine and the payloads, without the blocks and the tokens. -/
def session (x : History) : Session :=
  ⟨x.machine, x.payloads, fun f => (x.tapes f).epoch, []⟩

end History

/-- What a call of `fkfs_file_iterate` makes of a cursor. -/
def polled (config : fkfs_iterator_config_t) (ok : Bool) (c : Cursor) : Cursor :=
  if ok = true ∧ config.manualNext = 0 then c.advance else c

/-- Runs over a wiped card of zeros on which nothing fails. All files are sync files,
the writer does not wrap, no file is truncated 65536 times or grows to 2^32 bytes, and
the blocks an iterator leaves end before they are read past their end. -/
inductive Run (ov : Overrun) : History → Prop
  | wipe {s m : Machine} {cfg : FileNumber → FileConfig} {draws : FileNumber → UInt16}
      (hw : Works s.sd) (hzero : ∀ b, 8000 ≤ b → s.sd.blocks b = zeroBlock) (hwraps : s.wraps = 0)
      (hsync : ∀ f, (cfg f).sync ≠ 0) (h : boot s cfg true draws = (true, m)) :
      Run ov ⟨m, fun _ => .blank, []⟩
  | append {x : History} (hx : Run ov x) (f : FileNumber) {data : List UInt8}
      (hlen : data.length ≤ 505) (hroom : total (x.payloads f) + data.length < 4294967296)
      (pasts : ℕ → Mem) (hwraps : (fkfs_file_append ov pasts x.machine f data).2.wraps = 0) :
      Run ov (x.append f data (fkfs_file_append ov pasts x.machine f data))
  | truncate {x : History} (hx : Run ov x) (f : FileNumber)
      (hfew : (x.tapes f).epoch + 1 < 65536) : Run ov (x.truncate f)
  | touch {x : History} (hx : Run ov x) (time : UInt32) :
      Run ov { x with machine := (fkfs_touch x.machine time).2 }
  | flush {x : History} (hx : Run ov x) (now : UInt32) :
      Run ov { x with machine := (fkfs_flush x.machine now).2 }
  | create {x : History} (hx : Run ov x) (f : FileNumber) (iter : fkfs_file_iter_t) :
      Run ov (x.produce (fkfs_file_iterator_create x.machine.fs f iter).token (x.tapes f).whole)
  | reopen {x : History} (hx : Run ov x) {token : fkfs_iterator_token_t} {c : Cursor}
      (htoken : (token, c) ∈ x.tokens) (iter : fkfs_file_iter_t) :
      Run ov (x.produce (fkfs_file_iterator_reopen x.machine.fs iter token).token
        (c.extend (x.tapes token.file)))
  | resume {x : History} (hx : Run ov x) {token : fkfs_iterator_token_t} {c : Cursor}
      (htoken : (token, c) ∈ x.tokens) (iter : fkfs_file_iter_t) :
      Run ov (x.produce (fkfs_file_iterator_resume x.machine.fs iter token).token
        (x.resumed token c))
  | moveEnd {x : History} (hx : Run ov x) {iter : fkfs_file_iter_t} {c : Cursor}
      (htoken : (iter.token, c) ∈ x.tokens) :
      Run ov (x.produce (fkfs_file_iterator_move_end iter).token c.finish)
  | iterate {x : History} (hx : Run ov x) {iter iter' : fkfs_file_iter_t} {c : Cursor} {n : ℕ}
      (htoken : (iter.token, c) ∈ x.tokens) (hclear : Clear ov x.machine iter.token)
      {config : fkfs_iterator_config_t} {am : Ambient} {ok : Bool} {m : Machine}
      (h : fkfs_file_iterate ov n config am x.machine iter = some (ok, m, iter')) :
      Run ov (History.produce { x with machine := m } iter'.token (polled config ok c))

/-! ## The invariant -/

/-- A token stands for a cursor: it lies on the log, with the items behind the cursor
before it and those within it before its end. -/
structure Stands (x : History) (token : fkfs_iterator_token_t) (c : Cursor)
    (as es : List (ℕ × Rec)) : Prop where
  between : Between x.machine token as es
  behind : held x.machine.fs.header token.file as = c.behind (x.tapes token.file)
  within : held x.machine.fs.header token.file es = c.within (x.tapes token.file)
  valid : c.Valid (x.tapes token.file)
  size : c.epoch = (x.tapes token.file).epoch → token.size.toNat ≤ total (x.payloads token.file)

/-- The records on the card tell what is on the tapes, and every token lies among
them. -/
structure Holds (recs : List (ℕ × Rec)) (x : History) : Prop where
  tells : Tells (recs.map Prod.snd) x.session
  blocks : BlocksTo (view x.machine) (writerPlace x.machine.fs.header) recs
  told : ∀ f, held x.machine.fs.header f recs = (x.tapes f).items
  room : ∀ f, total (x.payloads f) < 4294967296
  starts : ∀ f, (x.machine.fs.header.files f).startOffset = 0
  tokens : ∀ p ∈ x.tokens, ∃ as es, Stands x p.1 p.2 as es

namespace Stands

variable {x x' : History} {token : fkfs_iterator_token_t} {c : Cursor} {as es : List (ℕ × Rec)}

/-- What is left to the token is what is left to the cursor. -/
theorem left_eq (h : Stands x token c as es) :
    left x.machine.fs.header token.file as es = c.rest (x.tapes token.file) := by
  rw [left, h.behind, h.within, Cursor.rest]

/-- A token keeps standing for its cursor while the log grows and the tape of its file
stays, or gets one more item. -/
theorem moved (h : Stands x token c as es) (hg : Grown x.machine x'.machine)
    (hv : (x'.machine.fs.header.files token.file).version
      = (x.machine.fs.header.files token.file).version)
    (htape : x'.tapes token.file = x.tapes token.file
      ∨ ∃ item, x'.tapes token.file = (x.tapes token.file).push item) :
    Stands x' token c as es := by
  have hbetween := h.between.grown hg
  rcases htape with htape | ⟨item, htape⟩
  · refine ⟨hbetween, ?_, ?_, by rw [htape]; exact h.valid, ?_⟩
    · rw [held_congr hv, h.behind, htape]
    · rw [held_congr hv, h.within, htape]
    · rw [History.payloads, htape]
      exact h.size
  · refine ⟨hbetween, ?_, ?_, by rw [htape]; exact h.valid.push item, fun he => ?_⟩
    · rw [held_congr hv, h.behind, htape, Cursor.behind_push h.valid]
    · rw [held_congr hv, h.within, htape, Cursor.within_push h.valid]
    · rw [htape] at he
      have hold := h.size he
      rw [History.payloads, htape, Tape.push, List.map_append, total_append]
      exact le_trans hold (Nat.le_add_right _ _)

end Stands

/-! ## What a call keeps -/

theorem session_append (x : History) (f : FileNumber) (data : List UInt8) (r : Bool × Machine) :
    (x.append f data r).session = x.session.append f data r := by
  obtain ⟨ok, m⟩ := r
  unfold History.session Session.append
  congr 1
  · funext g
    cases ok
    · rfl
    · change ((Function.update x.tapes f _) g).items.map Prod.snd
        = Function.update x.payloads f (x.payloads f ++ [data]) g
      by_cases hg : g = f
      · subst hg
        rw [Function.update_self, Function.update_self, Tape.push, List.map_append]
        rfl
      · rw [Function.update_of_ne hg, Function.update_of_ne hg]
        rfl
  · funext g
    cases ok
    · rfl
    · change ((Function.update x.tapes f _) g).epoch = (x.tapes g).epoch
      by_cases hg : g = f
      · subst hg
        rw [Function.update_self]
        rfl
      · rw [Function.update_of_ne hg]

theorem session_truncate (x : History) (f : FileNumber) :
    (x.truncate f).session = x.session.truncate f := by
  unfold History.session Session.truncate
  congr 1
  · funext g
    change ((Function.update x.tapes f _) g).items.map Prod.snd
      = Function.update x.payloads f [] g
    by_cases hg : g = f
    · subst hg
      rw [Function.update_self, Function.update_self]
      rfl
    · rw [Function.update_of_ne hg, Function.update_of_ne hg]
      rfl
  · funext g
    change ((Function.update x.tapes f _) g).epoch
      = Function.update (fun g => (x.tapes g).epoch) f ((x.tapes f).epoch + 1) g
    by_cases hg : g = f
    · subst hg
      rw [Function.update_self, Function.update_self]
      rfl
    · rw [Function.update_of_ne hg, Function.update_of_ne hg]

/-- A log that has grown: the records before are the old ones, in their blocks. -/
theorem blocks_grown {s s' : Machine} {recs : List (ℕ × Rec)} {xs : List Rec} (hg : Grown s s')
    (hb : BlocksTo (view s) (writerPlace s.fs.header) recs)
    (hl : LogTo (view s') (writerPlace s'.fs.header) (recs.map Prod.snd ++ xs)) :
    ∃ ds, BlocksTo (view s') (writerPlace s'.fs.header) (recs ++ ds) ∧ ds.map Prod.snd = xs := by
  obtain ⟨rs, hrs, hmap⟩ := blocksTo_of_log hl
  obtain ⟨ds, rfl, -⟩ := (hb.below hg.below (le_refl _)).split hrs hg.forward
  rw [List.map_append] at hmap
  exact ⟨ds, hrs, List.append_cancel_left hmap⟩

namespace Holds

variable {recs : List (ℕ × Rec)} {x : History}

theorem atRest (h : Holds recs x) : AtRest x.machine :=
  ⟨h.tells.logged.works, h.tells.logged.coherent, h.tells.clean,
    h.tells.logged.unwrapped h.tells.wraps⟩

theorem describes (h : Holds recs x) :
    Describes (view x.machine) x.machine.fs.header (recs.map Prod.snd) := h.tells.describes

/-- A call that keeps the tapes. -/
theorem keeps (h : Holds recs x) {m : Machine} (hl : Logged (recs.map Prod.snd) m)
    (hclean : m.fs.cachedBlockDirty = false) (hk : Keeps x.machine m) :
    Holds recs { x with machine := m } := by
  have hg : Grown x.machine m := grown_of_keeps hk
  have hwraps : m.wraps = 0 := hk.wraps.trans h.tells.wraps
  have hv : ∀ g, (m.fs.header.files g).version = (x.machine.fs.header.files g).version :=
    fun g => by rw [hk.table]
  obtain ⟨ds, hds, hnone⟩ := blocks_grown hg h.blocks (by
    rw [List.append_nil]
    exact (hl.told hwraps).track)
  rw [List.map_eq_nil_iff.mp hnone, List.append_nil] at hds
  refine ⟨h.tells.moved hl hclean hwraps hg hk.settings hv h.tells.accounts, hds, fun f => ?_,
    h.room, fun f => by rw [hk.table]; exact h.starts f, fun p hp => ?_⟩
  · exact (held_congr (hv f) recs).trans (h.told f)
  · obtain ⟨as, es, hs⟩ := h.tokens p hp
    exact ⟨as, es, hs.moved hg (hv _) (.inl rfl)⟩

/-- A new token. -/
theorem produce (h : Holds recs x) {token : fkfs_iterator_token_t} {c : Cursor}
    {as es : List (ℕ × Rec)} (hs : Stands x token c as es) : Holds recs (x.produce token c) := by
  refine ⟨h.tells, h.blocks, h.told, h.room, h.starts, fun p hp => ?_⟩
  rcases List.mem_cons.mp hp with rfl | hp
  · exact ⟨as, es, ⟨hs.between, hs.behind, hs.within, hs.valid, hs.size⟩⟩
  · obtain ⟨as', es', hs'⟩ := h.tokens p hp
    exact ⟨as', es', ⟨hs'.between, hs'.behind, hs'.within, hs'.valid, hs'.size⟩⟩

/-- The writer stands behind something it has stored. -/
theorem afterStore_offset_pos {m : Machine} (hc : Coherent m) {f : FileNumber} {data : List UInt8}
    (hlen : data.length ≤ 505) : 0 < (afterStore m f data).fs.header.offset.toNat := by
  have hle := hc.offset_le
  change 0 < (m.fs.header.offset + (7 + UInt16.ofNat data.length)).toNat
  rw [UInt16.toNat_add, required_toNat hlen]
  omega

/-- What the record of an append holds of its file. -/
theorem held_record (m : Machine) (f g : FileNumber) (b : ℕ) (data : List UInt8) :
    held m.fs.header g [(b, recordOf m.fs.header f data)] = if g = f then [(b, data)] else [] := by
  by_cases hg : g = f
  · subst hg
    simp [held, pick, recordOf]
  · simp [held, pick, recordOf, hg, Ne.symm hg]

/-- **An append** puts its payload on the tape of its file, in the block the writer is
in. -/
theorem append {ov : Overrun} (h : Holds recs x) (f : FileNumber) {data : List UInt8}
    (hlen : data.length ≤ 505) (hroom : total (x.payloads f) + data.length < 4294967296)
    (pasts : ℕ → Mem) (hwraps : (fkfs_file_append ov pasts x.machine f data).2.wraps = 0) :
    ∃ recs', Holds recs' (x.append f data (fkfs_file_append ov pasts x.machine f data)) := by
  have hroom' : ∀ (ok : Bool) (m : Machine) (g : FileNumber),
      total ((x.append f data (ok, m)).payloads g) < 4294967296 := by
    intro ok m g
    cases ok
    · exact h.room g
    · by_cases hg : g = f
      · subst hg
        have hall : (x.append g data (true, m)).payloads g = x.payloads g ++ [data] := by
          simp only [History.payloads, History.append, if_true, Function.update_self, Tape.push,
            List.map_append, List.map_cons, List.map_nil]
        rw [hall, total_append]
        exact hroom
      · simp only [History.payloads, History.append, if_true, Function.update_of_ne hg]
        exact h.room g
  have hlog : Logged (recs.map Prod.snd) x.machine := h.tells.logged
  have hdirty : x.machine.fs.cachedBlockDirty = false := h.tells.clean
  rcases append_logged ov hlog hdirty (h.tells.sync f) hlen pasts with
    ⟨m, hm, e⟩ | ⟨m, hm, hpos, hgrown, hstore, e⟩
  · -- No place was found: the writer may have gone on, and nothing was stored.
    rw [e] at hwraps ⊢
    have hg : Grown x.machine m := hm.grown hdirty hwraps
    have hv : ∀ g, (m.fs.header.files g).version = (x.machine.fs.header.files g).version :=
      fun g => by rw [hm.seeks.table]
    obtain ⟨ds, hds, hnone⟩ := blocks_grown hg h.blocks (by
      rw [List.append_nil]
      exact (hm.logged.told hwraps).track)
    rw [List.map_eq_nil_iff.mp hnone, List.append_nil] at hds
    refine ⟨recs, ?_, hds, fun g => (held_congr (hv g) recs).trans (h.told g), hroom' false m,
      fun g => ?_, fun p hp => ?_⟩
    · rw [session_append]
      exact h.tells.moved hm.logged hm.seeks.dirty hwraps hg hm.seeks.settings hv h.tells.accounts
    · change (m.fs.header.files g).startOffset = 0
      rw [hm.seeks.table]
      exact h.starts g
    · obtain ⟨as, es, hs⟩ := h.tokens p hp
      exact ⟨as, es, hs.moved hg (hv _) (.inl rfl)⟩
  · -- The record is stored at the end of the log, and synced.
    obtain ⟨-, hk, hclean⟩ := fsync_keeps hstore.coherent
    have hok := fsync_succeeds hstore.works
    obtain ⟨m', hm'⟩ : ∃ m', fkfs_fsync (afterStore m f data) = (true, m') :=
      ⟨_, Prod.ext hok.1 rfl⟩
    have hsynced := hstore.sync
    rw [hm'] at hk hclean hsynced
    rw [e, hm'] at hwraps ⊢
    have hm0 : m.wraps = 0 := hk.wraps.symm.trans hwraps
    have hg : Grown x.machine m' :=
      ((hm.grown hdirty hm0).trans hgrown).trans (grown_of_keeps hk)
    have hv : ∀ g, (m'.fs.header.files g).version = (x.machine.fs.header.files g).version :=
      fun g => by rw [hk.table, afterStore_version, hm.seeks.table]
    obtain ⟨ds, hds, hone⟩ := blocks_grown hg h.blocks (hsynced.told hwraps).track
    obtain ⟨⟨b, r⟩, rfl, rfl⟩ := List.map_eq_singleton_iff.mp hone
    -- The log ends behind the record, inside the writer's block.
    have hoff : 0 < m'.fs.header.offset.toNat := by
      rw [hk.offset]
      exact afterStore_offset_pos hm.logged.coherent hlen
    have hblock : b = m'.fs.header.block.toNat := by
      have hlt : origin < writerPlace m'.fs.header := by
        have hge : 8000 ≤ m'.fs.header.block.toNat := hsynced.coherent.block_ge
        refine place_lt.mpr ?_
        omega
      obtain ⟨rs', r', hlast⟩ := blocks_last hds hlt hoff
      have hsame := (List.append_inj' hlast rfl).2
      exact congrArg Prod.fst (List.singleton_inj.mp hsame)
    subst hblock
    have hheld : ∀ g, held m'.fs.header g (recs ++ [(m'.fs.header.block.toNat,
        recordOf x.machine.fs.header f data)]) = (x.tapes g).items
          ++ if g = f then [(m'.fs.header.block.toNat, data)] else [] := by
      intro g
      rw [held_congr (hv g), held_append, h.told g, held_record]
    refine ⟨_, ?_, hds, fun g => ?_, hroom' true m', fun g => ?_, fun p hp => ?_⟩
    · rw [session_append, List.map_append]
      refine h.tells.moved hsynced (hclean rfl) hwraps hg (hk.settings.trans hm.seeks.settings)
        hv ?_
      exact h.tells.accounts.store f data
    · rw [show (x.append f data (true, m')).machine = m' from rfl, hheld]
      by_cases hgf : g = f
      · subst hgf
        rw [if_pos rfl]
        simp only [History.append, if_true, Function.update_self, Tape.push]
      · rw [if_neg hgf, List.append_nil]
        simp only [History.append, if_true, Function.update_of_ne hgf]
    · have hstart : (m'.fs.header.files g).startOffset = (m.fs.header.files g).startOffset := by
        rw [hk.table]
        by_cases hgf : g = f
        · subst hgf
          rw [afterStore_row]
        · rw [afterStore_other hgf]
      refine hstart.trans ?_
      rw [hm.seeks.table]
      exact h.starts g
    · obtain ⟨as, es, hs⟩ := h.tokens p hp
      refine ⟨as, es, hs.moved hg (hv _) ?_⟩
      by_cases hgf : p.1.file = f
      · rw [hgf]
        exact .inr ⟨_, Function.update_self _ _ _⟩
      · exact .inl (Function.update_of_ne hgf _ _)

/-- **A truncation** empties the tape of its file. -/
theorem truncate (h : Holds recs x) (f : FileNumber) (hfew : (x.tapes f).epoch + 1 < 65536) :
    Holds recs (x.truncate f) := by
  have htells : Tells (recs.map Prod.snd) (x.truncate f).session := by
    rw [session_truncate]
    exact h.tells.truncate f hfew
  have hv : ∀ g, g ≠ f → ((x.truncate f).machine.fs.header.files g).version
      = (x.machine.fs.header.files g).version := fun g hg =>
    congrArg fkfs_file_t.version (Function.update_of_ne hg _ _)
  have hg : Grown x.machine (x.truncate f).machine := ⟨below_of_eq (fun _ _ => rfl) _, le_refl _⟩
  have hself : held (x.truncate f).machine.fs.header f recs = [] := by
    rw [held_eq_nil]
    refine (htells.told f).trans ?_
    change ((Function.update x.tapes f (x.tapes f).clear) f).items.map Prod.snd = []
    rw [Function.update_self]
    rfl
  refine ⟨htells, h.blocks, fun g => ?_, fun g => ?_, fun g => ?_, fun p hp => ?_⟩
  · by_cases hgf : g = f
    · subst hgf
      rw [hself]
      simp only [History.truncate, Function.update_self, Tape.clear]
    · rw [held_congr (hv g hgf), h.told g]
      simp only [History.truncate, Function.update_of_ne hgf]
  · by_cases hgf : g = f
    · subst hgf
      simp only [History.payloads, History.truncate, Function.update_self, Tape.clear, List.map_nil]
      exact Nat.zero_lt_succ _
    · simp only [History.payloads, History.truncate, Function.update_of_ne hgf]
      exact h.room g
  · by_cases hgf : g = f
    · subst hgf
      simp only [History.truncate, fkfs_file_truncate, Machine.setHeader, fkfs_header_t.setFile,
        Function.update_self]
    · exact (congrArg fkfs_file_t.startOffset (Function.update_of_ne hgf _ _)).trans (h.starts g)
  · obtain ⟨as, es, hs⟩ := h.tokens p hp
    refine ⟨as, es, ?_⟩
    by_cases hgf : p.1.file = f
    · -- Nothing on the log is the file's any more.
      have htape : (x.truncate f).tapes p.1.file = (x.tapes p.1.file).clear := by
        rw [hgf]
        exact Function.update_self _ _ _
      have hnone : ∀ rs, rs <+: recs → held (x.truncate f).machine.fs.header p.1.file rs = [] := by
        intro rs hpre
        obtain ⟨ds, hds⟩ := hpre
        rw [hgf, held_eq_nil]
        rw [held_eq_nil, ← hds] at hself
        rw [List.map_append, mine_append, List.append_eq_nil_iff] at hself
        exact hself.1
      refine ⟨hs.between.grown hg, ?_, ?_, by rw [htape]; exact hs.valid.clear, fun he => ?_⟩
      · obtain ⟨ds, hds, -⟩ := hs.between.here.split h.blocks hs.between.here_le
        rw [hnone as ⟨ds, hds.symm⟩, htape, Cursor.behind_clear hs.valid]
      · obtain ⟨ds, hds, -⟩ := hs.between.last.split h.blocks hs.between.last_le
        rw [hnone es ⟨ds, hds.symm⟩, htape, Cursor.within_clear hs.valid]
      · rw [htape] at he
        exact absurd he (ne_of_lt (Nat.lt_succ_of_le hs.valid.epoch_le))
    · exact hs.moved hg (hv _ hgf) (.inl (Function.update_of_ne hgf _ _))

end Holds

/-! ## What a token stands for -/

section Tokens

variable {recs : List (ℕ × Rec)} {x : History}

/-- The size of a file is what its payloads come to. -/
theorem Holds.size (h : Holds recs x) (f : FileNumber) :
    (x.machine.fs.header.files f).size.toNat = total (x.payloads f) := by
  have hsize := (h.describes.row f).size
  have htold : mine x.machine.fs.header f (recs.map Prod.snd) = x.payloads f := h.tells.told f
  rw [htold] at hsize
  rw [hsize, UInt32.toNat_ofNat']
  exact Nat.mod_eq_of_lt (h.room f)

/-- No payload is empty. -/
theorem Holds.items_pos (h : Holds recs x) (f : FileNumber) :
    ∀ item ∈ (x.tapes f).items, 0 < item.2.length := by
  intro item hi
  rw [← h.told f] at hi
  obtain ⟨r, hr, hi⟩ := List.mem_flatMap.mp hi
  obtain ⟨data, hdata, rfl⟩ := List.mem_map.mp hi
  unfold pick at hdata
  split at hdata
  · rw [List.mem_singleton.mp hdata]
    exact (blocks_fit h.blocks r hr).1
  · exact absurd hdata List.not_mem_nil

/-- The places of a row of the file table, with the records before them. -/
theorem Holds.row (h : Holds recs x) (f : FileNumber) :
    ∃ as es, BlocksTo (view x.machine) (startPlace (x.machine.fs.header.files f)) as
      ∧ BlocksTo (view x.machine) (endPlace (x.machine.fs.header.files f)) es
      ∧ held x.machine.fs.header f as = [] ∧ held x.machine.fs.header f es = (x.tapes f).items
      ∧ startPlace (x.machine.fs.header.files f) ≤ writerPlace x.machine.fs.header
      ∧ endPlace (x.machine.fs.header.files f) ≤ writerPlace x.machine.fs.header := by
  obtain ⟨⟨as0, ha, hma⟩, ⟨es0, he, hme⟩, h1, h2, -⟩ := h.describes.row f
  obtain ⟨as, has, rfl⟩ := blocksTo_of_log ha
  obtain ⟨es, hes, rfl⟩ := blocksTo_of_log he
  obtain ⟨ds, hds, -⟩ := hes.split h.blocks h2
  refine ⟨as, es, has, hes, held_eq_nil.mpr hma, ?_, le_trans h1 h2, h2⟩
  rw [ held_of_prefix ⟨ds, hds.symm⟩ hme, h.told f]

/-- **`fkfs_file_iterator_create`** makes a cursor over all there is. -/
theorem stands_create (h : Holds recs x) (f : FileNumber) (iter : fkfs_file_iter_t) :
    ∃ as es, Stands x (fkfs_file_iterator_create x.machine.fs f iter).token (x.tapes f).whole
      as es := by
  obtain ⟨as, es, has, hes, hbehind, hwithin, h1, h2⟩ := h.row f
  refine ⟨as, es, ⟨has, hes, h1, h2⟩, ?_, ?_, Cursor.valid_whole _, fun _ => ?_⟩
  · exact hbehind.trans (Cursor.behind_whole _).symm
  · exact hwithin.trans (Cursor.within_whole _).symm
  · exact le_of_eq (h.size f)

/-- A token of the file as it is is not bigger than the file. -/
theorem not_smaller (h : Holds recs x) {token : fkfs_iterator_token_t} {c : Cursor}
    {as es : List (ℕ × Rec)} (hs : Stands x token c as es)
    (hcur : c.epoch = (x.tapes token.file).epoch) :
    ¬ (x.machine.fs.header.files token.file).size < token.size := by
  rw [UInt32.lt_iff_toNat_lt, h.size, not_lt]
  exact hs.size hcur

/-- **`fkfs_file_iterator_reopen`** goes on from where the cursor was, to the end
there is now. -/
theorem stands_reopen (h : Holds recs x) {token : fkfs_iterator_token_t} {c : Cursor}
    {as es : List (ℕ × Rec)} (hs : Stands x token c as es) (iter : fkfs_file_iter_t) :
    ∃ as' es', Stands x (fkfs_file_iterator_reopen x.machine.fs iter token).token
      (c.extend (x.tapes token.file)) as' es' := by
  unfold fkfs_file_iterator_reopen
  dsimp only
  split
  · -- The file is smaller than it was, so the token is from before a truncation.
    rename_i hsmall
    have hstale : c.epoch ≠ (x.tapes token.file).epoch := fun he => not_smaller h hs he hsmall
    obtain ⟨as', es', hs'⟩ := stands_create h token.file iter
    refine ⟨as', es', ?_⟩
    rw [Cursor.extend, if_neg hstale]
    exact hs'
  · obtain ⟨-, es', -, hes, -, hwithin, -, h2⟩ := h.row token.file
    refine ⟨as, es', ⟨hs.between.here, hes, hs.between.here_le, h2⟩, ?_, ?_, hs.valid.extend,
      fun _ => le_of_eq (h.size _)⟩
    · exact hs.behind.trans (Cursor.behind_extend _ _).symm
    · exact hwithin.trans (Cursor.within_extend _ _).symm

/-- **`fkfs_file_iterator_resume`** takes the cursor up again as it was, or starts a
file over that is smaller than it was. -/
theorem stands_resume (h : Holds recs x) {token : fkfs_iterator_token_t} {c : Cursor}
    {as es : List (ℕ × Rec)} (hs : Stands x token c as es) (iter : fkfs_file_iter_t) :
    ∃ as' es', Stands x (fkfs_file_iterator_resume x.machine.fs iter token).token
      (x.resumed token c) as' es' := by
  have hsize : (x.machine.fs.header.files token.file).size < token.size
      ↔ total (x.payloads token.file) < token.size.toNat := by
    rw [UInt32.lt_iff_toNat_lt, h.size]
  unfold fkfs_file_iterator_resume History.resumed
  dsimp only
  by_cases hcur : c.epoch = (x.tapes token.file).epoch
  · rw [if_neg (not_smaller h hs hcur), if_pos hcur]
    exact ⟨as, es, hs⟩
  · rw [if_neg hcur]
    by_cases hsmall : (x.machine.fs.header.files token.file).size < token.size
    · rw [if_pos hsmall, if_pos (hsize.mp hsmall)]
      exact stands_create h token.file iter
    · -- The old places stay, and nothing before them is the file's any more.
      rw [if_neg hsmall, if_neg fun hlt => hsmall (hsize.mpr hlt)]
      refine ⟨as, es, hs.between, ?_, ?_, Cursor.valid_nothing _, fun _ => ?_⟩
      · rw [hs.behind, Cursor.behind_stale hcur, Cursor.behind_nothing]
      · rw [hs.within, Cursor.within_stale hcur, Cursor.within_nothing]
      · exact not_lt.mp fun hlt => hsmall (hsize.mpr hlt)

/-- **`fkfs_file_iterator_move_end`** leaves nothing. -/
theorem stands_move_end {iter : fkfs_file_iter_t} {c : Cursor} {as es : List (ℕ × Rec)}
    (hs : Stands x iter.token c as es) :
    Stands x (fkfs_file_iterator_move_end iter).token c.finish es es :=
  ⟨⟨hs.between.last, hs.between.last, hs.between.last_le, hs.between.last_le⟩, hs.within,
    hs.within, hs.valid.finish, hs.size⟩

/-- **A call of `fkfs_file_iterate`** puts the cursor behind what it found. -/
theorem stands_polled {iter iter' : fkfs_file_iter_t} {c : Cursor} {as es bs : List (ℕ × Rec)}
    {config : fkfs_iterator_config_t} {ok : Bool} {m : Machine}
    (hs : Stands x iter.token c as es)
    (hp : Polled x.machine config iter as es ok m iter' bs) :
    Stands { x with machine := m } iter'.token (polled config ok c) (as ++ bs) es := by
  obtain ⟨hfile, -, -, hsize⟩ := hp.same
  have hpassed : held x.machine.fs.header iter.token.file bs = []
      ∧ polled config ok c = c
      ∨ (∃ x0 rest, c.rest (x.tapes iter.token.file) = x0 :: rest
        ∧ held x.machine.fs.header iter.token.file bs = [x0]) ∧ polled config ok c = c.advance := by
    cases ok with
    | false =>
      exact .inl ⟨(hp.nothing rfl).1, if_neg fun hc => absurd hc.1 Bool.false_ne_true⟩
    | true =>
      obtain ⟨x0, rest, hleft, -, -, -, hheld⟩ := hp.found rfl
      rw [hs.left_eq] at hleft
      by_cases hm : config.manualNext = 0
      · rw [if_pos hm] at hheld
        exact .inr ⟨⟨x0, rest, hleft, hheld⟩, if_pos ⟨rfl, hm⟩⟩
      · rw [if_neg hm] at hheld
        exact .inl ⟨hheld, if_neg fun hc => hm hc.2⟩
  have hheader : m.fs.header = x.machine.fs.header := hp.loads.header
  refine ⟨hp.between, ?_, ?_, ?_, fun he => ?_⟩
  · rw [hfile, hheader, held_append, hs.behind]
    rcases hpassed with ⟨hnone, hc⟩ | ⟨⟨x0, rest, hleft, hone⟩, hc⟩
    · rw [hnone, hc, List.append_nil]
    · rw [hone, hc, Cursor.behind_advance hs.valid hleft]
  · rw [hfile, hheader, hs.within]
    rcases hpassed with ⟨-, hc⟩ | ⟨-, hc⟩ <;> rw [hc]
    rfl
  · rw [hfile]
    rcases hpassed with ⟨-, hc⟩ | ⟨⟨x0, rest, hleft, -⟩, hc⟩ <;> rw [hc]
    · exact hs.valid
    · exact hs.valid.advance hleft
  · rw [hfile] at he ⊢
    rw [hsize]
    refine hs.size ?_
    rcases hpassed with ⟨-, hc⟩ | ⟨-, hc⟩ <;> rw [hc] at he <;> exact he

end Tokens

/-! ## The runs -/

theorem run_holds {ov : Overrun} {x : History} (h : Run ov x) : ∃ recs, Holds recs x := by
  induction h with
  | @wipe s m cfg draws hw hzero hwraps hsync h =>
    have hwiped := wipe_works hw h
    have hlog := Logged.of_wiped hwiped hzero
    have h0 : m.wraps = 0 := hwiped.wraps.trans hwraps
    obtain ⟨rs, hrs, hmap⟩ := blocksTo_of_log (hlog.told h0).track
    rw [List.map_eq_nil_iff.mp hmap] at hrs
    refine ⟨[], ⟨hlog, hwiped.dirty, h0, fun f => ?_, fun _ => rfl, fun r hr => ?_, fun p hp => ?_⟩,
      hrs, fun _ => rfl, fun _ => Nat.zero_lt_succ _, fun f => (hwiped.row f).startOffset,
      fun p hp => ?_⟩
    · change (m.fs.files f).sync ≠ 0
      rw [hwiped.settings]
      exact hsync f
    · exact absurd hr List.not_mem_nil
    · exact absurd hp List.not_mem_nil
    · exact absurd hp List.not_mem_nil
  | append hx f hlen hroom pasts hwraps ih =>
    obtain ⟨recs, hh⟩ := ih
    exact hh.append f hlen hroom pasts hwraps
  | truncate hx f hfew ih =>
    obtain ⟨recs, hh⟩ := ih
    exact ⟨recs, hh.truncate f hfew⟩
  | @touch x hx time ih =>
    obtain ⟨recs, hh⟩ := ih
    obtain ⟨-, hk, hd⟩ := touch_keeps hh.atRest.coherent time
    exact ⟨recs, hh.keeps (hh.tells.logged.touch time) (hd.trans hh.tells.clean) hk⟩
  | @flush x hx now ih =>
    obtain ⟨recs, hh⟩ := ih
    obtain ⟨-, hk, hd⟩ := flush_keeps hh.atRest.coherent now
    exact ⟨recs, hh.keeps (hh.tells.logged.flush now)
      (hd (flush_succeeds hh.atRest.works now).1) hk⟩
  | create hx f iter ih =>
    obtain ⟨recs, hh⟩ := ih
    obtain ⟨as, es, hs⟩ := stands_create hh f iter
    exact ⟨recs, hh.produce hs⟩
  | reopen hx htoken iter ih =>
    obtain ⟨recs, hh⟩ := ih
    obtain ⟨as, es, hs⟩ := hh.tokens _ htoken
    obtain ⟨as', es', hs'⟩ := stands_reopen hh hs iter
    exact ⟨recs, hh.produce hs'⟩
  | resume hx htoken iter ih =>
    obtain ⟨recs, hh⟩ := ih
    obtain ⟨as, es, hs⟩ := hh.tokens _ htoken
    obtain ⟨as', es', hs'⟩ := stands_resume hh hs iter
    exact ⟨recs, hh.produce hs'⟩
  | moveEnd hx htoken ih =>
    obtain ⟨recs, hh⟩ := ih
    obtain ⟨as, es, hs⟩ := hh.tokens _ htoken
    exact ⟨recs, hh.produce (stands_move_end hs)⟩
  | @iterate x hx iter iter' c n htoken hclear config am ok m h ih =>
    obtain ⟨recs, hh⟩ := ih
    obtain ⟨as, es, hs⟩ := hh.tokens _ htoken
    obtain ⟨N, ok', m', iter'', bs, hN, hp⟩ :=
      poll_between hh.atRest hs.between hclear config am
    have h' := iterate_mono h (le_max_left n N)
    rw [hN _ (le_max_right n N)] at h'
    cases h'
    have hloads : Holds recs { x with machine := m } :=
      hh.keeps (hh.tells.logged.loads hp.loads) (hp.loads.dirty.trans hh.tells.clean) hp.loads.keeps
    exact ⟨recs, hloads.produce (stands_polled hs hp)⟩

/-! ## What a token delivers -/

/-- A wiped card, before anything is called. -/
def wipedHistory : History := ⟨wipedMachine 9000, fun _ => .blank, []⟩

/-- `fkfs_file_append` in a history. -/
def History.appending (x : History) (f : FileNumber) (data : List UInt8) : History :=
  x.append f data (fkfs_file_append .reads (fun _ _ => 0) x.machine f data)

end Fkfs.Tapes
