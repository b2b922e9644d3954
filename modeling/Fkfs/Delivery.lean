/-
Exactly-once, in-order delivery.

A `Station` is a machine whose files are all sync files, with the payloads that
were appended to each file and any number of readers, each with what it was
given so far. It appends, touches, flushes and remounts, and its readers create
iterators, reopen them from their saved tokens and call `fkfs_file_iterate` with
any budget.

As long as no call of a reader walks past the end of a block (`Clear`) every
reader has been given a prefix of what was appended. A reader that leaves a
block whose entries end above offset 505 reads the next entry header from behind
the buffer, and what lies there can pass for an entry
(`delivers_what_was_never_appended`).
-/
import Fkfs.CardLog
import Fkfs.Generations

set_option autoImplicit false

namespace Fkfs.Delivery

open Bytes
open Fkfs.Crc Fkfs.Layout Fkfs.Device Fkfs.Search Fkfs.Append Fkfs.Iterate Fkfs.Mount Fkfs.Cache
open Fkfs.Walk Fkfs.Writer Fkfs.Reader Fkfs.Run Fkfs.Slots Fkfs.Log Fkfs.CardLog Fkfs.Structure
open Fkfs.Generations

/-! ## Stations -/

/-- A reader: its iterator, and what it was given. -/
structure Cursor where
  iter : fkfs_file_iter_t
  delivered : List (List UInt8)

/-- A machine, what was appended, and the readers. -/
structure Station where
  machine : Machine
  appended : FileNumber → List (List UInt8)
  cursors : ℕ → Option Cursor

/-- The number of bytes appended to the four files. -/
def bytes (appended : FileNumber → List (List UInt8)) : ℕ := ∑ f, total (appended f)

theorem total_le (appended : FileNumber → List (List UInt8)) (f : FileNumber) :
    total (appended f) ≤ bytes appended :=
  Finset.single_le_sum (f := fun f => total (appended f)) (fun _ _ => Nat.zero_le _)
    (Finset.mem_univ f)

/-- What an append that returned `ok` adds. -/
def appendedBy (appended : FileNumber → List (List UInt8)) (f : FileNumber) (data : List UInt8)
    (ok : Bool) : FileNumber → List (List UInt8) :=
  if ok then Function.update appended f (appended f ++ [data]) else appended

/-- Reader `i` becomes `c`. -/
def Station.setCursor (x : Station) (i : ℕ) (c : Cursor) : Station :=
  { x with cursors := Function.update x.cursors i (some c) }

/-- What a call of `fkfs_file_iterate` gave a reader. -/
def Cursor.given (c : Cursor) (ok : Bool) (m : Machine) (iter : fkfs_file_iter_t) (seen : Mem) :
    Cursor :=
  ⟨iter, if ok then c.delivered ++ [payload iter m.fs seen] else c.delivered⟩

/-- Runs over a wiped card of zeros on which nothing fails. The writer does not
wrap and fewer than `2^32 - 1` bytes are appended. With `clear`, no call of a
reader walks past the end of a block. -/
inductive Station.Run (ov : Overrun) (clear : Prop) : Station → Prop
  | wipe {s m : Machine} {cfg : FileNumber → FileConfig} {draws : FileNumber → UInt16}
      (hlog : s.writes = []) (hw : Works s.sd) (hzero : ∀ b, 8000 ≤ b → s.sd.blocks b = zeroBlock)
      (hwraps : s.wraps = 0) (hsync : ∀ f, (cfg f).sync ≠ 0)
      (h : boot s cfg true draws = (true, m)) : Run ov clear ⟨m, fun _ => [], fun _ => none⟩
  | append {x : Station} (hx : Run ov clear x) (f : FileNumber) {data : List UInt8}
      (hlen : data.length ≤ 505) (pasts : ℕ → Mem) {ok : Bool} {m : Machine}
      (h : fkfs_file_append ov pasts x.machine f data = (ok, m)) (hwraps : m.wraps = 0)
      (hbytes : bytes (appendedBy x.appended f data ok) < 4294967295) :
      Run ov clear { x with machine := m, appended := appendedBy x.appended f data ok }
  | touch {x : Station} (hx : Run ov clear x) (time : UInt32) :
      Run ov clear { x with machine := (fkfs_touch x.machine time).2 }
  | flush {x : Station} (hx : Run ov clear x) (now : UInt32) :
      Run ov clear { x with machine := (fkfs_flush x.machine now).2 }
  | remount {x : Station} (hx : Run ov clear x) {cfg : FileNumber → FileConfig}
      {draws : FileNumber → UInt16} {m : Machine} (hsync : ∀ f, (cfg f).sync ≠ 0)
      (h : boot x.machine cfg false draws = (true, m)) : Run ov clear { x with machine := m }
  | create {x : Station} (hx : Run ov clear x) (i : ℕ) (f : FileNumber) (iter : fkfs_file_iter_t) :
      Run ov clear (x.setCursor i ⟨fkfs_file_iterator_create x.machine.fs f iter, []⟩)
  | reopen {x : Station} (hx : Run ov clear x) {i : ℕ} {c : Cursor} (hc : x.cursors i = some c)
      (iter : fkfs_file_iter_t) : Run ov clear
        (x.setCursor i ⟨fkfs_file_iterator_reopen x.machine.fs iter c.iter.token, c.delivered⟩)
  | poll {x : Station} (hx : Run ov clear x) {i : ℕ} {c : Cursor} (hc : x.cursors i = some c)
      (hclear : clear → Clear ov x.machine c.iter.token) {config : fkfs_iterator_config_t}
      (hnext : config.manualNext = 0) {am : Ambient} {n : ℕ} {ok : Bool} {m : Machine}
      {iter : fkfs_file_iter_t} (seen : Mem)
      (h : fkfs_file_iterate ov n config am x.machine c.iter = some (ok, m, iter)) :
      Run ov clear (Station.setCursor { x with machine := m } i (c.given ok m iter seen))

/-! ## The invariant -/

/-- The header on the card that a remount takes: it describes the same log, and
its file table is the one in `fs`. -/
structure Recovers (recs : List Rec) (m : Machine) (w : Write) : Prop where
  newest : NewestIn m w
  describes : Describes (view m) w.fs.header recs
  rows : ∀ f, SameRow (m.fs.header.files f) (w.fs.header.files f)
  block_le : w.fs.header.block.toNat ≤ m.fs.header.block.toNat

/-- A reader's place is on the log, behind what it was given and not behind the
end of its file. -/
structure At (recs : List Rec) (m : Machine) (c : Cursor) : Prop where
  here : ∃ as, LogTo (view m) (tokenPlace c.iter) as
    ∧ mine m.fs.header c.iter.token.file as = c.delivered
  last : ∃ es, LogTo (view m) (lastPlace c.iter) es
  here_le : tokenPlace c.iter ≤ lastPlace c.iter
  last_le : lastPlace c.iter ≤ endPlace (m.fs.header.files c.iter.token.file)
  size_le : c.iter.token.size ≤ (m.fs.header.files c.iter.token.file).size

/-- The records on the card are what was appended, the newest header describes
them, and every reader is where it should be. -/
structure Delivers (recs : List Rec) (x : Station) : Prop where
  logged : Logged recs x.machine
  clean : x.machine.fs.cachedBlockDirty = false
  wraps : x.machine.wraps = 0
  sync : ∀ f, (x.machine.fs.files f).sync ≠ 0
  card : x.machine.fs.numberOfBlocks = x.machine.sd.size
  told : ∀ f, mine x.machine.fs.header f recs = x.appended f
  newest : ∃ w, Recovers recs x.machine w
  counted : dataWrites x.machine.writes ≤ bytes x.appended
  few : bytes x.appended < 4294967295
  cursors : ∀ i c, x.cursors i = some c → At recs x.machine c

namespace Delivers

variable {recs : List Rec} {x : Station}

theorem describes (h : Delivers recs x) : Describes (view x.machine) x.machine.fs.header recs :=
  h.logged.told h.wraps

/-- Sizes have not run over. -/
theorem size (h : Delivers recs x) (f : FileNumber) :
    (x.machine.fs.header.files f).size.toNat = total (x.appended f) := by
  have hle := total_le x.appended f
  have hfew := h.few
  rw [(h.describes.row f).size, h.told, UInt32.toNat_ofNat']
  omega

/-- A reader's place as `OnLog` has it. -/
theorem onLog (h : Delivers recs x) {c : Cursor} (hc : At recs x.machine c) :
    ∃ as es, OnLog x.machine c.iter.token as es
      ∧ mine x.machine.fs.header c.iter.token.file as = c.delivered := by
  obtain ⟨as, ha, hmine⟩ := hc.here
  obtain ⟨es, he⟩ := hc.last
  have hle := le_trans hc.last_le (h.describes.row c.iter.token.file).last_le
  exact ⟨as, es, ⟨ha, he, le_trans hc.here_le hle, hle⟩, hmine⟩

/-- The machine moves on without a remount. -/
theorem moved (h : Delivers recs x) {m : Machine} {recs' : List Rec}
    {appended : FileNumber → List (List UInt8)} (hl : Logged recs' m)
    (hclean : m.fs.cachedBlockDirty = false) (hwraps : m.wraps = 0) (hg : Grown x.machine m)
    (hset : m.fs.files = x.machine.fs.files) (hcard : m.fs.numberOfBlocks = m.sd.size)
    (hv : ∀ g, (m.fs.header.files g).version = (x.machine.fs.header.files g).version)
    (hend : ∀ g, endPlace (x.machine.fs.header.files g) ≤ endPlace (m.fs.header.files g))
    (hsize : ∀ g, (x.machine.fs.header.files g).size ≤ (m.fs.header.files g).size)
    (htold : ∀ g, mine x.machine.fs.header g recs' = appended g)
    (hnew : ∃ w, Recovers recs' m w) (hcount : dataWrites m.writes ≤ bytes appended)
    (hfew : bytes appended < 4294967295) :
    Delivers recs' { x with machine := m, appended := appended } := by
  refine ⟨hl, hclean, hwraps, fun f => ?_, hcard, fun f => ?_, hnew, hcount, hfew, fun i c hc => ?_⟩
  · rw [hset]
    exact h.sync f
  · rw [mine_congr (hv f)]
    exact htold f
  · obtain ⟨⟨as, ha, hmine⟩, ⟨es, he⟩, h1, h2, h3⟩ := h.cursors i c hc
    have hw := (h.describes.row c.iter.token.file).last_le
    refine ⟨⟨as, ha.below hg.below (le_trans h1 (le_trans h2 hw)), ?_⟩,
      ⟨es, he.below hg.below (le_trans h2 hw)⟩, h1, le_trans h2 (hend _),
      UInt32.le_trans h3 (hsize _)⟩
    rw [mine_congr (hv _)]
    exact hmine

/-- Operations that keep the file table and the writer. -/
theorem keeps (h : Delivers recs x) {m : Machine} (hk : Keeps x.machine m) (hl : Logged recs m)
    (hclean : m.fs.cachedBlockDirty = false) (hnew : ∃ w, Recovers recs m w)
    (hcount : dataWrites m.writes = dataWrites x.machine.writes) :
    Delivers recs { x with machine := m } := by
  refine h.moved hl hclean (hk.wraps.trans h.wraps) (grown_of_keeps hk) hk.settings ?_ (fun g => ?_)
    (fun g => ?_) (fun g => ?_) h.told hnew (le_of_eq_of_le hcount h.counted) h.few
  · rw [hk.blocks, hk.size, h.card]
  · rw [hk.table]
  · rw [hk.table]
  · rw [hk.table]
    exact UInt32.le_refl _

/-- A call that only moves blocks through the cache. -/
theorem loads (h : Delivers recs x) {m : Machine} (hl : Loads x.machine m) :
    Delivers recs { x with machine := m } := by
  obtain ⟨w, hn, hd, hr, hb⟩ := h.newest
  refine h.keeps hl.keeps (h.logged.loads hl) (hl.dirty.trans h.clean) ⟨w, ?_, ?_, ?_, ?_⟩
    (by rw [hl.writes])
  · exact hn.of_quiet (hl.coherent hn.coherent) hl.writes (by rw [hl.sd]) hl.index
      (by rw [hl.header])
  · exact hd.congr (fun b _ => hl.view b) rfl fun f => .refl _
  · rw [hl.header]
    exact hr
  · rw [hl.header]
    exact hb

/-- **A touch** brings the header on the card up to date. -/
theorem touch (h : Delivers recs x) (time : UInt32) :
    Delivers recs { x with machine := (fkfs_touch x.machine time).2 } := by
  obtain ⟨w, hn, -⟩ := h.newest
  obtain ⟨hc, hk, hd⟩ := touch_keeps h.logged.coherent time
  obtain ⟨w', hn', he⟩ := touch_written h.logged.works hn time
  have hl := h.logged.touch time
  refine h.keeps hk hl (hd.trans h.clean) ⟨w', hn', ?_, fun f => ?_, ?_⟩ (header_write_counts _)
  · rw [he]
    exact hl.told (hk.wraps.trans h.wraps)
  · rw [he]
    exact .refl _
  · rw [he]

/-- **A flush** with nothing dirty is a touch. -/
theorem flush (h : Delivers recs x) (now : UInt32) :
    Delivers recs { x with machine := (fkfs_flush x.machine now).2 } := by
  have hd := (touch_keeps h.logged.coherent now).2.2
  rw [flush_works h.logged.works, fsync_clean (hd.trans h.clean)]
  exact h.touch now

/-- A search for a place leaves the card alone. -/
theorem seeks (h : Delivers recs x) {m : Machine} (hm : Seeking recs x.machine m)
    (hwraps : m.wraps = 0) : Delivers recs { x with machine := m } := by
  obtain ⟨w, hn, hd, hr, hb⟩ := h.newest
  have hk := hm.seeks
  refine h.moved hm.logged hk.dirty hwraps (hm.grown h.clean hwraps) hk.settings ?_ (fun g => ?_)
    (fun g => ?_) (fun g => ?_) h.told ⟨w, ?_, ?_, ?_, ?_⟩ ?_ h.few
  · rw [hk.blocks, hk.sd, h.card]
  · rw [hk.table]
  · rw [hk.table]
  · rw [hk.table]
    exact UInt32.le_refl _
  · exact hn.of_quiet hm.logged.coherent hk.writes (by rw [hk.sd]) hk.index hk.generation
  · refine hd.congr (fun b _ => ?_) rfl fun f => .refl _
    rw [view_clean hk.dirty, view_clean h.clean, hk.sd]
  · rw [hk.table]
    exact hr
  · exact le_trans hb (blockOf_le (hk.forward hwraps))
  · rw [hk.writes]
    exact h.counted

theorem bytes_update (appended : FileNumber → List (List UInt8)) (f : FileNumber)
    (data : List UInt8) :
    bytes (appendedBy appended f data true) = bytes appended + data.length := by
  have hterm : ∀ g, total (appendedBy appended f data true g)
      = total (appended g) + if g = f then data.length else 0 := by
    intro g
    simp only [appendedBy, if_true]
    by_cases hg : g = f
    · subst hg
      rw [Function.update_self, total_append, if_pos rfl]
      simp [total]
    · rw [Function.update_of_ne hg, if_neg hg, Nat.add_zero]
  unfold bytes
  rw [Finset.sum_congr rfl fun g _ => hterm g, Finset.sum_add_distrib, Finset.sum_ite_eq']
  simp

/-- **An append** adds its payload to its file, and to no other, and brings the
header on the card up to date. -/
theorem append (h : Delivers recs x) {ov : Overrun} (f : FileNumber) {data : List UInt8}
    (hlen : data.length ≤ 505) (pasts : ℕ → Mem) {ok : Bool} {m : Machine}
    (he : fkfs_file_append ov pasts x.machine f data = (ok, m)) (hwraps : m.wraps = 0)
    (hbytes : bytes (appendedBy x.appended f data ok) < 4294967295) :
    ∃ recs', Delivers recs' { x with machine := m, appended := appendedBy x.appended f data ok } := by
  rcases append_logged ov h.logged h.clean (h.sync f) hlen pasts with
    ⟨m', hm, e⟩ | ⟨m', hm, hpos, hgrown, hstore, e⟩
  · rw [e] at he
    cases he
    exact ⟨recs, h.seeks hm hwraps⟩
  · obtain ⟨hcf, hk, hclean⟩ := fsync_keeps hstore.coherent
    have hok := fsync_succeeds hstore.works
    obtain rfl : ok = true := by
      rw [← hok.1, ← e, he]
    obtain rfl : (fkfs_fsync (afterStore m' f data)).2 = m := by
      rw [← e, he]
    have hm0 : m'.wraps = 0 := hk.wraps.symm.trans hwraps
    have hdel := h.seeks hm hm0
    rw [bytes_update] at hbytes
    -- The two writes of the sync.
    obtain ⟨w, hn, -⟩ := hdel.newest
    have hcount : dataWrites (afterStore m' f data).writes ≤ bytes x.appended := hdel.counted
    have hn' : NewestIn (afterStore m' f data) w := hn.of_quiet hstore.coherent rfl rfl rfl rfl
    obtain ⟨w', hw', hfs⟩ := fsync_written hstore.works hn' rfl (by omega)
    have hwrites : dataWrites (fkfs_fsync (afterStore m' f data)).2.writes
        = dataWrites (afterStore m' f data).writes + 1 := by
      rw [fsync_works hstore.works rfl, header_write_counts, afterDataWrite_counts hstore.coherent]
    have hrow : ∀ g, g ≠ f → (fkfs_fsync (afterStore m' f data)).2.fs.header.files g
        = m'.fs.header.files g := fun g hg => by rw [hk.table, afterStore_other hg]
    have hself : (fkfs_fsync (afterStore m' f data)).2.fs.header.files f
        = (afterStore m' f data).fs.header.files f := by rw [hk.table]
    have hsync := hstore.sync
    have htold : ∀ g, mine m'.fs.header g (recs ++ [recordOf x.machine.fs.header f data])
        = appendedBy x.appended f data true g := by
      intro g
      have hold : mine m'.fs.header g recs = x.appended g := hdel.told g
      rw [mine_append, mine_singleton, hold]
      simp only [appendedBy, if_true]
      by_cases hg : g = f
      · subst hg
        rw [Function.update_self, pick, if_pos ⟨rfl, by rw [hm.seeks.table]; rfl⟩]
        rfl
      · rw [Function.update_of_ne hg, pick, if_neg fun hc => hg hc.1.symm, List.append_nil]
    refine ⟨recs ++ [recordOf x.machine.fs.header f data], hdel.moved hsync (hclean hok.1) hwraps
      (hgrown.trans (grown_of_keeps hk)) hk.settings ?_ (fun g => ?_) (fun g => ?_) (fun g => ?_)
      htold ⟨w', hw', ?_, fun g => ?_, ?_⟩ ?_ ?_⟩
    · rw [hk.blocks, hk.size]
      exact hdel.card
    · rw [hk.table, afterStore_version]
    · by_cases hg : g = f
      · subst hg
        rw [hself, afterStore_row]
        exact le_trans (hdel.describes.row g).last_le hgrown.forward
      · rw [hrow g hg]
    · by_cases hg : g = f
      · subst hg
        have hsum := congrArg UInt32.toNat ((hsync.told hwraps).row g).size
        have hold : (m'.fs.header.files g).size.toNat = total (x.appended g) := hdel.size g
        have hversion : ((fkfs_fsync (afterStore m' g data)).2.fs.header.files g).version
            = (m'.fs.header.files g).version := by rw [hk.table, afterStore_version]
        have hmine : total (appendedBy x.appended g data true g)
            = total (x.appended g) + data.length := by
          simp only [appendedBy, if_true, Function.update_self, total_append]
          simp [total]
        have hle := total_le x.appended g
        rw [mine_congr hversion, htold, hmine, UInt32.toNat_ofNat'] at hsum
        rw [UInt32.le_iff_toNat_le, hsum]
        change (m'.fs.header.files g).size.toNat ≤ _
        omega
      · rw [hrow g hg]
        exact UInt32.le_refl _
    · rw [hfs]
      exact hsync.told hwraps
    · rw [hfs]
      exact .refl _
    · rw [hfs]
    · rw [hwrites, bytes_update]
      omega
    · rw [bytes_update]
      exact hbytes

/-- **A remount** takes over the newest header, which describes the same log. -/
theorem remount (h : Delivers recs x) {cfg : FileNumber → FileConfig} {draws : FileNumber → UInt16}
    {m : Machine} (hsync : ∀ f, (cfg f).sync ≠ 0) (he : boot x.machine cfg false draws = (true, m)) :
    Delivers recs { x with machine := m } := by
  obtain ⟨w, hn, hd, hr, hb⟩ := h.newest
  obtain ⟨hn', -, hheader⟩ := (remount_newest hn.card he).2 rfl
  rw [boot_works h.logged.works hn.card.valid] at he
  cases he
  have hview : ∀ b, 8000 ≤ b → view { x.machine with fs := mounted cfg x.machine.sd } b
      = view x.machine b := fun b _ => by
    rw [view_clean h.clean, view_clean rfl]
  have hrows : ∀ f, SameRow (w.fs.header.files f)
      (({ x.machine with fs := mounted cfg x.machine.sd } : Machine).fs.header.files f) := fun f => by
    rw [hheader]
    exact ⟨rfl, rfl, rfl, rfl⟩
  have hwriter : writerPlace ({ x.machine with fs := mounted cfg x.machine.sd } : Machine).fs.header
      = writerPlace w.fs.header := by
    rw [hheader]
    rfl
  have hblock : (mounted cfg x.machine.sd).header.block = w.fs.header.block := by
    rw [hheader]
    rfl
  have hunwrapped : Unwrapped (mounted cfg x.machine.sd) (mounted cfg x.machine.sd).header.block.toNat := by
    intro b h1 h2
    refine unwrapped_congr (h.logged.unwrapped h.wraps) ?_ b h1 ?_
    · exact h.card.symm
    · rw [hblock] at h2
      exact le_trans h2 hb
  have hold : ∀ f, SameRow (x.machine.fs.header.files f)
      (({ x.machine with fs := mounted cfg x.machine.sd } : Machine).fs.header.files f) := fun f =>
    ⟨(hrows f).version.trans (hr f).version, (hrows f).start.trans (hr f).start,
      (hrows f).last.trans (hr f).last, (hrows f).size.trans (hr f).size⟩
  refine ⟨⟨h.logged.works, hn'.coherent, fun _ => hd.congr hview hwriter hrows,
    fun _ => hunwrapped⟩, rfl, h.wraps, fun f => ?_, rfl, fun f => ?_, ⟨w, hn', hd.congr hview rfl
    fun f => .refl _, fun f => ?_, le_of_eq (by rw [← hblock])⟩, h.counted, h.few, fun i c hc => ?_⟩
  · rw [show ({ x.machine with fs := mounted cfg x.machine.sd } : Machine).fs.files = settingsOf cfg
      from mounted_files cfg x.machine.sd]
    exact hsync f
  · rw [mine_congr (hold f).version]
    exact h.told f
  · have := hrows f
    exact ⟨this.version.symm, this.start.symm, this.last.symm, this.size.symm⟩
  · obtain ⟨⟨as, ha, hmine⟩, ⟨es, hes⟩, h1, h2, h3⟩ := h.cursors i c hc
    have hbelow := below_of_eq hview (writerPlace x.machine.fs.header)
    have hle := (h.describes.row c.iter.token.file).last_le
    refine ⟨⟨as, ha.below hbelow (le_trans h1 (le_trans h2 hle)), ?_⟩,
      ⟨es, hes.below hbelow (le_trans h2 hle)⟩, h1, ?_, ?_⟩
    · rw [mine_congr (hold _).version]
      exact hmine
    · rw [(hold _).last]
      exact h2
    · rw [(hold _).size]
      exact h3

/-- Reader `i` moves. -/
theorem setCursor (h : Delivers recs x) (i : ℕ) {c : Cursor} (hc : At recs x.machine c) :
    Delivers recs (x.setCursor i c) := by
  refine ⟨h.logged, h.clean, h.wraps, h.sync, h.card, h.told, h.newest, h.counted, h.few,
    fun j d hd => ?_⟩
  by_cases hj : j = i
  · subst hj
    simp only [Station.setCursor, Function.update_self, Option.some.injEq] at hd
    rw [← hd]
    exact hc
  · simp only [Station.setCursor, Function.update_of_ne hj] at hd
    exact h.cursors j d hd

/-- **A call of `fkfs_file_iterate`** gives the reader the next payload of its
file, or nothing. -/
theorem poll (h : Delivers recs x) {ov : Overrun} {i : ℕ} {c : Cursor}
    (hc : x.cursors i = some c) (hclear : Clear ov x.machine c.iter.token)
    {config : fkfs_iterator_config_t} (hnext : config.manualNext = 0) {am : Ambient} {n : ℕ}
    {ok : Bool} {m : Machine} {iter : fkfs_file_iter_t} (seen : Mem)
    (he : fkfs_file_iterate ov n config am x.machine c.iter = some (ok, m, iter)) :
    Delivers recs (Station.setCursor { x with machine := m } i (c.given ok m iter seen)) := by
  have hat := h.cursors i c hc
  obtain ⟨as, es, ho, hmine⟩ := h.onLog hat
  obtain ⟨N, ok', m', iter', bs, hN, hl, hsame, ho', hle, hno, hyes⟩ :=
    poll_logged h.logged h.wraps h.clean ho hclear config am
  have he' := iterate_mono he (le_max_left n N)
  rw [hN _ (le_max_right n N)] at he'
  cases he'
  have hgiven : (c.given ok m iter seen).iter = iter := rfl
  refine (h.loads hl).setCursor i ⟨⟨as ++ bs, ?_, ?_⟩, ⟨es, ?_⟩, ?_, ?_, ?_⟩
  · rw [hgiven]
    exact ho'.here
  · rw [hgiven, hl.header, hsame.1, mine_append, hmine]
    unfold Cursor.given
    cases ok with
    | false => rw [hno rfl, List.append_nil]; rfl
    | true => rw [hyes rfl hnext seen]; rfl
  · rw [hgiven]
    exact ho'.last
  · rw [hgiven]
    exact hle hat.here_le
  · rw [hgiven, hsame.last, hl.header, hsame.1]
    exact hat.last_le
  · rw [hgiven, hl.header, hsame.1, hsame.2.2.2]
    exact hat.size_le

end Delivers

/-- `fkfs_file_append` in a station. -/
def Station.appending (x : Station) (f : FileNumber) (data : List UInt8) : Station :=
  { x with
    machine := (fkfs_file_append .reads (fun _ _ => 0) x.machine f data).2
    appended := appendedBy x.appended f data
      (fkfs_file_append .reads (fun _ _ => 0) x.machine f data).1 }

/-- An iterator of zeros. -/
def blankIterator : fkfs_file_iter_t := ⟨⟨0, 0, 0, 0, 0, 0⟩, 0, 0, 0⟩

/-- Reader 0, at the start of file 0. -/
def Station.firstCursor (x : Station) : Cursor :=
  ⟨fkfs_file_iterator_create x.machine.fs 0 blankIterator, []⟩

/-- No budget, and a clock that stands still. -/
def unlimited : fkfs_iterator_config_t := ⟨0, 0, 0⟩

/-- Zeros behind `fs->files`. -/
def stillAmbient : Ambient := ⟨0, fun _ => 0, fun _ _ => 0⟩

/-- A first call of `fkfs_file_iterate` on file 0. -/
def Station.firstCall (x : Station) : Option (Bool × Machine × fkfs_file_iter_t) :=
  fkfs_file_iterate .reads 20 unlimited stillAmbient x.machine x.firstCursor.iter

/-- Its result. -/
def Station.firstPoll (x : Station) : Bool × Machine × fkfs_file_iter_t :=
  x.firstCall.getD (false, x.machine, blankIterator)

/-- The reader once it has made that call. -/
def Station.secondCursor (x : Station) : Cursor :=
  x.firstCursor.given x.firstPoll.1 x.firstPoll.2.1 x.firstPoll.2.2 fun _ => 0

/-- The station after it. -/
def Station.polled (x : Station) : Station :=
  Station.setCursor { x.setCursor 0 x.firstCursor with machine := x.firstPoll.2.1 } 0 x.secondCursor

theorem Station.Run.appending {clear : Prop} {x : Station} (hx : x.Run .reads clear)
    (f : FileNumber) {data : List UInt8} (hlen : data.length ≤ 505)
    (hwraps : (x.appending f data).machine.wraps = 0)
    (hbytes : bytes (x.appending f data).appended < 4294967295) :
    (x.appending f data).Run .reads clear :=
  .append hx f hlen (fun _ _ => 0) rfl hwraps hbytes

end Fkfs.Delivery
