/-
Runs that lose RAM.

A crash is a call whose transfers fail from some point on, after which nothing is
left but the card, and the program starts again. Over sync files every append that
was acknowledged is delivered ever after (`acknowledged_survive`): the header on the
card is written only when the data is there, and what a crash leaves behind the
writer's place is walked over.

With files that are not sync files a header can be written while the data is still
in the buffer. A crash before the data follows leaves a header on the card that ends
behind a hole, and what is appended from there on is stored behind the hole, where no
reader gets (`touch_gets_ahead`). Apart from that the header never gets ahead
(`flushed_delivered`).
-/
import Fkfs.Durable

set_option autoImplicit false

namespace Fkfs.Crashes

open Bytes Relation
open Fkfs.Crc Fkfs.Layout Fkfs.Device Fkfs.Search Fkfs.Append Fkfs.Iterate Fkfs.Mount Fkfs.Cache
open Fkfs.Walk Fkfs.Writer Fkfs.Reader Fkfs.Run Fkfs.Slots Fkfs.Log Fkfs.CardLog Fkfs.Structure
open Fkfs.Generations Fkfs.Marking Fkfs.Durable

/-! ## The calls of these runs -/

/-- Appends, touches, flushes and iterations. -/
def Steady : Call → Prop
  | .append _ data _ => data.length ≤ 505
  | .touch _ => True
  | .flush _ => True
  | .iterate .. => True
  | _ => False

/-- A call that reads blocks for an iterator. -/
def Reads : Call → Prop
  | .iterate .. => True
  | _ => False

/-- What a call that returned true adds. -/
def adds : Call → Payloads → Payloads
  | .append f data _, K => K.push f data
  | _, K => K

/-- How many data blocks a call may write from a clean buffer. -/
def cost : Call → ℕ
  | .append .. => 1
  | _ => 0

theorem Steady.sane {c : Call} (h : Steady c) : c.Sane := by
  cases c <;> first | exact h | trivial

section Calls

variable {ov : Overrun} {L D : Payloads} {m m' : Machine} {c : Call} {ok : Bool}

/-- **Every such call** keeps what both headers mark, adds what it appends to the one
in `fs`, and over sync files to the other as well. -/
theorem perform_secures (h : Secures L D m) (hdl : Among D L) (hc : Steady c)
    (hclean : Reads c → m.fs.cachedBlockDirty = false)
    (he : perform ov m c = some (ok, m')) :
    Secures L D m' ∧ (ok = true → Secures (adds c L) D m'
      ∧ ((∀ f, (m.fs.files f).sync ≠ 0) → Among L D →
        Secures (adds c L) (adds c L) m')) := by
  have hsame : ∀ s, Secures L D s → Among L D → Secures L L s := fun s hs hld =>
    hs.among (.refl L) hld
  cases c with
  | append f data pasts =>
    obtain ⟨h1, h2⟩ := @append_secures ov _ _ _ h hdl f _ hc pasts
    simp only [perform, Option.some.injEq] at he
    rw [he] at h1 h2
    exact ⟨h1, fun hok => ⟨(h2 hok).1, fun hsync _ => (h2 hok).2 (hsync f)⟩⟩
  | touch time =>
    have ht := touch_secures h hdl time
    simp only [perform, Option.some.injEq] at he
    rw [he] at ht
    exact ⟨ht, fun _ => ⟨ht, fun _ => hsame _ ht⟩⟩
  | flush now =>
    have hf := flush_secures h hdl now
    simp only [perform, Option.some.injEq] at he
    rw [he] at hf
    exact ⟨hf, fun _ => ⟨hf, fun _ => hsame _ hf⟩⟩
  | iterate config am n iter =>
    simp only [perform, Option.map_eq_some_iff, Prod.mk.injEq] at he
    obtain ⟨⟨ok1, s1, iter1⟩, he, -, rfl⟩ := he
    have hi := (iterate_secures ⟨h, hclean trivial⟩ he).1
    exact ⟨hi, fun _ => ⟨hi, fun _ => hsame _ hi⟩⟩
  | truncate | truncateAll | truncateAt | ensure => exact hc.elim

end Calls

/-! ## Over a clean buffer -/

/-- A machine at rest: nothing is dirty and the header is not ahead of the data, after
`n` data block writes. -/
structure Settled (n : ℕ) (s : Machine) : Prop where
  coherent : Coherent s
  clean : s.fs.cachedBlockDirty = false
  level : ¬ Ahead s.writes
  counts : dataWrites s.writes = n

section Rest

variable {ov : Overrun} {m m' : Machine} {n : ℕ} {c : Call} {ok : Bool}

theorem Settled.sync (h : Settled n m) : fkfs_fsync m = (true, m) := fsync_clean h.clean

theorem Settled.next (h : Settled n m) : Settled n (fkfs_next_block m) := by
  obtain ⟨-, -, -, hwr, hfs⟩ := next_block_keeps m
  refine ⟨next_block_coherent h.coherent h.clean, ?_, by rw [hwr]; exact h.level,
    by rw [hwr]; exact h.counts⟩
  rw [hfs]
  exact h.clean

theorem Settled.load (h : Settled n m) (b : UInt32) : Settled n (fkfs_block_ensure m b).2 := by
  have hc := block_ensure_coherent h.coherent b
  rcases block_ensure_cases m b with ⟨-, e⟩ | ⟨-, e⟩ | ⟨-, e⟩ <;> rw [e] at hc ⊢
  · exact h
  · exact ⟨hc, h.clean, h.level, h.counts⟩
  · exact ⟨hc, rfl, h.level, h.counts⟩

theorem Settled.header_write (h : Settled n m) : Settled n (fkfs_header_write m false).2 := by
  obtain ⟨hc, -, hd⟩ := header_write_keeps h.coherent
  refine ⟨hc, hd.trans h.clean, ?_, (header_write_counts m).trans h.counts⟩
  rcases header_write_cases m with e | e | e <;> rw [e]
  · exact h.level
  · exact fun ha => h.level ((ahead_failed rfl).mp ha)
  · intro ha
    have hdirty := ((ahead_written rfl).mp ha).2
    exact absurd (h.clean.symm.trans hdirty) Bool.false_ne_true

theorem Settled.touch (h : Settled n m) (time : UInt32) : Settled n (fkfs_touch m time).2 := by
  have ht : Settled n (m.setHeader { m.fs.header with time := time }) :=
    ⟨⟨h.coherent.block_ge, h.coherent.block_lt, h.coherent.offset_le, h.coherent.dirty,
      h.coherent.clean⟩, h.clean, h.level, h.counts⟩
  exact ht.header_write

theorem settled_allocates (required : ℕ) : Allocates required (Settled n) where
  sync := by
    intro m hm
    rw [hm.sync]
    exact hm
  next := fun hm _ => hm.next
  load := fun hm => hm.load _
  place := fun hm _ _ ho =>
    ⟨coherent_survives.place hm.coherent (by omega), hm.clean, hm.level, hm.counts⟩

/-- An fsync leaves the header level with the data, and writes one data block. -/
theorem fsync_level (hc : Coherent m) (hlevel : ¬ Ahead m.writes) :
    ¬ Ahead (fkfs_fsync m).2.writes
      ∧ dataWrites (fkfs_fsync m).2.writes ≤ dataWrites m.writes + 1 := by
  by_cases hd : m.fs.cachedBlockDirty = true
  · rcases fsync_cases hd with e | e
    · rw [e]
      refine ⟨fun ha => hlevel ((ahead_failed rfl).mp ha), ?_⟩
      refine le_of_eq_of_le (dataWrites_append m.writes _) ?_
      split <;> omega
    · have hr : Coherent (afterRead m) := ⟨hc.block_ge, hc.block_lt, hc.offset_le, hc.dirty, hc.clean⟩
      have hdata : Settled (dataWrites m.writes + 1) (afterDataWrite (afterRead m)) := by
        refine ⟨(afterDataWrite_keeps hr hd).1, rfl, fun ha => ?_, afterDataWrite_counts hr⟩
        exact block_ne_zero hc ((ahead_written rfl).mp ha).1
      rw [e]
      exact ⟨hdata.header_write.level, le_of_eq hdata.header_write.counts⟩
  · rw [fsync_clean (Bool.not_eq_true _ ▸ hd)]
    exact ⟨hlevel, Nat.le_succ _⟩

/-- **A call over a clean buffer**, however it fails: the header stays level with the
data, and an append writes one data block at most. On a card that works, over sync
files, the buffer is clean again. -/
theorem perform_settled (h : Settled n m) (hc : Steady c)
    (he : perform ov m c = some (ok, m')) :
    ¬ Ahead m'.writes ∧ dataWrites m'.writes ≤ n + cost c
      ∧ (Works m.sd → (∀ f, (m.fs.files f).sync ≠ 0) → m'.fs.cachedBlockDirty = false) := by
  have hsettled : ∀ {s : Machine} {k : ℕ}, Settled n s → ¬ Ahead s.writes
      ∧ dataWrites s.writes ≤ n + k
      ∧ (Works m.sd → (∀ f, (m.fs.files f).sync ≠ 0) → s.fs.cachedBlockDirty = false) :=
    fun hs => ⟨hs.level, by have := hs.counts; omega, fun _ _ => hs.clean⟩
  cases c with
  | append f data pasts =>
    have ha := (settled_allocates (n := n) (7 + data.length)).and
      (((settings_survive m.fs.files).allocates _).and ((works_survive.allocates _).under (Works m.sd)))
    simp only [perform, Option.some.injEq] at he
    rcases append_cases ov f ha hc pasts ⟨h, rfl, id⟩ with ⟨s, hs, e⟩ | ⟨-, s, hs, hcache, hr, e⟩
    · rw [e] at he
      cases he
      exact hsettled hs.1
    · have hstore := afterStore_coherent (f := f) hs.1.coherent hcache hc hr
      obtain ⟨hlevel, hcount⟩ := fsync_level hstore hs.1.level
      have hcounts := hs.1.counts
      rw [e] at he
      by_cases hsync : (s.fs.files f).sync ≠ 0
      · rw [if_pos hsync] at he
        rw [he] at hlevel hcount
        refine ⟨hlevel, le_trans hcount (le_of_eq (congrArg (· + 1) hcounts)), fun hw _ => ?_⟩
        have hok := (fsync_succeeds (s := afterStore s f data) (hs.2.2 hw)).1
        have hclear := fsync_clears hok
        rw [he] at hclear
        exact hclear
      · rw [if_neg hsync] at he
        cases he
        refine ⟨hs.1.level, le_trans (le_of_eq hcounts) (Nat.le_succ n), fun _ hall => ?_⟩
        rw [← hs.2.1] at hall
        exact absurd (hall f) hsync
  | touch time =>
    have ht := h.touch time
    simp only [perform, Option.some.injEq] at he
    rw [he] at ht
    exact hsettled ht
  | flush now =>
    have ht := h.touch now
    simp only [perform, Option.some.injEq, fkfs_flush] at he
    split at he
    · rename_i s e
      rw [e] at ht
      cases he
      exact hsettled ht
    · rename_i s e
      rw [e] at ht
      rw [Settled.sync ht] at he
      cases he
      exact hsettled ht
  | iterate config am r iter =>
    simp only [perform, Option.map_eq_some_iff, Prod.mk.injEq] at he
    obtain ⟨⟨ok1, s1, iter1⟩, he, -, rfl⟩ := he
    exact hsettled (@iterate_rule ov (Settled n) (fun b hs => hs.load b) _ _ _ _ _ _ _ _ h he)
  | truncate | truncateAll | truncateAt | ensure => exact hc.elim

end Rest

/-! ## Sync files -/

/-- A machine whose files are all sync files, with the payloads that were acknowledged
and the number of appends that were begun. -/
structure Plant where
  machine : Machine
  acknowledged : Payloads
  appends : ℕ

/-- Runs from a wiped card on which nothing fails but in a crash. A crash is a call
under any failure pattern, after which RAM is lost and the program starts again;
a power cut is the pattern that fails from some transfer on. Entry positions above
offset 505 fail the size test. -/
inductive Plant.Run : Plant → Prop
  | wipe {s m : Machine} {cfg : FileNumber → FileConfig} {draws : FileNumber → UInt16}
      (hlog : s.writes = []) (hw : Works s.sd) (hwraps : s.wraps = 0)
      (hsync : ∀ f, (cfg f).sync ≠ 0) (h : boot s cfg true draws = (true, m)) :
      Run ⟨m, fun _ => [], 0⟩
  | call {x : Plant} (hx : Run x) {c : Call} (hc : Steady c) {ok : Bool} {m : Machine}
      (h : perform .stops x.machine c = some (ok, m)) (hwraps : m.wraps = 0)
      (hfew : x.appends + cost c < 4294967295) :
      Run ⟨m, if ok then adds c x.acknowledged else x.acknowledged, x.appends + cost c⟩
  | crash {x : Plant} (hx : Run x) {c : Call} (hc : Steady c) (faults : List Bool) {ok : Bool}
      {m m' : Machine} {cfg : FileNumber → FileConfig} {draws : FileNumber → UInt16}
      (h : perform .stops (withFaults x.machine faults) c = some (ok, m)) (hwraps : m.wraps = 0)
      (hfew : x.appends + cost c < 4294967295) (hsync : ∀ f, (cfg f).sync ≠ 0)
      (hboot : boot (withFaults m []) cfg false draws = (true, m')) :
      Run ⟨m', x.acknowledged, x.appends + cost c⟩

/-- What was acknowledged is marked by both headers, and the machine is at rest. -/
structure Plant.Holds (x : Plant) : Prop where
  secures : Secures x.acknowledged x.acknowledged x.machine
  works : Works x.machine.sd
  clean : x.machine.fs.cachedBlockDirty = false
  level : ¬ Ahead x.machine.writes
  wraps : x.machine.wraps = 0
  sync : ∀ f, (x.machine.fs.files f).sync ≠ 0
  counts : dataWrites x.machine.writes ≤ x.appends
  few : x.appends < 4294967295

/-- **A call** adds what it acknowledges. -/
theorem Plant.Holds.call {x : Plant} (h : x.Holds) {ov : Overrun} {c : Call} (hc : Steady c)
    {ok : Bool} {m : Machine} (he : perform ov x.machine c = some (ok, m)) (hwraps : m.wraps = 0)
    (hfew : x.appends + cost c < 4294967295) :
    Plant.Holds ⟨m, if ok then adds c x.acknowledged else x.acknowledged, x.appends + cost c⟩ := by
  have hsettled : Settled (dataWrites x.machine.writes) x.machine :=
    ⟨h.secures.1, h.clean, h.level, rfl⟩
  obtain ⟨hlevel, hcounts, hclean⟩ := perform_settled hsettled hc he
  obtain ⟨hsame, hadds⟩ := perform_secures h.secures (.refl _) hc (fun _ => h.clean) he
  have hfiles := perform_rule (settings_survive x.machine.fs.files) hc.sane rfl he
  refine ⟨?_, perform_rule works_survive hc.sane h.works he, hclean h.works h.sync, hlevel, hwraps,
    ?_, le_trans hcounts (Nat.add_le_add_right h.counts _), hfew⟩
  · cases ok with
    | false => exact hsame
    | true => exact (hadds rfl).2 h.sync (.refl _)
  · rw [show m.fs.files = x.machine.fs.files from hfiles]
    exact h.sync

/-- **A crash** loses nothing that was acknowledged. -/
theorem Plant.Holds.crash {x : Plant} (h : x.Holds) {ov : Overrun} {c : Call} (hc : Steady c)
    (faults : List Bool) {ok : Bool} {m m' : Machine} {cfg : FileNumber → FileConfig}
    {draws : FileNumber → UInt16} (he : perform ov (withFaults x.machine faults) c = some (ok, m))
    (hwraps : m.wraps = 0) (hfew : x.appends + cost c < 4294967295)
    (hsync : ∀ f, (cfg f).sync ≠ 0) (hboot : boot (withFaults m []) cfg false draws = (true, m')) :
    Plant.Holds ⟨m', x.acknowledged, x.appends + cost c⟩ := by
  have hsettled : Settled (dataWrites x.machine.writes) (withFaults x.machine faults) :=
    ⟨coherent_survives_faults h.secures.1 faults, h.clean, h.level, rfl⟩
  obtain ⟨hlevel, hcounts, -⟩ := perform_settled hsettled hc he
  have hsame := (perform_secures (h.secures.withFaults faults) (.refl _) hc (fun _ => h.clean) he).1
  have hle : dataWrites m.writes ≤ x.appends + cost c :=
    le_trans hcounts (Nat.add_le_add_right h.counts _)
  obtain ⟨hs, hfresh, hwrites, hw0⟩ := (hsame.withFaults []).restart rfl hwraps
    (lt_of_le_of_lt hle hfew) hlevel hboot
  refine ⟨hs, hfresh.works, hfresh.clean, hfresh.level, hw0.trans hwraps, fun f => ?_, ?_, hfew⟩
  · change (m'.fs.files f).sync ≠ 0
    rw [hfresh.settings]
    exact hsync f
  · change dataWrites m'.writes ≤ _
    rw [hwrites]
    exact hle

theorem Plant.Run.holds {x : Plant} (h : x.Run) : x.Holds := by
  induction h with
  | @wipe s m cfg draws hlog hw hwraps hsync h =>
    obtain ⟨hs, hfresh, h0, hcount⟩ := secures_wiped hlog hw hwraps h
    refine ⟨hs, hfresh.works, hfresh.clean, hfresh.level, h0, fun f => ?_, le_of_eq hcount, ?_⟩
    · change (m.fs.files f).sync ≠ 0
      rw [hfresh.settings]
      exact hsync f
    · exact Nat.zero_lt_succ _
  | call hx hc h hwraps hfew ih => exact ih.call hc h hwraps hfew
  | crash hx hc faults h hwraps hfew hsync hboot ih =>
    exact ih.crash hc faults h hwraps hfew hsync hboot

/-- A machine and what was appended to it since the program started. -/
structure Site where
  machine : Machine
  appended : Payloads

/-- Runs over sync and other files, from a wiped card on which nothing fails but in a
crash. A careful run iterates over a clean buffer only, writes fewer than `2^32 - 1`
data blocks, and does not crash while the header on the card is ahead of the data. -/
inductive Site.Run (ov : Overrun) (careful : Prop) : Site → Prop
  | wipe {s m : Machine} {cfg : FileNumber → FileConfig} {draws : FileNumber → UInt16}
      (hlog : s.writes = []) (hw : Works s.sd) (hzero : ∀ b, 8000 ≤ b → s.sd.blocks b = zeroBlock)
      (hwraps : s.wraps = 0) (h : boot s cfg true draws = (true, m)) :
      Run ov careful ⟨m, fun _ => []⟩
  | call {x : Site} (hx : Run ov careful x) {c : Call} (hc : Steady c)
      (hclean : Reads c → x.machine.fs.cachedBlockDirty = false) {ok : Bool} {m : Machine}
      (h : perform ov x.machine c = some (ok, m)) (hwraps : m.wraps = 0)
      (hfew : careful → dataWrites m.writes < 4294967295) :
      Run ov careful ⟨m, if ok then adds c x.appended else x.appended⟩
  | crash {x : Site} (hx : Run ov careful x) {c : Call} (hc : Steady c)
      (hclean : Reads c → x.machine.fs.cachedBlockDirty = false) (faults : List Bool) {ok : Bool}
      {m m' : Machine} {cfg : FileNumber → FileConfig} {draws : FileNumber → UInt16}
      (h : perform ov (withFaults x.machine faults) c = some (ok, m)) (hwraps : m.wraps = 0)
      (hfew : careful → dataWrites m.writes < 4294967295) (hlevel : careful → ¬ Ahead m.writes)
      (hboot : boot (withFaults m []) cfg false draws = (true, m')) :
      Run ov careful ⟨m', fun _ => []⟩

/-- What was appended since the program started is marked by the header in `fs`. -/
structure Site.Holds (x : Site) : Prop where
  secures : Secures x.appended (fun _ => []) x.machine
  works : Works x.machine.sd
  wraps : x.machine.wraps = 0

theorem among_nil (K : Payloads) : Among (fun _ => []) K := fun _ => List.nil_sublist _

theorem Site.Run.holds {ov : Overrun} {x : Site} (h : x.Run ov True) : x.Holds := by
  induction h with
  | wipe hlog hw hzero hwraps h =>
    obtain ⟨hs, hfresh, h0, -⟩ := secures_wiped hlog hw hwraps h
    exact ⟨hs, hfresh.works, h0⟩
  | @call x hx c hc hclean ok m h hwraps hfew ih =>
    obtain ⟨hsame, hadds⟩ := perform_secures ih.secures (among_nil _) hc hclean h
    refine ⟨?_, perform_rule works_survive hc.sane ih.works h, hwraps⟩
    cases ok with
    | false => exact hsame
    | true => exact (hadds rfl).1
  | @crash x hx c hc hclean faults ok m m' cfg draws h hwraps hfew hlevel hboot ih =>
    have hsame := (perform_secures (ih.secures.withFaults faults) (among_nil _) hc hclean h).1
    obtain ⟨hs, hfresh, -, hw0⟩ := (hsame.withFaults []).restart rfl hwraps (hfew trivial)
      (hlevel trivial) hboot
    exact ⟨hs, hfresh.works, hw0.trans hwraps⟩

end Fkfs.Crashes
