/-
What `fkfs_initialize` leaves of an earlier session.

`fkfs_initialize` sets the header and the slot it is in from the card, but not
`cachedBlockDirty` and `cachedBlockNumber`, and on the wipe path neither the
writer's offset nor the slot the first header goes to. Two states that agree in
these things go on alike whatever they were before (`reinitialised_alike`); a
state with a block in its buffer takes the header block, which
`fkfs_initialize` reads into the same buffer, for that block.
-/
import Fkfs.Twins

set_option autoImplicit false

namespace Fkfs.Reinit

open Bytes
open Fkfs.Crc Fkfs.Layout Fkfs.Device Fkfs.Search Fkfs.Append Fkfs.Iterate Fkfs.Mount Fkfs.Cache
open Fkfs.Writer Fkfs.Run Fkfs.Slots Fkfs.Structure Fkfs.Twins

/-! ## What an application sees -/

/-- What a call gives its caller: the status, and for `fkfs_file_iterate` the
iterator and, where it found data, the data, by what lies behind `fs->files`
when they are looked at. -/
structure Reply where
  status : Bool
  iter : Option fkfs_file_iter_t
  data : Option (Mem → List UInt8)

/-- A call with its reply. -/
def respond (ov : Overrun) (s : Machine) : Call → Option (Reply × Machine)
  | .iterate config am n iter =>
    (fkfs_file_iterate ov n config am s iter).map fun r =>
      (⟨r.1, some r.2.2, if r.1 then some (payload r.2.2 r.2.1.fs) else none⟩, r.2.1)
  | c => (perform ov s c).map fun r => (⟨r.1, none, none⟩, r.2)

/-- A sequence of calls, each under its own failure pattern: the replies, and what
the card holds in the end. -/
def replay (ov : Overrun) : List (List Bool × Call) → Machine → Option (List Reply × (ℕ → Block))
  | [], s => some ([], s.sd.blocks)
  | (faults, c) :: cs, s =>
    (respond ov (withFaults s faults) c).bind fun r =>
      (replay ov cs r.2).map fun q => (r.1 :: q.1, q.2)

/-- The calls the property is about: no `fkfs_file_iterator_ensure` by itself. -/
def Call.Listed : Call → Prop
  | .ensure _ => False
  | _ => True

/-- A reply to the same call of machines that go on alike is the same. -/
theorem respond_alike {a b : Machine} (h : Alike a b) (ov : Overrun) {c : Call} (hc : Call.Listed c) :
    Option.Rel (fun r r' => r'.1 = r.1 ∧ Alike r.2 r'.2) (respond ov a c) (respond ov b c) := by
  have hplain : ∀ {r r' : Bool × Machine}, Agree r r' →
      Option.Rel (fun r r' => r'.1 = r.1 ∧ Alike r.2 r'.2)
        ((some r).map fun r => ((⟨r.1, none, none⟩ : Reply), r.2))
        ((some r').map fun r => ((⟨r.1, none, none⟩ : Reply), r.2)) := by
    rintro ⟨ok, x⟩ ⟨ok', y⟩ ⟨hok, hal⟩
    dsimp only at hok
    subst hok
    exact .some ⟨rfl, hal⟩
  cases c with
  | append f data pasts => exact hplain (h.append ov pasts f data)
  | truncate f => exact hplain ⟨rfl, h.truncate f⟩
  | truncateAll => exact hplain ⟨rfl, h.truncate_all⟩
  | touch time => exact hplain (h.touch time)
  | flush now => exact hplain (h.flush now)
  | ensure iter => exact absurd hc id
  | truncateAt iter scratch ams n =>
    have hcut := h.truncate_at ov ams n iter scratch
    simp only [Reinit.respond, perform]
    generalize fkfs_file_truncate_at ov ams n a iter scratch = ra at hcut
    generalize fkfs_file_truncate_at ov ams n b iter scratch = rb at hcut
    cases hcut with
    | none => exact .none
    | some hal => exact .some ⟨rfl, hal⟩
  | iterate config am n iter =>
    have hiter := h.iterate ov n config am iter
    simp only [Reinit.respond]
    generalize fkfs_file_iterate ov n config am a iter = ra at hiter
    generalize fkfs_file_iterate ov n config am b iter = rb at hiter
    cases hiter with
    | none => exact .none
    | @some ra rb hagree =>
      obtain ⟨ok, x, it⟩ := ra
      obtain ⟨ok', y, it'⟩ := rb
      obtain ⟨hok, hal, hit, hcache⟩ := hagree
      dsimp only at hok hal hit hcache
      subst hok
      subst hit
      refine .some ⟨?_, hal⟩
      cases ok' with
      | false => simp only [Bool.false_eq_true, if_false]
      | true =>
        dsimp only
        rw [hal.fs_eq (hcache rfl)]

/-- **Machines that go on alike** give the same replies to the same calls, and
leave the same card. -/
theorem replay_alike {a b : Machine} (h : Alike a b) (ov : Overrun)
    {calls : List (List Bool × Call)} (hc : ∀ p ∈ calls, Call.Listed p.2) :
    replay ov calls b = replay ov calls a := by
  induction calls generalizing a b with
  | nil => simp only [Reinit.replay, h.sd]
  | cons p cs ih =>
    obtain ⟨faults, c⟩ := p
    have hreply := respond_alike (h.withFaults faults) ov (hc _ List.mem_cons_self)
    simp only [Reinit.replay]
    generalize Reinit.respond ov (Run.withFaults a faults) c = ra at hreply
    generalize Reinit.respond ov (Run.withFaults b faults) c = rb at hreply
    cases hreply with
    | none => rfl
    | @some ra rb hagree =>
      obtain ⟨he, hal⟩ := hagree
      have hrest := ih hal fun q hq => hc q (List.mem_cons_of_mem _ hq)
      rw [Option.bind_some, Option.bind_some, he, hrest]

/-! ## Initialising -/

/-- The same names and the same settings. -/
structure SameConfig (fs fs' : fkfs_t) : Prop where
  names : ∀ f, (fs'.header.files f).name = (fs.header.files f).name
  settings : fs'.files = fs.files

/-- `fkfs_initialize` makes a new file system. -/
def MakesNew (sd : Card) (wipe : Bool) : Prop := wipe = true ∨ ∀ i, ¬ slotValid sd i

/-- Nothing of the earlier sessions is left that matters. -/
structure Forgotten (a b : Machine) (wipe : Bool) : Prop where
  /-- Neither has a block in the buffer, or both have the same and on the wipe path,
  where the header in `fs` goes into the buffer, the same header CRC. -/
  cache : (Vacant a.fs ∧ Vacant b.fs
      ∧ (¬ MakesNew a.sd wipe → Asked (slot a.sd (selected a.sd)).block))
    ∨ (b.fs.cachedBlockDirty = a.fs.cachedBlockDirty
      ∧ b.fs.cachedBlockNumber = a.fs.cachedBlockNumber
      ∧ (MakesNew a.sd wipe → b.fs.header.crc = a.fs.header.crc))
  /-- On the wipe path also what it takes over from `fs`. -/
  wiped : MakesNew a.sd wipe → b.fs.headerIndex = a.fs.headerIndex
    ∧ b.fs.header.version = a.fs.header.version ∧ b.fs.header.offset = a.fs.header.offset
    ∧ b.fs.header.time = a.fs.header.time

/-- The machine in which `fkfs_initialize` has read block 0. -/
def afterHeaders (s : Machine) : Machine :=
  { afterRead s with fs := { s.fs with numberOfBlocks := s.sd.size, buffer := s.sd.blocks 0 } }

/-- **What `fkfs_initialize` does** when it returns true. -/
theorem initialize_true {s m : Machine} {wipe : Bool} {draws : FileNumber → UInt16}
    (h : fkfs_initialize s wipe draws = (true, m)) :
    (MakesNew s.sd wipe ∧ wipeHeaders (afterHeaders s) draws = (true, m))
      ∨ ¬ MakesNew s.sd wipe
        ∧ m = { afterHeaders s with fs := mountHeader (afterHeaders s).fs } := by
  simp only [Mount.fkfs_initialize, fkfs_read_block, sd_raw_read_block] at h
  cases hf : s.sd.fails
  · rw [hf] at h
    simp only [Bool.false_eq_true, if_false, UInt32.toNat_zero, Bool.or_eq_true,
      Bool.and_eq_true, Bool.not_eq_true'] at h
    have hiff : (wipe = true ∨ fkfs_header_crc_valid (s.sd.blocks 0) 0 = false
        ∧ fkfs_header_crc_valid (s.sd.blocks 0) 1 = false) ↔ MakesNew s.sd wipe := by
      unfold MakesNew slotValid
      refine or_congr_right ⟨?_, fun hv => ⟨by simpa using hv 0, by simpa using hv 1⟩⟩
      rintro ⟨h0, h1⟩ i
      rcases slot_cases 0 i with rfl | rfl
      · rw [h0]
        exact Bool.false_ne_true
      · rw [show (0 : Fin 2) + 1 = 1 from rfl, h1]
        exact Bool.false_ne_true
    by_cases hn : MakesNew s.sd wipe
    · rw [if_pos (hiff.mpr hn)] at h
      exact .inl ⟨hn, h⟩
    · rw [if_neg fun hc => hn (hiff.mp hc)] at h
      cases h
      exact .inr ⟨hn, rfl⟩
  · rw [hf] at h
    cases h

section Initialise

variable {a b ma mb : Machine} {wipe : Bool} {draws : FileNumber → UInt16}

theorem withNames_congr {h n n' : fkfs_header_t}
    (hn : ∀ f, (n'.files f).name = (n.files f).name) : withNames h n' = withNames h n := by
  simp only [withNames, hn]

/-- A new file system keeps of the old header only what the wipe does not set. -/
theorem wipedHeader_congr (draws : FileNumber → UInt16) {h h' : fkfs_header_t} (hv : h'.version = h.version)
    (ho : h'.offset = h.offset) (ht : h'.time = h.time)
    (hn : ∀ f, (h'.files f).name = (h.files f).name) :
    fkfs_header_crc_update (wipedHeader h' draws) = fkfs_header_crc_update (wipedHeader h draws)
      ∧ (h'.crc = h.crc → wipedHeader h' draws = wipedHeader h draws) := by
  have hrows : (wipedHeader h' draws).files = (wipedHeader h draws).files := by
    funext f
    simp only [wipedHeader, hn]
  have hbody : (wipedHeader h' draws).bodyBytes = (wipedHeader h draws).bodyBytes := by
    simp only [fkfs_header_t.bodyBytes, hrows]
    simp only [wipedHeader, hv, ho, ht]
  constructor
  · unfold fkfs_header_crc_update
    rw [hbody]
    simp only [wipedHeader, hv, ho, ht, hn]
  · intro hc
    simp only [wipedHeader, hv, ho, ht, hn, hc]

/-- **The mount path** sets everything but the cache. -/
theorem Forgotten.mount (h : Forgotten a b wipe) (hsd : b.sd = a.sd) (hcfg : SameConfig a.fs b.fs)
    (hnew : ¬ MakesNew a.sd wipe) :
    Alike { afterHeaders a with fs := mountHeader (afterHeaders a).fs }
      { afterHeaders b with fs := mountHeader (afterHeaders b).fs } := by
  have hbuf : (afterHeaders b).fs.buffer = (afterHeaders a).fs.buffer := by
    change b.sd.blocks 0 = a.sd.blocks 0
    rw [hsd]
  have hnames : ∀ h, withNames h (afterHeaders b).fs.header = withNames h (afterHeaders a).fs.header :=
    fun _ => withNames_congr hcfg.names
  have hheader : (mountHeader (afterHeaders b).fs).header = (mountHeader (afterHeaders a).fs).header := by
    unfold mountHeader
    dsimp only
    rw [hbuf, hnames]
  have hbuffer : (mountHeader (afterHeaders b).fs).buffer = (mountHeader (afterHeaders a).fs).buffer := by
    unfold mountHeader
    dsimp only
    rw [hbuf, hnames]
  refine ⟨congrArg Card.next hsd, ?_, ?_, congrArg Card.size hsd, hheader, hcfg.settings, ?_⟩
  · unfold mountHeader
    dsimp only
    rw [hbuf]
  · rcases h.cache with ⟨h1, h2, -⟩ | ⟨hd, -⟩
    · exact h2.1.trans h1.1.symm
    · exact hd
  · rcases h.cache with ⟨h1, h2, hb⟩ | ⟨-, hc, -⟩
    · exact .inr ⟨h1, h2, hb hnew⟩
    · exact .inl ⟨hc, hbuffer⟩

/-- **The wipe path** goes on alike from its first header write on. -/
theorem Forgotten.wipe_first (h : Forgotten a b wipe) (draws : FileNumber → UInt16) (hsd : b.sd = a.sd)
    (hcfg : SameConfig a.fs b.fs) (hnew : MakesNew a.sd wipe) :
    Alike (sealHeader (wipeFirst (afterHeaders a) draws))
      (sealHeader (wipeFirst (afterHeaders b) draws)) := by
  obtain ⟨hi, hv, ho, ht⟩ := h.wiped hnew
  obtain ⟨hsealed, hplain⟩ := wipedHeader_congr draws hv ho ht hcfg.names
  refine ⟨congrArg Card.next hsd, hi, ?_, congrArg Card.size hsd, hsealed, hcfg.settings, ?_⟩
  · rcases h.cache with ⟨h1, h2, -⟩ | ⟨hd, -⟩
    · exact h2.1.trans h1.1.symm
    · exact hd
  · rcases h.cache with ⟨h1, h2, -⟩ | ⟨-, hc, hcrc⟩
    · exact .inr ⟨h1, h2, show Asked FKFS_FIRST_BLOCK from ⟨by decide, by decide⟩⟩
    · refine .inl ⟨hc, ?_⟩
      change putHeader (b.sd.blocks 0) b.fs.headerIndex (wipedHeader b.fs.header draws)
        = putHeader (a.sd.blocks 0) a.fs.headerIndex (wipedHeader a.fs.header draws)
      rw [hsd, hi, hplain (hcrc hnew)]

/-- Its second header write follows. -/
theorem wipe_second_alike (h : Alike a b) : Alike (wipeSecond a) (wipeSecond b) := by
  have hheader : { b.fs.header with generation := 1 } = { a.fs.header with generation := 1 } := by
    rw [h.header]
  refine ⟨h.sd, rfl, h.dirty, h.number, hheader, h.settings, ?_⟩
  rcases h.cache with ⟨hc, hbuf⟩ | hc
  · refine .inl ⟨hc, ?_⟩
    change putHeader b.fs.buffer 1 { b.fs.header with generation := 1 }
      = putHeader a.fs.buffer 1 { a.fs.header with generation := 1 }
    rw [hheader, hbuf]
  · exact .inr hc

/-- **The wipe path** agrees. -/
theorem Forgotten.wipes (h : Forgotten a b wipe) (draws : FileNumber → UInt16) (hsd : b.sd = a.sd) (hcfg : SameConfig a.fs b.fs)
    (hnew : MakesNew a.sd wipe) :
    Agree (wipeHeaders (afterHeaders a) draws) (wipeHeaders (afterHeaders b) draws) := by
  have hfirst := h.wipe_first draws hsd hcfg hnew
  have himage : headerImage (sealHeader (wipeFirst (afterHeaders b) draws)).fs zeroBlock
      = headerImage (sealHeader (wipeFirst (afterHeaders a) draws)).fs zeroBlock := by
    rw [headerImage, headerImage, hfirst.index, hfirst.header]
  have hwrite := hfirst.write_block 0
    (headerImage (sealHeader (wipeFirst (afterHeaders a) draws)).fs zeroBlock)
  have hsplit : ∀ s : Machine, fkfs_header_write (wipeFirst s draws) true
      = fkfs_write_block (sealHeader (wipeFirst s draws)) 0
        (headerImage (sealHeader (wipeFirst s draws)).fs zeroBlock) := fun _ => rfl
  rw [wipeHeaders_eq, wipeHeaders_eq, hsplit, hsplit, himage]
  generalize fkfs_write_block (sealHeader (wipeFirst (afterHeaders a) draws)) 0
    (headerImage (sealHeader (wipeFirst (afterHeaders a) draws)).fs zeroBlock) = ra at hwrite
  generalize fkfs_write_block (sealHeader (wipeFirst (afterHeaders b) draws)) 0
    (headerImage (sealHeader (wipeFirst (afterHeaders a) draws)).fs zeroBlock) = rb at hwrite
  obtain ⟨ok, x⟩ := ra
  obtain ⟨ok', y⟩ := rb
  obtain ⟨hok, hal⟩ := hwrite
  dsimp only at hok hal
  subst hok
  cases ok' with
  | false => exact ⟨rfl, hal⟩
  | true => exact (wipe_second_alike hal).header_write

/-- **After both have been initialised** they go on alike. -/
theorem Forgotten.alike (h : Forgotten a b wipe) (hsd : b.sd = a.sd) (hcfg : SameConfig a.fs b.fs)
    (ha : fkfs_initialize a wipe draws = (true, ma))
    (hb : fkfs_initialize b wipe draws = (true, mb)) : Alike ma mb := by
  rcases initialize_true ha with ⟨hnew, ha⟩ | ⟨hnew, rfl⟩
  · rcases initialize_true hb with ⟨-, hb⟩ | ⟨hno, -⟩
    · have hw := (h.wipes draws hsd hcfg hnew).2
      rw [ha, hb] at hw
      exact hw
    · rw [hsd] at hno
      exact absurd hnew hno
  · rcases initialize_true hb with ⟨hno, -⟩ | ⟨-, rfl⟩
    · rw [hsd] at hno
      exact absurd hno hnew
    · exact h.mount hsd hcfg hnew

/-- **Re-initialisation forgets the old sessions** of two machines with the same
card and configuration, if nothing of them is left in the cache and, on the wipe
path, in the header. -/
theorem reinitialised_alike (h : Forgotten a b wipe) (hsd : b.sd = a.sd)
    (hcfg : SameConfig a.fs b.fs) (ha : fkfs_initialize a wipe draws = (true, ma))
    (hb : fkfs_initialize b wipe draws = (true, mb)) (ov : Overrun)
    {calls : List (List Bool × Call)} (hc : ∀ p ∈ calls, Call.Listed p.2) :
    replay ov calls mb = replay ov calls ma :=
  replay_alike (h.alike hsd hcfg ha hb) ov hc

end Initialise

/-! ## What is not forgotten -/

/-- Four files of one priority; file 3 is not a sync file. -/
def lazyConfig : FileNumber → FileConfig := fun f => ⟨0, if f = 3 then 0 else 1, [], 0⟩

/-- A card of 9000 blocks that was wiped. -/
def wipedLazy : Machine := (boot (blankMachine 9000) lazyConfig true fun _ => 7).2

/-- A machine that was only configured, with that card. -/
def freshMachine : Machine := ⟨configured lazyConfig, wipedLazy.sd, [], 0⟩

/-- `fs` after a session that appended one byte to file 3; it is in the buffer, so
the card is as it was. -/
def usedMachine : Machine :=
  ⟨(fkfs_file_append .reads (fun _ _ => 0) wipedLazy 3 [1]).2.fs, wipedLazy.sd, [], 0⟩

/-- The machine that `fkfs_initialize` leaves. -/
def initialised (s : Machine) : Machine := ( fkfs_initialize s false fun _ => 7).2

/-- Byte 5 of block 8000 after some calls; in a header it is the low byte of
`block`. -/
def writtenByte (r : Option (List Reply × (ℕ → Block))) : Option UInt8 :=
  r.map fun q => (q.2 8000).mem 5

theorem sameConfig_of_eq {fs fs' : fkfs_t}
    (hn : ∀ f i, (fs'.header.files f).name i = (fs.header.files f).name i)
    (hs : ∀ f, (fs'.files f).sync = (fs.files f).sync
      ∧ (fs'.files f).priority = (fs.files f).priority) : SameConfig fs fs' := by
  refine ⟨fun f => funext (hn f), funext fun f => ?_⟩
  obtain ⟨h1, h2⟩ := hs f
  generalize fs'.files f = x at *
  generalize fs.files f = y at *
  obtain ⟨xs, xp⟩ := x
  obtain ⟨ys, yp⟩ := y
  rw [show xs = ys from h1, show xp = yp from h2]

set_option maxRecDepth 100000 in
/-- After both have mounted the card, a flush of the used machine writes its dirty
buffer, which holds the header block by now, over block 8000. -/
theorem dirty_buffer_survives :
    usedMachine.sd = freshMachine.sd ∧ SameConfig freshMachine.fs usedMachine.fs
      ∧ ( fkfs_initialize freshMachine false fun _ => 7).1 = true
      ∧ ( fkfs_initialize usedMachine false fun _ => 7).1 = true
      ∧ replay .reads [([], .flush 5)] (initialised usedMachine)
        ≠ replay .reads [([], .flush 5)] (initialised freshMachine) := by
  have hnames : ∀ f i, (usedMachine.fs.header.files f).name i
      = (freshMachine.fs.header.files f).name i := by
    decide +kernel
  have hsettings : ∀ f, (usedMachine.fs.files f).sync = (freshMachine.fs.files f).sync
      ∧ (usedMachine.fs.files f).priority = (freshMachine.fs.files f).priority := by
    decide +kernel
  have hstatus : ( fkfs_initialize freshMachine false fun _ => 7).1 = true
      ∧ ( fkfs_initialize usedMachine false fun _ => 7).1 = true := by
    decide +kernel
  have hbytes : writtenByte (replay .reads [([], .flush 5)] (initialised usedMachine))
      ≠ writtenByte (replay .reads [([], .flush 5)] (initialised freshMachine)) := by
    decide +kernel
  exact ⟨rfl, sameConfig_of_eq hnames hsettings, hstatus.1, hstatus.2,
    fun h => hbytes (congrArg writtenByte h)⟩

/-- `fs` after the same session with a sync at its end. -/
def syncedMachine : Machine := ⟨(fkfs_fsync usedMachine).2.fs, wipedLazy.sd, [], 0⟩

set_option maxRecDepth 100000 in
/-- With the sync there is nothing left of the session: an append and a flush go
the same way as on the fresh machine. -/
theorem reinitialised_alike_synced :
    replay .reads [([], .append 0 [1] fun _ _ => 0), ([], .flush 5)] (initialised syncedMachine)
      = replay .reads [([], .append 0 [1] fun _ _ => 0), ([], .flush 5)]
        (initialised freshMachine) := by
  have hfacts : (∀ f i, (syncedMachine.fs.header.files f).name i
        = (freshMachine.fs.header.files f).name i)
      ∧ (∀ f, (syncedMachine.fs.files f).sync = (freshMachine.fs.files f).sync
        ∧ (syncedMachine.fs.files f).priority = (freshMachine.fs.files f).priority)
      ∧ (freshMachine.fs.cachedBlockDirty = false ∧ freshMachine.fs.cachedBlockNumber = 0)
      ∧ (syncedMachine.fs.cachedBlockDirty = false
        ∧ syncedMachine.fs.cachedBlockNumber = UINT32_MAX)
      ∧ fkfs_header_crc_valid (freshMachine.sd.blocks 0) 1 = true
      ∧ ((slot freshMachine.sd (selected freshMachine.sd)).block ≠ 0
        ∧ (slot freshMachine.sd (selected freshMachine.sd)).block ≠ UINT32_MAX)
      ∧ ( fkfs_initialize freshMachine false fun _ => 7).1 = true
      ∧ ( fkfs_initialize syncedMachine false fun _ => 7).1 = true := by
    decide +kernel
  obtain ⟨hnames, hsettings, hfresh, hsynced, hvalid, hasked, hma, hmb⟩ := hfacts
  have hold : ¬ MakesNew freshMachine.sd false := by
    rintro (h | h)
    · cases h
    · exact h 1 hvalid
  have hforgotten : Forgotten freshMachine syncedMachine false :=
    ⟨.inl ⟨⟨hfresh.1, .inl hfresh.2⟩, ⟨hsynced.1, .inr hsynced.2⟩, fun _ => hasked⟩,
      fun h => absurd h hold⟩
  refine reinitialised_alike hforgotten rfl (sameConfig_of_eq hnames hsettings) (of_status hma)
    (of_status hmb) .reads fun p hp => ?_
  rcases List.mem_cons.mp hp with rfl | hp
  · exact trivial
  · rw [List.mem_singleton.mp hp]
    exact trivial

end Fkfs.Reinit
