/-
Stepping by hand.

With `manualNext` set, `fkfs_file_iterate` leaves the token on the entry it found, and
the caller goes on with `fkfs_file_iterator_ensure` and `fkfs_file_iterate_move` when it
is done with the data. Directly after the call that is what `fkfs_file_iterate` does by
itself (`iterate_move`). Between the two, appends may have taken the buffer to another
block; the entry is found again because it lies before the writer's place, where no
append changes a byte (`Grown`).

An iterator by hand and one that goes on by itself run side by side on two machines that
differ in the buffer only (`Twin`).
-/
import Fkfs.Twins
import Fkfs.Upkeep

set_option autoImplicit false

namespace Fkfs.Stepping

open Bytes Relation
open Fkfs.Crc Fkfs.Layout Fkfs.Device Fkfs.Search Fkfs.Append Fkfs.Iterate Fkfs.Mount Fkfs.Cache
open Fkfs.Walk Fkfs.Writer Fkfs.Reader Fkfs.Run Fkfs.Slots Fkfs.CardLog Fkfs.Structure
open Fkfs.Marking Fkfs.Upkeep Fkfs.Twins

/-! ## Nothing in between -/

/-- The configuration of a call that goes on by itself. -/
abbrev byItself (config : fkfs_iterator_config_t) : fkfs_iterator_config_t :=
  { config with manualNext := 0 }

/-- The configuration of a call that leaves the token on the entry. -/
abbrev byHand (config : fkfs_iterator_config_t) : fkfs_iterator_config_t :=
  { config with manualNext := 1 }

/-- Where `fkfs_file_iterate_move` goes from an entry in the buffer. -/
def movedOn (buffer : Block) (iter : fkfs_file_iter_t) : fkfs_file_iter_t :=
  moveTo iter iter.token.block
    (iter.token.offset + ((entryAt buffer.mem iter.token.offset.toNat).available + 7))

section Moving

variable {ov : Overrun} {fs : fkfs_t}

/-- **`fkfs_file_iterate_move`** over a link of the chain. -/
theorem move_link {o o' : ℕ} (hl : Link fs.buffer o o') (past : Mem) {iter : fkfs_file_iter_t}
    (ho : iter.token.offset.toNat = o) :
    fkfs_file_iterate_move ov past fs true iter = (true, movedOn fs.buffer iter) := by
  subst ho
  have hcheck := (check_of_link (V := fun _ => fs.buffer) (b := 0) ov past rfl hl).1
  have hentry : entryAt (fs.memory past) iter.token.offset.toNat
      = entryAt fs.buffer.mem iter.token.offset.toNat :=
    entryAt_congr fun i _ _ => memory_lt fs.buffer fs.files past (by have := hl.1; omega)
  unfold fkfs_file_iterate_move
  dsimp only
  rw [if_neg (by tauto), hentry]
  rfl

/-- Where the check finds an entry in the block there is a link. -/
theorem link_of_good {past : Mem} {o : ℕ} (h : fkfs_block_check .stops past fs o = .good) :
    Link fs.buffer o (o + stride fs.buffer.mem o) := by
  rcases check_cases .stops past fs o with ⟨hsize, -⟩ | ⟨hp, -⟩
  · rw [h] at hsize
    cases hsize
  · have ho : o ≤ 505 := by
      by_contra hlt
      exact hp.1 ⟨rfl, by omega⟩
    exact ⟨ho, (passes_mem_iff ho).mp hp, rfl⟩

/-- What a call by hand returned, moved on. -/
def thenMove (past : Mem) (r : Bool × Machine × fkfs_file_iter_t) :
    Bool × Machine × fkfs_file_iter_t :=
  if r.1 then (true, r.2.1, (fkfs_file_iterate_move .stops past r.2.1.fs true r.2.2).2) else r

/-- The loop of `fkfs_file_iterate` goes on by itself as `fkfs_file_iterate_move` would. -/
theorem iterateLoop_move (past : Mem) (config : fkfs_iterator_config_t) (am : Ambient)
    (n r : ℕ) (s : Machine) (iter : fkfs_file_iter_t) (mb : UInt32) :
    iterateLoop .stops (byItself config) am n r s iter mb
      = (iterateLoop .stops (byHand config) am n r s iter mb).map (thenMove past) := by
  induction n generalizing r s iter mb with
  | zero => rfl
  | succ n ih =>
    unfold iterateLoop
    split
    · rfl
    · rename_i s1 e
      dsimp only
      split
      · split
        · -- Found: the move starts from the same entry.
          rename_i hfound
          have hl := link_of_good hfound.1
          have hentry : entryAt (s1.fs.memory (am.past r)) iter.token.offset.toNat
              = entryAt s1.fs.buffer.mem iter.token.offset.toNat :=
            entryAt_congr fun i _ _ => memory_lt _ _ _ (by have := hl.1; omega)
          have hself : (byItself config).manualNext = 0 := rfl
          have hhand : ¬ (byHand config).manualNext = 0 := fun h0 => nomatch h0
          rw [if_pos hself, if_neg hhand, Option.map_some, thenMove, if_pos rfl]
          dsimp only
          rw [move_link hl past, movedOn, hentry]
          · rfl
          · rfl
        · split
          · rfl
          · exact ih _ _ _ _
      · split
        · rfl
        · generalize (if 0 < config.maxBlocks then mb - 1 else mb) = mb'
          split
          · rfl
          · exact ih _ _ _ _

/-- **A call that goes on by itself** is a call by hand and `fkfs_file_iterate_move`. -/
theorem iterate_move (past : Mem) (n : ℕ) (config : fkfs_iterator_config_t) (am : Ambient)
    (s : Machine) (iter : fkfs_file_iter_t) :
    fkfs_file_iterate .stops n (byItself config) am s iter
      = (fkfs_file_iterate .stops n (byHand config) am s iter).map (thenMove past) := by
  unfold fkfs_file_iterate
  split
  · rfl
  · split
    · rfl
    · exact iterateLoop_move past config am n 0 s iter config.maxBlocks

/-- Data is found in the block that is cached. -/
theorem iterateLoop_cached {config : fkfs_iterator_config_t} {am : Ambient} {n r : ℕ}
    {s s' : Machine} {iter iter' : fkfs_file_iter_t} {mb : UInt32}
    (h : iterateLoop ov config am n r s iter mb = some (true, s', iter')) :
    s'.fs.cachedBlockNumber = iter'.token.block := by
  induction n generalizing r s iter mb with
  | zero => cases h
  | succ n ih =>
    simp only [iterateLoop] at h
    split at h
    · cases h
    · rename_i s1 e
      have hcached : s1.fs.cachedBlockNumber = iter.token.block := by
        rcases block_ensure_cases s iter.token.block with ⟨hc, he⟩ | ⟨-, he⟩ | ⟨-, he⟩ <;>
          rw [he] at e <;> cases e
        · exact hc
        · rfl
      split at h
      · split at h
        · cases h
          rw [hcached]
          split <;> rfl
        · split at h
          · cases h
          · exact ih h
      · split at h
        · cases h
        · generalize (if 0 < config.maxBlocks then mb - 1 else mb) = mb' at h
          split at h
          · cases h
          · exact ih h

theorem iterate_cached {config : fkfs_iterator_config_t} {am : Ambient} {n : ℕ} {s s' : Machine}
    {iter iter' : fkfs_file_iter_t}
    (h : fkfs_file_iterate ov n config am s iter = some (true, s', iter')) :
    s'.fs.cachedBlockNumber = iter'.token.block := by
  unfold fkfs_file_iterate at h
  split at h
  · cases h
  · split at h
    · cases h
    · exact iterateLoop_cached h

end Moving

/-! ## What grows -/

section Growing

variable {ov : Overrun} {s m m' : Machine} {f : FileNumber} {data : List UInt8}

/-- From `s` to `m`, as long as the writer has not wrapped in between. -/
structure Onward (s m : Machine) : Prop where
  works : Works m.sd
  coherent : Coherent m
  wraps : s.wraps ≤ m.wraps
  grown : m.wraps = s.wraps → Grown s m

theorem Onward.keeps (h : Onward s m) (hw : Works m'.sd) (hc : Coherent m') (hk : Keeps m m') :
    Onward s m' := by
  refine ⟨hw, hc, ?_, fun h0 => ?_⟩
  · rw [hk.wraps]
    exact h.wraps
  · exact (h.grown (hk.wraps.symm.trans h0)).trans (grown_of_keeps hk)

/-- **The allocator** goes onward. -/
theorem onward_allocates (s : Machine) (required : ℕ) : Allocates required (Onward s) where
  sync := fun hm =>
    hm.keeps (fsync_succeeds hm.works).2 (fsync_keeps hm.coherent).1 (fsync_keeps hm.coherent).2.1
  next := by
    intro m hm hd
    obtain ⟨-, -, hsd, -, -⟩ := next_block_keeps m
    refine ⟨by rw [hsd]; exact hm.works, next_block_coherent hm.coherent hd, ?_, fun h0 => ?_⟩
    · have := hm.wraps
      rcases next_block_cases m with ⟨-, hw, -⟩ | ⟨-, hw, -⟩ <;> omega
    · have hle := hm.wraps
      rcases next_block_cases m with ⟨-, hw, -⟩ | ⟨-, hw, hb⟩
      · omega
      · refine (hm.grown (by omega)).trans ⟨?_, place_le.mpr (.inl ?_)⟩
        · rw [next_block_view]
          exact below_of_eq (fun _ _ => rfl) _
        · rw [hb, succ_toNat hm.coherent.block_lt]
          exact Nat.lt_succ_self _
  load := by
    intro m hm
    obtain ⟨m', e, hl, -⟩ := block_ensure_loads hm.works hm.coherent.dirty
    rw [e]
    exact hm.keeps (by rw [hl.sd]; exact hm.works) (hl.coherent hm.coherent) hl.keeps
  place := by
    intro m o hm _ hchain ho
    refine ⟨hm.works, coherent_survives.place hm.coherent (by omega), hm.wraps, fun h0 => ?_⟩
    exact (hm.grown h0).trans
      ⟨below_of_eq (fun _ _ => rfl) _, place_le.mpr (.inr ⟨rfl, hchain.le⟩)⟩

/-- **`fkfs_file_append`** changes nothing before the writer's place. -/
theorem append_grown (hw : Works s.sd) (hc : Coherent s) (hlen : data.length ≤ 505)
    (pasts : ℕ → Mem) : Onward s (fkfs_file_append ov pasts s f data).2 := by
  have hs : Onward s s := ⟨hw, hc, le_refl _, fun _ => grown_of_keeps (.refl s)⟩
  refine append_rule ov f (onward_allocates s _) hlen (fun hm hcache _ hroom => ?_) pasts hs
  refine ⟨hm.works, afterStore_coherent hm.coherent hcache hlen hroom, hm.wraps, fun h0 => ?_⟩
  refine (hm.grown h0).trans ⟨afterStore_below hm.coherent hcache, ?_⟩
  refine place_le.mpr (.inr ⟨rfl, ?_⟩)
  rw [afterStore_offset hlen hroom]
  exact Nat.le_add_right _ _

end Growing

/-! ## Places on the chains -/

/-- A place on the chain of its block that the writer has passed. -/
structure Reached (m : Machine) (p : Place) : Prop where
  block_ge : 8000 ≤ blockOf p
  chain : Chain (view m (blockOf p)) 0 (offsetOf p)
  le : p ≤ writerPlace m.fs.header

/-- Both places of a token are on chains. -/
structure OnChain (m : Machine) (token : fkfs_iterator_token_t) : Prop where
  here : Reached m (place token.block.toNat token.offset.toNat)
  last : Reached m (place token.lastBlock.toNat token.lastOffset.toNat)

section Chains

variable {ov : Overrun} {m m' : Machine} {p q : Place} {iter iter' : fkfs_file_iter_t}
  {token : fkfs_iterator_token_t}

theorem Reached.grown (h : Reached m p) (hg : Grown m m') : Reached m' p :=
  ⟨h.block_ge, hg.below.chain h.block_ge h.chain h.le, le_trans h.le hg.forward⟩

theorem OnChain.grown (h : OnChain m token) (hg : Grown m m') : OnChain m' token :=
  ⟨h.here.grown hg, h.last.grown hg⟩

/-- The reader stays on the chains. -/
theorem chain_of_reach {files : Settings} {V : ℕ → Block} (h : Reach ov files V p q)
    (hp : Chain (V (blockOf p)) 0 (offsetOf p)) : Chain (V (blockOf q)) 0 (offsetOf q) := by
  induction h with
  | refl => exact hp
  | tail _ hn ih =>
    rcases hn with ⟨o', hl, rfl⟩ | ⟨-, rfl⟩
    · exact ih.tail hl
    · exact .refl

/-- A file starts and ends on chains. -/
theorem reached_row {f : FileNumber} {xs : List (List UInt8)}
    (h : FileMarks (view m) m.fs.header f xs) :
    Reached m (startPlace (m.fs.header.files f)) ∧ Reached m (endPlace (m.fs.header.files f)) :=
  ⟨⟨h.start_ge, h.start_chain, le_trans h.start_le h.last_le⟩,
    ⟨le_trans h.start_ge (blockOf_le h.start_le), h.last_chain, h.last_le⟩⟩

theorem onChain_create (h : Marks (view m) m.fs.header nothing) (f : FileNumber)
    (iter : fkfs_file_iter_t) : OnChain m (fkfs_file_iterator_create m.fs f iter).token :=
  ⟨(reached_row (h.file f)).1, (reached_row (h.file f)).2⟩

/-- A reopened iterator goes on from a place on a chain. -/
theorem onChain_reopen (h : Marks (view m) m.fs.header nothing) (ht : OnChain m token)
    (iter : fkfs_file_iter_t) : OnChain m (fkfs_file_iterator_reopen m.fs iter token).token := by
  unfold fkfs_file_iterator_reopen
  dsimp only
  split
  · exact onChain_create h token.file iter
  · exact ⟨ht.here, (reached_row (h.file token.file)).2⟩

variable (h : Upholds nothing m) (h0 : m.wraps = 0) (hd : m.fs.cachedBlockDirty = false)
  (ho : OnChain m iter.token)

include h h0 hd ho

/-- An iterator on the chains that is not past its end is on its way there. -/
theorem ready_onChain (hle : tokenPlace iter ≤ lastPlace iter) :
    Ready .stops m.fs.files (view m) m.fs.header iter.token.file (lastPlace iter) m iter := by
  have hline := markTrail_between iter.token.file 0 ho.here.chain ho.last.chain hle
  refine ⟨h.works, h.coherent, rfl, rfl, fun _ _ => rfl, rfl, rfl, ho.here.block_ge,
    blockOf_le ho.last.le, (h.sound h0).unwrapped, ⟨fun hc => ?_, fun hc => ?_⟩,
    hline.reach ho.here.chain fun b _ _ => ends_stops _ _ _⟩
  · exact absurd (hd.symm.trans hc) Bool.false_ne_true
  · exact absurd (hd.symm.trans hc) Bool.false_ne_true

/-- **A call of `fkfs_file_iterate`** returns and stays on the chains; the entry it stops
at by hand lies before the writer's place. -/
theorem iterate_onChain (config : fkfs_iterator_config_t) (am : Ambient) :
    ∃ N ok m' iter', (∀ n, N ≤ n →
        fkfs_file_iterate .stops n config am m iter = some (ok, m', iter'))
      ∧ Loads m m' ∧ OnChain m' iter'.token
      ∧ (ok = true → config.manualNext ≠ 0 → ∃ o',
        Link (view m iter'.token.block.toNat) iter'.token.offset.toNat o'
          ∧ place iter'.token.block.toNat o' ≤ writerPlace m.fs.header) := by
  rcases lt_or_ge (tokenPlace iter) (lastPlace iter) with hlt | hge
  · have hr := ready_onChain h h0 hd ho (le_of_lt hlt)
    obtain ⟨N, hN⟩ := iterate_spec (h := m.fs.header) (f := iter.token.file) hr.reach
    obtain ⟨ok, m', iter', he, hout⟩ := hN N (le_refl N) config am m iter hr rfl hlt
    have hsame := (iterate_loads h.works h.coherent (fun _ _ => hr.quiet) he).2.1
    have hgrown := grown_of_keeps hout.loads.keeps
    refine ⟨N, ok, m', iter', fun n hn => iterate_mono he hn, hout.loads, ⟨?_, ?_⟩, fun hok hm => ?_⟩
    · -- From the old place to the new one, and on to the end.
      have hwalk : Reach .stops m.fs.files (view m) (tokenPlace iter) (tokenPlace iter') := by
        cases ok with
        | false => exact (hout.stops rfl).1.reach fun hs => hs.next
        | true =>
          obtain ⟨q, c, ht, hdata, -, hplace, -⟩ := hout.finds rfl
          rw [hplace]
          split
          · exact (ht.reach fun hs => hs.next).tail (hdata fun _ => 0).next
          · exact ht.reach fun hs => hs.next
      refine Reached.grown (m := m) ⟨?_, chain_of_reach hwalk ho.here.chain, ?_⟩ hgrown
      · exact le_trans ho.here.block_ge (blockOf_le hwalk.le)
      · exact le_trans hout.ready.reach.le ho.last.le
    · have hlast := ho.last.grown hgrown
      rw [← hsame.2.1, ← hsame.2.2.1] at hlast
      exact hlast
    · obtain ⟨q, c, -, hdata, hce, hplace, -⟩ := hout.finds hok
      rw [if_neg hm] at hplace
      subst hplace
      rcases hdata fun _ => 0 with ⟨o', hl, rfl, -⟩ | ⟨-, -, hnone⟩
      · exact ⟨o', hl, le_trans hce.le ho.last.le⟩
      · cases hnone
  · have hdone : fkfs_file_iterator_done iter = true := (done_iff iter).mpr hge
    exact ⟨0, false, m, iter, fun n _ => iterate_of_done hdone, .refl m, ho, fun hok => nomatch hok⟩

end Chains

/-! ## Runs over sync files -/

/-- Every file is a sync file. -/
def Syncing (cfg : FileNumber → FileConfig) : Prop := ∀ f, (cfg f).sync ≠ 0

/-- A machine over sync files, between two calls. -/
structure Tidy (m : Machine) : Prop where
  upholds : Upholds nothing m
  clean : m.fs.cachedBlockDirty = false
  sync : ∀ f, (m.fs.files f).sync ≠ 0

section Runs

variable {ov : Overrun} {m m' : Machine} {c : Call} {ok : Bool}

theorem Tidy.loads (h : Tidy m) (hl : Loads m m') : Tidy m' :=
  ⟨h.upholds.loads hl, hl.dirty.trans h.clean, by rw [hl.files]; exact h.sync⟩

/-- Nothing is dirty, so nothing is evicted. -/
theorem quietly_of_clean (hd : m.fs.cachedBlockDirty = false) (c : Call) : Quietly m c := by
  have hnot : ∀ {P : Prop}, m.fs.cachedBlockDirty = true → P := fun hc =>
    absurd (hd.symm.trans hc) Bool.false_ne_true
  cases c with
  | ensure iter => exact fun hc => hnot hc
  | iterate config am n iter => exact fun _ _ => ⟨fun hc => hnot hc, fun hc => hnot hc⟩
  | truncateAt iter scratch ams n => exact fun _ _ => ⟨fun hc => hnot hc, fun hc => hnot hc⟩
  | append | truncate | truncateAll | touch | flush => trivial

theorem setHeader_grown {h : fkfs_header_t} (hw : writerPlace h = writerPlace m.fs.header) :
    Grown m (m.setHeader h) :=
  ⟨below_of_eq (fun _ _ => rfl) _, le_of_eq hw.symm⟩

theorem truncate_all_grown (hd : m.fs.cachedBlockDirty = false) :
    (fkfs_file_truncate_all m).fs.cachedBlockDirty = false
      ∧ Grown m (fkfs_file_truncate_all m) := by
  unfold fkfs_file_truncate_all
  induction List.finRange 4 generalizing m with
  | nil => exact ⟨hd, grown_of_keeps (.refl m)⟩
  | cons f fs ih =>
    have hstep : Grown m (fkfs_file_truncate m f) := setHeader_grown rfl
    obtain ⟨hclean, hgrown⟩ := ih (m := fkfs_file_truncate m f) hd
    exact ⟨hclean, hstep.trans hgrown⟩

/-- From `s` to `m` blocks were read and rows changed, with nothing dirty. -/
structure Still (s m : Machine) : Prop where
  works : Works m.sd
  coherent : Coherent m
  clean : m.fs.cachedBlockDirty = false
  grown : Grown s m

theorem Still.refl (hc : Coherent m) (hw : Works m.sd) (hd : m.fs.cachedBlockDirty = false) :
    Still m m := ⟨hw, hc, hd, grown_of_keeps (.refl m)⟩

theorem Still.loads {s : Machine} (h : Still s m) (hl : Loads m m') : Still s m' :=
  ⟨by rw [hl.sd]; exact h.works, hl.coherent h.coherent, hl.dirty.trans h.clean,
    h.grown.trans (grown_of_keeps hl.keeps)⟩

theorem Still.setHeader {s : Machine} (h : Still s m) {hd : fkfs_header_t}
    (hsame : SameWriter m.fs.header hd) : Still s (m.setHeader hd) := by
  refine ⟨h.works, coherent_survives.header h.coherent hsame, h.clean,
    h.grown.trans (setHeader_grown ?_)⟩
  rw [writerPlace, writerPlace, hsame.1, hsame.2.1]

/-- **Every call** leaves nothing dirty and changes nothing before the writer's place. -/
theorem Tidy.perform (h : Tidy m) (hc : c.Sane) (he : perform ov m c = some (ok, m')) :
    m'.fs.cachedBlockDirty = false ∧ (m'.wraps = m.wraps → Grown m m') := by
  have hcoherent := h.upholds.coherent
  cases c with
  | append f data pasts =>
    have hclean : (fkfs_file_append ov pasts m f data).2.fs.cachedBlockDirty = false :=
      append_clean hc h.upholds.works h.clean (h.sync f)
    have hgrown : Onward m (fkfs_file_append ov pasts m f data).2 :=
      append_grown h.upholds.works hcoherent hc pasts
    simp only [Run.perform, Option.some.injEq] at he
    rw [he] at hclean hgrown
    exact ⟨hclean, hgrown.grown⟩
  | truncate f =>
    cases he
    exact ⟨h.clean, fun _ => setHeader_grown rfl⟩
  | truncateAll =>
    cases he
    obtain ⟨hclean, hgrown⟩ := truncate_all_grown h.clean
    exact ⟨hclean, fun _ => hgrown⟩
  | truncateAt iter scratch ams n =>
    have hq := quietly_of_clean h.clean (.truncateAt iter scratch ams n)
    simp only [Run.perform, Option.map_eq_some_iff, Prod.mk.injEq] at he
    obtain ⟨s, he, -, rfl⟩ := he
    have hcut : Still m (m.setHeader (cutAt m.fs.header iter)) :=
      (Still.refl hcoherent h.upholds.works h.clean).setHeader ⟨rfl, rfl, rfl⟩
    have hstill := @truncateAt_quiet ov (Still m) m s iter scratch
      (fun hs => ⟨hs.works, hs.coherent⟩) (fun hs hl => hs.loads hl)
      (fun n hs => hs.setHeader ⟨rfl, rfl, rfl⟩) ams _ hcut hq he
    exact ⟨hstill.clean, fun _ => hstill.grown⟩
  | touch time =>
    obtain ⟨-, hk, hclean⟩ := touch_keeps hcoherent time
    simp only [Run.perform, Option.some.injEq] at he
    rw [he] at hk hclean
    exact ⟨hclean.trans h.clean, fun _ => grown_of_keeps hk⟩
  | flush now =>
    obtain ⟨-, hk, hclean⟩ := flush_keeps hcoherent now
    have hok := (flush_succeeds h.upholds.works now).1
    simp only [Run.perform, Option.some.injEq] at he
    rw [he] at hk hclean hok
    exact ⟨hclean hok, fun _ => grown_of_keeps hk⟩
  | ensure iter =>
    have hq := quietly_of_clean h.clean (.ensure iter)
    simp only [Run.perform, Option.some.injEq] at he
    have hl := ensure_loads h.upholds.works hq he
    exact ⟨hl.dirty.trans h.clean, fun _ => grown_of_keeps hl.keeps⟩
  | iterate config am n iter =>
    have hq := quietly_of_clean h.clean (.iterate config am n iter)
    simp only [Run.perform, Option.map_eq_some_iff, Prod.mk.injEq] at he
    obtain ⟨⟨ok1, s1, iter1⟩, he, -, rfl⟩ := he
    have hl := (iterate_loads h.upholds.works hcoherent hq he).1
    exact ⟨hl.dirty.trans h.clean, fun _ => grown_of_keeps hl.keeps⟩

/-- A desk over sync files, its tokens on the chains. -/
structure Orderly (x : Desk) : Prop where
  holds : x.Holds
  tidy : Tidy x.machine
  tokens : ∀ t ∈ x.tokens, OnChain x.machine t

theorem Orderly.marks {x : Desk} (h : Orderly x) :
    Marks (view x.machine) x.machine.fs.header nothing :=
  (h.holds.upholds.sound h.holds.wraps).ram

theorem Orderly.give {x : Desk} (h : Orderly x) {token : fkfs_iterator_token_t}
    (hx : (x.give token).Holds) (ht : OnChain x.machine token) : Orderly (x.give token) := by
  refine ⟨hx, h.tidy, fun t hmem => ?_⟩
  rcases List.mem_cons.mp hmem with rfl | hmem
  · exact ht
  · exact h.tokens t hmem

/-- **Every run over sync files is orderly**: no call of it evicts a dirty block. -/
theorem run_orderly {careful : Prop} {x : Desk} (h : x.Run .stops careful Syncing) :
    Orderly x := by
  induction h with
  | wipe hlog hw hwraps hkind h =>
    obtain ⟨hu, h0, hclean, hfiles⟩ := upholds_wiped hlog hw h
    refine ⟨⟨hu, h0.trans hwraps, fun t ht => nomatch ht⟩, ⟨hu, hclean, fun f => ?_⟩,
      fun t ht => nomatch ht⟩
    rw [hfiles]
    exact hkind f
  | @call x hx c hc hgiven hquiet ok m h hwraps ih =>
    obtain ⟨hu, hf⟩ := ih.holds.perform hc hgiven (quietly_of_clean ih.tidy.clean c) h hwraps
    obtain ⟨hclean, hgrown⟩ := ih.tidy.perform hc h
    have hfiles := perform_rule (settings_survive x.machine.fs.files) hc rfl h
    refine ⟨ih.holds.moved hu hwraps hf, ⟨hu, hclean, fun f => ?_⟩, fun t ht => ?_⟩
    · rw [show m.fs.files = x.machine.fs.files from hfiles]
      exact ih.tidy.sync f
    · exact (ih.tokens t ht).grown (hgrown (hwraps.trans ih.holds.wraps.symm))
  | create hx f iter ih => exact ih.give (ih.holds.give_end rfl) (onChain_create ih.marks f iter)
  | reopen hx htoken iter ih =>
    exact ih.give (ih.holds.give_end (reopen_last _ iter _))
      (onChain_reopen ih.marks (ih.tokens _ htoken) iter)
  | @poll x hx iter iter' htoken config am n hquiet ok m h ih =>
    have hq := quietly_of_clean ih.tidy.clean (.iterate config am n iter)
    obtain ⟨N, ok1, m1, iter1, he, hl, hon, -⟩ := iterate_onChain ih.holds.upholds ih.holds.wraps
      ih.tidy.clean (ih.tokens _ htoken) config am
    have hsame := (he _ (le_max_right n N)).symm.trans (iterate_mono h (le_max_left n N))
    cases hsame
    have hsameEnd := (iterate_loads ih.holds.upholds.works ih.holds.upholds.coherent hq h).2.1
    have hheld : Desk.Holds ⟨m, x.tokens⟩ := ih.holds.moved (ih.holds.upholds.loads hl)
      (hl.wraps.trans ih.holds.wraps) (forward_of_files (by rw [hl.header]))
    have hmoved : Orderly ⟨m, x.tokens⟩ :=
      ⟨hheld, ih.tidy.loads hl, fun t ht => (ih.tokens t ht).grown (grown_of_keeps hl.keeps)⟩
    refine hmoved.give (hheld.give ?_) hon
    rw [hsameEnd.1, hsameEnd.2.1]
    exact hheld.ends _ htoken
  | restart hx hclean hkind h ih =>
    obtain ⟨hu, h0, hclean, hfiles⟩ := ih.holds.upholds.restart ih.tidy.clean ih.holds.wraps h
    refine ⟨⟨hu, h0, fun t ht => nomatch ht⟩, ⟨hu, hclean, fun f => ?_⟩, fun t ht => nomatch ht⟩
    rw [hfiles]
    exact hkind f
  | @resume x hx hcl m cfg draws hkind h hwriter hends ih =>
    obtain ⟨hu, h0, hclean, hfiles⟩ := ih.holds.upholds.restart ih.tidy.clean ih.holds.wraps h
    refine ⟨ih.holds.moved hu h0 hends, ⟨hu, hclean, fun f => ?_⟩, fun t ht => ?_⟩
    · rw [hfiles]
      exact hkind f
    · refine (ih.tokens t ht).grown ⟨below_of_eq (fun b _ => ?_) _, hwriter⟩
      have hvalid := (ih.holds.upholds.sound ih.holds.wraps).valid
      rw [boot_works ih.holds.upholds.works hvalid] at h
      cases h
      rw [view_clean hclean, view_clean ih.tidy.clean]

end Runs

/-! ## Consuming a file -/

/-- An append, with what lies behind `fs->files` in each round of its allocation. -/
structure Addition where
  file : FileNumber
  data : List UInt8
  pasts : ℕ → Mem

/-- One append after the other. -/
def appendAll (ov : Overrun) (s : Machine) (additions : List Addition) : Machine :=
  additions.foldl (fun s a => (fkfs_file_append ov a.pasts s a.file a.data).2) s

/-- One round of an application that consumes a file: a call of `fkfs_file_iterate`, what
lies behind `fs->files` when it looks at the data, what it appends, and what lies there
when it moves on. -/
structure Round where
  config : fkfs_iterator_config_t
  ambient : Ambient
  seen : Mem
  additions : List Addition
  past : Mem

/-- The payloads of a round are ones `fkfs_file_append` can take. -/
def Round.Sane (round : Round) : Prop := ∀ a ∈ round.additions, a.data.length ≤ 505

/-- What an application gets in a round: the payload, if there was one. -/
def received (ok : Bool) (s : Machine) (iter : fkfs_file_iter_t) (seen : Mem) :
    Option (List UInt8) :=
  if ok then some (payload iter s.fs seen) else none

/-- Consume with `manualNext` not set, until the writer wraps: what each round delivers,
and the token after it. -/
def automatic (ov : Overrun) (n : ℕ) : List Round → Machine → fkfs_file_iter_t →
    Option (List (Option (List UInt8) × fkfs_iterator_token_t) × Machine × fkfs_file_iter_t)
  | [], s, iter => some ([], s, iter)
  | round :: rounds, s, iter =>
    if s.wraps ≠ 0 then some ([], s, iter)
    else
      match fkfs_file_iterate ov n (byItself round.config) round.ambient s iter with
      | none => none
      | some (ok, s, iter) =>
        (automatic ov n rounds (appendAll ov s round.additions) iter).map fun r =>
          ((received ok s iter round.seen, iter.token) :: r.1, r.2)

/-- `fkfs_file_iterator_ensure` and `fkfs_file_iterate_move`, or nothing. -/
def goOn (ov : Overrun) (past : Mem) (moves : Bool) (s : Machine) (iter : fkfs_file_iter_t) :
    Machine × fkfs_file_iter_t :=
  if moves then
    let s := (fkfs_file_iterator_ensure s iter).2
    (s, (fkfs_file_iterate_move ov past s.fs true iter).2)
  else (s, iter)

/-- Consume with `manualNext` set, and go on after the appends: in every round, or where
data was found. -/
def manual (ov : Overrun) (always : Bool) (n : ℕ) : List Round → Machine → fkfs_file_iter_t →
    Option (List (Option (List UInt8) × fkfs_iterator_token_t) × Machine × fkfs_file_iter_t)
  | [], s, iter => some ([], s, iter)
  | round :: rounds, s, iter =>
    match fkfs_file_iterate ov n (byHand round.config) round.ambient s iter with
    | none => none
    | some (ok, s, iter) =>
      let next := goOn ov round.past (ok || always) (appendAll ov s round.additions) iter
      (manual ov always n rounds next.1 next.2).map fun r =>
        ((received ok s iter round.seen, next.2.token) :: r.1, r.2)

section Consuming

variable {ov : Overrun} {a b : Machine} {iter : fkfs_file_iter_t}

theorem append_settings {s : Machine} {pasts : ℕ → Mem} {f : FileNumber} {data : List UInt8}
    (hlen : data.length ≤ 505) : (fkfs_file_append ov pasts s f data).2.fs.files = s.fs.files :=
  append_rule ov f ((settings_survive s.fs.files).allocates _) hlen (fun hm _ _ _ => hm) pasts rfl

/-- What appends leave of a tidy machine and its iterator. -/
theorem appendAll_tidy (h : Tidy a) {additions : List Addition}
    (hsane : ∀ x ∈ additions, x.data.length ≤ 505) :
    Tidy (appendAll ov a additions) ∧ Onward a (appendAll ov a additions) := by
  unfold appendAll
  induction additions generalizing a with
  | nil => exact ⟨h, h.upholds.works, h.upholds.coherent, le_refl _, fun _ => grown_of_keeps (.refl a)⟩
  | cons x xs ih =>
    have hlen := hsane x List.mem_cons_self
    have hgrown : Onward a (fkfs_file_append ov x.pasts a x.file x.data).2 :=
      append_grown h.upholds.works h.upholds.coherent hlen x.pasts
    have htidy : Tidy (fkfs_file_append ov x.pasts a x.file x.data).2 := by
      refine ⟨(append_upholds h.upholds hlen rfl).1,
        append_clean hlen h.upholds.works h.clean (h.sync _), fun f => ?_⟩
      rw [append_settings hlen]
      exact h.sync f
    obtain ⟨h1, h2⟩ := ih htidy fun y hy => hsane y (List.mem_cons_of_mem _ hy)
    refine ⟨h1, h2.works, h2.coherent, le_trans hgrown.wraps h2.wraps, fun h0 => ?_⟩
    have hfirst := le_antisymm (le_of_le_of_eq h2.wraps h0) hgrown.wraps
    exact (hgrown.grown hfirst).trans (h2.grown (h0.trans hfirst.symm))

theorem appendAll_twin (h : Twin a b) (hsync : ∀ f, (a.fs.files f).sync ≠ 0)
    {additions : List Addition} (hsane : ∀ x ∈ additions, x.data.length ≤ 505) :
    Twin (appendAll ov a additions) (appendAll ov b additions) := by
  unfold appendAll
  induction additions generalizing a b with
  | nil => exact h
  | cons x xs ih =>
    have hlen := hsane x List.mem_cons_self
    refine ih (h.append ov x.pasts hlen (hsync _)).2 (fun f => ?_)
      fun y hy => hsane y (List.mem_cons_of_mem _ hy)
    rw [append_settings hlen]
    exact hsync f

/-- `fkfs_file_iterator_ensure` is `fkfs_block_ensure`. -/
theorem ensure_eq (s : Machine) (iter : fkfs_file_iter_t) :
    fkfs_file_iterator_ensure s iter = fkfs_block_ensure s iter.token.block := by
  unfold fkfs_file_iterator_ensure
  split
  · rename_i hc
    rw [block_ensure_eq, if_pos hc]
  · rfl

/-- A place the writer has passed is not in block `UINT32_MAX`. -/
theorem block_ne_max {s : Machine} {blk : UInt32} {o : ℕ} (hc : Coherent s)
    (hle : place blk.toNat o ≤ writerPlace s.fs.header) : blk ≠ UINT32_MAX := by
  intro hm
  have hb := blockOf_le hle
  have hlt := hc.block_lt
  rw [hm] at hb
  simp only [writerPlace, blockOf_place, UINT32_MAX_toNat] at hb
  omega

theorem goOn_stays (past : Mem) (s : Machine) (iter : fkfs_file_iter_t) :
    goOn ov past false s iter = (s, iter) := rfl

/-- **The entry is found again**: after the appends the block is loaded, if it has to be,
and the entry still leads to the same place. -/
theorem goOn_found {a1 a2 b2 : Machine} {hand : fkfs_file_iter_t} {o' : ℕ} (past : Mem)
    (hc : Coherent a1) (hcached : a1.fs.cachedBlockNumber = hand.token.block)
    (hge : 8000 ≤ hand.token.block.toNat)
    (hl : Link (view a1 hand.token.block.toNat) hand.token.offset.toNat o')
    (hle : place hand.token.block.toNat o' ≤ writerPlace a1.fs.header) (hgrown : Grown a1 a2)
    (ht : Twin a2 b2) :
    ∃ b3, goOn .stops past true b2 hand = (b3, movedOn a1.fs.buffer hand) ∧ Twin a2 b3 := by
  have hne := block_ne_max hc hle
  obtain ⟨b3, e, hloads, -, hbuffer⟩ := block_ensure_buffer (by rw [ht.sd]; exact ht.works)
    ht.coherent' ht.clean' hge hne
  have hsame : ∀ i, hand.token.offset.toNat ≤ i → i < o' →
      (view a1 hand.token.block.toNat).mem i = b3.fs.buffer.mem i := by
    intro i _ hi
    rw [hgrown.below _ i hge (lt_of_lt_of_le (place_lt.mpr (.inr ⟨rfl, hi⟩)) hle),
      view_clean ht.clean, hbuffer, ht.sd]
  have hbound := hl.bounds
  have hl' : Link b3.fs.buffer hand.token.offset.toNat o' :=
    hl.congr fun i h1 h2 => hsame i h1 (by omega)
  have hbuf := hc.buffer_eq hcached hge hne
  -- The same stride is the same number of available bytes.
  have havail : (entryAt b3.fs.buffer.mem hand.token.offset.toNat).available
      = (entryAt a1.fs.buffer.mem hand.token.offset.toNat).available := by
    apply UInt16.toNat_inj.mp
    have h1 := hl.2.2
    have h2 := hl'.2.2
    rw [← hbuf] at h1
    simp only [stride] at h1 h2
    omega
  refine ⟨b3, ?_, ht.loads_right hloads⟩
  have hmove : (fkfs_file_iterate_move .stops past b3.fs true hand).2
      = movedOn a1.fs.buffer hand := by
    rw [move_link hl' past rfl, movedOn, movedOn, havail]
  unfold goOn
  rw [if_pos rfl, ensure_eq, e]
  exact congrArg (Prod.mk b3) hmove

/-- **One round**, by itself on `a` and by hand on `b`. -/
theorem round_alike (h : Tidy a) (h0 : a.wraps = 0) (ho : OnChain a iter.token) (ht : Twin a b)
    {round : Round} (hsane : round.Sane) :
    ∃ N ok a1 it b1 hand,
      (∀ n, N ≤ n → fkfs_file_iterate .stops n (byItself round.config) round.ambient a iter
        = some (ok, a1, it))
      ∧ (∀ n, N ≤ n → fkfs_file_iterate .stops n (byHand round.config) round.ambient b iter
        = some (ok, b1, hand))
      ∧ received ok b1 hand round.seen = received ok a1 it round.seen
      ∧ Tidy (appendAll .stops a1 round.additions)
      ∧ ((appendAll .stops a1 round.additions).wraps = 0 →
        OnChain (appendAll .stops a1 round.additions) it.token
        ∧ ∃ b3, goOn .stops round.past ok (appendAll .stops b1 round.additions) hand = (b3, it)
          ∧ Twin (appendAll .stops a1 round.additions) b3) := by
  obtain ⟨N, ok, a1, hand, he, hl, hhand, hfound⟩ := iterate_onChain h.upholds h0 h.clean ho
    (byHand round.config) round.ambient
  obtain ⟨N', ok', a1', it, he', -, hon, -⟩ := iterate_onChain h.upholds h0 h.clean ho
    (byItself round.config) round.ambient
  -- By itself is by hand and then the move.
  have hmove := iterate_move round.past (max N N') round.config round.ambient a iter
  rw [he _ (le_max_left N N'), he' _ (le_max_right N N'), Option.map_some] at hmove
  have htwin := ht.iterate .stops N (byHand round.config) round.ambient ho.here.block_ge
  rw [he N (le_refl N)] at htwin
  generalize hb : fkfs_file_iterate .stops N (byHand round.config) round.ambient b iter = rb at htwin
  cases htwin with | @some _ rb hagree => ?_
  obtain ⟨okb, b1, handb⟩ := rb
  obtain ⟨hok, htwin, hit, hcache⟩ := hagree
  dsimp only at hok htwin hit hcache
  subst hok
  subst hit
  have htidy1 := h.loads hl
  obtain ⟨htidy2, honward⟩ := @appendAll_tidy .stops a1 htidy1 round.additions hsane
  have htwins : Twin (appendAll .stops a1 round.additions) (appendAll .stops b1 round.additions) :=
    appendAll_twin htwin htidy1.sync hsane
  have hgrown : (appendAll .stops a1 round.additions).wraps = 0 →
      Grown a1 (appendAll .stops a1 round.additions) := fun h2 =>
    honward.grown (h2.trans (hl.wraps.trans h0).symm)
  have hby : ∀ n, N ≤ n → fkfs_file_iterate .stops n (byHand round.config) round.ambient b iter
      = some (okb, b1, handb) := fun n hn => iterate_mono hb hn
  cases okb with
  | false =>
    cases Option.some.inj hmove
    have hnone : received false b1 it round.seen = received false a1 it round.seen := by
      simp only [received, Bool.false_eq_true, if_false]
    exact ⟨max N N', false, a1, it, b1, it, fun n hn => he' n (le_trans (le_max_right N N') hn),
      fun n hn => hby n (le_trans (le_max_left N N') hn), hnone, htidy2,
      fun h2 => ⟨hon.grown (hgrown h2), _, goOn_stays _ _ _, htwins⟩⟩
  | true =>
    obtain ⟨o', hlink, hle⟩ := hfound rfl fun hm => nomatch hm
    have hc := htidy1.upholds.coherent
    have hcached := iterate_cached (he N (le_refl N))
    have hge := hhand.here.block_ge
    rw [← hl.view] at hlink
    rw [← hl.header] at hle
    have hbuf := hc.buffer_eq hcached hge (block_ne_max hc hhand.here.le)
    -- The automatic call has moved over the entry in the buffer.
    have hlink' : Link a1.fs.buffer handb.token.offset.toNat o' := by
      rw [hbuf]
      exact hlink
    rw [thenMove, if_pos rfl, move_link hlink' round.past rfl] at hmove
    cases Option.some.inj hmove
    have hsame : received true b1 handb round.seen
        = received true a1 (movedOn a1.fs.buffer handb) round.seen := by
      obtain ⟨-, hbuffer⟩ := hcache rfl
      simp only [received, if_true, payload, fkfs_t.memory, hbuffer, htwin.settings]
      rfl
    exact ⟨max N N', true, a1, _, b1, handb, fun n hn => he' n (le_trans (le_max_right N N') hn),
      fun n hn => hby n (le_trans (le_max_left N N') hn), hsame, htidy2, fun h2 =>
      ⟨hon.grown (hgrown h2), goOn_found round.past hc hcached hge hlink hle (hgrown h2) htwins⟩⟩

/-- The consumption is over when the writer has wrapped. -/
theorem automatic_wrapped {n : ℕ} (rounds : List Round) (h : a.wraps ≠ 0) :
    automatic ov n rounds a iter = some ([], a, iter) := by
  cases rounds with
  | nil => rfl
  | cons round rounds => simp only [automatic, ne_eq, h, not_false_eq_true, if_true]

/-- **Consuming by hand**, from twins: as long as the writer does not wrap, the same payloads
and the same tokens. -/
theorem manual_of_automatic (h : Tidy a) (ho : a.wraps = 0 → OnChain a iter.token) (ht : Twin a b)
    {rounds : List Round} (hsane : ∀ round ∈ rounds, round.Sane) :
    ∃ N, ∀ n, N ≤ n → ∃ steps a' iter', automatic .stops n rounds a iter = some (steps, a', iter')
      ∧ (a'.wraps = 0 → ∃ b', manual .stops false n rounds b iter = some (steps, b', iter')) := by
  induction rounds generalizing a b iter with
  | nil => exact ⟨0, fun n _ => ⟨[], a, iter, rfl, fun _ => ⟨b, rfl⟩⟩⟩
  | cons round rounds ih =>
    by_cases h0 : a.wraps = 0
    · obtain ⟨N, ok, a1, it, b1, hand, he, hby, hdata, htidy, hnext⟩ :=
        round_alike h h0 (ho h0) ht (hsane round List.mem_cons_self)
      have hrest := fun r hr => hsane r (List.mem_cons_of_mem round hr)
      by_cases h2 : (appendAll .stops a1 round.additions).wraps = 0
      · obtain ⟨hon, b3, hgo, htwin⟩ := hnext h2
        obtain ⟨N', hN'⟩ := ih htidy (fun _ => hon) htwin hrest
        refine ⟨max N N', fun n hn => ?_⟩
        obtain ⟨steps, a', iter', h3, h4⟩ := hN' n (le_trans (le_max_right N N') hn)
        have hn' := le_trans (le_max_left N N') hn
        refine ⟨(received ok a1 it round.seen, it.token) :: steps, a', iter', ?_, fun h5 => ?_⟩
        · simp only [automatic, h0, ne_eq, not_true, if_false, he n hn', h3, Option.map_some]
        · obtain ⟨b', hb'⟩ := h4 h5
          refine ⟨b', ?_⟩
          simp only [manual, hby n hn', Bool.or_false, hgo, hb', Option.map_some, hdata]
      · -- The writer wrapped: the consumption is over.
        refine ⟨N, fun n hn => ⟨[(received ok a1 it round.seen, it.token)],
          appendAll .stops a1 round.additions, it, ?_, fun h2' => absurd h2' h2⟩⟩
        simp only [automatic, h0, ne_eq, not_true, if_false, he n hn,
          automatic_wrapped rounds h2, Option.map_some]
    · exact ⟨0, fun n _ => ⟨[], a, iter, automatic_wrapped _ h0, fun h0' => absurd h0' h0⟩⟩

/-- **Manual stepping is automatic stepping**: in every run over sync files, from every
iterator, and whatever is appended in between, consuming by hand, with
`fkfs_file_iterator_ensure` and `fkfs_file_iterate_move` after a call that found data,
delivers the same payloads and the same token after each round as consuming without
`manualNext`, as long as the writer does not wrap. -/
theorem manual_equals_automatic {x : Desk} (h : x.Run .stops False Syncing)
    {iter : fkfs_file_iter_t} (htoken : iter.token ∈ x.tokens) {rounds : List Round}
    (hsane : ∀ round ∈ rounds, round.Sane) :
    ∃ N, ∀ n, N ≤ n → ∃ steps a' iter',
      automatic .stops n rounds x.machine iter = some (steps, a', iter')
      ∧ (a'.wraps = 0 → ∃ b',
        manual .stops false n rounds x.machine iter = some (steps, b', iter')) := by
  have hx := run_orderly h
  have hu := hx.holds.upholds
  have htwin : Twin x.machine x.machine :=
    ⟨rfl, rfl, rfl, rfl, rfl, hu.works, hx.tidy.clean, hx.tidy.clean, hu.coherent, hu.coherent⟩
  exact manual_of_automatic hx.tidy (fun _ => hx.tokens _ htoken) htwin hsane

end Consuming

/-! ## Going on where nothing was found -/

/-- An entry of file 1 fills the first block of a card of 9000 blocks. -/
def filledDesk : Machine :=
  (fkfs_file_append .stops (fun _ _ => 0) (wipedMachine 9000) 1 (List.replicate 505 7)).2

/-- File 0 has two entries in the next block. -/
def twoEntries : Machine :=
  (fkfs_file_append .stops (fun _ _ => 0)
    (fkfs_file_append .stops (fun _ _ => 0) filledDesk 0 [1]).2 0 [2]).2

/-- An iterator of file 0. -/
def twoIterator : fkfs_file_iter_t :=
  fkfs_file_iterator_create twoEntries.fs 0 ⟨⟨0, 0, 0, 0, 0, 0⟩, 0, 0, 0⟩

/-- A round with a budget of one block, and nothing appended. -/
def oneBlockRound : Round :=
  ⟨⟨1, 0, 0⟩, ⟨0, fun _ => 0, fun _ _ => 0⟩, fun _ => 0, [], fun _ => 0⟩

theorem desk_append {x : Desk} (hx : x.Run .stops False Syncing) (f : FileNumber)
    (data : List UInt8) (hlen : data.length ≤ 505)
    (h0 : (fkfs_file_append .stops (fun _ _ => 0) x.machine f data).2.wraps = 0) :
    Desk.Run .stops False Syncing
      ⟨(fkfs_file_append .stops (fun _ _ => 0) x.machine f data).2, x.tokens⟩ :=
  .call hx (c := .append f data fun _ _ => 0) hlen trivial (fun h => h.elim) rfl h0

set_option maxRecDepth 100000 in
theorem twoEntries_run :
    Desk.Run .stops False Syncing ⟨twoEntries, [twoIterator.token]⟩ := by
  have hworks : Works (blankMachine 9000).sd := rfl
  have hwipe : Desk.Run .stops False Syncing ⟨wipedMachine 9000, []⟩ :=
    .wipe rfl hworks rfl (show ∀ f, (plainConfig f).sync ≠ 0 by decide) (wipedMachine_boot 9000)
  have hfilled : Desk.Run .stops False Syncing ⟨filledDesk, []⟩ :=
    desk_append hwipe 1 _ (by decide) (by decide +kernel)
  have hone := desk_append hfilled 0 [1] (by decide) (by decide +kernel)
  have htwo : Desk.Run .stops False Syncing ⟨twoEntries, []⟩ :=
    desk_append hone 0 [2] (by decide) (by decide +kernel)
  exact htwo.create 0 _

set_option maxRecDepth 100000 in
/-- Going on also where nothing was found loses an entry: the first call comes to the end
of its budget at the start of the block, and the move steps over what lies there. -/
theorem going_on_loses_entry :
    ∃ x iter, Desk.Run .stops False Syncing x ∧ iter.token ∈ x.tokens
      ∧ (automatic .stops 4 (List.replicate 3 oneBlockRound) x.machine iter).map
        (fun r => r.1.map Prod.fst) = some [none, some [1], some [2]]
      ∧ (manual .stops true 4 (List.replicate 3 oneBlockRound) x.machine iter).map
        (fun r => r.1.map Prod.fst) = some [none, some [2], none] := by
  refine ⟨_, twoIterator, twoEntries_run, List.mem_singleton.mpr rfl, ?_, ?_⟩
  · decide +kernel
  · decide +kernel

set_option maxRecDepth 100000 in
/-- Where data was found it does not. -/
theorem manual_equals_automatic_two :
    ∃ N, ∀ n, N ≤ n → ∃ steps a' iter',
      automatic .stops n (List.replicate 3 oneBlockRound) twoEntries twoIterator
        = some (steps, a', iter')
      ∧ (a'.wraps = 0 → ∃ b', manual .stops false n (List.replicate 3 oneBlockRound) twoEntries
        twoIterator = some (steps, b', iter')) := by
  refine manual_equals_automatic twoEntries_run (List.mem_singleton.mpr rfl) fun round hround => ?_
  rw [List.eq_of_mem_replicate hround]
  exact fun a ha => nomatch ha

end Fkfs.Stepping
