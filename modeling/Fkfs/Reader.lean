/-
The reader: what `fkfs_file_iterate` delivers, and that it gets to the end.

The reader walks from place to place, over the links of a block and from the
place where the size test fails to the start of the next block (`Next`). The
walk is decided by the blocks alone, so from a given place it runs along one
line. If the iterator's end lies on that line, every call returns after some
number of rounds, further along the line, and what the calls deliver are the
labels of the steps they took (`iterate_spec`, `drain_spec`). A step over a
stored record has the label the record's file and version decide (`pick`); of a
step over anything else nothing is said.

The reader shares its buffer with the writer. `Loads` is what a call does to
the machine when it evicts no dirty block, and `Quiet` is when it does not.
-/
import Fkfs.Iterate
import Fkfs.Writer

set_option autoImplicit false

namespace Fkfs.Reader

open Bytes Relation
open Fkfs.Crc Fkfs.Layout Fkfs.Device Fkfs.Search Fkfs.Append Fkfs.Iterate Fkfs.Cache Fkfs.Walk
open Fkfs.Writer

/-! ## Places of an iterator -/

/-- Where an iterator is. -/
def tokenPlace (iter : fkfs_file_iter_t) : Place :=
  place iter.token.block.toNat iter.token.offset.toNat

/-- Where an iterator stops. -/
def lastPlace (iter : fkfs_file_iter_t) : Place :=
  place iter.token.lastBlock.toNat iter.token.lastOffset.toNat

/-- `fkfs_file_iterator_done` compares places. -/
theorem done_iff (iter : fkfs_file_iter_t) :
    fkfs_file_iterator_done iter = true ↔ lastPlace iter ≤ tokenPlace iter := by
  simp only [fkfs_file_iterator_done, Bool.or_eq_true, Bool.and_eq_true, decide_eq_true_eq,
    beq_iff_eq, UInt32.lt_iff_toNat_lt, UInt16.le_iff_toNat_le, tokenPlace, lastPlace, place_le,
    ← UInt32.toNat_inj]
  constructor
  · rintro (h | ⟨h1, h2⟩)
    · exact .inl h
    · exact .inr ⟨h1.symm, h2⟩
  · rintro (h | ⟨h1, h2⟩)
    · exact .inl h
    · exact .inr ⟨h1.symm, h2⟩

/-- An iterator that is not past its end is valid, if the writer is not before
that end. -/
theorem valid_of_le {fs : fkfs_t} {iter : fkfs_file_iter_t} (h0 : 0 < iter.token.block.toNat)
    (hl : iter.token.lastBlock.toNat ≤ fs.header.block.toNat)
    (h : tokenPlace iter ≤ lastPlace iter) : fkfs_file_iterator_valid fs iter = true := by
  simp only [tokenPlace, lastPlace, place_le] at h
  simp only [fkfs_file_iterator_valid, Bool.or_eq_true, Bool.and_eq_true, decide_eq_true_eq,
    beq_iff_eq, UInt32.lt_iff_toNat_lt, UInt32.le_iff_toNat_le, UInt16.le_iff_toNat_le,
    ← UInt32.toNat_inj, UInt32.toNat_zero]
  exact ⟨⟨h0, by omega⟩, h⟩

/-! ## The line a reader walks -/

/-- The block of a place. -/
def blockOf (p : Place) : ℕ := (ofLex p).1

/-- The offset of a place. -/
def offsetOf (p : Place) : ℕ := (ofLex p).2

@[simp] theorem blockOf_place (b o : ℕ) : blockOf (place b o) = b := rfl

@[simp] theorem offsetOf_place (b o : ℕ) : offsetOf (place b o) = o := rfl

theorem place_eta (p : Place) : place (blockOf p) (offsetOf p) = p := rfl

theorem blockOf_le {p q : Place} (h : p ≤ q) : blockOf p ≤ blockOf q := by
  rw [← place_eta p, ← place_eta q, place_le] at h
  omega

/-- One step of a reader. -/
def Next (ov : Overrun) (files : Settings) (V : ℕ → Block) (p q : Place) : Prop :=
  (∃ o', Link (V (blockOf p)) (offsetOf p) o' ∧ q = place (blockOf p) o')
    ∨ Fails ov files (V (blockOf p)) (offsetOf p) ∧ q = place (blockOf p + 1) 0

/-- The walk of a reader. -/
abbrev Reach (ov : Overrun) (files : Settings) (V : ℕ → Block) : Place → Place → Prop :=
  ReflTransGen (Next ov files V)

/-- What a step over record `r` delivers of file `f`. -/
def pick (h : fkfs_header_t) (f : FileNumber) (r : Rec) : List (List UInt8) :=
  if r.file = f ∧ (h.files f).version = r.version then [r.data] else []

/-- One step of a reader of file `f`, with what it delivers: known over a stored
record, nothing at the end of a chain. -/
def ReadStep (ov : Overrun) (files : Settings) (V : ℕ → Block) (h : fkfs_header_t)
    (f : FileNumber) (p : Place) (xs : List (List UInt8)) (q : Place) : Prop :=
  (∃ o', Link (V (blockOf p)) (offsetOf p) o' ∧ q = place (blockOf p) o'
      ∧ ∀ r, Stored (V (blockOf p)) (offsetOf p) r → xs = pick h f r)
    ∨ Fails ov files (V (blockOf p)) (offsetOf p) ∧ q = place (blockOf p + 1) 0 ∧ xs = []

section Line

variable {ov : Overrun} {files : Settings} {V : ℕ → Block}

theorem Next.lt {p q : Place} (h : Next ov files V p q) : p < q := by
  rw [← place_eta p]
  rcases h with ⟨o', hl, rfl⟩ | ⟨-, rfl⟩
  · exact place_lt.mpr (.inr ⟨rfl, hl.lt⟩)
  · exact place_lt.mpr (.inl (by omega))

theorem next_unique (ov : Overrun) (files : Settings) (V : ℕ → Block) :
    Relator.RightUnique (Next ov files V) := by
  rintro p q r (⟨o, hl, rfl⟩ | ⟨hf, rfl⟩) (⟨o', hl', rfl⟩ | ⟨hf', rfl⟩)
  · rw [link_unique _ hl hl']
  · exact absurd hl hf'.not_link
  · exact absurd hl' hf.not_link
  · rfl

theorem Reach.le {p q : Place} (h : Reach ov files V p q) : p ≤ q :=
  Trails.reach_le (fun hn => hn.lt) h

theorem ReadStep.next {h : fkfs_header_t} {f : FileNumber} {p q : Place}
    {xs : List (List UInt8)} (hs : ReadStep ov files V h f p xs q) : Next ov files V p q := by
  rcases hs with ⟨o', hl, hq, -⟩ | ⟨hf, hq, -⟩
  · exact .inl ⟨o', hl, hq⟩
  · exact .inr ⟨hf, hq⟩

theorem ReadStep.lt {h : fkfs_header_t} {f : FileNumber} {p q : Place}
    {xs : List (List UInt8)} (hs : ReadStep ov files V h f p xs q) : p < q := hs.next.lt

/-- A chain of a block is a walk of the reader. -/
theorem reach_of_chain {b o o' : ℕ} (h : Chain (V b) o o') :
    Reach ov files V (place b o) (place b o') := by
  induction h using ReflTransGen.head_induction_on with
  | refl => exact .refl
  | head hl _ ih => exact .head (.inl ⟨_, hl, rfl⟩) ih

/-- A block whose chain ends leads to the next block. -/
theorem reach_succ {b o : ℕ} (h : Ends ov files (V b) o) :
    Reach ov files V (place b o) (place (b + 1) 0) := by
  obtain ⟨e, hc, hf⟩ := h
  exact (reach_of_chain hc).tail (.inr ⟨hf, rfl⟩)

/-- **The reader gets to a later block** if the chains of the blocks on the way
end. -/
theorem reach_block {b b' : ℕ} (hb : b ≤ b')
    (h : ∀ c, b ≤ c → c < b' → Ends ov files (V c) 0) :
    Reach ov files V (place b 0) (place b' 0) := by
  induction b', hb using Nat.le_induction with
  | base => exact .refl
  | succ n hn ih =>
    exact (ih fun c h1 h2 => h c h1 (by omega)).trans (reach_succ (h n hn (by omega)))

end Line

/-! ## The shared buffer -/

/-- From `s` to `s'` blocks were read into the cache, and none was evicted
dirty. -/
structure Loads (s s' : Machine) : Prop where
  header : s'.fs.header = s.fs.header
  index : s'.fs.headerIndex = s.fs.headerIndex
  dirty : s'.fs.cachedBlockDirty = s.fs.cachedBlockDirty
  blocks : s'.fs.numberOfBlocks = s.fs.numberOfBlocks
  files : s'.fs.files = s.fs.files
  sd : s'.sd = s.sd
  writes : s'.writes = s.writes
  wraps : s'.wraps = s.wraps
  view : ∀ b, view s' b = view s b
  coherent : Coherent s → Coherent s'

theorem Loads.refl (s : Machine) : Loads s s :=
  ⟨rfl, rfl, rfl, rfl, rfl, rfl, rfl, rfl, fun _ => rfl, id⟩

theorem Loads.trans {s s' s'' : Machine} (h : Loads s s') (h' : Loads s' s'') : Loads s s'' where
  header := h'.header.trans h.header
  index := h'.index.trans h.index
  dirty := h'.dirty.trans h.dirty
  blocks := h'.blocks.trans h.blocks
  files := h'.files.trans h.files
  sd := h'.sd.trans h.sd
  writes := h'.writes.trans h.writes
  wraps := h'.wraps.trans h.wraps
  view := fun b => (h'.view b).trans (h.view b)
  coherent := h'.coherent ∘ h.coherent

theorem Loads.keeps {s s' : Machine} (h : Loads s s') : Keeps s s' :=
  ⟨by rw [h.header], by rw [h.header], by rw [h.header], h.files, h.blocks, by rw [h.sd], h.wraps,
    fun b _ => h.view b⟩

/-- Reading block `b` evicts nothing. -/
def QuietAt (s : Machine) (b : UInt32) : Prop :=
  s.fs.cachedBlockDirty = true → s.fs.cachedBlockNumber = b

/-- Reading from the token on evicts nothing: the cache is clean, or it has the
block the token is in and that is the last one. -/
def Quiet (s : Machine) (token : fkfs_iterator_token_t) : Prop :=
  QuietAt s token.block ∧ (s.fs.cachedBlockDirty = true → token.lastBlock = token.block)

/-- **`fkfs_block_ensure`** on a working card, when it evicts nothing. -/
theorem block_ensure_loads {s : Machine} {b : UInt32} (hw : Works s.sd) (hq : QuietAt s b) :
    ∃ s', fkfs_block_ensure s b = (true, s') ∧ Loads s s' ∧ s'.fs.cachedBlockNumber = b := by
  rw [block_ensure_works hw]
  refine ⟨_, rfl, ?_⟩
  by_cases hc : s.fs.cachedBlockNumber = b
  · rw [if_pos hc]
    exact ⟨.refl s, hc⟩
  · rw [if_neg hc]
    have hd : s.fs.cachedBlockDirty = false := by
      cases h : s.fs.cachedBlockDirty
      · rfl
      · exact absurd (hq h) hc
    refine ⟨⟨rfl, rfl, hd.symm, rfl, rfl, rfl, rfl, rfl, fun c => ?_, fun h => ?_⟩, rfl⟩
    · rw [view_clean hd, view_clean rfl]
      rfl
    · exact ⟨h.block_ge, h.block_lt, h.offset_le, (fun hc => nomatch hc), fun _ _ _ => rfl⟩

/-- An iterator of the same file and end, at another place. -/
def SameEnd (iter iter' : fkfs_file_iter_t) : Prop :=
  iter'.token.file = iter.token.file ∧ iter'.token.lastBlock = iter.token.lastBlock
    ∧ iter'.token.lastOffset = iter.token.lastOffset ∧ iter'.token.size = iter.token.size

theorem SameEnd.refl (iter : fkfs_file_iter_t) : SameEnd iter iter := ⟨rfl, rfl, rfl, rfl⟩

theorem SameEnd.trans {a b c : fkfs_file_iter_t} (h : SameEnd a b) (h' : SameEnd b c) :
    SameEnd a c :=
  ⟨h'.1.trans h.1, h'.2.1.trans h.2.1, h'.2.2.1.trans h.2.2.1, h'.2.2.2.trans h.2.2.2⟩

theorem SameEnd.last {a b : fkfs_file_iter_t} (h : SameEnd a b) : lastPlace b = lastPlace a := by
  simp only [lastPlace, h.2.1, h.2.2.1]

theorem sameEnd_moveTo (iter : fkfs_file_iter_t) (b : UInt32) (o : UInt16) :
    SameEnd iter (moveTo iter b o) := ⟨rfl, rfl, rfl, rfl⟩

section Frame

variable {ov : Overrun} {config : fkfs_iterator_config_t} {am : Ambient}

/-- The loop of `fkfs_file_iterate`, wherever the token points, changes nothing
but the cache and the token's place. Where it finds an entry the next call evicts
nothing either. -/
theorem iterateLoop_loads {n r : ℕ} {s s' : Machine} {iter iter' : fkfs_file_iter_t}
    {mb : UInt32} {ok : Bool} (hw : Works s.sd) (hs : Coherent s) (hq : Quiet s iter.token)
    (h : iterateLoop ov config am n r s iter mb = some (ok, s', iter')) :
    Loads s s' ∧ SameEnd iter iter' ∧ (ok = true → Quiet s' iter'.token) := by
  induction n generalizing r s iter mb with
  | zero => cases h
  | succ n ih =>
    obtain ⟨s1, e, hl, -⟩ := block_ensure_loads hw hq.1
    have hw1 : Works s1.sd := by
      rw [hl.sd]
      exact hw
    have hcached : s1.fs.cachedBlockDirty = true → s1.fs.cachedBlockNumber = iter.token.block := by
      intro hd
      have hd0 : s.fs.cachedBlockDirty = true := by rw [← hl.dirty]; exact hd
      rw [(hl.coherent hs).dirty hd, hl.header, ← hs.dirty hd0]
      exact hq.1 hd0
    have hlast : s1.fs.cachedBlockDirty = true → iter.token.lastBlock = iter.token.block := by
      rw [hl.dirty]
      exact hq.2
    simp only [iterateLoop, e] at h
    split at h
    · -- An entry: the token stays in its block.
      split at h
      · cases h
        exact ⟨hl, by split <;> exact ⟨rfl, rfl, rfl, rfl⟩, fun _ => by
          split <;> exact ⟨hcached, hlast⟩⟩
      · split at h
        · cases h
          exact ⟨hl, sameEnd_moveTo _ _ _, fun hok => nomatch hok⟩
        · have hquiet : ∀ o, Quiet s1 (moveTo iter iter.token.block o).token := fun o =>
            ⟨hcached, hlast⟩
          obtain ⟨h1, h2, h3⟩ := ih hw1 (hl.coherent hs) (hquiet _) h
          exact ⟨hl.trans h1, (sameEnd_moveTo _ _ _).trans h2, h3⟩
    · -- The end of a chain: a dirty block is the last one, so the walk is over.
      split at h
      · cases h
        exact ⟨hl, sameEnd_moveTo _ _ _, fun hok => nomatch hok⟩
      · rename_i hnd
        have hclean : s1.fs.cachedBlockDirty = false := by
          cases hd : s1.fs.cachedBlockDirty
          · rfl
          · exfalso
            apply hnd
            rw [done_iff]
            have hb : iter.token.block.toNat < 4294967295 := by
              rw [← hcached hd, (hl.coherent hs).dirty hd]
              exact (hl.coherent hs).block_lt
            refine place_le.mpr (.inl ?_)
            change iter.token.lastBlock.toNat < (iter.token.block + 1).toNat
            rw [succ_toNat hb, hlast hd]
            omega
        have hquiet : ∀ token, Quiet s1 token := fun token =>
          ⟨fun hd => absurd hd (by rw [hclean]; simp), fun hd => absurd hd (by rw [hclean]; simp)⟩
        have hsame : SameEnd iter (if wrapsAt s1.fs (moveTo iter (iter.token.block + 1) 0).token.block
            = true then moveTo (moveTo iter (iter.token.block + 1) 0) FKFS_FIRST_BLOCK 0
            else moveTo iter (iter.token.block + 1) 0) := by
          split <;> exact ⟨rfl, rfl, rfl, rfl⟩
        generalize (if 0 < config.maxBlocks then mb - 1 else mb) = mb' at h
        split at h
        · cases h
          exact ⟨hl, hsame, fun hok => nomatch hok⟩
        · obtain ⟨h1, h2, h3⟩ := ih hw1 (hl.coherent hs) (hquiet _) h
          exact ⟨hl.trans h1, hsame.trans h2, h3⟩

/-- More rounds do not change what a call returns. -/
theorem iterateLoop_mono {n m r : ℕ} {s : Machine} {iter : fkfs_file_iter_t} {mb : UInt32}
    {res : Bool × Machine × fkfs_file_iter_t}
    (h : iterateLoop ov config am n r s iter mb = some res) (hnm : n ≤ m) :
    iterateLoop ov config am m r s iter mb = some res := by
  induction n generalizing m r s iter mb with
  | zero => cases h
  | succ n ih =>
    obtain ⟨m, rfl⟩ : ∃ k, m = k + 1 := ⟨m - 1, by omega⟩
    simp only [iterateLoop] at h ⊢
    split
    · rename_i e
      rw [e] at h
      exact h
    · rename_i e
      rw [e] at h
      dsimp only at h
      split
      · rename_i hc
        rw [if_pos hc] at h
        split
        · rename_i hg
          rw [if_pos hg] at h
          exact h
        · rename_i hg
          rw [if_neg hg] at h
          split
          · rename_i hd
            rw [if_pos hd] at h
            exact h
          · rename_i hd
            rw [if_neg hd] at h
            exact ih h (by omega)
      · rename_i hc
        rw [if_neg hc] at h
        split
        · rename_i hd
          rw [if_pos hd] at h
          exact h
        · rename_i hd
          rw [if_neg hd] at h
          generalize (if 0 < config.maxBlocks then mb - 1 else mb) = mb' at h ⊢
          split
          · rename_i hm
            rw [if_pos hm] at h
            exact h
          · rename_i hm
            rw [if_neg hm] at h
            exact ih h (by omega)

theorem iterate_mono {n m : ℕ} {s : Machine} {iter : fkfs_file_iter_t}
    {res : Bool × Machine × fkfs_file_iter_t}
    (h : fkfs_file_iterate ov n config am s iter = some res) (hnm : n ≤ m) :
    fkfs_file_iterate ov m config am s iter = some res := by
  unfold fkfs_file_iterate at h ⊢
  split
  · rename_i hv
    rw [if_pos hv] at h
    exact h
  · rename_i hv
    rw [if_neg hv] at h
    split
    · rename_i hd
      rw [if_pos hd] at h
      exact h
    · rename_i hd
      rw [if_neg hd] at h
      exact iterateLoop_mono h hnm

/-- **`fkfs_file_iterate`**, wherever the token points, changes nothing but the
cache and the token's place, unless it evicts a dirty block. -/
theorem iterate_loads {n : ℕ} {s s' : Machine} {iter iter' : fkfs_file_iter_t} {ok : Bool}
    (hw : Works s.sd) (hs : Coherent s)
    (hq : fkfs_file_iterator_valid s.fs iter = true → fkfs_file_iterator_done iter = false →
      Quiet s iter.token)
    (h : fkfs_file_iterate ov n config am s iter = some (ok, s', iter')) :
    Loads s s' ∧ SameEnd iter iter' ∧ (ok = true → Quiet s' iter'.token) := by
  unfold fkfs_file_iterate at h
  split at h
  · cases h
    exact ⟨.refl s, .refl iter, fun hok => nomatch hok⟩
  · rename_i hv
    split at h
    · cases h
      exact ⟨.refl s, .refl iter, fun hok => nomatch hok⟩
    · rename_i hd
      exact iterateLoop_loads hw hs (hq (by simpa using hv) (by simpa using hd)) h

end Frame

/-! ## What one round delivers -/

section Round

variable {ov : Overrun} {files : Settings} {V : ℕ → Block} {fs : fkfs_t} {f : FileNumber}
  {past : Mem} {b o o' : ℕ}

/-- A file number survives the byte it is stored in. -/
theorem file_ofNat_inj {f g : FileNumber} (h : UInt8.ofNat f.val = UInt8.ofNat g.val) : f = g := by
  have h1 := congrArg UInt8.toNat h
  have hf := f.isLt
  have hg := g.isLt
  simp only [UInt8.toNat_ofNat'] at h1
  exact Fin.ext (by omega)

/-- Over a link the reader finds good data of its file, or nothing. -/
theorem check_of_link (ov : Overrun) (past : Mem) (hb : fs.buffer = V b) (hl : Link (V b) o o') :
    (fkfs_block_check ov past fs o = .crc ∨ fkfs_block_check ov past fs o = .good)
      ∧ o' = o + (7 + (entryAt (fs.memory past) o).available.toNat) := by
  obtain ⟨ho, hs, rfl⟩ := hl
  rw [← hb] at hs
  constructor
  · have hp : Passes ov (fs.memory past) o := (passes_mem_iff ho).mpr hs
    rcases check_of_passes hp with ⟨h, -⟩ | ⟨h, -⟩
    · exact .inr h
    · exact .inl h
  · rw [stride, ← hb, ← entryAt_congr fun i _ _ => memory_lt fs.buffer fs.files past (by omega)]
    rfl

/-- A step over an entry that is not good data of the file is silent. -/
theorem readStep_silent (files : Settings) (hb : fs.buffer = V b) (hl : Link (V b) o o')
    (hno : ¬ (fkfs_block_check ov past fs o = .good
      ∧ (entryAt (fs.memory past) o).file = UInt8.ofNat f)) :
    ReadStep ov files V fs.header f (place b o) [] (place b o') := by
  refine .inl ⟨o', hl, rfl, fun r hr => ?_⟩
  unfold pick
  split
  · rename_i hp
    obtain ⟨he, -⟩ := Stored.memory_eq hr fs.files past
    have hcheck := Stored.check hr ov past fs hb
    rw [hp.1, if_pos hp.2] at hcheck
    refine absurd ⟨hcheck, ?_⟩ hno
    unfold fkfs_t.memory
    rw [hb]
    refine Eq.trans (congrArg fkfs_entry_t.file he) ?_
    rw [← hp.1]
    rfl
  · rfl

/-- A step over good data of the file delivers it, whatever lies behind
`fs->files` when it is looked at. -/
theorem readStep_data (files : Settings) (hb : fs.buffer = V b) (hl : Link (V b) o o')
    (hgood : fkfs_block_check ov past fs o = .good)
    (hfile : (entryAt (fs.memory past) o).file = UInt8.ofNat f) (past' : Mem) :
    ReadStep ov files V fs.header f (place b o)
      [slice (fs.memory past') (o + 7) (entryAt (fs.memory past) o).size.toNat] (place b o') := by
  refine .inl ⟨o', hl, rfl, fun r hr => ?_⟩
  replace hr : Stored (V b) o r := hr
  unfold fkfs_t.memory at hfile ⊢
  rw [hb] at hfile ⊢
  have he : entryAt (memory (V b) fs.files past) o = r.entry :=
    (Stored.memory_eq hr fs.files past).1
  have hdata : slice (memory (V b) fs.files past') (o + 7) r.entry.size.toNat = r.data :=
    (Stored.memory_eq hr fs.files past').2
  have hrf : r.file = f := by
    rw [he] at hfile
    exact file_ofNat_inj hfile
  have hcheck := Stored.check hr ov past fs hb
  rw [hgood] at hcheck
  have hv : (fs.header.files r.file).version = r.version := by
    by_contra hne
    rw [if_neg hne] at hcheck
    cases hcheck
  rw [he, hdata, pick, if_pos ⟨hrf, by rw [← hrf]; exact hv⟩]

end Round

/-! ## What a call delivers -/

/-- No block up to `top` is one where writer and reader wrap around. -/
def Unwrapped (fs : fkfs_t) (top : ℕ) : Prop :=
  ∀ b : UInt32, 8000 < b.toNat → b.toNat ≤ top → wrapsAt fs b = false

/-- An iterator of file `f` on its way to `e`, over blocks that look like `V`
and under the header `h`. -/
structure Ready (ov : Overrun) (files : Settings) (V : ℕ → Block) (h : fkfs_header_t)
    (f : FileNumber) (e : Place) (s : Machine) (iter : fkfs_file_iter_t) : Prop where
  works : Works s.sd
  coherent : Coherent s
  header : s.fs.header = h
  settings : s.fs.files = files
  view : ∀ b, 8000 ≤ b → view s b = V b
  file : iter.token.file = f
  last : lastPlace iter = e
  block_ge : 8000 ≤ iter.token.block.toNat
  last_le : iter.token.lastBlock.toNat ≤ h.block.toNat
  unwrapped : Unwrapped s.fs h.block.toNat
  quiet : Quiet s iter.token
  reach : Reach ov files V (tokenPlace iter) e

section Call

variable {ov : Overrun} {files : Settings} {V : ℕ → Block} {h : fkfs_header_t} {f : FileNumber}
  {e : Place}

/-- The iterator stays on its way when its token moves along the line. -/
theorem Ready.move {s s1 : Machine} {iter iter' : fkfs_file_iter_t}
    (hr : Ready ov files V h f e s iter) (hl : Loads s s1) (hsame : SameEnd iter iter')
    (hle : tokenPlace iter ≤ tokenPlace iter') (hreach : Reach ov files V (tokenPlace iter') e) :
    Ready ov files V h f e s1 iter' := by
  have hb : iter.token.block.toNat ≤ iter'.token.block.toNat := blockOf_le hle
  have hb' : iter'.token.block.toNat ≤ iter.token.lastBlock.toNat := by
    have := blockOf_le hreach.le
    rw [← hr.last] at this
    exact this
  have hstay : s1.fs.cachedBlockDirty = true →
      iter.token.lastBlock = iter.token.block ∧ iter'.token.block = iter.token.block := by
    intro hd
    have hlast := hr.quiet.2 (by rw [← hl.dirty]; exact hd)
    rw [hlast] at hb'
    exact ⟨hlast, UInt32.toNat_inj.mp (by omega)⟩
  refine ⟨?_, hl.coherent hr.coherent, hl.header.trans hr.header, hl.files.trans hr.settings,
    fun b hb => (hl.view b).trans (hr.view b hb), hsame.1.trans hr.file, hsame.last.trans hr.last,
    le_trans hr.block_ge hb, ?_, ?_, ⟨?_, ?_⟩, hreach⟩
  · rw [hl.sd]
    exact hr.works
  · rw [hsame.2.1]
    exact hr.last_le
  · intro b h1 h2
    have := hr.unwrapped b h1 h2
    unfold wrapsAt at this ⊢
    rw [hl.blocks]
    exact this
  · intro hd
    have hd0 : s.fs.cachedBlockDirty = true := by rw [← hl.dirty]; exact hd
    rw [(hstay hd).2, (hl.coherent hr.coherent).dirty hd, hl.header, ← hr.coherent.dirty hd0]
    exact hr.quiet.1 hd0
  · intro hd
    rw [hsame.2.1, (hstay hd).2]
    exact (hstay hd).1

/-- Only the token of the iterator matters. -/
theorem Ready.of_token {s : Machine} {iter iter' : fkfs_file_iter_t}
    (hr : Ready ov files V h f e s iter) (ht : iter'.token = iter.token) :
    Ready ov files V h f e s iter' := by
  have hplace : tokenPlace iter' = tokenPlace iter := by simp only [tokenPlace, ht]
  refine hr.move (.refl s) ⟨by rw [ht], by rw [ht], by rw [ht], by rw [ht]⟩ (le_of_eq hplace.symm) ?_
  rw [hplace]
  exact hr.reach

/-- The block of the token is a data block. -/
theorem Ready.block_lt {s : Machine} {iter : fkfs_file_iter_t} (hr : Ready ov files V h f e s iter) :
    iter.token.block.toNat < 4294967295 := by
  have h1 : iter.token.block.toNat ≤ iter.token.lastBlock.toNat := by
    have := blockOf_le hr.reach.le
    rw [← hr.last] at this
    exact this
  have h2 := hr.last_le
  have h3 := hr.coherent.block_lt
  rw [hr.header] at h3
  omega

/-- A block that is ensured for the iterator is the one it sees. -/
theorem Ready.ensure {s : Machine} {iter : fkfs_file_iter_t} (hr : Ready ov files V h f e s iter) :
    ∃ s1, fkfs_block_ensure s iter.token.block = (true, s1) ∧ Loads s s1
      ∧ s1.fs.buffer = V iter.token.block.toNat := by
  obtain ⟨s1, he, hl, hc⟩ := block_ensure_loads hr.works hr.quiet.1
  refine ⟨s1, he, hl, ?_⟩
  have hne : iter.token.block ≠ UINT32_MAX := by
    intro hcon
    have := hr.block_lt
    rw [hcon] at this
    simp at this
  rw [(hl.coherent hr.coherent).buffer_eq hc hr.block_ge hne, hl.view]
  exact hr.view _ hr.block_ge

/-- What a walk is noted with, step by step: a mark for good data of the file, nothing for
any other entry and from block to block. -/
structure Notes {α : Type*} (ov : Overrun) (files : Settings) (V : ℕ → Block) (h : fkfs_header_t)
    (f : FileNumber) (mark : ℕ → List UInt8 → α) (step : Place → List α → Place → Prop) :
    Prop where
  next : ∀ {p xs q}, step p xs q → Next ov files V p q
  skip : ∀ {b o}, Fails ov files (V b) o → step (place b o) [] (place (b + 1) 0)
  silent : ∀ {fs : fkfs_t} {past : Mem} {b o o' : ℕ}, fs.header = h → fs.buffer = V b →
    Link (V b) o o' → ¬ (fkfs_block_check ov past fs o = .good
      ∧ (entryAt (fs.memory past) o).file = UInt8.ofNat f) → step (place b o) [] (place b o')
  data : ∀ {fs : fkfs_t} {past : Mem} {b o o' : ℕ}, fs.header = h → fs.buffer = V b →
    Link (V b) o o' → fkfs_block_check ov past fs o = .good →
    (entryAt (fs.memory past) o).file = UInt8.ofNat f → ∀ past', step (place b o)
      [mark b (slice (fs.memory past') (o + 7) (entryAt (fs.memory past) o).size.toNat)] (place b o')

/-- The steps of `ReadStep` note the payloads. -/
theorem readStep_notes (ov : Overrun) (files : Settings) (V : ℕ → Block) (h : fkfs_header_t)
    (f : FileNumber) : Notes ov files V h f (fun _ x => x) (ReadStep ov files V h f) where
  next := fun hs => hs.next
  skip := fun hf => .inr ⟨hf, rfl, rfl⟩
  silent := by
    rintro fs past b o o' rfl hb hl hno
    exact readStep_silent files hb hl hno
  data := by
    rintro fs past b o o' rfl hb hl hgood hfile past'
    exact readStep_data files hb hl hgood hfile past'

section Noted

variable {α : Type*} {mark : ℕ → List UInt8 → α} {step : Place → List α → Place → Prop}

/-- What a call that returns has done, from the place `p` on, with what was left of its
budget of blocks. -/
structure Outcome (ov : Overrun) (files : Settings) (V : ℕ → Block) (h : fkfs_header_t)
    (f : FileNumber) (mark : ℕ → List UInt8 → α) (step : Place → List α → Place → Prop)
    (e p : Place) (config : fkfs_iterator_config_t) (mb : UInt32) (s : Machine) (ok : Bool)
    (s' : Machine) (iter' : fkfs_file_iter_t) : Prop where
  loads : Loads s s'
  ready : Ready ov files V h f e s' iter'
  stops : ok = false → Trails.Trail step p (tokenPlace iter') [] ∧ p < tokenPlace iter'
  /-- A call without a limit on its time stops at the end or when the budget is used up. -/
  budget : ok = false → config.maxTime = 0 → tokenPlace iter' ≠ e → 0 < config.maxBlocks
    ∧ (0 < mb → blockOf (tokenPlace iter') = blockOf p + mb.toNat)
  finds : ok = true → ∃ q c, Trails.Trail step p q []
    ∧ (∀ past, step q [mark (blockOf q) (payload iter' s'.fs past)] c)
    ∧ Reach ov files V c e ∧ (tokenPlace iter' = if config.manualNext = 0 then c else q)
    ∧ blockOf c = blockOf q
    ∧ (0 < config.maxBlocks → 0 < mb → blockOf q < blockOf p + mb.toNat)

/-- A silent step in front of a call, inside a block. -/
theorem Outcome.head {p c : Place} {config : fkfs_iterator_config_t} {mb mb' : UInt32}
    {s s1 s' : Machine} {ok : Bool} {iter' : fkfs_file_iter_t} (hs : step p [] c) (hpc : p < c)
    (hl : Loads s s1) (hmb : 0 < config.maxBlocks → 0 < mb →
      0 < mb' ∧ blockOf c + mb'.toNat = blockOf p + mb.toNat)
    (ho : Outcome ov files V h f mark step e c config mb' s1 ok s' iter') :
    Outcome ov files V h f mark step e p config mb s ok s' iter' := by
  refine ⟨hl.trans ho.loads, ho.ready, fun hok => ?_, fun hok h0 hne => ?_, fun hok => ?_⟩
  · obtain ⟨ht, hlt⟩ := ho.stops hok
    exact ⟨.head hs ht, lt_trans hpc hlt⟩
  · obtain ⟨hpos, hblock⟩ := ho.budget hok h0 hne
    refine ⟨hpos, fun h => ?_⟩
    obtain ⟨hmb', hsum⟩ := hmb hpos h
    rw [hblock hmb', hsum]
  · obtain ⟨q, d, ht, hdata, hreach, hplace, hblock, hnear⟩ := ho.finds hok
    refine ⟨q, d, .head hs ht, hdata, hreach, hplace, hblock, fun hpos h => ?_⟩
    obtain ⟨hmb', hsum⟩ := hmb hpos h
    rw [← hsum]
    exact hnear hpos hmb'

/-- The loop of `fkfs_file_iterate`, on the way to its end. The induction is on
the walk that is left; each round takes one step of it. -/
theorem iterateLoop_noted (hn : Notes ov files V h f mark step) {p : Place}
    (hp : Reach ov files V p e) :
    ∃ N, ∀ n, N ≤ n → ∀ (config : fkfs_iterator_config_t) (am : Ambient) (r : ℕ) (s : Machine)
      (iter : fkfs_file_iter_t) (mb : UInt32), Ready ov files V h f e s iter →
      tokenPlace iter = p → p < e →
      ∃ ok s' iter', iterateLoop ov config am n r s iter mb = some (ok, s', iter')
        ∧ Outcome ov files V h f mark step e p config mb s ok s' iter' := by
  induction hp using ReflTransGen.head_induction_on with
  | refl => exact ⟨0, fun n _ config am r s iter mb _ _ hlt => absurd hlt (lt_irrefl _)⟩
  | @head p c hs hc ih =>
    obtain ⟨N, hN⟩ := ih
    refine ⟨N + 1, fun n hn1 config am r s iter mb hr htok hlt => ?_⟩
    obtain ⟨n, rfl⟩ : ∃ m, n = m + 1 := ⟨n - 1, by omega⟩
    have hn' : N ≤ n := by omega
    obtain ⟨s1, he, hl, hbuf⟩ := hr.ensure
    have hheader : s1.fs.header = h := hl.header.trans hr.header
    have hcle : c ≤ e := Reach.le hc
    simp only [iterateLoop, he]
    rw [← htok] at hs ⊢
    rcases hs with ⟨o', hlink, rfl⟩ | ⟨hfail, rfl⟩
    · -- A link: good data of the file ends the call, anything else is stepped over.
      replace hlink : Link (V iter.token.block.toNat) iter.token.offset.toNat o' := hlink
      obtain ⟨hcheck, hstride⟩ := check_of_link ov (am.past r) hbuf hlink
      rw [if_pos hcheck]
      generalize hentry : entryAt (s1.fs.memory (am.past r)) iter.token.offset.toNat = entry at *
      have havail : entry.available.toNat < 512 := by
        have := hlink.bounds
        have h2 := hlink.2.1.avail_lt
        rw [hlink.2.2, stride] at hstride
        omega
      have hnat : (iter.token.offset + (entry.available + 7)).toNat = o' := by
        rw [UInt16.add_comm entry.available, step_toNat (by have := hlink.1; omega) havail, hstride]
      have hplace : tokenPlace (moveTo iter iter.token.block
          (iter.token.offset + (entry.available + 7))) = place iter.token.block.toNat o' := by
        rw [← hnat]
        rfl
      have hup : tokenPlace iter < place iter.token.block.toNat o' :=
        place_lt.mpr (.inr ⟨rfl, hlink.lt⟩)
      have hready : Ready ov files V h f e s1 (moveTo iter iter.token.block
          (iter.token.offset + (entry.available + 7))) := by
        refine hr.move hl (sameEnd_moveTo iter _ _) ?_ ?_
        · rw [hplace]
          exact le_of_lt hup
        · rw [hplace]
          exact hc
      by_cases hfound : fkfs_block_check ov (am.past r) s1.fs iter.token.offset.toNat = .good
          ∧ entry.file = UInt8.ofNat iter.token.file
      · rw [if_pos hfound]
        refine ⟨_, _, _, rfl, hl, ?_, fun hok => absurd hok.symm Bool.false_ne_true,
          fun hok => absurd hok.symm Bool.false_ne_true, fun _ => ?_⟩
        · by_cases hm : config.manualNext = 0
          · rw [if_pos hm]
            exact hready.of_token rfl
          · rw [if_neg hm]
            exact (hr.move hl (.refl iter) (le_refl _) hr.reach).of_token rfl
        · refine ⟨tokenPlace iter, place iter.token.block.toNat o', .refl _, fun past => ?_, hc, ?_, rfl,
            fun _ hpos => Nat.lt_add_of_pos_right (UInt32.lt_iff_toNat_lt.mp hpos)⟩
          · have hfile : (entryAt (s1.fs.memory (am.past r)) iter.token.offset.toNat).file
                = UInt8.ofNat f := by
              rw [hentry, ← hr.file]
              exact hfound.2
            have hdata := hn.data hheader hbuf hlink hfound.1 hfile past
            rw [hentry] at hdata
            exact hdata
          · split
            · exact hplace
            · rfl
      · rw [if_neg hfound]
        have hsilent : step (tokenPlace iter) [] (place iter.token.block.toNat o') := by
          rw [← hentry, hr.file] at hfound
          exact hn.silent hheader hbuf hlink hfound
        split
        · rename_i hd
          refine ⟨_, _, _, rfl, hl, hready, fun _ => ?_, fun _ _ hne => ?_, fun hok => absurd hok Bool.false_ne_true⟩
          · rw [hplace]
            exact ⟨.single hsilent, hup⟩
          · rw [done_iff, hplace, (sameEnd_moveTo iter _ _).last, hr.last] at hd
            rw [hplace] at hne
            exact absurd (le_antisymm hcle hd) hne
        · rename_i hnd
          rw [done_iff, hplace, (sameEnd_moveTo iter _ _).last, hr.last] at hnd
          obtain ⟨ok, s', iter', h1, h2⟩ := hN n hn' config am (r + 1) s1 _ mb hready hplace
            (lt_of_not_ge hnd)
          exact ⟨ok, s', iter', h1, h2.head hsilent hup hl fun _ hpos => ⟨hpos, rfl⟩⟩
    · -- The size test fails: the walk goes on in the next block.
      replace hfail : Fails ov files (V iter.token.block.toNat) iter.token.offset.toNat := hfail
      have hcheck : fkfs_block_check ov (am.past r) s1.fs iter.token.offset.toNat = .size := by
        apply check_of_not_passes
        rw [fkfs_t.memory, hbuf, hl.files, hr.settings]
        exact hfail _
      rw [hcheck]
      simp only [reduceCtorEq, or_self, if_false]
      have hplace : tokenPlace (moveTo iter (iter.token.block + 1) 0)
          = place (iter.token.block.toNat + 1) 0 := by
        rw [← succ_toNat hr.block_lt]
        rfl
      have hup : tokenPlace iter < place (iter.token.block.toNat + 1) 0 :=
        place_lt.mpr (.inl (Nat.lt_succ_self _))
      have hsilent : step (tokenPlace iter) [] (place (iter.token.block.toNat + 1) 0) :=
        hn.skip hfail
      have hready : Ready ov files V h f e s1 (moveTo iter (iter.token.block + 1) 0) := by
        refine hr.move hl (sameEnd_moveTo iter _ _) ?_ ?_
        · rw [hplace]
          exact le_of_lt hup
        · rw [hplace]
          exact hc
      have hnowrap : wrapsAt s1.fs (moveTo iter (iter.token.block + 1) 0).token.block = false := by
        have h1 := hr.block_ge
        have h2 := blockOf_le hcle
        have h3 := hr.last_le
        have h4 := succ_toNat hr.block_lt
        rw [← hr.last] at h2
        simp only [blockOf_place, lastPlace, tokenPlace] at h2
        refine hready.unwrapped (iter.token.block + 1) ?_ ?_
        · rw [h4]
          omega
        · rw [h4]
          omega
      simp only [hnowrap, Bool.false_eq_true, if_false]
      have htrail : Trails.Trail step (tokenPlace iter)
          (tokenPlace (moveTo iter (iter.token.block + 1) 0)) []
          ∧ tokenPlace iter < tokenPlace (moveTo iter (iter.token.block + 1) 0) := by
        rw [hplace]
        exact ⟨.single hsilent, hup⟩
      split
      · rename_i hd
        rw [done_iff, hplace, (sameEnd_moveTo iter _ _).last, hr.last] at hd
        refine ⟨_, _, _, rfl, hl, hready, fun _ => htrail, fun _ _ hne => ?_, fun hok => absurd hok Bool.false_ne_true⟩
        rw [hplace] at hne
        exact absurd (le_antisymm hcle hd) hne
      · rename_i hnd
        rw [done_iff, hplace, (sameEnd_moveTo iter _ _).last, hr.last] at hnd
        -- What is left of the budget.
        have hmb : 0 < config.maxBlocks → 0 < mb →
            (if 0 < config.maxBlocks then mb - 1 else mb).toNat + 1 = mb.toNat := by
          intro hpos h0
          have h1 : 0 < mb.toNat := UInt32.lt_iff_toNat_lt.mp h0
          have hle : (1 : UInt32) ≤ mb := UInt32.le_iff_toNat_le.mpr h1
          rw [if_pos hpos, UInt32.toNat_sub_of_le _ _ hle]
          exact Nat.sub_add_cancel h1
        generalize hmb' : (if 0 < config.maxBlocks then mb - 1 else mb) = mb' at hmb ⊢
        split
        · rename_i hstop
          refine ⟨_, _, _, rfl, hl, hready, fun _ => htrail, fun _ h0 _ => ?_, fun hok => absurd hok Bool.false_ne_true⟩
          simp only [h0, Bool.or_eq_true, Bool.and_eq_true, decide_eq_true_eq, beq_iff_eq,
            UInt32.lt_irrefl, false_and, or_false] at hstop
          refine ⟨hstop.1, fun hpos => ?_⟩
          have hone := hmb hstop.1 hpos
          rw [hstop.2] at hone
          rw [hplace, ← hone]
          rfl
        · rename_i hgo
          obtain ⟨ok, s', iter', h1, h2⟩ := hN n hn' config am (r + 1) s1 _ mb' hready hplace
            (lt_of_not_ge hnd)
          refine ⟨ok, s', iter', h1, h2.head hsilent hup hl fun hpos h0 => ⟨?_, ?_⟩⟩
          · simp only [hpos, decide_true, Bool.true_and, Bool.or_eq_true, beq_iff_eq, not_or] at hgo
            exact UInt32.lt_iff_toNat_lt.mpr (Nat.pos_of_ne_zero fun hz =>
              hgo.1 (UInt32.toNat_inj.mp hz))
          · have hone := hmb hpos h0
            simp only [blockOf_place, tokenPlace]
            omega

end Noted

/-- A call on an iterator that is done returns false and does nothing. -/
theorem iterate_of_done {n : ℕ} {config : fkfs_iterator_config_t} {am : Ambient} {s : Machine}
    {iter : fkfs_file_iter_t} (hd : fkfs_file_iterator_done iter = true) :
    fkfs_file_iterate ov n config am s iter = some (false, s, iter) := by
  simp only [fkfs_file_iterate, hd, if_true, ite_self]

section Noted

variable {α : Type*} {mark : ℕ → List UInt8 → α} {step : Place → List α → Place → Prop}

/-- **`fkfs_file_iterate`** returns, and what it has done is a walk. -/
theorem iterate_noted (hnotes : Notes ov files V h f mark step) {p : Place}
    (hp : Reach ov files V p e) :
    ∃ N, ∀ n, N ≤ n → ∀ (config : fkfs_iterator_config_t) (am : Ambient) (s : Machine)
      (iter : fkfs_file_iter_t), Ready ov files V h f e s iter → tokenPlace iter = p → p < e →
      ∃ ok s' iter', fkfs_file_iterate ov n config am s iter = some (ok, s', iter')
        ∧ Outcome ov files V h f mark step e p config config.maxBlocks s ok s' iter' := by
  obtain ⟨N, hN⟩ := iterateLoop_noted hnotes hp
  refine ⟨N, fun n hn config am s iter hr htok hlt => ?_⟩
  have hvalid : fkfs_file_iterator_valid s.fs iter = true := by
    refine valid_of_le (by have := hr.block_ge; omega) ?_ ?_
    · rw [hr.header]
      exact hr.last_le
    · rw [htok, hr.last]
      exact le_of_lt hlt
  have hdone : ¬ fkfs_file_iterator_done iter = true := by
    rw [done_iff, htok, hr.last]
    exact not_le_of_gt hlt
  unfold fkfs_file_iterate
  rw [hvalid, Bool.not_true, if_neg Bool.false_ne_true, if_neg hdone]
  exact hN n hn config am 0 s iter config.maxBlocks hr htok hlt

end Noted

/-- What `fkfs_file_iterate` delivers on the way. -/
theorem iterate_spec {p : Place} (hp : Reach ov files V p e) :
    ∃ N, ∀ n, N ≤ n → ∀ (config : fkfs_iterator_config_t) (am : Ambient) (s : Machine)
      (iter : fkfs_file_iter_t), Ready ov files V h f e s iter → tokenPlace iter = p → p < e →
      ∃ ok s' iter', fkfs_file_iterate ov n config am s iter = some (ok, s', iter')
        ∧ Outcome ov files V h f (fun _ x => x) (ReadStep ov files V h f) e p config
          config.maxBlocks s ok s' iter' :=
  iterate_noted (readStep_notes ov files V h f) hp

end Call

/-! ## Iterating until done -/

/-- One call of an application that iterates: its configuration, what the call
finds around it, and what lies behind `fs->files` when the application looks at
the data. -/
structure Poll where
  config : fkfs_iterator_config_t
  ambient : Ambient
  seen : Mem

/-- Call `fkfs_file_iterate` until `fkfs_file_iterator_done`, `m` times at most,
and collect what it finds. -/
def drain (ov : Overrun) (n : ℕ) (polls : ℕ → Poll) :
    ℕ → ℕ → Machine → fkfs_file_iter_t → Option (List (List UInt8) × Machine × fkfs_file_iter_t)
  | 0, _, _, _ => none
  | m + 1, k, s, iter =>
    if fkfs_file_iterator_done iter then some ([], s, iter)
    else
      match fkfs_file_iterate ov n (polls k).config (polls k).ambient s iter with
      | none => none
      | some (false, s, iter) => drain ov n polls m (k + 1) s iter
      | some (true, s, iter) =>
        (drain ov n polls m (k + 1) s iter).map fun r =>
          (payload iter s.fs (polls k).seen :: r.1, r.2)

/-- The same, collecting for each payload what `mark` makes of it and of the block it
was found in. -/
def drainWith {α : Type*} (mark : ℕ → List UInt8 → α) (ov : Overrun) (n : ℕ) (polls : ℕ → Poll) :
    ℕ → ℕ → Machine → fkfs_file_iter_t → Option (List α × Machine × fkfs_file_iter_t)
  | 0, _, _, _ => none
  | m + 1, k, s, iter =>
    if fkfs_file_iterator_done iter then some ([], s, iter)
    else
      match fkfs_file_iterate ov n (polls k).config (polls k).ambient s iter with
      | none => none
      | some (false, s, iter) => drainWith mark ov n polls m (k + 1) s iter
      | some (true, s, iter) =>
        (drainWith mark ov n polls m (k + 1) s iter).map fun r =>
          (mark iter.token.block.toNat (payload iter s.fs (polls k).seen) :: r.1, r.2)

section Drain

variable {ov : Overrun} {files : Settings} {V : ℕ → Block} {h : fkfs_header_t} {f : FileNumber}
  {e : Place}

/-- What `drain` collects is what the marks are made of. -/
theorem drainWith_map {α : Type*} (mark : ℕ → List UInt8 → α) (back : α → List UInt8)
    (hback : ∀ b x, back (mark b x) = x) (n : ℕ) (polls : ℕ → Poll) (m k : ℕ) (s : Machine)
    (iter : fkfs_file_iter_t) : drain ov n polls m k s iter
      = (drainWith mark ov n polls m k s iter).map fun r => (r.1.map back, r.2) := by
  induction m generalizing k s iter with
  | zero => rfl
  | succ m ih =>
    simp only [drain, drainWith]
    split
    · rfl
    · rcases fkfs_file_iterate ov n (polls k).config (polls k).ambient s iter with
        - | ⟨ok, s1, iter1⟩
      · rfl
      · cases ok with
        | false => exact ih (k + 1) s1 iter1
        | true =>
          simp only [ih (k + 1) s1 iter1, Option.map_map]
          congr 1
          funext r
          simp only [Function.comp_apply, List.map_cons, hback]

/-- Iterating from any place of the walk from `p` to `e`. The number of calls is
bounded by the steps that are left, whatever budgets the calls have. -/
theorem drain_noted {α : Type*} {mark : ℕ → List UInt8 → α} {step : Place → List α → Place → Prop}
    (hnotes : Notes ov files V h f mark step) {p : Place} (hp : Reach ov files V p e) :
    ∃ N, ∀ q, Reach ov files V p q → ∀ n m, N ≤ n → N ≤ m → ∀ (polls : ℕ → Poll) (k : ℕ)
      (s : Machine) (iter : fkfs_file_iter_t), (∀ k, (polls k).config.manualNext = 0) →
      Ready ov files V h f e s iter → tokenPlace iter = q →
      ∃ xs s' iter', drainWith mark ov n polls m k s iter = some (xs, s', iter')
        ∧ Trails.Trail step q e xs ∧ Loads s s'
        ∧ Ready ov files V h f e s' iter' ∧ tokenPlace iter' = e := by
  induction hp using ReflTransGen.head_induction_on with
  | refl =>
    refine ⟨1, fun q hq n m _ hm polls k s iter _ hr htok => ?_⟩
    obtain ⟨m, rfl⟩ : ∃ m', m = m' + 1 := ⟨m - 1, by omega⟩
    have hqe : q = e := by
      refine le_antisymm ?_ (Reach.le hq)
      rw [← htok]
      exact hr.reach.le
    have hdone : fkfs_file_iterator_done iter = true := by
      rw [done_iff, hr.last, htok, hqe]
    subst hqe
    exact ⟨[], s, iter, by simp only [drainWith, hdone, if_true], .refl _, .refl s, hr, htok⟩
  | @head p c hs hc ih =>
    obtain ⟨N, hN⟩ := ih
    obtain ⟨N', hN'⟩ := iterate_noted hnotes (hc.head hs)
    refine ⟨N + N' + 1, fun q hq n m hn hm polls k s iter hpolls hr htok => ?_⟩
    by_cases hne : p = q
    · subst hne
      obtain ⟨m, rfl⟩ : ∃ m', m = m' + 1 := ⟨m - 1, by omega⟩
      have hlt : p < e := lt_of_lt_of_le hs.lt (Reach.le hc)
      have hdone : ¬ fkfs_file_iterator_done iter = true := by
        rw [done_iff, htok, hr.last]
        exact not_le_of_gt hlt
      obtain ⟨ok, s1, iter1, he, ho⟩ := hN' n (by omega) (polls k).config (polls k).ambient s iter
        hr htok hlt
      -- Wherever the call stopped, it is further on, where the induction applies.
      have hrest : ∀ {xs}, Trails.Trail step p (tokenPlace iter1) xs →
          p < tokenPlace iter1 → ∃ ys s' iter', drainWith mark ov n polls m (k + 1) s1 iter1
              = some (ys, s', iter')
            ∧ Trails.Trail step p e (xs ++ ys) ∧ Loads s s'
            ∧ Ready ov files V h f e s' iter' ∧ tokenPlace iter' = e := by
        intro xs ht hlt1
        have hreach : Reach ov files V c (tokenPlace iter1) :=
          Trails.reach_tail (next_unique ov files V) hs (ht.reach fun hs => hnotes.next hs) (ne_of_lt hlt1)
        obtain ⟨ys, s', iter', h1, h2, h3, h4, h5⟩ := hN _ hreach n m (by omega) (by omega) polls
          (k + 1) s1 iter1 hpolls ho.ready rfl
        exact ⟨ys, s', iter', h1, ht.trans h2, ho.loads.trans h3, h4, h5⟩
      simp only [drainWith, hdone, he]
      cases ok with
      | false =>
        obtain ⟨ht, hlt1⟩ := ho.stops rfl
        obtain ⟨ys, s', iter', h1, h2⟩ := hrest ht hlt1
        exact ⟨ys, s', iter', h1, h2⟩
      | true =>
        obtain ⟨q, d, ht, hdata, -, hplace, hblock, -⟩ := ho.finds rfl
        rw [if_pos (hpolls k)] at hplace
        have ht1 := ht.trans (.single (hdata (polls k).seen))
        have hlt1 : p < tokenPlace iter1 := by
          rw [hplace]
          exact lt_of_le_of_lt (ht.le fun hs => (hnotes.next hs).lt) (hnotes.next (hdata fun _ => 0)).lt
        have hmark : iter1.token.block.toNat = blockOf q := by
          rw [← hblock, ← hplace]
          rfl
        rw [← hplace] at ht1
        obtain ⟨ys, s', iter', h1, h2⟩ := hrest ht1 hlt1
        refine ⟨_, s', iter', by simp only [h1]; rfl, ?_⟩
        rw [hmark]
        exact h2
    · exact hN q (Trails.reach_tail (next_unique ov files V) hs hq hne) n m (by omega) (by omega)
        polls k s iter hpolls hr htok

/-- What an iteration from any place of the walk from `p` to `e` delivers. -/
theorem drain_line {p : Place} (hp : Reach ov files V p e) :
    ∃ N, ∀ q, Reach ov files V p q → ∀ n m, N ≤ n → N ≤ m → ∀ (polls : ℕ → Poll) (k : ℕ)
      (s : Machine) (iter : fkfs_file_iter_t), (∀ k, (polls k).config.manualNext = 0) →
      Ready ov files V h f e s iter → tokenPlace iter = q →
      ∃ xs s' iter', drain ov n polls m k s iter = some (xs, s', iter')
        ∧ Trails.Trail (ReadStep ov files V h f) q e xs ∧ Loads s s'
        ∧ Ready ov files V h f e s' iter' ∧ tokenPlace iter' = e := by
  obtain ⟨N, hN⟩ := drain_noted (readStep_notes ov files V h f) hp
  refine ⟨N, fun q hq n m hn hm polls k s iter hpolls hr htok => ?_⟩
  obtain ⟨xs, s', iter', he, hrest⟩ := hN q hq n m hn hm polls k s iter hpolls hr htok
  refine ⟨xs, s', iter', ?_, hrest⟩
  rw [drainWith_map (fun _ x => x) id (fun _ _ => rfl), he]
  simp

/-- **Iterating until done** returns, and delivers the labels of the walk from
the token to the end. -/
theorem drain_spec {s : Machine} {iter : fkfs_file_iter_t} (hr : Ready ov files V h f e s iter) :
    ∃ N, ∀ n, N ≤ n → ∀ polls : ℕ → Poll, (∀ k, (polls k).config.manualNext = 0) →
      ∃ xs s' iter', drain ov n polls n 0 s iter = some (xs, s', iter')
        ∧ Trails.Trail (ReadStep ov files V h f) (tokenPlace iter) e xs ∧ Loads s s' := by
  obtain ⟨N, hN⟩ := drain_line (h := h) (f := f) hr.reach
  refine ⟨N, fun n hn polls hpolls => ?_⟩
  obtain ⟨xs, s', iter', h1, h2, h3, -⟩ := hN _ .refl n n hn hn polls 0 s iter hpolls hr rfl
  exact ⟨xs, s', iter', h1, h2, h3⟩

end Drain

end Fkfs.Reader
