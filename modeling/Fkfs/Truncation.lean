/-
What a truncation means to those who read.

`fkfs_file_truncate` writes nothing: it gives the file a new version, and every
entry there is of the file fails its CRC from then on. So a reader steps over
the old entries wherever it starts, and it does not matter whether
`fkfs_file_iterator_reopen` notices, by the sizes, that a token is from before
the truncation: what lies between the old place and the start of the file is
not the file's any more.

A `Session` is a machine whose files are all sync files, with the payloads that
were appended to each file since its last truncation and every token its calls
have produced, each with the number of truncations its file had then.
-/
import Fkfs.CardLog
import Fkfs.Structure

set_option autoImplicit false

namespace Fkfs.Truncation

open Bytes
open Fkfs.Crc Fkfs.Layout Fkfs.Device Fkfs.Search Fkfs.Append Fkfs.Iterate Fkfs.Mount Fkfs.Cache
open Fkfs.Walk Fkfs.Writer Fkfs.Reader Fkfs.Run Fkfs.Slots Fkfs.Log Fkfs.CardLog Fkfs.Structure

/-! ## What the records tell -/

/-- The records tell what was appended to each file since its last truncation, and
how often it was truncated. -/
structure Accounts (recs : List Rec) (h : fkfs_header_t) (appended : FileNumber → List (List UInt8))
    (truncations : FileNumber → ℕ) : Prop where
  told : ∀ f, mine h f recs = appended f
  versions : ∀ r ∈ recs, ((h.files r.file).version - r.version).toNat ≤ truncations r.file

namespace Accounts

variable {recs : List Rec} {h h' : fkfs_header_t} {appended : FileNumber → List (List UInt8)}
  {truncations : FileNumber → ℕ} {f : FileNumber}

theorem empty (h : fkfs_header_t) : Accounts [] h (fun _ => []) fun _ => 0 :=
  ⟨fun _ => rfl, fun _ hr => nomatch hr⟩

/-- Only the versions matter. -/
theorem congr (ha : Accounts recs h appended truncations)
    (hv : ∀ g, (h'.files g).version = (h.files g).version) :
    Accounts recs h' appended truncations := by
  refine ⟨fun g => ?_, fun r hr => ?_⟩
  · rw [mine_congr (hv g)]
    exact ha.told g
  · rw [hv]
    exact ha.versions r hr

/-- One more record of file `f`. -/
theorem store (ha : Accounts recs h appended truncations) (f : FileNumber) (data : List UInt8) :
    Accounts (recs ++ [recordOf h f data]) h (Function.update appended f (appended f ++ [data]))
      truncations := by
  refine ⟨fun g => ?_, fun r hr => ?_⟩
  · rw [mine_append, mine_singleton, ha.told]
    by_cases hg : g = f
    · subst hg
      rw [Function.update_self, pick, if_pos ⟨rfl, rfl⟩]
      rfl
    · rw [Function.update_of_ne hg, pick, if_neg fun hc => hg hc.1.symm, List.append_nil]
  · rcases List.mem_append.mp hr with hr | hr
    · exact ha.versions r hr
    · rw [List.mem_singleton.mp hr]
      refine le_of_eq_of_le ?_ (Nat.zero_le _)
      exact congrArg UInt16.toNat (UInt16.sub_self (a := (h.files f).version))

/-- No record has the version a truncation is about to give its file. -/
theorem fresh (ha : Accounts recs h appended truncations) (hfew : truncations f + 1 < 65536) :
    (∀ r ∈ recs, r.file = f → r.version ≠ (h.files f).version + 1)
      ∧ ∀ r ∈ recs, r.file = f →
        ((h.files f).version + 1 - r.version).toNat ≤ truncations f + 1 := by
  have hstep : ∀ r ∈ recs, r.file = f →
      ((h.files f).version + 1 - r.version).toNat = ((h.files f).version - r.version).toNat + 1
      ∧ ((h.files f).version - r.version).toNat ≤ truncations f := by
    intro r hr hf
    have hold := ha.versions r hr
    rw [hf] at hold
    have hcomm : (h.files f).version + 1 - r.version = ((h.files f).version - r.version) + 1 := by
      rw [UInt16.sub_eq_add_neg, UInt16.sub_eq_add_neg, UInt16.add_assoc, UInt16.add_comm 1,
        ← UInt16.add_assoc]
    refine ⟨?_, hold⟩
    rw [hcomm, UInt16.toNat_add, UInt16.toNat_one]
    omega
  refine ⟨fun r hr hf hv => ?_, fun r hr hf => ?_⟩
  · obtain ⟨h1, -⟩ := hstep r hr hf
    rw [hv, UInt16.sub_self, UInt16.toNat_zero] at h1
    omega
  · obtain ⟨h1, h2⟩ := hstep r hr hf
    omega

/-- File `f` is given its next version: none of the records is of the file now. -/
theorem truncate (ha : Accounts recs h appended truncations) (hfew : truncations f + 1 < 65536)
    (hself : (h'.files f).version = (h.files f).version + 1)
    (hother : ∀ g, g ≠ f → (h'.files g).version = (h.files g).version) :
    Accounts recs h' (Function.update appended f [])
        (Function.update truncations f (truncations f + 1))
      ∧ ∀ rs, rs <+: recs → mine h' f rs = [] := by
  obtain ⟨hne, hcount⟩ := ha.fresh hfew
  have hnone : ∀ rs, rs <+: recs → mine h' f rs = [] := by
    intro rs hrs
    refine mine_of_prefix hrs (mine_of_stale fun r hr hf => ?_)
    rw [hself]
    exact hne r hr hf
  refine ⟨⟨fun g => ?_, fun r hr => ?_⟩, hnone⟩
  · by_cases hg : g = f
    · subst hg
      rw [hnone recs (List.prefix_refl _), Function.update_self]
    · rw [mine_congr (hother g hg), ha.told g, Function.update_of_ne hg]
  · by_cases hg : r.file = f
    · rw [hg, Function.update_self, hself]
      exact hcount r hr hg
    · rw [hother _ hg, Function.update_of_ne hg]
      exact ha.versions r hr

end Accounts

/-! ## Sessions -/

/-- A machine, and what happened to it. -/
structure Session where
  machine : Machine
  appended : FileNumber → List (List UInt8)
  truncations : FileNumber → ℕ
  tokens : List (fkfs_iterator_token_t × ℕ)

/-- A token is produced. -/
def Session.produce (x : Session) (token : fkfs_iterator_token_t) : Session :=
  { x with tokens := (token, x.truncations token.file) :: x.tokens }

/-- An append that returned `ok`. -/
def Session.append (x : Session) (f : FileNumber) (data : List UInt8) (r : Bool × Machine) :
    Session :=
  { x with
    machine := r.2
    appended := if r.1 then Function.update x.appended f (x.appended f ++ [data]) else x.appended }

/-- File `f` is truncated. -/
def Session.truncate (x : Session) (f : FileNumber) : Session :=
  { x with
    machine := fkfs_file_truncate x.machine f
    appended := Function.update x.appended f []
    truncations := Function.update x.truncations f (x.truncations f + 1) }

/-- All files are truncated. -/
def Session.truncateAll (x : Session) : Session :=
  { x with
    machine := fkfs_file_truncate_all x.machine
    appended := fun _ => []
    truncations := fun f => x.truncations f + 1 }

/-- Runs over a wiped card of zeros on which nothing fails, with the idealised
reading of entry positions behind the block. The writer does not wrap, and no
file is truncated 65536 times. -/
inductive Session.Run : Session → Prop
  | wipe {s m : Machine} {cfg : FileNumber → FileConfig} {draws : FileNumber → UInt16}
      (hw : Works s.sd) (hzero : ∀ b, 8000 ≤ b → s.sd.blocks b = zeroBlock) (hwraps : s.wraps = 0)
      (hsync : ∀ f, (cfg f).sync ≠ 0) (h : boot s cfg true draws = (true, m)) :
      Run ⟨m, fun _ => [], fun _ => 0, []⟩
  | append {x : Session} (hx : Run x) (f : FileNumber) {data : List UInt8}
      (hlen : data.length ≤ 505) (pasts : ℕ → Mem)
      (hwraps : (fkfs_file_append .stops pasts x.machine f data).2.wraps = 0) :
      Run (x.append f data (fkfs_file_append .stops pasts x.machine f data))
  | truncate {x : Session} (hx : Run x) (f : FileNumber) (hfew : x.truncations f + 1 < 65536) :
      Run (x.truncate f)
  | truncateAll {x : Session} (hx : Run x) (hfew : ∀ f, x.truncations f + 1 < 65536) :
      Run x.truncateAll
  | create {x : Session} (hx : Run x) (f : FileNumber) (iter : fkfs_file_iter_t) :
      Run (x.produce (fkfs_file_iterator_create x.machine.fs f iter).token)
  | reopen {x : Session} (hx : Run x) {token : fkfs_iterator_token_t} {k : ℕ}
      (htoken : (token, k) ∈ x.tokens) (iter : fkfs_file_iter_t) :
      Run (x.produce (fkfs_file_iterator_reopen x.machine.fs iter token).token)
  | iterate {x : Session} (hx : Run x) {iter iter' : fkfs_file_iter_t} {k n : ℕ}
      (htoken : (iter.token, k) ∈ x.tokens) {config : fkfs_iterator_config_t} {am : Ambient}
      {ok : Bool} {m : Machine}
      (h : fkfs_file_iterate .stops n config am x.machine iter = some (ok, m, iter')) :
      Run (Session.produce { x with machine := m } iter'.token)

/-! ## The invariant -/

/-- A token that was produced when its file had `k` truncations lies on the log,
and if the file was truncated since, nothing before it is the file's. -/
def Marks (m : Machine) (truncations : FileNumber → ℕ) (token : fkfs_iterator_token_t) (k : ℕ) :
    Prop :=
  k ≤ truncations token.file ∧ ∃ as es, OnLog m token as es
    ∧ (k < truncations token.file → mine m.fs.header token.file as = [])

/-- The records on the card tell what was appended, and every token lies among
them. -/
structure Tells (recs : List Rec) (x : Session) : Prop where
  logged : Logged recs x.machine
  clean : x.machine.fs.cachedBlockDirty = false
  wraps : x.machine.wraps = 0
  sync : ∀ f, (x.machine.fs.files f).sync ≠ 0
  told : ∀ f, mine x.machine.fs.header f recs = x.appended f
  versions : ∀ r ∈ recs, ((x.machine.fs.header.files r.file).version - r.version).toNat
    ≤ x.truncations r.file
  tokens : ∀ p ∈ x.tokens, Marks x.machine x.truncations p.1 p.2

namespace Tells

variable {recs : List Rec} {x : Session}

theorem describes (h : Tells recs x) : Describes (view x.machine) x.machine.fs.header recs :=
  h.logged.told h.wraps

theorem accounts (h : Tells recs x) :
    Accounts recs x.machine.fs.header x.appended x.truncations := ⟨h.told, h.versions⟩

/-- A new token on the log. -/
theorem produce (h : Tells recs x) {token : fkfs_iterator_token_t} {as es : List Rec}
    (ho : OnLog x.machine token as es) : Tells recs (x.produce token) := by
  refine ⟨h.logged, h.clean, h.wraps, h.sync, h.told, h.versions, fun p hp => ?_⟩
  rcases List.mem_cons.mp hp with rfl | hp
  · exact ⟨le_refl _, as, es, ho, fun hlt => absurd hlt (lt_irrefl _)⟩
  · exact h.tokens p hp

/-- The machine moves on, by no truncation, and the records tell what was
appended. -/
theorem moved (h : Tells recs x) {m : Machine} {recs' : List Rec}
    {appended : FileNumber → List (List UInt8)} (hl : Logged recs' m)
    (hclean : m.fs.cachedBlockDirty = false) (hwraps : m.wraps = 0) (hg : Grown x.machine m)
    (hset : m.fs.files = x.machine.fs.files)
    (hv : ∀ g, (m.fs.header.files g).version = (x.machine.fs.header.files g).version)
    (ha : Accounts recs' x.machine.fs.header appended x.truncations) :
    Tells recs' { x with machine := m, appended := appended } := by
  have hm : Accounts recs' m.fs.header appended x.truncations := ha.congr hv
  refine ⟨hl, hclean, hwraps, fun f => ?_, hm.told, hm.versions, fun p hp => ?_⟩
  · rw [hset]
    exact h.sync f
  · obtain ⟨hk, as, es, ho, hstale⟩ := h.tokens p hp
    exact ⟨hk, as, es, ho.grown hg, by rw [mine_congr (hv _)]; exact hstale⟩

/-- A call that only moves blocks through the cache. -/
theorem loads {m : Machine} (h : Tells recs x) (hl : Loads x.machine m) :
    Tells recs { x with machine := m } :=
  h.moved (h.logged.loads hl) (hl.dirty.trans h.clean) (hl.wraps.trans h.wraps)
    (grown_of_keeps hl.keeps) hl.files (fun g => by rw [hl.header]) h.accounts

/-- **An append** adds its payload to its file, and to no other. -/
theorem append (h : Tells recs x) (f : FileNumber) {data : List UInt8} (hlen : data.length ≤ 505)
    (pasts : ℕ → Mem) (hwraps : (fkfs_file_append .stops pasts x.machine f data).2.wraps = 0) :
    ∃ recs', Tells recs' (x.append f data (fkfs_file_append .stops pasts x.machine f data)) := by
  rcases append_logged .stops h.logged h.clean (h.sync f) hlen pasts with
    ⟨m, hm, e⟩ | ⟨m, hm, hpos, hgrown, hstore, e⟩
  · rw [e] at hwraps ⊢
    exact ⟨recs, h.moved hm.logged hm.seeks.dirty hwraps (hm.grown h.clean hwraps)
      hm.seeks.settings (fun g => by rw [hm.seeks.table]) h.accounts⟩
  · obtain ⟨-, hk, hclean⟩ := fsync_keeps hstore.coherent
    have hok := fsync_succeeds hstore.works
    have hm0 : m.wraps = 0 := by
      rw [e] at hwraps
      exact hk.wraps.symm.trans hwraps
    rw [e] at hwraps ⊢
    refine ⟨recs ++ [recordOf x.machine.fs.header f data], h.moved hstore.sync (hclean hok.1) hwraps
      (((hm.grown h.clean hm0).trans hgrown).trans (grown_of_keeps hk)) ?_ (fun g => ?_) ?_⟩
    · exact hk.settings.trans hm.seeks.settings
    · rw [hk.table, afterStore_version, hm.seeks.table]
    · rw [hok.1, if_pos rfl]
      exact h.accounts.store f data

/-- **A truncation** empties its file, and takes every token of it out of date. -/
theorem truncate (h : Tells recs x) (f : FileNumber) (hfew : x.truncations f + 1 < 65536) :
    Tells recs (x.truncate f) := by
  have hversion : ∀ g, g ≠ f → ((x.truncate f).machine.fs.header.files g).version
      = (x.machine.fs.header.files g).version := fun g hg =>
    congrArg fkfs_file_t.version (Function.update_of_ne hg _ _)
  have hself : ((x.truncate f).machine.fs.header.files f).version
      = (x.machine.fs.header.files f).version + 1 := by
    simp only [Session.truncate, fkfs_file_truncate, Machine.setHeader, fkfs_header_t.setFile,
      Function.update_self]
  obtain ⟨ha, hnone⟩ := h.accounts.truncate hfew hself hversion
  have hgrown : Grown x.machine (x.truncate f).machine := ⟨below_of_eq (fun _ _ => rfl) _, le_refl _⟩
  refine ⟨h.logged.truncate (h.accounts.fresh hfew).1, h.clean, h.wraps, h.sync, ha.told,
    ha.versions, fun p hp => ?_⟩
  obtain ⟨hk, as, es, ho, hstale⟩ := h.tokens p hp
  have hpre : as <+: recs := by
    obtain ⟨ds, hds, -⟩ := ho.here.split h.describes.track ho.here_le
    exact ⟨ds, hds.symm⟩
  unfold Marks
  change _ ≤ Function.update x.truncations f (x.truncations f + 1) p.1.file ∧ ∃ as es, _
    ∧ (_ < Function.update x.truncations f (x.truncations f + 1) p.1.file → _)
  by_cases hg : p.1.file = f
  · rw [hg, Function.update_self]
    rw [hg] at hk
    exact ⟨by omega, as, es, ho.grown hgrown, fun _ => hnone as hpre⟩
  · rw [Function.update_of_ne hg]
    exact ⟨hk, as, es, ho.grown hgrown, by rw [mine_congr (hversion _ hg)]; exact hstale⟩

end Tells

/-- `fkfs_file_append` in a session. -/
def Session.appending (x : Session) (f : FileNumber) (data : List UInt8) : Session :=
  x.append f data (fkfs_file_append .stops (fun _ _ => 0) x.machine f data)

end Fkfs.Truncation
