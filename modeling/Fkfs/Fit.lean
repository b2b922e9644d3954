/-
What `fkfs_block_available_offset` looks for, and when it finds it.

The search goes along the chain of good entries and takes the first position
that has room and holds nothing worth keeping: no good entry, or one of a file
with a higher priority value in a stretch that is long enough (`First`). The
position it starts at has room by the caller's test, `required + newOffset >
SD_RAW_BLOCK_SIZE`; every later one is tested by the loop with a strict
comparison, so one where the entry would end exactly at the end of the block is
passed over. That is the only difference (`search_exact_iff`).
-/
import Fkfs.Mount
import Fkfs.Walk

set_option autoImplicit false

namespace Fkfs.Fit

open Bytes Relation
open Fkfs.Crc Fkfs.Layout Fkfs.Device Fkfs.Search Fkfs.Append Fkfs.Mount
open Fkfs.Walk

/-! ## The position that is looked for -/

/-- One step over a good entry. -/
def GoodStep (ov : Overrun) (past : Mem) (fs : fkfs_t) (o o' : ℕ) : Prop :=
  fkfs_block_check ov past fs o = .good ∧ o' = o + stride (fs.memory past) o

/-- An entry of `required` bytes has room at `o` and overwrites nothing worth
keeping there. -/
def Accepts (ov : Overrun) (past : Mem) (fs : fkfs_t) (priority : UInt8) (required : UInt16)
    (o : ℕ) : Prop :=
  o + required.toNat ≤ 512 ∧ (fkfs_block_check ov past fs o ≠ .good
    ∨ (priority < (fs.files (fileIndex (entryAt (fs.memory past) o).file)).priority
      ∧ required ≤ (entryAt (fs.memory past) o).available))

/-- The first such position on the chain from `o`. -/
structure First (ov : Overrun) (past : Mem) (fs : fkfs_t) (priority : UInt8) (required : UInt16)
    (o p : ℕ) : Prop where
  chain : ReflTransGen (GoodStep ov past fs) o p
  accepts : Accepts ov past fs priority required p
  first : ∀ q, ReflTransGen (GoodStep ov past fs) o q → q < p →
    ¬ Accepts ov past fs priority required q

section Search

variable {ov : Overrun} {past : Mem} {fs : fkfs_t} {priority : UInt8} {required : UInt16}

theorem GoodStep.lt {o o' : ℕ} (h : GoodStep ov past fs o o') : o < o' := by
  obtain ⟨-, rfl⟩ := h
  unfold stride
  omega

theorem goodStep_unique : Relator.RightUnique (GoodStep ov past fs) := by
  rintro o p q ⟨-, rfl⟩ ⟨-, rfl⟩
  rfl

/-- There is one first position. -/
theorem First.unique {o p q : ℕ} (hp : First ov past fs priority required o p)
    (hq : First ov past fs priority required o q) : p = q := by
  rcases lt_trichotomy p q with hlt | heq | hgt
  · exact absurd hp.accepts (hq.first p hp.chain hlt)
  · exact heq
  · exact absurd hq.accepts (hp.first q hq.chain hgt)

/-- A position that is accepted is first from itself. -/
theorem first_self {o : ℕ} (h : Accepts ov past fs priority required o) :
    First ov past fs priority required o o := by
  refine ⟨.refl, h, fun q hq hlt => ?_⟩
  have hle : o ≤ q := Trails.reach_le (fun hs => hs.lt) hq
  omega

/-- Over a position that is not accepted the first one stays the same. -/
theorem first_step {o o' p : ℕ} (hs : GoodStep ov past fs o o')
    (hno : ¬ Accepts ov past fs priority required o) :
    First ov past fs priority required o p ↔ First ov past fs priority required o' p := by
  constructor
  · intro h
    have hne : o ≠ p := fun he => hno (he ▸ h.accepts)
    refine ⟨Trails.reach_tail goodStep_unique hs h.chain hne, h.accepts, fun q hq hlt => ?_⟩
    exact h.first q (.head hs hq) hlt
  · intro h
    refine ⟨.head hs h.chain, h.accepts, fun q hq hlt => ?_⟩
    by_cases hoq : o = q
    · rw [← hoq]
      exact hno
    · exact h.first q (Trails.reach_tail goodStep_unique hs hq hoq) hlt

/-- No position with less room than required is accepted, nor any behind it. -/
theorem not_first_of_full {o p : ℕ} (ho : 512 < o + required.toNat) :
    ¬ First ov past fs priority required o p := by
  intro h
  have hle : o ≤ p := Trails.reach_le (fun hs => hs.lt) h.chain
  have := h.accepts.1
  omega

/-! ## The loop -/

/-- What the loop finds from `o` on, where there is room: the first position, or
nothing, and then the first position, if there is one, is an exact fit further
on. -/
theorem availableLoop_first (ov : Overrun) (past : Mem) (fs : fkfs_t) (priority : UInt8)
    (hreq : 8 ≤ required.toNat) {n : ℕ} {o : UInt16}
    (hroom : o.toNat + required.toNat ≤ 512) (hn : 504 < o.toNat + n) :
    (∃ status o', availableLoop ov past fs priority required n o = (true, ⟨o', status⟩)
        ∧ First ov past fs priority required o.toNat o'.toNat
        ∧ (o' = o ∨ o'.toNat + required.toNat < 512))
      ∨ ((availableLoop ov past fs priority required n o).1 = false
        ∧ ∀ p, First ov past fs priority required o.toNat p → o.toNat < p
          ∧ p + required.toNat = 512) := by
  induction n generalizing o with
  | zero => omega
  | succ n ih =>
    simp only [availableLoop]
    rcases check_cases ov past fs o.toNat with ⟨hc, -⟩ | ⟨hp, hc⟩
    · left
      rw [hc]
      exact ⟨.size, o, rfl, first_self ⟨hroom, .inl (by rw [hc]; simp)⟩, .inl rfl⟩
    rcases hc with ⟨hc, -⟩ | ⟨hc, -⟩
    · rw [hc]
      dsimp only
      split
      · rename_i hprio
        exact .inl ⟨.priority, o, rfl, first_self ⟨hroom, .inr hprio⟩, .inl rfl⟩
      · rename_i hprio
        have hno : ¬ Accepts ov past fs priority required o.toNat := by
          rintro ⟨-, hcon | hcon⟩
          · exact hcon hc
          · exact hprio hcon
        have havail := hp.2.avail_lt
        have hnat : (o + (7 + (entryAt (fs.memory past) o.toNat).available)).toNat
            = o.toNat + (7 + (entryAt (fs.memory past) o.toNat).available.toNat) := by
          rw [UInt16.toNat_add, UInt16.toNat_add, show (7 : UInt16).toNat = 7 from rfl]
          omega
        have hs : GoodStep ov past fs o.toNat
            (o + (7 + (entryAt (fs.memory past) o.toNat).available)).toNat := ⟨hc, hnat⟩
        have hlt := hs.lt
        generalize o + (7 + (entryAt (fs.memory past) o.toNat).available) = o1 at hs hlt
        split
        · rename_i hin
          rcases ih (o := o1) (by simp only [SD_RAW_BLOCK_SIZE] at hin; omega) (by omega) with
            ⟨status, o', he, hf, hend⟩ | ⟨he, hf⟩
          · refine .inl ⟨status, o', he, (first_step hs hno).mpr hf, .inr ?_⟩
            rcases hend with rfl | hend
            · exact hin
            · exact hend
          · refine .inr ⟨he, fun p hfp => ?_⟩
            obtain ⟨h1, h2⟩ := hf p ((first_step hs hno).mp hfp)
            exact ⟨by omega, h2⟩
        · -- The strict comparison of the loop: nothing is left, or an exact fit.
          rename_i hout
          refine .inr ⟨rfl, fun p hfp => ?_⟩
          have hf := (first_step hs hno).mp hfp
          have hle : o1.toNat ≤ p := Trails.reach_le (fun hs => hs.lt) hf.chain
          have := hf.accepts.1
          simp only [SD_RAW_BLOCK_SIZE, not_lt] at hout
          omega
    · left
      rw [hc]
      exact ⟨.crc, o, rfl, first_self ⟨hroom, .inl (by rw [hc]; simp)⟩, .inl rfl⟩

/-! ## Soundness and completeness -/

/-- The search finds the first position, and nothing only if there is none. -/
structure Exact (ov : Overrun) (past : Mem) (fs : fkfs_t) (priority : UInt8) (required : UInt16)
    (o : UInt16) : Prop where
  finds : ∀ o' : UInt16, (∃ status,
      fkfs_block_available_offset ov past fs priority required o = (true, ⟨o', status⟩))
    ↔ First ov past fs priority required o.toNat o'.toNat
  misses : (fkfs_block_available_offset ov past fs priority required o).1 = false
    ↔ ¬ ∃ p, First ov past fs priority required o.toNat p

/-- **The in-block search is sound and complete exactly if** the first position
is not one behind the start where the entry would end exactly at the end of the
block. -/
theorem search_exact_iff (hreq : 8 ≤ required.toNat) {o : UInt16}
    (hroom : o.toNat + required.toNat ≤ 512) :
    Exact ov past fs priority required o
      ↔ ¬ ∃ p, First ov past fs priority required o.toNat p ∧ o.toNat < p
        ∧ p + required.toNat = 512 := by
  rcases availableLoop_first ov past fs priority hreq hroom
    (n := 512) (by omega) with ⟨status, o', he, hf, hend⟩ | ⟨he, hmiss⟩
  · -- It found the first position, and that is not one of the kind it passes over.
    replace he : fkfs_block_available_offset ov past fs priority required o = _ := he
    constructor
    · rintro - ⟨p, hp, hlt, hexact⟩
      rw [hp.unique hf] at hlt hexact
      rcases hend with rfl | hend
      · exact absurd hlt (lt_irrefl _)
      · omega
    · intro _
      refine ⟨fun p => ⟨?_, fun hp => ⟨status, ?_⟩⟩, ?_⟩
      · rintro ⟨status', h⟩
        rw [he] at h
        cases h
        exact hf
      · rw [he, UInt16.toNat_inj.mp (hp.unique hf)]
      · rw [he]
        exact ⟨fun h => (Bool.noConfusion h), fun hno => absurd ⟨_, hf⟩ hno⟩
  · replace he : (fkfs_block_available_offset ov past fs priority required o).1 = false := he
    constructor
    · rintro hexact ⟨p, hp, -⟩
      exact hexact.misses.mp he ⟨p, hp⟩
    · intro hno
      have hnone : ∀ p, ¬ First ov past fs priority required o.toNat p := fun p hp =>
        hno ⟨p, hp, hmiss p hp⟩
      refine ⟨fun p => ⟨?_, fun hp => absurd hp (hnone _)⟩, ⟨fun _ ⟨p, hp⟩ => hnone p hp, fun _ => he⟩⟩
      rintro ⟨status, h⟩
      rw [h] at he
      cases he

end Search

/-- A block with one entry of one byte at offset 0 and zeros behind it. -/
def oneEntry : fkfs_t :=
  { fkfs_create with buffer := memcpy zeroBlock 0 (Rec.bytes ⟨0, 0, [1]⟩) }

set_option maxRecDepth 100000 in
/-- Behind that entry there are 504 bytes. An entry of 504 bytes is the first to
fit there, and the search finds nothing. -/
theorem exact_fit_is_passed_over :
    8 ≤ (504 : UInt16).toNat ∧ (0 : UInt16).toNat + (504 : UInt16).toNat ≤ 512
      ∧ ¬ Exact .reads (fun _ => 0) oneEntry 0 504 0 := by
  refine ⟨by decide, by decide, fun hexact => ?_⟩
  have hfound : (fkfs_block_available_offset .reads (fun _ => 0) oneEntry 0 504 0).1 = false
      ∧ fkfs_block_check .reads (fun _ => 0) oneEntry 0 = .good
      ∧ 8 = 0 + stride (oneEntry.memory fun _ => 0) 0
      ∧ fkfs_block_check .reads (fun _ => 0) oneEntry 8 ≠ .good
      ∧ ¬ (504 : UInt16) ≤ (entryAt (oneEntry.memory fun _ => 0) 0).available := by
    decide +kernel
  obtain ⟨hfalse, hgood, hstride, hblank, hshort⟩ := hfound
  have hs : GoodStep .reads (fun _ => 0) oneEntry 0 8 := ⟨hgood, hstride⟩
  have hno : ¬ Accepts .reads (fun _ => 0) oneEntry 0 504 0 := by
    rintro ⟨-, hcon | hcon⟩
    · exact hcon hgood
    · exact hshort hcon.2
  have hfirst : First .reads (fun _ => 0) oneEntry 0 504 0 8 :=
    (first_step hs hno).mpr (first_self ⟨by decide, .inl hblank⟩)
  exact hexact.misses.mp hfalse ⟨8, hfirst⟩

set_option maxRecDepth 100000 in
/-- In a block of zeros the start itself is the first position. -/
theorem search_exact_blank : Exact .reads (fun _ => 0) fkfs_create 0 8 0 := by
  have hblank : fkfs_block_check .reads (fun _ => 0) fkfs_create 0 ≠ .good := by decide +kernel
  refine (search_exact_iff (by decide) (by decide)).mpr ?_
  rintro ⟨p, hp, hlt, -⟩
  rw [hp.unique (first_self ⟨by decide, .inl hblank⟩)] at hlt
  exact absurd hlt (by decide)

end Fkfs.Fit
