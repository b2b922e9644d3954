/-
Shift registers with feedback.

A reflected CRC moves its register one place down for every bit and adds the
polynomial when the bit that leaves is set (`step`). Adding is exclusive or, so
a run of steps is linear (`steps_xor`); a register whose low places are clear
only moves down (`steps_clear`). Together they are all a table-driven
implementation uses: its table holds the runs of the low places, and the rest of
the register is a shift (`steps_split`).

When the polynomial has its top bit set no step loses anything (`steps_inj`).
Then a register of `w` bits tells apart any two messages that differ within `w`
bits in a row.
-/
import Mathlib.Tactic

set_option autoImplicit false

namespace Lfsr

variable {w : ℕ} (poly : BitVec w)

/-- The register once one bit has left it. -/
def step (x : BitVec w) : BitVec w := if x.getLsbD 0 then (x >>> 1) ^^^ poly else x >>> 1

/-- The register once `n` bits have left it. -/
def steps : ℕ → BitVec w → BitVec w
  | 0, x => x
  | n + 1, x => steps n (step poly x)

theorem steps_add (m n : ℕ) (x : BitVec w) : steps poly (m + n) x = steps poly n (steps poly m x) := by
  induction m generalizing x with
  | zero => rw [Nat.zero_add, steps]
  | succ m ih => rw [Nat.succ_add, steps, ih, steps]

/-! ## Linearity -/

theorem step_xor (x y : BitVec w) : step poly (x ^^^ y) = step poly x ^^^ step poly y := by
  have hcancel : ∀ a b : BitVec w, a ^^^ poly ^^^ (b ^^^ poly) = a ^^^ b := by
    intro a b
    rw [BitVec.xor_assoc, BitVec.xor_comm b poly, ← BitVec.xor_assoc poly, BitVec.xor_self,
      BitVec.zero_xor]
  unfold step
  rw [BitVec.getLsbD_xor, BitVec.ushiftRight_xor_distrib]
  cases x.getLsbD 0 <;> cases y.getLsbD 0
  · rfl
  · exact BitVec.xor_assoc _ _ _
  · rw [if_pos (by rfl), if_pos rfl, if_neg Bool.false_ne_true, BitVec.xor_assoc, BitVec.xor_assoc,
      BitVec.xor_comm poly]
  · rw [if_neg (by decide), if_pos rfl, if_pos rfl, hcancel]

/-- **A run of steps is linear.** -/
theorem steps_xor (n : ℕ) (x y : BitVec w) :
    steps poly n (x ^^^ y) = steps poly n x ^^^ steps poly n y := by
  induction n generalizing x y with
  | zero => rfl
  | succ n ih => rw [steps, step_xor, ih, steps, steps]

/-- A register whose low places are clear moves down and does nothing else. -/
theorem steps_clear {n : ℕ} {x : BitVec w} (h : ∀ i, i < n → x.getLsbD i = false) :
    steps poly n x = x >>> n := by
  induction n generalizing x with
  | zero => rw [steps, BitVec.ushiftRight_zero]
  | succ n ih =>
    have hs : step poly x = x >>> 1 := by
      rw [step, h 0 (by omega), if_neg Bool.false_ne_true]
    rw [steps, hs, ih, ← BitVec.shiftRight_add, Nat.add_comm]
    intro i hi
    rw [BitVec.getLsbD_ushiftRight]
    exact h (1 + i) (by omega)

/-! ## Low places and the rest -/

/-- The low `n` places of a register, the others clear. -/
def low (n : ℕ) (x : BitVec w) : BitVec w := x &&& BitVec.ofNat w (2 ^ n - 1)

theorem getLsbD_low (n : ℕ) (x : BitVec w) (i : ℕ) :
    (low n x).getLsbD i = (x.getLsbD i && decide (i < n)) := by
  by_cases hi : i < w
  · rw [low, BitVec.getLsbD_and, BitVec.getLsbD_ofNat, Nat.testBit_two_pow_sub_one,
      decide_eq_true hi, Bool.true_and]
  · rw [BitVec.getLsbD_of_ge _ _ (by omega), BitVec.getLsbD_of_ge _ _ (by omega), Bool.false_and]

/-- A register is its low places and the rest. -/
theorem low_xor_rest (n : ℕ) (x : BitVec w) : x = low n x ^^^ (x >>> n) <<< n := by
  apply BitVec.eq_of_getLsbD_eq
  intro i hi
  rw [BitVec.getLsbD_xor, getLsbD_low, BitVec.getLsbD_shiftLeft, BitVec.getLsbD_ushiftRight]
  by_cases hn : i < n
  · simp [hn]
  · simp [hn, hi, Nat.add_sub_of_le (Nat.le_of_not_lt hn)]

/-- The rest comes down unchanged. -/
theorem steps_shiftLeft (n : ℕ) (x : BitVec w) : steps poly n (x <<< n) = x <<< n >>> n := by
  apply steps_clear
  intro i hi
  simp [hi]

/-- **What a table rests on**: `n` steps are those of the low `n` places, and the
rest of the register moved down. -/
theorem steps_split (n : ℕ) (x : BitVec w) :
    steps poly n x = steps poly n (low n x) ^^^ (x >>> n) := by
  conv_lhs => rw [low_xor_rest n x]
  rw [steps_xor, steps_shiftLeft]
  congr 1
  apply BitVec.eq_of_getLsbD_eq
  intro i _
  rw [BitVec.getLsbD_ushiftRight, BitVec.getLsbD_shiftLeft, BitVec.getLsbD_ushiftRight]
  by_cases hi : n + i < w
  · simp [hi]
  · simp [BitVec.getLsbD_of_ge x (n + i) (by omega)]

/-- Two inputs that follow each other, the second moved up behind the first, are
one input. -/
theorem steps_two (m n : ℕ) {x a b b' : BitVec w} (hb : b' <<< m = b) (hb' : b' <<< m >>> m = b') :
    steps poly n (steps poly m (x ^^^ a) ^^^ b') = steps poly (m + n) (x ^^^ (a ^^^ b)) := by
  rw [← BitVec.xor_assoc, steps_add, steps_xor poly m (x ^^^ a) b, ← hb, steps_shiftLeft, hb']

/-! ## Nothing is lost -/

variable {poly}

theorem step_eq_zero (hp : poly.msb = true) {x : BitVec w} (h : step poly x = 0#w) : x = 0#w := by
  rw [BitVec.msb_eq_getLsbD_last] at hp
  have hw : 0 < w := by
    by_contra hw
    obtain rfl : w = 0 := by omega
    rw [BitVec.getLsbD_of_ge _ _ (by omega)] at hp
    exact Bool.false_ne_true hp
  have htop : (x >>> 1).getLsbD (w - 1) = false := by
    rw [BitVec.getLsbD_ushiftRight, BitVec.getLsbD_of_ge _ _ (by omega)]
  unfold step at h
  by_cases h0 : x.getLsbD 0 = true
  · -- The top place holds the polynomial's bit and nothing else.
    rw [if_pos h0] at h
    have hbit := congrArg (fun v : BitVec w => v.getLsbD (w - 1)) h
    simp only [BitVec.getLsbD_xor, htop, hp, Bool.false_xor, BitVec.getLsbD_zero,
      Bool.true_eq_false] at hbit
  · rw [if_neg h0] at h
    apply BitVec.eq_of_getLsbD_eq
    intro i hi
    rw [BitVec.getLsbD_zero]
    rcases Nat.eq_zero_or_pos i with rfl | hpos
    · exact Bool.eq_false_iff.mpr h0
    · have hbit := congrArg (fun v : BitVec w => v.getLsbD (i - 1)) h
      simpa only [BitVec.getLsbD_ushiftRight, BitVec.getLsbD_zero,
        Nat.add_sub_of_le hpos] using hbit

theorem steps_eq_zero (hp : poly.msb = true) {n : ℕ} {x : BitVec w} (h : steps poly n x = 0#w) :
    x = 0#w := by
  induction n generalizing x with
  | zero => exact h
  | succ n ih => exact step_eq_zero hp (ih h)

/-- **No run of steps loses anything**, if the polynomial has its top bit set. -/
theorem steps_inj (hp : poly.msb = true) (n : ℕ) {x y : BitVec w}
    (h : steps poly n x = steps poly n y) : x = y := by
  apply BitVec.xor_eq_zero_iff.mp
  apply steps_eq_zero hp (n := n)
  rw [steps_xor, h, BitVec.xor_self]

end Lfsr
