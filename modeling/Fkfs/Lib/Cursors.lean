/-
Cursors into a list that grows at its end and is emptied now and then.

A `Tape` is such a list, with the number of times it was emptied. A `Cursor` has a
place on the tape and an end, both as numbers of items, and remembers how often the
tape had been emptied when it was made. Of a tape that was emptied since it has
nothing behind it and nothing before it, so a cursor never delivers an item twice
or one that is gone, and what it has left does not depend on what is put on the
tape after its end.

Items may have positions. A reader with a budget gives up where the next item is too
far away (`upTo`), and gets all of them just if no two are that far apart (`Dense`).
-/
import Mathlib.Data.List.Basic
import Mathlib.Order.Lattice
import Mathlib.Data.Nat.Basic

set_option autoImplicit false

namespace Cursors

variable {α : Type*}

/-- A list and how often it was emptied. -/
structure Tape (α : Type*) where
  items : List α
  epoch : ℕ

/-- A place on a tape and an end, `epoch` times emptied. -/
structure Cursor where
  epoch : ℕ
  seen : ℕ
  upto : ℕ

namespace Tape

/-- A tape nothing was ever put on. -/
def blank : Tape α := ⟨[], 0⟩

/-- One more item. -/
def push (t : Tape α) (x : α) : Tape α := { t with items := t.items ++ [x] }

/-- The tape is emptied. -/
def clear (t : Tape α) : Tape α := ⟨[], t.epoch + 1⟩

/-- A cursor over all there is. -/
def whole (t : Tape α) : Cursor := ⟨t.epoch, 0, t.items.length⟩

/-- A cursor over nothing. -/
def nothing (t : Tape α) : Cursor := ⟨t.epoch, 0, 0⟩

end Tape

namespace Cursor

/-- The items a cursor has behind it. -/
def behind (c : Cursor) (t : Tape α) : List α :=
  if c.epoch = t.epoch then t.items.take c.seen else []

/-- The items up to the end of a cursor. -/
def within (c : Cursor) (t : Tape α) : List α :=
  if c.epoch = t.epoch then t.items.take c.upto else []

/-- The items a cursor has left. -/
def rest (c : Cursor) (t : Tape α) : List α := (c.within t).drop (c.behind t).length

/-- The cursor behind the next item. -/
def advance (c : Cursor) : Cursor := { c with seen := c.seen + 1 }

/-- The cursor at its end. -/
def finish (c : Cursor) : Cursor := { c with seen := c.upto }

/-- The cursor at the same place, with all there is before it. -/
def extend (c : Cursor) (t : Tape α) : Cursor :=
  if c.epoch = t.epoch then { c with upto := t.items.length } else t.whole

/-- A cursor that was made for the tape. -/
structure Valid (c : Cursor) (t : Tape α) : Prop where
  epoch_le : c.epoch ≤ t.epoch
  seen_le : c.epoch = t.epoch → c.seen ≤ t.items.length
  upto_le : c.epoch = t.epoch → c.upto ≤ t.items.length

section Behind

variable {c : Cursor} {t : Tape α} {x : α}

theorem behind_current (h : c.epoch = t.epoch) : c.behind t = t.items.take c.seen := if_pos h

theorem within_current (h : c.epoch = t.epoch) : c.within t = t.items.take c.upto := if_pos h

theorem behind_stale (h : c.epoch ≠ t.epoch) : c.behind t = [] := if_neg h

theorem within_stale (h : c.epoch ≠ t.epoch) : c.within t = [] := if_neg h

theorem rest_current (hv : c.Valid t) (h : c.epoch = t.epoch) :
    c.rest t = (t.items.take c.upto).drop c.seen := by
  rw [rest, behind_current h, within_current h, List.length_take, min_eq_left (hv.seen_le h)]

theorem rest_stale (h : c.epoch ≠ t.epoch) : c.rest t = [] := by
  rw [rest, within_stale h, List.drop_nil]

/-- A cursor that has something left is one of the tape as it is. -/
theorem epoch_of_rest {r : List α} (h : c.rest t = x :: r) : c.epoch = t.epoch := by
  by_contra hne
  rw [rest_stale hne] at h
  exact List.cons_ne_nil x r h.symm

end Behind

/-! ## What happens to the tape -/

section Tape

variable {c : Cursor} {t : Tape α}

theorem Valid.push (h : c.Valid t) (x : α) : c.Valid (t.push x) := by
  have hlen : (t.push x).items.length = t.items.length + 1 := List.length_append
  refine ⟨h.epoch_le, fun he => ?_, fun he => ?_⟩
  · rw [hlen]
    exact Nat.le_succ_of_le (h.seen_le he)
  · rw [hlen]
    exact Nat.le_succ_of_le (h.upto_le he)

theorem Valid.clear (h : c.Valid t) : c.Valid t.clear := by
  have hne : c.epoch ≠ t.clear.epoch := ne_of_lt (Nat.lt_succ_of_le h.epoch_le)
  exact ⟨Nat.le_succ_of_le h.epoch_le, fun he => absurd he hne, fun he => absurd he hne⟩

/-- What is put on the tape is behind no cursor and before none. -/
theorem behind_push (h : c.Valid t) (x : α) : c.behind (t.push x) = c.behind t := by
  by_cases he : c.epoch = t.epoch
  · rw [behind_current he, behind_current (show c.epoch = (t.push x).epoch from he)]
    exact List.take_append_of_le_length (h.seen_le he)
  · rw [behind_stale he, behind_stale (show c.epoch ≠ (t.push x).epoch from he)]

theorem within_push (h : c.Valid t) (x : α) : c.within (t.push x) = c.within t := by
  by_cases he : c.epoch = t.epoch
  · rw [within_current he, within_current (show c.epoch = (t.push x).epoch from he)]
    exact List.take_append_of_le_length (h.upto_le he)
  · rw [within_stale he, within_stale (show c.epoch ≠ (t.push x).epoch from he)]

/-- A cursor has nothing of what is put on the tape after it was made. -/
theorem rest_push (h : c.Valid t) (x : α) : c.rest (t.push x) = c.rest t := by
  rw [rest, rest, behind_push h, within_push h]

theorem behind_clear (h : c.Valid t) : c.behind t.clear = [] :=
  behind_stale (ne_of_lt (Nat.lt_succ_of_le h.epoch_le))

theorem within_clear (h : c.Valid t) : c.within t.clear = [] :=
  within_stale (ne_of_lt (Nat.lt_succ_of_le h.epoch_le))

end Tape

/-! ## What happens to a cursor -/

section Moves

variable {c : Cursor} {t : Tape α}

theorem valid_whole (t : Tape α) : t.whole.Valid t :=
  ⟨le_refl _, fun _ => Nat.zero_le _, fun _ => le_refl _⟩

@[simp] theorem behind_whole (t : Tape α) : t.whole.behind t = [] := by
  rw [behind_current rfl, Tape.whole, List.take_zero]

@[simp] theorem within_whole (t : Tape α) : t.whole.within t = t.items := by
  rw [within_current rfl, Tape.whole, List.take_length]

theorem valid_nothing (t : Tape α) : t.nothing.Valid t :=
  ⟨le_refl _, fun _ => Nat.zero_le _, fun _ => Nat.zero_le _⟩

@[simp] theorem behind_nothing (t : Tape α) : t.nothing.behind t = [] := by
  rw [behind_current rfl, Tape.nothing, List.take_zero]

@[simp] theorem within_nothing (t : Tape α) : t.nothing.within t = [] := by
  rw [within_current rfl, Tape.nothing, List.take_zero]

theorem Valid.extend (h : c.Valid t) : (c.extend t).Valid t := by
  unfold Cursor.extend
  split
  · exact ⟨h.epoch_le, h.seen_le, fun _ => le_refl _⟩
  · exact valid_whole t

@[simp] theorem behind_extend (c : Cursor) (t : Tape α) : (c.extend t).behind t = c.behind t := by
  unfold Cursor.extend
  split
  · rfl
  · rename_i he
    rw [behind_whole, behind_stale he]

@[simp] theorem within_extend (c : Cursor) (t : Tape α) : (c.extend t).within t = t.items := by
  by_cases he : c.epoch = t.epoch
  · rw [Cursor.extend, if_pos he]
    exact (if_pos he).trans List.take_length
  · rw [Cursor.extend, if_neg he]
    exact within_whole t

theorem Valid.finish (h : c.Valid t) : c.finish.Valid t := ⟨h.epoch_le, h.upto_le, h.upto_le⟩

@[simp] theorem behind_finish (c : Cursor) (t : Tape α) : c.finish.behind t = c.within t := rfl

@[simp] theorem within_finish (c : Cursor) (t : Tape α) : c.finish.within t = c.within t := rfl

section Advance

variable {x : α} {r : List α}

/-- The next item is on the tape. -/
theorem items_of_rest (hv : c.Valid t) (h : c.rest t = x :: r) :
    ∃ hlt : c.seen < t.items.length, t.items[c.seen] = x := by
  have hcur := epoch_of_rest h
  rw [rest_current hv hcur] at h
  have hget : (t.items.take c.upto)[c.seen]? = some x := by
    rw [← List.head?_drop, h]
    rfl
  rw [List.getElem?_take] at hget
  split at hget
  · exact List.getElem?_eq_some_iff.mp hget
  · cases hget

theorem Valid.advance (hv : c.Valid t) (h : c.rest t = x :: r) : c.advance.Valid t := by
  obtain ⟨hlt, -⟩ := items_of_rest hv h
  exact ⟨hv.epoch_le, fun _ => hlt, hv.upto_le⟩

/-- **Advancing** puts the next item behind the cursor. -/
theorem behind_advance (hv : c.Valid t) (h : c.rest t = x :: r) :
    c.advance.behind t = c.behind t ++ [x] := by
  obtain ⟨hlt, hx⟩ := items_of_rest hv h
  have hcur := epoch_of_rest h
  rw [behind_current hcur, behind_current (show c.advance.epoch = t.epoch from hcur), ← hx,
    List.take_append_getElem hlt]
  rfl

@[simp] theorem within_advance (c : Cursor) (t : Tape α) : c.advance.within t = c.within t := rfl

/-- What is left behind the next item. -/
theorem rest_advance (hv : c.Valid t) (h : c.rest t = x :: r) : c.advance.rest t = r := by
  rw [rest, behind_advance hv h, within_advance, List.length_append, ← List.drop_drop]
  have hrest : (c.within t).drop (c.behind t).length = x :: r := h
  rw [hrest]
  rfl

end Advance

end Moves

end Cursor

/-! ## Budgets -/

/-- What a reader at position `p` gets to if it gives up at a gap of `budget`; 0 is no
budget at all. -/
def upTo (budget : ℕ) : ℕ → List (ℕ × α) → List (ℕ × α)
  | _, [] => []
  | p, x :: xs => if budget = 0 ∨ x.1 < p + budget then x :: upTo budget x.1 xs else []

/-- No two items are `budget` apart, nor the first one from `p`. -/
def Dense (budget p : ℕ) (xs : List (ℕ × α)) : Prop :=
  budget = 0 ∨ List.IsChain (fun q r => r < q + budget) (p :: xs.map Prod.fst)

theorem upTo_prefix (budget p : ℕ) (xs : List (ℕ × α)) : upTo budget p xs <+: xs := by
  induction xs generalizing p with
  | nil => exact List.prefix_refl _
  | cons x xs ih =>
    unfold upTo
    split
    · exact (List.prefix_cons_inj x).mpr (ih x.1)
    · exact List.nil_prefix

/-- **The reader gets all** just if there is no gap. -/
theorem upTo_eq_iff (budget p : ℕ) (xs : List (ℕ × α)) :
    upTo budget p xs = xs ↔ Dense budget p xs := by
  induction xs generalizing p with
  | nil => exact ⟨fun _ => .inr (List.IsChain.singleton p), fun _ => rfl⟩
  | cons x xs ih =>
    unfold upTo
    by_cases hnear : budget = 0 ∨ x.1 < p + budget
    · rw [if_pos hnear, List.cons_inj_right, ih, Dense, Dense, List.map_cons,
        List.isChain_cons_cons]
      constructor
      · rintro (h0 | hchain)
        · exact .inl h0
        · exact hnear.imp id fun hlt => ⟨hlt, hchain⟩
      · rintro (h0 | ⟨-, hchain⟩)
        · exact .inl h0
        · exact .inr hchain
    · rw [if_neg hnear]
      refine ⟨fun h => absurd h.symm (List.cons_ne_nil x xs), ?_⟩
      rintro (h0 | hchain)
      · exact absurd (.inl h0) hnear
      · exact absurd (.inr (List.isChain_cons_cons.mp hchain).1) hnear

end Cursors
