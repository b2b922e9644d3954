/-
Byte memory: addressed bytes, little-endian words, and copies into a buffer.

A memory is a total function from addresses to bytes, so a read past the end of
an object is a read of whatever the function says is there and never an error.
The two questions a proof asks of it are what a run of addresses holds
(`Holds`) and what a copy changes (`memcpy_get`); the word readers are stated
through the first and the frame conditions through the second.
-/
import Mathlib.Data.List.GetD
import Mathlib.Tactic

set_option autoImplicit false

namespace Bytes

/-- Addressed bytes. -/
abbrev Mem := ℕ → UInt8

/-- The `n` bytes from address `o` on. -/
def slice (m : Mem) (o n : ℕ) : List UInt8 := (List.range n).map fun k => m (o + k)

@[simp] theorem slice_length (m : Mem) (o n : ℕ) : (slice m o n).length = n := by
  simp [slice]

@[simp] theorem slice_zero (m : Mem) (o : ℕ) : slice m o 0 = [] := rfl

@[simp] theorem slice_getElem (m : Mem) (o n k : ℕ) (h : k < (slice m o n).length) :
    (slice m o n)[k] = m (o + k) := by
  simp [slice]

/-- A slice reads nothing but its own addresses. -/
theorem slice_congr {m m' : Mem} {o n : ℕ} (h : ∀ i, o ≤ i → i < o + n → m i = m' i) :
    slice m o n = slice m' o n := by
  apply List.map_congr_left
  intro k hk
  have hk' : k < n := List.mem_range.mp hk
  exact h (o + k) (by omega) (by omega)

theorem slice_add (m : Mem) (o a b : ℕ) :
    slice m o (a + b) = slice m o a ++ slice m (o + a) b := by
  simp only [slice, List.range_add, List.map_append, List.map_map]
  congr 1
  apply List.map_congr_left
  intro k _
  simp only [Function.comp_apply]
  congr 1
  omega

/-! ## What a run of addresses holds -/

/-- From address `o` on, the memory holds the bytes `bs`. -/
def Holds (m : Mem) (o : ℕ) (bs : List UInt8) : Prop := slice m o bs.length = bs

theorem holds_nil (m : Mem) (o : ℕ) : Holds m o [] := rfl

theorem holds_iff (m : Mem) (o : ℕ) (bs : List UInt8) :
    Holds m o bs ↔ ∀ k (h : k < bs.length), m (o + k) = bs[k] := by
  constructor
  · intro h k hk
    have hk' : k < (slice m o bs.length).length := by simpa using hk
    rw [← slice_getElem m o bs.length k hk']
    simp only [show slice m o bs.length = bs from h]
  · intro h
    apply List.ext_getElem (by simp)
    intro k h1 h2
    rw [slice_getElem, h k h2]

@[simp] theorem holds_append (m : Mem) (o : ℕ) (as bs : List UInt8) :
    Holds m o (as ++ bs) ↔ Holds m o as ∧ Holds m (o + as.length) bs := by
  unfold Holds
  rw [List.length_append, slice_add]
  constructor
  · intro h
    exact List.append_inj h (by simp)
  · rintro ⟨h1, h2⟩
    rw [h1, h2]

@[simp] theorem holds_cons (m : Mem) (o : ℕ) (a : UInt8) (bs : List UInt8) :
    Holds m o (a :: bs) ↔ m o = a ∧ Holds m (o + 1) bs := by
  rw [show a :: bs = [a] ++ bs from rfl, holds_append]
  simp [Holds, slice, List.range_succ]

/-- Memories that agree on the run hold the same bytes there. -/
theorem Holds.congr {m m' : Mem} {o : ℕ} {bs : List UInt8} (h : Holds m o bs)
    (hm : ∀ i, o ≤ i → i < o + bs.length → m i = m' i) : Holds m' o bs := by
  unfold Holds at h ⊢
  rw [← slice_congr hm, h]

/-- What is held is what a slice of that length reads. -/
theorem Holds.slice_eq {m : Mem} {o n : ℕ} {bs : List UInt8} (h : Holds m o bs)
    (hn : bs.length = n) : slice m o n = bs := by
  subst hn
  exact h

/-! ## Little-endian words -/

/-- The two bytes of a 16-bit word, low byte first. -/
def le16 (v : UInt16) : List UInt8 := [UInt8.ofNat v.toNat, UInt8.ofNat (v.toNat / 256)]

/-- The four bytes of a 32-bit word, low byte first. -/
def le32 (v : UInt32) : List UInt8 :=
  [UInt8.ofNat v.toNat, UInt8.ofNat (v.toNat / 256), UInt8.ofNat (v.toNat / 65536),
    UInt8.ofNat (v.toNat / 16777216)]

@[simp] theorem le16_length (v : UInt16) : (le16 v).length = 2 := rfl

@[simp] theorem le32_length (v : UInt32) : (le32 v).length = 4 := rfl

/-- The 16-bit word stored at address `o`. -/
def u16 (m : Mem) (o : ℕ) : UInt16 := UInt16.ofNat ((m o).toNat + 256 * (m (o + 1)).toNat)

/-- The 32-bit word stored at address `o`. -/
def u32 (m : Mem) (o : ℕ) : UInt32 :=
  UInt32.ofNat ((m o).toNat + 256 * (m (o + 1)).toNat + 65536 * (m (o + 2)).toNat
    + 16777216 * (m (o + 3)).toNat)

theorem u16_congr {m m' : Mem} {o : ℕ} (h : ∀ i, o ≤ i → i < o + 2 → m i = m' i) :
    u16 m o = u16 m' o := by
  unfold u16
  rw [h o (by omega) (by omega), h (o + 1) (by omega) (by omega)]

/-- A stored 16-bit word reads back. -/
theorem u16_of_holds {m : Mem} {o : ℕ} {v : UInt16} (h : Holds m o (le16 v)) : u16 m o = v := by
  have hv := v.toNat_lt
  simp only [le16, holds_cons] at h
  apply UInt16.toNat_inj.mp
  simp only [u16, h.1, h.2.1, UInt8.toNat_ofNat', UInt16.toNat_ofNat']
  omega

/-- A stored 32-bit word reads back. -/
theorem u32_of_holds {m : Mem} {o : ℕ} {v : UInt32} (h : Holds m o (le32 v)) : u32 m o = v := by
  have hv := v.toNat_lt
  simp only [le32, holds_cons] at h
  obtain ⟨h0, h1, h2, h3, -⟩ := h
  apply UInt32.toNat_inj.mp
  simp only [u32, h0, h1, show o + 2 = o + 1 + 1 by omega, h2, show o + 3 = o + 1 + 1 + 1 by omega,
    h3, UInt8.toNat_ofNat', UInt32.toNat_ofNat']
  omega

/-- What was read as a 16-bit word is what lies there. -/
theorem holds_u16 (m : Mem) (o : ℕ) : Holds m o (le16 (u16 m o)) := by
  have h0 := (m o).toNat_lt
  have h1 := (m (o + 1)).toNat_lt
  simp only [le16, holds_cons, holds_nil, and_true]
  constructor <;> apply UInt8.toNat_inj.mp <;>
    simp only [u16, UInt8.toNat_ofNat', UInt16.toNat_ofNat'] <;> omega

/-- What was read as a 32-bit word is what lies there. -/
theorem holds_u32 (m : Mem) (o : ℕ) : Holds m o (le32 (u32 m o)) := by
  have h0 := (m o).toNat_lt
  have h1 := (m (o + 1)).toNat_lt
  have h2 := (m (o + 2)).toNat_lt
  have h3 := (m (o + 3)).toNat_lt
  simp only [le32, holds_cons, holds_nil, and_true, show o + 1 + 1 = o + 2 from rfl,
    show o + 2 + 1 = o + 3 from rfl]
  refine ⟨?_, ?_, ?_, ?_⟩ <;> apply UInt8.toNat_inj.mp <;>
    simp only [u32, UInt8.toNat_ofNat', UInt32.toNat_ofNat'] <;> omega

/-! ## Fixed-size buffers -/

/-- A buffer of `n` bytes. -/
abbrev Buf (n : ℕ) := Fin n → UInt8

variable {n : ℕ}

/-- A buffer as memory: zero outside. -/
def Buf.mem (b : Buf n) : Mem := fun i => if h : i < n then b ⟨i, h⟩ else 0

/-- Copy `src` into the buffer from offset `o` on; bytes that would fall past
the buffer are dropped. -/
def memcpy (b : Buf n) (o : ℕ) (src : List UInt8) : Buf n :=
  fun i => if o ≤ i.val ∧ i.val < o + src.length then src.getD (i.val - o) 0 else b i

theorem Buf.mem_lt (b : Buf n) {i : ℕ} (h : i < n) : b.mem i = b ⟨i, h⟩ := dif_pos h

theorem Buf.ext_mem {a b : Buf n} (h : ∀ i, i < n → a.mem i = b.mem i) : a = b := by
  funext i
  have := h i.val i.isLt
  rwa [Buf.mem_lt a i.isLt, Buf.mem_lt b i.isLt] at this

/-- What one address of the buffer holds after a copy. -/
theorem memcpy_get (b : Buf n) (o : ℕ) (src : List UInt8) (i : ℕ) (h : i < n) :
    (memcpy b o src).mem i
      = if o ≤ i ∧ i < o + src.length then src.getD (i - o) 0 else b.mem i := by
  rw [Buf.mem_lt _ h, Buf.mem_lt _ h]
  rfl

/-- A copy leaves the bytes outside its stretch alone. -/
theorem memcpy_outside (b : Buf n) (o : ℕ) (src : List UInt8) {i : ℕ}
    (h : i < o ∨ o + src.length ≤ i) : (memcpy b o src).mem i = b.mem i := by
  by_cases hi : i < n
  · rw [memcpy_get b o src i hi, if_neg (by omega)]
  · simp only [Buf.mem, dif_neg hi]

/-- A copy that fits holds what was copied. -/
theorem memcpy_holds (b : Buf n) (o : ℕ) (src : List UInt8) (h : o + src.length ≤ n) :
    Holds (memcpy b o src).mem o src := by
  rw [holds_iff]
  intro k hk
  rw [memcpy_get b o src (o + k) (by omega), if_pos (by omega), Nat.add_sub_cancel_left,
    List.getD_eq_getElem _ _ hk]

/-- Two copies that follow each other are one copy. -/
theorem memcpy_memcpy (b : Buf n) (o : ℕ) (as bs : List UInt8) :
    memcpy (memcpy b o as) (o + as.length) bs = memcpy b o (as ++ bs) := by
  apply Buf.ext_mem
  intro i hi
  rw [memcpy_get _ _ _ i hi, memcpy_get _ _ _ i hi, memcpy_get _ _ _ i hi, List.length_append]
  by_cases h1 : i < o
  · rw [if_neg (by omega), if_neg (by omega), if_neg (by omega)]
  · by_cases h2 : i < o + as.length
    · rw [if_neg (by omega), if_pos (by omega), if_pos (by omega),
        List.getD_append _ _ _ _ (by omega)]
    · by_cases h3 : i < o + as.length + bs.length
      · rw [if_pos (by omega), if_pos (by omega), List.getD_append_right _ _ _ _ (by omega),
          Nat.sub_sub]
      · rw [if_neg (by omega), if_neg (by omega), if_neg (by omega)]

/-- A copy changes nothing where the buffer already holds the same bytes. -/
theorem memcpy_congr {a b : Buf n} (o : ℕ) (src : List UInt8)
    (h : ∀ i, i < n → (i < o ∨ o + src.length ≤ i) → a.mem i = b.mem i) :
    memcpy a o src = memcpy b o src := by
  apply Buf.ext_mem
  intro i hi
  rw [memcpy_get _ _ _ i hi, memcpy_get _ _ _ i hi]
  split
  · rfl
  · exact h i hi (by omega)

end Bytes
