/-
Walks of a system that moves forward.

A labelled step relation `step p xs q` goes from `p` to `q` and gives off the
labels `xs`; a `Trail` joins steps and their labels. Everything here is about
steps that strictly increase in a preorder and whose target is decided by their
source, so two walks from one place run along the same line and differ in how
far they go and in what they give off, never in where they pass.

Two facts carry the proofs that use this. `reach_between`: of two places on the
line, the later is reached from the earlier. `Trail.follow`: if two step
relations agree on targets and their labels are related step by step, then the
shorter of two trails from one place runs along the longer, and its labels are
related to those of the part it covers. Labels can be marked with the place they
were given off at (`Marked`), without changing the walk.
-/
import Mathlib.Logic.Relation
import Mathlib.Order.Basic

set_option autoImplicit false

namespace Trails

open Relation

variable {P α β : Type*}

/-! ## Unlabelled walks -/

/-- A place where no step starts is the end of every walk from it. -/
theorem reach_stuck {next : P → P → Prop} {a b : P} (hstuck : ∀ c, ¬ next a c)
    (h : ReflTransGen next a b) : b = a := by
  rcases ReflTransGen.cases_head h with rfl | ⟨c, hac, -⟩
  · rfl
  · exact absurd hac (hstuck c)

/-- Where a walk to `b` goes on from its start, if it does not end there. -/
theorem reach_tail {next : P → P → Prop} (huniq : Relator.RightUnique next) {a b c : P}
    (hs : next a c) (h : ReflTransGen next a b) (hne : a ≠ b) : ReflTransGen next c b := by
  rcases ReflTransGen.cases_head h with rfl | ⟨d, hd, hdb⟩
  · exact absurd rfl hne
  · rw [huniq hs hd]
    exact hdb

section Reach

variable [Preorder P] {next : P → P → Prop}

/-- A walk of increasing steps does not go back. -/
theorem reach_le (hinc : ∀ {a b}, next a b → a < b) {a b : P} (h : ReflTransGen next a b) :
    a ≤ b := by
  induction h with
  | refl => exact le_refl a
  | tail _ hs ih => exact le_trans ih (le_of_lt (hinc hs))

/-- **Places on one line**: if two places are reached from a common start, the
later is reached from the earlier. -/
theorem reach_between (hinc : ∀ {a b}, next a b → a < b) (huniq : Relator.RightUnique next)
    {p a b : P} (ha : ReflTransGen next p a) (hb : ReflTransGen next p b) (hab : a ≤ b) :
    ReflTransGen next a b := by
  rcases ReflTransGen.total_of_right_unique huniq ha hb with h | h
  · exact h
  · rcases ReflTransGen.cases_head h with rfl | ⟨c, hbc, hca⟩
    · exact .refl
    · have hlt : b < a := lt_of_lt_of_le (hinc hbc) (reach_le hinc hca)
      exact absurd hab (not_le_of_gt hlt)

end Reach

/-! ## Labelled walks -/

/-- A walk from one place to another, with the labels of its steps joined. -/
inductive Trail (step : P → List α → P → Prop) : P → P → List α → Prop
  | refl (p : P) : Trail step p p []
  | head {p q r : P} {xs ys : List α} (h : step p xs q) (t : Trail step q r ys) :
      Trail step p r (xs ++ ys)

namespace Trail

variable {step : P → List α → P → Prop} {step' : P → List β → P → Prop}

theorem single {p q : P} {xs : List α} (h : step p xs q) : Trail step p q xs := by
  simpa using Trail.head h (.refl q)

theorem trans {p q r : P} {xs ys : List α} (h : Trail step p q xs) (h' : Trail step q r ys) :
    Trail step p r (xs ++ ys) := by
  induction h with
  | refl p => simpa using h'
  | head hs _ ih =>
    rw [List.append_assoc]
    exact .head hs (ih h')

/-- The walk under a trail. -/
theorem reach {next : P → P → Prop} (hnext : ∀ {p xs q}, step p xs q → next p q) {p q : P}
    {xs : List α} (h : Trail step p q xs) : ReflTransGen next p q := by
  induction h with
  | refl p => exact .refl
  | head hs _ ih => exact .head (hnext hs) ih

/-- Every walk is the walk of a trail without labels, if each of its steps can
be made silently. -/
theorem of_reach {next : P → P → Prop} (hstep : ∀ {p q}, next p q → step p [] q) {p q : P}
    (h : ReflTransGen next p q) : Trail step p q [] := by
  induction h using ReflTransGen.head_induction_on with
  | refl => exact .refl q
  | head hs _ ih => exact .head (hstep hs) ih

/-- A trail of increasing steps does not go back. -/
theorem le [Preorder P] (hinc : ∀ {p xs q}, step p xs q → p < q) {p q : P} {xs : List α}
    (h : Trail step p q xs) : p ≤ q := by
  induction h with
  | refl p => exact le_refl p
  | head hs _ ih => exact le_trans (le_of_lt (hinc hs)) ih

/-- **Following a trail**: a trail that ends no later than another from the same
start runs along it, and its labels are related to those of the part it covers
as the labels of their steps are. -/
theorem follow [Preorder P] (rel : List α → List β → Prop) (hnil : rel [] [])
    (happ : ∀ {as bs as' bs'}, rel as bs → rel as' bs' → rel (as ++ as') (bs ++ bs'))
    (hinc : ∀ {p xs q}, step p xs q → p < q)
    (hrel : ∀ {p xs q ys r}, step p xs q → step' p ys r → q = r ∧ rel xs ys) {p q e : P}
    {as : List α} {bs : List β} (h : Trail step p q as) (h' : Trail step' p e bs) (hqe : q ≤ e) :
    ∃ cs ds, bs = cs ++ ds ∧ Trail step' p q cs ∧ Trail step' q e ds ∧ rel as cs := by
  induction h generalizing bs with
  | refl p => exact ⟨[], bs, rfl, .refl p, h', hnil⟩
  | head hs t ih =>
    cases h' with
    | refl => exact absurd (lt_of_lt_of_le (hinc hs) (le_trans (le hinc t) hqe)) (lt_irrefl _)
    | head hs' t' =>
      obtain ⟨rfl, hxy⟩ := hrel hs hs'
      obtain ⟨cs, ds, rfl, h1, h2, h3⟩ := ih t' hqe
      exact ⟨_, ds, (List.append_assoc _ _ _).symm, .head hs' h1, h2, happ hxy h3⟩

/-- Two trails with the same ends have related labels. -/
theorem lift [PartialOrder P] (rel : List α → List β → Prop) (hnil : rel [] [])
    (happ : ∀ {as bs as' bs'}, rel as bs → rel as' bs' → rel (as ++ as') (bs ++ bs'))
    (hinc : ∀ {p xs q}, step p xs q → p < q) (hinc' : ∀ {p ys q}, step' p ys q → p < q)
    (hrel : ∀ {p xs q ys r}, step p xs q → step' p ys r → q = r ∧ rel xs ys) {p q : P}
    {as : List α} {bs : List β} (h : Trail step p q as) (h' : Trail step' p q bs) :
    rel as bs := by
  obtain ⟨cs, ds, rfl, -, h2, h3⟩ := follow rel hnil happ hinc hrel h h' (le_refl q)
  cases h2 with
  | refl => simpa using h3
  | head hs t => exact absurd (lt_of_lt_of_le (hinc' hs) (le hinc' t)) (lt_irrefl _)

end Trail

/-! ## Marked trails -/

/-- The steps of `step`, each label with a tag of the place it was given off at. -/
def Marked (tag : P → α → β) (step : P → List α → P → Prop) (p : P) (ys : List β) (q : P) : Prop :=
  ∃ xs, step p xs q ∧ ys = xs.map (tag p)

namespace Trail

variable {tag : P → α → β} {back : β → α} {step : P → List α → P → Prop} {p q : P}

theorem map_tag (hback : ∀ p x, back (tag p x) = x) (p : P) (xs : List α) :
    (xs.map (tag p)).map back = xs := by
  have hid : back ∘ tag p = id := funext (hback p)
  rw [List.map_map, hid, List.map_id]

/-- Every trail can be marked. -/
theorem marked (hback : ∀ p x, back (tag p x) = x) {xs : List α} (h : Trail step p q xs) :
    ∃ ys, Trail (Marked tag step) p q ys ∧ ys.map back = xs := by
  induction h with
  | refl p => exact ⟨[], .refl p, rfl⟩
  | @head p q r xs zs hs t ih =>
    obtain ⟨ys, ht, rfl⟩ := ih
    refine ⟨xs.map (tag p) ++ ys, .head ⟨xs, hs, rfl⟩ ht, ?_⟩
    rw [List.map_append, map_tag hback]

/-- The trail under the tags. -/
theorem unmarked (hback : ∀ p x, back (tag p x) = x) {ys : List β}
    (h : Trail (Marked tag step) p q ys) : Trail step p q (ys.map back) := by
  induction h with
  | refl p => exact .refl p
  | @head p q r ys zs hs t ih =>
    obtain ⟨xs, hs, rfl⟩ := hs
    rw [List.map_append, map_tag hback]
    exact .head hs ih

/-- What grows along the steps bounds what the tags say from below. -/
theorem tags_ge {γ : Type*} [Preorder γ] {size : β → γ} {low : P → γ} {ys : List β}
    (h : Trail (Marked tag step) p q ys) (hlow : ∀ p x, low p ≤ size (tag p x))
    (hstep : ∀ {p xs q}, step p xs q → low p ≤ low q) : ∀ y ∈ ys, low p ≤ size y := by
  induction h with
  | refl p => exact fun y hy => absurd hy List.not_mem_nil
  | @head p q r ys zs hs t ih =>
    obtain ⟨xs, hs, rfl⟩ := hs
    intro y hy
    rcases List.mem_append.mp hy with hy | hy
    · obtain ⟨x, -, rfl⟩ := List.mem_map.mp hy
      exact hlow p x
    · exact le_trans (hstep hs) (ih y hy)

end Trail

end Trails
