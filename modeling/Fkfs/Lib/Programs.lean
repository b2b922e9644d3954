/-
Programs over a state that may not return.

A program (`Prog`) turns a state into a result and a state. A loop without a
bound of its own is given a number of rounds; if they do not suffice there is no
result, and the state is the one the program has come to. So what a program did
before it stopped returning is not lost, and a property of the results is a
property of every run that returns, for whatever number of rounds.

The logic is that of partial correctness: `Triple P p Q` says that a run of `p`
from a state with `P` that returns `a` ends in a state with `Q a`. There is a
rule for every way a program is put together. What is kept throughout (`Keeps`)
is kept whether a run returns or not, and two programs are compared by what they
return and what of the state is looked at (`Alike`).
-/
import Mathlib.Tactic

set_option autoImplicit false

namespace Programs

universe u

/-- A program over the state `σ`. -/
def Prog (σ α : Type u) : Type u := σ → Option α × σ

section Basics

variable {σ α β : Type u}

/-- A program that returns at once. -/
def Prog.ret (a : α) : Prog σ α := fun s => (some a, s)

/-- One program after another. -/
def Prog.andThen (p : Prog σ α) (f : α → Prog σ β) : Prog σ β := fun s =>
  match p s with
  | (none, s) => (none, s)
  | (some a, s) => f a s

instance : Monad (Prog σ) where
  pure := Prog.ret
  bind := Prog.andThen

theorem pure_run (a : α) (s : σ) : (pure a : Prog σ α) s = (some a, s) := rfl

theorem bind_run_some {p : Prog σ α} {f : α → Prog σ β} {s s' : σ} {a : α}
    (h : p s = (some a, s')) : (p >>= f) s = f a s' := by
  change Prog.andThen p f s = _
  rw [Prog.andThen, h]

theorem bind_run_none {p : Prog σ α} {f : α → Prog σ β} {s s' : σ} (h : p s = (none, s')) :
    (p >>= f) s = (none, s') := by
  change Prog.andThen p f s = _
  rw [Prog.andThen, h]

/-- A run by its result. -/
theorem returned_of {p : Prog σ α} {s : σ} {a : α} (h : (p s).1 = some a) :
    p s = (some a, (p s).2) := by
  rw [← h]

/-- A sequence that returned: both parts did. -/
theorem bind_returned {p : Prog σ α} {f : α → Prog σ β} {s s' : σ} {b : β}
    (h : (p >>= f) s = (some b, s')) : ∃ a t, p s = (some a, t) ∧ f a t = (some b, s') := by
  rcases hp : p s with ⟨_ | a, t⟩
  · rw [bind_run_none hp] at h
    cases h
  · rw [bind_run_some hp] at h
    exact ⟨a, t, rfl, h⟩

instance : LawfulMonad (Prog σ) := by
  refine LawfulMonad.mk' (Prog σ) ?_ ?_ ?_
  · intro α p
    funext s
    change Prog.andThen p (fun a => Prog.ret (id a)) s = p s
    rcases hp : p s with ⟨_ | a, t⟩ <;> simp [Prog.andThen, Prog.ret, hp]
  · exact fun _ _ => rfl
  · intro α β γ p f g
    funext s
    change Prog.andThen (Prog.andThen p f) g s = Prog.andThen p (fun a => Prog.andThen (f a) g) s
    rcases hp : p s with ⟨_ | a, t⟩ <;> simp [Prog.andThen, hp]

/-- What a part of the state holds. -/
def read (g : σ → α) : Prog σ α := fun s => (some (g s), s)

/-- Change the state. -/
def update (g : σ → σ) : Prog σ PUnit := fun s => (some ⟨⟩, g s)

/-- Go round until `body` returns a result, `n` times at most. -/
def loop (body : Prog σ (Option α)) : ℕ → Prog σ α
  | 0 => fun s => (none, s)
  | n + 1 => do
    match ← body with
    | some a => pure a
    | none => loop body n

/-- `p`, `n` times over: what it returned each time. -/
def times (p : Prog σ α) : ℕ → Prog σ (List α)
  | 0 => pure []
  | n + 1 => do
    let a ← p
    let as ← times p n
    pure (a :: as)

/-- `f` for every element of a list. -/
def each (f : α → Prog σ β) : List α → Prog σ PUnit
  | [] => pure ⟨⟩
  | a :: as => do
    let _ ← f a
    each f as

end Basics

/-! ## Triples -/

/-- Every run of `p` from a state with `P` that returns `a` ends in one with
`Q a`. -/
def Triple {σ α : Type u} (P : σ → Prop) (p : Prog σ α) (Q : α → σ → Prop) : Prop :=
  ∀ s a s', P s → p s = (some a, s') → Q a s'

namespace Triple

variable {σ α β : Type u} {P P' : σ → Prop} {p q : Prog σ α} {Q Q' : α → σ → Prop}

theorem mono (h : Triple P p Q) (hP : ∀ s, P' s → P s) (hQ : ∀ a s, Q a s → Q' a s) :
    Triple P' p Q' :=
  fun s a s' hs hr => hQ a s' (h s a s' (hP s hs) hr)

theorem post (h : Triple P p Q) (hQ : ∀ a s, Q a s → Q' a s) : Triple P p Q' :=
  h.mono (fun _ => id) hQ

theorem pre (h : Triple P p Q) (hP : ∀ s, P' s → P s) : Triple P' p Q := h.mono hP fun _ _ => id

theorem ret {a : α} (h : ∀ s, P s → Q a s) : Triple P (pure a) Q := by
  intro s a' s' hs hr
  cases hr
  exact h s hs

theorem bind {f : α → Prog σ β} {R : α → σ → Prop} {Q : β → σ → Prop} (h : Triple P p R)
    (hf : ∀ a, Triple (R a) (f a) Q) : Triple P (p >>= f) Q := by
  intro s b s' hs hr
  obtain ⟨a, t, hp, hq⟩ := bind_returned hr
  exact hf a t b s' (h s a t hs hp) hq

/-- A precondition that leaves something open. -/
theorem exists_pre {ι : Type*} {P : ι → σ → Prop} (h : ∀ i, Triple (P i) p Q) :
    Triple (fun s => ∃ i, P i s) p Q := by
  rintro s a s' ⟨i, hs⟩ hr
  exact h i s a s' hs hr

theorem ite {c : Prop} [Decidable c] (ht : c → Triple P p Q) (hf : ¬ c → Triple P q Q) :
    Triple P (if c then p else q) Q := by
  split
  · next h => exact ht h
  · next h => exact hf h

theorem read {g : σ → α} (h : ∀ s, P s → Q (g s) s) : Triple P (Programs.read g) Q := by
  intro s a s' hs hr
  cases hr
  exact h s hs

theorem update {g : σ → σ} {Q : PUnit → σ → Prop} (h : ∀ s, P s → Q ⟨⟩ (g s)) :
    Triple P (Programs.update g) Q := by
  intro s a s' hs hr
  cases hr
  exact h s hs

/-- **The rule for loops**: what holds when a round begins holds when it goes
round again, and what a round returns with is what the loop returns with. -/
theorem loop {body : Prog σ (Option α)} {I : σ → Prop} (n : ℕ)
    (h : Triple I body fun r s => match r with
      | none => I s
      | some a => Q a s) : Triple I (Programs.loop body n) Q := by
  induction n with
  | zero =>
    intro s a s' _ hr
    cases hr
  | succ n ih =>
    refine Triple.bind h fun r => ?_
    cases r with
    | none => exact ih
    | some a => exact Triple.ret fun s hs => hs

/-- The rule for counted loops, the results so far in the invariant. -/
theorem times {p : Prog σ α} {I : List α → σ → Prop} (n : ℕ)
    (h : ∀ as, Triple (I as) p fun a s => I (as ++ [a]) s) (as : List α) :
    Triple (I as) (Programs.times p n) fun bs s => I (as ++ bs) s ∧ bs.length = n := by
  induction n generalizing as with
  | zero => exact Triple.ret fun s hs => ⟨by rwa [List.append_nil], rfl⟩
  | succ n ih =>
    refine Triple.bind (h as) fun a => Triple.bind (ih (as ++ [a])) fun bs => Triple.ret ?_
    rintro s ⟨hs, hlen⟩
    refine ⟨?_, by rw [List.length_cons, hlen]⟩
    rwa [List.append_assoc] at hs

end Triple

/-! ## Properties that hold throughout -/

/-- `p` keeps `I`, also where it does not return. -/
def Keeps {σ α : Type u} (I : σ → Prop) (p : Prog σ α) : Prop := ∀ s, I s → I (p s).2

namespace Keeps

variable {σ α β : Type u} {I : σ → Prop} {p q : Prog σ α}

/-- What is kept is there when `p` returns. -/
theorem triple (h : Keeps I p) : Triple I p fun _ => I := by
  intro s a s' hs hr
  have hk := h s hs
  rw [hr] at hk
  exact hk

theorem ret (a : α) : Keeps I (pure a : Prog σ α) := fun _ => id

theorem bind {f : α → Prog σ β} (h : Keeps I p) (hf : ∀ a, Keeps I (f a)) :
    Keeps I (p >>= f) := by
  intro s hs
  have hp := h s hs
  rcases hr : p s with ⟨_ | a, t⟩ <;> rw [hr] at hp
  · rw [bind_run_none hr]
    exact hp
  · rw [bind_run_some hr]
    exact hf a t hp

theorem ite {c : Prop} [Decidable c] (ht : Keeps I p) (hf : Keeps I q) :
    Keeps I (if c then p else q) := by
  split
  · exact ht
  · exact hf

theorem read (g : σ → α) : Keeps I (Programs.read g) := fun _ => id

theorem update {g : σ → σ} (h : ∀ s, I s → I (g s)) : Keeps I (Programs.update g) := h

theorem loop {body : Prog σ (Option α)} (h : Keeps I body) (n : ℕ) :
    Keeps I (Programs.loop body n) := by
  induction n with
  | zero => exact fun _ => id
  | succ n ih =>
    refine Keeps.bind h fun r => ?_
    cases r with
    | none => exact ih
    | some a => exact Keeps.ret a

theorem times (h : Keeps I p) (n : ℕ) : Keeps I (Programs.times p n) := by
  induction n with
  | zero => exact Keeps.ret _
  | succ n ih => exact Keeps.bind h fun _ => Keeps.bind ih fun _ => Keeps.ret _

theorem each {f : α → Prog σ β} (h : ∀ a, Keeps I (f a)) (as : List α) :
    Keeps I (Programs.each f as) := by
  induction as with
  | nil => exact Keeps.ret _
  | cons a as ih => exact Keeps.bind (h a) fun _ => ih

end Keeps

/-! ## Programs that cannot be told apart -/

/-- From every state, `p` and `q` return the same and leave the same to be
seen, as far as `obs` looks. -/
def Alike {σ α τ : Type u} (obs : σ → τ) (p q : Prog σ α) : Prop :=
  ∀ s, (p s).1 = (q s).1 ∧ obs (p s).2 = obs (q s).2

namespace Alike

variable {σ α β τ : Type u} {obs : σ → τ} {p q : Prog σ α}

theorem refl (p : Prog σ α) : Alike obs p p := fun _ => ⟨rfl, rfl⟩

/-- After the same program, programs that are alike. -/
theorem bind {f g : α → Prog σ β} (h : ∀ a, Alike obs (f a) (g a)) :
    Alike obs (p >>= f) (p >>= g) := by
  intro s
  rcases hr : p s with ⟨_ | a, t⟩
  · rw [bind_run_none hr, bind_run_none hr]
    exact ⟨rfl, rfl⟩
  · rw [bind_run_some hr, bind_run_some hr]
    exact h a t

theorem ite {c : Prop} [Decidable c] {p' q' : Prog σ α} (ht : Alike obs p p')
    (hf : Alike obs q q') : Alike obs (if c then p else q) (if c then p' else q') := by
  split
  · exact ht
  · exact hf

end Alike

/-! ## Programs that do not care -/

/-- `p` does the same whether `g` is done to the state before it or after. -/
def Commutes {σ α : Type u} (g : σ → σ) (p : Prog σ α) : Prop :=
  ∀ s, p (g s) = ((p s).1, g (p s).2)

namespace Commutes

variable {σ α β : Type u} {g : σ → σ} {p q : Prog σ α}

theorem ret (a : α) : Commutes g (pure a : Prog σ α) := fun _ => rfl

theorem bind {f : α → Prog σ β} (h : Commutes g p) (hf : ∀ a, Commutes g (f a)) :
    Commutes g (p >>= f) := by
  intro s
  have hp := h s
  rcases hr : p s with ⟨_ | a, t⟩ <;> rw [hr] at hp
  · rw [bind_run_none hr, bind_run_none hp]
  · rw [bind_run_some hr, bind_run_some hp]
    exact hf a t

theorem ite {c : Prop} [Decidable c] (ht : Commutes g p) (hf : Commutes g q) :
    Commutes g (if c then p else q) := by
  split
  · exact ht
  · exact hf

theorem loop {body : Prog σ (Option α)} (h : Commutes g body) (n : ℕ) :
    Commutes g (Programs.loop body n) := by
  induction n with
  | zero => exact fun _ => rfl
  | succ n ih =>
    refine Commutes.bind h fun r => ?_
    cases r with
    | none => exact ih
    | some a => exact Commutes.ret a

end Commutes

end Programs
