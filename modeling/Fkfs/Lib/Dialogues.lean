/-
Programs that talk to something.

The state of a program records the events it takes part in (`trace`), and what is
at the other end goes from state to state by a relation of its own, one event at
a time (`Step`). A program does not see that state, it only hears what the events
tell. So nothing is asked of the other end beyond the relation: a `Talk` says
what holds of both after a run, wherever the other end can have got to over the
events the run has added. If it can get nowhere the run was not one of the
dialogues it takes part in, and nothing is said.

There is a rule for every way a program is put together. Where a program takes
part in an event (`emit`) the relation says how the other end moves on;
everywhere else it stays where it is.
-/
import Fkfs.Lib.Programs

set_option autoImplicit false

namespace Dialogues

open Programs

universe u

/-! ## The other end -/

section Plays

variable {ε γ : Type u} {Step : γ → ε → γ → Prop}

/-- The other end can go from one state to another over these events. -/
def Plays (Step : γ → ε → γ → Prop) : List ε → γ → γ → Prop
  | [], c, c' => c = c'
  | e :: es, c, c' => ∃ d, Step c e d ∧ Plays Step es d c'

theorem plays_append {es es' : List ε} {c c' : γ} :
    Plays Step (es ++ es') c c' ↔ ∃ d, Plays Step es c d ∧ Plays Step es' d c' := by
  induction es generalizing c with
  | nil => exact ⟨fun h => ⟨c, rfl, h⟩, fun ⟨d, hd, h⟩ => by rw [show c = d from hd]; exact h⟩
  | cons e es ih =>
    constructor
    · rintro ⟨d, hs, h⟩
      obtain ⟨d', h1, h2⟩ := ih.mp h
      exact ⟨d', ⟨d, hs, h1⟩, h2⟩
    · rintro ⟨d', ⟨d, hs, h1⟩, h2⟩
      exact ⟨d, hs, ih.mpr ⟨d', h1, h2⟩⟩

/-- What every event keeps. -/
theorem Plays.kept {I : γ → Prop} (hI : ∀ {c e c'}, Step c e c' → I c → I c') {es : List ε}
    {c c' : γ} (h : Plays Step es c c') (hc : I c) : I c' := by
  induction es generalizing c with
  | nil =>
    rw [← show c = c' from h]
    exact hc
  | cons e es ih =>
    obtain ⟨d, hs, h⟩ := h
    exact ih h (hI hs hc)

end Plays

/-! ## Talks -/

/-- `p` only adds to the trace. -/
def Adds {σ α ε : Type u} (trace : σ → List ε) (p : Prog σ α) : Prop :=
  ∀ s, trace s <+: trace (p s).2

theorem adds_of_keeps {σ α ε : Type u} {trace : σ → List ε} {p : Prog σ α}
    (h : ∀ t, Keeps (fun s => t <+: trace s) p) : Adds trace p :=
  fun s => h (trace s) s (List.prefix_refl _)

/-- `p` only adds to the trace, and where a run of it, begun with `P` of both ends, returns `a`,
`Q a` holds wherever the other end can be after the events the run has added. -/
structure Talk {σ α ε γ : Type u} (trace : σ → List ε) (Step : γ → ε → γ → Prop)
    (P : γ → σ → Prop) (p : Prog σ α) (Q : α → γ → σ → Prop) : Prop where
  adds : Adds trace p
  tells : ∀ {c s a s' es c'}, P c s → p s = (some a, s') → trace s' = trace s ++ es →
    Plays Step es c c' → Q a c' s'

namespace Talk

variable {σ α β ε γ : Type u} {trace : σ → List ε} {Step : γ → ε → γ → Prop} {P P' : γ → σ → Prop}
  {p q : Prog σ α} {Q Q' : α → γ → σ → Prop}

theorem mono (h : Talk trace Step P p Q) (hP : ∀ c s, P' c s → P c s)
    (hQ : ∀ a c s, Q a c s → Q' a c s) : Talk trace Step P' p Q' :=
  ⟨h.adds, fun hs hr he hp => hQ _ _ _ (h.tells (hP _ _ hs) hr he hp)⟩

theorem post (h : Talk trace Step P p Q) (hQ : ∀ a c s, Q a c s → Q' a c s) :
    Talk trace Step P p Q' :=
  h.mono (fun _ _ => id) hQ

theorem pre (h : Talk trace Step P p Q) (hP : ∀ c s, P' c s → P c s) : Talk trace Step P' p Q :=
  h.mono hP fun _ _ _ => id

/-- A precondition that leaves something open. -/
theorem exists_pre {ι : Type*} [Nonempty ι] {P : ι → γ → σ → Prop}
    (h : ∀ i, Talk trace Step (P i) p Q) : Talk trace Step (fun c s => ∃ i, P i c s) p Q := by
  refine ⟨(h (Classical.arbitrary ι)).adds, ?_⟩
  rintro c s a s' es c' ⟨i, hs⟩ hr he hp
  exact (h i).tells hs hr he hp

/-- A precondition with a case to it. -/
theorem or_pre (h : Talk trace Step P p Q) (h' : Talk trace Step P' p Q) :
    Talk trace Step (fun c s => P c s ∨ P' c s) p Q := by
  refine ⟨h.adds, ?_⟩
  rintro c s a s' es c' (hs | hs) hr he hp
  · exact h.tells hs hr he hp
  · exact h'.tells hs hr he hp

/-- A precondition with a fact in it. -/
theorem fact {φ : Prop} (ha : Adds trace p) (h : φ → Talk trace Step P p Q) :
    Talk trace Step (fun c s => φ ∧ P c s) p Q :=
  ⟨ha, fun hs hr he hp => (h hs.1).tells hs.2 hr he hp⟩

/-- What does the same where it is begun. -/
theorem congr (ha : Adds trace p) (hpq : ∀ c s, P c s → p s = q s)
    (h : Talk trace Step P q Q) : Talk trace Step P p Q := by
  refine ⟨ha, ?_⟩
  intro c s a s' es c' hs hr he hp
  rw [hpq c s hs] at hr
  exact h.tells hs hr he hp

/-- Nothing happens on the wires. -/
theorem silent {g : σ → α} {f : σ → σ} (hp : ∀ s, p s = (some (g s), f s))
    (ht : ∀ s, trace (f s) = trace s) (h : ∀ c s, P c s → Q (g s) c (f s)) :
    Talk trace Step P p Q := by
  refine ⟨fun s => by rw [hp, ht], ?_⟩
  intro c s a s' es c' hs hr he hplays
  rw [hp] at hr
  cases hr
  rw [ht, List.self_eq_append_right] at he
  subst he
  rw [← show c = c' from hplays]
  exact h c s hs

theorem ret {a : α} (h : ∀ c s, P c s → Q a c s) : Talk trace Step P (pure a) Q :=
  silent (fun _ => rfl) (fun _ => rfl) h

theorem read {g : σ → α} (h : ∀ c s, P c s → Q (g s) c s) :
    Talk trace Step P (Programs.read g) Q :=
  silent (fun _ => rfl) (fun _ => rfl) h

theorem update {f : σ → σ} {Q : PUnit → γ → σ → Prop} (ht : ∀ s, trace (f s) = trace s)
    (h : ∀ c s, P c s → Q ⟨⟩ c (f s)) : Talk trace Step P (Programs.update f) Q :=
  silent (fun _ => rfl) ht h

/-- **One event**: the other end takes one step. -/
theorem emit {g : σ → α} {e : σ → ε} {f : σ → σ} (hp : ∀ s, p s = (some (g s), f s))
    (ht : ∀ s, trace (f s) = trace s ++ [e s])
    (h : ∀ c s c', P c s → Step c (e s) c' → Q (g s) c' (f s)) : Talk trace Step P p Q := by
  refine ⟨fun s => by rw [hp, ht]; exact List.prefix_append _ _, ?_⟩
  intro c s a s' es c' hs hr he hplays
  rw [hp] at hr
  cases hr
  rw [ht, List.append_cancel_left_eq] at he
  subst he
  obtain ⟨d, hd, rfl⟩ := hplays
  exact h c s d hs hd

/-- One program after another: the events of the first come first. -/
theorem bind {f : α → Prog σ β} {R : α → γ → σ → Prop} {Q : β → γ → σ → Prop}
    (h : Talk trace Step P p R) (hf : ∀ a, Talk trace Step (R a) (f a) Q) :
    Talk trace Step P (p >>= f) Q := by
  constructor
  · intro s
    have hp := h.adds s
    rcases hr : p s with ⟨_ | a, t⟩ <;> rw [hr] at hp
    · rw [bind_run_none hr]
      exact hp
    · rw [bind_run_some hr]
      exact hp.trans ((hf a).adds t)
  · intro c s b s' es c' hs hr he hplays
    obtain ⟨a, t, hp, hq⟩ := bind_returned hr
    obtain ⟨es₁, h₁⟩ := h.adds s
    obtain ⟨es₂, h₂⟩ := (hf a).adds t
    rw [hp] at h₁
    rw [hq] at h₂
    rw [← h₂, ← h₁, List.append_assoc, List.append_cancel_left_eq] at he
    subst he
    obtain ⟨d, hd₁, hd₂⟩ := plays_append.mp hplays
    exact (hf a).tells (h.tells hs hp h₁.symm hd₁) hq h₂.symm hd₂

theorem ite {c : Prop} [Decidable c] (ht : c → Talk trace Step P p Q)
    (hf : ¬ c → Talk trace Step P q Q) : Talk trace Step P (if c then p else q) Q := by
  split
  · next h => exact ht h
  · next h => exact hf h

/-- What is read is known. -/
theorem get {g : σ → β} {f : β → Prog σ α} (b : β) (ha : Adds trace (Programs.read g >>= f))
    (hb : ∀ c s, P c s → g s = b) (h : Talk trace Step P (f b) Q) :
    Talk trace Step P (Programs.read g >>= f) Q := by
  refine congr ha ?_ h
  intro c s hs
  rw [bind_run_some (show Programs.read g s = (some b, s) by rw [← hb c s hs]; rfl)]

/-- **The rule for loops.** -/
theorem loop {body : Prog σ (Option α)} {I : γ → σ → Prop} (n : ℕ)
    (h : Talk trace Step I body fun r c s => match r with
      | none => I c s
      | some a => Q a c s) : Talk trace Step I (Programs.loop body n) Q := by
  induction n with
  | zero => exact ⟨fun s => List.prefix_refl _, fun _ hr => nomatch hr⟩
  | succ n ih =>
    refine Talk.bind h fun r => ?_
    cases r with
    | none => exact ih
    | some a => exact Talk.ret fun c s hs => hs

/-- The rule for counted loops, the results so far in the invariant. -/
theorem times {I : List α → γ → σ → Prop} (n : ℕ)
    (h : ∀ as, as.length < n → Talk trace Step (I as) p fun a => I (as ++ [a])) :
    Talk trace Step (I []) (Programs.times p n) fun as c s => I as c s ∧ as.length = n := by
  suffices hrest : ∀ m as, as.length + m = n → Talk trace Step (I as) (Programs.times p m)
      fun bs c s => I (as ++ bs) c s ∧ bs.length = m from hrest n [] (Nat.zero_add n)
  intro m
  induction m with
  | zero => exact fun as _ => Talk.ret fun c s hs => ⟨by rwa [List.append_nil], rfl⟩
  | succ m ih =>
    intro as hlen
    refine Talk.bind (h as (by omega)) fun a => ?_
    refine Talk.bind (ih (as ++ [a]) (by simp; omega)) fun bs => Talk.ret ?_
    rintro c s ⟨hs, hbs⟩
    refine ⟨?_, by rw [List.length_cons, hbs]⟩
    rwa [List.append_assoc] at hs

/-- The rule for lists, what has been dealt with in the invariant. -/
theorem each {f : β → Prog σ α} {I : List β → γ → σ → Prop} (as : List β)
    (h : ∀ bs b cs, as = bs ++ b :: cs →
      Talk trace Step (I bs) (f b) fun _ => I (bs ++ [b])) :
    Talk trace Step (I []) (Programs.each f as) fun _ => I as := by
  suffices hrest : ∀ cs bs, as = bs ++ cs → Talk trace Step (I bs) (Programs.each f cs)
      fun _ => I as from hrest as [] rfl
  intro cs
  induction cs with
  | nil =>
    intro bs hbs
    rw [hbs, List.append_nil]
    exact Talk.ret fun c s hs => hs
  | cons b cs ih =>
    intro bs hbs
    refine Talk.bind (h bs b cs hbs) fun _ => ?_
    exact ih (bs ++ [b]) (by rw [hbs, List.append_assoc, List.singleton_append])

end Talk

end Dialogues
