import HeaderDecl.Proofs.ParserResults
import Mathlib.Logic.Relation

/-!
The places that a repetition comes to. What reads to its end without a report reads on, from each place
that it comes to, to the same end.
-/

namespace HeaderDecl.Grammar.Parser

open Relation (ReflTransGen)

variable {α β σ : Type} {c : Context} {s u : Cursor} {t : List Token}

theorem ofTokens_ahead (s : Cursor) : .ofTokens s.ahead = s := Cursor.ext rfl

/-! ### Sequences -/

theorem Reads.yields {p : Parser α} {a : α} (h : p.Reads c s.ahead a t) : p.Yields c s a (.ofTokens t) := by
  rw [Reads, ofTokens_ahead] at h
  rw [Yields, h]

/-- What is read is what is yielded. -/
theorem Reads.same {p : Parser α} {a b : α} (h : p.Reads c s.ahead a t) (h' : p.Yields c s b u) :
    a = b ∧ t = u.ahead := by
  obtain ⟨value, place⟩ := h.yields.unique h'
  exact ⟨value, congrArg Cursor.ahead place⟩

/-- What is behind the first of two parsers is read as well. -/
theorem Reads.rest {p : Parser α} {f : α → Parser β} {a : α} {b : β}
    (h : (p >>= f).Reads c s.ahead b t) (first : p.Yields c s a u) : (f a).Reads c u.ahead b t := by
  obtain ⟨a', t', read, behind⟩ := reads_bind.mp h
  obtain ⟨rfl, rfl⟩ := read.same first
  exact behind

/-! ### Repetition -/

/-- A repetition goes on from a state at one place to a state at another one. -/
def LoopGoes (step : σ → Parser (σ × Bool)) (c : Context) (x y : σ × Cursor) : Prop :=
  (step x.1).Yields c x.2 (y.1, true) y.2

theorem Reads.loop_rest {step : σ → Parser (σ × Bool)} {a a' b : σ}
    (h : (loop step a).Reads c s.ahead b t) (visits : ReflTransGen (LoopGoes step c) (a, s) (a', u)) :
    (loop step a').Reads c u.ahead b t := by
  have reads (y : σ × Cursor) (visits : ReflTransGen (LoopGoes step c) (a, s) y) :
      (loop step y.1).Reads c y.2.ahead b t := by
    induction visits with
    | refl => exact h
    | tail _ goes ih =>
      obtain ⟨_, _, _, read, rest⟩ := reads_loop.mp ih
      obtain ⟨same, rfl⟩ := read.same goes
      obtain ⟨rfl, rfl⟩ := Prod.mk.inj same
      exact rest.2
  exact reads (a', u) visits

/-- What every step keeps is so in the end. -/
theorem Yields.loop_invariant {step : σ → Parser (σ × Bool)} {I : σ → Prop} {a b : σ}
    (h : (loop step a).Yields c s b u)
    (steps : ∀ a b more s u, I a → (step a).Yields c s (b, more) u → I b) (start : I a) : I b := by
  fun_induction loop step a c s with
  | case1 a s rs reason done => simp [Yields, loop, done] at h
  | case2 a s rs a' s' done =>
    have last : a' = b ∧ s' = u := by simpa [Yields, loop, done] using h
    exact last.1 ▸ steps a a' false s s' start (by rw [Yields, done])
  | case3 a s rs a' s' done shorter ih =>
    refine ih ?_ (steps a a' true s s' start (by rw [Yields, done]))
    simpa [Yields, loop.eq_def step a, done, shorter, Outcome.after] using h
  | case4 a s rs a' s' done longer => simp [Yields, loop, done, longer] at h

theorem yields_loop_stop {step : σ → Parser (σ × Bool)} {a b : σ}
    (stops : (step a).Yields c s (b, false) u) : (loop step a).Yields c s b u := by
  have step : (step a c s).result = .ok ((b, false), u) := stops
  unfold Yields loop
  split <;> simp_all

theorem yields_loop_more {step : σ → Parser (σ × Bool)} {a a' b : σ} {v : Cursor}
    (goes : (step a).Yields c s (a', true) u) (shorter : u.left < s.left)
    (rest : (loop step a').Yields c u b v) : (loop step a).Yields c s b v := by
  have step : (step a c s).result = .ok ((a', true), u) := goes
  unfold Yields at rest ⊢
  rw [loop]
  split <;> simp_all [Outcome.after]

/-- A repetition that gathers goes on from a state at one place to a state at another one. -/
def GatherGoes (step : σ → Parser (List α × σ × Bool)) (c : Context) (x y : σ × Cursor) : Prop :=
  ∃ xs, (step x.1).Yields c x.2 (xs, y.1, true) y.2

theorem Reads.collectFrom_rest {step : σ → Parser (List α × σ × Bool)} {a a' : σ} {xs : List α}
    (h : (collectFrom step a).Reads c s.ahead xs t)
    (visits : ReflTransGen (GatherGoes step c) (a, s) (a', u)) :
    ∃ ys, ys <:+ xs ∧ (collectFrom step a').Reads c u.ahead ys t := by
  have reads (y : σ × Cursor) (visits : ReflTransGen (GatherGoes step c) (a, s) y) :
      ∃ ys, ys <:+ xs ∧ (collectFrom step y.1).Reads c y.2.ahead ys t := by
    induction visits with
    | refl => exact ⟨xs, List.suffix_refl xs, h⟩
    | tail _ goes ih =>
      obtain ⟨ys, behind, read⟩ := ih
      obtain ⟨_, _, _, _, first, rest⟩ := reads_collectFrom.mp read
      obtain ⟨_, goes⟩ := goes
      obtain ⟨same, rfl⟩ := first.same goes
      simp only [Prod.mk.injEq] at same
      obtain ⟨rfl, rfl, rfl⟩ := same
      obtain ⟨-, last, later, rfl⟩ := rest
      exact ⟨last, (List.suffix_append _ last).trans behind, later⟩
  exact reads (a', u) visits

/-- What the first step gathers is among all that is gathered. -/
theorem Reads.collectFrom_first {step : σ → Parser (List α × σ × Bool)} {a : σ} {xs : List α}
    (h : (collectFrom step a).Reads c s.ahead xs t) :
    ∃ ys a' more u, (step a).Reads c s.ahead (ys, a', more) u ∧ ys <+: xs := by
  obtain ⟨ys, a', more, u, read, rest⟩ := reads_collectFrom.mp h
  refine ⟨ys, a', more, u, read, ?_⟩
  cases more with
  | false => exact rest.1 ▸ List.prefix_refl ys
  | true =>
    obtain ⟨-, zs, -, rfl⟩ := rest
    exact List.prefix_append ys zs

/-- What the first step gathers and what the others do. -/
theorem Yields.collectFrom {step : σ → Parser (List α × σ × Bool)} {a : σ} {xs : List α}
    (h : (collectFrom step a).Yields c s xs u) :
    ∃ ys a' more v, (step a).Yields c s (ys, a', more) v ∧
      if more then v.left < s.left ∧ ∃ zs, (Parser.collectFrom step a').Yields c v zs u ∧ xs = ys ++ zs
      else xs = ys ∧ u = v := by
  unfold Yields at h ⊢
  rw [Parser.collectFrom] at h
  rcases done : step a c s with ⟨rs, reason | ⟨⟨ys, a', more⟩, v⟩⟩
  · simp [done] at h
  refine ⟨ys, a', more, v, rfl, ?_⟩
  cases more with
  | false =>
    simp only [done, Except.ok.injEq, Prod.mk.injEq] at h
    exact ⟨h.1.symm, h.2.symm⟩
  | true =>
    simp only [done] at h
    split at h
    · rename_i shorter
      rcases rest : Parser.collectFrom step a' c v with ⟨rs', reason | ⟨zs, w⟩⟩
      · simp [rest] at h
      · simp only [rest, Except.ok.injEq, Prod.mk.injEq] at h
        obtain ⟨rfl, rfl⟩ := h
        exact ⟨shorter, zs, rfl, rfl⟩
    · simp at h

/-- The steps of a repetition that has no state. -/
def gathering (step : Parser (List α × Bool)) : Unit → Parser (List α × Unit × Bool) := fun () => do
  let (xs, more) ← step
  return (xs, (), more)

theorem collect_eq (step : Parser (List α × Bool)) : collect step = collectFrom (gathering step) () := rfl

end HeaderDecl.Grammar.Parser
