import HeaderDecl.Proofs.ParserProgress
import HeaderDecl.Proofs.ParserResults
import HeaderDecl.Proofs.ReadDefinitions

/-!
Runs in which nothing is skipped. A parser that comes to a value without a report of a declaration or a
macro that was skipped has only gone forward, and has recovered from nothing.
-/

namespace HeaderDecl.Grammar

/-- Whether a report tells of something that was skipped because it could not be read. -/
def Report.skips (r : Report) : Bool :=
  match r.finding with
  | .skippedDeclaration _ _ | .unsupportedMacro _ => true
  | .unmodeled _ _ => false

namespace Parser

variable {α β σ : Type} {c : Context} {s : Cursor}
variable {Q : α → Cursor → Prop} {R : β → Cursor → Prop}

/-- If a parser comes to a value and a place and reports nothing that was skipped, the place is further on
and what is said of them holds. -/
def Advances (p : Parser α) (c : Context) (s : Cursor) (Q : α → Cursor → Prop) : Prop :=
  ∀ rs a t, p c s = ⟨rs, .ok (a, t)⟩ → (∀ r ∈ rs, r.skips = false) → t.ahead <:+ s.ahead ∧ Q a t

/-! ### Sequences -/

/-- A sequence reports what its parts report. -/
theorem run_bind {p : Parser α} {f : α → Parser β} {rs : List Report} {b : β} {u : Cursor}
    (run : (p >>= f) c s = ⟨rs, .ok (b, u)⟩) :
    ∃ rs₁ a t rs₂, p c s = ⟨rs₁, .ok (a, t)⟩ ∧ f a c t = ⟨rs₂, .ok (b, u)⟩ ∧ rs = rs₁ ++ rs₂ := by
  have unfolded : (p >>= f) c s = Parser.bind p f c s := rfl
  rw [unfolded, Parser.bind] at run
  rcases first : p c s with ⟨rs₁, reason | ⟨a, t⟩⟩
  · rw [first] at run
    cases run
  · rw [first] at run
    rcases second : f a c t with ⟨rs₂, result⟩
    simp only [second, Outcome.after] at run
    cases run
    exact ⟨rs₁, a, t, rs₂, rfl, second, rfl⟩

theorem Advances.bind {p : Parser α} {f : α → Parser β} (first : p.Advances c s Q)
    (next : ∀ a t, t.ahead <:+ s.ahead → Q a t → (f a).Advances c t R) : (p >>= f).Advances c s R := by
  intro rs b u run clean
  obtain ⟨rs₁, a, t, rs₂, here, there, rfl⟩ := run_bind run
  have clean₁ : ∀ r ∈ rs₁, r.skips = false := fun r mem => clean r (List.mem_append_left rs₂ mem)
  have clean₂ : ∀ r ∈ rs₂, r.skips = false := fun r mem => clean r (List.mem_append_right rs₁ mem)
  obtain ⟨behind, holds⟩ := first rs₁ a t here clean₁
  obtain ⟨behind', holds'⟩ := next a t behind holds rs₂ b u there clean₂
  exact ⟨behind'.trans behind, holds'⟩

theorem Advances.mono {p : Parser α} {Q' : α → Cursor → Prop} (h : p.Advances c s Q)
    (imp : ∀ a t, t.ahead <:+ s.ahead → Q a t → Q' a t) : p.Advances c s Q' := by
  intro rs a t run clean
  obtain ⟨behind, holds⟩ := h rs a t run clean
  exact ⟨behind, imp a t behind holds⟩

theorem advances_pure {a : α} (h : Q a s) : (pure a : Parser α).Advances c s Q := by
  intro rs b t run _
  cases run
  exact ⟨List.suffix_refl _, h⟩

/-- What always comes to a proper end only goes forward. -/
theorem Proceeds.advances {p : Parser α} (h : p.Proceeds True s c s Q)
    (eof : c.eof.isEof = true) : p.Advances c s Q := by
  intro rs a t run _
  have proper := h eof (List.suffix_refl _)
  rw [run] at proper
  exact proper

/-- What all values of a parser are like, the value here is like. -/
theorem Advances.always {p : Parser α} {V : α → Prop} (h : p.Advances c s Q) (all : p.Always V) :
    p.Advances c s fun a t => V a ∧ Q a t := by
  intro rs a t run clean
  obtain ⟨behind, holds⟩ := h rs a t run clean
  have value : p.Yields c s a t := by rw [Yields, run]
  exact ⟨behind, all c s a t value, holds⟩

theorem advances_of_not_yields {p : Parser α} (never : ∀ a t, ¬p.Yields c s a t) : p.Advances c s Q := by
  intro rs a t run _
  have value : p.Yields c s a t := by rw [Yields, run]
  exact absurd value (never a t)

/-! ### Places and tokens -/

/-- What only looks ahead reads nothing. -/
theorem advances_look {p : Parser α} {f : α → Parser β} {a : α} (looks : p c s = ⟨[], .ok (a, s)⟩)
    (rest : (f a).Advances c s R) : (p >>= f).Advances c s R := by
  intro rs b u run clean
  obtain ⟨rs₁, a', t, rs₂, here, there, rfl⟩ := run_bind run
  cases here.symm.trans looks
  exact rest rs₂ b u there clean

theorem advances_peek {f : Token → Parser β} (rest : (f (next c s.ahead)).Advances c s R) :
    (peek >>= f).Advances c s R := by
  have looks : peek c s = ⟨[], .ok (next c s.ahead, s)⟩ := by
    rw [next, List.head?_eq_getElem?]
    rfl
  exact advances_look looks rest

theorem advances_isNext {p : Punct} {f : Bool → Parser β}
    (rest : (f ((next c s.ahead).is p)).Advances c s R) : (isNext p >>= f).Advances c s R := by
  have looks : isNext p c s = ⟨[], .ok ((next c s.ahead).is p, s)⟩ := by
    rw [next, List.head?_eq_getElem?]
    rfl
  exact advances_look looks rest

theorem advances_within {names : List String} {p : Parser α}
    (h : p.Advances { c with scope := c.scope ++ names } s Q) : (within names p).Advances c s Q :=
  h

/-! ### Recovery -/

/-- Wherever a parser comes to a value, it reports something that was skipped. -/
def Skips (p : Parser α) : Prop :=
  ∀ c s rs a t, p c s = ⟨rs, .ok (a, t)⟩ → ∃ r ∈ rs, r.skips = true

theorem skips_report {r : Report} (skips : r.skips = true) : (report r).Skips := by
  intro c s rs a t run
  cases run
  exact ⟨r, List.mem_cons_self, skips⟩

theorem skips_bind {p : Parser α} {f : α → Parser β} (next : ∀ a, (f a).Skips) : (p >>= f).Skips := by
  intro c s rs b u run
  obtain ⟨rs₁, a, t, rs₂, -, last, rfl⟩ := run_bind run
  obtain ⟨r, mem, skips⟩ := next a c t rs₂ b u last
  exact ⟨r, List.mem_append_right rs₁ mem, skips⟩

/-- Whatever is recovered from is reported. -/
theorem skips_recover (start : Cursor) (e : Failure) : (recover start e).Skips := by
  unfold recover
  split
  · refine skips_bind fun alone => ?_
    extract_lets rest
    have last : (rest ()).Skips := skips_report rfl
    split
    · exact skips_bind fun _ => skips_bind fun _ => last
    · exact skips_bind fun _ => last
  · exact skips_bind fun _ => skips_report rfl

/-- Where nothing was skipped there was nothing to recover from. -/
theorem advances_recovering {p : Parser Declared} {Q : Declared → Cursor → Prop} (h : p.Advances c s Q) :
    (recovering p).Advances c s Q := by
  intro rs d u run clean
  unfold recovering at run
  obtain ⟨rs₁, _, _, rs₂, place, tries, rfl⟩ := run_bind run
  cases place
  obtain ⟨rs₃, r, t, rs₄, tried, rest, rfl⟩ := run_bind tries
  have clean₃ : ∀ r ∈ rs₃, r.skips = false := fun r mem => clean r (by simp [mem])
  have clean₄ : ∀ r ∈ rs₄, r.skips = false := fun r mem => clean r (by simp [mem])
  -- A failure would have been recovered from, and that would have been reported.
  have fine {e : Failure} {d' : Declared}
      (rest : (recover s e >>= fun _ => pure d') c t = ⟨rs₄, .ok (d, u)⟩) : False := by
    obtain ⟨rs₅, x, v, rs₆, recovered, -, rfl⟩ := run_bind rest
    obtain ⟨r, mem, skips⟩ := skips_recover s e c t rs₅ x v recovered
    rw [clean₄ r (List.mem_append_left rs₆ mem)] at skips
    cases skips
  cases r with
  | error e => exact (fine rest).elim
  | ok d' =>
    dsimp only at rest
    cases failure : d'.failure with
    | some e =>
      rw [failure] at rest
      exact (fine rest).elim
    | none =>
      rw [failure] at rest
      cases rest
      have read : p c s = ⟨rs₃, .ok (d, u)⟩ := by
        unfold attempt at tried
        rcases done : p c s with ⟨rs', (e | _ | _) | ⟨d', t'⟩⟩
        all_goals rw [done] at tried
        all_goals cases tried
        rfl
      exact h rs₃ d u read clean₃

/-! ### Repetition -/

/-- What each step keeps is so in the end. -/
theorem advances_loop {step : σ → Parser (σ × Bool)} {I : σ → Cursor → Prop}
    (steps : ∀ a t, t.ahead <:+ s.ahead → I a t → (step a).Advances c t fun r u => I r.1 u) {a : σ}
    (start : I a s) : (loop step a).Advances c s I := by
  have from_ (a : σ) (t : Cursor) : t.ahead <:+ s.ahead → I a t → (loop step a).Advances c t I := by
    intro behind here rs b v run clean
    fun_induction loop step a c t generalizing rs with
    | case1 a t rs' reason done => cases run
    | case2 a t rs' a' t' done =>
      cases run
      exact steps a t behind here _ _ _ done clean
    | case3 a t rs' a' t' done shorter ih =>
      rcases later : loop step a' c t' with ⟨rs'', result⟩
      rw [later] at run
      cases run
      obtain ⟨behind', here'⟩ := steps a t behind here _ _ _ done fun r mem => clean r (by simp [mem])
      obtain ⟨behind'', last⟩ :=
        ih (behind'.trans behind) here' _ later fun r mem => clean r (by simp [mem])
      exact ⟨behind''.trans behind', last⟩
    | case4 a t rs' a' t' done longer => cases run
  exact from_ a s (List.suffix_refl _) start

/-- What is gathered from one place to another one is so if it is so for each step, and for what is
gathered by some steps after it was so for each part. -/
theorem advances_collectFrom {step : σ → Parser (List α × σ × Bool)} {G : Cursor → List α → Cursor → Prop}
    (joined : ∀ t u v xs ys, t.ahead <:+ s.ahead → u.ahead <:+ t.ahead → v.ahead <:+ u.ahead →
      G t xs u → G u ys v → G t (xs ++ ys) v)
    (steps : ∀ a t, t.ahead <:+ s.ahead → (step a).Advances c t fun r u => G t r.1 u) {a : σ} :
    (collectFrom step a).Advances c s fun xs t => G s xs t := by
  have from_ (a : σ) (t : Cursor) : t.ahead <:+ s.ahead →
      (collectFrom step a).Advances c t fun xs u => G t xs u := by
    intro behind rs zs v run clean
    fun_induction collectFrom step a c t generalizing rs zs v with
    | case1 a t rs' reason done => cases run
    | case2 a t rs' xs a' t' done =>
      cases run
      exact steps a t behind _ _ _ done clean
    | case3 a t rs' xs a' t' done shorter rs'' ys t'' later ih =>
      cases run
      obtain ⟨behind', first⟩ := steps a t behind _ _ _ done fun r mem => clean r (by simp [mem])
      obtain ⟨behind'', rest⟩ :=
        ih (behind'.trans behind) _ _ _ later fun r mem => clean r (by simp [mem])
      exact ⟨behind''.trans behind', joined t t' t'' xs ys behind behind' behind'' first rest⟩
    | case4 a t rs' xs a' t' done shorter rs'' reason later ih => cases run
    | case5 a t rs' xs a' t' done longer => cases run
  exact from_ a s (List.suffix_refl _)

end Parser

end HeaderDecl.Grammar
