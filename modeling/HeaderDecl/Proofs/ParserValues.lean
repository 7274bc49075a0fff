import HeaderDecl.Proofs.ParserProgress
import HeaderDecl.Proofs.SpelledTokens

/-!
What parsers give where the tokens ahead are spelled as their kinds are, one rule for each way they are
put together. Wherever a parser gets, such tokens are ahead of it again.
-/

namespace HeaderDecl

theorem forall_mem_some {α : Type} {p : α → Prop} {a : α} : (∀ b ∈ some a, p b) ↔ p a := by simp

theorem forall_mem_none {α : Type} {p : α → Prop} : ∀ b ∈ (none : Option α), p b := by simp

namespace Grammar

/-- A place where spelled tokens are ahead. -/
def Cursor.Spelled (s : Cursor) : Prop := ∀ t ∈ s.ahead, t.Spelled

/-- A failure behind which recovery goes on at a place with spelled tokens. -/
def Failure.Spelled (e : Failure) : Prop := ∀ i ∈ e.invocation, i.after.Spelled

theorem Cursor.Spelled.behind {s t : Cursor} (h : s.Spelled) (behind : t.ahead <:+ s.ahead) :
    t.Spelled :=
  fun x hx => h x (behind.subset hx)

theorem Failure.Within.spelled {e : Failure} {s : Cursor} (h : e.Within s) (hs : s.Spelled) :
    e.Spelled :=
  fun i hi => hs.behind (h i hi).1

namespace Parser

variable {α β σ : Type} {c : Context} {s : Cursor} {Q : α → Prop} {R : β → Prop}

/-- A value with a property and spelled tokens ahead, or a failure. -/
def Sound (Q : α → Prop) : Except Stop (α × Cursor) → Prop
  | .ok (a, t) => t.Spelled ∧ Q a
  | .error (.failure e) => e.Spelled
  | .error .endless => True
  | .error .outOfRange => True

/-- From `s` on a parser gives values with a property if spelled tokens are ahead. -/
def Gives (p : Parser α) (c : Context) (s : Cursor) (Q : α → Prop) : Prop :=
  c.eof.isEof = true → s.Spelled → Sound Q (p c s).result

/-! ### Sequences -/

theorem Sound.mono {Q' : α → Prop} {r : Except Stop (α × Cursor)} (h : Sound Q r)
    (imp : ∀ a, Q a → Q' a) : Sound Q' r := by
  rcases r with (e | _ | _) | ⟨a, t⟩
  · exact h
  · trivial
  · trivial
  · exact ⟨h.1, imp a h.2⟩

theorem Sound.error {reason : Stop} (h : Sound Q (.error reason)) : Sound R (.error reason) := by
  cases reason <;> exact h

theorem Gives.mono {p : Parser α} {Q' : α → Prop} (h : p.Gives c s Q) (imp : ∀ a, Q a → Q' a) :
    p.Gives c s Q' :=
  fun eof spelled => (h eof spelled).mono imp

/-- What comes to a proper end gives something. -/
theorem Proceeds.gives {p : Parser α} {Q : α → Cursor → Prop} (h : p.Proceeds True s c s Q) :
    p.Gives c s fun _ => True := by
  intro eof spelled
  have ends := h eof (List.suffix_refl _)
  rcases done : (p c s).result with (e | _ | _) | ⟨a, t⟩
  all_goals rw [done] at ends
  -- What is ahead in the end is a part of what was ahead.
  · exact ends.2.spelled spelled
  · trivial
  · trivial
  · exact ⟨spelled.behind ends.1, trivial⟩

theorem Gives.bind {p : Parser α} {f : α → Parser β} (first : p.Gives c s Q)
    (next : ∀ a t, Q a → (f a).Gives c t R) : (p >>= f).Gives c s R := by
  intro eof spelled
  have here := first eof spelled
  have run : (p >>= f) c s = Parser.bind p f c s := rfl
  rw [run, Parser.bind]
  rcases done : p c s with ⟨rs, reason | ⟨a, t⟩⟩
  · rw [done] at here
    exact here.error
  · rw [done] at here
    exact next a t here.2 eof here.1

/-- What a parser gives may not matter. -/
theorem Proceeds.then {p : Parser α} {f : α → Parser β} {Q : α → Cursor → Prop}
    (first : p.Proceeds True s c s Q) (next : ∀ a t, (f a).Gives c t R) :
    (p >>= f).Gives c s R :=
  first.gives.bind fun a t _ => next a t

theorem gives_pure {a : α} (h : Q a) : (pure a : Parser α).Gives c s Q :=
  fun _ spelled => ⟨spelled, h⟩

theorem Gives.map {p : Parser α} {f : α → β} (h : p.Gives c s fun a => R (f a)) :
    (f <$> p).Gives c s R :=
  h.bind fun _ _ done => gives_pure done

theorem Gives.map_bind {p : Parser α} {f : α → β} {g : β → Parser σ} {R : σ → Prop}
    (first : p.Gives c s Q) (next : ∀ a t, Q a → (g (f a)).Gives c t R) :
    (f <$> p >>= g).Gives c s R :=
  Gives.bind (Gives.map (R := fun b => ∃ a, Q a ∧ f a = b) (first.mono fun a done => ⟨a, done, rfl⟩))
    fun _ t ⟨a, done, same⟩ => same ▸ next a t done

/-! ### Places and tokens -/

theorem gives_here {f : Cursor → Parser β} (next : s.Spelled → (f s).Gives c s R) :
    (here >>= f).Gives c s R :=
  fun eof spelled => next spelled eof spelled

theorem gives_goTo {t : Cursor} {f : Unit → Parser β} (spelled : t.Spelled)
    (next : (f ()).Gives c t R) : (goTo t >>= f).Gives c s R :=
  fun eof _ => next eof spelled

theorem gives_scope {f : List String → Parser β} (next : (f c.scope).Gives c s R) :
    (scope >>= f).Gives c s R :=
  next

theorem gives_within {names : List String} {p : Parser α}
    (h : p.Gives { c with scope := c.scope ++ names } s Q) : (within names p).Gives c s Q :=
  h

theorem gives_nth {n : Nat} {f : Token → Parser β} (next : ∀ t, (f t).Gives c s R) :
    (nth n >>= f).Gives c s R :=
  next (s.ahead[n]?.getD c.eof)

theorem spelled_next (eof : c.eof.isEof = true) (spelled : s.Spelled) :
    (next c s.ahead).Spelled := by
  unfold next
  cases ahead : s.ahead with
  | nil => exact Token.spelled_of_isEof eof
  | cons t ts => exact spelled t (ahead ▸ List.mem_cons_self)

/-- The token that comes next, and that would be passed. -/
theorem gives_peek {f : Token → Parser β}
    (next : ∀ t, t = Parser.next c s.ahead → t.Spelled → (f t).Gives c s R) :
    (peek >>= f).Gives c s R := by
  intro eof spelled
  have first : s.ahead[0]?.getD c.eof = Parser.next c s.ahead := by
    rw [Parser.next, List.head?_eq_getElem?]
  exact next _ first (first ▸ spelled_next eof spelled) eof spelled

theorem gives_advance :
    advance.Gives c s fun t => t = next c s.ahead ∧ t.Spelled :=
  fun eof spelled =>
    ⟨spelled.behind (List.drop_suffix 1 s.ahead), rfl, spelled_next eof spelled⟩

/-- What does not depend on the token that is passed. -/
theorem gives_pass {f : Token → Parser β} (next : ∀ a t, (f a).Gives c t R) :
    (advance >>= f).Gives c s R :=
  gives_advance.bind fun a t _ => next a t

theorem gives_isNext {p : Punct} {f : Bool → Parser β} (next : ∀ b, (f b).Gives c s R) :
    (isNext p >>= f).Gives c s R :=
  gives_peek fun t _ _ => next (t.is p)

theorem gives_isNextKw {k : Keyword} {f : Bool → Parser β} (next : ∀ b, (f b).Gives c s R) :
    (isNextKw k >>= f).Gives c s R :=
  gives_peek fun t _ _ => next (t.isKw k)

theorem gives_isNextWord {word : String} {f : Bool → Parser β} (next : ∀ b, (f b).Gives c s R) :
    (isNextWord word >>= f).Gives c s R :=
  gives_peek fun t _ _ => next (t.isWordIn [word])

theorem gives_isNextIdentifier {f : Bool → Parser β}
    (next : ∀ b, (b = true → (Parser.next c s.ahead).kind = .identifier) → (f b).Gives c s R) :
    (isNextIdentifier >>= f).Gives c s R :=
  gives_peek fun t same _ => next (t.kind == .identifier) fun found => same ▸ eq_of_beq found

theorem gives_atEndOr {ps : List Punct} {f : Bool → Parser β} (next : ∀ b, (f b).Gives c s R) :
    (atEndOr ps >>= f).Gives c s R :=
  gives_peek fun t _ _ => next (t.isEof || ps.any t.is)

/-! ### Failure -/

theorem gives_failWith {e : Failure} (h : e.Spelled) : (failWith e).Gives c s Q := fun _ _ => h

theorem gives_failAt {t : Token} {cause : Cause} : (failAt t cause).Gives c s Q :=
  gives_failWith forall_mem_none

theorem gives_failHere {cause : Cause} : (failHere cause).Gives c s Q :=
  gives_peek fun _ _ _ => gives_failAt

theorem gives_consumeKind {kind : TokenKind} :
    (consumeKind kind).Gives c s fun t => t.kind = kind ∧ t.Spelled := by
  refine gives_peek fun t same _ => ?_
  split
  · refine gives_advance.mono fun u ⟨same', spelled⟩ => ⟨?_, spelled⟩
    rw [same', ← same]
    exact eq_of_beq ‹_›
  · exact gives_failAt

theorem gives_attempt {p : Parser α} {Q : Except Failure α → Prop}
    (h : p.Gives c s fun a => Q (.ok a)) (failed : ∀ e, e.Spelled → Q (.error e)) :
    (attempt p).Gives c s Q := by
  intro eof spelled
  have here := h eof spelled
  unfold attempt
  rcases done : p c s with ⟨rs, (e | _ | _) | ⟨a, t⟩⟩
  all_goals rw [done] at here
  · exact ⟨spelled, failed e here⟩
  · trivial
  · trivial
  · exact here

theorem gives_speculate {p : Parser α} {Q : Option α → Prop} (h : p.Gives c s fun a => Q (some a))
    (failed : Q none) : (speculate p).Gives c s Q := by
  intro eof spelled
  have here := h eof spelled
  unfold speculate
  rcases done : p c s with ⟨rs, (e | _ | _) | ⟨a, t⟩⟩
  all_goals rw [done] at here
  · exact ⟨spelled, failed⟩
  · trivial
  · trivial
  · exact here

/-! ### Repetition -/

theorem gives_loop {step : σ → Parser (σ × Bool)} {I : σ → Prop}
    (steps : ∀ a t, I a → (step a).Gives c t fun r => I r.1) {a : σ} (start : I a) :
    (loop step a).Gives c s I := by
  intro eof spelled
  fun_induction loop step a c s with
  | case1 a s rs reason done =>
    have here := steps a s start eof spelled
    rw [done] at here
    exact here.error
  | case2 a s rs a' s' done =>
    have here := steps a s start eof spelled
    rw [done] at here
    exact here
  | case3 a s rs a' s' done shorter ih =>
    have here := steps a s start eof spelled
    rw [done] at here
    exact ih here.2 here.1
  | case4 => trivial

theorem gives_none {b : β} :
    (pure ([], b) : Parser (List α × β)).Gives c s fun r => ∀ x ∈ r.1, Q x :=
  gives_pure (List.forall_mem_nil Q)

/-- All that the steps of a repetition give. -/
theorem gives_collectFrom {step : σ → Parser (List α × σ × Bool)}
    (steps : ∀ a t, (step a).Gives c t fun r => ∀ x ∈ r.1, Q x) {a : σ} :
    (collectFrom step a).Gives c s fun xs => ∀ x ∈ xs, Q x := by
  intro eof spelled
  fun_induction collectFrom step a c s with
  | case1 a s rs reason done =>
    have here := steps a s eof spelled
    rw [done] at here
    exact here.error
  | case2 a s rs xs a' s' done =>
    have here := steps a s eof spelled
    rw [done] at here
    exact here
  | case3 a s rs xs a' s' done shorter rs' ys s'' rest ih =>
    have here := steps a s eof spelled
    rw [done] at here
    have later := ih here.1
    rw [rest] at later
    exact ⟨later.1, List.forall_mem_append.mpr ⟨here.2, later.2⟩⟩
  | case4 a s rs xs a' s' done shorter rs' reason rest ih =>
    have here := steps a s eof spelled
    rw [done] at here
    have later := ih here.1
    rw [rest] at later
    exact later.error
  | case5 => trivial

theorem gives_collect (Q : α → Prop) {step : Parser (List α × Bool)}
    (steps : ∀ t, step.Gives c t fun r => ∀ x ∈ r.1, Q x) :
    (collect step).Gives c s fun xs => ∀ x ∈ xs, Q x :=
  gives_collectFrom fun _ t => (steps t).bind fun _ _ done => gives_pure done

theorem gives_commaSeparated (Q : α → Prop) {close : Punct} {element : Parser α}
    (elements : ∀ t, element.Gives c t Q) :
    (commaSeparated close element).Gives c s fun xs => ∀ x ∈ xs, Q x := by
  refine gives_collect Q fun t => gives_atEndOr fun atEnd => ?_
  split
  · exact gives_none
  · refine (elements t).bind fun a u given => proceeds_take.then fun more v => ?_
    exact gives_pure (List.forall_mem_singleton.mpr given)

end Parser

end Grammar

end HeaderDecl
