import HeaderDecl.Proofs.ParserRuns

/-!
What parsers come to, whatever they report: a value and a place, or a failure. The rules for values hold
in both directions.
-/

namespace HeaderDecl.Grammar.Parser

variable {α β : Type} {c : Context} {s t u : Cursor}

/-- A parser gets from one place to another one with a value. -/
def Yields (p : Parser α) (c : Context) (s : Cursor) (a : α) (t : Cursor) : Prop :=
  (p c s).result = .ok (a, t)

/-- A parser fails, in a way that can be recovered from. -/
def Fails (p : Parser α) (c : Context) (s : Cursor) (e : Failure) : Prop :=
  (p c s).result = .error (.failure e)

theorem Yields.unique {p : Parser α} {a b : α} (h : p.Yields c s a t) (h' : p.Yields c s b u) :
    a = b ∧ t = u := by
  have same := Except.ok.inj (h.symm.trans h')
  exact Prod.mk.inj same

theorem Fails.not_yields {p : Parser α} {e : Failure} {a : α} (h : p.Fails c s e) :
    ¬ p.Yields c s a t := by
  intro h'
  cases h.symm.trans h'

theorem yields_of_eq {p : Parser α} {a b : α} (h : (p c s).result = .ok (a, u)) :
    p.Yields c s b t ↔ a = b ∧ u = t := by
  rw [Yields, h, Except.ok.injEq, Prod.mk.injEq]

@[simp]
theorem yields_pure {a b : α} : (pure a : Parser α).Yields c s b t ↔ a = b ∧ s = t := yields_of_eq rfl

@[simp]
theorem yields_bind {p : Parser α} {f : α → Parser β} {b : β} :
    (p >>= f).Yields c s b u ↔ ∃ a t, p.Yields c s a t ∧ (f a).Yields c t b u := by
  have run : (p >>= f) c s = Parser.bind p f c s := rfl
  unfold Yields
  rw [run, Parser.bind]
  rcases p c s with ⟨rs, e | ⟨a, t⟩⟩
  · simp
  · simp [Outcome.after, and_assoc]

@[simp]
theorem not_yields_failWith {e : Failure} {a : α} : ¬ (failWith e : Parser α).Yields c s a t := nofun

/-! ### Tokens -/

@[simp]
theorem yields_nth {n : Nat} {x : Token} :
    (nth n).Yields c s x t ↔ s.ahead[n]?.getD c.eof = x ∧ s = t := yields_of_eq rfl

@[simp]
theorem yields_peek {x : Token} : peek.Yields c s x t ↔ next c s.ahead = x ∧ s = t := by
  rw [peek, yields_nth, next, List.head?_eq_getElem?]

@[simp]
theorem yields_here {x : Cursor} : here.Yields c s x t ↔ s = x ∧ s = t := yields_of_eq rfl

@[simp]
theorem yields_scope {x : List String} : scope.Yields c s x t ↔ c.scope = x ∧ s = t := yields_of_eq rfl

@[simp]
theorem yields_advance {x : Token} : advance.Yields c s x t ↔ next c s.ahead = x ∧ s.drop 1 = t :=
  yields_of_eq rfl

@[simp]
theorem yields_report {r : Report} {x : Unit} : (report r).Yields c s x t ↔ s = t := by
  rw [yields_of_eq (a := ()) (u := s) rfl]
  simp

@[simp]
theorem yields_reportAll {rs : List Report} {x : Unit} : (reportAll rs).Yields c s x t ↔ s = t := by
  rw [yields_of_eq (a := ()) (u := s) rfl]
  simp

@[simp]
theorem yields_skipAttributes {x : Unit} : skipAttributes.Yields c s x t ↔ s.afterAttributes = t := by
  rw [yields_of_eq (a := ()) (u := s.afterAttributes) rfl]
  simp

@[simp]
theorem yields_isNext {p : Punct} {b : Bool} :
    (isNext p).Yields c s b t ↔ (next c s.ahead).is p = b ∧ s = t := by
  simp [isNext, and_assoc, and_comm]

@[simp]
theorem yields_atEndOr {ps : List Punct} {b : Bool} :
    (atEndOr ps).Yields c s b t ↔
      ((next c s.ahead).isEof || ps.any (next c s.ahead).is) = b ∧ s = t := by
  simp [atEndOr, and_assoc, and_comm]

@[simp]
theorem yields_take {p : Punct} {b : Bool} :
    (take p).Yields c s b t ↔
      (next c s.ahead).is p = b ∧ (if (next c s.ahead).is p then s.drop 1 else s) = t := by
  unfold take takeKind Token.is
  by_cases h : (next c s.ahead).kind = .punct p
  · simp [and_assoc, h]
  · simp [and_assoc, h, beq_false_of_ne h]

@[simp]
theorem yields_consumeKind {k : TokenKind} {x : Token} :
    (consumeKind k).Yields c s x t ↔
      (next c s.ahead).kind = k ∧ next c s.ahead = x ∧ s.drop 1 = t := by
  unfold consumeKind
  by_cases h : (next c s.ahead).kind = k <;> simp [and_assoc, h, failAt]

@[simp]
theorem yields_consume {p : Punct} {x : Token} :
    (consume p).Yields c s x t ↔ (next c s.ahead).is p = true ∧ next c s.ahead = x ∧ s.drop 1 = t := by
  simp [consume, Token.is]

@[simp]
theorem yields_consumeKw {k : Keyword} {x : Token} :
    (consumeKw k).Yields c s x t ↔ (next c s.ahead).isKw k = true ∧ next c s.ahead = x ∧ s.drop 1 = t := by
  simp [consumeKw, Token.isKw]

theorem fails_consume {p : Punct} (other : (next c s.ahead).is p = false) :
    ∃ e, (consume p).Fails c s e := by
  have differs : ((next c s.ahead).kind == .punct p) = false := other
  refine ⟨{ cause := .unexpected (next c s.ahead).kind (.punct p), site := next c s.ahead }, ?_⟩
  have run : (consume p) c s = (if (next c s.ahead).kind == .punct p then advance
      else failAt (next c s.ahead) (.unexpected (next c s.ahead).kind (.punct p))) c s := by
    rw [next, List.head?_eq_getElem?]
    rfl
  rw [Fails, run, differs]
  rfl

/-! ### Recovery -/

theorem yields_attempt {p : Parser α} {r : Except Failure α} :
    (attempt p).Yields c s r t ↔
      (∃ a, p.Yields c s a t ∧ r = .ok a) ∨ ∃ e, p.Fails c s e ∧ r = .error e ∧ s = t := by
  unfold Yields Fails attempt
  rcases p c s with ⟨rs, (e | _ | _) | ⟨a, t'⟩⟩
  · simp [eq_comm]
  · simp
  · simp
  · cases r <;> simp [and_comm, eq_comm]

/-- Recovery gives what was declared, or nothing but the failure if nothing was read. -/
theorem declared_of_recovering {p : Parser Declared} {d : Declared}
    (h : (recovering p).Yields c s d u) :
    (∃ t, p.Yields c s d t) ∨ ∃ e, p.Fails c s e ∧ d = { failure := some e } := by
  simp only [recovering, yields_bind, yields_here] at h
  obtain ⟨_, _, ⟨rfl, rfl⟩, r, t, tried, h⟩ := h
  rcases yields_attempt.mp tried with ⟨d', read, rfl⟩ | ⟨e, failed, rfl, rfl⟩
  · have same : d' = d := by
      cases failure : d'.failure with
      | none =>
        simp only [failure, yields_pure] at h
        exact h.1
      | some e =>
        simp only [failure, yields_bind, yields_pure] at h
        obtain ⟨_, _, -, done, -⟩ := h
        exact done
    exact .inl ⟨t, same ▸ read⟩
  · obtain ⟨_, _, -, done⟩ := yields_bind.mp h
    exact .inr ⟨e, failed, (yields_pure.mp done).1.symm⟩

/-! ### All results -/

section Always

variable {Q : α → Prop} {R : β → Prop}

/-- All that a parser can give has a property. -/
def Always (p : Parser α) (Q : α → Prop) : Prop := ∀ c s a t, p.Yields c s a t → Q a

theorem Always.mono {Q' : α → Prop} {p : Parser α} (h : p.Always Q) (imp : ∀ a, Q a → Q' a) :
    p.Always Q' :=
  fun c s a t run => imp a (h c s a t run)

theorem always_pure {a : α} (h : Q a) : (pure a : Parser α).Always Q := by
  intro c s b t run
  exact (yields_pure.mp run).1 ▸ h

/-- Only the last parser of a sequence gives its value. -/
theorem always_bind {p : Parser α} {f : α → Parser β} (next : ∀ a, (f a).Always R) :
    (p >>= f).Always R := by
  intro c s b t run
  obtain ⟨a, u, -, rest⟩ := yields_bind.mp run
  exact next a c u b t rest

theorem Always.bind {p : Parser α} {f : α → Parser β} (first : p.Always Q)
    (next : ∀ a, Q a → (f a).Always R) : (p >>= f).Always R := by
  intro c s b t run
  obtain ⟨a, u, here, rest⟩ := yields_bind.mp run
  exact next a (first c s a u here) c u b t rest

theorem Always.map {p : Parser α} {f : α → β} (h : p.Always fun a => R (f a)) : (f <$> p).Always R :=
  h.bind fun _ done => always_pure done

theorem Always.map_bind {γ : Type} {p : Parser α} {f : α → β} {g : β → Parser γ} {R : γ → Prop}
    (first : p.Always Q) (next : ∀ a, Q a → (g (f a)).Always R) : (f <$> p >>= g).Always R :=
  Always.bind (Always.map (R := fun b => ∃ a, Q a ∧ f a = b) (first.mono fun a done => ⟨a, done, rfl⟩))
    fun _ ⟨a, done, same⟩ => same ▸ next a done

theorem always_within {names : List String} {p : Parser α} (h : p.Always Q) :
    (within names p).Always Q :=
  fun c s a t run => h { c with scope := c.scope ++ names } s a t run

theorem always_ite {b : Bool} {p q : Parser α} (yes : p.Always Q) (no : q.Always Q) :
    (if b then p else q).Always Q := by
  split
  · exact yes
  · exact no

theorem always_stop {reason : Stop} : (stop reason : Parser α).Always Q := nofun

theorem always_failHere {cause : Cause} : (failHere cause : Parser α).Always Q := by
  unfold failHere failAt failWith
  exact always_bind fun _ => always_stop

theorem always_speculate {p : Parser α} {Q : Option α → Prop} (h : p.Always fun a => Q (some a))
    (failed : Q none) : (speculate p).Always Q := by
  intro c s r t run
  unfold Yields speculate at run
  rcases done : p c s with ⟨rs, (e | _ | _) | ⟨a, u⟩⟩
  all_goals
    rw [done] at run
    cases run
  · exact failed
  · have here : p.Yields c s a t := congrArg Outcome.result done
    exact h c s a t here

/-- Recovery gives what was declared, or what comes of a failure. -/
theorem always_recovering {p : Parser Declared} {Q : Declared → Prop} (h : p.Always Q)
    (failed : ∀ e, Q { failure := some e }) : (recovering p).Always Q := by
  intro c s d t run
  rcases declared_of_recovering run with ⟨u, read⟩ | ⟨e, -, rfl⟩
  · exact h c s d u read
  · exact failed e

/-! ### All results of a repetition -/

variable {σ : Type}

theorem always_loop {step : σ → Parser (σ × Bool)} {I : σ → Prop}
    (steps : ∀ a, I a → (step a).Always fun r => I r.1) {a : σ} (start : I a) :
    (loop step a).Always I := by
  intro c s b t run
  unfold Yields at run
  fun_induction loop step a c s with
  | case1 => cases run
  | case2 a s rs a' s' done =>
    cases run
    exact steps a start c s _ _ (congrArg Outcome.result done)
  | case3 a s rs a' s' done shorter ih =>
    have here := steps a start c s _ _ (congrArg Outcome.result done)
    exact ih here run
  | case4 => cases run

/-- All that the steps of a repetition give, which may depend on the state they begin in. -/
theorem always_collectFrom {step : σ → Parser (List α × σ × Bool)} {G : σ → List α → Prop}
    (stops : ∀ a, (step a).Always fun r => r.2.2 = false → G a r.1)
    (goes : ∀ a, (step a).Always fun r => r.2.2 = true → ∀ ys, G r.2.1 ys → G a (r.1 ++ ys)) {a : σ} :
    (collectFrom step a).Always (G a) := by
  intro c s xs t run
  unfold Yields at run
  fun_induction collectFrom step a c s generalizing xs t with
  | case1 => cases run
  | case2 a s rs ys a' s' done =>
    cases run
    exact stops a c s _ _ (congrArg Outcome.result done) rfl
  | case3 a s rs ys a' s' done shorter rs' zs s'' rest ih =>
    cases run
    have later := ih zs s'' (by rw [rest])
    exact goes a c s _ _ (congrArg Outcome.result done) rfl zs later
  | case4 => cases run
  | case5 => cases run

theorem always_collect (Q : α → Prop) {step : Parser (List α × Bool)}
    (steps : step.Always fun r => ∀ x ∈ r.1, Q x) : (collect step).Always fun xs => ∀ x ∈ xs, Q x := by
  refine always_collectFrom (G := fun _ xs => ∀ x ∈ xs, Q x) (fun _ => ?_) fun _ => ?_
  · exact steps.bind fun r given => always_pure fun _ => given
  · refine steps.bind fun r given => always_pure fun _ ys later => ?_
    exact List.forall_mem_append.mpr ⟨given, later⟩

theorem always_none {b : β} : (pure ([], b) : Parser (List α × β)).Always fun r => ∀ x ∈ r.1, Q x :=
  always_pure (List.forall_mem_nil Q)

theorem always_commaSeparated {close : Punct} {element : Parser α} (h : element.Always Q) :
    (commaSeparated close element).Always fun xs => ∀ x ∈ xs, Q x := by
  refine always_collect Q (always_bind fun atEnd => always_ite always_none ?_)
  refine h.bind fun a given => always_bind fun more => ?_
  exact always_pure (List.forall_mem_singleton.mpr given)

end Always

end HeaderDecl.Grammar.Parser
