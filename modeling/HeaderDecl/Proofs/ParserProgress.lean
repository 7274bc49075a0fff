import HeaderDecl.Proofs.ParserRuns

/-!
How parsers come to an end: at a place among the tokens, with a value, or with a failure that can be
recovered from. No repetition stands still, and nothing is read that is not ahead.
-/

namespace HeaderDecl.Grammar

namespace Cursor

variable {s t : Cursor}

theorem left_le (h : t.ahead <:+ s.ahead) : t.left ≤ s.left := by
  rw [s.left_eq, t.left_eq]
  exact h.length_le

/-- From `s` to `t` a step of a repetition reads a token if it goes on. -/
def Leads (s : Cursor) (more : Bool) (t : Cursor) : Prop :=
  t.left ≤ s.left ∧ (more = true → t.left < s.left)

theorem Leads.more (lt : t.left < s.left) {more : Bool} : s.Leads more t :=
  ⟨Nat.le_of_lt lt, fun _ => lt⟩

theorem Leads.stop (le : t.left ≤ s.left) : s.Leads false t := ⟨le, nofun⟩

/-- Attributes are skipped forward. -/
theorem afterAttributes_suffix (s : Cursor) : s.afterAttributes.ahead <:+ s.ahead := by
  induction s using afterAttributes.induct with
  | case1 s none =>
    rw [afterAttributes]
    split
    · exact List.suffix_refl _
    · simp_all
  | case2 s t ts some_ ih =>
    rw [afterAttributes]
    split
    · simp_all
    · have same : ts = _ := (List.cons.inj (some_.symm.trans ‹_›)).2
      subst same
      exact ih.trans (List.drop_suffix _ _)

end Cursor

/-! ### What is skipped is ahead -/

theorem tokensUntil_front (stops : List Punct) (depth : Nat) (ts : List Token) :
    tokensUntil stops depth ts <+: ts := by
  fun_induction tokensUntil stops depth ts with
  | case1 => exact List.nil_prefix
  | case2 => exact List.nil_prefix
  | case3 depth t ts _ ih => exact (List.prefix_cons_inj t).mpr ih

theorem groupTokens_front (depth : Nat) (ts : List Token) : groupTokens depth ts <+: ts := by
  fun_induction groupTokens depth ts with
  | case1 => exact List.nil_prefix
  | case2 depth t ts ih =>
    refine (List.prefix_cons_inj t).mpr ?_
    split
    · exact List.nil_prefix
    · exact ih

theorem declarationTokens_front (depth : Nat) (ts : List Token) :
    declarationTokens depth ts <+: ts := by
  fun_induction declarationTokens depth ts with
  | case1 => exact List.nil_prefix
  | case2 => exact List.nil_prefix
  | case3 => exact (List.prefix_cons_inj _).mpr List.nil_prefix
  | case4 => exact (List.prefix_cons_inj _).mpr List.nil_prefix
  | case5 depth t ts _ _ _ ih => exact (List.prefix_cons_inj t).mpr ih

/-- The use of a macro that a failure tells of is not empty, and ends behind `base`. -/
def Failure.Within (e : Failure) (base : Cursor) : Prop :=
  ∀ i ∈ e.invocation, i.after.ahead <:+ base.ahead ∧ i.after.left < i.start.left

namespace Parser

variable {α β σ : Type} {fails : Prop} {base s : Cursor} {c : Context} {Q : α → Cursor → Prop}
variable {R : β → Cursor → Prop}

/-- A value with a place behind `base`, or a failure there if there may be one. -/
def Proper (fails : Prop) (base : Cursor) (Q : α → Cursor → Prop) :
    Except Stop (α × Cursor) → Prop
  | .ok (a, t) => t.ahead <:+ base.ahead ∧ Q a t
  | .error (.failure e) => fails ∧ e.Within base
  | .error .endless => False
  | .error .outOfRange => False

/-- From `s` on, which is behind `base`, a parser comes to a proper end. -/
def Proceeds (p : Parser α) (fails : Prop) (base : Cursor) (c : Context) (s : Cursor)
    (Q : α → Cursor → Prop) : Prop :=
  c.eof.isEof = true → s.ahead <:+ base.ahead → Proper fails base Q (p c s).result

/-! ### Sequences -/

theorem Proper.mono {fails' : Prop} {Q' : α → Cursor → Prop} {r : Except Stop (α × Cursor)}
    (h : Proper fails base Q r) (may : fails → fails') (imp : ∀ a t, Q a t → Q' a t) :
    Proper fails' base Q' r := by
  rcases r with (e | _ | _) | ⟨a, t⟩
  · exact ⟨may h.1, h.2⟩
  · exact h
  · exact h
  · exact ⟨h.1, imp a t h.2⟩

theorem Proper.error {reason : Stop} (h : Proper fails base Q (.error reason)) :
    Proper fails base R (.error reason) := by
  cases reason <;> exact h

theorem Proceeds.mono {p : Parser α} {Q' : α → Cursor → Prop} (h : p.Proceeds fails base c s Q)
    (imp : ∀ a t, Q a t → Q' a t) : p.Proceeds fails base c s Q' :=
  fun eof behind => (h eof behind).mono id imp

theorem Proceeds.bind {p : Parser α} {f : α → Parser β} (first : p.Proceeds fails base c s Q)
    (next : ∀ a t, Q a t → (f a).Proceeds fails base c t R) :
    (p >>= f).Proceeds fails base c s R := by
  intro eof behind
  have here := first eof behind
  have run : (p >>= f) c s = Parser.bind p f c s := rfl
  rw [run, Parser.bind]
  rcases done : p c s with ⟨rs, reason | ⟨a, t⟩⟩
  · rw [done] at here
    exact here.error
  · rw [done] at here
    exact next a t here.2 eof here.1

theorem Proper.rebase {r : Except Stop (α × Cursor)} (h : Proper fails s Q r)
    (behind : s.ahead <:+ base.ahead) : Proper fails base Q r := by
  rcases r with (e | _ | _) | ⟨a, t⟩
  · exact ⟨h.1, fun i found => ⟨(h.2 i found).1.trans behind, (h.2 i found).2⟩⟩
  · exact h
  · exact h
  · exact ⟨h.1.trans behind, h.2⟩

/-- What comes to an end behind `s` does behind all that `s` is behind. -/
theorem Proceeds.rebase {p : Parser α} (h : p.Proceeds fails s c s Q) :
    p.Proceeds fails base c s Q :=
  fun eof behind => (h eof (List.suffix_refl _)).rebase behind

theorem proceeds_pure {a : α} (h : Q a s) : (pure a : Parser α).Proceeds fails base c s Q :=
  fun _ behind => ⟨behind, h⟩

theorem Proceeds.map {p : Parser α} {f : α → β} (h : p.Proceeds fails base c s fun a => R (f a)) :
    (f <$> p).Proceeds fails base c s R :=
  h.bind fun _ _ done => proceeds_pure done

theorem Proceeds.map_bind {p : Parser α} {f : α → β} {g : β → Parser σ} {R : σ → Cursor → Prop}
    (first : p.Proceeds fails base c s Q)
    (next : ∀ a t, Q a t → (g (f a)).Proceeds fails base c t R) :
    (f <$> p >>= g).Proceeds fails base c s R :=
  -- What was mapped is kept in mind, since `next` asks for it.
  Proceeds.bind (Proceeds.map (R := fun b t => ∃ a, Q a t ∧ f a = b)
    (first.mono fun a _ done => ⟨a, done, rfl⟩)) fun _ t ⟨a, done, same⟩ => same ▸ next a t done

/-! ### Places and tokens -/

theorem proceeds_here {f : Cursor → Parser β}
    (next : s.ahead <:+ base.ahead → (f s).Proceeds fails base c s R) :
    (here >>= f).Proceeds fails base c s R :=
  fun eof behind => next behind eof behind

theorem proceeds_goTo {t : Cursor} {f : Unit → Parser β} (behind : t.ahead <:+ base.ahead)
    (next : (f ()).Proceeds fails base c t R) : (goTo t >>= f).Proceeds fails base c s R :=
  fun eof _ => next eof behind

theorem proceeds_scope {f : List String → Parser β} (next : (f c.scope).Proceeds fails base c s R) :
    (scope >>= f).Proceeds fails base c s R :=
  next

theorem proceeds_report {r : Report} :
    (report r).Proceeds fails base c s fun _ t => t.left ≤ s.left :=
  fun _ behind => ⟨behind, Nat.le_refl _⟩

theorem proceeds_reportAll {rs : List Report} :
    (reportAll rs).Proceeds fails base c s fun _ t => t.left ≤ s.left :=
  fun _ behind => ⟨behind, Nat.le_refl _⟩

theorem proceeds_within {names : List String} {p : Parser α}
    (h : p.Proceeds fails base { c with scope := c.scope ++ names } s Q) :
    (within names p).Proceeds fails base c s Q :=
  h

theorem proceeds_nth {n : Nat} {f : Token → Parser β}
    (next : ∀ t, (f t).Proceeds fails base c s R) : (nth n >>= f).Proceeds fails base c s R :=
  next (s.ahead[n]?.getD c.eof)

/-- The next token is the first of those that are ahead, or the end token. -/
theorem proceeds_peek_head {f : Token → Parser β}
    (next : ∀ t, s.ahead.head? = some t ∨ s.ahead = [] ∧ t.isEof = true →
      (f t).Proceeds fails base c s R) :
    (peek >>= f).Proceeds fails base c s R := by
  intro eof behind
  refine next (s.ahead[0]?.getD c.eof) ?_ eof behind
  cases s.ahead with
  | nil => exact .inr ⟨rfl, eof⟩
  | cons t ts => exact .inl rfl

/-- A token that is not the end token is ahead. -/
theorem proceeds_peek {f : Token → Parser β}
    (next : ∀ t, (t.isEof = false → 0 < s.left) → (f t).Proceeds fails base c s R) :
    (peek >>= f).Proceeds fails base c s R := by
  refine proceeds_peek_head fun t ahead => next t fun other => ?_
  obtain first | ⟨-, eof⟩ := ahead
  · rw [s.left_eq]
    exact List.length_pos_of_mem (List.mem_of_mem_head? first)
  · rw [eof] at other
    cases other

theorem proceeds_advance : advance.Proceeds fails base c s fun _ t => t.left = s.left - 1 :=
  fun _ behind => ⟨(List.drop_suffix 1 s.ahead).trans behind, rfl⟩

theorem proceeds_isNext {p : Punct} {f : Bool → Parser β}
    (next : ∀ b, (b = true → 0 < s.left) → (f b).Proceeds fails base c s R) :
    (isNext p >>= f).Proceeds fails base c s R :=
  proceeds_peek fun t ahead => next (t.is p) fun found => ahead (by grind [Token.is, Token.isEof])

theorem proceeds_isNextKw {k : Keyword} {f : Bool → Parser β}
    (next : ∀ b, (b = true → 0 < s.left) → (f b).Proceeds fails base c s R) :
    (isNextKw k >>= f).Proceeds fails base c s R :=
  proceeds_peek fun t ahead => next (t.isKw k) fun found => ahead (by grind [Token.isKw, Token.isEof])

theorem proceeds_isNextIdentifier {f : Bool → Parser β}
    (next : ∀ b, (b = true → 0 < s.left) → (f b).Proceeds fails base c s R) :
    (isNextIdentifier >>= f).Proceeds fails base c s R :=
  proceeds_peek fun t ahead => next (t.kind == .identifier) fun found =>
    ahead (by grind [Token.isEof])

theorem proceeds_isNextWord {word : String} {f : Bool → Parser β}
    (next : ∀ b, (b = true → 0 < s.left) → (f b).Proceeds fails base c s R) :
    (isNextWord word >>= f).Proceeds fails base c s R :=
  proceeds_peek fun t ahead => next (t.isWordIn [word]) fun found =>
    ahead (by grind [Token.isWordIn, Token.isEof])

theorem proceeds_atEndOr {ps : List Punct} {f : Bool → Parser β}
    (next : ∀ b, (b = false → 0 < s.left) →
      (b = true → ∀ t ∈ s.ahead.head?, t.isEof = true ∨ ps.any t.is = true) →
        (f b).Proceeds fails base c s R) :
    (atEndOr ps >>= f).Proceeds fails base c s R := by
  show (peek >>= fun t => f (t.isEof || ps.any t.is)).Proceeds fails base c s R
  refine proceeds_peek_head fun t ahead => ?_
  refine next (t.isEof || ps.any t.is) (fun found => ?_) fun found x first => ?_
  · obtain first | ⟨-, eof⟩ := ahead
    · rw [s.left_eq]
      exact List.length_pos_of_mem (List.mem_of_mem_head? first)
    · simp [eof] at found
  · obtain first' | ⟨none, -⟩ := ahead
    · obtain rfl : t = x := Option.some.inj (first'.symm.trans first)
      simpa using found
    · simp [none] at first

theorem proceeds_takeKind {kind : TokenKind} (other : kind ≠ .eof) :
    (takeKind kind).Proceeds fails base c s fun b t =>
      t.left ≤ s.left ∧ (b = true → t.left < s.left) ∧ (b = false → t = s) := by
  refine proceeds_peek fun t ahead => ?_
  split
  · refine proceeds_advance.bind fun _ u passed => proceeds_pure ⟨by omega, fun _ => ?_, nofun⟩
    have := ahead (by grind [Token.isEof])
    omega
  · exact proceeds_pure ⟨Nat.le_refl _, nofun, fun _ => rfl⟩

theorem proceeds_take {p : Punct} :
    (take p).Proceeds fails base c s fun b t =>
      t.left ≤ s.left ∧ (b = true → t.left < s.left) ∧ (b = false → t = s) :=
  proceeds_takeKind nofun

theorem proceeds_takeKw {k : Keyword} :
    (takeKw k).Proceeds fails base c s fun b t =>
      t.left ≤ s.left ∧ (b = true → t.left < s.left) ∧ (b = false → t = s) :=
  proceeds_takeKind nofun

/-! ### Failure -/

theorem proceeds_failWith {e : Failure} (h : e.Within base) :
    (failWith e).Proceeds True base c s Q :=
  fun _ _ => ⟨trivial, h⟩

theorem proceeds_failAt {t : Token} {cause : Cause} :
    (failAt t cause).Proceeds True base c s Q :=
  fun _ _ => ⟨trivial, nofun⟩

theorem proceeds_failHere {cause : Cause} : (failHere cause).Proceeds True base c s Q :=
  proceeds_peek fun _ _ => proceeds_failAt

theorem proceeds_consumeKind {kind : TokenKind} (other : kind ≠ .eof) :
    (consumeKind kind).Proceeds True base c s fun _ t => t.left < s.left := by
  refine proceeds_peek fun t ahead => ?_
  split
  · refine proceeds_advance.mono fun _ u passed => ?_
    have := ahead (by grind [Token.isEof])
    omega
  · exact proceeds_failAt

theorem proceeds_consume {p : Punct} :
    (consume p).Proceeds True base c s fun _ t => t.left < s.left :=
  proceeds_consumeKind nofun

theorem proceeds_consumeKw {k : Keyword} :
    (consumeKw k).Proceeds True base c s fun _ t => t.left < s.left :=
  proceeds_consumeKind nofun

theorem proceeds_consumeAnyKw {ks : List Keyword} :
    (consumeAnyKw ks).Proceeds True base c s fun _ t => t.left < s.left := by
  refine proceeds_peek fun t ahead => ?_
  split
  · rename_i found
    obtain ⟨k, -, is⟩ := List.any_eq_true.mp found
    refine proceeds_advance.mono fun _ u passed => ?_
    have := ahead (by grind [Token.isKw, Token.isEof])
    omega
  · exact proceeds_failAt

/-- A failure is recovered from: nothing has been read. -/
theorem proceeds_attempt {p : Parser α} {Q : Except Failure α → Cursor → Prop}
    (h : p.Proceeds True base c s fun a => Q (.ok a))
    (failed : ∀ e, e.Within base → Q (.error e) s) :
    (attempt p).Proceeds fails base c s Q := by
  intro eof behind
  have here := h eof behind
  unfold attempt
  rcases done : p c s with ⟨rs, (e | _ | _) | ⟨a, t⟩⟩
  all_goals rw [done] at here
  · exact ⟨behind, failed e here.2⟩
  · exact here
  · exact here
  · exact here

theorem proceeds_speculate {p : Parser α} {Q : Option α → Cursor → Prop}
    (h : p.Proceeds True base c s fun a => Q (some a)) (failed : Q none s) :
    (speculate p).Proceeds fails base c s Q := by
  intro eof behind
  have here := h eof behind
  unfold speculate
  rcases done : p c s with ⟨rs, (e | _ | _) | ⟨a, t⟩⟩
  all_goals rw [done] at here
  · exact ⟨behind, failed⟩
  · exact here
  · exact here
  · exact here

/-- Nothing recovers from what is no failure, so that it shows in the end. -/
theorem not_recovered {p : Parser α} {reason : Stop} (fatal : ∀ e, reason ≠ .failure e)
    (stops : (p c s).result = .error reason) :
    (attempt p c s).result = .error reason ∧ (speculate p c s).result = .error reason := by
  unfold attempt speculate
  rcases done : p c s with ⟨rs, result⟩
  rw [done] at stops
  subst stops
  -- Only failures are matched by either of them.
  cases reason with
  | failure e => exact absurd rfl (fatal e)
  | endless => exact ⟨rfl, rfl⟩
  | outOfRange => exact ⟨rfl, rfl⟩

/-! ### Skipping -/

theorem proceeds_skip {pick : List Token → List Token} (front : ∀ ts, pick ts <+: ts) :
    (skip pick).Proceeds fails base c s fun ts t => ts = pick s.ahead ∧ t = s.drop ts.length := by
  intro eof behind
  have fits : (pick s.ahead).length ≤ s.left := s.left_eq ▸ (front s.ahead).length_le
  simp only [skip, fits, if_true]
  exact ⟨(List.drop_suffix _ _).trans behind, rfl, rfl⟩

theorem proceeds_skipTo {stops : List Punct} :
    (skipTo stops).Proceeds fails base c s fun _ t => t.left ≤ s.left := by
  refine (proceeds_skip (tokensUntil_front stops 0)).mono ?_
  rintro ts t ⟨-, rfl⟩
  exact Nat.sub_le _ _

theorem proceeds_skipWhole :
    skipWhole.Proceeds fails base c s fun ts t =>
      ts = declarationTokens 0 s.ahead ∧ t = s.drop ts.length :=
  proceeds_skip (declarationTokens_front 0)

/-- A group has at least one token. -/
theorem proceeds_skipGroup :
    skipGroup.Proceeds fails base c s fun _ t => t.left ≤ s.left - 1 := by
  refine (proceeds_skip (groupTokens_front 0)).bind ?_
  rintro ts t ⟨rfl, rfl⟩
  refine proceeds_pure ?_
  rw [Cursor.left_drop]
  rcases ahead : s.ahead with _ | ⟨x, xs⟩
  · have : s.left = 0 := by rw [s.left_eq, ahead, List.length_nil]
    omega
  · rw [groupTokens, List.length_cons]
    omega

theorem proceeds_skipAttributes :
    skipAttributes.Proceeds fails base c s fun _ t => t.left ≤ s.left :=
  fun _ behind => ⟨s.afterAttributes_suffix.trans behind, Cursor.left_le s.afterAttributes_suffix⟩

/-! ### Repetition -/

/-- A repetition comes to an end if each step that goes on reads a token. -/
theorem proceeds_loop {step : σ → Parser (σ × Bool)} (I R : σ → Cursor → Prop)
    (steps : ∀ a s, I a s → (step a).Proceeds fails base c s fun r t =>
      if r.2 then I r.1 t ∧ t.left < s.left else R r.1 t) {a : σ} (start : I a s) :
    (loop step a).Proceeds fails base c s R := by
  intro eof behind
  -- On the run itself, whose last case is the step that `steps` excludes: it goes on and reads nothing.
  fun_induction loop step a c s with
  | case1 a s rs reason done =>
    have here := steps a s start eof behind
    rw [done] at here
    exact here.error
  | case2 a s rs a' s' done =>
    have here := steps a s start eof behind
    rw [done] at here
    exact here
  | case3 a s rs a' s' done shorter ih =>
    have here := steps a s start eof behind
    rw [done] at here
    exact ih here.2.1 here.1
  | case4 a s rs a' s' done stuck =>
    have here := steps a s start eof behind
    rw [done] at here
    exact absurd here.2.2 stuck

theorem proceeds_collectFrom {step : σ → Parser (List α × σ × Bool)} (I : σ → Cursor → Prop)
    (R : Cursor → Prop)
    (steps : ∀ a s, I a s → (step a).Proceeds fails base c s fun r t =>
      if r.2.2 then I r.2.1 t ∧ t.left < s.left else R t) {a : σ} (start : I a s) :
    (collectFrom step a).Proceeds fails base c s fun _ t => R t := by
  intro eof behind
  fun_induction collectFrom step a c s with
  | case1 a s rs reason done =>
    have here := steps a s start eof behind
    rw [done] at here
    exact here.error
  | case2 a s rs xs a' s' done =>
    have here := steps a s start eof behind
    rw [done] at here
    exact here
  | case3 a s rs xs a' s' done shorter rs' ys s'' rest ih =>
    have here := steps a s start eof behind
    rw [done] at here
    have later := ih here.2.1 here.1
    rw [rest] at later
    exact later
  | case4 a s rs xs a' s' done shorter rs' reason rest ih =>
    have here := steps a s start eof behind
    rw [done] at here
    have later := ih here.2.1 here.1
    rw [rest] at later
    exact later.error
  | case5 a s rs xs a' s' done stuck =>
    have here := steps a s start eof behind
    rw [done] at here
    exact absurd here.2.2 stuck

theorem proceeds_collect {step : Parser (List α × Bool)} (I R : Cursor → Prop)
    (steps : ∀ s, I s → step.Proceeds fails base c s fun r t =>
      if r.2 then I t ∧ t.left < s.left else R t) (start : I s) :
    (collect step).Proceeds fails base c s fun _ t => R t := by
  refine proceeds_collectFrom (fun _ => I) R (fun _ s here => ?_) start
  exact (steps s here).bind fun r t done => proceeds_pure done

/-- If no step goes back, the repetition does not. -/
theorem proceeds_loop_of_leads {step : σ → Parser (σ × Bool)} {a : σ}
    (steps : ∀ a t, t.left ≤ s.left → (step a).Proceeds fails base c t fun r => t.Leads r.2) :
    (loop step a).Proceeds fails base c s fun _ t => t.left ≤ s.left := by
  refine proceeds_loop (fun _ t => t.left ≤ s.left) _ (fun a t le => ?_) (Nat.le_refl _)
  refine (steps a t le).mono fun r u moved => ?_
  split
  · exact ⟨Nat.le_trans moved.1 le, moved.2 ‹_›⟩
  · exact Nat.le_trans moved.1 le

theorem proceeds_collect_of_leads {step : Parser (List α × Bool)}
    (steps : ∀ t, t.left ≤ s.left → step.Proceeds fails base c t fun r => t.Leads r.2) :
    (collect step).Proceeds fails base c s fun _ t => t.left ≤ s.left := by
  refine proceeds_collect (·.left ≤ s.left) _ (fun t le => ?_) (Nat.le_refl _)
  refine (steps t le).mono fun r u moved => ?_
  split
  · exact ⟨Nat.le_trans moved.1 le, moved.2 ‹_›⟩
  · exact Nat.le_trans moved.1 le

/-- The elements of a list may have any number of tokens, since a comma is read between them. -/
theorem proceeds_commaSeparated {close : Punct} {element : Parser α}
    (elements : ∀ t, t.left ≤ s.left → element.Proceeds fails base c t fun _ u => u.left ≤ t.left) :
    (commaSeparated close element).Proceeds fails base c s fun _ t => t.left ≤ s.left := by
  refine proceeds_collect_of_leads fun t le => proceeds_atEndOr fun atEnd _ _ => ?_
  split
  · exact proceeds_pure (.stop (Nat.le_refl _))
  · refine (elements t le).bind fun a u moved => proceeds_take.bind fun more v passed => ?_
    exact proceeds_pure ⟨by omega, fun comma => Nat.lt_of_lt_of_le (passed.2.1 comma) moved⟩

end Parser

end HeaderDecl.Grammar
