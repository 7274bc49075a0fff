import HeaderDecl.Grammar.Unit
import Mathlib.Logic.Basic

/-!
What the parsers read, one rule for each way they are put together: from some tokens ahead a parser
gets to others with a value and reports nothing. The rules hold in both directions, so that they take
a run apart as well as put one together.
-/

namespace HeaderDecl.Grammar

/-! ### The end token -/

theorem splitEnd_append {ts : List Token} {eof : Token} (live : ∀ t ∈ ts, t.isEof = false)
    (ends : eof.isEof = true) : splitEnd (ts ++ [eof]) = (ts, eof) := by
  induction ts with
  | nil => simp [splitEnd, ends]
  | cons t ts ih =>
    have rest := ih fun t mem => live t (List.mem_cons_of_mem _ mem)
    obtain ⟨n, more, eq⟩ : ∃ n more, ts ++ [eof] = n :: more := by
      cases ts <;> exact ⟨_, _, rfl⟩
    rw [eq] at rest
    rw [List.cons_append, eq]
    simp [splitEnd, live t (by simp), rest]

/-- Where no end token stands, one is put. -/
theorem exists_splitEnd {ts : List Token} (live : ∀ t ∈ ts, t.isEof = false) :
    ∃ loc, splitEnd ts = (ts, .eofAt loc) := by
  induction ts with
  | nil => exact ⟨_, rfl⟩
  | cons t ts ih =>
    have here := live t List.mem_cons_self
    obtain ⟨loc, rest⟩ := ih fun x mem => live x (List.mem_cons_of_mem _ mem)
    cases ts with
    | nil => exact ⟨t.loc, by simp [splitEnd, here]⟩
    | cons x xs => exact ⟨loc, by simp [splitEnd, here, rest]⟩

namespace Parser

variable {α β σ : Type} {c : Context} {s t u : List Token}

/-- A parser that gets from the tokens `s` to the tokens `t` with a value, and reports nothing. -/
def Reads (p : Parser α) (c : Context) (s : List Token) (a : α) (t : List Token) : Prop :=
  p c (.ofTokens s) = ⟨[], .ok (a, .ofTokens t)⟩

theorem exists_ofTokens (s : Cursor) : ∃ ts, s = .ofTokens ts := ⟨s.ahead, Cursor.ext rfl⟩

theorem ahead_ofTokens : (Cursor.ofTokens s).ahead = s := rfl

theorem left_ofTokens : (Cursor.ofTokens s).left = s.length := rfl

theorem ofTokens_inj : Cursor.ofTokens s = .ofTokens t ↔ s = t :=
  ⟨fun h => congrArg Cursor.ahead h, fun h => congrArg Cursor.ofTokens h⟩

theorem drop_ofTokens (n : Nat) : (Cursor.ofTokens s).drop n = .ofTokens (s.drop n) := Cursor.ext rfl

theorem after_nil (o : Outcome α) : Outcome.after [] o = o := rfl

/-- The token that comes next, which may be the end token. -/
def next (c : Context) (s : List Token) : Token := s.head?.getD c.eof

@[simp]
theorem next_cons (x : Token) : next c (x :: s) = x := rfl

/-! ### Sequences -/

/-- A parser reads one thing only. -/
theorem Reads.unique {p : Parser α} {a b : α} (h : p.Reads c s a t) (h' : p.Reads c s b u) :
    a = b ∧ t = u := by
  have same := h.symm.trans h'
  simpa [ofTokens_inj] using same

theorem reads_of_eq {p : Parser α} {a b : α} (h : p c (.ofTokens s) = ⟨[], .ok (a, .ofTokens u)⟩) :
    p.Reads c s b t ↔ a = b ∧ u = t := by
  rw [Reads, h]
  simp [ofTokens_inj]

@[simp]
theorem reads_pure {a b : α} : (pure a : Parser α).Reads c s b t ↔ a = b ∧ s = t := reads_of_eq rfl

@[simp]
theorem reads_bind {p : Parser α} {f : α → Parser β} {b : β} :
    (p >>= f).Reads c s b u ↔ ∃ a t, p.Reads c s a t ∧ (f a).Reads c t b u := by
  have run : (p >>= f) c (.ofTokens s) = Parser.bind p f c (.ofTokens s) := rfl
  unfold Reads
  rw [run, Parser.bind]
  rcases p c (.ofTokens s) with ⟨rs, e | ⟨a, s'⟩⟩
  · simp
  · obtain ⟨mid, rfl⟩ := exists_ofTokens s'
    cases rs with
    | nil => simp [after_nil, ofTokens_inj, and_assoc]
    | cons r rs => simp [Outcome.after]

theorem reads_bind_of {p : Parser α} {f : α → Parser β} {a : α} {b : β} (run : p.Reads c s a t) :
    (p >>= f).Reads c s b u ↔ (f a).Reads c t b u := by
  rw [reads_bind]
  constructor
  · rintro ⟨_, _, run', rest⟩
    obtain ⟨rfl, rfl⟩ := run'.unique run
    exact rest
  · exact fun rest => ⟨a, t, run, rest⟩

@[simp]
theorem reads_map {p : Parser α} {f : α → β} {b : β} :
    (f <$> p).Reads c s b t ↔ ∃ a, p.Reads c s a t ∧ f a = b := by
  have run : f <$> p = p >>= fun a => pure (f a) := rfl
  rw [run]
  simp

@[simp]
theorem not_reads_failWith {e : Failure} {a : α} : ¬(failWith e : Parser α).Reads c s a t := by
  simp [Reads, failWith, stop]

@[simp]
theorem not_reads_failAt {x : Token} {cause : Cause} {a : α} :
    ¬(failAt x cause : Parser α).Reads c s a t := not_reads_failWith

/-! ### Tokens -/

@[simp]
theorem reads_nth {n : Nat} {x : Token} : (nth n).Reads c s x t ↔ s[n]?.getD c.eof = x ∧ s = t :=
  reads_of_eq rfl

@[simp]
theorem reads_peek {x : Token} : peek.Reads c s x t ↔ next c s = x ∧ s = t := by
  rw [peek, reads_nth, next, List.head?_eq_getElem?]

@[simp]
theorem reads_here {x : Cursor} : here.Reads c s x t ↔ .ofTokens s = x ∧ s = t := reads_of_eq rfl

@[simp]
theorem reads_advance {x : Token} : advance.Reads c s x t ↔ next c s = x ∧ s.drop 1 = t :=
  reads_of_eq (by rw [← drop_ofTokens]; rfl)

@[simp]
theorem reads_scope {x : List String} : scope.Reads c s x t ↔ c.scope = x ∧ s = t := reads_of_eq rfl

@[simp]
theorem not_reads_report {r : Report} {a : Unit} : ¬(report r).Reads c s a t := by
  simp [Reads, report]

@[simp]
theorem reads_reportAll {rs : List Report} {a : Unit} :
    (reportAll rs).Reads c s a t ↔ rs = [] ∧ s = t := by
  simp [Reads, reportAll, ofTokens_inj]

@[simp]
theorem reads_isNext {p : Punct} {b : Bool} :
    (isNext p).Reads c s b t ↔ (next c s).is p = b ∧ s = t := by
  simp [isNext, and_assoc, and_comm]

@[simp]
theorem reads_isNextKw {k : Keyword} {b : Bool} :
    (isNextKw k).Reads c s b t ↔ (next c s).isKw k = b ∧ s = t := by
  simp [isNextKw, and_assoc, and_comm]

@[simp]
theorem reads_takeKind {k : TokenKind} {b : Bool} :
    (takeKind k).Reads c s b t ↔
      ((next c s).kind == k) = b ∧ (if (next c s).kind == k then s.drop 1 else s) = t := by
  unfold takeKind
  by_cases h : (next c s).kind = k
  · simp [and_assoc, h]
  · simp [and_assoc, h, beq_false_of_ne h]

@[simp]
theorem reads_take {p : Punct} {b : Bool} :
    (take p).Reads c s b t ↔ (next c s).is p = b ∧ (if (next c s).is p then s.drop 1 else s) = t :=
  reads_takeKind

@[simp]
theorem reads_takeKw {k : Keyword} {b : Bool} :
    (takeKw k).Reads c s b t ↔
      (next c s).isKw k = b ∧ (if (next c s).isKw k then s.drop 1 else s) = t :=
  reads_takeKind

@[simp]
theorem reads_consumeKind {k : TokenKind} {x : Token} :
    (consumeKind k).Reads c s x t ↔ (next c s).kind = k ∧ next c s = x ∧ s.drop 1 = t := by
  unfold consumeKind
  by_cases h : (next c s).kind = k <;> simp [and_assoc, h]

@[simp]
theorem reads_consume {p : Punct} {x : Token} :
    (consume p).Reads c s x t ↔ (next c s).is p ∧ next c s = x ∧ s.drop 1 = t := by
  simp [consume, Token.is]

@[simp]
theorem reads_atEndOr {ps : List Punct} {b : Bool} :
    (atEndOr ps).Reads c s b t ↔ ((next c s).isEof || ps.any (next c s).is) = b ∧ s = t := by
  simp [atEndOr, and_assoc, and_comm]

@[simp]
theorem reads_skip {pick : List Token → List Token} {x : List Token} :
    (skip pick).Reads c s x t ↔
      (pick s).length ≤ s.length ∧ pick s = x ∧ s.drop (pick s).length = t := by
  by_cases h : (pick s).length ≤ s.length
  · simp [Reads, skip, ahead_ofTokens, left_ofTokens, drop_ofTokens, ofTokens_inj, h]
  · simp [Reads, skip, ahead_ofTokens, left_ofTokens, h]

theorem afterAttributes_ofTokens (h : attributeTokens s = []) :
    (Cursor.ofTokens s).afterAttributes = .ofTokens s := by
  rw [Cursor.afterAttributes]
  split
  · rfl
  · rename_i some_
    rw [show (Cursor.ofTokens s).ahead = s from rfl, h] at some_
    cases some_

theorem reads_skipAttributes_iff {a : Unit} :
    skipAttributes.Reads c s a t ↔ (Cursor.ofTokens s).afterAttributes.ahead = t := by
  obtain ⟨mid, behind⟩ := exists_ofTokens (Cursor.ofTokens s).afterAttributes
  rw [Reads, skipAttributes, behind]
  simp only [Outcome.mk.injEq, Except.ok.injEq, Prod.mk.injEq, true_and]
  exact ofTokens_inj

/-- Where no attribute begins, none is skipped. -/
theorem reads_skipAttributes (h : attributeTokens s = []) {a : Unit} :
    skipAttributes.Reads c s a t ↔ s = t := by
  rw [Reads, skipAttributes, afterAttributes_ofTokens h]
  simp [ofTokens_inj]

/-! ### Repetition -/

theorem reads_loop {step : σ → Parser (σ × Bool)} {a b : σ} :
    (loop step a).Reads c s b u ↔ ∃ a' more t, (step a).Reads c s (a', more) t ∧
      if more then t.length < s.length ∧ (loop step a').Reads c t b u else a' = b ∧ t = u := by
  unfold Reads
  rw [loop]
  rcases step a c (.ofTokens s) with ⟨rs, e | ⟨⟨a', more⟩, s'⟩⟩
  · simp
  · obtain ⟨mid, rfl⟩ := exists_ofTokens s'
    cases more with
    | false => simp [ofTokens_inj]
    | true =>
      by_cases h : mid.length < s.length
      · cases rs with
        | nil => simp [left_ofTokens, ofTokens_inj, after_nil, h, and_assoc]
        | cons r rs => simp [left_ofTokens, Outcome.after, h]
      · simp [left_ofTokens, ofTokens_inj, h]

theorem reads_loop_stop {step : σ → Parser (σ × Bool)} {a b : σ}
    (stops : (step a).Reads c s (b, false) t) : (loop step a).Reads c s b t :=
  reads_loop.2 ⟨b, false, t, stops, rfl, rfl⟩

theorem reads_loop_more {step : σ → Parser (σ × Bool)} {a b : σ} (a' : σ) (t : List Token)
    (goes : (step a).Reads c s (a', true) t) (shorter : t.length < s.length)
    (rest : (loop step a').Reads c t b u) : (loop step a).Reads c s b u :=
  reads_loop.2 ⟨a', true, t, goes, shorter, rest⟩

theorem reads_loop_step {step : σ → Parser (σ × Bool)} {a b : σ} (a' : σ) (t : List Token)
    (goes : (step a).Reads c s (a', true) t) (shorter : t.length < s.length) :
    (loop step a).Reads c s b u ↔ (loop step a').Reads c t b u := by
  refine ⟨fun h => ?_, reads_loop_more a' t goes shorter⟩
  obtain ⟨_, _, _, first, rest⟩ := reads_loop.1 h
  obtain ⟨⟨⟩, rfl⟩ := first.unique goes
  exact rest.2

theorem reads_collectFrom {step : σ → Parser (List α × σ × Bool)} {a : σ} {xs : List α} :
    (collectFrom step a).Reads c s xs u ↔ ∃ ys a' more t, (step a).Reads c s (ys, a', more) t ∧
      if more then
        t.length < s.length ∧ ∃ zs, (collectFrom step a').Reads c t zs u ∧ ys ++ zs = xs
      else ys = xs ∧ t = u := by
  unfold Reads
  rw [collectFrom]
  rcases step a c (.ofTokens s) with ⟨rs, e | ⟨⟨ys, a', more⟩, s'⟩⟩
  · simp
  · obtain ⟨mid, rfl⟩ := exists_ofTokens s'
    cases more with
    | false => simp [ofTokens_inj, and_assoc]
    | true =>
      by_cases h : mid.length < s.length
      · rcases tail : collectFrom step a' c (.ofTokens mid) with ⟨rs', e | ⟨zs, s''⟩⟩
        · simp [left_ofTokens, ofTokens_inj, h, tail, and_assoc]
        · obtain ⟨last, rfl⟩ := exists_ofTokens s''
          simp only [left_ofTokens, h, tail, if_true, Outcome.mk.injEq, Except.ok.injEq,
            Prod.mk.injEq, ofTokens_inj, List.append_eq_nil_iff]
          constructor
          · rintro ⟨⟨rfl, rfl⟩, rfl, rfl⟩
            exact ⟨ys, a', true, mid, by simp, by simp [h, tail]⟩
          · rintro ⟨_, _, _, _, ⟨rfl, ⟨rfl, rfl, rfl⟩, rfl⟩, run⟩
            have found : ∃ ws, (zs = ws ∧ rs' = [] ∧ last = u) ∧ ys ++ ws = xs := by
              simpa [h, tail, ofTokens_inj, and_left_comm] using run
            obtain ⟨_, ⟨rfl, rfl, rfl⟩, rfl⟩ := found
            exact ⟨⟨rfl, rfl⟩, rfl, rfl⟩
      · simp [left_ofTokens, ofTokens_inj, h, and_assoc]

theorem reads_collect {step : Parser (List α × Bool)} {xs : List α} :
    (collect step).Reads c s xs u ↔ ∃ ys more t, step.Reads c s (ys, more) t ∧
      if more then t.length < s.length ∧ ∃ zs, (collect step).Reads c t zs u ∧ ys ++ zs = xs
      else ys = xs ∧ t = u := by
  unfold collect
  rw [reads_collectFrom]
  have one (p : Unit → Prop) : (∃ a, p a) ↔ p () := ⟨fun ⟨(), h⟩ => h, fun h => ⟨(), h⟩⟩
  simp [one]

theorem reads_collect_stop {step : Parser (List α × Bool)} {xs : List α}
    (stops : step.Reads c s (xs, false) t) : (collect step).Reads c s xs t :=
  reads_collect.2 ⟨xs, false, t, stops, rfl, rfl⟩

theorem reads_collect_more {step : Parser (List α × Bool)} {xs : List α} (ys : List α)
    (t : List Token) (goes : step.Reads c s (ys, true) t) (shorter : t.length < s.length)
    (rest : (collect step).Reads c t xs u) : (collect step).Reads c s (ys ++ xs) u :=
  reads_collect.2 ⟨ys, true, t, goes, shorter, xs, rest, rfl⟩

/-! ### Recovery -/

theorem reads_attempt {p : Parser α} {r : Except Failure α} :
    (attempt p).Reads c s r t ↔ (∃ a, p.Reads c s a t ∧ r = .ok a) ∨
      ∃ e, p c (.ofTokens s) = ⟨[], .error (.failure e)⟩ ∧ r = .error e ∧ s = t := by
  unfold Reads attempt
  rcases p c (.ofTokens s) with ⟨rs, reason | ⟨a, s'⟩⟩
  · cases reason <;> cases r <;> simp [ofTokens_inj, and_assoc, eq_comm]
  · obtain ⟨mid, rfl⟩ := exists_ofTokens s'
    cases r <;> simp [ofTokens_inj, and_assoc, and_comm, eq_comm]

/-- Recovery never goes unreported. -/
theorem not_reads_recover {start : Cursor} {e : Failure} {a : Unit} :
    ¬(recover start e).Reads c s a t := by
  unfold recover
  split
  · simp only [reads_bind]
    rintro ⟨alone, mid, -, run⟩
    split at run <;> simp at run
  · simp

/-- A declaration that is read without a report has not failed. -/
theorem reads_recovering {p : Parser Declared} {d : Declared} :
    (recovering p).Reads c s d t ↔ p.Reads c s d t ∧ d.failure = none := by
  simp only [recovering, reads_bind, reads_here]
  constructor
  · rintro ⟨_, _, ⟨rfl, rfl⟩, r, mid, tried, run⟩
    rcases reads_attempt.1 tried with ⟨e, read, rfl⟩ | ⟨e, -, rfl, rfl⟩
    · cases failure : e.failure with
      | none =>
        have done : e = d ∧ mid = t := by simpa [failure] using run
        obtain ⟨rfl, rfl⟩ := done
        exact ⟨read, failure⟩
      | some f => simp [failure, not_reads_recover] at run
    · simp [not_reads_recover] at run
  · rintro ⟨read, ok⟩
    exact ⟨_, s, ⟨rfl, rfl⟩, .ok d, t, reads_attempt.2 (.inl ⟨d, read, rfl⟩), by simp [ok]⟩

end Parser

end HeaderDecl.Grammar
