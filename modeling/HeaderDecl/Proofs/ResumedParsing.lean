import HeaderDecl.Proofs.TotalParsing

/-!
A unit is read item by item. Wherever an item begins, what follows is read as if the unit began there,
whether the items before it were read or skipped.
-/

namespace HeaderDecl.Grammar

open HeaderDecl.Grammar.Parser

/-- A unit that begins at `start` is read up to a place outside of any item. The items and reports are
those that were found so far. -/
inductive ReadUpTo (c : Context) (start : Cursor) : Cursor → List Item → List Report → Prop where
  | start : ReadUpTo c start start [] []
  | semicolon {s : Cursor} {items : List Item} {reports : List Report} {t : Token}
      (before : ReadUpTo c start s items reports) (first : s.ahead.head? = some t)
      (alone : t.is .semicolon = true) : ReadUpTo c start (s.drop 1) items reports
  /-- An item, which is skipped and reported if it cannot be read. -/
  | item {s s' : Cursor} {items : List Item} {reports : List Report} {t : Token} {d : Declared}
      {rs : List Report} (before : ReadUpTo c start s items reports)
      (first : s.ahead.head? = some t) (begins : t.is .semicolon = false)
      (live : t.isEof = false) (read : recovering topItem c s = ⟨rs, .ok (d, s')⟩) :
      ReadUpTo c start s' (items ++ d.items) (reports ++ rs)

section Steps

variable {c : Context} {s s' u : Cursor} {t : Token}

theorem run_bind {α β : Type} {p : Parser α} {f : α → Parser β} {a : α} {rs : List Report}
    (first : p c s = ⟨rs, .ok (a, s')⟩) : (p >>= f) c s = Outcome.after rs (f a c s') := by
  show Parser.bind p f c s = _
  rw [Parser.bind, first]

theorem run_peek (first : s.ahead.head? = some t) : peek c s = ⟨[], .ok (t, s)⟩ := by
  unfold peek nth
  rw [← List.head?_eq_getElem?, first]
  rfl

theorem run_atEndOr (ps : List Punct) (first : s.ahead.head? = some t) :
    atEndOr ps c s = ⟨[], .ok (t.isEof || ps.any t.is, s)⟩ := by
  unfold atEndOr
  rw [run_bind (run_peek first)]
  rfl

theorem run_take (p : Punct) (first : s.ahead.head? = some t) :
    take p c s = ⟨[], .ok (t.is p, if t.is p then s.drop 1 else s)⟩ := by
  unfold take takeKind
  rw [run_bind (run_peek first)]
  show Outcome.after [] ((if t.is p then _ else _ : Parser Bool) c s) = _
  cases t.is p with
  | true => rfl
  | false => rfl

/-- A repetition that goes on goes on as if it began there. -/
theorem collect_more {α : Type} {step : Parser (List α × Bool)} {xs ys : List α}
    {rs rs' : List Report} (first : step c s = ⟨rs, .ok ((xs, true), s')⟩)
    (shorter : s'.left < s.left) (rest : collect step c s' = ⟨rs', .ok (ys, u)⟩) :
    collect step c s = ⟨rs ++ rs', .ok (xs ++ ys, u)⟩ := by
  unfold collect at rest ⊢
  rw [collectFrom, run_bind first]
  show (if s'.left < s.left then _ else _ : Outcome (List α)) = _
  rw [if_pos shorter, rest]
  show (⟨rs ++ [] ++ rs', _⟩ : Outcome (List α)) = _
  rw [List.append_nil]

theorem left_pos (first : s.ahead.head? = some t) : 0 < s.left := by
  rw [s.left_eq]
  exact List.length_pos_of_mem (List.mem_of_mem_head? first)

theorem topItems_semicolon (first : s.ahead.head? = some t) (alone : t.is .semicolon = true)
    {reports : List Report} {items : List Item}
    (rest : topItems c (s.drop 1) = ⟨reports, .ok (items, u)⟩) :
    topItems c s = ⟨reports, .ok (items, u)⟩ := by
  have some_ := left_pos first
  have shorter : (s.drop 1).left < s.left := by
    rw [Cursor.left_drop]
    omega
  have live : t.isEof = false := isEof_of_is alone
  show topItems c s = ⟨[] ++ reports, .ok ([] ++ items, u)⟩
  refine collect_more ?_ shorter rest
  rw [run_bind (run_atEndOr _ first)]
  simp only [live, List.any_nil, Bool.or_self, Bool.false_eq_true, if_false]
  rw [run_bind (run_take _ first), alone]
  rfl

theorem topItems_item (eof : c.eof.isEof = true) (first : s.ahead.head? = some t)
    (begins : t.is .semicolon = false) (live : t.isEof = false) {d : Declared}
    {rs reports : List Report} {items : List Item}
    (read : recovering topItem c s = ⟨rs, .ok (d, s')⟩)
    (rest : topItems c s' = ⟨reports, .ok (items, u)⟩) :
    topItems c s = ⟨rs ++ reports, .ok (d.items ++ items, u)⟩ := by
  have ends : (recovering topItem).Proceeds False s c s fun _ t => t.left < s.left :=
    proceeds_recovering (left_pos first) proceeds_topItem
  have shorter := ends eof (List.suffix_refl s.ahead)
  rw [read] at shorter
  refine collect_more ?_ shorter.2 rest
  rw [run_bind (run_atEndOr _ first)]
  simp only [live, List.any_nil, Bool.or_self, Bool.false_eq_true, if_false]
  rw [run_bind (run_take _ first), begins]
  simp only [Bool.false_eq_true, if_false]
  rw [run_bind read]
  exact congrArg (Outcome.mk · _) (List.append_nil rs)

/-- What follows a place outside of any item is read as if the unit began there. -/
theorem topItems_of_readUpTo (eof : c.eof.isEof = true) {start : Cursor} {items : List Item}
    {reports : List Report} (before : ReadUpTo c start s items reports) {rs : List Report}
    {xs : List Item} (rest : topItems c s = ⟨rs, .ok (xs, u)⟩) :
    topItems c start = ⟨reports ++ rs, .ok (items ++ xs, u)⟩ := by
  -- From the last item that was read back to the first one.
  induction before generalizing rs xs with
  | start => exact rest
  | semicolon _ first alone ih => exact ih (topItems_semicolon first alone rest)
  | item _ first begins live read ih =>
    rw [List.append_assoc, List.append_assoc]
    exact ih (topItems_item eof first begins live read rest)

/-- An item is read or skipped wherever one begins. -/
theorem exists_recovering_topItem (eof : c.eof.isEof = true) (first : s.ahead.head? = some t) :
    ∃ rs d s', recovering topItem c s = ⟨rs, .ok (d, s')⟩ ∧ s'.ahead <:+ s.ahead ∧
      s'.left < s.left := by
  have each : (recovering topItem).Proceeds False s c s fun _ t => t.left < s.left :=
    proceeds_recovering (left_pos first) proceeds_topItem
  have ends := each eof (List.suffix_refl s.ahead)
  rcases done : recovering topItem c s with ⟨rs, (e | _ | _) | ⟨d, s'⟩⟩
  all_goals rw [done] at ends
  · exact ends.1.elim
  · exact ends.elim
  · exact ends.elim
  · exact ⟨rs, d, s', rfl, ends⟩

/-- A unit is read up to its end. -/
theorem exists_readUpTo_end (eof : c.eof.isEof = true) {start : Cursor}
    (live : ∀ t ∈ start.ahead, t.isEof = false) {items : List Item} {reports : List Report}
    (before : ReadUpTo c start s items reports) (behind : s.ahead <:+ start.ahead) :
    ∃ items reports, ReadUpTo c start (.ofTokens []) items reports := by
  -- An item has at least one token, so that fewer are left behind it.
  induction left : s.left using Nat.strongRecOn generalizing s items reports with
  | _ n ih =>
    subst left
    rcases first : s.ahead.head? with _ | t
    · have none : s = .ofTokens [] := Cursor.ext (List.head?_eq_none_iff.mp first)
      exact ⟨items, reports, none ▸ before⟩
    · cases alone : t.is .semicolon with
      | true =>
        have some_ := left_pos first
        have shorter : (s.drop 1).left < s.left := by
          rw [Cursor.left_drop]
          omega
        exact ih _ shorter (before.semicolon first alone)
          ((List.drop_suffix 1 s.ahead).trans behind) rfl
      | false =>
        obtain ⟨rs, d, s', read, behind', shorter⟩ := exists_recovering_topItem eof first
        have inside : t ∈ start.ahead := behind.subset (List.mem_of_mem_head? first)
        exact ih _ shorter (before.item first alone (live t inside) read)
          (behind'.trans behind) rfl

end Steps

end HeaderDecl.Grammar

namespace HeaderDecl

open HeaderDecl.Grammar HeaderDecl.Grammar.Parser

theorem parseUnit_of_topItems {ts : List Token} {eof : Token} (live : ∀ t ∈ ts, t.isEof = false)
    (ends : eof.isEof = true) {reports : List Report} {items : List Item} {u : Cursor}
    (run : topItems { eof } (.ofTokens ts) = ⟨reports, .ok (items, u)⟩) :
    parseUnit (ts ++ [eof]) = (items, reports) := by
  unfold parseUnit
  rw [splitEnd_append live ends]
  dsimp only
  rw [run]

/-- A bracket that closes nothing before a declaration. -/
def strayBracket : List Token :=
  [.synthetic (.punct .rparen) ")", .synthetic (.kw .int) "int", .synthetic .identifier "x",
    .synthetic (.punct .semicolon) ";"]

end HeaderDecl
