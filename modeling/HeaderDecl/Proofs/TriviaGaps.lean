import HeaderDecl.Token.Lexer
import Mathlib.Data.List.TakeWhile
import Mathlib.Data.String.Basic

/-!
What stands between tokens: complete pieces of trivia. A NUL character ends a text, so none stands in
a gap, nor in a token before the last one.
-/

namespace HeaderDecl

/-- The character that ends a text. -/
def nul : Char := '\x00'

/-! ### Pieces of trivia -/

/-- A complete piece of trivia, in front of some text. A line comment goes up to the end of its line,
and a block comment up to the first closer. -/
inductive Trivia.Piece : List Char → List Char → Prop
  | blank {c : Char} {after : List Char} (blank : Text.isBlank c = true) : Piece [c] after
  | splice {lineBreak after : List Char}
    (breaks : lineBreak ∈ [['\n'], ['\r'], ['\r', '\n']]) : Piece ('\\' :: lineBreak) after
  | lineComment {body after : List Char} (inLine : ∀ c ∈ body, c ≠ '\n' ∧ c ≠ nul)
    (ends : ∀ c ∈ after.head?, c = '\n' ∨ c = nul) : Piece ('/' :: '/' :: body) after
  | blockComment {body after : List Char} (closedOnce : ¬['*', '/'] <:+: body ++ ['*'])
    (noNul : nul ∉ body) : Piece ('/' :: '*' :: body ++ ['*', '/']) after

/-- Complete pieces of trivia in a row, in front of some text. -/
inductive Gap : List Char → List Char → Prop
  | nil {after : List Char} : Gap [] after
  | cons {piece gap after : List Char} (first : Trivia.Piece piece (gap ++ after))
    (rest : Gap gap after) : Gap (piece ++ gap) after

/-- A text as the characters taken from its front and the others. -/
theorem exists_takeWhile (p : Char → Bool) (cs : List Char) :
    ∃ front back, cs = front ++ back ∧ cs.takeWhile p = front ∧ cs.dropWhile p = back ∧
      (∀ c ∈ front, p c = true) ∧ ∀ c ∈ back.head?, p c = false := by
  refine ⟨cs.takeWhile p, cs.dropWhile p, List.takeWhile_append_dropWhile.symm, rfl, rfl, ?_, ?_⟩
  · exact fun c => List.mem_takeWhile_imp
  · intro c first
    have := List.head?_dropWhile_not p cs
    simp_all

theorem commentLength_eq_some {cs : List Char} {n : Nat} (h : commentLength cs = some n) :
    ∃ body, cs = body ++ '*' :: '/' :: cs.drop n ∧ n = body.length + 2 ∧
      ¬['*', '/'] <:+: body ++ ['*'] ∧ nul ∉ body := by
  induction cs generalizing n with
  | nil => cases h
  | cons c cs ih =>
    rw [commentLength] at h
    split at h
    · rename_i closes
      simp only [Bool.and_eq_true, decide_eq_true_eq] at closes
      obtain ⟨rfl, second⟩ := closes
      cases h
      cases cs with
      | nil => cases second
      | cons d cs =>
        cases second
        exact ⟨[], rfl, rfl, by decide, by simp⟩
    · rename_i goes
      split at h
      · cases h
      · rename_i notNul
        obtain ⟨m, found, rfl⟩ := Option.map_eq_some_iff.1 h
        obtain ⟨body, split_, rfl, once, noNul⟩ := ih found
        refine ⟨c :: body, congrArg (c :: ·) split_, rfl, ?_, ?_⟩
        · intro early
          rw [List.cons_append] at early
          rcases List.infix_cons_iff.1 early with first | later
          · obtain ⟨rfl, second⟩ := List.cons_prefix_cons.1 first
            -- The character after this star is the one that was asked for.
            have same : cs.head? = (body ++ ['*']).head? := by
              rw [split_]
              cases body <;> rfl
            obtain ⟨more, eq⟩ := second
            rw [← eq] at same
            simp [same] at goes
          · exact once later
        · simp only [List.mem_cons, not_or]
          exact ⟨fun eq => notNul eq.symm, noNul⟩

theorem commentLength_closed {body : List Char} (after : List Char)
    (closedOnce : ¬['*', '/'] <:+: body ++ ['*']) (noNul : nul ∉ body) :
    commentLength (body ++ '*' :: '/' :: after) = some (body.length + 2) := by
  induction body with
  | nil => simp [commentLength]
  | cons c body ih =>
    rw [List.cons_append, List.infix_cons_iff, not_or] at closedOnce
    rw [List.mem_cons, not_or] at noNul
    have open_ : ¬(c = '*' ∧ (body ++ '*' :: '/' :: after).head? = some '/') := by
      rintro ⟨rfl, closes⟩
      -- What follows the star begins like the rest of the body and the star that closes it.
      have same : (body ++ ['*']).head? = some '/' := by
        rw [← closes]
        cases body <;> rfl
      obtain ⟨more, eq⟩ := List.head?_eq_some_iff.1 same
      exact closedOnce.1 ⟨more, by rw [eq]; rfl⟩
    have notNul : c ≠ '\x00' := Ne.symm noNul.1
    rw [List.cons_append, commentLength, if_neg (by simpa using open_), if_neg notNul,
      ih closedOnce.2 noNul.2]
    rfl

/-- A complete piece of trivia of some kind, in front of some text. Here a carriage return is a line
break of its own only where no line feed follows it. -/
inductive Trivia.Stands : Trivia → List Char → List Char → Prop
  | newline {after : List Char} : Stands .newline ['\n'] after
  | blank {c : Char} {after : List Char} (blank : Text.isBlank c = true) (sameLine : c ≠ '\n') :
    Stands .blank [c] after
  | splice {lineBreak after : List Char} (breaks : lineBreak ∈ [['\n'], ['\r'], ['\r', '\n']])
    (whole : lineBreak = ['\r'] → after.head? ≠ some '\n') : Stands .splice ('\\' :: lineBreak) after
  | lineComment {body after : List Char} (inLine : ∀ c ∈ body, c ≠ '\n' ∧ c ≠ nul)
    (ends : ∀ c ∈ after.head?, c = '\n' ∨ c = nul) :
    Stands .lineComment ('/' :: '/' :: body) after
  | blockComment {body after : List Char} (closedOnce : ¬['*', '/'] <:+: body ++ ['*'])
    (noNul : nul ∉ body) : Stands .blockComment ('/' :: '*' :: body ++ ['*', '/']) after

theorem Trivia.Stands.piece {t : Trivia} {piece after : List Char} (h : Stands t piece after) :
    Piece piece after := by
  cases h with
  | newline => exact .blank (by decide)
  | blank blank => exact .blank blank
  | splice breaks => exact .splice breaks
  | lineComment inLine ends => exact .lineComment inLine ends
  | blockComment closedOnce noNul => exact .blockComment closedOnce noNul

theorem Trivia.stands_of_scan {cs : List Char} {t : Trivia} {n : Nat}
    (h : Trivia.scan cs = some (t, n)) : Stands t (cs.take n) (cs.drop n) := by
  unfold Trivia.scan at h
  split at h
  · cases h
    exact .newline
  · cases h
    exact .splice (by simp) (by simp)
  · rename_i cs
    simp only [Option.some.injEq, Prod.mk.injEq] at h
    obtain ⟨rfl, rfl⟩ := h
    split
    · rename_i feed
      cases cs with
      | nil => cases feed
      | cons c cs =>
        cases feed
        exact .splice (by simp) (by simp)
    · rename_i alone
      exact .splice (by simp) fun _ => alone
  · rename_i cs
    simp only [Option.some.injEq, Prod.mk.injEq] at h
    obtain ⟨rfl, rfl⟩ := h
    obtain ⟨body, after, rfl, taken, -, inLine, ends⟩ :=
      exists_takeWhile (fun c => c ≠ '\n' && c ≠ '\x00') cs
    rw [taken, Nat.add_comm, List.take_succ_cons, List.take_succ_cons, List.take_left,
      List.drop_succ_cons, List.drop_succ_cons, List.drop_left]
    refine .lineComment (fun c mem => ?_) (fun c first => ?_)
    · simpa [nul] using inLine c mem
    · simpa [nul, or_iff_not_imp_left] using ends c first
  · rename_i cs
    simp only [Option.map_eq_some_iff, Prod.mk.injEq] at h
    obtain ⟨m, found, rfl, rfl⟩ := h
    obtain ⟨body, split_, rfl, once, noNul⟩ := commentLength_eq_some found
    have whole : '/' :: '*' :: cs = ('/' :: '*' :: body ++ ['*', '/']) ++ cs.drop (body.length + 2) := by
      conv_lhs => rw [split_]
      simp
    have len : 2 + (body.length + 2) = ('/' :: '*' :: body ++ ['*', '/']).length := by
      simp only [List.length_append, List.length_cons, List.length_nil]
      omega
    rw [whole, len, List.take_left, List.drop_left]
    exact .blockComment once noNul
  · rename_i c _ notNewline _ _ _ _
    simp only [Option.ite_none_right_eq_some, Option.some.injEq, Prod.mk.injEq] at h
    obtain ⟨blank, rfl, rfl⟩ := h
    refine .blank blank ?_
    rintro rfl
    exact notNewline rfl
  · cases h

theorem Trivia.piece_of_scan {cs : List Char} {t : Trivia} {n : Nat}
    (h : Trivia.scan cs = some (t, n)) : Piece (cs.take n) (cs.drop n) :=
  (stands_of_scan h).piece

/-- A piece is what the scan of the text from its beginning on finds. -/
theorem Trivia.Stands.scan {t : Trivia} {piece after : List Char} (h : Stands t piece after) :
    Trivia.scan (piece ++ after) = some (t, piece.length) := by
  cases h with
  | newline => rfl
  | @blank c after blank sameLine =>
    have noBackslash : c ≠ '\\' := by
      rintro rfl
      exact absurd blank (by decide)
    have noSlash : c ≠ '/' := by
      rintro rfl
      exact absurd blank (by decide)
    rw [List.singleton_append]
    unfold Trivia.scan
    split <;> simp_all
  | splice breaks whole =>
    simp only [List.mem_cons, List.not_mem_nil, or_false] at breaks
    rcases breaks with rfl | rfl | rfl
    · rfl
    · exact congrArg (fun n => some (Trivia.splice, n)) (if_neg (whole rfl))
    · rfl
  | @lineComment body after inLine ends =>
    have taken : (body ++ after).takeWhile (fun c => c ≠ '\n' && c ≠ '\x00') = body := by
      rw [List.takeWhile_append_of_pos (by simpa [nul] using inLine)]
      cases after with
      | nil => simp
      | cons c after =>
        have stops := ends c rfl
        rw [List.takeWhile_cons_of_neg (by simpa [nul, or_iff_not_imp_left] using stops),
          List.append_nil]
    simp only [List.cons_append, Trivia.scan, taken, List.length_cons]
    rw [Nat.add_comm]
  | @blockComment body after closedOnce noNul =>
    have closed := commentLength_closed after closedOnce noNul
    simp only [List.cons_append, List.append_assoc, List.nil_append, Trivia.scan, closed,
      Option.map_some, List.length_cons, List.length_append, List.length_nil]
    rw [Nat.add_comm]

/-! ### Gaps -/

theorem Trivia.Piece.nul_notMem {piece after : List Char} (h : Piece piece after) : nul ∉ piece := by
  cases h with
  | @blank c after blank =>
    rw [List.mem_singleton]
    rintro rfl
    exact absurd blank (by decide)
  | splice breaks =>
    simp only [List.mem_cons, List.not_mem_nil, or_false] at breaks
    rcases breaks with rfl | rfl | rfl <;> decide
  | lineComment inLine =>
    intro mem
    simp only [List.mem_cons] at mem
    rcases mem with eq | eq | mem
    · exact absurd eq (by decide)
    · exact absurd eq (by decide)
    · exact (inLine _ mem).2 rfl
  | blockComment _ noNul => simpa [nul] using noNul

theorem Gap.nul_notMem {gap after : List Char} (h : Gap gap after) : nul ∉ gap := by
  induction h with
  | nil => exact List.not_mem_nil
  | cons first _ ih =>
    rw [List.mem_append, not_or]
    exact ⟨first.nul_notMem, ih⟩

end HeaderDecl
