import HeaderDecl.Proofs.RecordedConstants
import HeaderDecl.Proofs.VisitedTokens

/-!
Malformed tokens in live text. One that expansion comes to ends the work on the file. The others stand
between the parentheses of an invocation: behind a stripped name, or in an argument that the body of the
macro does not ask to have expanded.
-/

namespace HeaderDecl

namespace Macro

variable {s : Scope} {active : List String} {t u : Token} {ts : List Token}

/-! ### What invocations consume -/

theorem mem_collectArgs {depth : Nat} {arg rest : List Token} {args : List (List Token)}
    (collected : collectArgs depth ts = some (arg, args, rest)) (there : u ∈ ts)
    (noParen : u.is .rparen = false) (noComma : u.is .comma = false) :
    u ∈ rest ∨ ∃ a ∈ arg :: args, u ∈ a := by
  induction ts generalizing depth arg args rest with
  | nil => cases there
  | cons t ts ih =>
    rw [collectArgs] at collected
    split at collected
    · cases collected
      rename_i closes
      rcases List.mem_cons.mp there with rfl | later
      · simp [noParen] at closes
      · exact .inl later
    split at collected
    · rename_i separates
      obtain ⟨⟨arg', args', rest'⟩, more, eq⟩ := Option.map_eq_some_iff.mp collected
      cases eq
      rcases List.mem_cons.mp there with rfl | later
      · simp [noComma] at separates
      · rcases ih more later with left | ⟨a, mem, inside⟩
        · exact .inl left
        · exact .inr ⟨a, List.mem_cons_of_mem _ mem, inside⟩
    · obtain ⟨⟨arg', args', rest'⟩, more, eq⟩ := Option.map_eq_some_iff.mp collected
      cases eq
      rcases List.mem_cons.mp there with rfl | later
      · exact .inr ⟨_, List.mem_cons_self, List.mem_cons_self⟩
      · rcases ih more later with left | ⟨a, mem, inside⟩
        · exact .inl left
        rcases List.mem_cons.mp mem with rfl | other
        · exact .inr ⟨_, List.mem_cons_self, List.mem_cons_of_mem _ inside⟩
        · exact .inr ⟨a, List.mem_cons_of_mem _ other, inside⟩

/-- An invocation consumes its parentheses, its commas and its arguments. -/
theorem mem_invocation {e : LexError} {rest : List Token} {args : List (List Token)}
    (invoked : invocation ts = some (args, rest)) (there : u ∈ ts) (malformed : u.kind = .error e) :
    u ∈ rest ∨ ∃ a ∈ args, u ∈ a := by
  have noPunct (p : Punct) : u.is p = false := by
    rw [Token.is, malformed]
    rfl
  cases ts with
  | nil => cases invoked
  | cons t ts =>
    obtain ⟨opens, found⟩ := Option.ite_none_right_eq_some.mp invoked
    obtain ⟨⟨arg, args', rest'⟩, collected, eq⟩ := Option.map_eq_some_iff.mp found
    cases eq
    rcases List.mem_cons.mp there with rfl | later
    · rw [noPunct] at opens
      cases opens
    · exact mem_collectArgs collected later (noPunct _) (noPunct _)

/-- Expansion goes on with a malformed token behind another one, unless it is in an argument that goes
with the other one. -/
theorem mem_behind (s : Scope) (active : List String) (t : Token) {e : LexError} (there : u ∈ ts)
    (malformed : u.kind = .error e) :
    u ∈ s.behind active t ts ∨ t.isWord = true ∧
      ∃ args after, invocation ts = some (args, after) ∧ (∃ a ∈ args, u ∈ a) ∧
        (s.fate active t.text = .stripped true ∨
          ∃ m params, s.fate active t.text = .replaced m ∧ m.params = some params) := by
  have behindInvocation : u ∈ behindInvocation ts ∨
      ∃ args after, invocation ts = some (args, after) ∧ ∃ a ∈ args, u ∈ a := by
    unfold behindInvocation
    cases invoked : invocation ts with
    | none => exact .inl there
    | some found =>
      exact (mem_invocation invoked there malformed).imp_right fun inside => ⟨_, _, rfl, inside⟩
  unfold Scope.behind
  split
  · rename_i word
    split
    · exact .inl there
    · rename_i arguments fate
      cases arguments with
      | false => exact .inl there
      | true =>
        exact behindInvocation.imp_right fun ⟨args, after, invoked, inside⟩ =>
          ⟨word, args, after, invoked, inside, .inl fate⟩
    · rename_i m fate
      split
      · rename_i function
        obtain ⟨params, function⟩ := Option.isSome_iff_exists.mp function
        exact behindInvocation.imp_right fun ⟨args, after, invoked, inside⟩ =>
          ⟨word, args, after, invoked, inside, .inr ⟨m, params, fate, function⟩⟩
      · exact .inl there
  · exact .inl there

/-- A token that expansion does not come to, because an invocation goes with it: it is in the
parentheses behind a stripped name, or in an argument that the body of the macro does not ask for. -/
inductive Swallowed (s : Scope) (active : List String) : List Token → Token → Prop
  | stripped {t u : Token} {ts after a : List Token} {args : List (List Token)} (word : t.isWord = true)
      (fate : s.fate active t.text = .stripped true) (invoked : invocation ts = some (args, after))
      (mem : a ∈ args) (inside : u ∈ a) : Swallowed s active (t :: ts) u
  | unasked {t u : Token} {ts after a : List Token} {m : MacroDef} {params : List String}
      {args : List (List Token)} (word : t.isWord = true) (fate : s.fate active t.text = .replaced m)
      (function : m.params = some params) (invoked : invocation ts = some (args, after))
      (mem : a ∈ args) (inside : u ∈ a)
      (unasked : ∀ b ∈ askedFor (s.boundArgs active m params args) m.body, u ∉ b.raw) :
      Swallowed s active (t :: ts) u
  | argument {t u : Token} {ts after : List Token} {m : MacroDef} {params : List String}
      {args : List (List Token)} {a : Arg} (word : t.isWord = true)
      (fate : s.fate active t.text = .replaced m) (function : m.params = some params)
      (invoked : invocation ts = some (args, after))
      (asked : a ∈ askedFor (s.boundArgs active m params args) m.body)
      (h : Swallowed s active a.raw u) : Swallowed s active (t :: ts) u
  | behind {t u : Token} {ts : List Token} (h : Swallowed s active (s.behind active t ts) u) :
      Swallowed s active (t :: ts) u

/-- Expansion comes to a malformed token of the text, or an invocation goes with it. -/
theorem visits_or_swallowed {e : LexError} (malformed : u.kind = .error e) :
    ∀ ts, u ∈ ts → Visits s active ts u ∨ Swallowed s active ts u
  | [], there => nomatch there
  | t :: ts, there => by
    rcases List.mem_cons.mp there with rfl | later
    · exact .inl .here
    rcases mem_behind s active t later malformed with
      behind | ⟨word, args, after, invoked, ⟨a, mem, inside⟩, fate | ⟨m, params, fate, function⟩⟩
    · have := length_behind_le s active t ts
      exact (visits_or_swallowed malformed _ behind).imp .behind .behind
    · exact .inr (.stripped word fate invoked mem inside)
    · by_cases asked : ∃ b ∈ askedFor (s.boundArgs active m params args) m.body, u ∈ b.raw
      · obtain ⟨b, asked, inside⟩ := asked
        have := length_le_of_asked asked
        have := extent_invocation invoked
        exact (visits_or_swallowed malformed _ inside).imp
          (.within (.argument word fate function invoked asked))
          (.argument word fate function invoked asked)
      · refine .inr (.unasked word fate function invoked mem inside fun b there => ?_)
        exact fun inside => asked ⟨b, there, inside⟩
termination_by ts => ts.length

end Macro

namespace Preprocess

open Macro

variable {e : Setting} {main : String}

/-! ### Runs -/

/-- A run that comes to a fatal error ends with it. -/
theorem run_of_failed {err : FatalError} {s : State} (h : Reaches e (.start e main) (.failed err s)) :
    run e main = (.error err, s.diagnostics.toList) := by
  obtain ⟨last, reached, ended, result⟩ := reaches_result e main
  obtain rfl : last = .failed err s := by
    rcases (h.last reached ended).cases_head with same | ⟨m, step, -⟩
    · exact same.symm
    · cases step
  rw [result]
  rcases entry : e.sources.entry? main with _ | ⟨path, text⟩
  · -- Without a main file nothing fails.
    have idle : Moment.start e main = .reading [] (.initial e.config) := by
      unfold Moment.start
      rw [entry]
    rw [idle] at h
    rcases h.cases_head with same | ⟨m, step, -⟩
    · cases same
    · cases step
  · unfold Moment.result
    rw [entry]

/-- What becomes of a line of live text: it is put out if it can be expanded, and ends the run if not. -/
theorem next_of_live_text (e : Setting) {f : OpenFile} (around : List OpenFile) {s : State}
    {tokens : List Token} {ls : List Line} (line : f.rest = .text tokens :: ls)
    (live : s.isSkipping = false) :
    (Moment.reading (f :: around) s).next e =
      match Macro.expand (e.scope s) [] tokens with
      | .ok expanded =>
        some (.reading ({ f with rest := ls } :: around) { s with output := s.output ++ expanded })
      | .error err => some (.failed err s) := by
  have outcome : outcome (processLine e readNothing f.path (.text tokens)) s =
      match Macro.expand (e.scope s) [] tokens with
      | .ok expanded => (.ok (), { s with output := s.output ++ expanded })
      | .error err => (.error err, s) := by
    rw [processLine, outcome_bind, outcome_get]
    simp only [live, Bool.not_false, if_true]
    cases expands : Macro.expand (e.scope s) [] tokens with
    | ok expanded => rfl
    | error err => rfl
  have step : (Moment.reading (f :: around) s).next e = some (.ofOutcome ({ f with rest := ls } :: around)
      (Preprocess.outcome (processLine e readNothing f.path (.text tokens)) s)) := by
    simp only [Moment.next, line, includedBy]
  rw [step, outcome]
  cases Macro.expand (e.scope s) [] tokens with
  | ok expanded => rfl
  | error err => rfl

/-- In live text whose turn comes, expansion comes to every malformed token that no invocation goes with.
If it comes to any, in the text, in an argument or in a replacement, the run ends with the error of a
malformed token and what has been reported so far; if not, the run goes on. -/
theorem malformed_live_text {f : OpenFile} {around : List OpenFile} {s : State} {tokens : List Token}
    {ls : List Line} (reached : Reaches e (.start e main) (.reading (f :: around) s))
    (line : f.rest = .text tokens :: ls) (live : s.isSkipping = false) :
    (∀ u ∈ tokens, ∀ k, u.kind = .error k →
      Visits (e.scope s) [] tokens u ∨ Swallowed (e.scope s) [] tokens u) ∧
    ((∃ u k, Visits (e.scope s) [] tokens u ∧ u.kind = .error k) →
      ∃ t k, t.kind = .error k ∧ run e main = (.error (lexFailure t k), s.diagnostics.toList)) ∧
    ((∀ u k, Visits (e.scope s) [] tokens u → u.kind ≠ .error k) →
      ∃ expanded : List Token, (Moment.reading (f :: around) s).next e =
        some (.reading ({ f with rest := ls } :: around) { s with output := s.output ++ expanded })) := by
  have step := next_of_live_text e around line live
  refine ⟨fun u there k malformed => visits_or_swallowed malformed tokens there, ?_, ?_⟩
  · rintro ⟨u, k, visits, malformed⟩
    cases expands : Macro.expand (e.scope s) [] tokens with
    | ok expanded =>
      exact absurd malformed ((succeeds_expand_iff _ _ _).mp ⟨expanded, expands⟩ u visits k)
    | error err =>
      rw [expands] at step
      obtain ⟨t, l, malformed, rfl⟩ := failsOnToken_expand _ _ _ err expands
      exact ⟨t, l, malformed, run_of_failed (reached.tail step)⟩
  · intro wellFormed
    obtain ⟨expanded, expands⟩ := succeeds_expand _ _ _ fun u visits k => wellFormed u k visits
    rw [expands] at step
    exact ⟨expanded, step⟩

/-- Whether the line whose turn it is is live text with a malformed token. -/
def Moment.isMalformedText : Moment → Bool
  | .reading (⟨_, _, .text tokens :: _, _⟩ :: _) s => !s.isSkipping && tokens.any (·.kind.isError)
  | _ => false

theorem Moment.exists_text {m : Moment} (h : m.isMalformedText = true) :
    ∃ f around s tokens ls, m = .reading (f :: around) s ∧ f.rest = .text tokens :: ls ∧
      s.isSkipping = false := by
  unfold isMalformedText at h
  split at h
  · rw [Bool.and_eq_true, Bool.not_eq_true'] at h
    exact ⟨_, _, _, _, _, rfl, rfl, h.1⟩
  · cases h

/-- Whether the run has come to its end with an error. -/
def Moment.isFailed : Moment → Bool
  | .reading _ _ => false
  | .failed _ _ => true

/-- A string without an end, in an argument of a macro with one parameter. -/
def unclosedArgument (body : String) : Setting where
  sources := .ofList [("a.h", "#define M(x) " ++ body ++ "\nM(\"abc\n)\n")]
  config := {}

/-- Where the parameter is used, the argument is expanded and the string ends the run. -/
theorem malformed_live_text_argument :
    ∃ m, Reaches (unclosedArgument "x") (.start (unclosedArgument "x") "a.h") m ∧
      m.isMalformedText = true ∧
      ∃ t k, t.kind = .error k ∧
        run (unclosedArgument "x") "a.h" = (.error (lexFailure t k), m.state.diagnostics.toList) := by
  have seen : ((Moment.start (unclosedArgument "x") "a.h").after (unclosedArgument "x") 1).any (fun m =>
      m.isMalformedText && (m.next (unclosedArgument "x")).all (·.isFailed)) = true := by
    cbv
  obtain ⟨m, reached, holds⟩ := exists_reached seen
  obtain ⟨malformed, fails⟩ := Bool.and_eq_true_iff.mp holds
  refine ⟨m, reached, malformed, ?_⟩
  obtain ⟨f, around, s, tokens, ls, rfl, line, live⟩ := Moment.exists_text malformed
  obtain ⟨-, ends, goesOn⟩ := malformed_live_text reached line live
  apply ends
  by_contra none
  obtain ⟨expanded, step⟩ := goesOn fun u k visits malformed => none ⟨u, k, visits, malformed⟩
  rw [step] at fails
  cases fails

/-- Where it is not used, the run ends well. -/
theorem swallowed_argument :
    (∃ m, Reaches (unclosedArgument "1") (.start (unclosedArgument "1") "a.h") m ∧
      m.isMalformedText = true) ∧
    (run (unclosedArgument "1") "a.h").1.toBool = true := by
  have seen : ((Moment.start (unclosedArgument "1") "a.h").after (unclosedArgument "1") 1).any
      Moment.isMalformedText = true := by decide +kernel
  exact ⟨exists_reached seen, by cbv⟩

end Preprocess

end HeaderDecl
