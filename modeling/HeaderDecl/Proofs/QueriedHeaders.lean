import HeaderDecl.Proofs.ConstantsInConditions
import HeaderDecl.Proofs.IncludingLines

/-!
Queries for headers. A condition asks for a header by its own path alone, while an include looks next to
the file that it stands in first. The two agree unless the header is found there only.
-/

namespace HeaderDecl

namespace Condition

variable {q opening t closing : Token} {rest : List Token}

theorem invocation_single (opens : opening.is .lparen = true) (quoted : t.kind = .string)
    (closes : closing.is .rparen = true) :
    Macro.invocation (opening :: t :: closing :: rest) = some ([[t]], rest) := by
  have noParen : t.is .rparen = false := by simp [Token.is, quoted]
  have noComma : t.is .comma = false := by simp [Token.is, quoted]
  have noInner : t.is .lparen = false := by simp [Token.is, quoted]
  simp [Macro.invocation, Macro.collectArgs, opens, closes, noParen, noComma, noInner]

/-- A query for a header in quotes gives way to its answer, and the condition goes on behind it. -/
theorem resolveQueries_header (isDefined isHeader : String → Bool)
    (asks : includeQueries.contains q.text = true) (opens : opening.is .lparen = true)
    (quoted : t.kind = .string) (closes : closing.is .rparen = true) :
    resolveQueries isDefined isHeader (q :: opening :: t :: closing :: rest) = do
      let rest ← resolveQueries isDefined isHeader rest
      return numberToken q (isHeader (Literal.string t.text)) :: rest := by
  have noDefined : q.text ≠ "defined" := by
    rintro same
    rw [same] at asks
    exact absurd asks (by decide)
  have queried : queriedHeader [[t]] = some (Literal.string t.text) := by
    simp [queriedHeader, quoted]
  rw [resolveQueries, if_neg noDefined, asks, Bool.true_or, if_pos rfl]
  split
  · rename_i none_
    rw [invocation_single opens quoted closes] at none_
    cases none_
  · rename_i args after some_
    rw [invocation_single opens quoted closes] at some_
    cases some_
    rw [queried, Bool.true_and, Option.any_some]

theorem fixed_numberToken (b : Bool) : MacroConstant.Fixed (numberToken q b) :=
  ⟨rfl, nofun⟩

/-- An answer alone is worth what it says. -/
theorem evaluate_numberToken (b : Bool) : evaluate [numberToken q b] = some (if b then 1 else 0) := by
  have zero : Literal.int? "0" = some 0 := by decide +kernel
  have one : Literal.int? "1" = some 1 := by decide +kernel
  have reads : Denotes (numberToken q b) (if b then 1 else 0) := by
    cases b
    · exact .number rfl zero
    · exact .number rfl one
  have whole : Derives 0 [numberToken q b] (.literal (if b then 1 else 0)) :=
    (Derives.literal reads).mono (Nat.zero_le _) (Nat.le_refl _)
  exact evaluate_of_derives whole

end Condition

namespace Preprocess

variable {e : Setting} {s : State} {current : String} {q opening t closing : Token}

/-- Whether a target is a header by its own path. -/
def Setting.isHeader (e : Setting) (target : String) : Bool :=
  (e.sources.entry? (FilePath.normalize target)).isSome

/-- A target that names a header next to a file, and none by its own path. -/
def Setting.OnlyBeside (e : Setting) (current target : String) : Prop :=
  (e.sources.entry? (FilePath.relativeTo (FilePath.parent current) target)).isSome = true ∧
    e.isHeader target = false

theorem findInclude_isSome (current target : String) :
    (e.findInclude current target).isSome =
      ((e.sources.entry? (FilePath.relativeTo (FilePath.parent current) target)).isSome ||
        e.isHeader target) := by
  rw [Setting.findInclude, Option.isSome_or, Setting.isHeader]

/-- An include finds every header by its own path, and beyond these the ones that are only next to the
file. -/
theorem isHeader_iff_findInclude (current target : String) :
    (e.isHeader target = true ↔ (e.findInclude current target).isSome = true) ↔
      ¬ e.OnlyBeside current target := by
  rw [findInclude_isSome, Setting.OnlyBeside]
  cases e.isHeader target <;> simp

/-- A target is sought in one place only from a file in the root, and so is an absolute one. -/
theorem not_onlyBeside {target : String}
    (one : (FilePath.parent current).isEmpty = true ∨ FilePath.isAbsolute target.toList = true) :
    ¬ e.OnlyBeside current target := by
  have same : FilePath.relativeTo (FilePath.parent current) target = FilePath.normalize target := by
    unfold FilePath.relativeTo
    rcases one with root | absolute
    · rw [root, Bool.true_or, if_pos rfl]
    · rw [absolute, Bool.or_true, if_pos rfl]
  rintro ⟨beside, notOwn⟩
  rw [same, ← Setting.isHeader, notOwn] at beside
  cases beside

/-- A condition that asks for a header in quotes holds if it is one by its own path, whatever file the
condition stands in. -/
theorem outcome_condition_header (hash : Token)
    (asks : Condition.includeQueries.contains q.text = true) (opens : opening.is .lparen = true)
    (quoted : t.kind = .string) (closes : closing.is .rparen = true) :
    outcome (condition e hash [q, opening, t, closing]) s =
      (.ok (e.isHeader (Literal.string t.text)), s) := by
  have answers : Condition.resolveQueries s.macros.contains e.isHeader [q, opening, t, closing] =
      .ok [Condition.numberToken q (e.isHeader (Literal.string t.text))] := by
    rw [Condition.resolveQueries_header _ _ asks opens quoted closes, Condition.resolveQueries]
    rfl
  have expands : ∀ b, Macro.expand (e.scope s) [] [Condition.numberToken q b] =
      .ok [Condition.numberToken q b] := by
    intro b
    exact MacroConstant.expand_fixed (by simpa using Condition.fixed_numberToken b)
  have looks : (fun target => (e.sources.entry? (FilePath.normalize target)).isSome) = e.isHeader := rfl
  unfold condition
  rw [outcome_bind, outcome_get]
  simp only [looks, answers, expands]
  rw [outcome_bind]
  have lifted (ts : List Token) :
      outcome (liftM (Except.ok ts : Except FatalError (List Token)) : Step (List Token)) s = (.ok ts, s) :=
    rfl
  rw [lifted]
  simp only [Condition.evaluate_numberToken]
  cases e.isHeader (Literal.string t.text)
  · rfl
  · rfl

/-- A live line that includes a header in quotes has the one processed that the target finds, unless too
many files are open. -/
theorem outcome_include_line {processFile : String → String → Step Unit} (hash : Token) {word : Token}
    (includes : isInclude word = true) (live : s.isSkipping = false)
    (shallow : s.includeStack.length < e.config.maxIncludeDepth) (quoted : t.kind = .string) :
    outcome (processLine e processFile current (.directive hash [word, t])) s =
      match e.findInclude current (Literal.string t.text) with
      | some (path, text) => outcome (processFile path text) s
      | none => (.ok (), s) := by
  have free : (Line.directive hash [word, t]).isConditional = false := by
    simp only [isInclude, Bool.or_eq_true, decide_eq_true_eq] at includes
    rcases includes with same | same <;> simp [Line.isConditional, Line.conditionalWords, same]
  have deep : ¬ e.config.maxIncludeDepth ≤ s.includeStack.length := Nat.not_le.mpr shallow
  rw [processLine_directive _ _ _ free, outcome_bind, outcome_get]
  dsimp only
  rw [live, if_neg Bool.false_ne_true, liveDirective_include _ includes]
  unfold includeHeader
  dsimp only
  rw [quoted, beq_self_eq_true, if_pos rfl, outcome_bind, outcome_get]
  dsimp only
  rw [if_neg deep]
  cases e.findInclude current (Literal.string t.text)
  · rfl
  · rfl

/-- A query for a header in quotes finds only what an include of it would find at the same place. It
fails to find that exactly if the header is next to the file and not by its own path among the sources,
so never from a file in the root and never if the target is absolute. -/
theorem query_agrees_iff (hash : Token) (asks : Condition.includeQueries.contains q.text = true)
    (opens : opening.is .lparen = true) (quoted : t.kind = .string) (closes : closing.is .rparen = true)
    (current : String) :
    let target := Literal.string t.text
    ∃ found, outcome (condition e hash [q, opening, t, closing]) s = (.ok found, s) ∧
      (found = true → (e.findInclude current target).isSome = true) ∧
      ((found = true ↔ (e.findInclude current target).isSome = true) ↔ ¬ e.OnlyBeside current target) ∧
      ((FilePath.parent current).isEmpty = true ∨ FilePath.isAbsolute target.toList = true →
        ¬ e.OnlyBeside current target) ∧
      ∀ (processFile : String → String → Step Unit) (hash' word : Token), isInclude word = true →
        s.isSkipping = false → s.includeStack.length < e.config.maxIncludeDepth →
        outcome (processLine e processFile current (.directive hash' [word, t])) s =
          match e.findInclude current target with
          | some (path, text) => outcome (processFile path text) s
          | none => (.ok (), s) := by
  refine ⟨_, outcome_condition_header hash asks opens quoted closes, ?_, ?_, ?_, ?_⟩
  · intro own
    rw [findInclude_isSome, own, Bool.or_true]
  · exact isHeader_iff_findInclude _ _
  · exact not_onlyBeside
  · intro processFile hash' word includes live shallow
    exact outcome_include_line hash' includes live shallow quoted

/-! ### A header next to a file -/

/-- Two headers in one directory. -/
def oneDirectory : Setting :=
  { sources := .ofList [("dir/main.h", ""), ("dir/a.h", "")], config := {} }

/-- A token of a query, as it is read. -/
def queryToken (text : String) (n : Nat) : Token := (lex "dir/main.h" text).getD n (.eofAt .synthetic)

/-- The tokens of a query, as they are read. -/
def queryFor (text : String) : List Token := (List.range 4).map (queryToken text)

theorem query_agrees_iff_path :
    outcome (condition oneDirectory hash (queryFor "__has_include(\"dir/a.h\")")) { macros := .empty } =
        (.ok true, { macros := .empty }) ∧
      oneDirectory.findInclude "dir/main.h"
        (Literal.string (queryToken "__has_include(\"dir/a.h\")" 2).text) = some ("dir/a.h", "") := by
  let query := queryToken "__has_include(\"dir/a.h\")"
  have asks : Condition.includeQueries.contains (query 0).text = true := by decide +kernel
  have opens : (query 1).is .lparen = true := by decide +kernel
  have quoted : (query 2).kind = .string := by decide +kernel
  have closes : (query 3).is .rparen = true := by decide +kernel
  have own : oneDirectory.isHeader (Literal.string (query 2).text) = true := by decide +kernel
  have finds : oneDirectory.findInclude "dir/main.h" (Literal.string (query 2).text) =
      some ("dir/a.h", "") := by decide +kernel
  have agree : ¬ oneDirectory.OnlyBeside "dir/main.h" (Literal.string (query 2).text) := by
    rintro ⟨-, notOwn⟩
    rw [own] at notOwn
    cases notOwn
  obtain ⟨found, runs, -, exactly, -⟩ := query_agrees_iff (e := oneDirectory) (s := { macros := .empty })
    hash asks opens quoted closes "dir/main.h"
  have holds : found = true := (exactly.mpr agree).mpr (by rw [finds]; rfl)
  rw [holds] at runs
  exact ⟨runs, finds⟩

theorem query_misses_header_beside :
    outcome (condition oneDirectory hash (queryFor "__has_include(\"a.h\")")) { macros := .empty } =
        (.ok false, { macros := .empty }) ∧
      oneDirectory.findInclude "dir/main.h"
        (Literal.string (queryToken "__has_include(\"a.h\")" 2).text) = some ("dir/a.h", "") := by
  let query := queryToken "__has_include(\"a.h\")"
  have asks : Condition.includeQueries.contains (query 0).text = true := by decide +kernel
  have opens : (query 1).is .lparen = true := by decide +kernel
  have quoted : (query 2).kind = .string := by decide +kernel
  have closes : (query 3).is .rparen = true := by decide +kernel
  have notOwn : oneDirectory.isHeader (Literal.string (query 2).text) = false := by decide +kernel
  have runs := outcome_condition_header (e := oneDirectory) (s := { macros := .empty })
    hash asks opens quoted closes
  rw [notOwn] at runs
  exact ⟨runs, by decide +kernel⟩

end Preprocess

end HeaderDecl
