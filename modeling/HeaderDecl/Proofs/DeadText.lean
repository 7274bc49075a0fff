import HeaderDecl.Proofs.ConditionalGroups
import HeaderDecl.Proofs.PreprocessSteps

/-!
Dead text: the lines of a branch that is not read move the stack of conditionals and do nothing
else, whatever groups they hold.
-/

namespace HeaderDecl.Preprocess

/-- A step that does nothing but take one stack of conditionals to another. -/
def Silent (before after : List Conditional) (x : Step Unit) : Prop :=
  ∀ s : State, outcome x (s.under before) = (.ok (), s.under after)

theorem Silent.pure (stack : List Conditional) : Silent stack stack (pure ()) := fun _ => rfl

theorem Silent.bind {a b c : List Conditional} {x : Step Unit} {f : Unit → Step Unit}
    (first : Silent a b x) (next : Silent b c (f ())) : Silent a c (x >>= f) := by
  intro s
  rw [outcome_bind, first s]
  exact next s

theorem Silent.cons {a b c : List Conditional} {read : Line → Step Unit} {l : Line}
    {ls : List Line} (first : Silent a b (read l)) (next : Silent b c (forM ls read)) :
    Silent a c (forM (l :: ls) read) :=
  first.bind next

theorem Silent.append {a b c : List Conditional} {read : Line → Step Unit} {ls ls' : List Line}
    (first : Silent a b (forM ls read)) (next : Silent b c (forM ls' read)) :
    Silent a c (forM (ls ++ ls') read) := by
  rw [List.forM_append]
  exact first.bind next

section Stack

variable (e : Setting) (processFile : String → String → Step Unit) (current : String)

theorem processLine_if (d : Marker "if") :
    processLine e processFile current d.line = (do
      let holds ← if (← get).isSkipping then pure false else condition e d.hash d.rest
      openConditional holds) := by
  simp only [Marker.line, processLine, directive, d.spelled]

theorem processLine_ifdef (d : Marker "ifdef") :
    processLine e processFile current d.line = ifDefined d.hash d.rest true := by
  simp only [Marker.line, processLine, directive, d.spelled]

theorem processLine_ifndef (d : Marker "ifndef") :
    processLine e processFile current d.line = ifDefined d.hash d.rest false := by
  simp only [Marker.line, processLine, directive, d.spelled]

theorem processLine_elif (d : Marker "elif") :
    processLine e processFile current d.line = elseIf e d.hash d.rest := by
  simp only [Marker.line, processLine, directive, d.spelled]

theorem processLine_else (d : Marker "else") :
    processLine e processFile current d.line = otherwise d.hash := by
  simp only [Marker.line, processLine, directive, d.spelled]

theorem processLine_endif (d : Marker "endif") :
    processLine e processFile current d.line = endConditional d.hash := by
  simp only [Marker.line, processLine, directive, d.spelled]

theorem processLine_directive {hash name : Token} {rest : List Token}
    (free : (Line.directive hash (name :: rest)).isConditional = false) :
    processLine e processFile current (.directive hash (name :: rest)) = (do
      if (← get).isSkipping then pure ()
      else liveDirective e processFile current hash name rest) := by
  -- None of the directives that touch the stack is meant.
  have other : ∀ word ∈ Line.conditionalWords, name.text ≠ word := by
    intro word listed same
    rw [← same] at listed
    simp only [Line.isConditional, List.contains_eq_mem, listed, decide_true] at free
    cases free
  unfold processLine directive
  simp only
  split
  · exact absurd ‹_› (other _ (by decide))
  · exact absurd ‹_› (other _ (by decide))
  · exact absurd ‹_› (other _ (by decide))
  · exact absurd ‹_› (other _ (by decide))
  · exact absurd ‹_› (other _ (by decide))
  · exact absurd ‹_› (other _ (by decide))
  · rfl

/-- In dead text a group is opened as if a branch of it had been taken. -/
theorem silent_openConditional {stack : List Conditional}
    (dead : Conditional.isSkipping stack = true) (holds : Bool) :
    Silent stack (⟨.skipping, true⟩ :: stack) (openConditional holds) := by
  intro s
  have opened : Conditional.opened stack holds = ⟨.skipping, true⟩ :: stack := by
    simp [Conditional.opened, dead]
  rw [← opened]
  rfl

theorem silent_ifDefined {stack : List Conditional} (dead : Conditional.isSkipping stack = true)
    (hash : Token) (rest : List Token) (wanted : Bool) :
    Silent stack (⟨.skipping, true⟩ :: stack) (ifDefined hash rest wanted) := by
  intro s
  have skips : (s.under stack).isSkipping = true := dead
  unfold ifDefined
  rw [outcome_bind, outcome_get]
  cases rest.head?.filter Token.isWord with
  | some t => exact silent_openConditional dead _ s
  | none =>
    simp only [skips]
    exact silent_openConditional dead _ s

theorem silent_opening {stack : List Conditional} (dead : Conditional.isSkipping stack = true)
    (o : Opening) : Silent stack (⟨.skipping, true⟩ :: stack)
      (processLine e processFile current o.line) := by
  cases o with
  | ifTrue d =>
    intro s
    have skips : (s.under stack).isSkipping = true := dead
    show outcome (processLine e processFile current d.line) _ = _
    rw [processLine_if, outcome_bind, outcome_get]
    simp only [skips]
    exact silent_openConditional dead _ s
  | ifdef d =>
    show Silent _ _ (processLine e processFile current d.line)
    rw [processLine_ifdef]
    exact silent_ifDefined dead _ _ _
  | ifndef d =>
    show Silent _ _ (processLine e processFile current d.line)
    rw [processLine_ifndef]
    exact silent_ifDefined dead _ _ _

theorem silent_plain {stack : List Conditional} (dead : Conditional.isSkipping stack = true)
    {l : Line} (free : l.isConditional = false) :
    Silent stack stack (processLine e processFile current l) := by
  intro s
  have skips : (s.under stack).isSkipping = true := dead
  cases l with
  | text tokens =>
    unfold processLine
    rw [outcome_bind, outcome_get]
    simp only [skips]
    rfl
  | directive hash line =>
    cases line with
    | nil => rfl
    | cons name rest =>
      rw [processLine_directive e processFile current free, outcome_bind, outcome_get]
      simp only [skips]
      rfl

/-- A further branch of a group that has been taken, or that lies in dead text, stays dead. -/
theorem silent_elif {c : Conditional} (taken : c.hadTrue = true) (stack : List Conditional)
    (d : Marker "elif") : ∃ c', c'.hadTrue = true ∧ c'.state ≠ .active ∧
      Silent (c :: stack) (c' :: stack) (processLine e processFile current d.line) := by
  have settled : Conditional.awaitsCondition (c :: stack) = false := by
    simp [Conditional.awaitsCondition, taken]
  refine ⟨c.elseIf false, ?_, ?_, fun s => ?_⟩
  · rcases c with ⟨_ | _ | _, _⟩ <;> first | rfl | exact taken
  · rcases c with ⟨_ | _ | _, _⟩ <;> simp [Conditional.elseIf]
  · rw [processLine_elif]
    unfold elseIf
    rw [outcome_bind, outcome_get]
    simp only [State.under, settled]
    rfl

theorem silent_else {c : Conditional} (taken : c.hadTrue = true) (stack : List Conditional)
    (d : Marker "else") : Silent (c :: stack) (⟨.done, true⟩ :: stack)
      (processLine e processFile current d.line) := by
  intro s
  rw [processLine_else]
  have last : c.otherwise = ⟨.done, true⟩ := by simp [Conditional.otherwise, taken]
  rw [← last]
  rfl

theorem silent_endif (c : Conditional) (stack : List Conditional) (d : Marker "endif") :
    Silent (c :: stack) stack (processLine e processFile current d.line) := by
  intro s
  rw [processLine_endif]
  rfl

-- A group in dead text is opened as one that had its branch, which keeps all its branches dead.

mutual

theorem silent_parts {stack : List Conditional} (dead : Conditional.isSkipping stack = true) :
    (p : Parts) → Silent stack stack (forM p.lines (processLine e processFile current))
  | .nil => .pure stack
  | .plain _ free rest =>
    (silent_plain e processFile current dead free).cons (silent_parts dead rest)
  | .group opening body later rest =>
    have entered := silent_opening e processFile current dead opening
    have inside := silent_parts rfl body
    have left := silent_branches rfl stack later
    entered.cons (inside.append (left.append (silent_parts dead rest)))

theorem silent_branches {c : Conditional} (taken : c.hadTrue = true) (stack : List Conditional) :
    (b : Branches) → Silent (c :: stack) stack (forM b.lines (processLine e processFile current))
  | .elseIf d body later => by
    obtain ⟨c', taken', dead, entered⟩ := silent_elif e processFile current taken stack d
    have inside : Silent (c' :: stack) _ _ := silent_parts (by simpa [Conditional.isSkipping]) body
    exact entered.cons (inside.append (silent_branches taken' stack later))
  | .otherwise d body close =>
    have entered := silent_else e processFile current taken stack d
    have inside := silent_parts rfl body
    have left := silent_endif e processFile current _ stack close
    entered.cons (inside.append (left.cons (.pure stack)))
  | .close d => (silent_endif e processFile current c stack d).cons (.pure stack)

end

end Stack

end HeaderDecl.Preprocess
