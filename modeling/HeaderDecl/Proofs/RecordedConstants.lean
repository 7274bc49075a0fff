import HeaderDecl.Proofs.FileIsolation
import Mathlib

/-!
Constants and the macros they stand for. A constant belongs to the definition of its name that is in
force, unless that definition has no value: then it may be left from an older one.
-/

namespace HeaderDecl

/-! ### Recording -/

namespace MacroConstant

variable {c d : MacroConstant} {cs : List MacroConstant}

/-- What is recorded is the new constant and those of other names. -/
theorem mem_record : d ∈ record c cs ↔ d = c ∨ (d ∈ cs ∧ d.name ≠ c.name) := by
  unfold record
  split
  next known =>
    obtain ⟨old, mem, same⟩ := List.any_eq_true.mp known
    rw [List.mem_map]
    constructor
    · rintro ⟨d, mem, rfl⟩
      split
      · exact .inl rfl
      · exact .inr ⟨mem, ‹_›⟩
    · rintro (rfl | ⟨mem, other⟩)
      · exact ⟨old, mem, if_pos (by simpa using same)⟩
      · exact ⟨d, mem, if_neg other⟩
  next unknown =>
    rw [List.mem_append, List.mem_singleton, or_comm]
    refine or_congr_right (and_iff_left_of_imp fun mem same => ?_).symm
    exact unknown (List.any_eq_true.mpr ⟨d, mem, by simpa using same⟩)

theorem nodup_record (distinct : (cs.map (·.name)).Nodup) : ((record c cs).map (·.name)).Nodup := by
  unfold record
  split
  · have same : (cs.map fun d => if d.name = c.name then c else d).map (·.name) = cs.map (·.name) := by
      rw [List.map_map]
      refine List.map_congr_left fun d _ => ?_
      simp only [Function.comp_apply]
      split
      · exact Eq.symm ‹_›
      · rfl
    rwa [same]
  next unknown =>
    rw [List.map_append, List.nodup_append]
    refine ⟨distinct, List.nodup_singleton _, ?_⟩
    intro name mem name' mem' same
    obtain ⟨d, recorded, rfl⟩ := List.mem_map.mp mem
    exact unknown (List.any_eq_true.mpr ⟨d, recorded, by simp_all⟩)

end MacroConstant

/-- The value of a macro, which has to be object-like. -/
def MacroDef.value? (s : Macro.Scope) (m : MacroDef) : Option ConstValue :=
  if m.isFunctionLike then none else MacroConstant.valueOf s m.body

namespace Preprocess

variable {e : Setting} {m m' : Moment} {main : String}

/-! ### Lines that edit the macros -/

/-- What a line does to the macros: it defines one, under a name as written, or takes one back. -/
inductive Edit where
  | define (name : Token) (d : MacroDef)
  | undefine (name : String)

namespace Edit

/-- The name of the macro. -/
def name : Edit → String
  | define name _ => name.text
  | undefine name => name

/-- The macro that a definition has behind its name. -/
def definition? : List Token → Option MacroDef
  | [] => some ⟨none, none, []⟩
  | t :: ts =>
    if t.is .lparen && !t.spaced then
      (MacroDef.readParams [] ts).map fun (params, variadic, body) => ⟨some params, variadic, body⟩
    else some ⟨none, none, t :: ts⟩

/-- What a line edits if it is live. -/
def of? : Line → Option Edit
  | .directive _ (word :: name :: rest) =>
    if !name.isWord then none
    else if word.text = "define" then (definition? rest).map (define name)
    else if word.text = "undef" then some (undefine name.text)
    else none
  | _ => none

/-- The macros after an edit. -/
def macros (ms : MacroTable) : Edit → MacroTable
  | define name d => ms.insert name.text d
  | undefine name => ms.erase name

/-- The constants after an edit. -/
def constants (e : Setting) (s : State) : Edit → List MacroConstant
  | define name d =>
    match d.value? (e.scope s) with
    | some value => MacroConstant.record ⟨name.text, value, name.loc⟩ s.constants
    | none => s.constants
  | undefine name => s.constants.filter (·.name ≠ name)

end Edit

/-- The edit of the next line, if that line is live. -/
def Moment.edit? : Moment → Option Edit
  | reading (f :: _) s => if s.isSkipping then none else f.rest.head?.bind Edit.of?
  | _ => none

section Steps

variable {s : State} {current : String}

theorem edited_defineObject {name : Token} {body : List Token} :
    (outcome (defineObject e name body) s).2.macros =
        (Edit.define name ⟨none, none, body⟩).macros s.macros ∧
      (outcome (defineObject e name body) s).2.constants =
        (Edit.define name ⟨none, none, body⟩).constants e s := by
  refine ⟨rfl, ?_⟩
  simp only [Edit.constants, MacroDef.value?, MacroDef.isFunctionLike, Option.isSome_none,
    Bool.false_eq_true, if_false]
  rfl

/-- A definition puts into force the macro that the tokens behind its name tell. -/
theorem edited_define {hash name : Token} {rest : List Token} {d : MacroDef}
    (isWord : name.isWord = true) (defines : Edit.definition? rest = some d) :
    (outcome (define e hash (name :: rest)) s).2.macros = (Edit.define name d).macros s.macros ∧
      (outcome (define e hash (name :: rest)) s).2.constants = (Edit.define name d).constants e s := by
  simp only [define, isWord, Bool.not_true, Bool.false_eq_true, if_false]
  cases rest with
  | nil =>
    cases defines
    exact edited_defineObject
  | cons t ts =>
    simp only [Edit.definition?] at defines
    dsimp only
    split at defines
    next attached =>
      obtain ⟨⟨params, variadic, body⟩, reads, rfl⟩ := Option.map_eq_some_iff.mp defines
      rw [if_pos attached, reads]
      exact ⟨rfl, rfl⟩
    next apart =>
      cases defines
      rw [if_neg apart]
      exact edited_defineObject

theorem edited_undefine {hash name : Token} {rest : List Token} (isWord : name.isWord = true) :
    (outcome (undefine hash (name :: rest)) s).2.macros = (Edit.undefine name.text).macros s.macros ∧
      (outcome (undefine hash (name :: rest)) s).2.constants =
        (Edit.undefine name.text).constants e s := by
  have first : (name :: rest).head?.filter Token.isWord = some name := by
    rw [List.head?_cons, Option.filter_some, if_pos isWord]
  simp only [undefine, first]
  exact ⟨rfl, rfl⟩

/-- A live line that edits the macros does so, and does it to the constants too. -/
theorem edited_processLine {l : Line} {ed : Edit} (live : s.isSkipping = false)
    (edits : Edit.of? l = some ed) :
    (outcome (processLine e readNothing current l) s).2.macros = ed.macros s.macros ∧
      (outcome (processLine e readNothing current l) s).2.constants = ed.constants e s := by
  unfold Edit.of? at edits
  split at edits
  case h_2 => cases edits
  rename_i hash word name rest
  split at edits
  · cases edits
  have isWord : name.isWord = true := by simpa using ‹¬(!name.isWord) = true›
  have alive (free : (Line.directive hash (word :: name :: rest)).isConditional = false) :
      outcome (processLine e readNothing current (.directive hash (word :: name :: rest))) s =
        outcome (liveDirective e readNothing current hash word (name :: rest)) s := by
    rw [processLine_directive _ _ _ free, outcome_bind, outcome_get]
    simp [live]
  split at edits
  next defines =>
    obtain ⟨d, defined, rfl⟩ := Option.map_eq_some_iff.mp edits
    rw [alive (by simp [Line.isConditional, Line.conditionalWords, defines])]
    simp only [liveDirective, defines]
    exact edited_define isWord defined
  next =>
    split at edits
    next undefines =>
      cases edits
      rw [alive (by simp [Line.isConditional, Line.conditionalWords, undefines])]
      simp only [liveDirective, undefines]
      exact edited_undefine isWord
    next => cases edits

/-- Any other line leaves both as they are. -/
theorem unedited_processLine {l : Line} (unedited : s.isSkipping = false → Edit.of? l = none) :
    (outcome (processLine e readNothing current l) s).2.macros = s.macros ∧
      (outcome (processLine e readNothing current l) s).2.constants = s.constants := by
  have changes := changes_processLine e current l s
  generalize (outcome (processLine e readNothing current l) s).2 = t at changes ⊢
  cases changes with
  | quiet quiet => exact ⟨quiet.macros, quiet.constants⟩
  | text => exact ⟨rfl, rfl⟩
  | @object hash word name body live defines isWord apart =>
    have none := unedited live
    cases body with
    | nil => simp [Edit.of?, Edit.definition?, defines, isWord] at none
    | cons t ts =>
      have apart := apart t rfl
      simp [Edit.of?, Edit.definition?, defines, isWord, apart] at none
  | function live defines isWord attached reads =>
    have none := unedited live
    simp [Edit.of?, Edit.definition?, defines, isWord, attached, reads] at none
  | undefine live undefines isWord =>
    have none := unedited live
    simp [Edit.of?, undefines, isWord] at none

/-- A line that includes a header edits nothing. -/
theorem of?_of_includedBy {l : Line} {path text : String}
    (included : includedBy e s current l = some (path, text)) : Edit.of? l = none := by
  unfold includedBy at included
  split at included
  case h_2 => cases included
  rename_i name rest
  split at included
  case isFalse => cases included
  rename_i live
  have word : name.text = "include" ∨ name.text = "include_next" := by
    simpa [isInclude] using (Bool.and_eq_true_iff.mp live).1
  cases rest with
  | nil => rfl
  | cons t ts => rcases word with word | word <;> simp [Edit.of?, word]

theorem unedited_close (f : OpenFile) :
    (outcome (Moment.close f) s).2.macros = s.macros ∧
      (outcome (Moment.close f) s).2.constants = s.constants := by
  have quiet := quietly_reportOpen (lex f.path f.text) s
  unfold Moment.close
  rw [outcome_bind]
  rcases reported : outcome (reportOpen (lex f.path f.text)) s with ⟨_ | _, t⟩
  all_goals
    rw [reported] at quiet
    exact ⟨quiet.macros, quiet.constants⟩

/-- A step edits the macros and the constants as its line does, or leaves them as they are. -/
theorem Moment.next_edit (h : m.next e = some m') :
    (m.edit? = none ∧ m'.state.macros = m.state.macros ∧ m'.state.constants = m.state.constants) ∨
    ∃ ed, m.edit? = some ed ∧ m'.state.macros = ed.macros m.state.macros ∧
      m'.state.constants = ed.constants e m.state := by
  obtain ⟨f, around, s, rfl, ⟨rest, rfl⟩ | ⟨l, ls, rest, ⟨path, text, included, rfl⟩ | ⟨-, rfl⟩⟩⟩ :=
    next_cases h
  · rw [state_ofOutcome]
    exact .inl ⟨by simp [edit?, rest], unedited_close f⟩
  · refine .inl ⟨by simp [edit?, rest, of?_of_includedBy included], ?_⟩
    rcases state_call e path text ({ f with rest := ls } :: around) s with same | ⟨-, entered⟩
    · rw [same]
      exact ⟨rfl, rfl⟩
    · rw [entered]
      exact ⟨rfl, rfl⟩
  · rw [state_ofOutcome]
    have edits : (reading (f :: around) s).edit? = if s.isSkipping then none else Edit.of? l := by
      simp [edit?, rest]
    cases whole : (reading (f :: around) s).edit? with
    | none =>
      refine .inl ⟨rfl, unedited_processLine fun live => ?_⟩
      rw [edits, live] at whole
      exact whole
    | some ed =>
      rw [edits] at whole
      split at whole
      · cases whole
      · exact .inr ⟨ed, rfl, edited_processLine (Bool.eq_false_iff.mpr ‹_›) whole⟩

end Steps

/-! ### Definitions in force -/

/-- From one moment to another no line edits the macro of a name. -/
def Untouched (e : Setting) (name : String) : Moment → Moment → Prop :=
  Relation.ReflTransGen fun m m' => m.next e = some m' ∧ ∀ ed, m.edit? = some ed → ed.name ≠ name

/-- The definition of a name that is in force at a moment of a run: an earlier moment makes it, and no
line after that one edits the name. -/
structure InForce (e : Setting) (main : String) (name : Token) (d : MacroDef) (made now : Moment) :
    Prop where
  reached : Reaches e (.start e main) made
  defines : made.edit? = some (.define name d)
  since : ∃ after, made.next e = some after ∧ Untouched e name.text after now

variable {name : Token} {d : MacroDef} {made : Moment}

theorem InForce.first (reached : Reaches e (.start e main) m) (step : m.next e = some m')
    (defines : m.edit? = some (.define name d)) : InForce e main name d m m' :=
  ⟨reached, defines, m', step, .refl⟩

theorem InForce.next (h : InForce e main name d made m) (step : m.next e = some m')
    (other : ∀ ed, m.edit? = some ed → ed.name ≠ name.text) : InForce e main name d made m' := by
  obtain ⟨reached, defines, after, here, untouched⟩ := h
  exact ⟨reached, defines, after, here, untouched.tail ⟨step, other⟩⟩

/-- A constant at a moment is of the definition of its name that is in force: it is the value that this
definition had when it was made, or the definition had none and the constant was there before. -/
structure Accounted (e : Setting) (main : String) (m : Moment) (c : MacroConstant) : Prop where
  inForce : ∃ name d made, InForce e main name d made m ∧ name.text = c.name ∧
    m.state.macros.get? c.name = some d ∧
    (d.value? (e.scope made.state) = some c.value ∧ c.loc = name.loc ∨
      d.value? (e.scope made.state) = none ∧ c ∈ made.state.constants)

variable {c : MacroConstant}

/-- A step that leaves the macro of a constant alone leaves it of the same definition. -/
theorem Accounted.next (h : Accounted e main m c) (step : m.next e = some m')
    (other : ∀ ed, m.edit? = some ed → ed.name ≠ c.name)
    (kept : m'.state.macros.get? c.name = m.state.macros.get? c.name) : Accounted e main m' c := by
  obtain ⟨name, d, made, inForce, named, defined, value⟩ := h
  exact ⟨name, d, made, inForce.next step (named ▸ other), named, kept.trans defined, value⟩

/-- The constants of a moment have different names, and each is of the definition in force. -/
structure Moment.UpToDate (e : Setting) (main : String) (m : Moment) : Prop where
  distinct : (m.state.constants.map (·.name)).Nodup
  accounted : ∀ c ∈ m.state.constants, Accounted e main m c

/-- A definition records its value in the place of an older constant, or leaves that one. -/
theorem Moment.UpToDate.define (h : m.UpToDate e main) (reached : Reaches e (.start e main) m)
    (step : m.next e = some m') (defines : m.edit? = some (.define name d))
    (macros : m'.state.macros = m.state.macros.insert name.text d)
    (constants : m'.state.constants = (Edit.define name d).constants e m.state) :
    m'.UpToDate e main := by
  have inForce : InForce e main name d m m' := .first reached step defines
  have defined : m'.state.macros.get? name.text = some d := by simp [macros]
  -- Constants of other names are of the same definitions as before.
  have others (c : MacroConstant) (mem : c ∈ m.state.constants) (other : c.name ≠ name.text) :
      Accounted e main m' c := by
    refine (h.accounted c mem).next step ?_ (by simp [macros, other])
    intro ed edits
    cases defines.symm.trans edits
    exact other.symm
  cases found : d.value? (e.scope m.state) with
  | some value =>
    simp only [Edit.constants, found] at constants
    refine ⟨constants ▸ MacroConstant.nodup_record h.distinct, fun c mem => ?_⟩
    rw [constants] at mem
    rcases MacroConstant.mem_record.mp mem with rfl | ⟨mem, other⟩
    · exact ⟨name, d, m, inForce, rfl, defined, .inl ⟨found, rfl⟩⟩
    · exact others c mem other
  | none =>
    simp only [Edit.constants, found] at constants
    refine ⟨constants ▸ h.distinct, fun c mem => ?_⟩
    rw [constants] at mem
    by_cases same : c.name = name.text
    · exact ⟨name, d, m, inForce, same.symm, same ▸ defined, .inr ⟨found, mem⟩⟩
    · exact others c mem same

/-- A macro that is taken back takes its constant along. -/
theorem Moment.UpToDate.undefine {name : String} (h : m.UpToDate e main) (step : m.next e = some m')
    (undefines : m.edit? = some (.undefine name))
    (macros : m'.state.macros = m.state.macros.erase name)
    (constants : m'.state.constants = m.state.constants.filter (·.name ≠ name)) :
    m'.UpToDate e main := by
  refine ⟨constants ▸ h.distinct.sublist (List.filter_sublist.map _), fun c mem => ?_⟩
  rw [constants, List.mem_filter, decide_eq_true_eq] at mem
  obtain ⟨mem, other⟩ := mem
  refine (h.accounted c mem).next step ?_ (by simp [macros, other])
  intro ed edits
  cases undefines.symm.trans edits
  exact other.symm

theorem Moment.UpToDate.next (h : m.UpToDate e main) (reached : Reaches e (.start e main) m)
    (step : m.next e = some m') : m'.UpToDate e main := by
  rcases next_edit step with ⟨unedited, macros, constants⟩ | ⟨ed, edits, macros, constants⟩
  · refine ⟨constants ▸ h.distinct, fun c mem => ?_⟩
    rw [constants] at mem
    refine (h.accounted c mem).next step ?_ (by rw [macros])
    intro ed edits
    cases unedited.symm.trans edits
  · cases ed with
    | define name d => exact h.define reached step edits macros constants
    | undefine name => exact h.undefine step edits macros constants

theorem Moment.upToDate_start (e : Setting) (main : String) : (start e main).UpToDate e main := by
  have none : (start e main).state.constants = [] := by
    unfold start
    split
    next path text _ =>
      rcases state_call e path text [] (.initial e.config) with same | ⟨-, entered⟩
      · rw [same]
        rfl
      · rw [entered]
        rfl
    next => rfl
  refine ⟨none ▸ List.nodup_nil, fun c mem => ?_⟩
  rw [none] at mem
  cases mem

/-- At every moment of a run the constants have different names. Each of them is of the definition of its
name that is in force: it has the value of this definition, or this definition has no value and the
constant was there when it was made. -/
theorem constants_of_reaches (reached : Reaches e (.start e main) m) :
    (m.state.constants.map (·.name)).Nodup ∧ ∀ c ∈ m.state.constants, Accounted e main m c := by
  have upToDate : m.UpToDate e main := by
    induction reached with
    | refl => exact Moment.upToDate_start e main
    | tail before step ih => exact ih.next before step
  exact ⟨upToDate.distinct, upToDate.accounted⟩

/-! ### Runs over one header -/

theorem reaches_of_after {n : Nat} (h : m.after e n = some m') : Reaches e m m' := by
  induction n generalizing m with
  | zero =>
    cases h
    exact .refl
  | succ n ih =>
    obtain ⟨next, step, h⟩ := Option.bind_eq_some_iff.mp h
    exact .head step (ih h)

/-- What is seen a number of steps after the start is seen at a moment of the run. -/
theorem exists_reached {P : Moment → Bool} {n : Nat}
    (seen : ((Moment.start e main).after e n).any P = true) :
    ∃ m, Reaches e (.start e main) m ∧ P m = true := by
  obtain ⟨m, after, holds⟩ := (Option.any_eq_true _ _).mp seen
  exact ⟨m, reaches_of_after after, holds⟩

/-- A macro that is defined again, with the first definition, and one that is taken back. -/
def redefined : Setting where
  sources := .ofList [("a.h", "#define A 1\n#define A A + 1\n#define B 2\n#undef B\n")]
  config := {}

theorem constants_of_reaches_redefined :
    ∃ m, Reaches redefined (.start redefined "a.h") m ∧
      m.state.constants.map (fun c => (c.name, c.value)) = [("A", .int 2)] ∧
      (m.state.constants.map (·.name)).Nodup ∧
      ∀ c ∈ m.state.constants, Accounted redefined "a.h" m c := by
  have seen : ((Moment.start redefined "a.h").after redefined 4).any (fun m =>
      m.state.constants.map (fun c => (c.name, c.value)) = [("A", .int 2)]) = true := by cbv
  obtain ⟨m, reached, constants⟩ := exists_reached seen
  exact ⟨m, reached, by simpa using constants, constants_of_reaches reached⟩

/-- A macro with a value whose name is defined again as a function-like macro. -/
def takenOver : Setting where
  sources := .ofList [("a.h", "#define N 1\n#define N(x) x\n")]
  config := {}

/-- The constant of a name stays although its macro is function-like by now. -/
theorem stale_constant :
    ∃ m, Reaches takenOver (.start takenOver "a.h") m ∧
      ∃ c ∈ m.state.constants, (m.state.macros.get? c.name).any (·.isFunctionLike) = true := by
  have seen : ((Moment.start takenOver "a.h").after takenOver 2).any (fun m =>
      m.state.constants.any fun c => (m.state.macros.get? c.name).any (·.isFunctionLike)) = true := by
    decide +kernel
  obtain ⟨m, reached, stale⟩ := exists_reached seen
  exact ⟨m, reached, List.any_eq_true.mp stale⟩

end Preprocess

end HeaderDecl
