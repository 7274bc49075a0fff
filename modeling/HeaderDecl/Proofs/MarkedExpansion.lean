import HeaderDecl.Directive.Constant
import HeaderDecl.Proofs.ExpansionResults

/-!
Macro expansion with the names under replacement as a mutable set, marked before a replacement is
expanded and unmarked after it, also where it fails. Calls are bounded here and nothing is known of
termination; with calls enough the result is that of `expand`, and no mark stays behind.
-/

namespace HeaderDecl.Macro

/-- What expansion works on: the macros in force, and the names of those being replaced. -/
structure Workspace where
  table : MacroTable
  expanding : List String

namespace Workspace

def mark (w : Workspace) (name : String) : Workspace :=
  { w with expanding := name :: w.expanding }

def unmark (w : Workspace) (name : String) : Workspace :=
  { w with expanding := w.expanding.filter (· ≠ name) }

/-- The macros as the pure expansion sees them. -/
def scope (w : Workspace) (stripped : List String) : Scope := ⟨w.table, stripped⟩

theorem unmark_mark {w : Workspace} {name : String} (free : w.expanding.contains name = false) :
    (w.mark name).unmark name = w := by
  have absent : name ∉ w.expanding := by simpa using free
  have same : w.expanding.filter (· ≠ name) = w.expanding := by
    rw [List.filter_eq_self]
    intro other there
    have differs : other ≠ name := fun h => absent (h ▸ there)
    exact decide_eq_true differs
  unfold mark unmark
  rw [List.filter_cons_of_neg (by simp), same]

end Workspace

/-- A computation on the workspace, or none if it needs more calls than it may make. -/
abbrev Bounded := StateT Workspace Option

/-- One that may fail. What it has done to the workspace stays. -/
abbrev Fallible := ExceptT FatalError Bounded

def outOfCalls {α : Type} : Fallible α := ExceptT.mk fun _ => none

/-- Runs a computation with a name marked. The mark goes before a failure is passed on. -/
def whileMarked {α : Type} (name : String) (x : Fallible α) : Fallible α := ExceptT.mk do
  modify (·.mark name)
  let result ← x.run
  modify (·.unmark name)
  return result

/-- The argument bound to a name, as written. -/
def rawArgOf (params : List String) (variadic : Option String) (args : List (List Token))
    (name : String) : Option (List Token) :=
  match params.idxOf? name with
  | some i => some (args[i]?.getD [])
  | none => if variadic = some name then some (args[params.length]?.getD []) else none

/-- Replaces the parameters in a body, given how to expand an argument. -/
def substituteMarked (expandArg : List Token → Fallible (List Token))
    (argOf : String → Option (List Token)) : List Token → List Token → Fallible (List Token)
  | produced, [] => pure produced.reverse
  | produced, t :: body =>
    match t.kind, body with
    | .punct .hash, n :: body' =>
      match argOf n.text with
      | some a => substituteMarked expandArg argOf (stringify a :: produced) body'
      | none => substituteMarked expandArg argOf (t :: produced) (n :: body')
    | .punct .hash, [] => substituteMarked expandArg argOf (t :: produced) []
    | .punct .hashHash, n :: body' =>
      substituteMarked expandArg argOf (pasteOnto produced ((argOf n.text).getD [n])) body'
    | .punct .hashHash, [] => substituteMarked expandArg argOf produced []
    | kind, body =>
      match if kind.isWord then argOf t.text else none with
      | some a =>
        if body.head?.any (·.is .hashHash) then
          substituteMarked expandArg argOf (a.reverse ++ produced) body
        else do
          let expanded ← expandArg a
          substituteMarked expandArg argOf (expanded.reverse ++ produced) body
      | none => substituteMarked expandArg argOf (t :: produced) body

/-- Expands a text from a well-formed token on, given how to expand a text. -/
def expandFrom (stripped : List String) (expandText : List Token → Fallible (List Token))
    (t : Token) (ts : List Token) : Fallible (List Token) := do
  let w ← get
  let keep : Fallible (List Token) := do
    let rest ← expandText ts
    return t :: rest
  if !t.isWord || w.expanding.contains t.text then keep
  else if stripped.contains t.text then
    expandText (afterStripped (w.scope stripped) t.text ts)
  else match w.table.get? t.text with
    | none => keep
    | some m => match m.params with
      | none => do
        let replaced ← whileMarked t.text (expandText (relocate t m.body))
        let rest ← expandText ts
        return replaced ++ rest
      | some params => match invocation ts with
        | none => keep
        | some (args, after) => do
          -- The arguments are expanded before the name is marked.
          let arranged := arrange params m.variadic.isSome args
          let body ← substituteMarked expandText (rawArgOf params m.variadic arranged) [] m.body
          let replaced ← whileMarked t.text (expandText (relocate t body))
          let rest ← expandText after
          return replaced ++ rest

/-- Expands the macros in a text. Each token and each nested text takes one of the calls. -/
def expandMarked (stripped : List String) : Nat → List Token → Fallible (List Token)
  | 0, _ => outOfCalls
  | _ + 1, [] => pure []
  | calls + 1, t :: ts =>
    match t.kind with
    | .error e => throw (lexFailure t e)
    | _ => expandFrom stripped (expandMarked stripped calls) t ts

/-- With calls enough, a computation ends with a result and leaves the workspace as it was. -/
def Settles {α : Type} (x : Nat → Fallible α) (w : Workspace) (r : Except FatalError α) : Prop :=
  ∃ n, ∀ calls, n ≤ calls → (x calls).run.run w = some (r, w)

namespace Settles

variable {α β : Type} {w : Workspace}

theorem pure (a : α) : Settles (fun _ => pure a) w (.ok a) := ⟨0, fun _ _ => rfl⟩

theorem throw (e : FatalError) : Settles (fun _ => (throw e : Fallible α)) w (.error e) :=
  ⟨0, fun _ _ => rfl⟩

theorem bind {x : Nat → Fallible α} {r : Except FatalError α} {f : Nat → α → Fallible β}
    {g : α → Except FatalError β} (first : Settles x w r)
    (next : ∀ a, Settles (fun calls => f calls a) w (g a)) :
    Settles (fun calls => x calls >>= f calls) w (r >>= g) := by
  obtain ⟨n, first⟩ := first
  cases r with
  | error e =>
    refine ⟨n, fun calls enough => ?_⟩
    rw [ExceptT.run_bind, StateT.run_bind, first calls enough]
    rfl
  | ok a =>
    obtain ⟨k, next⟩ := next a
    refine ⟨max n k, fun calls enough => ?_⟩
    rw [ExceptT.run_bind, StateT.run_bind, first calls (by omega)]
    exact next calls (by omega)

theorem get {f : Nat → Workspace → Fallible α} {r : Except FatalError α}
    (h : Settles (fun calls => f calls w) w r) :
    Settles (fun calls => do f calls (← get)) w r := h

/-- One more call than the callees need. -/
theorem call {x y : Nat → Fallible α} {r : Except FatalError α}
    (unfolds : ∀ calls, x (calls + 1) = y calls) (h : Settles y w r) : Settles x w r := by
  obtain ⟨n, h⟩ := h
  refine ⟨n + 1, fun calls enough => ?_⟩
  obtain ⟨fewer, rfl⟩ : ∃ fewer, calls = fewer + 1 := ⟨calls - 1, by omega⟩
  rw [unfolds]
  exact h fewer (by omega)

theorem whileMarked {x : Nat → Fallible α} {r : Except FatalError α} {name : String}
    (free : w.expanding.contains name = false) (h : Settles x (w.mark name) r) :
    Settles (fun calls => whileMarked name (x calls)) w r := by
  obtain ⟨n, h⟩ := h
  refine ⟨n, fun calls enough => ?_⟩
  have ran : (Macro.whileMarked name (x calls)).run.run w =
      ((x calls).run.run (w.mark name)).bind fun (result, last) =>
        some (result, last.unmark name) := rfl
  rw [ran, h calls enough]
  simp [Workspace.unmark_mark free]

end Settles

variable {w : Workspace}

theorem substituteMarked_other (expandArg : List Token → Fallible (List Token))
    (raw : String → Option (List Token)) (produced : List Token) {t : Token} (body : List Token)
    (noHash : t.kind ≠ .punct .hash) (noPaste : t.kind ≠ .punct .hashHash) :
    substituteMarked expandArg raw produced (t :: body) =
      match if t.kind.isWord then raw t.text else none with
      | some a =>
        if body.head?.any (·.is .hashHash) then
          substituteMarked expandArg raw (a.reverse ++ produced) body
        else do
          let expanded ← expandArg a
          substituteMarked expandArg raw (expanded.reverse ++ produced) body
      | none => substituteMarked expandArg raw (t :: produced) body := by
  rw [substituteMarked] <;> simp [noHash, noPaste]

/-- Where every argument that is asked for settles, so does the replacement. -/
theorem settles_substitute {expandArg : Nat → List Token → Fallible (List Token)}
    {args : String → Option Arg} {raw : String → Option (List Token)}
    (same : ∀ name, raw name = (args name).map Arg.raw)
    (settles : ∀ name a, args name = some a →
      Settles (fun calls => expandArg calls a.raw) w a.expanded.get)
    (produced body : List Token) :
    Settles (fun calls => substituteMarked (expandArg calls) raw produced body) w
      (substitute args produced body) := by
  have wordsSame (t : Token) : (if t.kind.isWord then raw t.text else none) =
      (if t.kind.isWord then args t.text else none).map Arg.raw := by
    rw [same]
    split <;> rfl
  -- The last cases say that a kind differs from another one by what could follow it.
  have differs {kind other : TokenKind} {rest : List Token}
      (more : ∀ n rest', kind = other → rest = n :: rest' → False)
      (last : kind = other → rest = [] → False) : kind ≠ other := by
    intro h
    cases rest with
    | nil => exact last h rfl
    | cons n rest' => exact more n rest' h rfl
  fun_induction substitute args produced body with
  | case1 produced =>
    simp only [substituteMarked]
    exact .pure _
  | case2 produced t n body hash a bound ih =>
    simp only [substituteMarked, hash, same, bound]
    exact ih
  | case3 produced t n body hash unbound ih =>
    simp only [substituteMarked, hash, same, unbound]
    exact ih
  | case4 produced t hash ih =>
    simp only [substituteMarked, hash]
    exact ih
  | case5 produced t n body paste right ih =>
    have joined : (raw n.text).getD [n] = right := by
      rw [same]
      simp only [right]
      cases args n.text <;> rfl
    simp only [substituteMarked, paste, joined]
    exact ih
  | case6 produced t paste ih =>
    simp only [substituteMarked, paste]
    exact ih
  | case7 produced t body a joined notHash lastHash notPaste lastPaste bound ih =>
    simp only [substituteMarked_other _ _ _ _ (differs notHash lastHash) (differs notPaste lastPaste),
      wordsSame, bound, Option.map_some, joined]
    exact ih
  | case8 produced t body a apart notHash lastHash notPaste lastPaste bound ih =>
    simp only [substituteMarked_other _ _ _ _ (differs notHash lastHash) (differs notPaste lastPaste),
      wordsSame, bound, Option.map_some, apart]
    have asked : args t.text = some a := by
      split at bound
      · exact bound
      · cases bound
    exact (settles t.text a asked).bind ih
  | case9 produced t body notHash lastHash notPaste lastPaste unbound ih =>
    simp only [substituteMarked_other _ _ _ _ (differs notHash lastHash) (differs notPaste lastPaste),
      wordsSame, unbound, Option.map_none]
    exact ih

/-- The argument that a macro has for a parameter, looked up among the arguments as written. -/
theorem rawArgOf_eq {params : List String} {variadic : Option String} {args : List Arg}
    (name : String) :
    rawArgOf params variadic (args.map Arg.raw) name =
      (argOf params variadic args name).map Arg.raw := by
  have nth (i : Nat) : (args.map Arg.raw)[i]?.getD [] =
      (args[i]?.getD ⟨[], .pure (.ok [])⟩).raw := by
    rw [List.getElem?_map]
    cases args[i]? <;> rfl
  unfold rawArgOf argOf
  cases params.idxOf? name with
  | some i => exact congrArg some (nth i)
  | none =>
    dsimp only
    split
    · exact congrArg some (nth _)
    · rfl

theorem Settles.cons {stripped : List String} {t : Token} {ts : List Token}
    {r : Except FatalError (List Token)} (wellFormed : ∀ e, t.kind = .error e → False)
    (h : Settles (fun calls => expandFrom stripped (expandMarked stripped calls) t ts) w r) :
    Settles (fun calls => expandMarked stripped calls (t :: ts)) w r := by
  refine .call (fun calls => ?_) h
  rw [expandMarked]
  split
  · exact absurd ‹_› (wellFormed _)
  · rfl

/-- With calls enough the marked expansion is the pure one, and every mark is gone again. -/
theorem settles_expandMarked (stripped : List String) (table : MacroTable) (active : List String)
    (ts : List Token) :
    Settles (fun calls => expandMarked stripped calls ts) ⟨table, active⟩
      (expand ⟨table, stripped⟩ active ts) := by
  fun_induction expand ⟨table, stripped⟩ active ts with
  | case1 active => exact .call (fun _ => rfl) (.pure [])
  | case2 active t ts e error =>
    refine .call (fun calls => ?_) (.throw (lexFailure t e))
    simp only [expandMarked, error]
  | case3 active t ts wellFormed kept ih =>
    refine .cons wellFormed (.get ?_)
    simp only [Token.isWord, kept]
    exact ih.bind fun rest => .pure _
  | case4 active t ts skipped _ wellFormed free ih =>
    have skipped' : stripped.contains t.text = true := skipped
    refine .cons wellFormed (.get ?_)
    simp only [Token.isWord, free, skipped']
    exact ih
  | case5 active t ts shown unknown wellFormed free ih =>
    have shown' : ¬ stripped.contains t.text = true := shown
    refine .cons wellFormed (.get ?_)
    simp only [Token.isWord, free, shown', unknown]
    exact ih.bind fun rest => .pure _
  | case6 active t ts shown m found object wellFormed free unmarked _ body after =>
    have shown' : ¬ stripped.contains t.text = true := shown
    refine .cons wellFormed (.get ?_)
    simp only [Token.isWord, free, shown', found, object]
    exact (body.whileMarked unmarked).bind fun replaced => after.bind fun rest => .pure _
  | case7 active t ts shown m found params function bare wellFormed free unmarked _ ih =>
    have shown' : ¬ stripped.contains t.text = true := shown
    refine .cons wellFormed (.get ?_)
    simp only [Token.isWord, free, shown', found, function, bare]
    exact ih.bind fun rest => .pure _
  | case8 active t ts shown m found params function args after invoked _ arranged wellFormed free
      unmarked _ argument body behind =>
    have shown' : ¬ stripped.contains t.text = true := shown
    have raw : arrange params m.variadic.isSome args = arranged.map Arg.raw := by
      simp [arranged, List.map_map, Function.comp_def]
    have settles (a : Arg) (there : a ∈ arranged ∨ a = ⟨[], .pure (.ok [])⟩) :
        Settles (fun calls => expandMarked stripped calls a.raw) ⟨table, active⟩ a.expanded.get := by
      rcases there with there | rfl
      · obtain ⟨⟨ts', mem⟩, _, rfl⟩ := List.mem_map.1 there
        exact argument ts' mem
      · exact .call (fun _ => rfl) (.pure [])
    refine .cons wellFormed (.get ?_)
    simp only [Token.isWord, free, shown', found, function, invoked, raw]
    refine .bind (settles_substitute rawArgOf_eq (fun name a bound =>
      settles a (mem_of_argOf bound)) _ _) fun replacement => ?_
    exact ((body _).whileMarked unmarked).bind fun replaced => behind.bind fun rest => .pure _

end HeaderDecl.Macro
