import HeaderDecl.Proofs.MarkedExpansion

/-!
What a run asks of macro expansion, with the names under replacement as a mutable set: no expansion
and no value of a macro body leaves a trace on those after it, also not where it fails.
-/

namespace HeaderDecl.Macro

/-- The value of a macro body while some names are being replaced. -/
def valueUnder (s : Scope) (active : List String) (body : List Token) : Option ConstValue :=
  if body.isEmpty || body.any MacroConstant.isUnusable then none
  else match expand s active body with
    | .ok expanded =>
      if expanded.all MacroConstant.isClosed then (Condition.evaluate expanded).map .int else none
    | .error _ => none

theorem valueUnder_nil (s : Scope) (body : List Token) :
    valueUnder s [] body = MacroConstant.integerValue s body := rfl

/-- The value of a macro body, where a failure of its expansion is dropped. -/
def integerValueMarked (stripped : List String) (calls : Nat) (body : List Token) :
    Bounded (Option ConstValue) :=
  if body.isEmpty || body.any MacroConstant.isUnusable then pure none
  else do
    match ← (expandMarked stripped calls body).run with
    | .ok expanded =>
      return if expanded.all MacroConstant.isClosed then (Condition.evaluate expanded).map .int
        else none
    | .error _ => return none

theorem settles_integerValueMarked (stripped : List String) (w : Workspace) (body : List Token) :
    ∃ n, ∀ calls, n ≤ calls → (integerValueMarked stripped calls body).run w =
      some (valueUnder (w.scope stripped) w.expanding body, w) := by
  have expands : Settles (fun calls => expandMarked stripped calls body) w
      (expand (w.scope stripped) w.expanding body) := settles_expandMarked stripped _ _ body
  obtain ⟨n, settled⟩ := expands
  refine ⟨n, fun calls enough => ?_⟩
  unfold integerValueMarked valueUnder
  split
  · rfl
  · rw [StateT.run_bind, settled calls enough]
    cases expand (w.scope stripped) w.expanding body <;> rfl

/-- What preprocessing asks for in the course of a file. -/
inductive Request where
  | define (name : String) (m : MacroDef)
  | undefine (name : String)
  | expand (ts : List Token)
  | integerValue (body : List Token)

inductive Answer where
  | done
  | text (r : Except FatalError (List Token))
  | value (v : Option ConstValue)

/-- Serves a request on the workspace. -/
def serve (stripped : List String) (calls : Nat) : Request → Bounded Answer
  | .define name m => do
    modify fun w => { w with table := w.table.insert name m }
    return .done
  | .undefine name => do
    modify fun w => { w with table := w.table.erase name }
    return .done
  | .expand ts => return .text (← (expandMarked stripped calls ts).run)
  | .integerValue body => return .value (← integerValueMarked stripped calls body)

/-- The table after a request, which only definitions change. -/
def Request.table (table : MacroTable) : Request → MacroTable
  | .define name m => table.insert name m
  | .undefine name => table.erase name
  | .expand _ | .integerValue _ => table

/-- The answer to a request by the pure expansion. -/
def Request.answer (s : Scope) (active : List String) : Request → Answer
  | .define _ _ | .undefine _ => .done
  | .expand ts => .text (Macro.expand s active ts)
  | .integerValue body => .value (valueUnder s active body)

/-- The answers to requests one after the other. -/
def answers (stripped active : List String) : MacroTable → List Request → List Answer
  | _, [] => []
  | table, r :: rs =>
    r.answer ⟨table, stripped⟩ active :: answers stripped active (r.table table) rs

/-- One request changes the workspace by what it defines only. -/
theorem settles_serve (stripped : List String) (w : Workspace) (r : Request) :
    ∃ n, ∀ calls, n ≤ calls → (serve stripped calls r).run w =
      some (r.answer (w.scope stripped) w.expanding, { w with table := r.table w.table }) := by
  cases r with
  | define name m => exact ⟨0, fun _ _ => rfl⟩
  | undefine name => exact ⟨0, fun _ _ => rfl⟩
  | expand ts =>
    obtain ⟨n, settled⟩ := settles_expandMarked stripped w.table w.expanding ts
    refine ⟨n, fun calls enough => ?_⟩
    rw [serve, StateT.run_bind, settled calls enough]
    rfl
  | integerValue body =>
    obtain ⟨n, settled⟩ := settles_integerValueMarked stripped w body
    refine ⟨n, fun calls enough => ?_⟩
    rw [serve, StateT.run_bind, settled calls enough]
    rfl

theorem settles_requests (stripped : List String) (w : Workspace) (requests : List Request) :
    ∃ n, ∀ calls, n ≤ calls → (requests.mapM (serve stripped calls)).run w =
      some (answers stripped w.expanding w.table requests,
        { w with table := requests.foldl Request.table w.table }) := by
  induction requests generalizing w with
  | nil => exact ⟨0, fun _ _ => rfl⟩
  | cons r rs ih =>
    -- The other requests begin with the table that the first one leaves, and with its marks gone.
    obtain ⟨n, first⟩ := settles_serve stripped w r
    obtain ⟨k, others⟩ := ih { w with table := r.table w.table }
    refine ⟨max n k, fun calls enough => ?_⟩
    rw [List.mapM_cons, StateT.run_bind, first calls (by omega)]
    simp only [Option.bind_eq_bind, Option.bind_some]
    rw [StateT.run_bind, others calls (by omega)]
    rfl

/-- Expansion ends on every workspace, with the tokens of the pure expansion or with the failure of a
malformed token, and leaves the workspace as it was. So does the value of a macro body, and in a run
of requests no expansion sees anything of those before it but their definitions. -/
theorem expansion_leaves_no_trace (stripped : List String) (w : Workspace) :
    (∀ ts, ∃ n, ∀ calls, n ≤ calls → (expandMarked stripped calls ts).run.run w =
      some (expand (w.scope stripped) w.expanding ts, w)) ∧
    (∀ ts e, expand (w.scope stripped) w.expanding ts = .error e →
      ∃ t l, t.kind = .error l ∧ e = lexFailure t l) ∧
    (∀ body, ∃ n, ∀ calls, n ≤ calls → (integerValueMarked stripped calls body).run w =
      some (valueUnder (w.scope stripped) w.expanding body, w)) ∧
    (∀ body, valueUnder (w.scope stripped) [] body =
      MacroConstant.integerValue (w.scope stripped) body) ∧
    ∀ requests : List Request, ∃ n, ∀ calls, n ≤ calls →
      (requests.mapM (serve stripped calls)).run w =
        some (answers stripped w.expanding w.table requests,
          { w with table := requests.foldl Request.table w.table }) :=
  ⟨settles_expandMarked stripped w.table w.expanding, failsOnToken_expand _ _,
    settles_integerValueMarked stripped w, valueUnder_nil _, settles_requests stripped w⟩

end HeaderDecl.Macro
