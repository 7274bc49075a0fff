import HeaderDecl.Proofs.CompleteModels
import HeaderDecl.Proofs.PlainUnits
import Mathlib

/-!
Nothing of a unit is lost in its resolution, as long as its tokens are spelled as tokens are lexed. A name
that is pasted together may have a separator in it, and is then taken for one in another scope.
-/

namespace HeaderDecl.Resolution

/-- Every constant and every declaration of a unit, at any depth, has its entry in the scope around it, in
the order of the file, and every refusal is reported. -/
theorem resolve_complete {tokens : List Token} (spelled : ∀ t ∈ tokens, t.Spelled)
    {constants : List MacroConstant} {config : Config} {m : Model} {ds : List Diagnostic}
    (run : resolve (parseUnit tokens).1 constants config = (.ok m, ds)) :
    ∃ log, Complete (parseUnit tokens).1 constants config m ds log :=
  complete_of_plain (plain_of_mem_parseUnit spelled) run

/-- A record with a record in it, and a namespace that declares one of that name. -/
def nestedTokens : List Token :=
  [.synthetic (.kw .struct) "struct", .synthetic .identifier "A", .synthetic (.punct .lbrace) "\x7b",
    .synthetic (.kw .struct) "struct", .synthetic .identifier "B",
    .synthetic (.punct .semicolon) ";", .synthetic (.punct .rbrace) "\x7d",
    .synthetic (.punct .semicolon) ";", .synthetic (.kw .namespaceKw) "namespace",
    .synthetic .identifier "N", .synthetic (.punct .lbrace) "\x7b", .synthetic (.kw .struct) "struct",
    .synthetic .identifier "B", .synthetic (.punct .semicolon) ";",
    .synthetic (.punct .rbrace) "\x7d", .eofAt .synthetic]

theorem resolve_complete_nested :
    (∀ t ∈ nestedTokens, t.Spelled) ∧ ∃ m ds,
      resolve (parseUnit nestedTokens).1 [] {} = (.ok m, ds) ∧
        ∃ log, Complete (parseUnit nestedTokens).1 [] {} m ds log := by
  have spelled : ∀ t ∈ nestedTokens, t.Spelled := by decide
  have ok : (resolve (parseUnit nestedTokens).1 [] {}).1.toBool = true := by decide +kernel
  rcases run : resolve (parseUnit nestedTokens).1 [] {} with ⟨_ | m, ds⟩
  · rw [run] at ok
    cases ok
  · exact ⟨spelled, m, ds, rfl, resolve_complete spelled run⟩

/-! ### Pasted names -/

/-- The name `a//`, whose slashes are read as the beginning of a comment when it is pasted. -/
def pastedScope : Token :=
  let slash := Token.synthetic (.punct .slash) "/"
  Macro.paste (Macro.paste (.synthetic .identifier "a") slash) slash

/-- The name `a//::b`. -/
def pastedName : Token :=
  Macro.paste (Macro.paste pastedScope (.synthetic (.punct .colonColon) "::"))
    (.synthetic .identifier "b")

/-- A record with the one name, and a namespace with the other name that has a record of the name `b`. -/
def pastedTokens : List Token :=
  [.synthetic (.kw .struct) "struct", pastedName, .synthetic (.punct .semicolon) ";",
    .synthetic (.kw .namespaceKw) "namespace", pastedScope, .synthetic (.punct .lbrace) "\x7b",
    .synthetic (.kw .struct) "struct", .synthetic .identifier "b",
    .synthetic (.punct .semicolon) ";", .synthetic (.punct .rbrace) "\x7d", .eofAt .synthetic]

def pastedItems : List Item :=
  [.decl (.record (.forward "a//::b" .struct)) [] .synthetic,
    .namespaceItem (some "a//") [.decl (.record (.forward "b" .struct)) [] .synthetic] .synthetic]

/-- The record in the namespace is taken for the other one, and its scope stays empty. -/
theorem resolve_loses_pasted : ∃ m ds d origin view,
    resolve (parseUnit pastedTokens).1 [] {} = (.ok m, ds) ∧
      Stands d origin view {} (parseUnit pastedTokens).1 ∧ d.name = some "b" ∧
        view.scope = "a//" ∧ ∀ e, ¬ m.Retains view.scope e := by
  have items : (parseUnit pastedTokens).1 = pastedItems := by cbv
  have empty : ((resolve pastedItems [] {}).1.toOption.bind fun m =>
      (m.scope? "a//").map (·.entries.map (·.decl))) = some [] := by decide +kernel
  have path : (({} : View).enter "a//").scope = "a//" := by decide
  rw [items]
  rcases run : resolve pastedItems [] {} with ⟨_ | m, ds⟩
  all_goals rw [run] at empty
  · cases empty
  · refine ⟨m, ds, .record (.forward "b" .struct), .synthetic, _, rfl, ?_, rfl, path, ?_⟩
    · exact .inNamespace (List.mem_cons_of_mem _ List.mem_cons_self) (.here List.mem_cons_self)
    · rintro e ⟨s, found, kept, mem, -⟩
      rw [path] at found
      simp only [Except.toOption, Option.bind_some, found, Option.map_some, Option.some.injEq,
        List.map_eq_nil_iff] at empty
      simp [empty] at mem

end HeaderDecl.Resolution
