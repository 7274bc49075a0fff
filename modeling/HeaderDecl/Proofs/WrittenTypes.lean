import HeaderDecl.Proofs.LaterStates
import HeaderDecl.Token.Scan
import Mathlib.Data.List.Forall2

/-!
Types written in another way. The arguments of a template stand for its parameters in a default, and a
default that is left out may be written: either way the type is meant to stay what it is.
-/

namespace HeaderDecl

/-! ### What is written for parameters -/

/-- The runs of letters and digits in a text, and what is between them. -/
def wordsOf (text : String) : List String :=
  (text.toList.splitBy fun a b => isIdentifierContinue a && isIdentifierContinue b).map
    String.ofList

/-- What is written for the template parameters of a type, if any are replaced. -/
abbrev Writings := Option (List (String × ArgExpr))

/-- The arguments that are written for some parameters. Of parameters with one name the last counts. -/
def writings (params : List (TemplateParam TypeExpr)) (args : List ArgExpr) :
    List (String × ArgExpr) :=
  ((params.zip args).filterMap fun (p, a) => p.name.map (·, a)).reverse

namespace Writings

/-- Whether nothing is written for a text or a word of it. -/
def Spares (w : Writings) (text : String) : Prop :=
  ∀ args, w = some args → ∀ word ∈ text :: wordsOf text, args.lookup word = none

theorem spares_none {text : String} : Spares none text := by
  rintro _ ⟨⟩

/-- Whether nothing is written for the beginning of a name, up to its last segment. -/
def SparesPath (w : Writings) (p : PathExpr) : Prop :=
  (p.absolute = false → ∀ args, w = some args → args.lookup p.first.name = none) ∧
    w.Spares (TypeExpr.renderScope p.scope)

/-- What is written for an expression: one parameter stands for another expression. -/
inductive Replaces (w : Writings) : String → String → Prop
  | param {args : List (String × ArgExpr)} {name text : String} (same : w = some args)
      (h : args.lookup name = some (.literal text)) : Replaces w name text
  | spared {text : String} (h : w.Spares text) : Replaces w text text

end Writings

/-- The default of a template parameter, as it is written. A pack has none. -/
def TemplateParam.default? (p : TemplateParam TypeExpr) : Option ArgExpr :=
  if p.pack then none
  else match p.kind with
    | .type (some t) => some (.type t)
    | .nonType _ (some text) | .template (some text) => some (.literal text)
    | _ => none

namespace TypeExpr

/-- A name that stands behind a keyword if there is a kind. -/
def named : Option NamedKind → PathExpr → TypeExpr
  | none, p => .path p
  | some kind, p => .elaborated kind p

/-- Whether a type is that of functions, but for qualifiers that say nothing. -/
def isFunction : TypeExpr → Bool
  | .function _ => true
  | .qualified q t => q.isEmpty && t.isFunction
  | _ => false

end TypeExpr

/-- A name with template arguments at its end. -/
def NamePath.withArgs (p : PathExpr) (args : List ArgExpr) : PathExpr :=
  { p with last := ⟨p.last.name, some args⟩ }

def TemplateArg.isType {τ : Type} : TemplateArg τ → Bool
  | .type _ => true
  | .literal _ => false

namespace Resolution

open Relation

/-- Whether a type seen from one view may be written as another one that is seen from a second view. What
is written for parameters stands in their place, wherever they are resolved as types or stand alone as
expressions. No other name changes its meaning, though it may be qualified in another way, and a pointer
to a function stays one. An instantiation that is changed is of a template without specializations and
leaves no default out, unless only defaults are written. -/
inductive WrittenAs (r : Registry) : Writings → View → View → TypeExpr → TypeExpr → Prop
  | primitive {w : Writings} {v v' : View} (p : Primitive) :
      WrittenAs r w v v' (.primitive p) (.primitive p)
  | dependent {w : Writings} {v v' : View} {p : PathExpr}
      (spared : w.Spares (TypeExpr.renderPath p)) :
      WrittenAs r w v v' (.dependent p) (.dependent p)
  | param {args : List (String × ArgExpr)} {v v' : View} {name : String} {t : TypeExpr}
      (own : v.params.contains name = true) (written : args.lookup name = some (.type t)) :
      WrittenAs r (some args) v v' (.path (.simple name)) t
  | name {w : Writings} {v v' : View} {kind : Option NamedKind} {p p' : PathExpr} {f : Found}
      (plain : p.last.args = none) (plain' : p'.last.args = none) (spared : w.SparesPath p)
      (found : r.found ⟨v, kind, p⟩ = some f) (found' : r.found ⟨v', kind, p'⟩ = some f) :
      WrittenAs r w v v' (.named kind p) (.named kind p')
  | instantiation {w : Writings} {v v' : View} {kind : Option NamedKind} {p p' : PathExpr}
      {args args' : List ArgExpr} {f : Found} (spared : w.SparesPath p)
      (found : r.found ⟨v, kind, p.withArgs args⟩ = some f)
      (found' : r.found ⟨v', kind, p'.withArgs args'⟩ = some f)
      (kinds : args'.map (·.isType) = args.map (·.isType))
      (types : ∀ (i : Nat) (t t' : TypeExpr), args[i]? = some (.type t) →
        args'[i]? = some (.type t') → WrittenAs r w v v' t t')
      (texts : ∀ (i : Nat) (text text' : String), args[i]? = some (.literal text) →
        args'[i]? = some (.literal text') → w.Replaces text text')
      (full : ∀ name kind params view, f = .meaning name (.template kind params view) →
        w = none ∨ params[args.length]?.bind (·.default?) = none)
      (unspecialized : ∀ name m, f = .meaning name m → r.patternsOf name ≠ [] →
        ∀ (i : Nat) (t t' : TypeExpr), args[i]? = some (.type t) → args'[i]? = some (.type t') →
          WrittenAs r none v v' t t')
      (unchanged : ∀ name m, f = .meaning name m → r.patternsOf name ≠ [] →
        ∀ (i : Nat) (text text' : String), args[i]? = some (.literal text) →
          args'[i]? = some (.literal text') → text' = text) :
      WrittenAs r w v v' (.named kind (p.withArgs args)) (.named kind (p'.withArgs args'))
  | pointer {w : Writings} {v v' : View} {t t' : TypeExpr} (h : WrittenAs r w v v' t t')
      (function : t'.isFunction = true → t.isFunction = true) :
      WrittenAs r w v v' (.pointer t) (.pointer t')
  | reference {w : Writings} {v v' : View} {t t' : TypeExpr} (h : WrittenAs r w v v' t t') :
      WrittenAs r w v v' (.reference t) (.reference t')
  | rvalueReference {w : Writings} {v v' : View} {t t' : TypeExpr} (h : WrittenAs r w v v' t t') :
      WrittenAs r w v v' (.rvalueReference t) (.rvalueReference t')
  | array {w : Writings} {v v' : View} {t t' : TypeExpr} {size : Option Value}
      (h : WrittenAs r w v v' t t') (spared : ∀ n, size = some n → w.Spares n.render) :
      WrittenAs r w v v' (.array t size) (.array t' size)
  | qualified {w : Writings} {v v' : View} {q : Qualifiers} {t t' : TypeExpr}
      (h : WrittenAs r w v v' t t') : WrittenAs r w v v' (.qualified q t) (.qualified q t')
  | function {w : Writings} {v v' : View} {sig : Signature TypeExpr}
      (same : ∀ t ∈ sig.types, WrittenAs r none v v' t t)
      (spared : ∀ t ∈ sig.types, WrittenAs r w v v' t t) :
      WrittenAs r w v v' (.function sig) (.function sig)
  | defaultType {v : View} {kind : Option NamedKind} {p : PathExpr} {args : List ArgExpr}
      {name : String} {record : RecordKind} {params : List (TemplateParam TypeExpr)} {view : View}
      {t t' : TypeExpr}
      (found : r.found ⟨v, kind, p.withArgs args⟩ =
        some (.meaning name (.template record params view)))
      (default : params[args.length]?.bind (·.default?) = some (.type t))
      (h : WrittenAs r (some (writings params args)) (view.withParams params) v t t') :
      WrittenAs r none v v (.named kind (p.withArgs args))
        (.named kind (p.withArgs (args ++ [.type t'])))
  | defaultText {v : View} {kind : Option NamedKind} {p : PathExpr} {args : List ArgExpr}
      {name : String} {record : RecordKind} {params : List (TemplateParam TypeExpr)} {view : View}
      {text text' : String}
      (found : r.found ⟨v, kind, p.withArgs args⟩ =
        some (.meaning name (.template record params view)))
      (default : params[args.length]?.bind (·.default?) = some (.literal text))
      (h : Writings.Replaces (some (writings params args)) text text') :
      WrittenAs r none v v (.named kind (p.withArgs args))
        (.named kind (p.withArgs (args ++ [.literal text'])))
  | first {w : Writings} {v v' : View} {t u t' : TypeExpr} (h : WrittenAs r none v v t u)
      (rest : WrittenAs r w v v' u t') : WrittenAs r w v v' t t'

/-! ### Names of types written in another way -/

section Names

variable {r : Registry} {R : String → Prop} {v v' : View} {w : Writings} {t t' : TypeExpr}

theorem looksUpOnly_named {A : NameUse → Prop} {kind : Option NamedKind} {p : PathExpr} :
    LooksUpOnly A v (.named kind p) ↔
      A ⟨v, kind, p⟩ ∧ ∀ a ∈ p.last.types, LooksUpOnly A v a := by
  rw [looksUpOnly_iff]
  cases kind <;> simp [TypeExpr.named, TypeExpr.lookups, TypeExpr.parts]

theorem mem_types_withArgs {p : PathExpr} {args : List ArgExpr} :
    t ∈ (p.withArgs args).last.types ↔ ∃ i : Nat, args[i]? = some (.type t) := by
  have types (a : ArgExpr) : t ∈ a.types ↔ a = TemplateArg.type t := by
    cases a <;> simp [TemplateArg.types, eq_comm]
  simp only [NamePath.withArgs, NameSegment.types, Option.getD_some, List.mem_flatMap, types,
    ← List.mem_iff_getElem?]
  simp

/-- What is seen alike is inside the same names. -/
theorem Inside.seenFrom {kind : Option NamedKind} {p p' : PathExpr} {f : Found}
    (inside : Inside r R ⟨v, kind, p⟩) (found : r.found ⟨v, kind, p⟩ = some f)
    (found' : r.found ⟨v', kind, p'⟩ = some f) : Inside r R ⟨v', kind, p'⟩ := by
  refine ⟨fun _ => Option.isSome_of_eq_some found', fun name m same leads => ?_⟩
  exact inside.2 name m (found.trans (found'.symm.trans same)) leads

theorem first_withArgs (p : PathExpr) (args : List ArgExpr) :
    (p.withArgs args).first.name = p.first.name := by
  unfold NamePath.first NamePath.withArgs
  cases p.scope <;> rfl

theorem sparesPath_withArgs {p : PathExpr} (args : List ArgExpr) :
    w.SparesPath (p.withArgs args) ↔ w.SparesPath p := by
  unfold Writings.SparesPath
  rw [first_withArgs]
  rfl

theorem ownType?_eq_none {p : PathExpr} : ownType? v p = none ↔
    (!p.absolute && v.params.contains p.first.name) = false ∧
      p.scope.any (·.args.isSome) = false := by
  unfold ownType?
  split
  · simp_all
  · split <;> simp_all [Option.isSome_iff_ne_none]

/-- A name that is found with a meaning is found whatever its template arguments are. -/
theorem found_withArgs {kind : Option NamedKind} {p : PathExpr} {args : List ArgExpr} {name : String}
    {m : Meaning} (found : r.found ⟨v, kind, p.withArgs args⟩ = some (.meaning name m))
    (args' : List ArgExpr) : r.found ⟨v, kind, p.withArgs args'⟩ = some (.meaning name m) := by
  have own : ownType? v (p.withArgs args) = none := by
    unfold Registry.found at found
    split at found
    · cases found
    · assumption
  have own' : ownType? v (p.withArgs args') = none := by
    rw [ownType?_eq_none, first_withArgs] at own ⊢
    exact own
  unfold Registry.found at found ⊢
  rw [own] at found
  rw [own']
  simpa [NamePath.withArgs, NamePath.plainName, NamePath.segments] using found

/-- Each argument that is a type stands beside one that it is written as. -/
theorem exists_type_of_kinds {args args' : List ArgExpr}
    (kinds : args'.map (·.isType) = args.map (·.isType)) {i : Nat}
    (there : args'[i]? = some (.type t')) : ∃ t, args[i]? = some (.type t) := by
  have both := congrArg (·[i]?) kinds
  simp only [List.getElem?_map, there, Option.map_some] at both
  obtain ⟨a, here, isType⟩ := Option.map_eq_some_iff.mp both.symm
  cases a with
  | type t => exact ⟨t, here⟩
  | literal text => cases isType

/-- The default of a parameter is seen from where its template is declared. -/
theorem Coherent.inside_default (h : Coherent r) (closed : Closed r R) {kind : Option NamedKind}
    {p : PathExpr} {name : String} {record : RecordKind} {params : List (TemplateParam TypeExpr)}
    {view : View} (inside : Inside r R ⟨v, kind, p⟩)
    (found : r.found ⟨v, kind, p⟩ = some (.meaning name (.template record params view))) {i : Nat}
    (default : params[i]?.bind (·.default?) = some (.type t)) :
    LooksUpOnly (Inside r R) (view.withParams params) t := by
  obtain ⟨q, hq, default⟩ := Option.bind_eq_some_iff.mp default
  have known := inside.meant found
  refine h.inside_closed closed (known.2 rfl) (.default known.1 (List.mem_of_getElem? hq) ?_)
  obtain ⟨_, kind, pack⟩ := q
  unfold TemplateParam.default? at default
  split at default
  · cases default
  · split at default <;> simp_all [TemplateParam.types, TemplateParamKind.types]

/-- What is written for a parameter is one of the arguments. -/
theorem mem_of_lookup_writings {params : List (TemplateParam TypeExpr)} {args : List ArgExpr}
    {name : String} {a : ArgExpr} (written : (writings params args).lookup name = some a) :
    a ∈ args := by
  obtain ⟨before, behind, split, -⟩ := List.lookup_eq_some_iff.mp written
  have mem : (name, a) ∈ writings params args := by simp [split]
  obtain ⟨⟨p, b⟩, zipped, bound⟩ := List.mem_filterMap.mp (List.mem_reverse.mp mem)
  obtain ⟨_, -, same⟩ := Option.map_eq_some_iff.mp bound
  cases same
  exact (List.of_mem_zip zipped).2

/-- Whether only some names are looked up for the types that are written for parameters. -/
def WrittenWithin (A : NameUse → Prop) (v : View) (w : Writings) : Prop :=
  ∀ args, w = some args → ∀ name (u : TypeExpr), args.lookup name = some (.type u) → LooksUpOnly A v u

theorem writtenWithin_none {A : NameUse → Prop} : WrittenWithin A v none := by
  rintro _ ⟨⟩

theorem writtenWithin_writings {A : NameUse → Prop} {p : PathExpr} {args : List ArgExpr}
    (within : ∀ t ∈ (p.withArgs args).last.types, LooksUpOnly A v t)
    (params : List (TemplateParam TypeExpr)) : WrittenWithin A v (some (writings params args)) := by
  rintro _ ⟨⟩ name u written
  obtain ⟨i, here⟩ := List.mem_iff_getElem?.mp (mem_of_lookup_writings written)
  exact within u (mem_types_withArgs.mpr ⟨i, here⟩)

theorem inside_types_append {A : NameUse → Prop} {p : PathExpr} {args : List ArgExpr} {a : ArgExpr}
    (within : ∀ t ∈ (p.withArgs args).last.types, LooksUpOnly A v t)
    (last : ∀ t, a = .type t → LooksUpOnly A v t) :
    ∀ t ∈ (p.withArgs (args ++ [a])).last.types, LooksUpOnly A v t := by
  intro t ht
  obtain ⟨i, there⟩ := mem_types_withArgs.mp ht
  rcases List.mem_append.mp (List.mem_of_getElem? there) with here | here
  · obtain ⟨j, here⟩ := List.mem_iff_getElem?.mp here
    exact within t (mem_types_withArgs.mpr ⟨j, here⟩)
  · exact last t (List.mem_singleton.mp here).symm

/-- A type that is written in another way leads where it led before. -/
theorem WrittenAs.inside (h : Coherent r) (closed : Closed r R) (writes : WrittenAs r w v v' t t')
    (names : LooksUpOnly (Inside r R) v t) (given : WrittenWithin (Inside r R) v' w) :
    LooksUpOnly (Inside r R) v' t' := by
  have part {v : View} {s t : TypeExpr} (parts : t.parts v = [(v, s)]) (names : t.lookups = []) :
      LooksUpOnly (Inside r R) v t ↔ LooksUpOnly (Inside r R) v s := by
    rw [looksUpOnly_iff]
    simp [parts, names]
  -- By induction on how the type is written. What is found alike leads on alike, and what is written for a
  -- parameter was given.
  induction writes with
  | primitive p =>
    rw [looksUpOnly_iff]
    simp [TypeExpr.lookups, TypeExpr.parts]
  | dependent spared =>
    rw [looksUpOnly_iff]
    simp [TypeExpr.lookups, TypeExpr.parts]
  | param own written => exact given _ rfl _ _ written
  | name plain plain' spared found found' =>
    obtain ⟨inside, -⟩ := looksUpOnly_named.mp names
    refine looksUpOnly_named.mpr ⟨inside.seenFrom found found', fun a ha => ?_⟩
    simp [NameSegment.types, plain'] at ha
  | instantiation spared found found' kinds types texts full unspecialized unchanged ih =>
    obtain ⟨inside, within⟩ := looksUpOnly_named.mp names
    refine looksUpOnly_named.mpr ⟨inside.seenFrom found found', fun a ha => ?_⟩
    obtain ⟨i, there⟩ := mem_types_withArgs.mp ha
    obtain ⟨b, here⟩ := exists_type_of_kinds kinds there
    exact ih i b a here there (within b (mem_types_withArgs.mpr ⟨i, here⟩)) given
  | pointer h function ih => exact (part rfl rfl).mpr (ih ((part rfl rfl).mp names) given)
  | reference h ih => exact (part rfl rfl).mpr (ih ((part rfl rfl).mp names) given)
  | rvalueReference h ih => exact (part rfl rfl).mpr (ih ((part rfl rfl).mp names) given)
  | array h spared ih => exact (part rfl rfl).mpr (ih ((part rfl rfl).mp names) given)
  | qualified h ih => exact (part rfl rfl).mpr (ih ((part rfl rfl).mp names) given)
  | function same spared ih =>
    refine looksUpOnly_iff.mpr ⟨by simp [TypeExpr.lookups], fun x hx => ?_⟩
    obtain ⟨u, hu, rfl⟩ := List.mem_map.mp hx
    exact ih u hu (names.part (List.mem_map_of_mem hu)) writtenWithin_none
  | defaultType found default written ih =>
    obtain ⟨inside, within⟩ := looksUpOnly_named.mp names
    refine looksUpOnly_named.mpr ⟨inside.seenFrom found (found_withArgs found _), ?_⟩
    refine inside_types_append within fun u hu => ?_
    cases hu
    exact ih (h.inside_default closed inside found default) (writtenWithin_writings within _)
  | defaultText found default written =>
    obtain ⟨inside, within⟩ := looksUpOnly_named.mp names
    exact looksUpOnly_named.mpr ⟨inside.seenFrom found (found_withArgs found _),
      inside_types_append within (by simp)⟩
  | first changed rest ih ih' => exact ih' (ih names writtenWithin_none) given

end Names

end Resolution

end HeaderDecl
