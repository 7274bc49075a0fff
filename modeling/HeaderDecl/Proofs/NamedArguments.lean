import HeaderDecl.Proofs.NamedBase
import HeaderDecl.Proofs.RequiredTypes
import Mathlib

/-!
Template arguments that are names. A name that is a whole argument is read as a type, whatever it is the
name of, so that a unit resolves only if it is that of a type.
-/

namespace HeaderDecl

/-! ### Reading -/

namespace Grammar

open HeaderDecl.Grammar.Parser

/-- A token that ends a template argument. -/
def endsArgument (t : Token) : Bool := t.is .comma || t.is .greater

section Reading

variable {c : Context} {s ts : List Token} {t : Token} {n : Nat}

theorem endsArgument_kind (ends : endsArgument t = true) :
    t.kind = .punct .comma ∨ t.kind = .punct .greater := by
  unfold endsArgument Token.is at ends
  rcases Bool.or_eq_true_iff.mp ends with h | h
  · exact .inl (beq_iff_eq.mp h)
  · exact .inr (beq_iff_eq.mp h)

/-- No attribute begins with a token that ends an argument. -/
theorem attributeTokens_of_endsArgument (ends : endsArgument (next c s) = true) :
    attributeTokens s = [] := by
  cases s with
  | nil => rfl
  | cons t s =>
    rcases endsArgument_kind ends with kind | kind
    · exact attributeTokens_of_punct kind (by decide)
    · exact attributeTokens_of_punct kind (by decide)

/-- A name alone is read as the specifiers of a type. -/
theorem specifiers_name {P : Nested} (name : t.kind = .identifier) (noWord : t.text ∉ ignoredSpecifiers)
    (plain : t.text ∉ annotationWords) (ends : endsArgument (next c ts) = true) :
    (specifiers P none).Reads c (t :: ts) { base := some (.path (.simple t.text)) } ts := by
  have type : (typeName P none {}).Reads c (t :: ts)
      ({ base := some (.path (.simple t.text)) }, true) ts := by
    refine typeName_reads name ?_ ?_ ?_ ?_
    all_goals rcases endsArgument_kind ends with kind | kind <;>
      simp [takenForMacro, goesOn, Token.is, Token.isKw, kind, TokenKind.isPrimitive]
  have step : (specifierStep P none {}).Reads c (t :: ts)
      ({ base := some (.path (.simple t.text)) }, true) ts := by
    simp only [specifierStep, reads_bind, reads_skipAttributes (attributeTokens_of_name name plain),
      reads_peek]
    refine ⟨(), t :: ts, rfl, t, t :: ts, ⟨rfl, rfl⟩, ?_⟩
    simpa [name, noWord, Specifiers.hasType] using type
  refine reads_loop_more _ ts step (by simp) (reads_loop_stop ?_)
  refine specifierStep_stop rfl ?_ (attributeTokens_of_endsArgument ends)
  rcases endsArgument_kind ends with kind | kind <;> simp [endsSpecifiers, kind]

/-- Where an argument ends, nothing is declared. -/
theorem declarator_endsArgument {P : Nested} (ends : endsArgument (next c s) = true) :
    (declarator P).Reads c s ⟨none, false, false, next c s, []⟩ s := by
  refine declarator_nothing (attributeTokens_of_endsArgument ends) ?_ ?_ fun p mem => ?_
  · rcases endsArgument_kind ends with kind | kind <;> simp [kind]
  · rcases endsArgument_kind ends with kind | kind <;> simp [Token.isKw, kind]
  · rcases endsArgument_kind ends with kind | kind <;> rw [Token.is, kind] <;>
      exact beq_false_of_ne fun same => by cases same; exact absurd mem (by decide)

theorem reads_speculate {α : Type} {p : Parser α} {a : α} {u : List Token} (h : p.Reads c s a u) :
    (speculate p).Reads c s (some a) u := by
  unfold Reads speculate
  rw [h]

/-- A name that is a whole template argument is read as a type. -/
theorem templateArg_name (name : t.kind = .identifier) (noWord : t.text ∉ ignoredSpecifiers)
    (plain : t.text ∉ annotationWords) (ends : endsArgument (next c ts) = true) :
    (templateArg (.upTo (n + 1))).Reads c (t :: ts) (.type (.path (.simple t.text))) ts := by
  have type : (Nested.upTo (n + 1)).type.Reads c (t :: ts) (.path (.simple t.text)) ts := by
    change (typeExpr (.upTo n) (specifiers (.upTo n) none)).Reads c (t :: ts) _ ts
    simp only [typeExpr, reads_bind]
    refine ⟨_, ts, specifiers_name name noWord plain ends, .path (.simple t.text), ts, ?_,
      _, ts, declarator_endsArgument ends, ?_⟩
    · exact reads_pure.mpr ⟨rfl, rfl⟩
    · simp [applyOps]
  have whole : (typeArg (.upTo (n + 1))).Reads c (t :: ts) (.path (.simple t.text)) ts := by
    simp only [typeArg, reads_bind, reads_peek]
    refine ⟨_, ts, type, _, ts, ⟨rfl, rfl⟩, ?_⟩
    rcases Bool.or_eq_true_iff.mp ends with h | h <;> simp [h]
  have begins : beginsType t = true := by simp [beginsType, name]
  simp only [templateArg, reads_bind, reads_peek]
  refine ⟨t, t :: ts, ⟨rfl, rfl⟩, ?_⟩
  rw [if_pos begins, reads_bind_of (reads_speculate whole)]
  exact reads_pure.mpr ⟨rfl, rfl⟩

/-- A number that is a whole template argument is kept as text. -/
theorem templateArg_number (number : t.kind = .number) (ends : endsArgument (next c ts) = true) :
    (templateArg (.upTo (n + 1))).Reads c (t :: ts) (.literal t.text) ts := by
  have noType : ¬beginsType t = true := by
    simp [beginsType, Token.is, Token.isKw, number, TokenKind.isPrimitive]
  have behind : tokensUntil [.comma, .greater] 0 ts = [] := by
    cases ts with
    | nil => rfl
    | cons x ts =>
      rcases endsArgument_kind ends with kind | kind <;>
        simp [tokensUntil, Token.isClosing, Token.is, next_cons x ▸ kind]
  have skipped : tokensUntil [.comma, .greater] 0 (t :: ts) = [t] := by
    simp [tokensUntil, depthAfter, Token.isClosing, Token.isOpening, Token.is, number, behind]
  have text : spell [t] = t.text := by simp [spell, String.join]
  simp only [templateArg, reads_bind, reads_peek]
  refine ⟨t, t :: ts, ⟨rfl, rfl⟩, ?_⟩
  rw [if_neg noType]
  have skips : (skipTo [.comma, .greater]).Reads c (t :: ts) [t] ts := by
    simp [skipTo, skipped]
  simp only [reads_bind, reads_pure]
  refine ⟨none, t :: ts, ⟨rfl, rfl⟩, ?_⟩
  simp only [reads_bind]
  exact ⟨[t], ts, skips, reads_pure.mpr ⟨congrArg _ text, rfl⟩⟩

end Reading

end Grammar

/-! ### Resolving -/

namespace Resolution

/-- A name that is found to be a template: the innermost type of that name is one, and stays one whatever
names behind keywords are declared on the way. -/
structure NamesTemplate (items : List Item) (u : NameUse) : Prop where
  free : ownType? u.view u.path = none
  noEnum : u.kind ≠ some .enum
  innermost : ∃ before scope behind kind params view,
    lookupScopes u.view u.path.absolute = before ++ scope :: behind ∧
      (∀ s ∈ before, ¬TypeName items (Name.qualify s u.path.plainName)) ∧
        (Registry.ofVisits (visitAll {} items)).Means (Name.qualify scope u.path.plainName)
          (.template kind params view)

/-- The names that a type cannot be resolved without: its own ones and those of its parts, and behind the
name of a template those of the arguments. -/
inductive Needs (items : List Item) (u : NameUse) : View → TypeExpr → Prop
  | name {v : View} {t : TypeExpr} {kind : Option NamedKind} {p : PathExpr}
      (h : (kind, p) ∈ t.lookups) (same : u = ⟨v, kind, p⟩) : Needs items u v t
  | arg {v : View} {t a : TypeExpr} {kind : Option NamedKind} {p : PathExpr}
      (h : (kind, p) ∈ t.lookups) (template : NamesTemplate items ⟨v, kind, p⟩)
      (ha : a ∈ p.last.types) (within : Needs items u v a) : Needs items u v t
  | part {v v' : View} {t t' : TypeExpr} (h : (v', t') ∈ t.parts v) (within : Needs items u v' t') :
      Needs items u v t

/-- A name that is that of a type as it is looked up from a view: one by itself, that of a library type, or
that of a type in a scope around. -/
inductive NamesType (items : List Item) (v : View) (p : PathExpr) : Prop
  | own (own : (ownType? v p).isSome)
  | library (known : p.plainName ∈ wellKnown)
  | unit {scope : String} (visible : scope ∈ lookupScopes v p.absolute)
      (type : TypeName items (Name.qualify scope p.plainName))

section Names

variable {items : List Item} {u : NameUse} {r : Registry}

/-- The arguments of a template are needed wherever it is. -/
theorem Needs.argument {v : View} {t a : TypeExpr} (needs : Needs items u v t)
    (template : NamesTemplate items u) (ha : a ∈ u.path.last.types) {u' : NameUse}
    (within : Needs items u' u.view a) : Needs items u' v t := by
  induction needs with
  | name h same =>
    subst same
    exact .arg h template ha within
  | arg h template' ha' _ ih => exact .arg h template' ha' ih
  | part h _ ih => exact .part h ih

/-- The first of all meanings is found, if it is that of a template, whatever is being resolved. -/
theorem find?_template {resolving : List String} {kind : Option NamedKind} {q : String}
    {record : RecordKind} {params : List (TemplateParam TypeExpr)} {view : View} {ms : List Meaning}
    (noEnum : kind ≠ some .enum)
    (first : (r.meanings.get? q).getD [] = .template record params view :: ms) :
    r.find? resolving kind q = some (.template record params view) := by
  have fits : (Meaning.template record params view).fits kind = true := by
    cases kind with
    | none => rfl
    | some kind =>
      have other : kind ≠ .enum := fun same => noEnum (congrArg some same)
      simp [Meaning.fits, other]
  unfold Registry.find?
  rw [first]
  dsimp only
  rw [List.find?_cons_of_pos]
  · rfl
  · simp [fits, Meaning.isTypedef]

theorem meanings_of_means {q : String} {m : Meaning} (means : r.Means q m) :
    ∃ ms, (r.meanings.get? q).getD [] = m :: ms := by
  unfold Registry.Means Registry.find? at means
  cases found : (r.meanings.get? q).getD [] with
  | nil =>
    rw [found] at means
    cases means
  | cons m' ms =>
    rw [found] at means
    have first : some m' = some m := means
    cases first
    exact ⟨ms, rfl⟩

/-- The name of a template is found to be one at any time. -/
theorem NamesTemplate.findIn (h : NamesTemplate items u)
    (hr : (Registry.ofVisits (visitAll {} items)).GrownBy (TypeName items) r) (resolving : List String) :
    ∃ q kind params view, Resolution.findIn r resolving u.kind u.path.plainName
      (lookupScopes u.view u.path.absolute) = some (q, .template kind params view) := by
  obtain ⟨before, scope, behind, kind, params, view, scopes, others, means⟩ := h.innermost
  obtain ⟨ms, first⟩ := meanings_of_means means
  obtain ⟨more, same, -⟩ := hr.meanings (Name.qualify scope u.path.plainName)
  rw [first, List.cons_append] at same
  refine ⟨Name.qualify scope u.path.plainName, kind, params, view, ?_⟩
  rw [scopes]
  refine findIn_of_innermost (fun s mem => ?_) (find?_template h.noEnum same)
  refine Registry.find?_of_unknown (fun known => others s mem ?_) _ _
  exact hr.typeName known

theorem NamesTemplate.looked {site : Site} {s s' : State} {f : Found} (h : NamesTemplate items u)
    (view : site.view = u.view)
    (hs : (Registry.ofVisits (visitAll {} items)).GrownBy (TypeName items) s.registry)
    (looked : Looked site u.kind u.path s f s') :
    s' = s ∧ ∃ q kind params view, f = .meaning q (.template kind params view) := by
  obtain ⟨q, kind, params, v, found⟩ := h.findIn hs site.resolving
  have free := h.free
  rw [← view] at found free
  cases looked with
  | own own =>
    rw [free] at own
    cases own
  | meaning _ known =>
    rw [found] at known
    cases known
    exact ⟨rfl, q, kind, params, v, rfl⟩
  | library _ unfound _ | implied _ unfound _ =>
    rw [found] at unfound
    cases unfound

/-- A name without a keyword is looked up with success only if it is that of a type. -/
theorem namesType_of_looked {site : Site} {p : PathExpr} {s s' : State} {f : Found}
    (hs : (Registry.ofVisits (visitAll {} items)).GrownBy (TypeName items) s.registry)
    (looked : Looked site none p s f s') : NamesType items site.view p := by
  cases looked with
  | own own => exact .own (Option.isSome_of_eq_some own)
  | meaning _ found =>
    obtain ⟨scope, visible, rfl⟩ := exists_scope_of_findIn found
    exact .unit visible (hs.typeName (Registry.knows_of_find (find?_of_findIn found)))
  | library _ _ known => exact .library known
  | implied _ _ _ behind => cases behind

/-! ### Units -/

section Units

variable {fuel : Nat} {v : View} {t : TypeExpr}

/-- A type is not resolved before the names that it needs are looked up with success. -/
theorem looked_of_needs (needs : Needs items u v t) (names : LooksUpOnly (WrittenIn items) v t)
    (succeeds : Succeeds (TypeName items) (Registry.ofVisits (visitAll {} items)) (v, t)) :
    ∃ site s f s', site.view = u.view ∧
      (Registry.ofVisits (visitAll {} items)).GrownBy (TypeName items) s.registry ∧
        Looked site u.kind u.path s f s' := by
  have supplies := supplies_writtenIn items
  -- What a type is looked up by is resolved with it.
  have named {v : View} {t : TypeExpr} {kind : Option NamedKind} {p : PathExpr}
      (h : (kind, p) ∈ t.lookups) (names : LooksUpOnly (WrittenIn items) v t)
      (succeeds : Succeeds (TypeName items) (Registry.ofVisits (visitAll {} items)) (v, t)) :
      ∃ fuel site s f u a s', site.view = v ∧
        (Registry.ofVisits (visitAll {} items)).GrownBy (TypeName items) s.registry ∧
          Looked site kind p s f u ∧
            resolveFound (jumpWithin fuel) site p.last.args f u = (.ok a, s') := by
    obtain ⟨fuel, site, s, a, s', rfl, hs, run⟩ := succeeds
    obtain ⟨-, resolved⟩ := requires_parts (resolving_grown supplies fuel) names s a s' hs run
    obtain ⟨fuel, site', s, a, s', same, hs, run⟩ :=
      resolved _ (List.mem_append_right _ (List.mem_map_of_mem h))
    rw [resolveType_named, resolvePath_eq] at run
    obtain ⟨f, u, looked, rest⟩ := bind_eq_ok run
    exact ⟨fuel, site', s, f, u, a, s', same, hs, looked_of_run looked, rest⟩
  induction needs with
  | name h same =>
    subst same
    obtain ⟨fuel, site, s, f, u, a, s', same, hs, looked, -⟩ := named h names succeeds
    exact ⟨site, s, f, u, same, hs, looked⟩
  | @arg v t b kind p h template ha within ih =>
    refine ih (names.arg h b ha) ?_
    obtain ⟨fuel, site, s, f, u, a, s', rfl, hs, looked, rest⟩ := named h names succeeds
    obtain ⟨rfl, q, record, params, view, rfl⟩ := template.looked rfl hs looked
    obtain ⟨absolute, scope, ⟨last, _ | args⟩⟩ := p
    · cases ha
    · obtain ⟨as, w, arguments, -⟩ := bind_eq_ok rest
      exact (requires_resolveArgs (resolving_grown supplies fuel) args (names.arg h) _ as w hs arguments).2 _
        (List.mem_map_of_mem ha)
  | @part v v' t t' h within ih =>
    refine ih (names.part h) ?_
    obtain ⟨fuel, site, s, a, s', rfl, hs, run⟩ := succeeds
    exact (requires_parts (resolving_grown supplies fuel) names s a s' hs run).2 _ (List.mem_append_left _ h)

/-- A unit resolves only if every name that is an argument of a template in it is that of a type. -/
theorem namesType_of_argument {constants : List MacroConstant} {config : Config}
    (ok : ∃ m, (resolve items constants config).1 = .ok m) {x : View × ParsedDecl}
    (hx : x ∈ declarations items) {y : View × TypeExpr} (part : y ∈ x.2.parts x.1)
    (needs : Needs items u y.1 y.2) (template : NamesTemplate items u) {p : PathExpr}
    (argument : .path p ∈ u.path.last.types) : NamesType items u.view p := by
  have needs := needs.argument template argument (.name List.mem_cons_self rfl)
  obtain ⟨site, s, f, s', view, hs, looked⟩ :=
    looked_of_needs needs (looksUpOnly_writtenIn hx part) (succeeds_of_part ok hx part)
  exact view ▸ namesType_of_looked hs looked

end Units

end Names

/-- A unit resolves only if every name that is a whole argument of a template in it is that of a type: of
a template parameter, a library type or a type of the unit in a scope around. It is read as a type, whatever
is declared under it, where a number in its place is kept as text: the name of a variable or an enumerator
is not kept so, but lets the unit fail. -/
theorem name_argument_names_type {items : List Item} {constants : List MacroConstant} {config : Config}
    (ok : ∃ m, (resolve items constants config).1 = .ok m) {x : View × ParsedDecl}
    (hx : x ∈ declarations items) {y : View × TypeExpr} (part : y ∈ x.2.parts x.1) {u : NameUse}
    (needs : Needs items u y.1 y.2) (template : NamesTemplate items u) {args : List ArgExpr}
    (written : u.path.last.args = some args) {n : Nat} {c : Grammar.Context} {t : Token}
    {ts rest : List Token} {a : ArgExpr} (name : t.kind = .identifier)
    (noWord : t.text ∉ Grammar.ignoredSpecifiers ++ Grammar.annotationWords)
    (alone : Grammar.endsArgument (Grammar.Parser.next c ts))
    (read : (Grammar.templateArg (.upTo (n + 1))).Reads c (t :: ts) a rest) (argument : a ∈ args) :
    a = .type (.path (.simple t.text)) ∧
      (∀ l : Token, l.kind = .number →
        (Grammar.templateArg (.upTo (n + 1))).Reads c (l :: ts) (.literal l.text) ts) ∧
      (t.text ∈ u.view.params ∨ t.text ∈ wellKnown ∨
        ∃ scope ∈ Name.enclosing u.view.scope, TypeName items (Name.qualify scope t.text)) := by
  rw [List.mem_append, not_or] at noWord
  obtain ⟨rfl, -⟩ := read.unique (Grammar.templateArg_name name noWord.1 noWord.2 alone)
  refine ⟨rfl, fun l number => Grammar.templateArg_number number alone, ?_⟩
  have mem : .path (.simple t.text) ∈ u.path.last.types := by
    rw [NameSegment.types, written]
    exact List.mem_flatMap.mpr ⟨_, argument, List.mem_cons_self⟩
  cases namesType_of_argument ok hx part needs template mem with
  | own own =>
    refine .inl ?_
    by_contra other
    simp [ownType?, NamePath.simple, NamePath.first, other] at own
  | library known => exact .inr (.inl known)
  | unit visible type => exact .inr (.inr ⟨_, visible, type⟩)

/-! ### An argument that is declared as a type or as a constant -/

/-- The tokens of `template <int M> struct A { };`, of a declaration, and of `A< … > x;`. -/
def argumentTokens (declared : List Token) (arg : Token) : List Token :=
  [.synthetic (.kw .template) "template", .synthetic (.punct .less) "<", .synthetic (.kw .int) "int",
    .synthetic .identifier "M", .synthetic (.punct .greater) ">", .synthetic (.kw .struct) "struct",
    .synthetic .identifier "A", .synthetic (.punct .lbrace) "\x7b", .synthetic (.punct .rbrace) "\x7d",
    .synthetic (.punct .semicolon) ";"] ++ declared ++
    [.synthetic .identifier "A", .synthetic (.punct .less) "<", arg, .synthetic (.punct .greater) ">",
      .synthetic .identifier "x", .synthetic (.punct .semicolon) ";"]

/-- The tokens of `struct N;`. -/
def recordN : List Token :=
  [.synthetic (.kw .struct) "struct", .synthetic .identifier "N", .synthetic (.punct .semicolon) ";"]

/-- The tokens of `const int N = 3;`. -/
def constantN : List Token :=
  [.synthetic (.kw .const) "const", .synthetic (.kw .int) "int", .synthetic .identifier "N",
    .synthetic (.punct .eq) "=", .synthetic .number "3", .synthetic (.punct .semicolon) ";"]

def nameN : Token := .synthetic .identifier "N"

def numberThree : Token := .synthetic .number "3"

/-- The name `A<N>`. -/
def nameOfA : PathExpr := ⟨false, [], ⟨"A", some [.type (.path (.simple "N"))]⟩⟩

/-- The variable `x`, whose type is `A<N>`. -/
def declarationOfX : ParsedDecl := .var ⟨"x", .path nameOfA, false, false⟩

/-- The items of the unit in which `N` is a struct. -/
def itemsOfA : List Item :=
  [.decl (.template ⟨[⟨some "M", .nonType (.primitive .int) none, false⟩],
      ⟨some "A", .struct, [], [], [], true, false⟩⟩) [] .synthetic,
    .decl (.record (.forward "N" .struct)) [] .synthetic, .decl declarationOfX [] .synthetic]

theorem namesTemplate_nameOfA : NamesTemplate itemsOfA ⟨{}, none, nameOfA⟩ where
  free := rfl
  noEnum := by decide
  innermost := by
    have scopes : lookupScopes {} false = [] ++ "" :: [] := by decide +kernel
    exact ⟨[], "", [], .struct, _, {}, scopes, by simp, rfl⟩

theorem name_argument_names_type_record :
    (parseUnit (argumentTokens recordN nameN)).1 = itemsOfA ∧
      (∃ m, (resolve itemsOfA [] {}).1 = .ok m) ∧ ⟨{}, declarationOfX⟩ ∈ declarations itemsOfA ∧
      Needs itemsOfA ⟨{}, none, nameOfA⟩ {} (.path nameOfA) ∧
      NamesTemplate itemsOfA ⟨{}, none, nameOfA⟩ ∧
      ∃ scope ∈ Name.enclosing "", TypeName itemsOfA (Name.qualify scope "N") := by
  have items : (parseUnit (argumentTokens recordN nameN)).1 = itemsOfA := by cbv
  have ok : ∃ m, (resolve itemsOfA [] {}).1 = .ok m := by
    have fine : (resolve itemsOfA [] {}).1.toBool = true := by decide +kernel
    cases run : (resolve itemsOfA [] {}).1 with
    | error e =>
      rw [run] at fine
      cases fine
    | ok m => exact ⟨m, rfl⟩
  have declared : ⟨{}, declarationOfX⟩ ∈ declarations itemsOfA := .tail _ (.tail _ (.head _))
  have needs : Needs itemsOfA ⟨{}, none, nameOfA⟩ {} (.path nameOfA) := .name List.mem_cons_self rfl
  refine ⟨items, ok, declared, needs, namesTemplate_nameOfA, ?_⟩
  have part : ⟨{}, .path nameOfA⟩ ∈ declarationOfX.parts {} := List.mem_cons_self
  have ends : Grammar.endsArgument (Grammar.Parser.next { eof := .eofAt .synthetic }
      [.synthetic (.punct .greater) ">"]) = true := rfl
  have read := Grammar.templateArg_name (n := 0) (t := nameN) rfl (by decide) (by decide) ends
  obtain ⟨-, -, params | known | type⟩ := name_argument_names_type ok declared part needs
    namesTemplate_nameOfA rfl rfl (by decide) ends read List.mem_cons_self
  · cases params
  · exact absurd known (by decide)
  · exact type

/-- Why there is no result. -/
def failure? {α : Type} : Except FatalError α → Option FatalCause
  | .ok _ => none
  | .error e => some e.cause

/-- Behind the declaration of a constant a number is kept as an argument, and the name of the constant lets
the unit fail. -/
theorem constant_argument_fails :
    (∃ m s, (resolve (parseUnit (argumentTokens constantN numberThree)).1 [] {}).1 = .ok m ∧
      m.scope? "" = some s ∧
      .var ⟨"N", .qualified ⟨true, false⟩ (.primitive .int), false, false⟩ ∈ s.entries.map (·.decl) ∧
      .var ⟨"x", .instantiation ⟨"A", [.literal "3"], none⟩, false, false⟩ ∈ s.entries.map (·.decl)) ∧
    failure? (resolve (parseUnit (argumentTokens constantN nameN)).1 [] {}).1 =
      some (.unresolvedType "N") := by
  have kept : ((resolve (parseUnit (argumentTokens constantN numberThree)).1 [] {}).1.toOption.bind
      fun m => (m.scope? "").map (·.entries.map (·.decl))).any fun ds =>
        .var ⟨"N", .qualified ⟨true, false⟩ (.primitive .int), false, false⟩ ∈ ds ∧
          .var ⟨"x", .instantiation ⟨"A", [.literal "3"], none⟩, false, false⟩ ∈ ds := by
    decide +kernel
  refine ⟨?_, by decide +kernel⟩
  cases run : (resolve (parseUnit (argumentTokens constantN numberThree)).1 [] {}).1 with
  | error e =>
    rw [run] at kept
    cases kept
  | ok m =>
    rw [run] at kept
    obtain ⟨decls, found, mem⟩ := (Option.any_eq_true _ _).mp kept
    obtain ⟨s, scope, rfl⟩ := Option.map_eq_some_iff.mp found
    exact ⟨m, s, rfl, scope, of_decide_eq_true mem⟩

end Resolution

end HeaderDecl
