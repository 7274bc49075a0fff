import HeaderDecl.Decl.TypeRef

/-!
Resolved types without the names of parameters. A type without them, together with the list of the names
that were taken out, determines the type; the text of a type does not tell them.
-/

namespace HeaderDecl.TypeRef

/-! ### Taking names out -/

mutual

/-- A type without the names of the parameters of all functions in it. -/
def nameless : TypeRef → TypeRef
  | .primitive p => .primitive p
  | .builtin n => .builtin n
  | .named n k => .named n k
  | .typedef n t => .typedef n t.nameless
  | .param n => .param n
  | .dependent n => .dependent n
  | .pointer t => .pointer t.nameless
  | .reference t => .reference t.nameless
  | .rvalueReference t => .rvalueReference t.nameless
  | .array t size => .array t.nameless size
  | .functionPointer s => .functionPointer (namelessSignature s)
  | .function s => .function (namelessSignature s)
  | .instantiation i => .instantiation (namelessInstantiation i)
  | .qualified q t => .qualified q t.nameless
  | .anonymousRecord r => .anonymousRecord (namelessRecord r)
  | .anonymousEnum e => .anonymousEnum (namelessEnum e)

def namelessInstantiation : Instantiation TypeRef → Instantiation TypeRef
  | ⟨n, as, sp⟩ => ⟨n, namelessArgs as, namelessArgs? sp⟩

def namelessEnum : EnumDecl TypeRef → EnumDecl TypeRef
  | ⟨n, s, t, ms, c, d⟩ => ⟨n, s, t.nameless, ms, c, d⟩

def nameless? : Option TypeRef → Option TypeRef
  | none => none
  | some t => some t.nameless

def namelessArg : ArgRef → ArgRef
  | .type t => .type t.nameless
  | .literal s => .literal s

def namelessArgs : List ArgRef → List ArgRef
  | [] => []
  | a :: as => namelessArg a :: namelessArgs as

def namelessArgs? : Option (List ArgRef) → Option (List ArgRef)
  | none => none
  | some as => some (namelessArgs as)

def namelessParams : List (Parameter TypeRef) → List (Parameter TypeRef)
  | [] => []
  | ⟨_, t, d⟩ :: ps => ⟨none, t.nameless, d⟩ :: namelessParams ps

def namelessSignature : Signature TypeRef → Signature TypeRef
  | ⟨t, ps, v⟩ => ⟨t.nameless, namelessParams ps, v⟩

def namelessKind : TemplateParamKind TypeRef → TemplateParamKind TypeRef
  | .type d => .type (nameless? d)
  | .nonType t d => .nonType t.nameless d
  | .template d => .template d

def namelessTemplateParams : List (TemplateParam TypeRef) → List (TemplateParam TypeRef)
  | [] => []
  | ⟨n, k, p⟩ :: ps => ⟨n, namelessKind k, p⟩ :: namelessTemplateParams ps

def namelessFunction : FunctionDecl TypeRef → FunctionDecl TypeRef
  | ⟨n, k, s, q, a, ps, c⟩ => ⟨n, k, namelessSignature s, q, a, namelessTemplateParams ps, c⟩

def namelessFunctions : List (FunctionDecl TypeRef) → List (FunctionDecl TypeRef)
  | [] => []
  | f :: fs => namelessFunction f :: namelessFunctions fs

def namelessFields : List (Field TypeRef) → List (Field TypeRef)
  | [] => []
  | ⟨n, t, w, a, o, s⟩ :: fs => ⟨n, t.nameless, w, a, o, s⟩ :: namelessFields fs

def namelessRecord : ResolvedRecord → ResolvedRecord
  | ⟨n, k, fs, ms, bs, c, d⟩ => ⟨n, k, namelessFields fs, namelessFunctions ms, bs, c, d⟩

end

@[simp] theorem namelessRecord_name (r : ResolvedRecord) : (namelessRecord r).name = r.name := by
  cases r; rfl

@[simp] theorem namelessRecord_complete (r : ResolvedRecord) :
    (namelessRecord r).complete = r.complete := by
  cases r; rfl

@[simp] theorem namelessEnum_name (e : EnumDecl TypeRef) : (namelessEnum e).name = e.name := by
  cases e; rfl

@[simp] theorem namelessEnum_members (e : EnumDecl TypeRef) :
    (namelessEnum e).members = e.members := by
  cases e; rfl

@[simp] theorem namelessEnum_complete (e : EnumDecl TypeRef) :
    (namelessEnum e).complete = e.complete := by
  cases e; rfl

@[simp] theorem namelessFunction_name (f : FunctionDecl TypeRef) :
    (namelessFunction f).name = f.name := by
  cases f; rfl

/-! ### The names taken out -/

mutual

/-- The names of the parameters of all functions in a type, in order. -/
def paramNames : TypeRef → List (Option String)
  | .primitive _ | .builtin _ | .named _ _ | .param _ | .dependent _ => []
  | .typedef _ t | .pointer t | .reference t | .rvalueReference t | .array t _ | .qualified _ t =>
    t.paramNames
  | .functionPointer s | .function s => signatureNames s
  | .instantiation i => instantiationNames i
  | .anonymousRecord r => recordNames r
  | .anonymousEnum e => enumNames e

def instantiationNames : Instantiation TypeRef → List (Option String)
  | ⟨_, as, sp⟩ => argsNames as ++ args?Names sp

def enumNames : EnumDecl TypeRef → List (Option String)
  | ⟨_, _, t, _, _, _⟩ => t.paramNames

def paramNames? : Option TypeRef → List (Option String)
  | none => []
  | some t => t.paramNames

def argNames : ArgRef → List (Option String)
  | .type t => t.paramNames
  | .literal _ => []

def argsNames : List ArgRef → List (Option String)
  | [] => []
  | a :: as => argNames a ++ argsNames as

def args?Names : Option (List ArgRef) → List (Option String)
  | none => []
  | some as => argsNames as

def paramsNames : List (Parameter TypeRef) → List (Option String)
  | [] => []
  | ⟨n, t, _⟩ :: ps => n :: (t.paramNames ++ paramsNames ps)

def signatureNames : Signature TypeRef → List (Option String)
  | ⟨t, ps, _⟩ => t.paramNames ++ paramsNames ps

def kindNames : TemplateParamKind TypeRef → List (Option String)
  | .type d => paramNames? d
  | .nonType t _ => t.paramNames
  | .template _ => []

def templateParamsNames : List (TemplateParam TypeRef) → List (Option String)
  | [] => []
  | ⟨_, k, _⟩ :: ps => kindNames k ++ templateParamsNames ps

def functionNames : FunctionDecl TypeRef → List (Option String)
  | ⟨_, _, s, _, _, ps, _⟩ => signatureNames s ++ templateParamsNames ps

def functionsNames : List (FunctionDecl TypeRef) → List (Option String)
  | [] => []
  | f :: fs => functionNames f ++ functionsNames fs

def fieldsNames : List (Field TypeRef) → List (Option String)
  | [] => []
  | ⟨_, t, _, _, _, _⟩ :: fs => t.paramNames ++ fieldsNames fs

def recordNames : ResolvedRecord → List (Option String)
  | ⟨_, _, fs, ms, _, _, _⟩ => fieldsNames fs ++ functionsNames ms

end

/-! ### Texts -/

theorem namelessParams_isEmpty : ∀ ps : List (Parameter TypeRef), (namelessParams ps).isEmpty = ps.isEmpty
  | [] => rfl
  | ⟨_, _, _⟩ :: _ => rfl

mutual

/-- A type is written without the names of parameters. -/
theorem render_nameless : ∀ t : TypeRef, t.nameless.render = t.render
  | .primitive _ | .builtin _ | .named _ _ | .param _ | .dependent _ | .typedef _ _
  | .anonymousRecord ⟨_, _, _, _, _, _, _⟩ | .anonymousEnum _ => rfl
  | .pointer t | .reference t | .rvalueReference t | .array t (some _) | .array t none
  | .qualified _ t => by
    simp only [nameless, render, render_nameless t]
  | .functionPointer ⟨t, ps, _⟩ | .function ⟨t, ps, _⟩ => by
    simp only [nameless, namelessSignature, render, render_nameless t, renderParams_nameless ps,
      namelessParams_isEmpty]
  | .instantiation ⟨_, as, _⟩ => by
    simp only [nameless, namelessInstantiation, render, renderArgs_nameless as]

theorem renderArgs_nameless : ∀ as : List ArgRef, renderArgs (namelessArgs as) = renderArgs as
  | [] => rfl
  | [a] => renderArg_nameless a
  | a :: b :: as => by
    have rest := renderArgs_nameless (b :: as)
    simp only [namelessArgs] at rest ⊢
    simp only [renderArgs, renderArg_nameless a, rest]

theorem renderArg_nameless : ∀ a : ArgRef, renderArg (namelessArg a) = renderArg a
  | .type t => render_nameless t
  | .literal _ => rfl

theorem renderParams_nameless :
    ∀ ps : List (Parameter TypeRef), renderParams (namelessParams ps) = renderParams ps
  | [] => rfl
  | [⟨_, t, _⟩] => render_nameless t
  | ⟨_, t, _⟩ :: ⟨m, u, d⟩ :: ps => by
    have rest := renderParams_nameless (⟨m, u, d⟩ :: ps)
    simp only [namelessParams] at rest ⊢
    simp only [renderParams, render_nameless t, rest]

end

/-! ### What determines a type -/

/-- Whether something is told by what is left of it and by the names taken out of it, whatever names come
behind. -/
def Told {α : Type} (strip : α → α) (names : α → List (Option String)) (x : α) : Prop :=
  ∀ y rest rest', strip x = strip y → names x ++ rest = names y ++ rest' → x = y ∧ rest = rest'

mutual

theorem told : ∀ t : TypeRef, Told nameless paramNames t
  | .primitive _, t', _, _, h, n | .builtin _, t', _, _, h, n | .named _ _, t', _, _, h, n
  | .param _, t', _, _, h, n | .dependent _, t', _, _, h, n => by
    cases t' <;> simp only [nameless, reduceCtorEq] at h
    exact ⟨h, n⟩
  | .pointer t, t', _, _, h, n | .reference t, t', _, _, h, n | .rvalueReference t, t', _, _, h, n => by
    cases t' <;> simp only [nameless, pointer.injEq, reference.injEq, rvalueReference.injEq,
      reduceCtorEq] at h
    obtain ⟨rfl, rfl⟩ := told t _ _ _ h n
    exact ⟨rfl, rfl⟩
  | .typedef _ t, t', _, _, h, n => by
    cases t' <;> simp only [nameless, typedef.injEq, reduceCtorEq] at h
    obtain ⟨rfl, rfl⟩ := told t _ _ _ h.2 n
    exact ⟨by rw [h.1], rfl⟩
  | .array t _, t', _, _, h, n => by
    cases t' <;> simp only [nameless, array.injEq, reduceCtorEq] at h
    obtain ⟨rfl, rfl⟩ := told t _ _ _ h.1 n
    exact ⟨by rw [h.2], rfl⟩
  | .qualified _ t, t', _, _, h, n => by
    cases t' <;> simp only [nameless, qualified.injEq, reduceCtorEq] at h
    obtain ⟨rfl, rfl⟩ := told t _ _ _ h.2 n
    exact ⟨by rw [h.1], rfl⟩
  | .functionPointer s, t', _, _, h, n | .function s, t', _, _, h, n => by
    cases t' <;> simp only [nameless, functionPointer.injEq, function.injEq, reduceCtorEq] at h
    obtain ⟨rfl, rfl⟩ := toldSignature s _ _ _ h n
    exact ⟨rfl, rfl⟩
  | .instantiation i, t', _, _, h, n => by
    cases t' <;> simp only [nameless, instantiation.injEq, reduceCtorEq] at h
    obtain ⟨rfl, rfl⟩ := toldInstantiation i _ _ _ h n
    exact ⟨rfl, rfl⟩
  | .anonymousRecord r, t', _, _, h, n => by
    cases t' <;> simp only [nameless, anonymousRecord.injEq, reduceCtorEq] at h
    obtain ⟨rfl, rfl⟩ := toldRecord r _ _ _ h n
    exact ⟨rfl, rfl⟩
  | .anonymousEnum e, t', _, _, h, n => by
    cases t' <;> simp only [nameless, anonymousEnum.injEq, reduceCtorEq] at h
    obtain ⟨rfl, rfl⟩ := toldEnum e _ _ _ h n
    exact ⟨rfl, rfl⟩

theorem toldInstantiation :
    ∀ i : Instantiation TypeRef, Told namelessInstantiation instantiationNames i
  | ⟨_, as, sp⟩, ⟨_, _, _⟩, _, _, h, n => by
    simp only [namelessInstantiation, Instantiation.mk.injEq] at h
    simp only [instantiationNames, List.append_assoc] at n
    obtain ⟨rfl, behind⟩ := toldArgs as _ _ _ h.2.1 n
    obtain ⟨rfl, rfl⟩ := toldArgs? sp _ _ _ h.2.2 behind
    exact ⟨by rw [h.1], rfl⟩

theorem toldEnum : ∀ e : EnumDecl TypeRef, Told namelessEnum enumNames e
  | ⟨_, _, t, _, _, _⟩, ⟨_, _, _, _, _, _⟩, _, _, h, n => by
    simp only [namelessEnum, EnumDecl.mk.injEq] at h
    obtain ⟨rfl, rfl⟩ := told t _ _ _ h.2.2.1 n
    simp [h]

theorem told? : ∀ t : Option TypeRef, Told nameless? paramNames? t
  | none, t', _, _, h, n => by
    cases t' <;> simp only [nameless?, reduceCtorEq] at h
    exact ⟨rfl, n⟩
  | some t, t', _, _, h, n => by
    cases t' <;> simp only [nameless?, Option.some.injEq, reduceCtorEq] at h
    obtain ⟨rfl, rfl⟩ := told t _ _ _ h n
    exact ⟨rfl, rfl⟩

theorem toldArg : ∀ a : ArgRef, Told namelessArg argNames a
  | .type t, a', _, _, h, n => by
    cases a' <;> simp only [namelessArg, TemplateArg.type.injEq, reduceCtorEq] at h
    obtain ⟨rfl, rfl⟩ := told t _ _ _ h n
    exact ⟨rfl, rfl⟩
  | .literal _, a', _, _, h, n => by
    cases a' <;> simp only [namelessArg, reduceCtorEq] at h
    exact ⟨h, n⟩

theorem toldArgs : ∀ as : List ArgRef, Told namelessArgs argsNames as
  | [], as', _, _, h, n => by
    cases as' <;> simp only [namelessArgs, reduceCtorEq] at h
    exact ⟨rfl, n⟩
  | a :: as, as', _, _, h, n => by
    cases as' <;> simp only [namelessArgs, List.cons.injEq, reduceCtorEq] at h
    simp only [argsNames, List.append_assoc] at n
    obtain ⟨rfl, behind⟩ := toldArg a _ _ _ h.1 n
    obtain ⟨rfl, rfl⟩ := toldArgs as _ _ _ h.2 behind
    exact ⟨rfl, rfl⟩

theorem toldArgs? : ∀ as : Option (List ArgRef), Told namelessArgs? args?Names as
  | none, as', _, _, h, n => by
    cases as' <;> simp only [namelessArgs?, reduceCtorEq] at h
    exact ⟨rfl, n⟩
  | some as, as', _, _, h, n => by
    cases as' <;> simp only [namelessArgs?, Option.some.injEq, reduceCtorEq] at h
    obtain ⟨rfl, rfl⟩ := toldArgs as _ _ _ h n
    exact ⟨rfl, rfl⟩

theorem toldParams : ∀ ps : List (Parameter TypeRef), Told namelessParams paramsNames ps
  | [], ps', _, _, h, n => by
    cases ps' <;> simp only [namelessParams, reduceCtorEq] at h
    exact ⟨rfl, n⟩
  | ⟨_, _, _⟩ :: _, [], _, _, h, _ => by simp only [namelessParams, reduceCtorEq] at h
  | ⟨_, t, _⟩ :: ps, ⟨_, _, _⟩ :: _, _, _, h, n => by
    simp only [namelessParams, List.cons.injEq, Parameter.mk.injEq] at h
    simp only [paramsNames, List.cons_append, List.append_assoc, List.cons.injEq] at n
    obtain ⟨rfl, behind⟩ := told t _ _ _ h.1.2.1 n.2
    obtain ⟨rfl, rfl⟩ := toldParams ps _ _ _ h.2 behind
    exact ⟨by rw [n.1, h.1.2.2], rfl⟩

theorem toldSignature : ∀ s : Signature TypeRef, Told namelessSignature signatureNames s
  | ⟨t, ps, _⟩, ⟨_, _, _⟩, _, _, h, n => by
    simp only [namelessSignature, Signature.mk.injEq] at h
    simp only [signatureNames, List.append_assoc] at n
    obtain ⟨rfl, behind⟩ := told t _ _ _ h.1 n
    obtain ⟨rfl, rfl⟩ := toldParams ps _ _ _ h.2.1 behind
    exact ⟨by rw [h.2.2], rfl⟩

theorem toldKind : ∀ k : TemplateParamKind TypeRef, Told namelessKind kindNames k
  | .type d, k', _, _, h, n => by
    cases k' <;> simp only [namelessKind, TemplateParamKind.type.injEq, reduceCtorEq] at h
    obtain ⟨rfl, rfl⟩ := told? d _ _ _ h n
    exact ⟨rfl, rfl⟩
  | .nonType t _, k', _, _, h, n => by
    cases k' <;> simp only [namelessKind, TemplateParamKind.nonType.injEq, reduceCtorEq] at h
    obtain ⟨rfl, rfl⟩ := told t _ _ _ h.1 n
    exact ⟨by rw [h.2], rfl⟩
  | .template _, k', _, _, h, n => by
    cases k' <;> simp only [namelessKind, reduceCtorEq] at h
    exact ⟨h, n⟩

theorem toldTemplateParams :
    ∀ ps : List (TemplateParam TypeRef), Told namelessTemplateParams templateParamsNames ps
  | [], ps', _, _, h, n => by
    cases ps' <;> simp only [namelessTemplateParams, reduceCtorEq] at h
    exact ⟨rfl, n⟩
  | ⟨_, _, _⟩ :: _, [], _, _, h, _ => by simp only [namelessTemplateParams, reduceCtorEq] at h
  | ⟨_, k, _⟩ :: ps, ⟨_, _, _⟩ :: _, _, _, h, n => by
    simp only [namelessTemplateParams, List.cons.injEq, TemplateParam.mk.injEq] at h
    simp only [templateParamsNames, List.append_assoc] at n
    obtain ⟨rfl, behind⟩ := toldKind k _ _ _ h.1.2.1 n
    obtain ⟨rfl, rfl⟩ := toldTemplateParams ps _ _ _ h.2 behind
    exact ⟨by rw [h.1.1, h.1.2.2], rfl⟩

theorem toldFunction : ∀ f : FunctionDecl TypeRef, Told namelessFunction functionNames f
  | ⟨_, _, s, _, _, ps, _⟩, ⟨_, _, _, _, _, _, _⟩, _, _, h, n => by
    simp only [namelessFunction, FunctionDecl.mk.injEq] at h
    simp only [functionNames, List.append_assoc] at n
    obtain ⟨rfl, behind⟩ := toldSignature s _ _ _ h.2.2.1 n
    obtain ⟨rfl, rfl⟩ := toldTemplateParams ps _ _ _ h.2.2.2.2.2.1 behind
    simp [h]

theorem toldFunctions : ∀ fs : List (FunctionDecl TypeRef), Told namelessFunctions functionsNames fs
  | [], fs', _, _, h, n => by
    cases fs' <;> simp only [namelessFunctions, reduceCtorEq] at h
    exact ⟨rfl, n⟩
  | f :: fs, fs', _, _, h, n => by
    cases fs' <;> simp only [namelessFunctions, List.cons.injEq, reduceCtorEq] at h
    simp only [functionsNames, List.append_assoc] at n
    obtain ⟨rfl, behind⟩ := toldFunction f _ _ _ h.1 n
    obtain ⟨rfl, rfl⟩ := toldFunctions fs _ _ _ h.2 behind
    exact ⟨rfl, rfl⟩

theorem toldFields : ∀ fs : List (Field TypeRef), Told namelessFields fieldsNames fs
  | [], fs', _, _, h, n => by
    cases fs' <;> simp only [namelessFields, reduceCtorEq] at h
    exact ⟨rfl, n⟩
  | ⟨_, _, _, _, _, _⟩ :: _, [], _, _, h, _ => by simp only [namelessFields, reduceCtorEq] at h
  | ⟨_, t, _, _, _, _⟩ :: fs, ⟨_, _, _, _, _, _⟩ :: _, _, _, h, n => by
    simp only [namelessFields, List.cons.injEq, Field.mk.injEq] at h
    simp only [fieldsNames, List.append_assoc] at n
    obtain ⟨rfl, behind⟩ := told t _ _ _ h.1.2.1 n
    obtain ⟨rfl, rfl⟩ := toldFields fs _ _ _ h.2 behind
    simp [h]

theorem toldRecord : ∀ r : ResolvedRecord, Told namelessRecord recordNames r
  | ⟨_, _, fs, ms, _, _, _⟩, ⟨_, _, _, _, _, _, _⟩, _, _, h, n => by
    simp only [namelessRecord, RecordDecl.mk.injEq] at h
    simp only [recordNames, List.append_assoc] at n
    obtain ⟨rfl, behind⟩ := toldFields fs _ _ _ h.2.2.1 n
    obtain ⟨rfl, rfl⟩ := toldFunctions ms _ _ _ h.2.2.2.1 behind
    simp [h]

end

end HeaderDecl.TypeRef
