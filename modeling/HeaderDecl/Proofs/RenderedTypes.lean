import HeaderDecl.Proofs.TypeReadings

/-!
Resolved types as their text tells them. Two types are written alike if and only if they have one
reading.
-/

namespace HeaderDecl

open Text

namespace Reading

/-- A reading with further qualifiers, which go to the word that it begins with. -/
def qualify (words : List Qualifier) : Reading → Reading
  | .word front spelling => .word (words ++ front) spelling
  | .instantiation front template args => .instantiation (words ++ front) template args
  | .signed r sign => .signed (r.qualify words) sign
  | .array r size => .array (r.qualify words) size
  | .function pointed result params variadic =>
    .function pointed (result.qualify words) params variadic

theorem frontText_append (front front' : List Qualifier) :
    frontText (front ++ front') = frontText front ++ frontText front' := List.flatMap_append

theorem text_qualify (words : List Qualifier) (r : Reading) :
    (r.qualify words).text = frontText words ++ r.text := by
  induction r using Reading.qualify.induct with
  | case1 front spelling => rw [qualify, text, text, frontText_append, List.append_assoc]
  | case2 front template args =>
    rw [qualify, text, text, frontText_append]
    simp only [List.append_assoc]
  | case3 r sign ih | case4 r size ih => rw [qualify, text, text, ih, List.append_assoc]
  | case5 pointed result params variadic ih =>
    rw [qualify, text, text, ih]
    simp only [List.append_assoc]

end Reading

namespace TypeRef

mutual

/-- What the text of a type tells of it. -/
def reading : TypeRef → Reading
  | .primitive p => .word [] p.render
  | .builtin name => .word [] name
  | .named name kind => .word [] (if kind = .enum then "enum " ++ name else name)
  | .typedef name _ => .word [] name
  | .param name => .word [] name
  | .dependent name => .word [] name
  | .pointer t => .signed t.reading .pointer
  | .reference t => .signed t.reading .reference
  | .rvalueReference t => .signed t.reading .rvalueReference
  | .array t (some size) => .array t.reading size.render
  | .array t none => .array t.reading ""
  | .functionPointer ⟨returnTy, params, variadic⟩ =>
    .function true returnTy.reading (paramReadings params) variadic
  | .function ⟨returnTy, params, variadic⟩ =>
    .function false returnTy.reading (paramReadings params) variadic
  | .instantiation ⟨template, args, _⟩ => .instantiation [] template (argReadings args)
  | .qualified q t => t.reading.qualify q.front
  | .anonymousRecord r => .word [] (r.kind.render ++ " \x7b...\x7d")
  | .anonymousEnum _ => .word [] "enum \x7b...\x7d"

def argReadings : List ArgRef → List Reading
  | [] => []
  | a :: rest => argReading a :: argReadings rest

def argReading : ArgRef → Reading
  | .type t => t.reading
  | .literal text => .word [] text

def paramReadings : List (Parameter TypeRef) → List Reading
  | [] => []
  | ⟨_, t, _⟩ :: rest => t.reading :: paramReadings rest

end

/-! ### Texts -/

theorem toList_renderQualifiers (q : Qualifiers) : q.render.toList = frontText q.front := by
  rcases q with ⟨_ | _, _ | _⟩ <;> rfl

theorem listed_append_singleton (items : List (List Char)) (last : List Char) :
    listed (items ++ [last]) = if items = [] then last else listed items ++ ',' :: ' ' :: last := by
  induction items with
  | nil => rfl
  | cons a items ih =>
    cases items with
    | nil => rfl
    | cons b items =>
      have rest : listed (b :: items ++ [last]) = listed (b :: items) ++ ',' :: ' ' :: last := by
        rw [ih]
        rfl
      have first : listed (a :: b :: items ++ [last]) =
          a ++ ',' :: ' ' :: listed (b :: items ++ [last]) := rfl
      rw [first, rest, if_neg (List.cons_ne_nil _ _)]
      simp [listed]

theorem texts_eq_nil_iff {rs : List Reading} : Reading.texts rs = [] ↔ rs = [] := by
  cases rs <;> simp [Reading.texts]

theorem paramReadings_eq_nil_iff {params : List (Parameter TypeRef)} :
    paramReadings params = [] ↔ params = [] := by
  cases params <;> simp [paramReadings]

/-- The end of a parameter list is a further item of it. -/
theorem listed_variadic (params : List (Parameter TypeRef)) (variadic : Bool) :
    listed (Reading.texts (paramReadings params) ++ if variadic then [ellipsis] else []) =
      listed (Reading.texts (paramReadings params)) ++
        (renderVariadic variadic params.isEmpty).toList := by
  cases variadic with
  | false => simp [renderVariadic]
  | true =>
    rw [if_pos rfl, listed_append_singleton]
    cases params with
    | nil => rfl
    | cons p params =>
      rw [if_neg (by simp [texts_eq_nil_iff, paramReadings_eq_nil_iff])]
      simp [renderVariadic, ellipsis]

mutual

/-- The text of a type is that of its reading. -/
theorem toList_render : ∀ t : TypeRef, t.render.toList = t.reading.text
  | .primitive p => by simp [render, reading, Reading.text, frontText]
  | .builtin name => by simp [render, reading, Reading.text, frontText]
  | .named name kind => by simp [render, reading, Reading.text, frontText]
  | .typedef name _ => by simp [render, reading, Reading.text, frontText]
  | .param name => by simp [render, reading, Reading.text, frontText]
  | .dependent name => by simp [render, reading, Reading.text, frontText]
  | .pointer t => by simp [render, reading, Reading.text, Sign.text, toList_render t]
  | .reference t => by simp [render, reading, Reading.text, Sign.text, toList_render t]
  | .rvalueReference t => by simp [render, reading, Reading.text, Sign.text, toList_render t]
  | .array t (some size) => by
    simp [render, reading, Reading.text, toList_render t, Bracket.enclose, Bracket.opening,
      Bracket.closing]
  | .array t none => by
    simp [render, reading, Reading.text, toList_render t, Bracket.enclose, Bracket.opening,
      Bracket.closing]
  | .functionPointer ⟨returnTy, params, variadic⟩ => by
    simp [render, reading, Reading.text, toList_render returnTy, toList_renderParams params,
      listed_variadic, Bracket.enclose, Bracket.opening, Bracket.closing]
  | .function ⟨returnTy, params, variadic⟩ => by
    simp [render, reading, Reading.text, toList_render returnTy, toList_renderParams params,
      listed_variadic, Bracket.enclose, Bracket.opening, Bracket.closing]
  | .instantiation ⟨template, args, _⟩ => by
    simp [render, reading, Reading.text, frontText, toList_renderArgs args, Bracket.enclose,
      Bracket.opening, Bracket.closing]
  | .qualified q t => by
    -- Qualifiers are written before all of the type, so they are read at its first word.
    simp [render, reading, Reading.text_qualify, toList_renderQualifiers, toList_render t]
  | .anonymousRecord r => by simp [render, reading, Reading.text, frontText]
  | .anonymousEnum _ => by simp [render, reading, Reading.text, frontText]

theorem toList_renderArgs :
    ∀ args : List ArgRef, (renderArgs args).toList = listed (Reading.texts (argReadings args))
  | [] => by simp [renderArgs, argReadings, Reading.texts, listed]
  | [a] => by simp [renderArgs, argReadings, Reading.texts, listed, toList_renderArg a]
  | a :: b :: rest => by
    have others := toList_renderArgs (b :: rest)
    simp only [argReadings, Reading.texts] at others ⊢
    simp [renderArgs, listed, toList_renderArg a, others]

theorem toList_renderArg : ∀ a : ArgRef, (renderArg a).toList = (argReading a).text
  | .type t => by simp [renderArg, argReading, toList_render t]
  | .literal text => by simp [renderArg, argReading, Reading.text, frontText]

theorem toList_renderParams : ∀ params : List (Parameter TypeRef),
    (renderParams params).toList = listed (Reading.texts (paramReadings params))
  | [] => by simp [renderParams, paramReadings, Reading.texts, listed]
  | [⟨_, t, _⟩] => by simp [renderParams, paramReadings, Reading.texts, listed, toList_render t]
  | ⟨_, t, _⟩ :: ⟨n, t', d⟩ :: rest => by
    have others := toList_renderParams (⟨n, t', d⟩ :: rest)
    simp only [paramReadings, Reading.texts] at others ⊢
    simp [renderParams, listed, toList_render t, others]

end

/-- Types that are written in words are written alike if and only if they read alike. -/
theorem render_eq_iff {t t' : TypeRef} (h : t.reading.Legible) (h' : t'.reading.Legible) :
    t.render = t'.render ↔ t.reading = t'.reading := by
  rw [← String.toList_inj, toList_render, toList_render]
  exact ⟨Reading.text_injective _ _ h h', fun same => by rw [same]⟩

end TypeRef

end HeaderDecl
