import HeaderDecl.Proofs.TotalParsing
import HeaderDecl.Proofs.WrittenDefinitions
import HeaderDecl.Token.Lexer
import Mathlib

/-!
The access of members. A field or a method has the access of the last label that stood between two
members before it. A label that a member swallows is not heeded.
-/

namespace HeaderDecl.Grammar

open HeaderDecl.Grammar.Parser

/-! ### What a declaration declares -/

namespace Declared

/-- All fields and methods of a declaration have some access. -/
structure HasAccess (access : Access) (d : Declared) : Prop where
  fields : ∀ f ∈ d.fields, f.access = access
  methods : ∀ f ∈ d.methods, f.access = access

variable {access : Access} {d e : Declared}

/-- What has no fields and no methods has any access. -/
theorem HasAccess.of_none (fields : d.fields = []) (methods : d.methods = []) : d.HasAccess access := by
  constructor
  · rw [fields]
    exact List.forall_mem_nil _
  · rw [methods]
    exact List.forall_mem_nil _

theorem HasAccess.andThen (h : d.HasAccess access) (h' : e.HasAccess access) :
    (d.andThen e).HasAccess access := by
  unfold Declared.andThen
  split
  · exact h
  · exact ⟨List.forall_mem_append.mpr ⟨h.fields, h'.fields⟩,
      List.forall_mem_append.mpr ⟨h.methods, h'.methods⟩⟩

end Declared

open Declared (HasAccess)

namespace Common

variable {c : Common} {m : MemberContext} (member : c.member = some m)

include member

theorem hasAccess_declareFunction (d : Declarator) (name : DeclName) (suffix : FunctionSuffix)
    (tail : Tail) : (c.declareFunction d name suffix tail).HasAccess m.access := by
  unfold declareFunction
  cases c.functionHead name d.ops.dropLast with
  | none => exact .of_none rfl rfl
  | some head =>
    simp only [member, Option.isSome_some, if_true, Option.map_some, Option.getD_some]
    exact ⟨List.forall_mem_nil _, List.forall_mem_singleton.mpr rfl⟩

theorem hasAccess_declareObject (fieldCount : Nat) (d : Declarator) (name : DeclName) (tail : Tail) :
    (c.declareObject fieldCount d name tail).HasAccess m.access := by
  unfold declareObject
  split
  · exact .of_none rfl rfl
  · exact .of_none rfl rfl
  · split
    · exact .of_none rfl rfl
    · rw [member]
      exact ⟨List.forall_mem_singleton.mpr rfl, List.forall_mem_nil _⟩
  · exact .of_none rfl rfl

theorem hasAccess_declareOne (fieldCount : Nat) (d : Declarator) (tail : Tail) :
    (c.declareOne fieldCount d tail).HasAccess m.access := by
  unfold declareOne
  split
  · exact .of_none rfl rfl
  · split
    · exact .of_none rfl rfl
    · split
      · exact hasAccess_declareFunction member d _ _ tail
      · exact hasAccess_declareObject member fieldCount d _ tail

theorem hasAccess_declareAll (fieldCount : Nat) (ds : List (Declarator × Tail)) :
    (c.declareAll fieldCount ds).HasAccess m.access := by
  induction ds generalizing fieldCount with
  | nil => exact .of_none rfl rfl
  | cons d rest ih => exact (hasAccess_declareOne member fieldCount d.1 d.2).andThen (ih _)

end Common

section Declarations

variable {P : Nested} {m : MemberContext} {template : Option (List (TemplateParam TypeExpr))}
  {origin : Origin}

theorem hasAccess_declare (specs : Specifiers) (scope : List String) (ds : List (Declarator × Tail)) :
    (declare specs (some m) template origin scope ds).HasAccess m.access := by
  rw [declare_eq]
  exact (HasAccess.of_none rfl rfl).andThen (Common.hasAccess_declareAll rfl _ _)

theorem hasAccess_declareAlone (specs : Specifiers) :
    (declareAlone specs (some m) template origin).HasAccess m.access := by
  unfold declareAlone
  split
  · exact .of_none rfl rfl
  · split
    · rename_i same
      cases same
      exact ⟨List.forall_mem_singleton.mpr rfl, List.forall_mem_nil _⟩
    · exact .of_none rfl rfl

theorem always_skipped {access : Access} : skipped.Always (HasAccess access) :=
  always_bind fun _ => always_pure (.of_none rfl rfl)

theorem always_unmodeled {access : Access} (start : Cursor) (what : String) :
    (unmodeled start what).Always (HasAccess access) := by
  refine always_bind fun first => always_bind fun whole => ?_
  dsimp only
  split
  · exact always_bind fun _ => always_pure (.of_none rfl rfl)
  · exact always_pure (.of_none rfl rfl)

theorem always_declaration :
    (declaration P (some m) template origin).Always (HasAccess m.access) := by
  refine always_bind fun specs => always_ite always_skipped (always_bind fun alone => ?_)
  dsimp only
  split
  · exact always_pure (hasAccess_declareAlone specs)
  · exact always_bind fun ds => always_bind fun scope => always_bind fun _ =>
      always_pure (hasAccess_declare specs scope ds)

theorem always_template : (Grammar.template P (some m)).Always (HasAccess m.access) := by
  refine always_bind fun start => always_bind fun first => always_bind fun _ => always_bind fun list => ?_
  split
  · refine always_bind fun params => always_bind fun t => ?_
    exact always_ite always_skipped (always_ite (always_unmodeled _ _)
      (always_ite (always_unmodeled _ _) always_declaration))
  · exact always_skipped

theorem always_aliasDeclaration {access : Access} :
    (aliasDeclaration P).Always (HasAccess access) := by
  refine always_bind fun origin => always_bind fun _ => always_bind fun named => ?_
  split
  · exact always_bind fun name => always_bind fun _ => always_bind fun ty => always_bind fun _ =>
      always_pure (.of_none rfl rfl)
  · exact always_skipped

theorem always_anyDeclaration : (anyDeclaration P (some m)).Always (HasAccess m.access) :=
  always_bind fun _ => always_ite always_template (always_ite always_aliasDeclaration
    (always_ite always_skipped always_declaration))

/-- A member has the access that is in force where it begins, however it is read or skipped. -/
theorem always_member (n : Nat) (m : MemberContext) :
    (recovering ((Nested.upTo n).member m)).Always (HasAccess m.access) := by
  intro c s d t run
  rcases declared_of_recovering run with ⟨u, read⟩ | ⟨e, -, rfl⟩
  · cases n with
    | zero => cases read
    | succ n => exact always_anyDeclaration c s d u read
  · exact .of_none rfl rfl

end Declarations

/-! ### Parts of a body -/

/-- A part of the body of a record: an access label, a semicolon that stands alone, or a member, which may
have been skipped, with what is declared by it. -/
inductive BodyPart where
  | label (access : Access) (keyword colon : Token)
  | semicolon (token : Token)
  | member (tokens : List Token) (declared : Declared)

/-- The access labels that stand outside of brackets, with some brackets open in front of the tokens. -/
def labelsOutside : Nat → List Token → List Access
  | _, [] => []
  | depth, t :: ts =>
    (if depth = 0 && ts.head?.any (·.is .colon) then (accessOf? t).toList else []) ++
      labelsOutside (depthAfter depth t) ts

namespace BodyPart

def tokens : BodyPart → List Token
  | label _ keyword colon => [keyword, colon]
  | semicolon token => [token]
  | member tokens _ => tokens

def declared : BodyPart → List Declared
  | member _ declared => [declared]
  | _ => []

/-- The access that a label puts into force. -/
def heeded : BodyPart → Option Access
  | label access _ _ => some access
  | _ => none

/-- The labels that are written in a part. -/
def written (p : BodyPart) : List Access := labelsOutside 0 p.tokens

/-- The access in force behind some parts of a body: that of the last label, or the one that members have
before any label. -/
def inForce (first : Access) (parts : List BodyPart) : Access :=
  (parts.filterMap heeded).getLast?.getD first

/-- The access that is written in front of what follows some parts of a body: that of the last label
outside of brackets, wherever it stands. -/
def lastWritten (first : Access) (parts : List BodyPart) : Access :=
  (parts.flatMap written).getLast?.getD first

/-- Whether a part is what it is taken for, where some access is in force. A member begins with neither a
label nor a semicolon, and what it declares has that access. -/
inductive Fits (access : Access) : BodyPart → Prop
  | label {keyword colon : Token} {a : Access} (names : accessOf? keyword = some a)
    (punctuated : colon.is .colon = true) : Fits access (.label a keyword colon)
  | semicolon {token : Token} (punctuated : token.is .semicolon = true) :
    Fits access (.semicolon token)
  | member {tokens : List Token} {d : Declared} (some_ : tokens ≠ [])
    (noSemicolon : ∀ t ∈ tokens.head?, t.is .semicolon = false)
    (noLabel : ∀ a keyword colon, [keyword, colon] <+: tokens → accessOf? keyword = some a →
      colon.is .colon = false) (has : d.HasAccess access) : Fits access (.member tokens d)

theorem inForce_cons (first : Access) (p : BodyPart) (parts : List BodyPart) :
    inForce first (p :: parts) = inForce (p.heeded.getD first) parts := by
  unfold inForce
  cases heeded : p.heeded with
  | none => rw [List.filterMap_cons_none heeded, Option.getD_none]
  | some a =>
    rw [List.filterMap_cons_some heeded, List.getLast?_cons]
    cases (parts.filterMap BodyPart.heeded).getLast? <;> rfl

end BodyPart

section Body

variable {n : Nat} {name : Option String} {m m' : MemberState} {c : Context} {s t : Cursor}
  {ds : List Declared}

/-- A punctuator that comes next is the first of the tokens. -/
theorem cons_of_next {p : Punct} {ts : List Token} (eof : c.eof.isEof = true)
    (h : (next c ts).is p = true) : ts = next c ts :: ts.drop 1 := by
  cases ts with
  | nil =>
    rw [show next c [] = c.eof from rfl, Token.is, beq_iff_eq] at h
    simp [Token.isEof, h] at eof
  | cons t ts => rfl

theorem ahead_of_next {p : Punct} (eof : c.eof.isEof = true) (h : (next c s.ahead).is p = true) :
    s.ahead = next c s.ahead :: (s.drop 1).ahead := by
  rw [Cursor.ahead_drop]
  exact cons_of_next eof h

/-- What a step over the members of a record comes to: their end, a label, a semicolon or a member. -/
inductive MemberStep (P : Nested) (name : Option String) (m : MemberState) (c : Context) (s : Cursor) :
    List Declared → MemberState → Bool → Cursor → Prop
  | ends : MemberStep P name m c s [] m false s
  | label {access : Access} (names : accessOf? (next c s.ahead) = some access)
    (punctuated : (s.ahead[1]?.getD c.eof).is .colon = true) :
    MemberStep P name m c s [] { m with access } true ((s.drop 1).drop 1)
  | semicolon (punctuated : (next c s.ahead).is .semicolon = true) :
    MemberStep P name m c s [] m true (s.drop 1)
  | member {d : Declared} {t : Cursor} (noSemicolon : (next c s.ahead).is .semicolon = false)
    (noLabel : ∀ a, accessOf? (next c s.ahead) = some a →
      (s.ahead[1]?.getD c.eof).is .colon = false)
    (read : (recovering (P.member ⟨name, m.access, m.fieldCount⟩)).Yields c s d t) :
    MemberStep P name m c s [d] { m with fieldCount := m.fieldCount + d.fields.length } true t

theorem memberStep_cases {P : Nested} {more : Bool}
    (h : (memberStep P name m).Yields c s (ds, m', more) t) :
    MemberStep P name m c s ds m' more t := by
  -- What a step does when it stands at no label.
  have behindLabels (noLabel : ∀ a, accessOf? (next c s.ahead) = some a →
        (s.ahead[1]?.getD c.eof).is .colon = false)
      (h : (do
        if ← take .semicolon then return ([], m, true)
        let d ← recovering (P.member ⟨name, m.access, m.fieldCount⟩)
        return ([d], { m with fieldCount := m.fieldCount + d.fields.length }, true) :
          Parser (List Declared × MemberState × Bool)).Yields c s (ds, m', more) t) :
      MemberStep P name m c s ds m' more t := by
    obtain ⟨_, u, taken, h⟩ := yields_bind.mp h
    obtain ⟨rfl, rfl⟩ := yields_take.mp taken
    cases semicolon : (next c s.ahead).is .semicolon with
    | true =>
      rw [semicolon] at h
      obtain ⟨same, rfl⟩ := yields_pure.mp h
      cases same
      exact .semicolon semicolon
    | false =>
      rw [semicolon] at h
      obtain ⟨d, u, read, done⟩ := yields_bind.mp h
      obtain ⟨same, rfl⟩ := yields_pure.mp done
      cases same
      exact .member semicolon noLabel read
  unfold memberStep at h
  obtain ⟨atEnd, _, ended, h⟩ := yields_bind.mp h
  obtain ⟨-, rfl⟩ := yields_atEndOr.mp ended
  cases atEnd with
  | true =>
    obtain ⟨same, rfl⟩ := yields_pure.mp h
    cases same
    exact .ends
  | false =>
    obtain ⟨_, _, peeked, h⟩ := yields_bind.mp h
    obtain ⟨rfl, rfl⟩ := yields_peek.mp peeked
    cases names : accessOf? (next c s.ahead) with
    | none =>
      rw [names] at h
      exact behindLabels (fun a names' => by cases names.symm.trans names') h
    | some access =>
      rw [names] at h
      obtain ⟨_, _, second, h⟩ := yields_bind.mp h
      obtain ⟨rfl, rfl⟩ := yields_nth.mp second
      split at h
      · rename_i punctuated
        obtain ⟨_, _, passed, h⟩ := yields_bind.mp h
        obtain ⟨-, rfl⟩ := yields_advance.mp passed
        obtain ⟨_, _, passed, h⟩ := yields_bind.mp h
        obtain ⟨-, rfl⟩ := yields_advance.mp passed
        obtain ⟨same, rfl⟩ := yields_pure.mp h
        cases same
        exact .label names punctuated
      · rename_i noColon
        exact behindLabels (fun _ _ => Bool.eq_false_iff.mpr noColon) h

/-- A step that goes on goes past one part of the body. -/
theorem exists_part (eof : c.eof.isEof = true) (room : s.left < n)
    (h : (memberStep (.upTo n) name m).Yields c s (ds, m', true) t) :
    ∃ part : BodyPart, s.ahead = part.tokens ++ t.ahead ∧ ds = part.declared ∧
      m'.access = part.heeded.getD m.access ∧ part.Fits m.access := by
  -- Some tokens are passed.
  obtain ⟨⟨tokens, whole⟩, lt⟩ : t.ahead <:+ s.ahead ∧ t.left < s.left := by
    have proceeds : (memberStep (.upTo n) name m).Proceeds False s c s fun r => s.Leads r.2.2 :=
      proceeds_memberStep (proceeds_upTo n) room name m
    have ends := proceeds eof (List.suffix_refl _)
    rw [show (memberStep (.upTo n) name m c s).result = _ from h] at ends
    exact ⟨ends.1, ends.2.2 rfl⟩
  cases memberStep_cases h with
  | semicolon punctuated =>
    exact ⟨.semicolon (next c s.ahead), ahead_of_next eof punctuated, rfl, rfl, .semicolon punctuated⟩
  | @label access names punctuated =>
    cases ahead : s.ahead with
    | nil =>
      rw [s.left_eq, ahead] at lt
      exact absurd lt (Nat.not_lt_zero _)
    | cons keyword more =>
      rw [ahead, next_cons] at names
      rw [ahead, List.getElem?_cons_succ, ← List.head?_eq_getElem?] at punctuated
      refine ⟨.label access keyword (next c more), ?_, rfl, rfl, .label names punctuated⟩
      rw [Cursor.ahead_drop, Cursor.ahead_drop, ahead]
      exact congrArg (keyword :: ·) (cons_of_next eof punctuated)
  | @member d _ noSemicolon noLabel read =>
    have some_ : tokens ≠ [] := by
      rintro rfl
      rw [s.left_eq, t.left_eq, ← whole] at lt
      exact Nat.lt_irrefl _ lt
    refine ⟨.member tokens d, whole.symm, rfl, rfl, .member some_ ?_ ?_ ?_⟩
    · intro first there
      obtain ⟨others, rfl⟩ := List.head?_eq_some_iff.mp there
      rwa [← whole, List.cons_append, next_cons] at noSemicolon
    · rintro a keyword colon ⟨others, rfl⟩ names
      rw [← whole] at noLabel
      exact noLabel a names
    · exact always_member n ⟨name, m.access, m.fieldCount⟩ c s d t read

/-- The parts of a body up to some place, from the state of the members there on. -/
theorem exists_parts (eof : c.eof.isEof = true) (room : s.left < n)
    (h : (collectFrom (memberStep (.upTo n) name) m).Yields c s ds t) :
    ∃ parts : List BodyPart, s.ahead = parts.flatMap BodyPart.tokens ++ t.ahead ∧
      ds = parts.flatMap BodyPart.declared ∧
      ∀ before part after, parts = before ++ part :: after →
        part.Fits (BodyPart.inForce m.access before) := by
  induction left : s.left using Nat.strongRecOn generalizing s m ds with
  | ind _ ih =>
  subst left
  obtain ⟨first, m', more, u, step, rest⟩ := h.collectFrom
  cases more with
  | false =>
    obtain ⟨rfl, rfl⟩ := rest
    cases memberStep_cases step
    exact ⟨[], rfl, rfl, fun before part after none => by simp at none⟩
  | true =>
    obtain ⟨lt, others, later, rfl⟩ := rest
    obtain ⟨part, passed, rfl, access, fits⟩ := exists_part eof room step
    obtain ⟨parts, passed', rfl, fit⟩ := ih u.left lt (Nat.lt_trans lt room) later rfl
    refine ⟨part :: parts, ?_, rfl, ?_⟩
    · rw [passed, passed', List.flatMap_cons, List.append_assoc]
    · intro before part' after split_
      cases before with
      | nil =>
        obtain ⟨rfl, rfl⟩ := List.cons.inj split_
        exact fits
      | cons p before =>
        obtain ⟨rfl, rfl⟩ := List.cons.inj split_
        rw [BodyPart.inForce_cons, ← access]
        exact fit before part' after rfl

end Body

namespace BodyPart

variable {first : Access} {parts : List BodyPart}

theorem written_label {access : Access} {a : Access} {keyword colon : Token}
    (h : (label a keyword colon).Fits access) : (label a keyword colon).written = [a] := by
  cases h with
  | label names punctuated =>
    simp [written, tokens, labelsOutside, names, punctuated]

/-- What is written last is in force, unless a member behind the last label that is heeded has a label
among its tokens. -/
theorem inForce_eq_lastWritten (fit : ∀ p ∈ parts, ∃ access, p.Fits access) :
    inForce first parts = lastWritten first parts ∨
      ∃ front tokens d back, parts = front ++ member tokens d :: back ∧
        labelsOutside 0 tokens ≠ [] ∧ ∀ p ∈ back, p.heeded = none := by
  induction parts using List.reverseRecOn with
  | nil => exact .inl rfl
  | append_singleton parts p ih =>
    obtain ⟨before, own⟩ := List.forall_mem_append.mp fit
    -- A part without labels changes neither side.
    have quiet (silent : p.heeded = none) (nothing : p.written = []) :
        inForce first (parts ++ [p]) = lastWritten first (parts ++ [p]) ∨
          ∃ front tokens d back, parts ++ [p] = front ++ member tokens d :: back ∧
            labelsOutside 0 tokens ≠ [] ∧ ∀ q ∈ back, q.heeded = none := by
      rcases ih before with same | ⟨front, tokens, d, back, rfl, hidden, behind⟩
      · left
        simpa [inForce, lastWritten, silent, nothing] using same
      · refine .inr ⟨front, tokens, d, back ++ [p], by simp, hidden, ?_⟩
        exact List.forall_mem_append.mpr ⟨behind, List.forall_mem_singleton.mpr silent⟩
    cases p with
    | label a keyword colon =>
      obtain ⟨access, fits⟩ := own _ List.mem_cons_self
      left
      simp [inForce, lastWritten, heeded, written_label fits]
    | semicolon token => exact quiet rfl (by simp [written, tokens, labelsOutside])
    | member tokens d =>
      by_cases none : labelsOutside 0 tokens = []
      · exact quiet rfl none
      · exact .inr ⟨parts, tokens, d, [], rfl, none, List.forall_mem_nil _⟩

end BodyPart

/-- The parts of a body between its braces. -/
theorem exists_body {n : Nat} {name : Option String} {kind : RecordKind} {c : Context} {s u : Cursor}
    {members : List Declared} (eof : c.eof.isEof = true) (room : s.left ≤ n)
    (h : (recordBody (.upTo n) name kind).Yields c s members u) :
    ∃ (opening closing : Token) (parts : List BodyPart),
      s.ahead = opening :: (parts.flatMap BodyPart.tokens ++ closing :: u.ahead) ∧
      opening.is .lbrace = true ∧ closing.is .rbrace = true ∧
      members = parts.flatMap BodyPart.declared ∧
      ∀ before part after, parts = before ++ part :: after →
        part.Fits (BodyPart.inForce kind.defaultAccess before) := by
  unfold recordBody at h
  obtain ⟨_, _, opened, h⟩ := yields_bind.mp h
  obtain ⟨opens, rfl, rfl⟩ := yields_consume.mp opened
  obtain ⟨_, v, inside, h⟩ := yields_bind.mp h
  obtain ⟨_, _, closed, done⟩ := yields_bind.mp h
  obtain ⟨closes, rfl, rfl⟩ := yields_consume.mp closed
  obtain ⟨rfl, rfl⟩ := yields_pure.mp done
  have opening := ahead_of_next eof opens
  have closing := ahead_of_next eof closes
  have left : (s.drop 1).left < n := by
    have one : s.left = (s.drop 1).left + 1 := by
      rw [s.left_eq, (s.drop 1).left_eq, opening, List.length_cons]
    omega
  obtain ⟨parts, ahead, same, fit⟩ := exists_parts (c := c.enter name.toList) eof left inside
  refine ⟨_, _, parts, ?_, opens, closes, same, fit⟩
  rw [opening, ahead, closing, next_cons, next_cons]

end HeaderDecl.Grammar
