import HeaderDecl.Proofs.LocatedOutput
import HeaderDecl.Proofs.PlainUnits
import HeaderDecl.Proofs.QualifiedDefinitions
import HeaderDecl.Proofs.TotalParsing
import HeaderDecl.Proofs.UnskippedRuns

/-!
Items in the order of the source. Where nothing is skipped, the items of a unit, and those within each
item at any depth, stand in the order of the places where their declarations begin.
-/

namespace HeaderDecl

/-! ### Order -/

/-- A location is no further on in a file than another one. -/
def Location.NotAfter (a b : Location) : Prop := a.line < b.line ∨ a.line = b.line ∧ a.column ≤ b.column

theorem Location.NotAfter.refl (a : Location) : a.NotAfter a := .inr ⟨rfl, Nat.le_refl _⟩

theorem Location.NotAfter.trans {a b c : Location} (h : a.NotAfter b) (h' : b.NotAfter c) :
    a.NotAfter c := by
  unfold Location.NotAfter at *
  omega

/-- What is declared within an item. -/
def Item.children : Item → List Item
  | .decl _ nested _ => nested
  | .namespaceItem _ items _ => items

/-- Items are in order: none has an origin before that of an item in front of it, or before that of the
item it is declared in, and those within each of them are in order. -/
inductive InOrder : List Item → Prop
  | nil : InOrder []
  | cons {i : Item} {rest : List Item} (first : ∀ j ∈ rest, i.origin.NotAfter j.origin)
      (inside : ∀ j ∈ i.children, i.origin.NotAfter j.origin) (nested : InOrder i.children)
      (later : InOrder rest) : InOrder (i :: rest)

/-- Items are in order, and all their origins are between two places. -/
structure Between (lo hi : Location) (items : List Item) : Prop where
  ordered : InOrder items
  lower : ∀ i ∈ items, lo.NotAfter i.origin
  upper : ∀ i ∈ items, i.origin.NotAfter hi

namespace Between

variable {lo mid hi : Location} {is js : List Item}

theorem nil : Between lo hi [] := ⟨.nil, List.forall_mem_nil _, List.forall_mem_nil _⟩

theorem mono {lo' hi' : Location} (h : Between lo hi is) (below : lo'.NotAfter lo)
    (above : hi.NotAfter hi') :
    Between lo' hi' is :=
  ⟨h.ordered, fun i mem => below.trans (h.lower i mem), fun i mem => (h.upper i mem).trans above⟩

/-- Items up to some place, and items from there on. -/
theorem append (h : Between lo mid is) (h' : Between mid hi js) (below : lo.NotAfter mid)
    (above : mid.NotAfter hi) : Between lo hi (is ++ js) := by
  refine ⟨?_, ?_, ?_⟩
  · obtain ⟨before, -, upper⟩ := h
    induction before with
    | nil => exact h'.ordered
    | @cons i rest first inside nested later _ ih =>
      have upper' := List.forall_mem_cons.mp upper
      refine .cons (List.forall_mem_append.mpr ⟨first, ?_⟩) inside nested (ih upper'.2)
      exact fun j mem => upper'.1.trans (h'.lower j mem)
  · exact List.forall_mem_append.mpr ⟨h.lower, (h'.mono below (.refl hi)).lower⟩
  · exact List.forall_mem_append.mpr ⟨(h.mono (.refl lo) above).upper, h'.upper⟩

/-- Items of one origin, with items between it and some later place in each of them. -/
theorem of_origin {o : Location} (before : o.NotAfter hi)
    (each : ∀ i ∈ is, i.origin = o ∧ Between o hi i.children) : Between o hi is := by
  refine ⟨?_, fun i mem => (each i mem).1 ▸ .refl _, fun i mem => (each i mem).1 ▸ before⟩
  induction is with
  | nil => exact .nil
  | cons i rest ih =>
    obtain ⟨⟨rfl, inside⟩, others⟩ := List.forall_mem_cons.mp each
    refine .cons (fun j mem => ?_) inside.lower inside.ordered (ih others)
    rw [(others j mem).1]
    exact .refl _

end Between

namespace Grammar

open HeaderDecl.Grammar.Parser

/-! ### What a declaration declares -/

/-- What stands within the definitions of some specifiers is in order between two places. -/
def Specifiers.Spans (lo hi : Location) (specs : Specifiers) : Prop :=
  ∀ d, d ∈ specs.defined ∨ d ∈ specs.forward → Between lo hi d.nested

theorem Specifiers.Spans.mono {lo hi hi' : Location} {specs : Specifiers} (h : specs.Spans lo hi)
    (above : hi.NotAfter hi') : specs.Spans lo hi' :=
  fun d tag => (h d tag).mono (.refl lo) above

theorem Specifiers.Spans.congr {lo hi : Location} {specs specs' : Specifiers} (h : specs.Spans lo hi)
    (same : specs.SameTags specs') : specs'.Spans lo hi := by
  intro d tag
  rw [same.1, same.2] at tag
  exact h d tag

theorem Specifiers.Spans.defines {lo hi : Location} {specs : Specifiers} (h : specs.Spans lo hi)
    {d : Defined} (inside : Between lo hi d.nested) : Spans lo hi { specs with defined := some d } := by
  intro e tag
  obtain defined | declared := tag
  · obtain rfl : d = e := Option.some.inj defined
    exact inside
  · exact h e (.inr declared)

theorem Specifiers.Spans.names {lo hi : Location} {specs : Specifiers} (h : specs.Spans lo hi)
    {base : Option TypeExpr} {d : Defined} (inside : Between lo hi d.nested) :
    Spans lo hi { specs with base := base, forward := some d } := by
  intro e tag
  obtain defined | declared := tag
  · exact h e (.inl defined)
  · obtain rfl : d = e := Option.some.inj declared
    exact inside

/-- All items of a declaration have one origin, and nothing within them but what one of some lists has. -/
def Declared.Starts (o : Location) (lists : List (List Item)) (d : Declared) : Prop :=
  ∀ i ∈ d.items, i.origin = o ∧ (i.children = [] ∨ i.children ∈ lists)

namespace Declared

variable {o : Location} {lists : List (List Item)} {d e : Declared}

theorem Starts.of_nil (none : d.items = []) : d.Starts o lists := by
  intro i mem
  rw [none] at mem
  exact absurd mem List.not_mem_nil

theorem Starts.ofItem (d : ParsedDecl) : (Declared.ofItem d o).Starts o lists := by
  intro i mem
  rw [List.mem_singleton.mp mem]
  exact ⟨rfl, .inl rfl⟩

theorem Starts.andThen (h : d.Starts o lists) (h' : e.Starts o lists) : (d.andThen e).Starts o lists := by
  unfold Declared.andThen
  split
  · exact h
  · exact List.forall_mem_append.mpr ⟨h, h'⟩

end Declared

open Declared (Starts)

namespace Common

variable {lists : List (List Item)} (c : Common)

theorem starts_declareFunction (d : Declarator) (name : DeclName) (suffix : FunctionSuffix) (tail : Tail) :
    (c.declareFunction d name suffix tail).Starts c.origin lists := by
  unfold declareFunction
  split
  · exact .of_nil rfl
  · dsimp only
    split
    · exact .of_nil rfl
    · exact .ofItem _

theorem starts_declareObject (fieldCount : Nat) (d : Declarator) (name : DeclName) (tail : Tail) :
    (c.declareObject fieldCount d name tail).Starts c.origin lists := by
  unfold declareObject
  split
  · exact .of_nil rfl
  · exact .of_nil rfl
  · dsimp only
    split
    · exact .ofItem _
    · split
      · exact .of_nil rfl
      · exact .ofItem _
  · exact .of_nil rfl

theorem starts_declareOne (fieldCount : Nat) (d : Declarator) (tail : Tail) :
    (c.declareOne fieldCount d tail).Starts c.origin lists := by
  unfold declareOne
  split
  · exact .of_nil rfl
  · split
    · exact .of_nil rfl
    · split
      · exact starts_declareFunction c d _ _ tail
      · exact starts_declareObject c fieldCount d _ tail

theorem starts_declareAll (fieldCount : Nat) (ds : List (Declarator × Tail)) :
    (c.declareAll fieldCount ds).Starts c.origin lists := by
  induction ds generalizing fieldCount with
  | nil => exact .of_nil rfl
  | cons d rest ih => exact (starts_declareOne c fieldCount d.1 d.2).andThen (ih _)

end Common

section Declaration

variable {o hi : Location} {specs : Specifiers} {member : Option MemberContext}
  {template : Option (List (TemplateParam TypeExpr))}

theorem always_skipped_items : skipped.Always fun d => d.items = [] :=
  always_bind fun _ => always_pure rfl

theorem always_unmodeled_items (start : Cursor) (what : String) :
    (unmodeled start what).Always fun d => d.items = [] := by
  refine always_bind fun first => always_bind fun whole => ?_
  dsimp only
  split
  · exact always_bind fun _ => always_pure rfl
  · exact always_pure rfl

/-- A definition that a typedef names has within it what it had. -/
theorem nested_given {ds : List (Declarator × Tail)} {d : Defined} (given : d ∈ given specs ds) :
    ∃ d' ∈ specs.defined, d.nested = d'.nested := by
  obtain ⟨d', defined, rfl⟩ := Option.map_eq_some_iff.mp given
  refine ⟨d', defined, ?_⟩
  cases typedefAlias specs d' ds with
  | none => rfl
  | some name =>
    rw [Option.elim_some, Defined.namedByTypedef]
    split <;> rfl

theorem between_declare (spans : specs.Spans o hi) (before : o.NotAfter hi) (scope : List String)
    (ds : List (Declarator × Tail)) :
    Between o hi (declare specs member template o scope ds).items := by
  -- The definition in front of the declarators is the only item with others within it.
  let lists : List (List Item) := (given specs ds).toList.map Defined.nested
  have starts : (declare specs member template o scope ds).Starts o lists := by
    rw [declare_eq]
    refine Starts.andThen ?_ (Common.starts_declareAll (commonOf specs member template o scope ds) _ _)
    intro i mem
    cases defined : given specs ds with
    | none =>
      rw [defined] at mem
      exact absurd mem List.not_mem_nil
    | some d =>
      rw [defined, Option.elim_some, Defined.ownItems] at mem
      split at mem
      · rw [List.mem_singleton.mp mem]
        exact ⟨rfl, .inr (by simp [lists, defined, Item.children])⟩
      · exact absurd mem List.not_mem_nil
  refine .of_origin before fun i mem => ⟨(starts i mem).1, ?_⟩
  obtain none | listed := (starts i mem).2
  · rw [none]
    exact .nil
  · obtain ⟨d, defined, same⟩ := List.mem_map.mp listed
    obtain ⟨d', tag, nested⟩ := nested_given (Option.mem_toList.mp defined)
    rw [← same, nested]
    exact spans d' (.inl tag)

theorem between_declareAlone (spans : specs.Spans o hi) (before : o.NotAfter hi) :
    Between o hi (declareAlone specs member template o).items := by
  unfold declareAlone
  split
  · exact .nil
  · rename_i d tag
    have inside : Between o hi d.nested := by
      apply spans
      cases defined : specs.defined with
      | none => exact .inr (by rwa [defined, Option.none_or] at tag)
      | some d' => exact .inl (by rwa [defined, Option.some_or] at tag)
    split
    · exact inside
    · apply Between.of_origin before
      intro i mem
      rw [List.mem_singleton.mp mem]
      exact ⟨rfl, inside⟩

end Declaration

/-! ### Places -/

/-- Where the next token stands. -/
def place (c : Context) (s : Cursor) : Location := (next c s.ahead).loc

/-- The tokens ahead stand one behind another, and the end token behind all of them. -/
structure Ordered (c : Context) (s : Cursor) : Prop where
  eof : c.eof.isEof = true
  sorted : (s.ahead ++ [c.eof]).Pairwise fun t u => t.loc.NotAfter u.loc

section Places

variable {c : Context} {s t : Cursor}

theorem Ordered.behind (h : Ordered c s) (behind : t.ahead <:+ s.ahead) : Ordered c t := by
  obtain ⟨front, whole⟩ := behind
  refine ⟨h.eof, ?_⟩
  have sorted := h.sorted
  rw [← whole, List.append_assoc] at sorted
  exact (List.pairwise_append.mp sorted).2.1

/-- Further on, the next token is one that stands further on. -/
theorem Ordered.place_notAfter (h : Ordered c s) (behind : t.ahead <:+ s.ahead) :
    (place c s).NotAfter (place c t) := by
  obtain ⟨front, whole⟩ := behind
  have sorted := h.sorted
  rw [← whole, List.append_assoc] at sorted
  have later : next c t.ahead ∈ t.ahead ++ [c.eof] := by
    cases t.ahead <;> simp [next]
  unfold place
  cases front with
  | nil =>
    rw [← whole, List.nil_append]
    exact .refl _
  | cons x front =>
    have first : next c s.ahead = x := by rw [← whole, List.cons_append, next_cons]
    rw [first]
    exact (List.pairwise_append.mp sorted).2.2 x List.mem_cons_self _ later

end Places

/-! ### Members -/

/-- The items of a member are in order from its first token on. -/
def Nested.Orders (P : Nested) (n : Nat) : Prop :=
  ∀ m c s, Ordered c s → s.left < n →
    (P.member m).Advances c s fun d t => Between (place c s) (place c t) d.items

section Parts

variable {P : Nested} {n : Nat} (nested : P.Proceeds n) (members : P.Orders n)
variable {c : Context} {s : Cursor} (ordered : Ordered c s)

include members ordered

theorem advances_memberStep (room : s.left < n) (name : Option String) (m : MemberState) :
    (memberStep P name m).Advances c s fun r t =>
      Between (place c s) (place c t) (r.1.flatMap Declared.items) := by
  have nothing {m' : MemberState} {more : Bool} {t : Cursor} :
      (pure ([], m', more) : Parser (List Declared × MemberState × Bool)).Advances c t fun r u =>
        Between (place c s) (place c u) (r.1.flatMap Declared.items) := advances_pure .nil
  have member : Parser.Advances (do
      if ← take .semicolon then return ([], m, true)
      let d ← recovering (P.member ⟨name, m.access, m.fieldCount⟩)
      return ([d], { m with fieldCount := m.fieldCount + d.fields.length }, true) :
        Parser (List Declared × MemberState × Bool)) c s fun r t =>
          Between (place c s) (place c t) (r.1.flatMap Declared.items) := by
    refine (proceeds_take.advances ordered.eof).bind fun semicolon t _ taken => ?_
    cases semicolon with
    | true => exact nothing
    | false =>
      obtain rfl := taken.2.2 rfl
      refine (advances_recovering (members _ c t ordered room)).bind fun d u _ between => ?_
      apply advances_pure
      rw [List.flatMap_singleton]
      exact between
  unfold memberStep
  refine advances_look rfl ?_
  split
  · exact nothing
  · refine advances_look rfl ?_
    split
    · refine advances_look rfl ?_
      split
      · refine (proceeds_advance.advances ordered.eof).bind fun _ t _ _ => ?_
        exact (proceeds_advance.advances ordered.eof).bind fun _ u _ _ => nothing
      · exact member
    · exact member

/-- The items of all members of a record are in order, from the brace that opens its body on. -/
theorem advances_recordBody (room : s.left ≤ n) (name : Option String) (kind : RecordKind) :
    (recordBody P name kind).Advances c s fun ds t =>
      Between (place c s) (place c t) (ds.flatMap Declared.items) := by
  refine (proceeds_consume.advances ordered.eof).bind fun _ t behind opened => ?_
  have inner : Ordered (c.enter name.toList) t := ⟨ordered.eof, (ordered.behind behind).sorted⟩
  have gathered :
      (within name.toList (collectFrom (memberStep P name) { access := kind.defaultAccess })).Advances
      c t fun ds u => Between (place c t) (place c u) (ds.flatMap Declared.items) := by
    apply advances_within
    apply advances_collectFrom
    · intro t₁ t₂ t₃ xs ys b₁ b₂ b₃ first rest
      rw [List.flatMap_append]
      exact first.append rest ((inner.behind b₁).place_notAfter b₂)
        ((inner.behind (b₂.trans b₁)).place_notAfter b₃)
    · intro m u b
      have fewer := Cursor.left_le b
      exact advances_memberStep members (inner.behind b) (by omega) name m
  refine gathered.bind fun ds u behind' between => ?_
  refine (proceeds_consume.advances ordered.eof).bind fun _ v behind'' _ => ?_
  apply advances_pure
  exact between.mono (ordered.place_notAfter behind)
    ((ordered.behind (behind'.trans behind)).place_notAfter behind'')

include nested

omit members in
/-- Up to its body a record is only read. -/
theorem advances_recordHead {β : Type} {R : β → Cursor → Prop} (room : s.left ≤ n) (some_ : 0 < s.left)
    {rest : RecordKind → Option PathExpr → List (BaseSpec PathExpr) → Parser β}
    (body : ∀ kind path bases t, t.ahead <:+ s.ahead → (rest kind path bases).Advances c t R) :
    (recordHead P rest).Advances c s R := by
  refine (proceeds_advance.advances ordered.eof).bind fun first t b₁ passed => ?_
  refine (proceeds_skipAttributes.advances ordered.eof).bind fun _ u b₂ le => ?_
  refine advances_look rfl ?_
  have forward := b₂.trans b₁
  refine ((proceeds_tagName nested (by omega)).advances ordered.eof).bind fun path v b₃ le' => ?_
  refine ((proceeds_isBeforeName path).advances ordered.eof).bind ?_
  rintro isMacro v - ⟨rfl, -⟩
  extract_lets -underBinder rest'
  have last : (rest' ()).Advances c v R := by
    refine advances_look rfl ?_
    extract_lets -underBinder heading
    have headed (w : Cursor) (b₄ : w.ahead <:+ v.ahead) : (heading ()).Advances c w R := by
      refine (proceeds_take.advances ordered.eof).bind fun colon x b₅ _ => ?_
      have forward' := b₅.trans (b₄.trans (b₃.trans forward))
      have fewer := Cursor.left_le (b₅.trans (b₄.trans b₃))
      split
      · refine ((proceeds_bases nested (by omega) _).advances ordered.eof).bind fun bases y b₆ _ => ?_
        exact body _ _ _ y (b₆.trans forward')
      · exact body _ _ _ x forward'
    split
    · exact (proceeds_advance.advances ordered.eof).bind fun _ w b₄ _ => headed w b₄
    · exact headed v (List.suffix_refl _)
  split
  · -- A name that can only be a macro is not read.
    apply advances_of_not_yields
    intro b w
    simp only [yields_bind]
    rintro ⟨_, _, -, _, _, never, -⟩
    exact not_yields_unknownMacro never
  · exact last

/-- What stands within a record is in order, from its keyword on. -/
theorem advances_record (room : s.left ≤ n) (some_ : 0 < s.left) {lo : Location}
    (before : lo.NotAfter (place c s)) {specs : Specifiers} (spans : specs.Spans lo (place c s)) :
    (record P specs).Advances c s fun after t => after.Spans lo (place c t) := by
  rw [record_eq]
  refine advances_recordHead nested ordered room some_ fun kind path bases t behind => ?_
  have ordered' := ordered.behind behind
  have later := ordered.place_notAfter behind
  have fewer := Cursor.left_le behind
  unfold recordRest
  refine advances_look rfl ?_
  split
  · refine (advances_recordBody members ordered' (by omega) _ kind).bind fun ds u behind' between => ?_
    have later' := ordered'.place_notAfter behind'
    apply advances_pure
    exact (spans.mono (later.trans later')).defines (between.mono (before.trans later) (.refl _))
  · cases path with
    | none => exact proceeds_failHere.advances ordered.eof
    | some p =>
      apply advances_pure
      exact (spans.mono later).names .nil

omit members in
theorem advances_enum (room : s.left ≤ n) {lo : Location} {specs : Specifiers}
    (spans : specs.Spans lo (place c s)) :
    (enum P specs).Advances c s fun after t => after.Spans lo (place c t) := by
  have kept : (enum P specs).Always fun after => after.Spans lo (place c s) :=
    always_enum (fun e path _ _ => spans.defines .nil) fun e p => spans.names .nil
  refine (((proceeds_enum nested room specs).advances ordered.eof).always kept).mono ?_
  exact fun after t behind ⟨spans', _⟩ => spans'.mono (ordered.place_notAfter behind)

theorem advances_specifierStep (room : s.left ≤ n) (recordName : Option String) {lo : Location}
    (before : lo.NotAfter (place c s)) {specs : Specifiers} (spans : specs.Spans lo (place c s)) :
    (specifierStep P recordName specs).Advances c s fun r t => r.1.Spans lo (place c t) := by
  unfold specifierStep
  refine (proceeds_skipAttributes.advances ordered.eof).bind fun _ t behind le => ?_
  refine advances_look rfl ?_
  have ordered' := ordered.behind behind
  have later := ordered.place_notAfter behind
  have spans' := spans.mono later
  extract_lets -underBinder passed
  -- A word is passed, a tag is read, or the specifiers end here.
  have passes {specs' : Specifiers} (same : specs.SameTags specs') {u : Cursor} (b : u.ahead <:+ t.ahead) :
      (passed specs').Advances c u fun r v => r.1.Spans lo (place c v) := by
    refine (proceeds_advance.advances ordered.eof).bind fun _ v b' _ => ?_
    apply advances_pure
    exact (spans'.mono (ordered'.place_notAfter (b'.trans b))).congr same
  have stays : (pure (specs, false) : Parser (Specifiers × Bool)).Advances c t fun r v =>
      r.1.Spans lo (place c v) := advances_pure spans'
  have records (some_ : 0 < t.left) : (do return (← record P specs, true)).Advances c t fun r v =>
      r.1.Spans lo (place c v) :=
    (advances_record nested members ordered' (by omega) some_ (before.trans later) spans').bind
      fun after v _ kept => advances_pure kept
  have enums : (do return (← enum P specs, true)).Advances c t fun r v => r.1.Spans lo (place c v) :=
    (advances_enum nested ordered' (by omega) spans').bind fun after v _ kept => advances_pure kept
  have types : (typeName P recordName specs).Advances c t fun r v => r.1.Spans lo (place c v) := by
    have named := (proceeds_typeName nested (by omega) recordName specs).advances (s := t) ordered.eof
    refine (named.always (always_typeName P recordName specs)).mono fun r v b ⟨same, _⟩ => ?_
    exact (spans'.mono (ordered'.place_notAfter b)).congr same
  have here : t.ahead <:+ t.ahead := List.suffix_refl _
  -- The keyword of a record is not the end token.
  have keyword {k : Keyword} (kind : (t.ahead[0]?.getD c.eof).kind = .kw k) : 0 < t.left := by
    rw [t.left_eq]
    cases ahead : t.ahead with
    | nil =>
      rw [ahead, List.getElem?_nil, Option.getD_none] at kind
      have eof := ordered.eof
      rw [Token.isEof, kind] at eof
      cases eof
    | cons x ts => exact Nat.succ_pos _
  split
  case h_2 =>
    refine advances_look rfl ?_
    dsimp only
    split
    · refine (proceeds_advance.advances ordered.eof).bind fun _ u b _ => ?_
      exact passes (by exact ⟨rfl, rfl⟩) b
    · exact passes (by exact ⟨rfl, rfl⟩) here
  case h_14 kind | h_15 kind | h_16 kind =>
    split
    · exact stays
    · exact records (keyword kind)
  case h_17 =>
    split
    · exact stays
    · exact enums
  case h_18 =>
    split
    · exact stays
    · refine (proceeds_advance.advances ordered.eof).bind fun _ u b _ => ?_
      have fewer := Cursor.left_le b
      refine ((proceeds_namePath nested (by omega)).advances ordered.eof).bind fun path v b' _ => ?_
      apply advances_pure
      exact (spans'.mono (ordered'.place_notAfter (b'.trans b))).congr ⟨rfl, rfl⟩
  case h_19 =>
    split
    · exact passes (by exact ⟨rfl, rfl⟩) here
    · exact stays
  case h_20 =>
    split
    · exact passes (by exact ⟨rfl, rfl⟩) here
    · split
      · exact stays
      · exact types
  case h_21 =>
    split
    · exact stays
    · exact types
  case h_22 => exact stays
  all_goals exact passes (by exact ⟨rfl, rfl⟩) here

/-- What stands within the definition of a declaration is in order. -/
theorem advances_specifiers (room : s.left ≤ n) (recordName : Option String) {lo : Location}
    (before : lo.NotAfter (place c s)) :
    (specifiers P recordName).Advances c s fun specs t => specs.Spans lo (place c t) := by
  unfold specifiers
  refine advances_loop (I := fun (specs : Specifiers) t => specs.Spans lo (place c t)) ?_ ?_
  · intro specs t behind spans
    have fewer := Cursor.left_le behind
    exact advances_specifierStep nested members (ordered.behind behind) (by omega) recordName
      (before.trans (ordered.place_notAfter behind)) spans
  · rintro d (none | none) <;> cases none

/-! ### Declarations -/

omit nested members in
/-- What is read and declares nothing. -/
theorem advances_nothing {p : Parser Declared} {Q : Declared → Cursor → Prop} {lo : Location}
    (ends : p.Proceeds True s c s Q) (none : p.Always fun d => d.items = []) :
    p.Advances c s fun d t => Between lo (place c t) d.items := by
  refine ((ends.advances ordered.eof).always none).mono fun d t _ ⟨empty, _⟩ => ?_
  rw [empty]
  exact .nil

/-- A declaration is located where it begins, or at the template parameters in front of it. -/
theorem advances_declaration (room : s.left ≤ n) (member : Option MemberContext)
    (template : Option (List (TemplateParam TypeExpr))) {origin : Location}
    (before : origin.NotAfter (place c s)) :
    (declaration P member template origin).Advances c s fun d t => Between origin (place c t) d.items := by
  refine (advances_specifiers nested members ordered room _ before).bind fun specs t behind spans => ?_
  have ordered₁ := ordered.behind behind
  have later₁ := before.trans (ordered.place_notAfter behind)
  have fewer := Cursor.left_le behind
  split
  · exact advances_nothing ordered₁ proceeds_skipped always_skipped_items
  · refine (proceeds_take.advances ordered.eof).bind fun alone u behind₂ _ => ?_
    have ordered₂ := ordered₁.behind behind₂
    have later₂ := ordered₁.place_notAfter behind₂
    have fewer₂ := Cursor.left_le behind₂
    split
    · apply advances_pure
      exact between_declareAlone (spans.mono later₂) (later₁.trans later₂)
    · refine ((proceeds_declarators nested (by omega)).advances ordered.eof).bind fun ds v behind₃ _ => ?_
      have ordered₃ := ordered₂.behind behind₃
      have later₃ := later₂.trans (ordered₂.place_notAfter behind₃)
      refine advances_look rfl ?_
      have declared : Between origin (place c v) (declare specs member template origin c.scope ds).items :=
        between_declare (spans.mono later₃) (later₁.trans later₃) c.scope ds
      refine (proceeds_reportAll.advances ordered.eof).bind fun _ w behind₄ _ => ?_
      apply advances_pure
      exact declared.mono (.refl origin) (ordered₃.place_notAfter behind₄)

theorem advances_template (room : s.left ≤ n) (member : Option MemberContext) :
    (template P member).Advances c s fun d t => Between (place c s) (place c t) d.items := by
  refine advances_look rfl (advances_peek ?_)
  refine (proceeds_consumeKw.advances ordered.eof).bind fun _ t behind read => ?_
  have ordered₁ := ordered.behind behind
  have fewer := Cursor.left_le behind
  refine advances_isNext ?_
  split
  · refine ((proceeds_templateParams nested (by omega)).advances ordered.eof).bind
      fun params u behind₂ _ => ?_
    have ordered₂ := ordered₁.behind behind₂
    have fewer₂ := Cursor.left_le behind₂
    refine advances_peek ?_
    split
    · exact advances_nothing ordered₂ proceeds_skipped always_skipped_items
    split
    · exact advances_nothing ordered₂ (proceeds_unmodeled s _) (always_unmodeled_items s _)
    split
    · exact advances_nothing ordered₂ (proceeds_unmodeled s _) (always_unmodeled_items s _)
    · exact advances_declaration nested members ordered₂ (by omega) member _
        (ordered.place_notAfter (behind₂.trans behind))
  · exact advances_nothing ordered₁ proceeds_skipped always_skipped_items

omit members in
theorem advances_aliasDeclaration (room : s.left ≤ n) :
    (aliasDeclaration P).Advances c s fun d t => Between (place c s) (place c t) d.items := by
  refine advances_peek ?_
  refine (proceeds_consumeKw.advances ordered.eof).bind fun _ t behind read => ?_
  have ordered₁ := ordered.behind behind
  have fewer := Cursor.left_le behind
  refine (proceeds_isAssignment.advances ordered.eof).bind ?_
  rintro assigns t - rfl
  split
  · refine (proceeds_advance.advances ordered.eof).bind fun name u b₁ _ => ?_
    refine (proceeds_advance.advances ordered.eof).bind fun _ v b₂ _ => ?_
    have fewer₂ := Cursor.left_le (b₂.trans b₁)
    refine ((proceeds_typeExpr nested (by omega)).advances ordered.eof).bind fun ty w b₃ _ => ?_
    refine (proceeds_consume.advances ordered.eof).bind fun _ x b₄ _ => ?_
    apply advances_pure
    apply Between.of_origin (ordered.place_notAfter (b₄.trans (b₃.trans (b₂.trans (b₁.trans behind)))))
    intro i mem
    rw [List.mem_singleton.mp mem]
    exact ⟨rfl, .nil⟩
  · exact advances_nothing ordered₁ proceeds_skipped always_skipped_items

theorem advances_anyDeclaration (room : s.left ≤ n) (member : Option MemberContext) :
    (anyDeclaration P member).Advances c s fun d t => Between (place c s) (place c t) d.items := by
  refine advances_peek ?_
  split
  · exact advances_template nested members ordered room member
  split
  · exact advances_aliasDeclaration nested ordered room
  split
  · exact advances_nothing ordered proceeds_skipped always_skipped_items
  · exact advances_declaration nested members ordered room member none (.refl _)

end Parts

/-- Members are in order at any depth of nesting. -/
theorem orders_upTo (n : Nat) : (Nested.upTo n).Orders n := by
  induction n with
  | zero => exact fun _ _ s _ room => absurd room (Nat.not_lt_zero s.left)
  | succ n ih =>
    intro m c s ordered room
    exact advances_anyDeclaration (proceeds_upTo n) ih ordered (Nat.lt_succ_iff.mp room) (some m)

/-! ### Blocks -/

/-- Namespaces within one another are all located where the outermost one begins. -/
theorem between_inNamespaces {o hi : Location} {is : List Item} (before : o.NotAfter hi)
    (between : Between o hi is) (names : List String) : Between o hi [inNamespaces o is names] := by
  have alone {i : Item} (origin : i.origin = o) (inside : Between o hi i.children) : Between o hi [i] := by
    apply Between.of_origin before
    intro j mem
    rw [List.mem_singleton.mp mem]
    exact ⟨origin, inside⟩
  fun_induction inNamespaces o is names with
  | case1 => exact alone rfl between
  | case2 name => exact alone rfl between
  | case3 name rest more ih => exact alone rfl ih

section Blocks

variable {c : Context} {s : Cursor} (ordered : Ordered c s)

include ordered

theorem advances_items {close : List Punct} {item : Parser Declared}
    (each : ∀ t, t.ahead <:+ s.ahead →
      item.Advances c t fun d u => Between (place c t) (place c u) d.items) :
    (items close item).Advances c s fun is t => Between (place c s) (place c t) is := by
  rw [items_eq]
  apply advances_collectFrom
  · intro t₁ t₂ t₃ is js b₁ b₂ b₃ first rest
    exact first.append rest ((ordered.behind b₁).place_notAfter b₂)
      ((ordered.behind (b₂.trans b₁)).place_notAfter b₃)
  · intro _ t behind
    have step : (itemStep close item).Advances c t fun r u => Between (place c t) (place c u) r.1 := by
      refine advances_look rfl ?_
      split
      · exact advances_pure .nil
      · refine (proceeds_take.advances ordered.eof).bind fun semicolon u _ taken => ?_
        cases semicolon with
        | true => exact advances_pure .nil
        | false =>
          obtain rfl := taken.2.2 rfl
          exact (advances_recovering (each u behind)).bind fun d v _ between => advances_pure between
    exact step.bind fun r u _ between => advances_pure between

variable {P : Nested} {n m : Nat} (nested : P.Proceeds n) {block : Parser (List Item)}
variable (blocks : ∀ c s, Ordered c s → s.left < m →
  block.Advances c s fun is t => Between (place c s) (place c t) is)

include blocks

theorem advances_namespaceBlock (room : s.left ≤ m) (isInline : Bool) {lo : Location}
    (before : lo.NotAfter (place c s)) :
    (namespaceBlock block isInline).Advances c s fun d t => Between lo (place c t) d.items := by
  refine advances_peek ?_
  refine (proceeds_consumeKw.advances ordered.eof).bind fun _ t b₁ read => ?_
  refine (proceeds_isAssignment.advances ordered.eof).bind ?_
  rintro assigns t - rfl
  split
  · exact advances_nothing (ordered.behind b₁) proceeds_skipped always_skipped_items
  · refine (proceeds_namespaceNames.advances ordered.eof).bind fun names u b₂ _ => ?_
    refine (proceeds_skipAttributes.advances ordered.eof).bind fun _ v b₃ _ => ?_
    refine (proceeds_consume.advances ordered.eof).bind fun _ w b₄ _ => ?_
    have behind := b₄.trans (b₃.trans (b₂.trans b₁))
    have fewer := Cursor.left_le (b₄.trans (b₃.trans b₂))
    have inner (names : List String) : Ordered (c.enter names) w :=
      ⟨ordered.eof, (ordered.behind behind).sorted⟩
    refine (advances_within (blocks _ w (inner _) (by omega))).bind fun is x b₅ between => ?_
    refine (proceeds_consume.advances ordered.eof).bind fun _ y b₆ _ => ?_
    apply advances_pure
    have outer : Between (place c s) (place c y) is :=
      between.mono (ordered.place_notAfter behind)
        ((ordered.behind (b₅.trans behind)).place_notAfter b₆)
    have later := ordered.place_notAfter (b₆.trans (b₅.trans behind))
    exact (between_inNamespaces later outer _).mono before (.refl _)

theorem advances_linkageBlock (room : s.left ≤ m) :
    (linkageBlock block).Advances c s fun d t => Between (place c s) (place c t) d.items := by
  refine (proceeds_consumeKw.advances ordered.eof).bind fun _ t b₁ read => ?_
  refine ((proceeds_consumeKind (by nofun)).advances ordered.eof).bind fun _ u b₂ _ => ?_
  refine (proceeds_consume.advances ordered.eof).bind fun _ v b₃ _ => ?_
  have behind := b₃.trans (b₂.trans b₁)
  have fewer := Cursor.left_le (b₃.trans b₂)
  refine (blocks c v (ordered.behind behind) (by omega)).bind fun is w b₄ between => ?_
  have closes : (consume .rbrace).attempt.Advances c w fun _ _ => True := by
    refine (proceeds_attempt ?_ fun _ _ => trivial).advances ordered.eof
    exact proceeds_consume.mono fun _ _ _ => trivial
  refine closes.bind fun r x b₅ _ => ?_
  -- The items stay, closed or not.
  have kept : Between (place c s) (place c x) is :=
    between.mono (ordered.place_notAfter behind) ((ordered.behind (b₄.trans behind)).place_notAfter b₅)
  cases r with
  | ok _ => exact advances_pure kept
  | error e => exact advances_pure kept

include nested

theorem advances_item (members : P.Orders n) (room : s.left ≤ n) (room' : s.left ≤ m) :
    (item P block).Advances c s fun d t => Between (place c s) (place c t) d.items := by
  refine advances_look rfl (advances_look rfl ?_)
  split
  · exact advances_namespaceBlock ordered blocks room' false (.refl _)
  split
  · refine (proceeds_advance.advances ordered.eof).bind fun _ t behind _ => ?_
    have fewer := Cursor.left_le behind
    exact advances_namespaceBlock (ordered.behind behind) blocks (by omega) true
      (ordered.place_notAfter behind)
  · refine advances_look rfl ?_
    split
    · exact advances_linkageBlock ordered blocks room'
    · exact advances_anyDeclaration nested members ordered room none

end Blocks

theorem advances_block {P : Nested} {n m : Nat} (nested : P.Proceeds n) (members : P.Orders n) (le : m ≤ n)
    (c : Context) (s : Cursor) (ordered : Ordered c s) (room : s.left < m) :
    (block P m).Advances c s fun is t => Between (place c s) (place c t) is := by
  induction m generalizing c s with
  | zero => exact absurd room (Nat.not_lt_zero s.left)
  | succ m ih =>
    refine advances_items ordered fun t behind => ?_
    have fewer := Cursor.left_le behind
    exact advances_item (ordered.behind behind) nested (fun c s => ih (by omega) c s) members (by omega)
      (by omega)

theorem advances_topItems {c : Context} {s : Cursor} (ordered : Ordered c s) :
    topItems.Advances c s fun is t => Between (place c s) (place c t) is := by
  refine advances_items ordered fun t behind => advances_look rfl ?_
  have nested := proceeds_upTo t.left
  have members := orders_upTo t.left
  exact advances_item (ordered.behind behind) nested (advances_block nested members (Nat.le_refl _)) members
    (Nat.le_refl _) (Nat.le_refl _)

/-! ### Units -/

/-- The tokens of a unit are located where those of the file are, also an end token that is put there. -/
theorem exists_loc_splitEnd {tokens : List Token} (some_ : tokens ≠ []) :
    ∀ u ∈ (splitEnd tokens).1 ++ [(splitEnd tokens).2], ∃ t ∈ tokens, t.loc = u.loc := by
  fun_induction splitEnd tokens with
  | case1 => exact absurd rfl some_
  | case2 t ends => simp
  | case3 t live => simp [Token.eofAt]
  | case4 t ts more ends => simp
  | case5 t ts more live before eof split ih =>
    rw [split] at ih
    intro u mem
    rcases List.mem_cons.mp mem with rfl | later
    · exact ⟨u, List.mem_cons_self, rfl⟩
    · obtain ⟨x, listed, same⟩ := ih more u later
      exact ⟨x, List.mem_cons_of_mem t listed, same⟩

theorem sorted_splitEnd {tokens : List Token} (sorted : tokens.Pairwise fun t u => t.loc.NotAfter u.loc) :
    ((splitEnd tokens).1 ++ [(splitEnd tokens).2]).Pairwise fun t u => t.loc.NotAfter u.loc := by
  fun_induction splitEnd tokens with
  | case1 => exact List.pairwise_singleton _ _
  | case2 t ends => exact List.pairwise_singleton _ _
  | case3 t live => simpa [Token.eofAt] using Location.NotAfter.refl t.loc
  | case4 t ts more ends => exact List.pairwise_singleton _ _
  | case5 t ts more live before eof split ih =>
    have places := exists_loc_splitEnd more
    rw [split] at ih places
    obtain ⟨first, rest⟩ := List.pairwise_cons.mp sorted
    refine List.pairwise_cons.mpr ⟨fun u mem => ?_, ih rest⟩
    obtain ⟨x, listed, same⟩ := places u mem
    rw [← same]
    exact first x listed

end Grammar

open Grammar

theorem inOrder_of_sorted {tokens : List Token} (sorted : tokens.Pairwise fun t u => t.loc.NotAfter u.loc)
    (accepted : ∀ r ∈ (parseUnit tokens).2, r.skips = false) : InOrder (parseUnit tokens).1 := by
  have ends := isEof_splitEnd tokens
  have ahead := sorted_splitEnd sorted
  unfold parseUnit at accepted ⊢
  rcases split : splitEnd tokens with ⟨ts, eof⟩
  rw [split] at ends ahead accepted
  have ordered : Ordered { eof } (.ofTokens ts) := ⟨ends, ahead⟩
  dsimp only at accepted ⊢
  rcases run : topItems { eof } (.ofTokens ts) with ⟨reports, reason | ⟨items, t⟩⟩
  · exact .nil
  · rw [run] at accepted
    exact (advances_topItems ordered reports items t run accepted).2.ordered

/-- A definition in front of its declarators, one within another one, and some that are lifted out of a
nameless member. -/
def nestedDefinitions : String :=
  "namespace n \x7b\nstruct A \x7b\n  struct B \x7b int x; \x7d b;\n" ++
    "  struct \x7b struct C \x7b\x7d; enum E \x7b e \x7d; \x7d;\n\x7d a, *p;\n" ++
    "void f();\n\x7d\nextern \"C\" \x7b int y; \x7d\n"

end HeaderDecl
