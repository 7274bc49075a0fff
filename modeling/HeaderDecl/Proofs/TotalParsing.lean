import HeaderDecl.Proofs.DeclaratorProgress

/-!
Parsing is total. Declarations have at least one token each, nesting never goes deeper than there are
tokens, and a unit is read to its end.
-/

namespace HeaderDecl.Grammar

open HeaderDecl.Grammar.Parser

/-! ### What declarators declare -/

section Declared

variable {base : Cursor}

theorem Declared.within_of_none {d : Declared} (none : d.failure = none) : d.Within base := by
  intro e failed
  rw [none] at failed
  cases failed

theorem Declared.within_ofFailure (site : Token) (cause : Cause) :
    (ofFailure site cause).Within base := by
  rintro e ⟨⟩ i ⟨⟩

theorem Declared.Within.andThen {d e : Declared} (first : d.Within base) (next : e.Within base) :
    (d.andThen e).Within base := by
  unfold Declared.andThen
  split
  · exact first
  · exact next

namespace Common

variable (c : Common) (fieldCount : Nat)

theorem within_declareFunction (d : Declarator) (name : DeclName) (suffix : FunctionSuffix)
    (tail : Tail) : (c.declareFunction d name suffix tail).Within base := by
  unfold declareFunction
  split
  · exact Declared.within_ofFailure _ _
  · dsimp only
    split
    · exact Declared.within_of_none rfl
    · exact Declared.within_of_none rfl

theorem within_declareObject (d : Declarator) (name : DeclName) (tail : Tail) :
    (c.declareObject fieldCount d name tail).Within base := by
  unfold declareObject
  split
  · exact Declared.within_of_none rfl
  · exact Declared.within_ofFailure _ _
  · dsimp only
    split
    · exact Declared.within_of_none rfl
    · split
      · exact Declared.within_of_none rfl
      · exact Declared.within_of_none rfl
  · exact Declared.within_ofFailure _ _

theorem within_declareOne (d : Declarator) (tail : Tail) :
    (c.declareOne fieldCount d tail).Within base := by
  unfold declareOne
  split
  · exact Declared.within_of_none rfl
  · split
    · exact Declared.within_ofFailure _ _
    · split
      · exact within_declareFunction c d _ _ tail
      · exact within_declareObject c fieldCount d _ tail

theorem within_declareAll (ds : List (Declarator × Tail)) :
    (c.declareAll fieldCount ds).Within base := by
  induction ds generalizing fieldCount with
  | nil => exact Declared.within_of_none rfl
  | cons d ds ih => exact (within_declareOne c fieldCount d.1 d.2).andThen (ih _)

end Common

theorem within_declare (specs : Specifiers) (member : Option MemberContext)
    (template : Option (List (TemplateParam TypeExpr))) (origin : Origin) (scope : List String)
    (ds : List (Declarator × Tail)) :
    (declare specs member template origin scope ds).Within base := by
  unfold declare
  dsimp only
  split
  · exact Common.within_declareAll _ _ _
  · exact (Declared.within_of_none rfl).andThen (Common.within_declareAll _ _ _)

theorem within_declareAlone (specs : Specifiers) (member : Option MemberContext)
    (template : Option (List (TemplateParam TypeExpr))) (origin : Origin) :
    (declareAlone specs member template origin).Within base := by
  unfold declareAlone
  split
  · exact Declared.within_of_none rfl
  · split
    · exact Declared.within_of_none rfl
    · exact Declared.within_of_none rfl

end Declared

/-! ### Declarations -/

section Declarations

variable {P : Nested} {n : Nat} (nested : P.Proceeds n)
variable {fails : Prop} {base s : Cursor} {c : Context}

theorem proceeds_skipped : skipped.Proceeds fails base c s fun d t =>
    t.left ≤ s.left ∧ d.Within base := by
  refine proceeds_skipWhole.bind ?_
  rintro ts _ ⟨-, rfl⟩
  exact proceeds_pure ⟨Nat.sub_le _ _, Declared.within_of_none rfl⟩

/-- A declaration that is skipped from its first token on is not empty. -/
theorem proceeds_skipped_of_head {t : Token} (first : s.ahead.head? = some t)
    (inside : t.isClosing = false) :
    skipped.Proceeds fails base c s fun d t => t.left < s.left ∧ d.Within base := by
  refine proceeds_skipWhole.bind ?_
  rintro ts _ ⟨rfl, rfl⟩
  refine proceeds_pure ⟨?_, Declared.within_of_none rfl⟩
  obtain ⟨rest, ahead⟩ := List.head?_eq_some_iff.mp first
  have some_ : s.left = rest.length + 1 := by rw [s.left_eq, ahead, List.length_cons]
  have read : 0 < (declarationTokens 0 s.ahead).length := by
    rw [ahead, declarationTokens]
    simp only [inside, Bool.and_false, Bool.false_eq_true, if_false]
    split
    · exact Nat.one_pos
    · split
      · exact Nat.one_pos
      · exact Nat.succ_pos _
  rw [Cursor.left_drop]
  omega

theorem proceeds_unmodeled (start : Cursor) (what : String) :
    (unmodeled start what).Proceeds fails base c s fun d t =>
      t.left ≤ s.left ∧ d.Within base := by
  refine proceeds_skipWhole.bind ?_
  rintro ts _ ⟨-, rfl⟩
  refine proceeds_here fun _ => ?_
  extract_lets whole rest
  have last (t : Cursor) (le : t.left ≤ s.left) :
      (rest ()).Proceeds fails base c t fun d u => u.left ≤ s.left ∧ d.Within base :=
    proceeds_pure ⟨le, Declared.within_of_none rfl⟩
  have shorter : (s.drop ts.length).left ≤ s.left := Nat.sub_le _ _
  split
  · exact proceeds_report.bind fun _ t le => last t (by omega)
  · exact last _ shorter

theorem proceeds_isAssignment : isAssignment.Proceeds fails base c s fun _ t => t = s :=
  proceeds_isNextIdentifier fun _ _ => proceeds_nth fun _ => proceeds_pure rfl

include nested

theorem proceeds_declarators (room : s.left ≤ n) :
    (declarators P).Proceeds True base c s fun _ t => t.left < s.left := by
  refine proceeds_collect (·.left ≤ s.left) (·.left < s.left) (fun t le => ?_) (Nat.le_refl _)
  refine (proceeds_declarator nested (by omega)).bind fun d u le' => ?_
  refine (proceeds_tail d).bind fun tail v moved => ?_
  split
  · have body := moved.2 ‹_›
    refine proceeds_take.bind fun _ w passed => proceeds_pure ?_
    exact (by omega : w.left < s.left)
  · have := moved.1
    refine proceeds_take.bind fun comma w passed => ?_
    split
    · have := passed.2.1 ‹_›
      exact proceeds_pure ⟨by omega, by omega⟩
    · exact proceeds_consume.bind fun _ x closed => proceeds_pure (by omega : x.left < s.left)

theorem proceeds_declaration (room : s.left ≤ n) (member : Option MemberContext)
    (template : Option (List (TemplateParam TypeExpr))) (origin : Origin) :
    (declaration P member template origin).Proceeds True base c s fun d t =>
      t.left < s.left ∧ d.Within base := by
  refine (proceeds_specifiers nested room _).bind fun specs t ⟨le, friend⟩ => ?_
  split
  · have := friend ‹_›
    exact proceeds_skipped.mono fun d u ⟨le', within⟩ => ⟨by omega, within⟩
  · refine proceeds_take.bind fun alone u passed => ?_
    split
    · have := passed.2.1 ‹_›
      exact proceeds_pure ⟨by omega, within_declareAlone _ _ _ _⟩
    · refine (proceeds_declarators nested (by omega)).bind fun ds v read => ?_
      refine proceeds_scope (proceeds_reportAll.bind fun _ w le' => ?_)
      exact proceeds_pure ⟨by omega, within_declare _ _ _ _ _ _⟩

theorem proceeds_template (room : s.left ≤ n) (member : Option MemberContext) :
    (template P member).Proceeds True base c s fun d t => t.left < s.left ∧ d.Within base := by
  refine proceeds_here fun _ => proceeds_peek fun first _ => ?_
  refine proceeds_consumeKw.bind fun _ t read => proceeds_isNext fun less _ => ?_
  have skips (u : Cursor) (lt : u.left < s.left) :
      skipped.Proceeds True base c u fun d v => v.left < s.left ∧ d.Within base :=
    proceeds_skipped.mono fun d v ⟨le, within⟩ => ⟨by omega, within⟩
  split
  · refine (proceeds_templateParams nested (by omega)).bind fun params u read' => ?_
    have lt : u.left < s.left := by omega
    have reports (what : String) :
        (unmodeled s what).Proceeds True base c u fun d v => v.left < s.left ∧ d.Within base :=
      (proceeds_unmodeled s what).mono fun d v ⟨le, within⟩ => ⟨by omega, within⟩
    refine proceeds_peek fun next _ => ?_
    split
    · exact skips u lt
    split
    · exact reports _
    split
    · exact reports _
    · refine (proceeds_declaration nested (by omega) member _ _).mono ?_
      rintro d v ⟨read'', within⟩
      exact ⟨by omega, within⟩
  · exact skips t read

theorem proceeds_aliasDeclaration (room : s.left ≤ n) :
    (aliasDeclaration P).Proceeds True base c s fun d t => t.left < s.left ∧ d.Within base := by
  refine proceeds_peek fun first _ => proceeds_consumeKw.bind fun _ t read => ?_
  refine proceeds_isAssignment.bind ?_
  rintro assigns _ rfl
  split
  · refine proceeds_advance.bind fun name u passed => proceeds_advance.bind fun _ v passed' => ?_
    refine (proceeds_typeExpr nested (by omega)).bind fun ty w le => ?_
    exact proceeds_consume.bind fun _ x closed =>
      proceeds_pure ⟨by omega, Declared.within_of_none rfl⟩
  · exact proceeds_skipped.mono fun d u ⟨le, within⟩ => ⟨by omega, within⟩

theorem proceeds_anyDeclaration (room : s.left ≤ n) (member : Option MemberContext) :
    (anyDeclaration P member).Proceeds True base c s fun d t =>
      t.left < s.left ∧ d.Within base := by
  refine proceeds_peek_head fun next ahead => ?_
  split
  · exact proceeds_template nested room member
  split
  · exact proceeds_aliasDeclaration nested room
  split
  · rename_i word
    -- Without its first token there would be nothing to skip.
    have first : s.ahead.head? = some next := by
      have := isEof_of_isWordIn word
      grind
    refine proceeds_skipped_of_head first ?_
    grind [Token.isWordIn, Token.isClosing, Token.is]
  · exact proceeds_declaration nested room member none _

/-- One level more of nesting takes one token more. -/
theorem Nested.Proceeds.step : P.step.Proceeds (n + 1) where
  type _ _ _ room := proceeds_typeExpr nested (Nat.lt_succ_iff.mp room)
  specifiers _ _ _ room :=
    (proceeds_specifiers nested (Nat.lt_succ_iff.mp room) none).mono fun _ _ h => h.1
  declarator _ _ _ room := proceeds_declarator nested (Nat.lt_succ_iff.mp room)
  templateParams _ _ _ room :=
    (proceeds_templateParams nested (Nat.lt_succ_iff.mp room)).mono fun _ _ lt => Nat.le_of_lt lt
  member m _ _ _ room := proceeds_anyDeclaration nested (Nat.lt_succ_iff.mp room) (some m)

end Declarations

/-- Nesting is not too deep with fewer tokens ahead than there are levels. -/
theorem proceeds_upTo (n : Nat) : (Nested.upTo n).Proceeds n := by
  induction n with
  | zero =>
    have none {s : Cursor} : ¬s.left < 0 := Nat.not_lt_zero _
    exact ⟨fun _ _ _ room => absurd room none, fun _ _ _ room => absurd room none,
      fun _ _ _ room => absurd room none, fun _ _ _ room => absurd room none,
      fun _ _ _ _ room => absurd room none⟩
  | succ n ih =>
    rw [Nested.upTo, Nested.delayed_eq]
    exact ih.step

/-! ### Items -/

section Items

variable {fails : Prop} {base s : Cursor} {c : Context}

/-- A list of items never fails, and ends at its closing punctuator or at the end. -/
theorem proceeds_items {close : List Punct} {item : Parser Declared}
    (each : ∀ t, t.left ≤ s.left → item.Proceeds True t c t fun d u =>
      u.left < t.left ∧ d.Within t) :
    (items close item).Proceeds fails base c s fun _ t =>
      t.left ≤ s.left ∧ ∀ x ∈ t.ahead.head?, x.isEof = true ∨ close.any x.is = true := by
  refine proceeds_collect (·.left ≤ s.left) _ (fun t le => ?_) (Nat.le_refl _)
  refine proceeds_atEndOr fun atEnd ahead closed => ?_
  cases atEnd with
  | true => exact proceeds_pure ⟨le, closed rfl⟩
  | false =>
    refine proceeds_take.bind fun semicolon u passed => ?_
    cases semicolon with
    | true => exact proceeds_pure ⟨by omega, passed.2.1 rfl⟩
    | false =>
      obtain rfl := passed.2.2 rfl
      refine (proceeds_recovering (ahead rfl) (each _ le)).bind fun d v lt => ?_
      exact proceeds_pure ⟨by omega, lt⟩

theorem proceeds_namespaceNames :
    namespaceNames.Proceeds fails base c s fun _ t => t.left ≤ s.left := by
  refine proceeds_collect_of_leads fun t le => ?_
  refine proceeds_takeName.bind fun name u moved => ?_
  cases name with
  | none => exact proceeds_pure (.stop moved.1)
  | some name =>
    have read : u.left < t.left := moved.2 rfl
    refine proceeds_take.bind fun more v passed => ?_
    extract_lets rest
    have last (w : Cursor) (le : w.left ≤ v.left) :
        (rest ()).Proceeds fails base c w fun r => t.Leads r.2 :=
      proceeds_pure (.more (by omega))
    split
    · exact proceeds_takeKw.bind fun _ w passed' => last w passed'.1
    · exact last v (Nat.le_refl _)

section Blocks

variable {P : Nested} {n m : Nat} (nested : P.Proceeds n) {block : Parser (List Item)}
variable (blocks : ∀ base c s, s.left < m →
  block.Proceeds True base c s fun _ t => t.left ≤ s.left)

include blocks

theorem proceeds_namespaceBlock (room : s.left ≤ m) (isInline : Bool) :
    (namespaceBlock block isInline).Proceeds True base c s fun d t =>
      t.left < s.left ∧ d.Within base := by
  refine proceeds_peek fun first _ => proceeds_consumeKw.bind fun _ t read => ?_
  refine proceeds_isAssignment.bind ?_
  rintro assigns _ rfl
  split
  · exact proceeds_skipped.mono fun d u ⟨le, within⟩ => ⟨by omega, within⟩
  · refine proceeds_namespaceNames.bind fun names u le => ?_
    refine proceeds_skipAttributes.bind fun _ v le' => proceeds_consume.bind fun _ w opened => ?_
    refine (proceeds_within (blocks _ _ _ (by omega))).bind fun items x le'' => ?_
    exact proceeds_consume.bind fun _ y closed =>
      proceeds_pure ⟨by omega, Declared.within_of_none rfl⟩

theorem proceeds_linkageBlock (room : s.left ≤ m) :
    (linkageBlock block).Proceeds True base c s fun d t => t.left < s.left ∧ d.Within base := by
  refine proceeds_consumeKw.bind fun _ t read => ?_
  refine (proceeds_consumeKind (by nofun)).bind fun _ u language => ?_
  refine proceeds_consume.bind fun _ v opened => ?_
  refine (blocks _ _ _ (by omega)).bind fun items w le => ?_
  have closes : (consume .rbrace).attempt.Proceeds True base c w fun r x =>
      x.left < s.left ∧ ∀ e, r = .error e → e.Within base := by
    refine proceeds_attempt (proceeds_consume.mono fun _ x closed => ⟨by omega, ?_⟩) ?_
    · intro e same
      cases same
    · intro e within
      refine ⟨by omega, ?_⟩
      intro e' same
      cases same
      exact within
  refine closes.bind ?_
  rintro (e | _) x ⟨lt, within⟩
  · refine proceeds_pure ⟨lt, ?_⟩
    intro e' same
    cases same
    exact within e rfl
  · exact proceeds_pure ⟨lt, Declared.within_of_none rfl⟩

include nested

theorem proceeds_item (room : s.left ≤ n) (room' : s.left ≤ m) :
    (item P block).Proceeds True base c s fun d t => t.left < s.left ∧ d.Within base := by
  refine proceeds_peek fun first ahead => proceeds_nth fun next => ?_
  split
  · exact proceeds_namespaceBlock blocks room' false
  split
  · refine proceeds_advance.bind fun _ t read => ?_
    refine (proceeds_namespaceBlock blocks (by omega) true).mono fun d u ⟨lt, within⟩ => ?_
    exact ⟨by omega, within⟩
  · refine proceeds_nth fun brace => ?_
    split
    · exact proceeds_linkageBlock blocks room'
    · exact proceeds_anyDeclaration nested room none

end Blocks

theorem proceeds_block {P : Nested} {n : Nat} (nested : P.Proceeds n) {m : Nat} (le : m ≤ n)
    {base s : Cursor} {c : Context} (room : s.left < m) :
    (block P m).Proceeds fails base c s fun _ t => t.left ≤ s.left := by
  -- A block within a block has fewer tokens ahead, by the brace that opens it.
  induction m generalizing fails base s c with
  | zero => exact absurd room (Nat.not_lt_zero _)
  | succ m ih =>
    refine (proceeds_items (s := s) fun t le' => ?_).mono fun _ _ h => h.1
    exact proceeds_item nested (fun _ _ _ room' => ih (by omega) room') (by omega) (by omega)

theorem proceeds_topItem :
    topItem.Proceeds True base c s fun d t => t.left < s.left ∧ d.Within base := by
  refine proceeds_here fun _ => ?_
  exact proceeds_item (proceeds_upTo s.left)
    (fun _ _ _ room => proceeds_block (proceeds_upTo s.left) (Nat.le_refl _) room)
    (Nat.le_refl _) (Nat.le_refl _)

/-- Items outside of any block go on to the end. -/
theorem proceeds_topItems :
    topItems.Proceeds False base c s fun _ t => ∀ x ∈ t.ahead.head?, x.isEof = true :=
  (proceeds_items fun _ _ => proceeds_topItem).mono fun _ t ends x first => by
    simpa using ends.2 x first

end Items

/-! ### Units -/

/-- Before the end token all tokens are read. -/
theorem exists_topItems {c : Context} {ts : List Token} (eof : c.eof.isEof = true)
    (inner : ∀ t ∈ ts, t.isEof = false) :
    ∃ reports items, topItems c (.ofTokens ts) = ⟨reports, .ok (items, .ofTokens [])⟩ := by
  have ends := proceeds_topItems eof (List.suffix_refl (Cursor.ofTokens ts).ahead)
  rcases done : topItems c (.ofTokens ts) with ⟨reports, (e | _ | _) | ⟨items, t⟩⟩
  all_goals rw [done] at ends
  · exact ends.1.elim
  · exact ends.elim
  · exact ends.elim
  · obtain ⟨behind, last⟩ := ends
    -- It ends in front of an end token, and there is none among the tokens.
    have none : t.ahead = [] := by
      rcases ahead : t.ahead with _ | ⟨x, xs⟩
      · rfl
      · have inside : x ∈ ts := behind.subset (ahead ▸ List.mem_cons_self)
        have isEof := last x (by rw [ahead]; rfl)
        rw [inner x inside] at isEof
        cases isEof
    exact ⟨reports, items, by rw [show t = .ofTokens [] from Cursor.ext none]⟩

/-- The tokens before the end token, which may be one that is put there. -/
theorem splitEnd_spec (tokens : List Token) (inner : ∀ t ∈ tokens.dropLast, t.isEof = false) :
    ∃ ts eof, splitEnd tokens = (ts, eof) ∧ eof.isEof = true ∧ (∀ t ∈ ts, t.isEof = false) ∧
      (tokens = ts ++ [eof] ∨ tokens = ts) := by
  rcases tokens.eq_nil_or_concat with rfl | ⟨ts, last, rfl⟩
  · exact ⟨[], _, rfl, rfl, nofun, .inr rfl⟩
  · rw [List.concat_eq_append] at inner ⊢
    rw [List.dropLast_concat] at inner
    cases ends : last.isEof with
    | true => exact ⟨ts, last, splitEnd_append inner ends, ends, inner, .inl rfl⟩
    | false =>
      have live : ∀ t ∈ ts ++ [last], t.isEof = false := by
        simpa [or_imp, forall_and, ends] using inner
      obtain ⟨loc, put⟩ := exists_splitEnd live
      exact ⟨_, _, put, rfl, live, .inr rfl⟩

end HeaderDecl.Grammar

namespace HeaderDecl

open HeaderDecl.Grammar

/-- For all tokens of which none but the last is an end token, parsing comes to an end, with all tokens
read: no repetition stands still, nesting is never too deep and nothing is read that is not ahead, since
nothing would recover from that. -/
theorem parseUnit_total (tokens : List Token) (inner : ∀ t ∈ tokens.dropLast, t.isEof = false) :
    ∃ ts eof items reports, (tokens = ts ++ [eof] ∨ tokens = ts) ∧ eof.isEof = true ∧
      (∀ t ∈ ts, t.isEof = false) ∧
      topItems { eof } (.ofTokens ts) = ⟨reports, .ok (items, .ofTokens [])⟩ ∧
      parseUnit tokens = (items, reports) := by
  obtain ⟨ts, eof, split, ends, live, whole⟩ := splitEnd_spec tokens inner
  obtain ⟨reports, items, run⟩ := exists_topItems (c := { eof }) ends live
  refine ⟨ts, eof, items, reports, whole, ends, live, run, ?_⟩
  unfold parseUnit
  rw [split]
  dsimp only
  rw [run]

/-- Brackets that close nothing, and some that are never closed. -/
def strayBrackets : List Token :=
  [.synthetic (.punct .rbrace) "\x7d", .synthetic (.kw .struct) "struct",
    .synthetic (.punct .lbrace) "\x7b", .synthetic (.punct .rparen) ")",
    .synthetic (.punct .lbracket) "[", .eofAt .synthetic]

theorem parseUnit_total_strayBrackets :
    (∀ t ∈ strayBrackets.dropLast, t.isEof = false) ∧
    ∃ ts eof items reports, (strayBrackets = ts ++ [eof] ∨ strayBrackets = ts) ∧
      eof.isEof = true ∧ (∀ t ∈ ts, t.isEof = false) ∧
      topItems { eof } (.ofTokens ts) = ⟨reports, .ok (items, .ofTokens [])⟩ ∧
      parseUnit strayBrackets = (items, reports) :=
  ⟨by decide, parseUnit_total strayBrackets (by decide)⟩

end HeaderDecl
