import HeaderDecl.Proofs.DeclaratorValues

/-!
The items of a unit of spelled tokens are written with identifiers.
-/

namespace HeaderDecl

namespace Grammar

open HeaderDecl.Grammar.Parser

variable {c : Context} {s : Cursor}

/-! ### Declarations -/

theorem gives_skipped {inRecord : Bool} : skipped.Gives c s (Declared.Plain inRecord) :=
  proceeds_skipWhole.then fun _ _ => gives_pure Declared.plain_default

theorem gives_unmodeled {start : Cursor} {what : String} {inRecord : Bool} :
    (unmodeled start what).Gives c s (Declared.Plain inRecord) := by
  refine proceeds_skipWhole.then fun first t => gives_here fun _ => ?_
  extract_lets whole rest
  have last (u : Cursor) : (rest ()).Gives c u (Declared.Plain inRecord) :=
    gives_pure Declared.plain_default
  split
  · exact proceeds_report.then fun _ => last
  · exact last t

/-- An assignment begins with an identifier. -/
theorem gives_isAssignment {α : Type} {f : Bool → Parser α} {Q : α → Prop}
    (next : ∀ b, (b = true → (Parser.next c s.ahead).kind = .identifier) → (f b).Gives c s Q) :
    (isAssignment >>= f).Gives c s Q :=
  gives_isNextIdentifier fun named kind => gives_nth fun after =>
    next (named && after.is .eq) fun both => kind (Bool.and_eq_true_iff.mp both).1

section Declarations

variable {P : Nested} (nested : P.Gives)

include nested

theorem gives_declarators : (declarators P).Gives c s fun ds => ∀ d ∈ ds, d.1.Plain := by
  refine gives_collect _ fun t => (gives_declarator nested).bind fun d u plain => ?_
  refine (proceeds_tail d).then fun tail v => ?_
  split
  · exact proceeds_take.then fun _ w => gives_pure (List.forall_mem_singleton.mpr plain)
  · refine proceeds_take.then fun comma w => ?_
    split
    · exact gives_pure (List.forall_mem_singleton.mpr plain)
    · exact proceeds_consume.then fun _ x => gives_pure (List.forall_mem_singleton.mpr plain)

theorem gives_declaration (member : Option MemberContext)
    {template : Option (List (TemplateParam TypeExpr))}
    (params : ∀ ps ∈ template, TemplateParam.AllPlain ps) (origin : Origin) :
    (declaration P member template origin).Gives c s (Declared.Plain member.isSome) := by
  refine (gives_specifiers nested _).bind fun specs t plain => ?_
  split
  · exact gives_skipped
  · refine proceeds_take.then fun alone u => ?_
    split
    · exact gives_pure (plain_declareAlone plain member params origin)
    · refine (gives_declarators nested).bind fun ds v hds => gives_scope ?_
      refine proceeds_reportAll.then fun _ w => gives_pure ?_
      exact plain_declare plain member params origin _ hds

theorem gives_template (member : Option MemberContext) :
    (template P member).Gives c s (Declared.Plain member.isSome) := by
  refine gives_here fun start => gives_peek fun first _ _ => proceeds_consumeKw.then fun _ t => ?_
  refine gives_isNext fun less => ?_
  split
  · refine (gives_templateParams nested).bind fun params u plain => gives_peek fun next _ _ => ?_
    split
    · exact gives_skipped
    split
    · exact gives_unmodeled
    split
    · exact gives_unmodeled
    · exact gives_declaration nested member (forall_mem_some.mpr plain) _
  · exact gives_skipped

theorem gives_aliasDeclaration {inRecord : Bool} :
    (aliasDeclaration P).Gives c s (Declared.Plain inRecord) := by
  refine gives_peek fun first _ _ => proceeds_consumeKw.then fun _ t => ?_
  refine gives_isAssignment fun assigns kind => ?_
  split
  · refine gives_advance.bind fun name u ⟨same, spelled⟩ => gives_pass fun _ v => ?_
    have plain : Name.Plain name.text := spelled.plain (same ▸ kind ‹_›)
    refine (gives_typeExpr nested).bind fun ty w hty => proceeds_consume.then fun _ x => ?_
    refine gives_pure (Declared.plain_ofItem ⟨?_, by simp [Decl.bases]⟩ plain)
    exact List.forall_mem_singleton.mpr hty
  · exact gives_skipped

theorem gives_anyDeclaration (member : Option MemberContext) :
    (anyDeclaration P member).Gives c s (Declared.Plain member.isSome) := by
  refine gives_peek fun next _ _ => ?_
  split
  · exact gives_template nested member
  split
  · exact gives_aliasDeclaration nested
  split
  · exact gives_skipped
  · exact gives_declaration nested member forall_mem_none _

theorem Nested.Gives.step : P.step.Gives where
  type _ _ := gives_typeExpr nested
  specifiers _ _ := gives_specifiers nested none
  declarator _ _ := gives_declarator nested
  templateParams _ _ := gives_templateParams nested
  member m _ _ := gives_anyDeclaration nested (some m)

end Declarations

/-- Nothing is given by nesting that is too deep. -/
theorem gives_nothing : Nested.nothing.Gives :=
  ⟨fun _ _ _ _ => trivial, fun _ _ _ _ => trivial, fun _ _ _ _ => trivial, fun _ _ _ _ => trivial,
    fun _ _ _ _ _ => trivial⟩

theorem gives_upTo (n : Nat) : (Nested.upTo n).Gives := by
  induction n with
  | zero => exact gives_nothing
  | succ n ih =>
    rw [Nested.upTo, Nested.delayed_eq]
    exact ih.step

/-! ### Items -/

theorem gives_items {close : List Punct} {item : Parser Declared}
    (each : ∀ t, item.Gives c t (Declared.Plain false)) :
    (items close item).Gives c s fun is => ∀ i ∈ is, i.Plain false := by
  refine gives_collect _ fun t => gives_atEndOr fun atEnd => ?_
  split
  · exact gives_none
  · refine proceeds_take.then fun semicolon u => ?_
    split
    · exact gives_none
    · exact (gives_recovering (each u)).bind fun d v plain => gives_pure plain.items

theorem gives_takeName : takeName.Gives c s fun name => ∀ n ∈ name, Name.Plain n := by
  refine gives_isNextIdentifier fun named kind => ?_
  split
  · refine gives_advance.bind fun t u ⟨same, spelled⟩ => ?_
    exact gives_pure (forall_mem_some.mpr (spelled.plain (same ▸ kind ‹_›)))
  · exact gives_pure forall_mem_none

theorem gives_namespaceNames : namespaceNames.Gives c s fun names => ∀ n ∈ names, Name.Plain n := by
  refine gives_collect _ fun t => gives_takeName.bind fun name u plain => ?_
  cases name with
  | none => exact gives_none
  | some name =>
    refine proceeds_take.then fun more v => ?_
    extract_lets rest
    have last (w : Cursor) : (rest ()).Gives c w fun r => ∀ n ∈ r.1, Name.Plain n :=
      gives_pure (List.forall_mem_singleton.mpr (plain name rfl))
    split
    · exact proceeds_takeKw.then fun _ => last
    · exact last v

theorem plain_inNamespaces {origin : Origin} {items : List Item} (inner : ∀ i ∈ items, i.Plain false)
    {names : List String} (h : ∀ n ∈ names, Name.Plain n) :
    (inNamespaces origin items names).Plain false := by
  fun_induction inNamespaces origin items names with
  | case1 => exact .namespaceItem forall_mem_none inner
  | case2 name => exact .namespaceItem (forall_mem_some.mpr (h name List.mem_cons_self)) inner
  | case3 name rest _ ih =>
    have deeper := ih fun n hn => h n (List.mem_cons_of_mem _ hn)
    exact .namespaceItem (forall_mem_some.mpr (h name List.mem_cons_self))
      (List.forall_mem_singleton.mpr deeper)

section Blocks

variable {P : Nested} (nested : P.Gives) {block : Parser (List Item)}
variable (blocks : ∀ c s, block.Gives c s fun is => ∀ i ∈ is, i.Plain false)

include blocks

theorem gives_namespaceBlock (isInline : Bool) :
    (namespaceBlock block isInline).Gives c s (Declared.Plain false) := by
  refine gives_peek fun first _ _ => proceeds_consumeKw.then fun _ t => ?_
  refine proceeds_isAssignment.then fun assigns t => ?_
  split
  · exact gives_skipped
  · refine gives_namespaceNames.bind fun names u plain => proceeds_skipAttributes.then fun _ v => ?_
    refine proceeds_consume.then fun _ w => (gives_within (blocks _ _)).bind fun items x inner => ?_
    refine proceeds_consume.then fun _ y => gives_pure ?_
    refine Declared.plain_ofItems (List.forall_mem_singleton.mpr (plain_inNamespaces inner ?_))
    split
    · exact List.forall_mem_nil _
    · exact plain

theorem gives_linkageBlock : (linkageBlock block).Gives c s (Declared.Plain false) := by
  refine proceeds_consumeKw.then fun _ t => gives_consumeKind.bind fun _ u _ => ?_
  refine proceeds_consume.then fun _ v => (blocks _ _).bind fun items w plain => ?_
  have closes : (consume .rbrace).attempt.Gives c w fun r => ∀ e, r = .error e → e.Spelled := by
    refine gives_attempt (proceeds_consume.gives.mono fun _ _ => ?_) fun e spelled => ?_
    · rintro e ⟨⟩
    · rintro e' ⟨⟩
      exact spelled
  refine closes.bind ?_
  rintro (e | _) x failed
  · exact gives_pure ⟨plain, List.forall_mem_nil _, List.forall_mem_nil _,
      forall_mem_some.mpr (failed e rfl)⟩
  · exact gives_pure (Declared.plain_ofItems plain)

include nested

theorem gives_item : (item P block).Gives c s (Declared.Plain false) := by
  refine gives_peek fun first _ _ => gives_nth fun next => ?_
  split
  · exact gives_namespaceBlock blocks false
  split
  · exact gives_pass fun _ t => gives_namespaceBlock blocks true
  · refine gives_nth fun brace => ?_
    split
    · exact gives_linkageBlock blocks
    · exact gives_anyDeclaration nested none

end Blocks

theorem gives_block {P : Nested} (nested : P.Gives) (n : Nat) :
    (block P n).Gives c s fun is => ∀ i ∈ is, i.Plain false := by
  induction n generalizing c s with
  -- A block that is too deep gives nothing, so that no bound on the tokens is asked for here.
  | zero => exact fun _ _ => trivial
  | succ n ih => exact gives_items fun t => gives_item nested fun _ _ => ih

theorem gives_topItem : topItem.Gives c s (Declared.Plain false) :=
  gives_here fun _ => gives_item (gives_upTo s.left) fun _ _ => gives_block (gives_upTo s.left) s.left

theorem gives_topItems : topItems.Gives c s fun is => ∀ i ∈ is, i.Plain false :=
  gives_items fun _ => gives_topItem

/-! ### Units -/

theorem isEof_splitEnd (tokens : List Token) : (splitEnd tokens).2.isEof = true := by
  fun_induction splitEnd tokens with
  | case1 => rfl
  | case2 t eof => exact eof
  | case3 => rfl
  | case4 t ts _ eof => exact eof
  | case5 t ts _ _ before eof same ih => simpa [same] using ih

theorem splitEnd_subset (tokens : List Token) : (splitEnd tokens).1 ⊆ tokens := by
  fun_induction splitEnd tokens with
  | case1 => exact List.nil_subset _
  | case2 t eof => exact List.nil_subset _
  | case3 => exact List.Subset.refl _
  | case4 t ts _ eof => exact List.nil_subset _
  | case5 t ts _ _ before eof same ih =>
    rw [same] at ih
    exact List.cons_subset_cons t ih

end Grammar

open HeaderDecl.Grammar

/-- The items of spelled tokens are written with identifiers. -/
theorem plain_of_mem_parseUnit {tokens : List Token} (spelled : ∀ t ∈ tokens, t.Spelled) :
    ∀ i ∈ (parseUnit tokens).1, i.Plain false := by
  have isEof := isEof_splitEnd tokens
  have ahead := splitEnd_subset tokens
  unfold parseUnit
  rcases split : splitEnd tokens with ⟨ts, eof⟩
  rw [split] at isEof ahead
  have sound : Parser.Sound _ (topItems { eof } (.ofTokens ts)).result :=
    gives_topItems isEof fun t ht => spelled t (ahead ht)
  dsimp only
  rcases done : topItems { eof } (.ofTokens ts) with ⟨reports, reason | ⟨items, t⟩⟩
  · simp
  · rw [done] at sound
    exact sound.2

end HeaderDecl
