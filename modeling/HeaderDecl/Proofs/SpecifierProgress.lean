import HeaderDecl.Proofs.ParserProgress

/-!
The parts of a declaration come to an end, if what nests in them does with fewer tokens ahead.
-/

namespace HeaderDecl.Grammar

open HeaderDecl.Grammar.Parser

/-- If what was declared ends in a failure, that is one behind `base`. -/
def Declared.Within (d : Declared) (base : Cursor) : Prop := ∀ e ∈ d.failure, e.Within base

/-! ### Recovery -/

section Recovery

variable {fails : Prop} {base s start : Cursor} {c : Context}

/-- Skipping gets on, also where no declaration begins. -/
theorem proceeds_skipFrom (behind : start.ahead <:+ base.ahead) (some_ : 0 < start.left) :
    (skipFrom start).Proceeds fails base c s fun _ t => t.left < start.left := by
  refine proceeds_goTo behind (proceeds_skipWhole.bind ?_)
  rintro ts _ ⟨-, rfl⟩
  split
  · refine proceeds_advance.bind fun _ u passed => proceeds_pure ?_
    rw [Cursor.left_drop] at passed
    omega
  · rename_i some_ts
    have := List.length_pos_iff.mpr fun none => some_ts none
    refine proceeds_pure ?_
    rw [Cursor.left_drop]
    omega

theorem proceeds_standsAlone {i : Invocation} :
    (standsAlone i).Proceeds fails base c s fun _ t => t = s :=
  proceeds_pure rfl

/-- Recovery gets on from where the declaration began. -/
theorem proceeds_recover {e : Failure} (within : e.Within start) (some_ : 0 < start.left) :
    (recover start e).Proceeds fails start c s fun _ t => t.left < start.left := by
  have here := List.suffix_refl start.ahead
  unfold recover
  split
  · rename_i name i _ invoked
    obtain ⟨behind, used⟩ := within i invoked
    refine proceeds_standsAlone.bind fun alone t _ => ?_
    extract_lets rest
    have last (u : Cursor) (lt : u.left < start.left) :
        (rest ()).Proceeds fails start c u fun _ t => t.left < start.left :=
      proceeds_report.mono fun _ v le => by omega
    split
    · -- The macro was used where the declaration began, so behind its use there is less ahead.
      rename_i first
      have same : i.start.left = start.left := by simp_all
      refine proceeds_goTo behind (proceeds_take.bind fun _ u passed => last u ?_)
      omega
    · exact (proceeds_skipFrom here some_).bind fun _ u lt => last u lt
  · refine (proceeds_skipFrom here some_).bind fun ts t lt => ?_
    exact proceeds_report.mono fun _ u le => by omega

/-- With recovery a declaration never fails, and has at least one token. -/
theorem proceeds_recovering {p : Parser Declared} (some_ : 0 < s.left)
    (h : p.Proceeds True s c s fun d t => t.left < s.left ∧ d.Within s) :
    (recovering p).Proceeds fails base c s fun _ t => t.left < s.left := by
  -- Failures are told from where the declaration begins, not from `base`.
  refine Proceeds.rebase (proceeds_here fun _ => ?_)
  have tried : p.attempt.Proceeds fails s c s fun r t =>
      (∀ d, r = .ok d → t.left < s.left ∧ d.Within s) ∧ ∀ e, r = .error e → e.Within s := by
    refine proceeds_attempt (h.mono fun d t read => ⟨?_, ?_⟩) fun e within => ⟨?_, ?_⟩
    · intro d' same
      cases same
      exact read
    · intro e same
      cases same
    · intro d same
      cases same
    · intro e' same
      cases same
      exact within
  refine tried.bind fun r t done => ?_
  extract_lets d rest
  have last (u : Cursor) (lt : u.left < s.left) :
      (rest ()).Proceeds fails s c u fun _ t => t.left < s.left := proceeds_pure lt
  split
  · rename_i e failed
    have within : e.Within s := by
      cases r with
      | ok d => exact (done.1 d rfl).2 e failed
      | error e' => exact Option.some.inj failed ▸ done.2 e' rfl
    exact (proceeds_recover within some_).bind fun _ u lt => last u lt
  · rename_i none
    cases r with
    | ok d => exact last t (done.1 d rfl).1
    | error e => exact absurd rfl (none e)

end Recovery

/-- The parsers of what may nest come to an end with fewer tokens ahead than `n`. A member has at least
one token. -/
structure Nested.Proceeds (P : Nested) (n : Nat) : Prop where
  type : ∀ base c s, s.left < n → P.type.Proceeds True base c s fun _ t => t.left ≤ s.left
  specifiers : ∀ base c s, s.left < n →
    P.specifiers.Proceeds True base c s fun _ t => t.left ≤ s.left
  declarator : ∀ base c s, s.left < n →
    P.declarator.Proceeds True base c s fun _ t => t.left ≤ s.left
  templateParams : ∀ base c s, s.left < n →
    P.templateParams.Proceeds True base c s fun _ t => t.left ≤ s.left
  member : ∀ m base c s, s.left < n →
    (P.member m).Proceeds True base c s fun d t => t.left < s.left ∧ d.Within base

section Parts

variable {P : Nested} {n : Nat} (nested : P.Proceeds n)
variable {base s : Cursor} {c : Context}

include nested

/-! ### Names -/

theorem proceeds_typeArg (room : s.left < n) :
    (typeArg P).Proceeds True base c s fun _ t => t.left ≤ s.left := by
  refine (nested.type _ _ _ room).bind fun ty t le => proceeds_peek fun next _ => ?_
  split
  · exact proceeds_pure le
  · exact proceeds_failHere

theorem proceeds_templateArg (room : s.left < n) :
    (templateArg P).Proceeds True base c s fun _ t => t.left ≤ s.left := by
  refine proceeds_peek fun next _ => ?_
  extract_lets rest
  have last (ty : Option TypeExpr) (t : Cursor) (le : t.left ≤ s.left) :
      (rest ty).Proceeds True base c t fun _ u => u.left ≤ s.left := by
    unfold rest
    split
    · exact proceeds_pure le
    · refine proceeds_skipTo.bind fun ts u le' => ?_
      split
      · exact proceeds_failHere
      · exact proceeds_pure (by omega)
  split
  · refine (proceeds_speculate ?_ (Nat.le_refl _)).bind last
    exact proceeds_typeArg nested room
  · exact last none s (Nat.le_refl _)

theorem proceeds_templateArgs (room : s.left ≤ n) :
    (templateArgs P).Proceeds True base c s fun _ t => t.left < s.left := by
  refine proceeds_consume.bind fun _ t opened => ?_
  refine (proceeds_commaSeparated fun u le => ?_).bind fun args u le => ?_
  · refine (proceeds_templateArg nested (by omega)).bind fun a v le' => ?_
    refine proceeds_take.bind fun _ w passed => proceeds_pure ?_
    omega
  · exact proceeds_consume.bind fun _ v closed => proceeds_pure (by omega)

theorem proceeds_nameSegment (room : s.left ≤ n) :
    (nameSegment P).Proceeds True base c s fun _ t => t.left < s.left := by
  refine proceeds_takeKw.bind fun _ t passed => ?_
  refine (proceeds_consumeKind (by nofun)).bind fun name u read => ?_
  refine proceeds_isNext fun less _ => ?_
  extract_lets rest
  have last (args : Option (List ArgExpr)) (v : Cursor) (lt : v.left < s.left) :
      (rest args).Proceeds True base c v fun _ t => t.left < s.left := proceeds_pure lt
  split
  · refine (proceeds_templateArgs nested (by omega)).map_bind fun args v lt => last _ _ ?_
    omega
  · exact last none u (by omega)

omit nested in
theorem proceeds_segmentFollows {fails : Prop} :
    segmentFollows.Proceeds fails base c s fun b t => t = s ∧ (b = true → 0 < s.left) :=
  proceeds_nth fun _ => proceeds_isNext fun colon found => proceeds_pure (by grind)

theorem proceeds_namePath (room : s.left ≤ n) :
    (namePath P).Proceeds True base c s fun _ t => t.left < s.left := by
  refine proceeds_take.bind fun absolute t passed => ?_
  refine (proceeds_nameSegment nested (by omega)).bind fun first u read => ?_
  refine (proceeds_collect_of_leads fun v le => ?_).bind fun rest v le => proceeds_pure (by omega)
  refine proceeds_segmentFollows.bind ?_
  rintro more _ ⟨rfl, here⟩
  cases more with
  | true =>
    refine proceeds_advance.bind fun _ x passed => ?_
    refine (proceeds_nameSegment nested (by omega)).bind fun seg y read => proceeds_pure (.more ?_)
    have := here rfl
    omega
  | false => exact proceeds_pure (.stop (Nat.le_refl _))

theorem proceeds_tagName (room : s.left ≤ n) :
    (tagName P).Proceeds True base c s fun _ t => t.left ≤ s.left := by
  refine proceeds_peek fun t _ => ?_
  split
  · exact ((proceeds_namePath nested room).mono fun _ _ lt => Nat.le_of_lt lt).map
  · exact proceeds_pure (Nat.le_refl _)

/-! ### Records and enums -/

theorem proceeds_base (room : s.left < n) (kind : RecordKind) :
    (Grammar.base P kind).Proceeds True base c s fun _ t => t.left < s.left := by
  refine proceeds_takeKw.bind fun before t passed => proceeds_peek fun next _ => ?_
  extract_lets access rest
  have last (u : Cursor) (le : u.left ≤ s.left) :
      (rest ()).Proceeds True base c u fun _ t => t.left < s.left := by
    refine proceeds_takeKw.bind fun after v passed' => ?_
    refine (proceeds_namePath nested (by omega)).bind fun name w read => ?_
    exact proceeds_take.bind fun _ x passed'' => proceeds_pure (by omega)
  split
  · exact proceeds_advance.bind fun _ u passed' => last u (by omega)
  · exact last t passed.1

theorem proceeds_bases (room : s.left < n) (kind : RecordKind) :
    (bases P kind).Proceeds True base c s fun _ t => t.left < s.left := by
  refine proceeds_collect (·.left ≤ s.left) (·.left < s.left) (fun t le => ?_) (Nat.le_refl _)
  refine (proceeds_base nested (by omega) kind).bind fun b u read => ?_
  refine proceeds_take.bind fun more v passed => proceeds_pure ?_
  cases more with
  | true => exact ⟨by omega, by omega⟩
  | false => exact (by omega : v.left < s.left)

/-- A member never fails, and has at least one token. -/
theorem proceeds_memberStep {fails : Prop} (room : s.left < n) (name : Option String)
    (m : MemberState) : (memberStep P name m).Proceeds fails base c s fun r => s.Leads r.2.2 := by
  have member (some_ : 0 < s.left) : Parser.Proceeds (do
      if ← take .semicolon then return ([], m, true)
      let d ← recovering (P.member ⟨name, m.access, m.fieldCount⟩)
      return ([d], { m with fieldCount := m.fieldCount + d.fields.length }, true) :
        Parser (List Declared × MemberState × Bool)) fails base c s fun r => s.Leads r.2.2 := by
    refine proceeds_take.bind fun semicolon t ⟨le, passed, same⟩ => ?_
    cases semicolon with
    | true => exact proceeds_pure ⟨le, passed⟩
    | false =>
      obtain rfl := same rfl
      refine (proceeds_recovering some_ (nested.member _ _ _ _ room)).bind fun d u lt => ?_
      exact proceeds_pure (.more lt)
  refine proceeds_atEndOr fun atEnd ahead _ => ?_
  cases atEnd with
  | true => exact proceeds_pure (.stop (Nat.le_refl _))
  | false =>
    have some_ := ahead rfl
    refine proceeds_peek fun next _ => ?_
    split
    · refine proceeds_nth fun after => ?_
      split
      · refine proceeds_advance.bind fun _ t passed => proceeds_advance.bind fun _ u passed' => ?_
        exact proceeds_pure (.more (by omega))
      · exact member some_
    · exact member some_

theorem proceeds_recordBody (room : s.left ≤ n) (name : Option String) (kind : RecordKind) :
    (recordBody P name kind).Proceeds True base c s fun _ t => t.left < s.left := by
  refine proceeds_consume.bind fun _ t opened => ?_
  refine (proceeds_within (proceeds_collectFrom (fun _ u => u.left ≤ t.left) (·.left ≤ t.left)
    (fun m u le => ?_) (Nat.le_refl _))).bind fun members u le => ?_
  · refine (proceeds_memberStep nested (by omega) name m).mono fun r v step => ?_
    rcases r with ⟨ds, m', _ | _⟩
    · exact Nat.le_trans step.1 le
    · exact ⟨Nat.le_trans step.1 le, step.2 rfl⟩
  · exact proceeds_consume.bind fun _ v closed => proceeds_pure (by omega)

omit nested in
/-- A name that can only be a macro is used at least as far as it goes. -/
theorem proceeds_unknownMacro {α : Type} {Q : α → Cursor → Prop} (some_ : 0 < s.left) :
    unknownMacro.Proceeds True base c s Q := by
  refine proceeds_here fun behind => proceeds_advance.bind fun name t passed => ?_
  refine proceeds_isNext fun paren _ => ?_
  extract_lets rest
  have last (u : Cursor) (lt : u.left < s.left) : (rest ()).Proceeds True base c u Q := by
    refine proceeds_here fun after => proceeds_failWith ?_
    rintro i ⟨⟩
    exact ⟨after, lt⟩
  split
  · exact proceeds_skipGroup.bind fun _ u le => last u (by omega)
  · exact last t (by omega)

omit nested in
theorem proceeds_isBeforeName {fails : Prop} (path : Option PathExpr) :
    (isBeforeName path).Proceeds fails base c s fun b t => t = s ∧ (b = true → 0 < s.left) :=
  proceeds_peek fun next ahead => proceeds_nth fun after =>
    proceeds_pure ⟨rfl, fun found => ahead (by grind [Token.isEof])⟩

theorem proceeds_record (room : s.left ≤ n) (some_ : 0 < s.left) (specs : Specifiers) :
    (record P specs).Proceeds True base c s fun _ t => t.left < s.left := by
  refine proceeds_advance.bind fun first t passed => ?_
  refine proceeds_skipAttributes.bind fun _ u le => proceeds_here fun behind => ?_
  refine (proceeds_tagName nested (by omega)).bind fun path v le' => ?_
  refine (proceeds_isBeforeName path).bind ?_
  rintro isMacro _ ⟨rfl, ahead⟩
  extract_lets -underBinder rest
  have last (w : Cursor) (lt : w.left < s.left) :
      (rest ()).Proceeds True base c w fun _ t => t.left < s.left := by
    refine proceeds_isNextWord fun final _ => ?_
    extract_lets -underBinder heading
    have body (w : Cursor) (lt : w.left < s.left) :
        (heading ()).Proceeds True base c w fun _ t => t.left < s.left := by
      refine proceeds_take.bind fun colon x passed => ?_
      extract_lets -underBinder define
      have named (bs : List (BaseSpec PathExpr)) (y : Cursor) (lt : y.left < s.left) :
          (define bs).Proceeds True base c y fun _ t => t.left < s.left := by
        refine proceeds_isNext fun brace _ => ?_
        split
        · refine (proceeds_recordBody nested (by omega) _ _).bind fun members z closed => ?_
          exact proceeds_pure (by omega)
        · split
          · exact proceeds_failHere
          · exact proceeds_pure lt
      split
      · exact (proceeds_bases nested (by omega) _).bind fun bs y read => named bs y (by omega)
      · exact named [] x (by omega)
    split
    · exact proceeds_advance.bind fun _ x passed => body x (by omega)
    · exact body w lt
  split
  · -- The macro and a name stand ahead.
    have := ahead ‹_›
    exact proceeds_goTo behind ((proceeds_unknownMacro (by omega)).bind fun _ => last)
  · exact last _ (by omega)

omit nested in
theorem proceeds_value (stops : List Punct) :
    (value stops).Proceeds True base c s fun _ t => t.left ≤ s.left := by
  refine proceeds_peek fun t _ => proceeds_skipTo.bind fun ts u le => ?_
  split
  · exact proceeds_failAt
  · exact proceeds_pure le

omit nested in
theorem proceeds_enumerator : enumerator.Proceeds True base c s fun _ t => t.left ≤ s.left := by
  refine (proceeds_consumeKind (by nofun)).bind fun name t read => ?_
  refine proceeds_skipAttributes.bind fun _ u le => proceeds_take.bind fun eq v passed => ?_
  extract_lets rest
  have last (value : Option Value) (w : Cursor) (le : w.left ≤ s.left) :
      (rest value).Proceeds True base c w fun _ t => t.left ≤ s.left := proceeds_pure le
  split
  · exact (proceeds_value _).map_bind fun value w le' => last _ w (by omega)
  · exact last none v (by omega)

omit nested in
theorem proceeds_enumerators : enumerators.Proceeds True base c s fun _ t => t.left < s.left := by
  refine proceeds_consume.bind fun _ t opened => ?_
  refine (proceeds_commaSeparated fun _ _ => proceeds_enumerator).bind fun members u le => ?_
  exact proceeds_consume.bind fun _ v closed => proceeds_pure (by omega)

theorem proceeds_enum (room : s.left ≤ n) (specs : Specifiers) :
    (enum P specs).Proceeds True base c s fun _ t => t.left < s.left := by
  refine proceeds_consumeKw.bind fun _ t read => proceeds_takeKw.bind fun isClass u passed => ?_
  extract_lets rest
  have last (isScoped : Bool) (v : Cursor) (lt : v.left < s.left) :
      (rest isScoped).Proceeds True base c v fun _ t => t.left < s.left := by
    refine proceeds_skipAttributes.bind fun _ w le => ?_
    refine (proceeds_tagName nested (by omega)).bind fun path x le' => ?_
    refine proceeds_take.bind fun colon y passed' => ?_
    extract_lets -underBinder define
    have named (underlying : TypeExpr) (z : Cursor) (lt : z.left < s.left) :
        (define underlying).Proceeds True base c z fun _ t => t.left < s.left := by
      refine proceeds_isNext fun brace _ => ?_
      split
      · exact proceeds_enumerators.bind fun members _ closed => proceeds_pure (by omega)
      · split
        · exact proceeds_failHere
        · exact proceeds_pure lt
    split
    · exact (nested.type _ _ _ (by omega)).bind fun ty z le'' => named ty z (by omega)
    · exact named _ y (by omega)
  split
  · exact last true u (by omega)
  · exact proceeds_takeKw.bind fun isScoped v passed' => last isScoped v (by omega)

/-! ### Specifiers -/

omit nested in
theorem proceeds_looksLikeMacro {fails : Prop} :
    looksLikeMacro.Proceeds fails base c s fun _ t => t = s :=
  proceeds_peek fun _ _ => proceeds_nth fun _ => proceeds_pure rfl

/-- Behind a specifier at least one token was read. Where there is none, those before it stay. -/
def Specifiers.Extends (specs : Specifiers) (s : Cursor) (r : Specifiers × Bool) (t : Cursor) :
    Prop :=
  t.left ≤ s.left ∧ (r.2 = true → t.left < s.left) ∧ (r.2 = false → r.1 = specs)

omit nested in
theorem Specifiers.Extends.stay (specs : Specifiers) {s t : Cursor} (le : t.left ≤ s.left) :
    specs.Extends s (specs, false) t :=
  ⟨le, nofun, fun _ => rfl⟩

omit nested in
theorem Specifiers.Extends.more {specs specs' : Specifiers} {s t : Cursor} (lt : t.left < s.left) :
    specs.Extends s (specs', true) t :=
  ⟨Nat.le_of_lt lt, fun _ => lt, nofun⟩

theorem proceeds_typeName (room : s.left ≤ n) (recordName : Option String) (specs : Specifiers) :
    (typeName P recordName specs).Proceeds True base c s (specs.Extends s) := by
  refine proceeds_here fun behind => proceeds_peek fun t ahead => proceeds_nth fun after => ?_
  extract_lets rest
  have stays : (pure (specs, false) : Parser _).Proceeds True base c s (specs.Extends s) :=
    proceeds_pure (.stay specs (Nat.le_refl _))
  have named : (rest ()).Proceeds True base c s (specs.Extends s) := by
    refine (proceeds_namePath nested room).bind fun path t read => proceeds_isNext fun paren _ => ?_
    split
    · exact proceeds_goTo behind stays
    · refine proceeds_looksLikeMacro.bind ?_
      rintro isMacro _ rfl
      extract_lets done
      split
      · exact proceeds_goTo behind ((proceeds_unknownMacro (by omega)).bind fun _ _ h => h)
      · exact proceeds_pure (.more read)
  split
  · split
    · exact stays
    · exact (proceeds_unknownMacro (ahead (by grind [Token.isEof]))).bind fun _ _ h => h
  · exact named

theorem proceeds_specifierStep (room : s.left ≤ n) (recordName : Option String)
    (specs : Specifiers) :
    (specifierStep P recordName specs).Proceeds True base c s (specs.Extends s) := by
  refine proceeds_skipAttributes.bind fun _ t le => proceeds_peek fun next ahead => ?_
  extract_lets -underBinder passed
  have passes (some_ : next.isEof = false) (u : Cursor) (le' : u.left ≤ t.left)
      (specs' : Specifiers) : (passed specs').Proceeds True base c u (specs.Extends s) := by
    have := ahead some_
    refine proceeds_advance.bind fun _ v read => proceeds_pure (.more ?_)
    omega
  have stays : (pure (specs, false) : Parser _).Proceeds True base c t (specs.Extends s) :=
    proceeds_pure (.stay specs le)
  have named : (typeName P recordName specs).Proceeds True base c t (specs.Extends s) := by
    refine (proceeds_typeName nested (by omega) recordName specs).mono fun r u named => ?_
    exact ⟨Nat.le_trans named.1 le, fun more => Nat.lt_of_lt_of_le (named.2.1 more) le, named.2.2⟩
  have other {k : TokenKind} (kind : next.kind = k) (real : k ≠ .eof) : next.isEof = false := by
    simpa [Token.isEof, kind] using real
  split
  all_goals try exact passes (other ‹_› (by simp)) t (Nat.le_refl _) _
  · -- `extern`
    refine proceeds_nth fun after => ?_
    extract_lets rest
    split
    · exact proceeds_advance.bind fun _ u read =>
        passes (other ‹_› (by simp)) u (by omega) _
    · exact passes (other ‹_› (by simp)) t (Nat.le_refl _) _
  iterate 3
    · -- A record
      have := ahead (other ‹_› (by simp))
      split
      · exact stays
      · exact (proceeds_record nested (by omega) this specs).bind fun _ u read =>
          proceeds_pure (.more (by omega))
  · -- `enum`
    split
    · exact stays
    · exact (proceeds_enum nested (by omega) specs).bind fun _ u read =>
        proceeds_pure (.more (by omega))
  · -- `typename`
    split
    · exact stays
    · refine proceeds_advance.bind fun _ u passed => ?_
      refine (proceeds_namePath nested (by omega)).bind fun path v read => proceeds_pure (.more ?_)
      omega
  · -- Any other keyword
    split
    · exact passes (other ‹_› (by simp)) t (Nat.le_refl _) _
    · exact stays
  · -- An identifier
    split
    · exact passes (other ‹_› (by simp)) t (Nat.le_refl _) _
    · split
      · exact stays
      · exact named
  · split
    · exact stays
    · exact named
  · exact stays

/-- The specifiers of a friend are not empty. -/
theorem proceeds_specifiers (room : s.left ≤ n) (recordName : Option String) :
    (specifiers P recordName).Proceeds True base c s fun specs t =>
      t.left ≤ s.left ∧ (specs.isFriend = true → t.left < s.left) := by
  refine proceeds_loop
    (fun specs t => t.left ≤ s.left ∧ (specs.isFriend = true → t.left < s.left)) _ ?_
    ⟨Nat.le_refl _, nofun⟩
  intro specs t ⟨le, friend⟩
  -- The last step leaves the specifiers as they are, so that it was an earlier one that read `friend`.
  refine (proceeds_specifierStep nested (by omega) recordName specs).mono ?_
  rintro ⟨specs', more⟩ u ⟨le', passed, same⟩
  cases more with
  | true =>
    have := passed rfl
    exact ⟨⟨by omega, fun _ => by omega⟩, this⟩
  | false =>
    obtain rfl : specs' = specs := same rfl
    exact ⟨by omega, fun isFriend => Nat.lt_of_le_of_lt le' (friend isFriend)⟩

end Parts

end HeaderDecl.Grammar
