import HeaderDecl.Proofs.ExpansionResults
import HeaderDecl.Proofs.TokenTiling
import HeaderDecl.Proofs.UpheldStates
import Mathlib

/-!
What preprocessing puts out: one end token, no malformed token and no name that is stripped. A name
that expansion passes over is that of a macro being replaced, and such a macro is not stripped; and
nothing gets into a text that expansion has not gone through, wherever it comes from.
-/

namespace HeaderDecl

/-- A token that may stand before the end of what is put out. -/
structure Token.Fit (stripped : List String) (t : Token) : Prop where
  goes : t.isEof = false
  sound : t.kind.isError = false
  shown : t.isWord = true → t.text ∉ stripped

/-- Whether tokens are all in front of the end of a file. -/
def Endless (ts : List Token) : Prop := ∀ t ∈ ts, t.isEof = false

namespace Endless

variable {t : Token} {ts us : List Token}

theorem nil : Endless [] := List.forall_mem_nil _

theorem cons (goes : t.isEof = false) (h : Endless ts) : Endless (t :: ts) :=
  List.forall_mem_cons.mpr ⟨goes, h⟩

theorem head (h : Endless (t :: ts)) : t.isEof = false := h t List.mem_cons_self

theorem tail (h : Endless (t :: ts)) : Endless ts := fun u mem => h u (List.mem_cons_of_mem t mem)

theorem append (h : Endless ts) (h' : Endless us) : Endless (ts ++ us) :=
  List.forall_mem_append.mpr ⟨h, h'⟩

theorem reverse (h : Endless ts) : Endless ts.reverse := fun t mem => h t (List.mem_reverse.mp mem)

theorem of_subset (h : Endless ts) (sub : us ⊆ ts) : Endless us := fun t mem => h t (sub mem)

end Endless

namespace Macro

/-! ### Replacements -/

theorem endless_relocate {site : Token} {ts : List Token} (h : Endless ts) :
    Endless (relocate site ts) := by
  cases ts with
  | nil => exact .nil
  | cons t ts =>
    refine .cons h.head fun u mem => ?_
    obtain ⟨v, listed, rfl⟩ := List.mem_map.mp mem
    exact h.tail v listed

/-- A text of one token is no end token. -/
theorem kindOf_ne_eof (text : String) : kindOf text ≠ .eof := by
  have tiling := tiling_lex "<paste>" text
  unfold kindOf
  split
  · rename_i t e lexed
    split
    · rw [lexed] at tiling
      generalize text.toList = ahead at tiling
      intro eof
      cases tiling with
      | more _ goes => simp [Lexer.endsAt, eof] at goes
    · exact TokenKind.noConfusion
  · exact TokenKind.noConfusion

theorem goes_paste (left right : Token) : (paste left right).isEof = false :=
  beq_eq_false_iff_ne.mpr (kindOf_ne_eof (left.text ++ right.text))

theorem endless_pasteOnto {produced right : List Token} (h : Endless produced)
    (h' : Endless right) : Endless (pasteOnto produced right) := by
  unfold pasteOnto
  split
  · exact h'.tail.reverse.append (.cons (goes_paste _ _) h.tail)
  · exact h'.reverse
  · exact h

/-- Whether what a computation gives, if it gives anything, has a property. -/
def Gives {α : Type} (P : α → Prop) (r : Except FatalError α) : Prop := ∀ a, r = .ok a → P a

namespace Gives

variable {α β : Type} {P : α → Prop} {Q : β → Prop}

theorem ok {a : α} (h : P a) : Gives P (.ok a) := by
  rintro _ ⟨⟩
  exact h

theorem error (e : FatalError) : Gives P (.error e) := fun _ h => by cases h

theorem bind {r : Except FatalError α} {f : α → Except FatalError β} (first : Gives P r)
    (next : ∀ a, P a → Gives Q (f a)) : Gives Q (r >>= f) := by
  cases r with
  | error e => exact .error e
  | ok a => exact next a (first a rfl)

end Gives

/-- Where the arguments are endless, as written and as expanded, so is the replacement. -/
theorem endless_substitute {args : String → Option Arg}
    (raw : ∀ name a, args name = some a → Endless a.raw)
    (expanded : ∀ name a, args name = some a → Gives Endless a.expanded.get)
    {produced body : List Token} (before : Endless produced) (h : Endless body) :
    Gives Endless (substitute args produced body) := by
  have asked {t : Token} {kind : TokenKind} {a : Arg}
      (bound : (if kind.isWord then args t.text else none) = some a) : args t.text = some a := by
    split at bound
    · exact bound
    · cases bound
  fun_induction substitute args produced body with
  | case1 produced => exact .ok before.reverse
  | case2 produced t n body _ a _ ih => exact ih (.cons rfl before) h.tail.tail
  | case3 produced t n body _ _ ih => exact ih (.cons h.head before) h.tail
  | case4 produced t _ ih => exact ih (.cons h.head before) .nil
  | case5 produced t n body _ right ih =>
    refine ih (endless_pasteOnto before ?_) h.tail.tail
    simp only [right]
    split
    · exact raw _ _ ‹_›
    · exact .cons h.tail.head .nil
  | case6 produced t _ ih => exact ih before .nil
  | case7 produced t body a _ _ _ _ _ bound ih =>
    exact ih ((raw _ _ (asked bound)).reverse.append before) h.tail
  | case8 produced t body a _ _ _ _ _ bound ih =>
    refine (expanded _ _ (asked bound)).bind fun out fit => ?_
    exact ih out (fit.reverse.append before) h.tail
  | case9 produced t body _ _ _ _ _ ih => exact ih (.cons h.head before) h.tail

/-! ### Arguments -/

theorem endless_of_collectArgs {depth : Nat} {ts arg rest : List Token} {args : List (List Token)}
    (h : Endless ts) (collected : collectArgs depth ts = some (arg, args, rest)) :
    Endless arg ∧ (∀ a ∈ args, Endless a) ∧ Endless rest := by
  induction ts generalizing depth arg args rest with
  | nil => cases collected
  | cons t ts ih =>
    rw [collectArgs] at collected
    split at collected
    · cases collected
      exact ⟨.nil, List.forall_mem_nil _, h.tail⟩
    split at collected
    · obtain ⟨⟨arg', args', rest'⟩, more, eq⟩ := Option.map_eq_some_iff.mp collected
      cases eq
      obtain ⟨first, others, left⟩ := ih h.tail more
      exact ⟨.nil, List.forall_mem_cons.mpr ⟨first, others⟩, left⟩
    · obtain ⟨⟨arg', args', rest'⟩, more, eq⟩ := Option.map_eq_some_iff.mp collected
      cases eq
      obtain ⟨first, others, left⟩ := ih h.tail more
      exact ⟨.cons h.head first, others, left⟩

theorem endless_of_invocation {ts rest : List Token} {args : List (List Token)} (h : Endless ts)
    (invoked : invocation ts = some (args, rest)) : (∀ a ∈ args, Endless a) ∧ Endless rest := by
  cases ts with
  | nil => cases invoked
  | cons t ts =>
    obtain ⟨-, found⟩ := Option.ite_none_right_eq_some.mp invoked
    obtain ⟨⟨arg, args', rest'⟩, collected, eq⟩ := Option.map_eq_some_iff.mp found
    cases eq
    obtain ⟨first, others, left⟩ := endless_of_collectArgs h.tail collected
    exact ⟨List.forall_mem_cons.mpr ⟨first, others⟩, left⟩

theorem endless_joinArgs {args : List (List Token)} (h : ∀ a ∈ args, Endless a) :
    Endless (joinArgs args) := by
  induction args with
  | nil => exact .nil
  | cons a args ih =>
    obtain ⟨first, others⟩ := List.forall_mem_cons.mp h
    cases args with
    | nil => exact first
    | cons b args => exact first.append (.cons rfl (ih others))

theorem endless_arrange {params : List String} {variadic : Bool} {args : List (List Token)}
    (h : ∀ a ∈ args, Endless a) : ∀ a ∈ arrange params variadic args, Endless a := by
  have given : ∀ a ∈ (if params.isEmpty && args == [[]] then [] else args), Endless a := by
    split
    · exact fun _ mem => by cases mem
    · exact h
  unfold arrange
  generalize (if params.isEmpty && args == [[]] then [] else args) = args at given
  dsimp only
  split
  · intro a mem
    simp only [List.mem_append, List.mem_singleton] at mem
    rcases mem with (own | missing) | rfl
    · exact given a (List.mem_of_mem_take own)
    · rw [List.eq_of_mem_replicate missing]
      exact .nil
    · exact endless_joinArgs fun a mem => given a (List.mem_of_mem_drop mem)
  · exact given

theorem endless_afterStripped {s : Scope} {name : String} {ts : List Token} (h : Endless ts) :
    Endless (afterStripped s name ts) := by
  unfold afterStripped
  split
  · split
    · exact (endless_of_invocation h ‹_›).2
    · exact h
  · exact h

/-! ### Expansion -/

/-- Whether the end of no file stands in the body of a macro. -/
def EndlessBodies (table : MacroTable) : Prop :=
  ∀ name m, table.get? name = some m → Endless m.body

theorem fit_append {stripped : List String} {ts us : List Token} (h : ∀ t ∈ ts, t.Fit stripped)
    (h' : ∀ t ∈ us, t.Fit stripped) : ∀ t ∈ ts ++ us, t.Fit stripped :=
  List.forall_mem_append.mpr ⟨h, h'⟩

/-- Expansion gives tokens that are fit, if no macro that is being replaced is stripped. -/
theorem fit_expand {s : Scope} {active : List String} {ts : List Token}
    (bodies : EndlessBodies s.table) (free : ∀ name ∈ active, name ∉ s.stripped) (h : Endless ts) :
    Gives (fun out => ∀ t ∈ out, t.Fit s.stripped) (expand s active ts) := by
  -- A token that stands for itself is either shown or the name of a macro that is being replaced.
  have stays {t : Token} {out : List Token} (goes : t.isEof = false)
      (wellFormed : ∀ e, t.kind = .error e → False) (shown : t.isWord = true → t.text ∉ s.stripped)
      (rest : ∀ u ∈ out, u.Fit s.stripped) : ∀ u ∈ t :: out, u.Fit s.stripped := by
    refine List.forall_mem_cons.mpr ⟨⟨goes, ?_, shown⟩, rest⟩
    cases kind : t.kind with
    | error e => exact (wellFormed e kind).elim
    | _ => rfl
  have enters {active : List String} {name : String} (free : ∀ name ∈ active, name ∉ s.stripped)
      (shown : ¬s.isStripped name = true) : ∀ n ∈ name :: active, n ∉ s.stripped :=
    List.forall_mem_cons.mpr ⟨by simpa [Scope.isStripped] using shown, free⟩
  fun_induction expand s active ts with
  | case1 active => exact .ok (List.forall_mem_nil _)
  | case2 active t ts e _ => exact .error _
  | case3 active t ts wellFormed kept ih =>
    refine (ih free h.tail).bind fun out fit => .ok (stays h.head wellFormed (fun word => ?_) fit)
    have listed : t.text ∈ active := by
      have isWord : t.kind.isWord = true := word
      simpa [isWord] using kept
    exact free t.text listed
  | case4 active t ts skipped _ wellFormed _ ih => exact ih free (endless_afterStripped h.tail)
  | case5 active t ts shown unknown wellFormed _ ih =>
    refine (ih free h.tail).bind fun out fit => .ok (stays h.head wellFormed (fun _ => ?_) fit)
    simpa [Scope.isStripped] using shown
  | case6 active t ts shown m found object wellFormed _ unmarked _ body after =>
    have replaced := body (enters free shown) (endless_relocate (bodies _ _ found))
    refine replaced.bind fun out fit => ?_
    exact (after free h.tail).bind fun rest fit' => .ok (fit_append fit fit')
  | case7 active t ts shown m found params function bare wellFormed _ unmarked _ ih =>
    refine (ih free h.tail).bind fun out fit => .ok (stays h.head wellFormed (fun _ => ?_) fit)
    simpa [Scope.isStripped] using shown
  | case8 active t ts shown m found params function args after invoked _ arranged wellFormed _
      unmarked _ argument body behind =>
    obtain ⟨written, left⟩ := endless_of_invocation h.tail invoked
    have given : ∀ a ∈ arrange params m.variadic.isSome args, Endless a := endless_arrange written
    have fits (a : Arg) (there : a ∈ arranged ∨ a = ⟨[], .pure (.ok [])⟩) :
        Endless a.raw ∧ Gives Endless a.expanded.get := by
      rcases there with there | rfl
      · obtain ⟨⟨ts', mem⟩, _, rfl⟩ := List.mem_map.1 there
        refine ⟨given ts' mem, fun out expanded t listed => ?_⟩
        exact (argument ts' mem free (given ts' mem) out expanded t listed).goes
      · exact ⟨.nil, .ok .nil⟩
    have replacement : Gives Endless (substitute (argOf params m.variadic arranged) [] m.body) :=
      endless_substitute (fun name a bound => (fits a (mem_of_argOf bound)).1)
        (fun name a bound => (fits a (mem_of_argOf bound)).2) .nil (bodies _ _ found)
    refine replacement.bind fun replaced endless => ?_
    refine (body replaced (enters free shown) (endless_relocate endless)).bind fun out fit => ?_
    exact (behind free left).bind fun rest fit' => .ok (fit_append fit fit')

end Macro

namespace Preprocess

/-! ### Lines -/

/-- Whether the end of the file stands in no line. -/
def EndlessLine : Line → Prop
  | .directive _ rest => Endless rest
  | .text tokens => Endless tokens

theorem endlessLine_of_mem {ts : List Token} : ∀ l ∈ Line.ofTokens ts, EndlessLine l := by
  fun_induction Line.ofTokens ts with
  | case1 => exact List.forall_mem_nil _
  | case2 => exact List.forall_mem_nil _
  | case3 t ts _ _ ih =>
    refine List.forall_mem_cons.mpr ⟨fun u mem => ?_, ih⟩
    have inLine := List.mem_takeWhile_imp mem
    simp only [Token.beginsLine, Bool.not_or, Bool.and_eq_true, Bool.not_eq_true'] at inLine
    exact inLine.2
  | case4 t ts goes _ ih =>
    refine List.forall_mem_cons.mpr ⟨.cons (Bool.eq_false_iff.mpr goes) fun u mem => ?_, ih⟩
    have inText := List.mem_takeWhile_imp mem
    simp only [Bool.and_eq_true, Bool.not_eq_true'] at inText
    exact inText.1

theorem subset_of_closeVariadic {names params : List String} {name : String}
    {variadic : Option String} {ts body : List Token}
    (closes : MacroDef.closeVariadic names name ts = some (params, variadic, body)) : body ⊆ ts := by
  cases ts with
  | nil => cases closes
  | cons t ts =>
    obtain ⟨-, eq⟩ := Option.ite_none_right_eq_some.mp closes
    cases eq
    exact List.subset_cons_self t _

/-- The body of a macro with parameters is what is left of its line. -/
theorem subset_of_readParams {names params : List String} {variadic : Option String}
    {ts body : List Token} (reads : MacroDef.readParams names ts = some (params, variadic, body)) :
    body ⊆ ts := by
  have behind {t u : Token} {ts : List Token} (h : body ⊆ ts) : body ⊆ t :: u :: ts :=
    List.Subset.trans h (List.subset_cons_of_subset t (List.subset_cons_self u ts))
  fun_induction MacroDef.readParams names ts with
  | case1 | case3 | case9 | case10 => cases reads
  | case2 =>
    cases reads
    exact List.nil_subset _
  | case4 =>
    cases reads
    exact List.subset_cons_self _ _
  | case5 => exact List.subset_cons_of_subset _ (subset_of_closeVariadic reads)
  | case6 => exact behind (subset_of_closeVariadic reads)
  | case7 =>
    cases reads
    exact behind (List.Subset.refl _)
  | case8 _ _ _ _ _ _ _ _ _ _ ih => exact behind (ih reads)

/-! ### States -/

/-- A state whose macros have no end token in them, and that has put out tokens that are fit. -/
structure State.WellFormed (e : Setting) (s : State) : Prop where
  bodies : Macro.EndlessBodies s.macros
  output : ∀ t ∈ s.output.toList, t.Fit e.config.strippedMacros

theorem endlessBodies_insert {table : MacroTable} {name : String} {m : MacroDef}
    (bodies : Macro.EndlessBodies table) (body : Endless m.body) :
    Macro.EndlessBodies (table.insert name m) := by
  intro name' m' found
  rw [NameMap.get?_insert] at found
  split at found
  · cases found
    exact body
  · exact bodies name' m' found

theorem endlessBodies_erase {table : MacroTable} {name : String}
    (bodies : Macro.EndlessBodies table) : Macro.EndlessBodies (table.erase name) := by
  intro name' m found
  rw [NameMap.get?_erase] at found
  split at found
  · cases found
  · exact bodies name' m found

theorem endlessBodies_initial (config : Config) :
    Macro.EndlessBodies (State.initial config).macros := by
  have flags (names : List String) (table : MacroTable) (bodies : Macro.EndlessBodies table) :
      Macro.EndlessBodies (names.foldl (fun m flag => m.insert flag .enabledFlag) table) := by
    induction names generalizing table with
    | nil => exact bodies
    | cons name names ih => exact ih _ (endlessBodies_insert bodies (.cons rfl .nil))
  exact flags _ _ fun name m found => by cases found

theorem upheld_wellFormed (e : Setting) : Upheld e (State.WellFormed e) where
  initial := ⟨endlessBodies_initial e.config, List.forall_mem_nil _⟩
  aside s t macros _ output h := ⟨macros ▸ h.bodies, output ▸ h.output⟩
  line path text l s t listed h changes := by
    have endless := endlessLine_of_mem l listed
    cases changes with
    | quiet quiet => exact ⟨quiet.macros ▸ h.bodies, quiet.output ▸ h.output⟩
    | text live expands =>
      refine ⟨h.bodies, ?_⟩
      rw [Array.toList_appendList]
      exact Macro.fit_append h.output
        (Macro.fit_expand h.bodies (List.forall_mem_nil _) endless _ expands)
    | object => exact ⟨endlessBodies_insert h.bodies endless.tail.tail, h.output⟩
    | function live defines isWord attached reads =>
      refine ⟨endlessBodies_insert h.bodies ?_, h.output⟩
      exact endless.tail.tail.tail.of_subset (subset_of_readParams reads)
    | undefine => exact ⟨endlessBodies_erase h.bodies, h.output⟩

theorem run_wellFormed {e : Setting} {path : String} {p : Preprocessed} {ds : List Diagnostic}
    (ran : run e path = (.ok p, ds)) :
    ∃ body last, p.tokens = body ++ [last] ∧ last.isEof = true ∧
      ∀ t ∈ body, t.Fit e.config.strippedMacros := by
  rcases (upheld_wellFormed e).run ran with rfl | ⟨path, s, h, rfl⟩
  · exact ⟨[], _, rfl, rfl, List.forall_mem_nil _⟩
  · exact ⟨_, _, rfl, rfl, h.output⟩

end Preprocess

/-- What preprocessing puts out ends with an end token. None of the tokens before it is one, none is
malformed, and none is a name that is stripped. -/
theorem preprocess_wellFormed {sources : SourceMap} {path : String} {config : Config}
    {p : Preprocessed} {ds : List Diagnostic} (ran : preprocess sources path config = (.ok p, ds)) :
    ∃ body last, p.tokens = body ++ [last] ∧ last.isEof = true ∧
      ∀ t ∈ body, t.Fit config.strippedMacros :=
  Preprocess.run_wellFormed ran

/-- A header with a stripped name in its text and one that is pasted from arguments. -/
def pastedHeader : SourceMap :=
  .ofList [("a.h", "#define F(a, b) a##b #a\nAPI F(A, PI)\n")]

theorem preprocess_wellFormed_pasted :
    ∃ p ds, preprocess pastedHeader "a.h" { strippedMacros := ["API"] } = (.ok p, ds) ∧
      ∃ body last, p.tokens = body ++ [last] ∧ last.isEof = true ∧ ∀ t ∈ body, t.Fit ["API"] := by
  have ends : (preprocess pastedHeader "a.h" { strippedMacros := ["API"] }).1.isOk = true := by
    cbv
  rcases ran : preprocess pastedHeader "a.h" { strippedMacros := ["API"] } with ⟨_ | p, ds⟩
  · rw [ran] at ends
    cases ends
  · exact ⟨p, ds, rfl, preprocess_wellFormed ran⟩

end HeaderDecl
