import HeaderDecl.Proofs.ConstantsInConditions
import HeaderDecl.Proofs.VisitedTokens

/-!
Pasting beside an empty argument. What `##` joins to its right operand is the last token produced before
it. So an empty argument on its left stands for nothing if it begins the replacement, and otherwise the
token before it is pasted in its place.
-/

namespace HeaderDecl.Macro

variable {args : String → Option Arg} {t q : Token} {produced older right body : List Token}

/-- What `##` joins to the token before it: an argument as written, or the token itself. -/
def rightOperand (args : String → Option Arg) (q : Token) : List Token :=
  match args q.text with
  | some a => a.raw
  | none => [q]

theorem substitute_paste (joins : t.kind = .punct .hashHash) :
    substitute args produced (t :: q :: body) =
      substitute args (pasteOnto produced (rightOperand args q)) body := by
  simp only [substitute, joins]
  rfl

/-! ### The last token produced -/

theorem pasteOnto_nil_right (produced : List Token) : pasteOnto produced [] = produced := by
  cases produced with
  | nil => rfl
  | cons left before => rfl

theorem pasteOnto_ne_nil (some_ : produced ≠ []) : pasteOnto produced right ≠ [] := by
  cases produced with
  | nil => exact absurd rfl some_
  | cons left before =>
    cases right with
    | nil => exact some_
    | cons first more => simp [pasteOnto]

theorem pasteOnto_append (some_ : produced ≠ []) (older right : List Token) :
    pasteOnto (produced ++ older) right = pasteOnto produced right ++ older := by
  cases produced with
  | nil => exact absurd rfl some_
  | cons left before =>
    cases right with
    | nil => rfl
    | cons first more => simp [pasteOnto]

/-- All pasting takes one token less than there is to the right. -/
theorem length_pasteOnto (some_ : produced ≠ []) :
    (pasteOnto produced right).length = produced.length + (right.length - 1) := by
  cases produced with
  | nil => exact absurd rfl some_
  | cons left before =>
    cases right with
    | nil => rfl
    | cons first more =>
      simp only [pasteOnto, List.length_append, List.length_reverse, List.length_cons]
      omega

/-- What comes before the last token produced stays as it is. -/
theorem substitute_append (some_ : produced ≠ []) (older body : List Token) :
    substitute args (produced ++ older) body =
      (fun out => older.reverse ++ out) <$> substitute args produced body := by
  fun_induction substitute args produced body with
  | case1 produced => simp [substitute, Functor.map, Except.map]
  | case2 produced t n body hash a bound ih =>
    simp only [substitute, hash, bound]
    exact ih (List.cons_ne_nil _ _)
  | case3 produced t n body hash unbound ih =>
    simp only [substitute, hash, unbound]
    exact ih (List.cons_ne_nil _ _)
  | case4 produced t hash ih =>
    simp only [substitute, hash]
    exact ih (List.cons_ne_nil _ _)
  | case5 produced t n body joins right ih =>
    rw [substitute_paste joins, pasteOnto_append some_]
    exact ih (pasteOnto_ne_nil some_)
  | case6 produced t joins ih =>
    simp only [substitute, joins]
    exact ih some_
  | case7 produced t body a joined notHash lastHash notPaste lastPaste bound ih =>
    rw [substitute_other _ _ _ (differs notHash lastHash) (differs notPaste lastPaste), bound]
    simp only [joined, if_true, ← List.append_assoc]
    exact ih (List.append_ne_nil_of_right_ne_nil _ some_)
  | case8 produced t body a apart notHash lastHash notPaste lastPaste bound ih =>
    rw [substitute_other _ _ _ (differs notHash lastHash) (differs notPaste lastPaste), bound]
    simp only [apart, Bool.false_eq_true, if_false, ← List.append_assoc]
    cases a.expanded.get with
    | error err => rfl
    | ok expanded => exact ih expanded (List.append_ne_nil_of_right_ne_nil _ some_)
  | case9 produced t body notHash lastHash notPaste lastPaste unbound ih =>
    rw [substitute_other _ _ _ (differs notHash lastHash) (differs notPaste lastPaste), unbound]
    exact ih (List.cons_ne_nil _ _)

/-- Two replacements that go on from as many tokens have results of the same length. -/
theorem length_substitute {other result : List Token} (some_ : produced ≠ [])
    (same : other.length = produced.length) (replaced : substitute args produced body = .ok result) :
    ∃ result', substitute args other body = .ok result' ∧ result'.length = result.length := by
  have nonempty {us ts : List Token} (same : us.length = ts.length) (some_ : ts ≠ []) : us ≠ [] := by
    intro none_
    rw [none_] at same
    exact some_ (List.length_eq_zero_iff.mp same.symm)
  fun_induction substitute args produced body generalizing other with
  | case1 produced =>
    cases replaced
    exact ⟨other.reverse, rfl, by simp [same]⟩
  | case2 produced t n body hash a bound ih =>
    simp only [substitute, hash, bound]
    exact ih (List.cons_ne_nil _ _) (by simp [same]) replaced
  | case3 produced t n body hash unbound ih =>
    simp only [substitute, hash, unbound]
    exact ih (List.cons_ne_nil _ _) (by simp [same]) replaced
  | case4 produced t hash ih =>
    simp only [substitute, hash]
    exact ih (List.cons_ne_nil _ _) (by simp [same]) replaced
  | case5 produced t n body joins right =>
    rename_i ih
    rw [substitute_paste joins]
    refine ih (pasteOnto_ne_nil some_) ?_ replaced
    rw [length_pasteOnto (nonempty same some_), length_pasteOnto some_, same]
    rfl
  | case6 produced t joins ih =>
    simp only [substitute, joins]
    exact ih some_ same replaced
  | case7 produced t body a joined notHash lastHash notPaste lastPaste bound ih =>
    rw [substitute_other _ _ _ (differs notHash lastHash) (differs notPaste lastPaste), bound]
    simp only [joined, if_true]
    exact ih (List.append_ne_nil_of_right_ne_nil _ some_) (by simp [same]) replaced
  | case8 produced t body a apart notHash lastHash notPaste lastPaste bound ih =>
    rw [substitute_other _ _ _ (differs notHash lastHash) (differs notPaste lastPaste), bound]
    simp only [apart, Bool.false_eq_true, if_false]
    cases expands : a.expanded.get with
    | error err =>
      rw [expands] at replaced
      cases replaced
    | ok expanded =>
      rw [expands] at replaced
      exact ih expanded (List.append_ne_nil_of_right_ne_nil _ some_) (by simp [same]) replaced
  | case9 produced t body notHash lastHash notPaste lastPaste unbound ih =>
    rw [substitute_other _ _ _ (differs notHash lastHash) (differs notPaste lastPaste), unbound]
    exact ih (List.cons_ne_nil _ _) (by simp [same]) replaced

/-! ### Parts of a body -/

/-- Whether a body ends in an operator that still waits for its operand. -/
def awaits (args : String → Option Arg) : List Token → Bool
  | [] => false
  | t :: body =>
    match t.kind, body with
    | .punct .hash, n :: body' =>
      match args n.text with
      | some _ => awaits args body'
      | none => awaits args (n :: body')
    | .punct .hash, [] => true
    | .punct .hashHash, _ :: body' => awaits args body'
    | .punct .hashHash, [] => true
    | _, body => awaits args body

theorem awaits_other (body : List Token) (noHash : t.kind ≠ .punct .hash)
    (noPaste : t.kind ≠ .punct .hashHash) : awaits args (t :: body) = awaits args body := by
  rw [awaits] <;> simp [noHash, noPaste]

theorem ne_nil_of_awaits (waits : awaits args body = true) : body ≠ [] := by
  rintro rfl
  cases waits

/-- A body is replaced part by part, if the first part has the operands of its operators and the second
one does not begin with `##`. -/
theorem substitute_parts {pre : List Token} (produced post : List Token)
    (closed : awaits args pre = false) (begins : post.head?.any (·.is .hashHash) = false) :
    substitute args produced (pre ++ post) = (do
      let out ← substitute args produced pre
      substitute args out.reverse post) := by
  have ahead (us : List Token) : (us ++ post).head?.any (·.is .hashHash) = us.head?.any (·.is .hashHash) := by
    cases us with
    | nil => rw [List.nil_append, begins, List.head?_nil, Option.any_none]
    | cons n us => rfl
  fun_induction substitute args produced pre with
  | case1 produced => simp [bind, Except.bind]
  | case2 produced t n body hash a bound ih =>
    simp only [awaits, hash, bound] at closed
    simp only [List.cons_append, substitute, hash, bound]
    exact ih closed
  | case3 produced t n body hash unbound ih =>
    simp only [awaits, hash, unbound] at closed
    simp only [List.cons_append, substitute, hash, unbound]
    exact ih closed
  | case4 produced t hash ih =>
    simp only [awaits, hash] at closed
    cases closed
  | case5 produced t n body joins right ih =>
    simp only [awaits, joins] at closed
    rw [List.cons_append, List.cons_append, substitute_paste joins]
    exact ih closed
  | case6 produced t joins ih =>
    simp only [awaits, joins] at closed
    cases closed
  | case7 produced t body a joined notHash lastHash notPaste lastPaste bound ih =>
    rw [awaits_other _ (differs notHash lastHash) (differs notPaste lastPaste)] at closed
    rw [List.cons_append,
      substitute_other _ _ _ (differs notHash lastHash) (differs notPaste lastPaste), bound]
    simp only [ahead, joined, if_true]
    exact ih closed
  | case8 produced t body a apart notHash lastHash notPaste lastPaste bound ih =>
    rw [awaits_other _ (differs notHash lastHash) (differs notPaste lastPaste)] at closed
    rw [List.cons_append,
      substitute_other _ _ _ (differs notHash lastHash) (differs notPaste lastPaste), bound]
    simp only [ahead, apart, Bool.false_eq_true, if_false]
    cases a.expanded.get with
    | error err => rfl
    | ok expanded => exact ih expanded closed
  | case9 produced t body notHash lastHash notPaste lastPaste unbound ih =>
    rw [awaits_other _ (differs notHash lastHash) (differs notPaste lastPaste)] at closed
    rw [List.cons_append,
      substitute_other _ _ _ (differs notHash lastHash) (differs notPaste lastPaste), unbound]
    exact ih closed

/-- A parameter behind `#` is made text, also where `##` follows it. -/
theorem substitute_awaited {pre : List Token} {a : Arg} {p : Token} (produced post : List Token)
    (waits : awaits args pre = true) (noPaste : ∀ u ∈ pre.getLast?, u.kind ≠ .punct .hashHash)
    (bound : args p.text = some a) :
    substitute args produced (pre ++ p :: post) = (do
      let out ← substitute args produced pre.dropLast
      substitute args (stringify a.raw :: out.reverse) post) := by
  have last {us : List Token} {t : Token} (waits : awaits args us = true)
      (noPaste : ∀ u ∈ (t :: us).getLast?, u.kind ≠ .punct .hashHash) :
      ∀ u ∈ us.getLast?, u.kind ≠ .punct .hashHash := by
    obtain ⟨n, us, rfl⟩ := List.exists_cons_of_ne_nil (ne_nil_of_awaits waits)
    rwa [List.getLast?_cons_cons] at noPaste
  -- What follows a token is seen without the last token too, which is no `##`.
  have ahead {us : List Token} (waits : awaits args us = true)
      (noPaste : ∀ u ∈ us.getLast?, u.kind ≠ .punct .hashHash) :
      us.dropLast.head?.any (·.is .hashHash) = us.head?.any (·.is .hashHash) ∧
        (us ++ p :: post).head?.any (·.is .hashHash) = us.head?.any (·.is .hashHash) := by
    obtain ⟨n, us, rfl⟩ := List.exists_cons_of_ne_nil (ne_nil_of_awaits waits)
    refine ⟨?_, rfl⟩
    cases us with
    | nil => simpa [Token.is] using noPaste n rfl
    | cons m us => rfl
  fun_induction substitute args produced pre with
  | case1 produced => cases waits
  | case2 produced t n body hash a bound' ih =>
    simp only [awaits, hash, bound'] at waits
    rw [List.dropLast_cons_of_ne_nil (List.cons_ne_nil _ _),
      List.dropLast_cons_of_ne_nil (ne_nil_of_awaits waits)]
    simp only [List.cons_append, substitute, hash, bound']
    have noPaste : ∀ u ∈ (n :: body).getLast?, u.kind ≠ .punct .hashHash := by
      rwa [List.getLast?_cons_cons] at noPaste
    exact ih waits (last waits noPaste)
  | case3 produced t n body hash unbound ih =>
    simp only [awaits, hash, unbound] at waits
    have noPaste := last waits noPaste
    rw [List.dropLast_cons_of_ne_nil (List.cons_ne_nil _ _)]
    have here (us : List Token) : substitute args produced (t :: (n :: us).dropLast) =
        substitute args (t :: produced) (n :: us).dropLast := by
      cases us with
      | nil => simp [substitute, hash]
      | cons m us => simp [substitute, hash, unbound]
    rw [here]
    simp only [List.cons_append, substitute, hash, unbound]
    exact ih waits noPaste
  | case4 produced t hash ih =>
    simp only [List.cons_append, List.nil_append, substitute, hash, bound]
    simp [substitute, bind, Except.bind]
  | case5 produced t n body joins right ih =>
    simp only [awaits, joins] at waits
    have noPaste : ∀ u ∈ (n :: body).getLast?, u.kind ≠ .punct .hashHash := by
      rwa [List.getLast?_cons_cons] at noPaste
    rw [List.dropLast_cons_of_ne_nil (List.cons_ne_nil _ _),
      List.dropLast_cons_of_ne_nil (ne_nil_of_awaits waits), List.cons_append, List.cons_append,
      substitute_paste joins, substitute_paste joins]
    exact ih waits (last waits noPaste)
  | case6 produced t joins ih => exact absurd joins (noPaste t rfl)
  | case7 produced t body a' joined notHash lastHash notPaste lastPaste bound' ih =>
    rw [awaits_other _ (differs notHash lastHash) (differs notPaste lastPaste)] at waits
    have noPaste := last waits noPaste
    rw [List.cons_append, List.dropLast_cons_of_ne_nil (ne_nil_of_awaits waits),
      substitute_other _ _ _ (differs notHash lastHash) (differs notPaste lastPaste),
      substitute_other _ _ _ (differs notHash lastHash) (differs notPaste lastPaste), bound']
    simp only [ahead waits noPaste, joined, if_true]
    exact ih waits noPaste
  | case8 produced t body a' apart notHash lastHash notPaste lastPaste bound' ih =>
    rw [awaits_other _ (differs notHash lastHash) (differs notPaste lastPaste)] at waits
    have noPaste := last waits noPaste
    rw [List.cons_append, List.dropLast_cons_of_ne_nil (ne_nil_of_awaits waits),
      substitute_other _ _ _ (differs notHash lastHash) (differs notPaste lastPaste),
      substitute_other _ _ _ (differs notHash lastHash) (differs notPaste lastPaste), bound']
    simp only [ahead waits noPaste, apart, Bool.false_eq_true, if_false]
    cases a'.expanded.get with
    | error err => rfl
    | ok expanded => exact ih expanded waits noPaste
  | case9 produced t body notHash lastHash notPaste lastPaste unbound ih =>
    rw [awaits_other _ (differs notHash lastHash) (differs notPaste lastPaste)] at waits
    rw [List.cons_append, List.dropLast_cons_of_ne_nil (ne_nil_of_awaits waits),
      substitute_other _ _ _ (differs notHash lastHash) (differs notPaste lastPaste),
      substitute_other _ _ _ (differs notHash lastHash) (differs notPaste lastPaste), unbound]
    exact ih waits (last waits noPaste)

/-! ### An empty argument before `##` -/

section Operand

variable {params : List String} {variadic : Option String} {given : List Arg} {a : Arg}
  {p hh : Token} {pre post : List Token}

/-- An empty argument before `##` adds nothing, so the right operand is joined to what came before. -/
theorem substitute_empty (word : p.isWord = true) (bound : args p.text = some a) (empty : a.raw = [])
    (joins : hh.kind = .punct .hashHash) :
    substitute args produced (p :: hh :: q :: post) =
      substitute args (pasteOnto produced (rightOperand args q)) post := by
  have noOperator (op : Punct) : p.kind ≠ .punct op := by
    intro is
    rw [Token.isWord, is] at word
    exact absurd word (by simp [TokenKind.isWord])
  have joined : (hh :: q :: post).head?.any (·.is .hashHash) = true := by
    simp [Token.is, joins]
  rw [Token.isWord] at word
  rw [substitute_other _ _ _ (noOperator _) (noOperator _), word, if_pos rfl, bound]
  simp only [joined, if_true, empty, List.reverse_nil, List.nil_append]
  exact substitute_paste joins

/-- With nothing before it or nothing behind it, joining is putting one after the other. -/
theorem pasteOnto_of_nil (none_ : produced = [] ∨ right = []) :
    pasteOnto produced right = right.reverse ++ produced := by
  rcases none_ with rfl | rfl
  · cases right with
    | nil => rfl
    | cons first more => simp [pasteOnto]
  · rw [pasteOnto_nil_right, List.reverse_nil, List.nil_append]

/-- Otherwise one token of the two that are joined is missing, and what came before them stays. -/
theorem substitute_pasteOnto {before result : List Token} (some_ : before ≠ []) (some' : right ≠ [])
    (replaced : substitute args (right.reverse ++ before.reverse) post = .ok result) :
    ∃ result', substitute args (pasteOnto before.reverse right) post = .ok result' ∧
      result'.length + 1 = result.length ∧ before.dropLast <+: result' := by
  obtain ⟨left, split⟩ : ∃ left, before = before.dropLast ++ [left] :=
    ⟨_, (List.dropLast_append_getLast some_).symm⟩
  obtain ⟨first, more, rfl⟩ := List.exists_cons_of_ne_nil some'
  have unpasted : (first :: more).reverse ++ before.reverse =
      (more.reverse ++ [first]) ++ left :: before.dropLast.reverse := by
    rw [split]
    simp
  have pasted : pasteOnto before.reverse (first :: more) =
      (more.reverse ++ [paste left first]) ++ before.dropLast.reverse := by
    rw [split]
    simp [pasteOnto]
  have nonempty (t : Token) : more.reverse ++ [t] ≠ [] := by simp
  rw [unpasted, substitute_append (nonempty first)] at replaced
  rw [pasted, substitute_append (nonempty (paste left first))]
  cases behind : substitute args (more.reverse ++ [first]) post with
  | error err =>
    rw [behind] at replaced
    cases replaced
  | ok out =>
    rw [behind] at replaced
    cases replaced
    have long : (more.reverse ++ [paste left first]).length = (more.reverse ++ [first]).length := by simp
    obtain ⟨out', same, length⟩ := length_substitute (nonempty first) long behind
    rw [same]
    refine ⟨_, rfl, ?_, ?_⟩
    · simp [length]
      omega
    · simp

/-- A parameter with an empty argument stands before `##`. Then the right operand is joined to what the
tokens before the parameter come to. It stands behind that unpasted, with the rest of the body replaced,
exactly if they come to nothing or it is empty itself: otherwise the result has one token less. Behind
`#` the parameter is text, to which the right operand is joined. -/
theorem substitute_empty_operand (word : p.isWord = true)
    (bound : argOf params variadic given p.text = some a) (empty : a.raw = [])
    (joins : hh.kind = .punct .hashHash) (noPaste : ∀ u ∈ pre.getLast?, u.kind ≠ .punct .hashHash) :
    let args := argOf params variadic given
    let right := rightOperand args q
    let replaced := substitute args [] (pre ++ p :: hh :: q :: post)
    (awaits args pre = false →
      (replaced = do
        let before ← substitute args [] pre
        substitute args (pasteOnto before.reverse right) post) ∧
      ∀ before, substitute args [] pre = .ok before →
        let unpasted := substitute args (right.reverse ++ before.reverse) post
        (before = [] ∨ right = [] → replaced = unpasted) ∧
        (before ≠ [] → right ≠ [] → ∀ result, unpasted = .ok result →
          ∃ result', replaced = .ok result' ∧ result'.length + 1 = result.length ∧
            before.dropLast <+: result')) ∧
    (awaits args pre = true → replaced = do
      let before ← substitute args [] pre.dropLast
      substitute args (pasteOnto (stringify [] :: before.reverse) right) post) := by
  intro args right replaced
  have begins : (p :: hh :: q :: post).head?.any (·.is .hashHash) = false := by
    rw [Token.isWord] at word
    have noPaste : p.kind ≠ .punct .hashHash := fun is => by simp [is, TokenKind.isWord] at word
    simpa [Token.is] using noPaste
  constructor
  · intro closed
    have step : replaced = (do
        let before ← substitute args [] pre
        substitute args (pasteOnto before.reverse right) post) := by
      refine (substitute_parts [] _ closed begins).trans (congrArg _ (funext fun before => ?_))
      exact substitute_empty word bound empty joins
    refine ⟨step, fun before first => ?_⟩
    rw [first] at step
    have here : replaced = substitute args (pasteOnto before.reverse right) post := step
    rw [here]
    refine ⟨fun none_ => ?_, fun some_ some' result => substitute_pasteOnto some_ some'⟩
    rw [pasteOnto_of_nil (by simpa using none_)]
  · intro waits
    refine (substitute_awaited [] _ waits noPaste bound).trans (congrArg _ (funext fun before => ?_))
    rw [empty]
    exact substitute_paste joins

end Operand

/-! ### Two bodies -/

section Bodies

open Preprocess (bodyOf definitionOf)

/-- The arguments of an invocation of a macro with two parameters, as they are read. -/
def givenTo (text : String) : String → Option Arg :=
  Scope.boundArgs ⟨.empty, []⟩ [] ⟨some ["p", "q"], none, []⟩ ["p", "q"]
    (((invocation (definitionOf text)).map (·.1)).getD [])

/-- A token of a body, as it is read. -/
def bodyToken (text : String) (n : Nat) : Token := (bodyOf text).getD n (.eofAt .synthetic)

/-- The texts of the tokens in place of a body. -/
def textsOf (replaced : Except FatalError (List Token)) : Option (List String) :=
  replaced.toOption.map (List.map Token.text)

theorem substitute_empty_operand_first :
    textsOf (substitute (givenTo "(, y)") [] (bodyOf "M p ## q b")) = some ["y", "b"] := by
  have split : bodyOf "M p ## q b" = [] ++ bodyToken "M p ## q b" 0 :: bodyToken "M p ## q b" 1 ::
      bodyToken "M p ## q b" 2 :: [bodyToken "M p ## q b" 3] := by decide +kernel
  have word : (bodyToken "M p ## q b" 0).isWord = true := by decide +kernel
  have joins : (bodyToken "M p ## q b" 1).kind = .punct .hashHash := by decide +kernel
  have nothing : (givenTo "(, y)" (bodyToken "M p ## q b" 0).text).map Arg.raw = some [] := by cbv
  obtain ⟨a, bound, empty⟩ := Option.map_eq_some_iff.mp nothing
  have noPaste : ∀ u ∈ ([] : List Token).getLast?, u.kind ≠ .punct .hashHash := by simp
  obtain ⟨closed, -⟩ := substitute_empty_operand word bound empty joins noPaste
  rw [split]
  refine (congrArg textsOf (((closed rfl).2 [] rfl).1 (.inl rfl))).trans ?_
  cbv

/-- The token before the empty argument is pasted, where nothing should be. -/
theorem pastes_beyond_empty_operand :
    ((givenTo "(, y)" "p").map Arg.raw, (givenTo "(, y)" "q").map (List.map Token.text ∘ Arg.raw)) =
        (some [], some ["y"]) ∧
      textsOf (substitute (givenTo "(, y)") [] (bodyOf "M a")) = some ["a"] ∧
      textsOf (substitute (givenTo "(, y)") [] (bodyOf "M a p ## q b")) = some ["ay", "b"] := by
  refine ⟨by cbv, by cbv, by cbv⟩

end Bodies

end HeaderDecl.Macro
