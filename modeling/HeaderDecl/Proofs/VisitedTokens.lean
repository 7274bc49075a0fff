import HeaderDecl.Proofs.MovedText

/-!
The tokens that macro expansion comes to: those of the text, but for what an invocation consumes, those
of the arguments that a body asks for, and those of the replacements. Expansion fails if and only if one
of them is malformed.
-/

namespace HeaderDecl.Macro

/-! ### Arguments that a body asks for -/

/-- The arguments that a body asks to have expanded: not those behind `#`, and not those that are joined
to something. -/
def askedFor (argOf : String → Option Arg) : List Token → List Arg
  | [] => []
  | t :: body =>
    match t.kind, body with
    | .punct .hash, n :: body' =>
      match argOf n.text with
      | some _ => askedFor argOf body'
      | none => askedFor argOf (n :: body')
    | .punct .hash, [] => []
    | .punct .hashHash, _ :: body' => askedFor argOf body'
    | .punct .hashHash, [] => []
    | kind, body =>
      match if kind.isWord then argOf t.text else none with
      | some a => if body.head?.any (·.is .hashHash) then askedFor argOf body else a :: askedFor argOf body
      | none => askedFor argOf body

/-- Whether a computation gives a result. -/
def Succeeds {α : Type} (r : Except FatalError α) : Prop := ∃ a, r = .ok a

theorem succeeds_bind {α β : Type} {r : Except FatalError α} {f : α → Except FatalError β} :
    Succeeds (r >>= f) ↔ ∃ a, r = .ok a ∧ Succeeds (f a) := by
  cases r with
  | error e => exact ⟨nofun, nofun⟩
  | ok a => exact ⟨fun h => ⟨a, rfl, h⟩, fun ⟨_, same, h⟩ => Except.ok.inj same ▸ h⟩

theorem succeeds_pure {α : Type} (a : α) : Succeeds (pure a : Except FatalError α) := ⟨a, rfl⟩

theorem succeeds_map {α β : Type} {r : Except FatalError α} {f : α → β} :
    Succeeds (do let a ← r; return f a) ↔ Succeeds r :=
  succeeds_bind.trans ⟨fun ⟨a, h, _⟩ => ⟨a, h⟩, fun ⟨a, h⟩ => ⟨a, h, succeeds_pure _⟩⟩

/-- Two computations in turn give a result if each of them does. -/
theorem succeeds_map₂ {α β γ : Type} {r : Except FatalError α} {r' : Except FatalError β}
    {f : α → β → γ} :
    Succeeds (do let a ← r; let b ← r'; return f a b) ↔ Succeeds r ∧ Succeeds r' := by
  rw [succeeds_bind]
  constructor
  · rintro ⟨a, h, rest⟩
    exact ⟨⟨a, h⟩, succeeds_map.mp rest⟩
  · rintro ⟨⟨a, h⟩, rest⟩
    exact ⟨a, h, succeeds_map.mpr rest⟩

variable {args : String → Option Arg}

theorem askedFor_other {t : Token} (body : List Token) (noHash : t.kind ≠ .punct .hash)
    (noPaste : t.kind ≠ .punct .hashHash) :
    askedFor args (t :: body) =
      match if t.kind.isWord then args t.text else none with
      | some a => if body.head?.any (·.is .hashHash) then askedFor args body else a :: askedFor args body
      | none => askedFor args body := by
  rw [askedFor] <;> simp [noHash, noPaste]

theorem bound_of_askedFor {body : List Token} {a : Arg} (asked : a ∈ askedFor args body) :
    ∃ name, args name = some a := by
  fun_induction askedFor args body with
  | case1 => cases asked
  | _ => grind

/-- A body is replaced if and only if all arguments that it asks for can be expanded. -/
theorem succeeds_substitute (args : String → Option Arg) (produced body : List Token) :
    Succeeds (substitute args produced body) ↔ ∀ a ∈ askedFor args body, Succeeds a.expanded.get := by
  fun_induction substitute args produced body with
  | case1 produced => exact ⟨fun _ _ asked => absurd asked List.not_mem_nil, fun _ => ⟨_, rfl⟩⟩
  | case2 produced t n body hash a bound ih =>
    simp only [askedFor, hash, bound]
    exact ih
  | case3 produced t n body hash unbound ih =>
    simp only [askedFor, hash, unbound]
    exact ih
  | case4 produced t hash ih =>
    simp only [askedFor, hash]
    exact ih
  | case5 produced t n body paste right ih =>
    simp only [askedFor, paste]
    exact ih
  | case6 produced t paste ih =>
    simp only [askedFor, paste]
    exact ih
  | case7 produced t body a joined notHash lastHash notPaste lastPaste bound ih =>
    simp only [askedFor_other _ (differs notHash lastHash) (differs notPaste lastPaste), bound, joined]
    exact ih
  | case8 produced t body a apart notHash lastHash notPaste lastPaste bound ih =>
    simp only [askedFor_other _ (differs notHash lastHash) (differs notPaste lastPaste), bound, apart,
      succeeds_bind, Bool.false_eq_true, if_false, List.mem_cons, forall_eq_or_imp]
    constructor
    · rintro ⟨out, expanded, rest⟩
      exact ⟨⟨out, expanded⟩, (ih out).mp rest⟩
    · rintro ⟨⟨out, expanded⟩, rest⟩
      exact ⟨out, expanded, (ih out).mpr rest⟩
  | case9 produced t body notHash lastHash notPaste lastPaste unbound ih =>
    simp only [askedFor_other _ (differs notHash lastHash) (differs notPaste lastPaste), unbound]
    exact ih

/-! ### What expansion comes to -/

/-- The arguments of an invocation by the names of the parameters, to be expanded where they are asked
for. -/
def Scope.boundArgs (s : Scope) (active : List String) (m : MacroDef) (params : List String)
    (args : List (List Token)) : String → Option Arg :=
  argOf params m.variadic ((arrange params m.variadic.isSome args).map (lazyArg s active))

/-- The text that expansion goes on with behind a token. -/
def Scope.behind (s : Scope) (active : List String) (t : Token) (ts : List Token) : List Token :=
  if t.isWord then
    match s.fate active t.text with
    | .kept => ts
    | .stripped arguments => if arguments then behindInvocation ts else ts
    | .replaced m => if m.isFunctionLike then behindInvocation ts else ts
  else ts

/-- The texts that are expanded in the place of a token: the body of its macro, or the arguments that
the body asks for, and the body with its parameters replaced. -/
inductive Within (s : Scope) (active : List String) (t : Token) (ts : List Token) :
    List String → List Token → Prop
  | body {m : MacroDef} (word : t.isWord = true) (fate : s.fate active t.text = .replaced m)
      (object : m.params = none) : Within s active t ts (t.text :: active) (relocate t m.body)
  | argument {m : MacroDef} {params : List String} {args : List (List Token)} {after : List Token}
      {a : Arg} (word : t.isWord = true) (fate : s.fate active t.text = .replaced m)
      (function : m.params = some params) (invoked : invocation ts = some (args, after))
      (asked : a ∈ askedFor (s.boundArgs active m params args) m.body) : Within s active t ts active a.raw
  | replacement {m : MacroDef} {params : List String} {args : List (List Token)} {after body : List Token}
      (word : t.isWord = true) (fate : s.fate active t.text = .replaced m)
      (function : m.params = some params) (invoked : invocation ts = some (args, after))
      (replaced : substitute (s.boundArgs active m params args) [] m.body = .ok body) :
      Within s active t ts (t.text :: active) (relocate t body)

/-- Expanding a text comes to a token. -/
inductive Visits (s : Scope) : List String → List Token → Token → Prop
  | here {active : List String} {t : Token} {ts : List Token} : Visits s active (t :: ts) t
  | behind {active : List String} {t u : Token} {ts : List Token}
      (h : Visits s active (s.behind active t ts) u) : Visits s active (t :: ts) u
  | within {active active' : List String} {t u : Token} {ts text : List Token}
      (inner : Within s active t ts active' text) (h : Visits s active' text u) :
      Visits s active (t :: ts) u

variable {s : Scope} {active : List String} {t : Token} {ts : List Token}

theorem expanded_boundArgs {m : MacroDef} {params : List String} {args : List (List Token)} {name : String}
    {a : Arg} (bound : s.boundArgs active m params args name = some a) :
    a.expanded.get = expand s active a.raw := by
  rcases mem_of_argOf bound with there | rfl
  · obtain ⟨b, -, rfl⟩ := List.mem_map.mp there
    rfl
  · rw [expand]
    rfl

/-- Nothing is expanded in the place of a token that no macro replaces. -/
theorem Within.exists_replaced {active' : List String} {text : List Token}
    (h : Within s active t ts active' text) :
    t.isWord = true ∧ ∃ m, s.fate active t.text = .replaced m ∧
      (m.params = none ∨ ∃ args after, invocation ts = some (args, after)) := by
  cases h with
  | body word fate object => exact ⟨word, _, fate, .inl object⟩
  | argument word fate _ invoked => exact ⟨word, _, fate, .inr ⟨_, _, invoked⟩⟩
  | replacement word fate _ invoked => exact ⟨word, _, fate, .inr ⟨_, _, invoked⟩⟩

/-- What has to be expanded for a text to be, besides that its first token is well-formed. -/
def Succeeding (s : Scope) (active : List String) (t : Token) (ts : List Token) : Prop :=
  Succeeds (expand s active (s.behind active t ts)) ∧
    ∀ active' text, Within s active t ts active' text → Succeeds (expand s active' text)

/-- Where nothing is expanded in the place of a token, all depends on what is behind it. -/
theorem succeeds_expand_plain (nothing : ∀ active' text, ¬ Within s active t ts active' text)
    (same : expand s active (t :: ts) = (do
        let rest ← expand s active (s.behind active t ts)
        return t :: rest) ∨
      expand s active (t :: ts) = expand s active (s.behind active t ts)) :
    Succeeds (expand s active (t :: ts)) ↔ Succeeding s active t ts := by
  rw [Succeeding, and_iff_left fun _ _ inner => absurd inner (nothing _ _)]
  rcases same with same | same
  · rw [same, succeeds_map]
  · rw [same]

theorem succeeds_expand_object {m : MacroDef} (word : t.isWord = true)
    (fate : s.fate active t.text = .replaced m) (object : m.params = none) :
    Succeeds (expand s active (t :: ts)) ↔ Succeeding s active t ts := by
  have behind : s.behind active t ts = ts := by
    rw [Scope.behind, if_pos word, fate]
    simp [MacroDef.isFunctionLike, object]
  rw [expand_replaced word fate, object]
  dsimp only
  rw [succeeds_map₂, Succeeding, behind, and_comm]
  refine and_congr_right fun _ => ⟨fun body active' text inner => ?_, fun all =>
    all _ _ (.body word fate object)⟩
  cases inner with
  | body _ fate' _ =>
    cases fate.symm.trans fate'
    exact body
  | argument _ fate' function _ _ | replacement _ fate' function _ _ =>
    cases fate.symm.trans fate'
    cases object.symm.trans function

theorem succeeds_expand_invocation {m : MacroDef} {params : List String} {args : List (List Token)}
    {after : List Token} (word : t.isWord = true) (fate : s.fate active t.text = .replaced m)
    (function : m.params = some params) (invoked : invocation ts = some (args, after)) :
    Succeeds (expand s active (t :: ts)) ↔ Succeeding s active t ts := by
  have behind : s.behind active t ts = after := by
    rw [Scope.behind, if_pos word, fate]
    simp [MacroDef.isFunctionLike, function, behindInvocation, invoked]
  have arguments := succeeds_substitute (s.boundArgs active m params args) [] m.body
  rw [expand_replaced word fate, function]
  dsimp only
  rw [invoked, Succeeding, behind]
  dsimp only
  rw [succeeds_bind]
  constructor
  · rintro ⟨body, replaced, rest⟩
    obtain ⟨inner, outer⟩ := succeeds_map₂.mp rest
    refine ⟨outer, fun active' text h => ?_⟩
    cases h with
    | body _ fate' object =>
      cases fate.symm.trans fate'
      cases object.symm.trans function
    | argument _ fate' function' invoked' asked =>
      cases fate.symm.trans fate'
      cases function.symm.trans function'
      cases invoked.symm.trans invoked'
      obtain ⟨name, bound⟩ := bound_of_askedFor asked
      rw [← expanded_boundArgs bound]
      exact arguments.mp ⟨body, replaced⟩ _ asked
    | replacement _ fate' function' invoked' replaced' =>
      cases fate.symm.trans fate'
      cases function.symm.trans function'
      cases invoked.symm.trans invoked'
      cases replaced.symm.trans replaced'
      exact inner
  · rintro ⟨outer, within⟩
    obtain ⟨body, replaced⟩ := arguments.mpr fun a asked => by
      obtain ⟨name, bound⟩ := bound_of_askedFor asked
      rw [expanded_boundArgs bound]
      exact within _ _ (.argument word fate function invoked asked)
    exact ⟨body, replaced, succeeds_map₂.mpr
      ⟨within _ _ (.replacement word fate function invoked replaced), outer⟩⟩

/-- A text is expanded if its first token is well-formed and all can be expanded that is expanded in its
place and behind it, and only if so. -/
theorem succeeds_expand_cons (wellFormed : ∀ e, t.kind ≠ .error e) :
    Succeeds (expand s active (t :: ts)) ↔ Succeeding s active t ts := by
  by_cases word : t.isWord = true
  · cases fate : s.fate active t.text with
    | kept =>
      refine succeeds_expand_plain (fun _ _ inner => ?_) (.inl ?_)
      · obtain ⟨-, m, replaced, -⟩ := inner.exists_replaced
        cases fate.symm.trans replaced
      · rw [expand_kept wellFormed fun _ => fate, Scope.behind, if_pos word, fate]
    | stripped arguments =>
      refine succeeds_expand_plain (fun _ _ inner => ?_) (.inr ?_)
      · obtain ⟨-, m, replaced, -⟩ := inner.exists_replaced
        cases fate.symm.trans replaced
      · rw [expand_stripped word fate, Scope.behind, if_pos word, fate]
    | replaced m =>
      cases function : m.params with
      | none => exact succeeds_expand_object word fate function
      | some params =>
        cases invoked : invocation ts with
        | some found => exact succeeds_expand_invocation word fate function invoked
        | none =>
          refine succeeds_expand_plain (fun _ _ inner => ?_) (.inl ?_)
          · obtain ⟨-, m', replaced, object | ⟨_, _, invoked'⟩⟩ := inner.exists_replaced
            · cases fate.symm.trans replaced
              cases function.symm.trans object
            · cases invoked.symm.trans invoked'
          · rw [expand_replaced word fate, function, Scope.behind, if_pos word, fate]
            simp [MacroDef.isFunctionLike, function, behindInvocation, invoked]
  · refine succeeds_expand_plain (fun _ _ inner => word inner.exists_replaced.1) (.inl ?_)
    rw [expand_kept wellFormed (absurd · word), Scope.behind, if_neg word]

theorem expand_malformed {e : LexError} (malformed : t.kind = .error e) :
    expand s active (t :: ts) = .error (lexFailure t e) := by
  rw [expand]
  split
  · rename_i e' malformed'
    cases malformed.symm.trans malformed'
    rfl
  · exact absurd malformed (‹∀ e, t.kind = .error e → False› e)

/-! ### Malformed tokens -/

theorem length_behind_le (s : Scope) (active : List String) (t : Token) (ts : List Token) :
    (s.behind active t ts).length ≤ ts.length := by
  have shorter : (behindInvocation ts).length ≤ ts.length := by
    unfold behindInvocation
    split
    · have := extent_invocation ‹_›
      omega
    · exact Nat.le_refl _
  unfold Scope.behind
  split
  · split
    · exact Nat.le_refl _
    · split
      · exact shorter
      · exact Nat.le_refl _
    · split
      · exact shorter
      · exact Nat.le_refl _
  · exact Nat.le_refl _

theorem length_le_of_asked {m : MacroDef} {params : List String} {args : List (List Token)} {a : Arg}
    {body : List Token} (asked : a ∈ askedFor (s.boundArgs active m params args) body) :
    a.raw.length ≤ extent args := by
  obtain ⟨name, bound⟩ := bound_of_askedFor asked
  rcases mem_of_argOf bound with there | rfl
  · obtain ⟨b, mem, rfl⟩ := List.mem_map.mp there
    exact length_le_of_mem_arrange mem
  · exact Nat.zero_le _

/-- What is expanded in the place of a token has fewer macros to offer, or is part of the text. -/
theorem Within.decreases {active' : List String} {text : List Token}
    (h : Within s active t ts active' text) :
    Prod.Lex (· < ·) (· < ·) (s.available active', text.length)
      (s.available active, (t :: ts).length) := by
  have fewer {m : MacroDef} (fate : s.fate active t.text = .replaced m) :
      s.available (t.text :: active) < s.available active := by
    obtain ⟨free, -, found⟩ := fate_eq_replaced fate
    exact Scope.available_cons_lt found free
  cases h with
  | body _ fate _ => exact .left _ _ (fewer fate)
  | replacement _ fate _ _ _ => exact .left _ _ (fewer fate)
  | argument _ _ _ invoked asked =>
    have short := length_le_of_asked asked
    have inside := extent_invocation invoked
    refine .right _ ?_
    rw [List.length_cons]
    omega

theorem wellFormed_of_succeeds (ok : Succeeds (expand s active (t :: ts))) (e : LexError) :
    t.kind ≠ .error e := by
  intro malformed
  rw [expand_malformed malformed] at ok
  exact nomatch ok

theorem succeeds_expand (s : Scope) (active : List String) :
    ∀ ts, (∀ u, Visits s active ts u → ∀ e, u.kind ≠ .error e) → Succeeds (expand s active ts)
  | [], _ => ⟨[], by rw [expand]⟩
  | t :: ts, wellFormed => by
    refine (succeeds_expand_cons (wellFormed t .here)).mpr ⟨?_, fun active' text inner => ?_⟩
    · have := length_behind_le s active t ts
      exact succeeds_expand s active _ fun u visits => wellFormed u (.behind visits)
    · have := inner.decreases
      exact succeeds_expand s active' text fun u visits => wellFormed u (.within inner visits)
termination_by ts => (s.available active, ts.length)
decreasing_by
  · exact .right _ (Nat.lt_succ_of_le this)
  · exact this

/-- A text is expanded if and only if all tokens that expanding it comes to are well-formed. -/
theorem succeeds_expand_iff (s : Scope) (active : List String) (ts : List Token) :
    Succeeds (expand s active ts) ↔ ∀ u, Visits s active ts u → ∀ e, u.kind ≠ .error e := by
  refine ⟨fun ok u visits => ?_, succeeds_expand s active ts⟩
  induction visits with
  | here => exact wellFormed_of_succeeds ok
  | behind _ ih => exact ih ((succeeds_expand_cons (wellFormed_of_succeeds ok)).mp ok).1
  | within inner _ ih => exact ih (((succeeds_expand_cons (wellFormed_of_succeeds ok)).mp ok).2 _ _ inner)

end HeaderDecl.Macro
