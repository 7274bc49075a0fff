import HeaderDecl.Proofs.ExpansionResults

/-!
Text that stands in two places. What it expands to does not depend on where it stands, nor on the
macros in force beyond what becomes of each name.
-/

namespace HeaderDecl

/-- The kind and the text of a token, without its place and the space before it. -/
def Token.face (t : Token) : TokenKind × String := (t.kind, t.text)

namespace Macro

/-! ### What becomes of a name -/

/-- What becomes of a name in a text: it stays, it vanishes, perhaps with its arguments, or it is
replaced. -/
inductive Fate where
  | kept
  | stripped (arguments : Bool)
  | replaced (m : MacroDef)

/-- What becomes of a name while others are being replaced. -/
def Scope.fate (s : Scope) (active : List String) (name : String) : Fate :=
  if active.contains name then .kept
  else if s.isStripped name then .stripped (s.stripsArguments name)
  else match s.table.get? name with
    | none => .kept
    | some m => .replaced m

/-- A name under replacement stays, whatever else becomes of it. -/
theorem Scope.fate_cons (s : Scope) (active : List String) (other name : String) :
    s.fate (other :: active) name = if name = other then .kept else s.fate active name := by
  by_cases same : name = other
  · simp [fate, same]
  · simp [fate, same]

/-- The tokens behind an invocation, or all if there is none. -/
def behindInvocation (ts : List Token) : List Token :=
  match invocation ts with
  | some (_, rest) => rest
  | none => ts

/-- An argument that is expanded where a body asks for it. -/
def lazyArg (s : Scope) (active : List String) (a : List Token) : Arg :=
  ⟨a, ⟨fun _ => expand s active a⟩⟩

section Unfold

variable {s : Scope} {active : List String} {t : Token} {ts : List Token} {m : MacroDef}
  {params : List String}

theorem isWord_of_kind {u : Token} (kind : u.kind = t.kind) (word : t.isWord = true) :
    u.isWord = true := by
  rw [Token.isWord, kind]
  exact word

theorem wellFormed_of_isWord (word : t.isWord = true) (e : LexError) : t.kind ≠ .error e := by
  intro malformed
  simp [Token.isWord, malformed, TokenKind.isWord] at word

theorem fate_eq_kept (h : s.fate active t.text = .kept) :
    active.contains t.text = true ∨ s.isStripped t.text = false ∧ s.table.get? t.text = none := by
  unfold Scope.fate at h
  split at h
  · exact .inl ‹_›
  · split at h
    · cases h
    · split at h
      · exact .inr ⟨Bool.eq_false_iff.mpr ‹_›, ‹_›⟩
      · cases h

theorem fate_eq_stripped {arguments : Bool} (h : s.fate active t.text = .stripped arguments) :
    active.contains t.text = false ∧ s.isStripped t.text = true ∧
      s.stripsArguments t.text = arguments := by
  unfold Scope.fate at h
  split at h
  · cases h
  · split at h
    · cases h
      exact ⟨Bool.eq_false_iff.mpr ‹_›, ‹_›, rfl⟩
    · split at h <;> cases h

theorem fate_stripped (free : active.contains t.text = false) (stripped : s.isStripped t.text = true) :
    s.fate active t.text = .stripped (s.stripsArguments t.text) := by
  rw [Scope.fate, if_neg (Bool.eq_false_iff.mp free), if_pos stripped]

/-- A name that is not stripped becomes what its macro says. -/
theorem fate_shown (free : active.contains t.text = false) (shown : ¬ s.isStripped t.text = true) :
    s.fate active t.text =
      match s.table.get? t.text with
      | none => .kept
      | some m => .replaced m := by
  rw [Scope.fate, if_neg (Bool.eq_false_iff.mp free), if_neg shown]

theorem fate_eq_replaced (h : s.fate active t.text = .replaced m) :
    active.contains t.text = false ∧ s.isStripped t.text = false ∧ s.table.get? t.text = some m := by
  unfold Scope.fate at h
  split at h
  · cases h
  · split at h
    · cases h
    · split at h
      · cases h
      · cases h
        exact ⟨Bool.eq_false_iff.mpr ‹_›, Bool.eq_false_iff.mpr ‹_›, ‹_›⟩

/-- A token is replaced only if it is a word that is not being replaced already. -/
theorem replaceable_iff : ¬ (!t.kind.isWord || active.contains t.text) = true ↔
    t.isWord = true ∧ active.contains t.text = false := by
  simp [Token.isWord]

/-- A token that is no word stays, and so does a word that is kept. -/
theorem expand_kept (wellFormed : ∀ e, t.kind ≠ .error e)
    (kept : t.isWord = true → s.fate active t.text = .kept) :
    expand s active (t :: ts) = (do let rest ← expand s active ts; return t :: rest) := by
  rw [expand]
  split
  · exact absurd ‹_› (wellFormed _)
  · split
    · rfl
    · rename_i replaceable
      obtain ⟨word, free⟩ := replaceable_iff.mp replaceable
      rcases fate_eq_kept (kept word) with busy | ⟨shown, unknown⟩
      · rw [free] at busy
        cases busy
      · rw [if_neg (by simp [shown])]
        split
        · rfl
        · simp_all

theorem expand_stripped (word : t.isWord = true) {arguments : Bool}
    (fate : s.fate active t.text = .stripped arguments) :
    expand s active (t :: ts) = expand s active (if arguments then behindInvocation ts else ts) := by
  obtain ⟨free, stripped, rfl⟩ := fate_eq_stripped fate
  rw [expand]
  split
  · exact absurd ‹_› (wellFormed_of_isWord word _)
  · rw [dif_neg (replaceable_iff.mpr ⟨word, free⟩), if_pos stripped]
    rfl

/-- A name that is replaced gives way to the body of its macro, with the arguments in it. -/
theorem expand_replaced (word : t.isWord = true) (fate : s.fate active t.text = .replaced m) :
    expand s active (t :: ts) =
      match m.params with
      | none => do
        let replaced ← expand s (t.text :: active) (relocate t m.body)
        let rest ← expand s active ts
        return replaced ++ rest
      | some params =>
        match invocation ts with
        | none => do
          let rest ← expand s active ts
          return t :: rest
        | some (args, after) => do
          let body ← substitute (argOf params m.variadic
            ((arrange params m.variadic.isSome args).map (lazyArg s active))) [] m.body
          let replaced ← expand s (t.text :: active) (relocate t body)
          let rest ← expand s active after
          return replaced ++ rest := by
  obtain ⟨free, shown, found⟩ := fate_eq_replaced fate
  rw [expand]
  split
  · exact absurd ‹_› (wellFormed_of_isWord word _)
  · rw [dif_neg (replaceable_iff.mpr ⟨word, free⟩), if_neg (by simp [shown])]
    split
    · simp_all
    · rename_i found'
      cases found.symm.trans found'
      simp only [List.map_attach_eq_pmap, List.pmap_eq_map]
      cases m.params with
      | none => rfl
      | some params =>
        dsimp only
        split
        · rename_i invoked
          rw [invoked]
        · rename_i invoked
          rw [invoked]
          rfl

end Unfold

/-! ### Tokens without their place -/

/-- A token as it is read, wherever it stands. -/
def unplaced (t : Token) : Token := { t with span := ⟨0, 0⟩, loc := .synthetic, lineStart := false }

@[simp] theorem is_unplaced (t : Token) (p : Punct) : (unplaced t).is p = t.is p := rfl

theorem collectArgs_unplaced (depth : Nat) (ts : List Token) :
    collectArgs depth (ts.map unplaced) = (collectArgs depth ts).map fun (arg, args, rest) =>
      (arg.map unplaced, args.map (List.map unplaced), rest.map unplaced) := by
  induction ts generalizing depth with
  | nil => rfl
  | cons t ts ih =>
    simp only [List.map_cons, collectArgs, is_unplaced, ih]
    split
    · rfl
    · split
      · simp [Function.comp_def]
      · simp [Function.comp_def]
        rfl

theorem invocation_unplaced (ts : List Token) :
    invocation (ts.map unplaced) = (invocation ts).map fun (args, rest) =>
      (args.map (List.map unplaced), rest.map unplaced) := by
  cases ts with
  | nil => rfl
  | cons t ts =>
    simp only [List.map_cons, invocation, is_unplaced, collectArgs_unplaced]
    split
    · simp [Function.comp_def]
    · rfl

theorem joinArgs_unplaced (args : List (List Token)) :
    joinArgs (args.map (List.map unplaced)) = (joinArgs args).map unplaced := by
  fun_induction joinArgs args with
  | case1 => rfl
  | case2 a => rfl
  | case3 a args more ih =>
    obtain ⟨b, args, rfl⟩ := List.exists_cons_of_ne_nil more
    simp only [List.map_cons, joinArgs] at ih ⊢
    rw [ih, List.map_append, List.map_cons]
    rfl

theorem arrange_unplaced (params : List String) (variadic : Bool) (args : List (List Token)) :
    arrange params variadic (args.map (List.map unplaced)) =
      (arrange params variadic args).map (List.map unplaced) := by
  have empty : (args.map (List.map unplaced) == [[]]) = (args == [[]]) := by
    rw [Bool.eq_iff_iff, beq_iff_eq, beq_iff_eq]
    cases args with
    | nil => simp
    | cons a args => simp
  have given : (if params.isEmpty && args.map (List.map unplaced) == [[]] then []
      else args.map (List.map unplaced)) =
      (if params.isEmpty && args == [[]] then [] else args).map (List.map unplaced) := by
    rw [empty]
    split <;> rfl
  unfold arrange
  dsimp only
  rw [given]
  generalize (if params.isEmpty && args == [[]] then [] else args) = args
  cases variadic with
  | false => rfl
  | true =>
    simp only [if_true, List.map_append, List.map_take, List.map_replicate, List.map_nil,
      List.length_map, List.map_cons, ← List.map_drop, joinArgs_unplaced]

theorem spell_unplaced (ts : List Token) : spell (ts.map unplaced) = spell ts := by
  cases ts with
  | nil => rfl
  | cons t ts =>
    simp only [List.map_cons, spell, List.map_map]
    rfl

theorem stringify_unplaced (arg : List Token) : stringify (arg.map unplaced) = stringify arg := by
  unfold stringify
  rw [spell_unplaced]

/-! ### Texts that are alike -/

/-- Texts that are read alike wherever they stand. Whether there is space before the first token may
not count, for a replacement takes it from the name it stands for. -/
inductive Alike : Bool → List Token → List Token → Prop
  | nil {exact : Bool} : Alike exact [] []
  | cons {exact : Bool} {t u : Token} {ts us : List Token} (kind : u.kind = t.kind)
    (text : u.text = t.text) (spaced : exact = true → u.spaced = t.spaced)
    (tail : us.map unplaced = ts.map unplaced) : Alike exact (t :: ts) (u :: us)

section Alike

variable {exact : Bool} {ts us ts' us' : List Token} {t u : Token}

theorem unplaced_inj :
    unplaced u = unplaced t ↔ u.kind = t.kind ∧ u.text = t.text ∧ u.spaced = t.spaced := by
  simp [unplaced]

theorem Alike.of_map (h : us.map unplaced = ts.map unplaced) : Alike exact ts us := by
  cases ts with
  | nil =>
    rw [List.map_nil, List.map_eq_nil_iff] at h
    subst h
    exact .nil
  | cons t ts =>
    obtain ⟨u, us, rfl, head, tail⟩ := List.map_eq_cons_iff.mp h
    obtain ⟨kind, text, spaced⟩ := unplaced_inj.mp head
    exact .cons kind text (fun _ => spaced) tail

theorem Alike.uncons (h : Alike exact (t :: ts) us) :
    ∃ u us', us = u :: us' ∧ u.kind = t.kind ∧ u.text = t.text ∧ (exact = true → u.spaced = t.spaced) ∧
      us'.map unplaced = ts.map unplaced := by
  cases h with
  | cons kind text spaced tail => exact ⟨_, _, rfl, kind, text, spaced, tail⟩

theorem alike_true : Alike true ts us ↔ us.map unplaced = ts.map unplaced := by
  refine ⟨fun h => ?_, .of_map⟩
  cases h with
  | nil => rfl
  | cons kind text spaced tail =>
    rw [List.map_cons, List.map_cons, unplaced_inj.mpr ⟨kind, text, spaced rfl⟩, tail]

theorem Alike.append (h : Alike exact ts us) (h' : us'.map unplaced = ts'.map unplaced) :
    Alike exact (ts ++ ts') (us ++ us') := by
  cases h with
  | nil => exact .of_map h'
  | cons kind text spaced tail =>
    refine .cons kind text spaced ?_
    have both (us ts : List Token) : (us ++ ts).map unplaced = us.map unplaced ++ ts.map unplaced :=
      List.map_append
    exact (both _ _).trans (by rw [tail, h', ← both]; rfl)

/-- What is moved to places that are alike is alike. -/
theorem Alike.relocate (h : us.map unplaced = ts.map unplaced)
    (spaced : exact = true → u.spaced = t.spaced) :
    Alike exact (Macro.relocate t ts) (Macro.relocate u us) := by
  cases alike_true.mpr h with
  | nil => exact .nil
  | cons kind text _ tail =>
    refine .cons kind text spaced ?_
    -- A token that is moved has nothing left of its old place.
    have moved (site t : Token) :
        unplaced { t with span := site.span, loc := site.loc, lineStart := false } = unplaced t := rfl
    simpa only [List.map_map, Function.comp_def, moved] using tail

/-- A text is alike where it is moved to, but for the space before it. -/
theorem alike_relocate (site : Token) (ts : List Token) : Alike false ts (Macro.relocate site ts) := by
  cases ts with
  | nil => exact .nil
  | cons t ts =>
    refine .cons rfl rfl nofun ?_
    rw [List.map_map]
    rfl

/-- Texts that are alike have tokens of the same kinds with the same texts. -/
theorem Alike.faces (h : Alike exact ts us) :
    us.map Token.face = ts.map Token.face := by
  cases h with
  | nil => rfl
  | cons kind text _ tail =>
    have rest := congrArg (List.map Token.face) tail
    rw [List.map_map, List.map_map] at rest
    rw [List.map_cons, List.map_cons, Token.face, kind, text]
    exact congrArg _ rest

/-- If the one expansion succeeds, so does the other, and what they give is alike. -/
def Follows (exact : Bool) (r r' : Except FatalError (List Token)) : Prop :=
  ∀ ts, r = .ok ts → ∃ us, r' = .ok us ∧ Alike exact ts us

theorem Follows.ok (h : Alike exact ts us) : Follows exact (.ok ts) (.ok us) := by
  rintro _ ⟨⟩
  exact ⟨us, rfl, h⟩

theorem Follows.bind {exact' : Bool} {r r' : Except FatalError (List Token)}
    {f f' : List Token → Except FatalError (List Token)} (first : Follows exact r r')
    (next : ∀ ts us, Alike exact ts us → Follows exact' (f ts) (f' us)) :
    Follows exact' (r >>= f) (r' >>= f') := by
  intro last done
  cases r with
  | error e => cases done
  | ok ts =>
    obtain ⟨us, rfl, alike⟩ := first ts rfl
    exact next ts us alike last done

theorem pasteOnto_unplaced (produced right : List Token) :
    pasteOnto (produced.map unplaced) (right.map unplaced) = (pasteOnto produced right).map unplaced := by
  cases produced with
  | nil => simp [pasteOnto]
  | cons left before =>
    cases right with
    | nil => rfl
    | cons first more => simp [pasteOnto, paste, unplaced]

end Alike

section Substitute

variable {args args' : String → Option Arg}

theorem substitute_other (args : String → Option Arg) (produced : List Token) {t : Token}
    (body : List Token) (noHash : t.kind ≠ .punct .hash) (noPaste : t.kind ≠ .punct .hashHash) :
    substitute args produced (t :: body) =
      match if t.kind.isWord then args t.text else none with
      | some a =>
        if body.head?.any (·.is .hashHash) then substitute args (a.raw.reverse ++ produced) body
        else do
          let expanded ← a.expanded.get
          substitute args (expanded.reverse ++ produced) body
      | none => substitute args (t :: produced) body := by
  rw [substitute] <;> first | rfl | simp [noHash, noPaste]

/-- A kind that is not another one, whatever follows. The last cases of a replacement say so. -/
theorem differs {kind other : TokenKind} {rest : List Token}
    (more : ∀ n rest', kind = other → rest = n :: rest' → False)
    (last : kind = other → rest = [] → False) : kind ≠ other := by
  intro h
  cases rest with
  | nil => exact last h rfl
  | cons n rest' => exact more n rest' h rfl

/-- Replacements of the same body with arguments that are alike. -/
theorem follows_substitute
    (raw : ∀ name, (args' name).map (·.raw.map unplaced) = (args name).map (·.raw.map unplaced))
    (expanded : ∀ name a a', args name = some a → args' name = some a' →
      Follows true a.expanded.get a'.expanded.get)
    {produced produced' body : List Token} (same : produced'.map unplaced = produced.map unplaced) :
    Follows true (substitute args produced body) (substitute args' produced' body) := by
  have bound {name : String} {a : Arg} (given : args name = some a) :
      ∃ a', args' name = some a' ∧ a'.raw.map unplaced = a.raw.map unplaced := by
    have h := raw name
    rw [given] at h
    exact Option.map_eq_some_iff.mp h
  have unbound {name : String} (given : args name = none) : args' name = none := by
    have h := raw name
    rw [given] at h
    exact Option.map_eq_none_iff.mp h
  have asked {t : Token} {a : Arg} (given : (if t.kind.isWord then args t.text else none) = some a) :
      args t.text = some a ∧ t.kind.isWord = true := by
    split at given
    · exact ⟨given, ‹_›⟩
    · cases given
  fun_induction substitute args produced body generalizing produced' with
  | case1 produced =>
    rw [substitute]
    exact .ok (alike_true.mpr (by rw [List.map_reverse, List.map_reverse, same]))
  | case2 produced t n body hash a given ih =>
    obtain ⟨a', given', alike⟩ := bound given
    simp only [substitute, hash, given']
    apply ih
    rw [List.map_cons, List.map_cons, same, ← stringify_unplaced a'.raw, alike, stringify_unplaced]
  | case3 produced t n body hash given ih =>
    simp only [substitute, hash, unbound given]
    exact ih (by rw [List.map_cons, List.map_cons, same])
  | case4 produced t hash ih =>
    simp only [substitute, hash]
    simp only [substitute] at ih
    exact ih (by rw [List.map_cons, List.map_cons, same])
  | case5 produced t n body paste right =>
    rename_i ih
    simp only [substitute, paste]
    apply ih
    rw [← pasteOnto_unplaced, ← pasteOnto_unplaced, same]
    congr 1
    cases given : args n.text with
    | none => simp only [right, given, unbound given]
    | some a =>
      obtain ⟨a', given', alike⟩ := bound given
      simp only [right, given, given', alike]
  | case6 produced t paste ih =>
    simp only [substitute, paste]
    simp only [substitute] at ih
    exact ih same
  | case7 produced t body a joined notHash lastHash notPaste lastPaste given ih =>
    obtain ⟨given, word⟩ := asked given
    obtain ⟨a', given', alike⟩ := bound given
    simp only [substitute_other _ _ _ (differs notHash lastHash) (differs notPaste lastPaste),
      word, if_true, given', joined]
    apply ih
    rw [List.map_append, List.map_append, List.map_reverse, List.map_reverse, alike, same]
  | case8 produced t body a apart notHash lastHash notPaste lastPaste given ih =>
    obtain ⟨given, word⟩ := asked given
    obtain ⟨a', given', -⟩ := bound given
    simp only [substitute_other _ _ _ (differs notHash lastHash) (differs notPaste lastPaste),
      word, if_true, given', apart]
    refine (expanded t.text a a' given given').bind fun ts us alike => ?_
    apply ih
    rw [List.map_append, List.map_append, List.map_reverse, List.map_reverse, alike_true.mp alike,
      same]
  | case9 produced t body notHash lastHash notPaste lastPaste given ih =>
    have given' : (if t.kind.isWord then args' t.text else none) = none := by
      split
      next word =>
        rw [if_pos word] at given
        exact unbound given
      next => rfl
    simp only [substitute_other _ _ _ (differs notHash lastHash) (differs notPaste lastPaste), given']
    exact ih (by rw [List.map_cons, List.map_cons, same])

end Substitute

section Expand

variable {s s' : Scope} {active active' : List String}

/-- Texts that are alike begin with invocations that are alike, or with none. -/
theorem invocation_alike {ts us : List Token} (same : us.map unplaced = ts.map unplaced) :
    (invocation us).map (fun (args, rest) => (args.map (List.map unplaced), rest.map unplaced)) =
      (invocation ts).map fun (args, rest) => (args.map (List.map unplaced), rest.map unplaced) := by
  rw [← invocation_unplaced, ← invocation_unplaced, same]

theorem invocation_none {ts us : List Token} (same : us.map unplaced = ts.map unplaced)
    (none : invocation ts = none) : invocation us = Option.none := by
  have both := invocation_alike same
  rw [none] at both
  exact Option.map_eq_none_iff.mp both

theorem invocation_some {ts us after : List Token} {args : List (List Token)}
    (same : us.map unplaced = ts.map unplaced) (invoked : invocation ts = some (args, after)) :
    ∃ args' after', invocation us = some (args', after') ∧
      args'.map (List.map unplaced) = args.map (List.map unplaced) ∧
      after'.map unplaced = after.map unplaced := by
  have both := invocation_alike same
  rw [invoked] at both
  obtain ⟨⟨args', after'⟩, invoked', alike⟩ := Option.map_eq_some_iff.mp both
  obtain ⟨args_, after_⟩ := Prod.mk.inj alike
  exact ⟨args', after', invoked', args_, after_⟩

theorem behindInvocation_alike {ts us : List Token} (same : us.map unplaced = ts.map unplaced) :
    (behindInvocation us).map unplaced = (behindInvocation ts).map unplaced := by
  unfold behindInvocation
  cases invoked : invocation ts with
  | none =>
    rw [invocation_none same invoked]
    exact same
  | some i =>
    obtain ⟨args, after⟩ := i
    obtain ⟨args', after', invoked', -, alike⟩ := invocation_some same invoked
    rw [invoked']
    exact alike

/-- Which of the arguments a parameter stands for. -/
def position (params : List String) (variadic : Option String) (name : String) : Option Nat :=
  match params.idxOf? name with
  | some i => some i
  | none => if variadic = some name then some params.length else none

theorem argOf_eq (params : List String) (variadic : Option String) (args : List Arg) (name : String) :
    argOf params variadic args name =
      (position params variadic name).map fun i => args[i]?.getD ⟨[], .pure (.ok [])⟩ := by
  unfold argOf position
  cases params.idxOf? name with
  | some i => rfl
  | none =>
    dsimp only
    split <;> rfl

section Arguments

variable {args args' : List (List Token)}
  (same : args'.map (List.map unplaced) = args.map (List.map unplaced))

include same

/-- Arguments at the same place are alike, or there is none. -/
theorem getElem?_alike (i : Nat) :
    (args[i]? = none ∧ args'[i]? = none) ∨
      ∃ a a', args[i]? = some a ∧ args'[i]? = some a' ∧ a'.map unplaced = a.map unplaced := by
  have both : args'[i]?.map (List.map unplaced) = args[i]?.map (List.map unplaced) := by
    rw [← List.getElem?_map, ← List.getElem?_map, same]
  cases here : args[i]? with
  | none =>
    rw [here] at both
    exact .inl ⟨rfl, Option.map_eq_none_iff.mp both⟩
  | some a =>
    rw [here] at both
    obtain ⟨a', there, alike⟩ := Option.map_eq_some_iff.mp both
    exact .inr ⟨a, a', rfl, there, alike⟩

variable {f f' : List Token → Arg} (params : List String) (variadic : Option String) (name : String)

theorem argOf_raw (raw : ∀ a, (f a).raw = a) (raw' : ∀ a, (f' a).raw = a) :
    (argOf params variadic (args'.map f') name).map (·.raw.map unplaced) =
      (argOf params variadic (args.map f) name).map (·.raw.map unplaced) := by
  rw [argOf_eq, argOf_eq, Option.map_map, Option.map_map]
  congr 1
  funext i
  simp only [Function.comp_apply, List.getElem?_map]
  rcases getElem?_alike same i with ⟨here, there⟩ | ⟨a, a', here, there, alike⟩
  · simp [here, there]
  · simp [here, there, raw, raw', alike]

theorem argOf_expanded
    (expanded : ∀ a ∈ args, ∀ a', a'.map unplaced = a.map unplaced →
      Follows true (f a).expanded.get (f' a').expanded.get) (b b' : Arg)
    (given : argOf params variadic (args.map f) name = some b)
    (given' : argOf params variadic (args'.map f') name = some b') :
    Follows true b.expanded.get b'.expanded.get := by
  rw [argOf_eq] at given given'
  obtain ⟨i, place, rfl⟩ := Option.map_eq_some_iff.mp given
  obtain ⟨i', place', rfl⟩ := Option.map_eq_some_iff.mp given'
  cases place.symm.trans place'
  simp only [List.getElem?_map]
  rcases getElem?_alike same i with ⟨here, there⟩ | ⟨a, a', here, there, alike⟩
  · rw [here, there]
    exact .ok .nil
  · rw [here, there]
    exact expanded a (List.mem_of_getElem? here) a' alike

end Arguments

/-- What becomes of a token that stays is alike if the rest is. -/
theorem follows_kept {exact : Bool} {t u : Token} {r r' : Except FatalError (List Token)}
    (kind : u.kind = t.kind) (text : u.text = t.text) (spaced : exact = true → u.spaced = t.spaced)
    (rest : Follows true r r') :
    Follows exact (do let ts ← r; return t :: ts) (do let us ← r'; return u :: us) :=
  rest.bind fun _ _ alike => .ok (.cons kind text spaced (alike_true.mp alike))

/-- What becomes of a token that is replaced is alike if its replacement and the rest are. -/
theorem follows_replaced {exact : Bool} {x x' r r' : Except FatalError (List Token)}
    (replaced : Follows exact x x') (rest : Follows true r r') :
    Follows exact (do let ts ← x; let us ← r; return ts ++ us)
      (do let ts ← x'; let us ← r'; return ts ++ us) :=
  replaced.bind fun _ _ alike => rest.bind fun _ _ alike' => .ok (alike.append (alike_true.mp alike'))

/-- Where the same becomes of each name, texts that are alike expand alike. -/
theorem follows_expand {exact : Bool} {ts us : List Token}
    (fates : ∀ name, s'.fate active' name = s.fate active name) (alike : Alike exact ts us) :
    Follows exact (expand s active ts) (expand s' active' us) := by
  have within (active active' : List String) (name : String)
      (fates : ∀ name, s'.fate active' name = s.fate active name) (other : String) :
      s'.fate (name :: active') other = s.fate (name :: active) other := by
    rw [Scope.fate_cons, Scope.fate_cons, fates]
  fun_induction expand s active ts generalizing active' us exact with
  | case1 active =>
    cases alike
    simp only [expand]
    exact .ok .nil
  | case2 active t ts e malformed =>
    rintro _ ⟨⟩
  | case3 active t ts wellFormed kept ih =>
    obtain ⟨u, us, rfl, kind, text, spaced, tail⟩ := alike.uncons
    have kept' : u.isWord = true → s'.fate active' u.text = .kept := by
      intro word
      have busy : active.contains t.text = true := by
        rw [Token.isWord, kind] at word
        simpa [word] using kept
      rw [text, fates, Scope.fate, if_pos busy]
    rw [expand_kept (fun e => kind ▸ wellFormed e) kept']
    exact follows_kept kind text spaced (ih fates (.of_map tail))
  | case4 active t ts stripped _ wellFormed replaceable ih =>
    obtain ⟨u, us, rfl, kind, text, spaced, tail⟩ := alike.uncons
    obtain ⟨word, free⟩ := replaceable_iff.mp replaceable
    have fate : s'.fate active' u.text = .stripped (s.stripsArguments t.text) := by
      rw [text, fates, fate_stripped free stripped]
    rw [expand_stripped (isWord_of_kind kind word) fate]
    apply ih fates
    apply Alike.of_map
    unfold afterStripped
    split
    · exact behindInvocation_alike tail
    · exact tail
  | case5 active t ts shown unknown wellFormed replaceable ih =>
    obtain ⟨u, us, rfl, kind, text, spaced, tail⟩ := alike.uncons
    obtain ⟨-, free⟩ := replaceable_iff.mp replaceable
    have fate : s'.fate active' u.text = .kept := by
      rw [text, fates, fate_shown free shown, unknown]
    rw [expand_kept (fun e => kind ▸ wellFormed e) fun _ => fate]
    exact follows_kept kind text spaced (ih fates (.of_map tail))
  | case6 active t ts shown m found object wellFormed replaceable unmarked _ body after =>
    obtain ⟨u, us, rfl, kind, text, spaced, tail⟩ := alike.uncons
    obtain ⟨word, free⟩ := replaceable_iff.mp replaceable
    have fate : s'.fate active' u.text = .replaced m := by
      rw [text, fates, fate_shown free shown, found]
    rw [expand_replaced (isWord_of_kind kind word) fate, object]
    refine follows_replaced (body ?_ (.relocate rfl spaced)) (after fates (.of_map tail))
    exact text ▸ within _ _ _ fates
  | case7 active t ts shown m found params function bare wellFormed replaceable unmarked _ ih =>
    obtain ⟨u, us, rfl, kind, text, spaced, tail⟩ := alike.uncons
    obtain ⟨word, free⟩ := replaceable_iff.mp replaceable
    have fate : s'.fate active' u.text = .replaced m := by
      rw [text, fates, fate_shown free shown, found]
    rw [expand_replaced (isWord_of_kind kind word) fate, function]
    dsimp only
    rw [invocation_none tail bare]
    exact follows_kept kind text spaced (ih fates (.of_map tail))
  | case8 active t ts shown m found params function args after invoked _ arranged wellFormed
      replaceable unmarked _ =>
    rename_i argument body behind
    obtain ⟨u, us, rfl, kind, text, spaced, tail⟩ := alike.uncons
    obtain ⟨word, free⟩ := replaceable_iff.mp replaceable
    have fate : s'.fate active' u.text = .replaced m := by
      rw [text, fates, fate_shown free shown, found]
    obtain ⟨args', after', invoked', alikeArgs, alikeAfter⟩ := invocation_some tail invoked
    have lazy : arranged = (arrange params m.variadic.isSome args).map (lazyArg s active) := by
      simp only [arranged, List.map_attach_eq_pmap, List.pmap_eq_map]
      rfl
    have arrangedAlike : (arrange params m.variadic.isSome args').map (List.map unplaced) =
        (arrange params m.variadic.isSome args).map (List.map unplaced) := by
      rw [← arrange_unplaced, ← arrange_unplaced, alikeArgs]
    rw [expand_replaced (isWord_of_kind kind word) fate, function, lazy]
    dsimp only
    rw [invoked']
    refine Follows.bind (follows_substitute
      (fun name => argOf_raw arrangedAlike params m.variadic name (fun _ => rfl) fun _ => rfl)
      (fun name a a' given given' => argOf_expanded arrangedAlike params m.variadic name
        (fun b mem b' alike => argument b mem fates (.of_map alike)) a a' given given')
      rfl) fun ts us alike => ?_
    refine follows_replaced (body ts ?_ (.relocate (alike_true.mp alike) spaced))
      (behind fates (.of_map alikeAfter))
    exact text ▸ within _ _ _ fates

end Expand

end Macro

end HeaderDecl
