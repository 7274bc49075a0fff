import HeaderDecl.Proofs.LookedUpNames
import HeaderDecl.Proofs.ResolutionSteps

/-!
The steps that the resolution of a name is made of. A relation between computations that holds of each
step holds of the resolution of every type.
-/

namespace HeaderDecl.Resolution

variable {jump jump' : Jump} {site site' : Site}

/-! ### Steps that succeed -/

/-- The type at the end of a chain, given the type that a typedef names. -/
def chainEnd : TypeRef → TypeRef
  | .typedef _ t => t
  | t => t

theorem terminal_chainEnd (t : TypeRef) : (chainEnd t).terminal = t.terminal := by
  unfold chainEnd
  split <;> rfl

theorem terminalOf_run (jump : Jump) (site : Site) (name : String) (target : TypeExpr) (s : State) :
    terminalOf jump site name target s =
      match s.terminals.get? name with
      | some t => (.ok t, s)
      | none => match resolveTypedef jump site name target s with
        | (.ok t, s) => (.ok (chainEnd t), { s with terminals := s.terminals.insert name (chainEnd t) })
        | (.error e, s) => (.error e, s) := by
  unfold terminalOf
  rw [bind_run]
  dsimp only [Resolver.get]
  cases s.terminals.get? name with
  | some t => rfl
  | none =>
    change Resolver.bind _ _ s = _
    unfold Resolver.bind
    rcases resolveTypedef jump site name target s with ⟨e | t, s'⟩ <;> rfl

theorem terminalOf_eq_ok {name : String} {target : TypeExpr} {s s' : State} {a : TypeRef}
    (run : terminalOf jump site name target s = (.ok a, s')) :
    (s.terminals.get? name = some a ∧ s' = s) ∨
      ∃ t u, resolveTypedef jump site name target s = (.ok t, u) ∧ a = chainEnd t ∧
        s' = { u with terminals := u.terminals.insert name a } := by
  rw [terminalOf_run] at run
  cases kept : s.terminals.get? name with
  | some t =>
    rw [kept] at run
    cases run
    exact .inl ⟨rfl, rfl⟩
  | none =>
    rw [kept] at run
    rcases resolved : resolveTypedef jump site name target s with ⟨e | t, u⟩
    · rw [resolved] at run
      cases run
    · rw [resolved] at run
      cases run
      exact .inr ⟨t, u, rfl, rfl, rfl⟩

/-- A typedef that is resolved has a chain within the bound, and its length is kept. -/
theorem resolveTypedef_eq_ok {name : String} {target : TypeExpr} {s s' : State} {t : TypeRef}
    (run : resolveTypedef jump site name target s = (.ok t, s')) :
    ∃ u, jump { site with resolving := site.resolving ++ [name] } target s = (.ok t, u) ∧
      chainLength u.lengths t ≤ site.maxDepth ∧
      s' = { u with lengths := u.lengths.insert name (chainLength u.lengths t) } := by
  unfold resolveTypedef at run
  split at run
  · obtain ⟨_, u, jumped, run⟩ := bind_eq_ok run
    obtain ⟨_, _, got, run⟩ := bind_eq_ok run
    cases got
    dsimp only at run
    split at run
    · cases run
    · cases run
      exact ⟨u, jumped, Nat.le_of_not_lt ‹_›, rfl⟩
  · cases run

theorem each_append_eq_ok {α : Type} {f : α → Resolver Unit} {xs ys : List α} {s s' : State}
    (run : Resolver.each f (xs ++ ys) s = (.ok (), s')) :
    ∃ u, Resolver.each f xs s = (.ok (), u) ∧ Resolver.each f ys u = (.ok (), s') := by
  -- The state between both parts is the one behind the last of the first.
  induction xs generalizing s with
  | nil => exact ⟨s, rfl, run⟩
  | cons x xs ih =>
    obtain ⟨_, t, here, rest⟩ := bind_eq_ok run
    obtain ⟨u, first, last⟩ := ih rest
    refine ⟨u, ?_, last⟩
    rw [Resolver.each, bind_run, here]
    exact first

theorem each_append_of_ok {α : Type} {f : α → Resolver Unit} {xs : List α} {s u : State}
    (run : Resolver.each f xs s = (.ok (), u)) (ys : List α) :
    Resolver.each f (xs ++ ys) s = Resolver.each f ys u := by
  induction xs generalizing s with
  | nil =>
    cases run
    rfl
  | cons x xs ih =>
    obtain ⟨_, t, here, rest⟩ := bind_eq_ok run
    rw [List.cons_append, Resolver.each, bind_run, here]
    exact ih rest

/-! ### Relations that are kept -/

/-- A relation between computations that holds of two jumps from related sites, and of what is put
together from related computations. -/
structure Jumps (J : ∀ α : Type, Resolver α → Resolver α → Prop) (jump jump' : Jump)
    (V : Site → Site → Prop) (A : NameUse → Prop) : Prop extends Sites V where
  pure {α : Type} (a : α) : J α (pure a) (pure a)
  bind {α β : Type} {x y : Resolver α} {f g : α → Resolver β} (first : J α x y)
    (next : ∀ a, J β (f a) (g a)) : J β (x >>= f) (y >>= g)
  target {site site' : Site} {t : TypeExpr} (sites : V site site')
    (names : LooksUpOnly A site.view t) : J _ (jump site t) (jump' site' t)

namespace Jumps

variable {J : ∀ α : Type, Resolver α → Resolver α → Prop} {V : Site → Site → Prop}
  {A : NameUse → Prop}

theorem done (h : Jumps J jump jump' V A) {α β : Type} {x y : Resolver α} (first : J α x y)
    (g : α → β) : J β (x >>= fun a => Pure.pure (g a)) (y >>= fun a => Pure.pure (g a)) :=
  h.bind first fun a => h.pure (g a)

theorem defaultArg (h : Jumps J jump jump' V A) (sites : V site site')
    {p : TemplateParam TypeExpr} (names : ∀ t ∈ p.types, LooksUpOnly A site.view t) :
    J _ (Resolution.defaultArg jump site p) (Resolution.defaultArg jump' site' p) := by
  obtain ⟨name, kind, pack⟩ := p
  unfold Resolution.defaultArg
  cases pack with
  | true => exact h.pure _
  | false =>
    cases kind with
    | type default =>
      cases default with
      | none => exact h.pure _
      | some t => exact h.done (h.target sites (names t List.mem_cons_self)) _
    | nonType t default => cases default <;> exact h.pure _
    | template default => cases default <;> exact h.pure _

theorem appendDefaults (h : Jumps J jump jump' V A) (sites : V site site')
    (params rest : List (TemplateParam TypeExpr)) (args : List ArgRef)
    (names : ∀ p ∈ rest, ∀ t ∈ p.types, LooksUpOnly A site.view t) :
    J _ (Resolution.appendDefaults jump site params rest args)
      (Resolution.appendDefaults jump' site' params rest args) := by
  induction rest generalizing args with
  | nil => exact h.pure args
  | cons p rest ih =>
    refine h.bind (h.defaultArg sites (names p List.mem_cons_self)) fun a => ?_
    cases a with
    | none => exact h.pure args
    | some a => exact ih _ fun p hp => names p (List.mem_cons_of_mem _ hp)

theorem fillDefaults (h : Jumps J jump jump' V A) (sites : V site site')
    (params : List (TemplateParam TypeExpr)) (view : View) (args : List ArgRef)
    (names : ∀ p ∈ params, ∀ t ∈ p.types, LooksUpOnly A (view.withParams params) t) :
    J _ (Resolution.fillDefaults jump site params view args)
      (Resolution.fillDefaults jump' site' params view args) :=
  h.appendDefaults (h.moved sites _) params _ args fun p hp => names p (List.mem_of_mem_drop hp)

theorem jumpArgs (h : Jumps J jump jump' V A) (sites : V site site') (args : List ArgExpr)
    (names : ∀ t ∈ args.flatMap (·.types), LooksUpOnly A site.view t) :
    J _ (Resolution.jumpArgs jump site args) (Resolution.jumpArgs jump' site' args) := by
  induction args with
  | nil => exact h.pure []
  | cons a rest ih =>
    have later := ih fun t ht => names t (List.mem_append_right _ ht)
    cases a with
    | literal text => exact h.done later _
    | type t =>
      exact h.bind (h.target sites (names t (List.mem_append_left _ List.mem_cons_self))) fun _ =>
        h.done later _

end Jumps

/-- Whether a name is found with a meaning that it is known to have. -/
def Found.Known (M : String → Meaning → Prop) : Found → Prop
  | .type _ => True
  | .meaning name m => M name m

/-- A relation that holds of all steps by which a name is resolved. Names are found with certain meanings
only. -/
structure Walk (J : ∀ α : Type, Resolver α → Resolver α → Prop) (jump jump' : Jump)
    (V : Site → Site → Prop) (A : NameUse → Prop) (M : String → Meaning → Prop) : Prop
    extends Jumps J jump jump' V A where
  look {site site' : Site} {kind : Option NamedKind} {p : PathExpr} {β : Type}
    {f g : Found → Resolver β} (sites : V site site') (h : A ⟨site.view, kind, p⟩)
    (next : ∀ found, found.Known M → J β (f found) (g found)) :
    J β (look site kind p >>= f) (look site' kind p >>= g)
  ends {site site' : Site} {name : String} {target : TypeExpr} (sites : V site site')
    (known : M name (.typedef target site.view)) :
    J _ (terminalOf jump site name target) (terminalOf jump' site' name target)
  defaults {name : String} {kind : RecordKind} {params : List (TemplateParam TypeExpr)} {view : View}
    (known : M name (.template kind params view)) :
    ∀ p ∈ params, ∀ t ∈ p.types, LooksUpOnly A (view.withParams params) t
  select {site site' : Site} (sites : V site site') {template : String} {kind : RecordKind}
    {params : List (TemplateParam TypeExpr)} {view : View}
    (known : M template (.template kind params view)) (args : List ArgRef) :
    J _ (select jump site template args) (select jump' site' template args)

namespace Walk

variable {J : ∀ α : Type, Resolver α → Resolver α → Prop} {V : Site → Site → Prop}
  {A : NameUse → Prop}
  {M : String → Meaning → Prop}

theorem instantiate (h : Walk J jump jump' V A M) (sites : V site site') {template : String}
    {kind : RecordKind} {params : List (TemplateParam TypeExpr)} {view : View}
    (known : M template (.template kind params view)) (args : List ArgRef) :
    J _ (Resolution.instantiate jump site template params view args)
      (Resolution.instantiate jump' site' template params view args) :=
  h.bind (h.fillDefaults sites params view args (h.defaults known)) fun args =>
    h.done (h.select sites known args) _

theorem resolvePath (h : Walk J jump jump' V A M) (sites : V site site')
    (kind : Option NamedKind) (p : PathExpr) (hp : A ⟨site.view, kind, p⟩)
    (args : J _ (resolveArgs? jump site p.last.args) (resolveArgs? jump' site' p.last.args)) :
    J _ (Resolution.resolvePath jump site kind p) (Resolution.resolvePath jump' site' kind p) := by
  obtain ⟨absolute, scope, ⟨last, written⟩⟩ := p
  unfold Resolution.resolvePath
  refine h.look sites hp fun found known => ?_
  -- Only typedefs and templates lead on, to where they were declared.
  cases found with
  | type t => exact h.pure t
  | meaning name m =>
    cases m with
    | record kind => exact h.pure _
    | enum => exact h.pure _
    | typedef target view =>
      exact h.done (h.ends (h.moved sites view) known) _
    | template kind params view =>
      refine h.bind args fun args => ?_
      cases args with
      | none => exact h.pure _
      | some args => exact h.done (h.instantiate sites known args) _

theorem traversal (h : Walk J jump jump' V A M) : Traversal J jump jump' V A where
  toSites := h.toSites
  pure := h.pure
  bind := h.bind
  path sites kind p hp args := h.resolvePath sites kind p hp args

end Walk

end HeaderDecl.Resolution
