import HeaderDecl.Proofs.MalformedText
import HeaderDecl.Proofs.TokenPlaces
import HeaderDecl.Proofs.TracedExpansion
import HeaderDecl.Proofs.UpheldStates

/-!
Where the tokens of an output stand. Each of them stands at a token of the live text of a file that was
read: itself, or the name that begins the invocation that it comes from. While a file is read, these
places go forward in it.
-/

namespace HeaderDecl

/-! ### Lines of a file -/

/-- The tokens of a line. -/
def Line.tokens : Line → List Token
  | directive hash rest => hash :: rest
  | text tokens => tokens

/-- The lines of a file have its tokens, each of them once and in their order. -/
theorem Line.flatMap_tokens_sublist (ts : List Token) : ((ofTokens ts).flatMap tokens).Sublist ts := by
  have step {p : Token → Bool} {t : Token} {ts : List Token} {lines : List Line}
      (ih : (lines.flatMap tokens).Sublist (ts.dropWhile p)) :
      (t :: ts.takeWhile p ++ lines.flatMap tokens).Sublist (t :: ts) := by
    have whole : t :: ts = t :: ts.takeWhile p ++ ts.dropWhile p := by
      rw [List.cons_append, List.takeWhile_append_dropWhile]
    rw [whole]
    exact (List.Sublist.refl _).append ih
  fun_induction ofTokens ts with
  | case1 => exact .slnil
  | case2 => exact List.nil_sublist _
  | case3 t ts _ _ ih => exact step ih
  | case4 t ts _ _ ih => exact step ih

/-- The tokens of a line stand before those of the lines after it. -/
theorem Line.precede {file source : String} {l : Line} {ls : List Line}
    (part : l :: ls <:+ ofTokens (lex file source)) :
    l.tokens.Pairwise Token.Precedes ∧ ∀ l' ∈ ls, ∀ t ∈ l.tokens, ∀ u ∈ l'.tokens, t.Precedes u := by
  have sorted : ((l :: ls).flatMap tokens).Pairwise Token.Precedes :=
    (precedes_lex file source).sublist
      ((part.sublist.flatMap _).trans (flatMap_tokens_sublist _))
  rw [List.flatMap_cons, List.pairwise_append] at sorted
  exact ⟨sorted.1, fun l' later t mem u mem' => sorted.2.2 t mem u (List.mem_flatMap.mpr ⟨l', later, mem'⟩)⟩

/-- Tokens of two lines stand at different places. -/
theorem Line.loc_ne {file source : String} {l l' : Line} (listed : l ∈ ofTokens (lex file source))
    (listed' : l' ∈ ofTokens (lex file source)) (apart : l ≠ l') :
    ∀ t ∈ l.tokens, ∀ u ∈ l'.tokens, t.loc ≠ u.loc := by
  have sorted := (precedes_lex file source).sublist (flatMap_tokens_sublist _)
  have differ : (ofTokens (lex file source)).Pairwise fun l l' =>
      ∀ t ∈ l.tokens, ∀ u ∈ l'.tokens, t.loc ≠ u.loc := by
    refine (List.pairwise_flatMap.mp sorted).2.imp fun precede t mem u mem' same => ?_
    have position := (precede t mem u mem').position
    rw [same] at position
    omega
  have : Std.Symm fun l l' : Line => ∀ t ∈ l.tokens, ∀ u ∈ l'.tokens, t.loc ≠ u.loc :=
    ⟨fun _ _ h t mem u mem' => (h u mem' t mem).symm⟩
  exact differ.forall listed listed' apart

theorem Line.mem_lex {file source : String} {l : Line} (listed : l ∈ ofTokens (lex file source))
    {t : Token} (mem : t ∈ l.tokens) : t ∈ lex file source :=
  (flatMap_tokens_sublist _).subset (List.mem_flatMap.mpr ⟨l, listed, mem⟩)

/-- The place of a token is not after that of another one. -/
structure Token.NotAfter (t u : Token) : Prop where
  byte : t.span.lo ≤ u.span.lo
  position : t.loc.line < u.loc.line ∨ t.loc.line = u.loc.line ∧ t.loc.column ≤ u.loc.column

namespace Token

theorem NotAfter.refl (t : Token) : t.NotAfter t := ⟨Nat.le_refl _, .inr ⟨rfl, Nat.le_refl _⟩⟩

theorem Precedes.notAfter {t u : Token} (h : t.Precedes u) : t.NotAfter u :=
  ⟨Nat.le_of_lt h.byte, h.position.imp_right fun ⟨same, lt⟩ => ⟨same, Nat.le_of_lt lt⟩⟩

theorem NotAfter.of_standsAt {t u t' u' : Token} (left : t'.StandsAt t) (right : u'.StandsAt u)
    (h : t.NotAfter u) : t'.NotAfter u' := by
  obtain ⟨byte, position⟩ := h
  rw [← left.span, ← right.span] at byte
  rw [← left.loc, ← right.loc] at position
  exact ⟨byte, position⟩

end Token

namespace Preprocess

variable {e : Setting} {main : String} {m m' : Moment}

/-! ### Open files while a run goes on -/

/-- Whether some open files may be those of a later moment: all that were opened later and some of the
ones before are closed, or one of these has gone on. -/
inductive Advanced (base : List OpenFile) : List OpenFile → Prop
  | closed {files : List OpenFile} (part : files <:+ base) : Advanced base files
  | gone {files : List OpenFile} (inner : List OpenFile) {around : List OpenFile} {f : OpenFile}
    {ls : List Line}
    (part : f :: around <:+ base) (less : ls <:+ f.rest) (fewer : ls.length < f.rest.length)
    (same : files = inner ++ { f with rest := ls } :: around) : Advanced base files

/-- What a step does to the open files: it closes the innermost one, or takes a line of it and perhaps
opens a file. -/
theorem Moment.next_files (h : m.next e = some m') : m'.files = [] ∨ ∃ f around, m.files = f :: around ∧
    (m'.files = around ∨ ∃ l ls, f.rest = l :: ls ∧
      (m'.files = { f with rest := ls } :: around ∨
        ∃ g, m'.files = g :: { f with rest := ls } :: around)) := by
  have ofOutcome (around : List OpenFile) (o : Except FatalError Unit × State) :
      (ofOutcome around o).files = [] ∨ (Moment.ofOutcome around o).files = around := by
    rcases o with ⟨_ | _, s⟩
    · exact .inl rfl
    · exact .inr rfl
  obtain ⟨f, around, s, rfl, ⟨-, rfl⟩ | ⟨l, ls, rest, ⟨path, text, -, rfl⟩ | ⟨-, rfl⟩⟩⟩ := next_cases h
  · exact (ofOutcome around _).imp_right fun same => ⟨f, around, rfl, .inl same⟩
  · unfold call
    split
    · exact .inr ⟨f, around, rfl, .inr ⟨l, ls, rest, .inl rfl⟩⟩
    · split
      · exact .inl rfl
      · exact .inr ⟨f, around, rfl, .inr ⟨l, ls, rest, .inr ⟨_, rfl⟩⟩⟩
  · exact (ofOutcome _ _).imp_right fun same => ⟨f, around, rfl, .inr ⟨l, ls, rest, .inl same⟩⟩

/-- A file that has gone on to some lines is closed, or goes on. -/
theorem Advanced.read {base files around : List OpenFile} {f : OpenFile} {lines : List Line}
    (part : f :: around <:+ base) (less : lines <:+ f.rest)
    (after : files = around ∨ ∃ l ls, lines = l :: ls ∧
      (files = { f with rest := ls } :: around ∨
        ∃ g, files = g :: { f with rest := ls } :: around)) : Advanced base files := by
  rcases after with same | ⟨l, ls, rfl, after⟩
  · exact .closed (same ▸ (List.suffix_cons f around).trans part)
  have later := (List.suffix_cons l ls).trans less
  have fewer : ls.length < f.rest.length := less.length_le
  rcases after with same | ⟨g, same⟩
  · exact .gone [] part later fewer same
  · exact .gone [g] part later fewer same

theorem Advanced.next {base : List OpenFile} (h : Advanced base m.files) (step : m.next e = some m') :
    Advanced base m'.files := by
  rcases Moment.next_files step with none | ⟨f, around, opened, after⟩
  · rw [none]
    exact .closed List.nil_suffix
  rw [opened] at h
  cases h with
  | closed part => exact .read part (List.suffix_refl _) after
  | @gone inner outer f₀ ls₀ part less fewer split_ =>
    cases inner with
    | nil =>
      obtain ⟨rfl, rfl⟩ := List.cons.inj split_
      exact .read part less after
    | cons h inner =>
      -- What is read was opened later.
      obtain ⟨rfl, rfl⟩ := List.cons.inj split_
      rcases after with same | ⟨l, ls, -, same | ⟨g, same⟩⟩
      · exact .gone inner part less fewer same
      · exact .gone ({ f with rest := ls } :: inner) part less fewer same
      · exact .gone (g :: { f with rest := ls } :: inner) part less fewer same

theorem Advanced.reaches {base : List OpenFile} (h : Advanced base m.files) (run : Reaches e m m') :
    Advanced base m'.files := by
  induction run with
  | refl => exact h
  | tail _ step ih => exact ih.next step

/-- With the same files around it, a file that is read is the same one, gone on. -/
theorem Advanced.same {f g : OpenFile} {around : List OpenFile}
    (h : Advanced (f :: around) (g :: around)) :
    g.path = f.path ∧ g.text = f.text ∧ g.rest <:+ f.rest := by
  cases h with
  | closed part =>
    obtain ⟨rfl, -⟩ := List.cons.inj (part.eq_of_length rfl)
    exact ⟨rfl, rfl, List.suffix_refl _⟩
  | @gone inner outer f₀ ls part less fewer split_ =>
    rcases List.suffix_cons_iff.mp part with same | ⟨more, rfl⟩
    · obtain ⟨rfl, rfl⟩ := List.cons.inj same
      cases inner with
      | nil =>
        obtain ⟨rfl, -⟩ := List.cons.inj split_
        exact ⟨rfl, rfl, less⟩
      | cons h inner =>
        have len := congrArg List.length split_
        simp only [List.length_cons, List.length_append] at len
        omega
    · -- A file around it would have gone on.
      have apart : (g :: more) ++ _ = inner ++ _ := split_
      obtain ⟨-, same⟩ := List.append_inj' apart rfl
      obtain ⟨same, -⟩ := List.cons.inj same
      rw [same] at fewer
      exact absurd fewer (Nat.lt_irrefl _)

/-! ### What a step puts out -/

/-- A step puts out nothing, or what a line of live text comes to. -/
theorem Moment.next_output (h : m.next e = some m') : m'.state.output = m.state.output ∨
    ∃ f around s tokens ls expanded, m = reading (f :: around) s ∧ f.rest = .text tokens :: ls ∧
      s.isSkipping = false ∧ Macro.expand (e.scope s) [] tokens = .ok expanded ∧
      m' = reading ({ f with rest := ls } :: around) { s with output := s.output ++ expanded } := by
  obtain ⟨f, around, s, rfl, ⟨-, rfl⟩ | ⟨l, ls, rest, ⟨path, text, -, rfl⟩ | ⟨-, rfl⟩⟩⟩ := next_cases h
  · rw [state_ofOutcome]
    exact .inl (close_aside f s).2.2
  · rcases state_call e path text ({ f with rest := ls } :: around) s with same | ⟨-, entered⟩
    · exact .inl (congrArg State.output same)
    · exact .inl (by rw [entered]; rfl)
  · have changes := changes_processLine e f.path l s
    rw [state_ofOutcome]
    generalize after : (outcome (processLine e readNothing f.path l) s).2 = t at changes
    cases changes with
    | quiet quiet => exact .inl quiet.output
    | @text tokens expanded live expands =>
      have step := next_of_live_text e around rest live
      rw [expands, h] at step
      exact .inr ⟨f, around, s, tokens, ls, expanded, rfl, rest, live, expands, Option.some.inj step⟩
    | object | function | undefine => exact .inl rfl

/-! ### Emissions -/

/-- A token that is put out while a file is read, with the token of the file's text that it comes from.
The files around the one that is read, and what is left of them, tell one reading of a file from another
one: they stay the same until the file is closed, and then a line of theirs is gone. -/
structure Emission where
  around : List OpenFile
  path : String
  text : String
  site : Token
  token : Token

namespace Emission

/-- A token that is put out when expansion comes to a token of a line of live text, at some moment from
a given one on. The token is the one of the text, or what its replacement comes to. -/
inductive Located (e : Setting) (m : Moment) : Emission → Prop
  | intro {f : OpenFile} {around : List OpenFile} {s : State} {tokens behind own : List Token}
    {ls : List Line} {site token : Token} (reached : Reaches e m (.reading (f :: around) s))
    (line : f.rest = .text tokens :: ls) (live : s.isSkipping = false)
    (outermost : (e.scope s).Outermost [] tokens site behind)
    (yields : (e.scope s).Yields [] site behind own) (mem : token ∈ own) :
    Located e m ⟨around, f.path, f.text, site, token⟩

theorem Located.before {x : Emission} (h : x.Located e m') (step : m.next e = some m') :
    x.Located e m := by
  obtain ⟨reached, line, live, outermost, yields, mem⟩ := h
  exact ⟨.head step reached, line, live, outermost, yields, mem⟩

theorem Located.standsAt {x : Emission} (h : x.Located e m) : x.token.StandsAt x.site := by
  obtain ⟨-, -, -, -, yields, mem⟩ := h
  exact yields.standsAt _ mem

/-- The token that it comes from stands in a line of text of a file of the sources. -/
theorem Located.inText {x : Emission} (before : Reaches e (.start e main) m) (h : x.Located e m) :
    e.sources.stored? x.path = some x.text ∧
      ∃ tokens, .text tokens ∈ Line.ofTokens (lex x.path x.text) ∧ x.site ∈ tokens := by
  obtain ⟨reached, line, -, outermost, -, -⟩ := h
  have now := before.trans reached
  refine ⟨stored_of_reaches now _ List.mem_cons_self, _, ?_, outermost.suffix.mem List.mem_cons_self⟩
  refine (partial_of_reaches now _ List.mem_cons_self).mem ?_
  rw [line]
  exact List.mem_cons_self

/-- With the same files around it, it comes from the lines that are left of the file that is read. -/
theorem Located.ahead {x : Emission} {f : OpenFile} {around : List OpenFile} {s : State}
    (h : x.Located e (.reading (f :: around) s)) (same : x.around = around) :
    x.path = f.path ∧ x.text = f.text ∧ ∃ tokens, .text tokens ∈ f.rest ∧ x.site ∈ tokens := by
  obtain ⟨reached, line, -, outermost, -, -⟩ := h
  dsimp only at same
  subst same
  have advanced : Advanced (f :: _) (_ :: _) := Advanced.reaches (.closed (List.suffix_refl _)) reached
  obtain ⟨path, text, less⟩ := advanced.same
  rw [line] at less
  exact ⟨path, text, _, less.mem List.mem_cons_self, outermost.suffix.mem List.mem_cons_self⟩

/-- In the same reading of a file the later of two tokens does not stand before the other one. -/
def Follows (x y : Emission) : Prop :=
  x.around = y.around → x.path = y.path ∧ x.text = y.text ∧ x.token.NotAfter y.token

/-- What a line of live text puts out, up to the end of the run. -/
theorem exists_of_line {f : OpenFile} (around : List OpenFile) {s : State} {tokens expanded : List Token}
    {ls : List Line} (line : f.rest = .text tokens :: ls) (live : s.isSkipping = false)
    (expands : Macro.expand (e.scope s) [] tokens = .ok expanded) (whole : f.Partial) :
    ∃ own : List Emission, expanded = own.map token ∧
      (∀ x ∈ own, x.Located e (.reading (f :: around) s) ∧
        x.around = around ∧ x.path = f.path ∧ x.text = f.text ∧ x.site ∈ tokens) ∧
      own.Pairwise Follows := by
  obtain ⟨pairs, rfl, traces⟩ := Macro.exists_traces (e.scope s) [] tokens expanded expands
  have part : .text tokens :: ls <:+ Line.ofTokens (lex f.path f.text) := line ▸ whole
  have sorted : tokens.Pairwise Token.Precedes := (Line.precede part).1
  refine ⟨pairs.map fun p => ⟨around, f.path, f.text, p.1, p.2⟩, by simp [Function.comp_def], ?_, ?_⟩
  · intro x there
    obtain ⟨p, mem, rfl⟩ := List.mem_map.mp there
    obtain ⟨behind, own, outermost, yields, mem⟩ := traces.yielded p mem
    exact ⟨⟨.refl, line, live, outermost, yields, mem⟩, rfl, rfl, rfl,
      outermost.suffix.mem List.mem_cons_self⟩
  · rw [List.pairwise_map]
    refine (List.pairwise_map.mp traces.ordered).imp_of_mem fun {p q} mem mem' ordered _ => ?_
    obtain ⟨_, _, -, yields, inside⟩ := traces.yielded p mem
    obtain ⟨_, _, -, yields', inside'⟩ := traces.yielded q mem'
    refine ⟨rfl, rfl, ?_⟩
    refine .of_standsAt (yields.standsAt _ inside) (yields'.standsAt _ inside') ?_
    rcases ordered with same | apart
    · exact same ▸ .refl _
    · exact (List.pairwise_pair.mp (sorted.sublist apart)).notAfter

/-- What is put out from one moment to another one. -/
theorem exists_emissions (before : Reaches e (.start e main) m) (h : Reaches e m m') :
    ∃ emitted : List Emission,
      m'.state.output.toList = m.state.output.toList ++ emitted.map token ∧
      (∀ x ∈ emitted, x.Located e m) ∧ emitted.Pairwise Follows := by
  -- From the end to the beginning: each moment puts its own tokens in front of those put out later.
  induction h using Relation.ReflTransGen.head_induction_on with
  | refl => exact ⟨[], by simp, List.forall_mem_nil _, .nil⟩
  | @head m₁ m₂ step run ih =>
    obtain ⟨emitted, output, located, sorted⟩ := ih (before.tail step)
    rcases Moment.next_output step with same |
      ⟨f, around, s, tokens, ls, expanded, rfl, line, live, expands, rfl⟩
    · exact ⟨emitted, by rw [output, same], fun x mem => (located x mem).before step, sorted⟩
    obtain ⟨own, rfl, facts, ownSorted⟩ :=
      exists_of_line around line live expands (partial_of_reaches before f List.mem_cons_self)
    refine ⟨own ++ emitted, ?_, ?_, ?_⟩
    · rw [output]
      simp [Moment.state]
    · refine List.forall_mem_append.mpr ⟨fun x mem => (facts x mem).1, fun x mem => ?_⟩
      exact (located x mem).before step
    · refine List.pairwise_append.mpr ⟨ownSorted, sorted, fun x mem y mem' same => ?_⟩
      obtain ⟨located', here, path, text, inLine⟩ := facts x mem
      have later := located y mem'
      obtain ⟨path', text', tokens', ahead, inLine'⟩ := later.ahead (same.symm.trans here)
      have part : .text tokens :: ls <:+ Line.ofTokens (lex f.path f.text) :=
        line ▸ partial_of_reaches before f List.mem_cons_self
      have precedes := (Line.precede part).2 _ ahead x.site inLine y.site inLine'
      exact ⟨path.trans path'.symm, text.trans text'.symm,
        .of_standsAt located'.standsAt later.standsAt precedes.notAfter⟩

/-- A token that comes from the live text of a file of the sources. It stands in no directive, and so in no
definition of a macro, and it is not built in. -/
structure FromSource (e : Setting) (main : String) (x : Emission) : Prop where
  located : x.Located e (.start e main)
  standsAt : x.token.StandsAt x.site
  stored : e.sources.stored? x.path = some x.text
  inText : ∃ tokens, .text tokens ∈ Line.ofTokens (lex x.path x.text) ∧ x.site ∈ tokens
  notBuiltIn : x.token.loc ≠ .synthetic
  inNoDirective : ∀ file text, e.sources.stored? file = some text →
    ∀ hash rest, .directive hash rest ∈ Line.ofTokens (lex file text) →
      ∀ t ∈ hash :: rest, x.token.loc ≠ t.loc

theorem Located.fromSource {x : Emission} (h : x.Located e (.start e main)) : x.FromSource e main := by
  obtain ⟨stored, tokens, listed, inLine⟩ := h.inText .refl
  have stands := h.standsAt
  obtain ⟨front, -, ownFile, -, line, -⟩ := exists_front (Line.mem_lex listed inLine)
  refine ⟨h, stands, stored, ⟨tokens, listed, inLine⟩, ?_, ?_⟩
  · rw [stands.loc]
    intro builtIn
    rw [builtIn, Place.line_after, show Place.start.line = 1 from rfl] at line
    have zero : Location.synthetic.line = 0 := rfl
    omega
  · intro file text stored' hash rest listed' t mem same
    rw [stands.loc] at same
    obtain ⟨_, -, otherFile, -⟩ := exists_front (Line.mem_lex listed' mem)
    obtain rfl : x.path = file := by rw [← ownFile, same, otherFile]
    obtain rfl : x.text = text := Option.some.inj (stored.symm.trans stored')
    exact Line.loc_ne listed listed' Line.noConfusion x.site inLine t mem same

end Emission

theorem Moment.output_start (e : Setting) (main : String) : (start e main).state.output.toList = [] := by
  unfold start
  split
  · rcases state_call e _ _ [] (.initial e.config) with same | ⟨-, entered⟩
    · rw [same]
      rfl
    · rw [entered]
      rfl
  · rfl

end Preprocess

open Preprocess

/-- What is put out before the end token comes from live text. Each token stands where a token of the
text of a file does: the same one if it is not replaced, and if it is, the name that begins the outermost
invocation. While a file is read, the places go forward in it. -/
theorem preprocess_located {sources : SourceMap} {path : String} {config : Config} {p : Preprocessed}
    {ds : List Diagnostic} (ran : preprocess sources path config = (.ok p, ds)) :
    ∃ (emitted : List Emission) (last : Token),
      p.tokens = emitted.map Emission.token ++ [last] ∧ last.isEof = true ∧
      (∀ x ∈ emitted, x.FromSource { sources, config } path) ∧
      emitted.Pairwise fun x y => x.around = y.around →
        x.path = y.path ∧ x.text = y.text ∧ x.token.NotAfter y.token := by
  obtain ⟨m, reached, -, result⟩ := reaches_result { sources, config } path
  obtain ⟨emitted, output, located, sorted⟩ := Emission.exists_emissions .refl reached
  rw [Moment.output_start, List.nil_append] at output
  rw [show Preprocess.run { sources, config } path = _ from ran] at result
  unfold Moment.result at result
  split at result
  · -- Without a main file there is the end token alone.
    cases result
    exact ⟨[], _, rfl, rfl, List.forall_mem_nil _, .nil⟩
  · cases result
    exact ⟨emitted, _, congrArg (· ++ _) output, rfl, fun x mem => (located x mem).fromSource, sorted⟩
  · cases result

/-- A header with an invocation whose replacement has a macro and an argument in it. -/
def nestedHeader : SourceMap := .ofList [("a.h", "#define F(x) G x\n#define G g\nF(a) b\n")]

theorem preprocess_located_nested :
    ∃ p ds, preprocess nestedHeader "a.h" {} = (.ok p, ds) ∧
      p.tokens.map (fun t => (t.text, t.loc.line, t.loc.column)) =
        [("g", 3, 1), ("a", 3, 1), ("b", 3, 6), ("", 3, 6)] ∧
      ∃ (emitted : List Emission) (last : Token),
        p.tokens = emitted.map Emission.token ++ [last] ∧ last.isEof = true ∧
        (∀ x ∈ emitted, x.FromSource { sources := nestedHeader, config := {} } "a.h") ∧
        emitted.Pairwise fun x y => x.around = y.around →
          x.path = y.path ∧ x.text = y.text ∧ x.token.NotAfter y.token := by
  have places : (preprocess nestedHeader "a.h" {}).1.toOption.map (fun p =>
      p.tokens.map fun t => (t.text, t.loc.line, t.loc.column)) =
        some [("g", 3, 1), ("a", 3, 1), ("b", 3, 6), ("", 3, 6)] := by
    cbv
  rcases ran : preprocess nestedHeader "a.h" {} with ⟨_ | p, ds⟩
  · rw [ran] at places
    cases places
  · rw [ran] at places
    exact ⟨p, ds, rfl, Option.some.inj places, preprocess_located ran⟩

end HeaderDecl
