/-!
Conditional directives: a stack with one entry for each open conditional, innermost first.
-/

namespace HeaderDecl

inductive BranchState where
  /-- The branch is live. -/
  | active
  /-- The branch is dead, and a later one may be live. -/
  | skipping
  /-- A live branch lies behind. -/
  | done
deriving DecidableEq, Repr

/-- An open conditional, and whether one of its branches has been taken. Within dead text every branch
counts as taken. -/
structure Conditional where
  state : BranchState
  hadTrue : Bool
deriving DecidableEq, Repr

namespace Conditional

/-- Whether text is dead under a stack of conditionals. -/
def isSkipping (stack : List Conditional) : Bool := stack.head?.any (·.state ≠ .active)

/-- Opens a conditional. -/
def opened (stack : List Conditional) (condition : Bool) : List Conditional :=
  let dead := isSkipping stack
  -- In dead text no branch may become live, as if one had been taken already.
  ⟨if !dead && condition then .active else .skipping, dead || condition⟩ :: stack

/-- Whether the condition of a further branch matters. -/
def awaitsCondition (stack : List Conditional) : Bool :=
  stack.head?.any fun c => c.state = .skipping && !c.hadTrue

/-- The conditional in its next branch, which has a condition. -/
def elseIf (c : Conditional) (condition : Bool) : Conditional :=
  match c.state with
  | .active => ⟨.done, true⟩
  | .skipping => if condition then ⟨.active, true⟩ else c
  | .done => c

/-- The conditional in its last branch. -/
def otherwise (c : Conditional) : Conditional :=
  if c.state = .skipping && !c.hadTrue then ⟨.active, true⟩ else ⟨.done, true⟩

end Conditional

end HeaderDecl
