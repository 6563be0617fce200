import Tyr.Planning.ActionExecutor
import Tyr.Formalism.ExpressionEquality
import Tyr.Lib.Categories

/-!
Match trees.

The elements of a match tree are ground actions or ground axioms. Each inner node
asks the state about one precondition, and each leaf generates elements. The tree
is built by a depth-first search with an explicit stack: an entry of the stack is
a node whose children are being explored. The preconditions are asked in the order
of their number of occurrences; the hash map leaves the order of ties open.

* `tryCreateStackEntry` — the next precondition that an element cares about.
* `construct`, `create` — the construction.
* `generate` — the elements of the leaves that a state reaches.
-/

namespace Tyr.Planning

open Tyr.Lib Tyr.Formalism Tyr.Formalism.Planning

/-- The part of the condition that depends on the state. -/
def isDynamicallyApplicable (context : StateContext) (condition : GroundConjunctiveCondition) : Bool :=
  condition.positiveFacts.all (fun fact =>
    context.unpackedState.fluentFacts fact.var == fact.value) &&
  condition.negativeFacts.all (fun fact =>
    context.unpackedState.fluentFacts fact.var != fact.value) &&
  condition.derivedLiterals.all (fun literal =>
    context.unpackedState.derivedAtoms literal.atom == literal.polarity) &&
  condition.numericConstraints.all (BooleanOperator.evaluate context.get)

/-- Assign the values to the keys; none if a key would get two values. -/
def assignAll {κ β : Type} [DecidableEq κ] [DecidableEq β] (assign : κ → Option β)
    (entries : List (κ × β)) : Option (κ → Option β) :=
  entries.foldlM (fun assign entry =>
    match assign entry.1 with
    | some value => if value ≠ entry.2 then none else some assign
    | none => some (Function.update assign entry.1 (some entry.2))) assign

/-- `is_consistent`. -/
def isConsistent (condition : GroundConjunctiveCondition) : Bool :=
  match assignAll (fun _ => none) (condition.positiveFacts.map fun fact => (fact.var, fact.value)) with
  | none => false
  | some fluentAssign =>
      condition.negativeFacts.all (fun fact => fluentAssign fact.var != some fact.value) &&
      (assignAll (fun _ => none)
        (condition.derivedLiterals.map fun literal => (literal.atom, literal.polarity))).isSome

namespace MatchTree

/-! ### Preconditions -/

/-- What a condition asks about. -/
inductive Precondition where
  | derivedAtom (atom : Nat)
  | fdrVariable (var : Nat)
  | negativeFact (fact : FDRFact)
  | constraint (constraint : BooleanOperator GroundFunctionTerm)
deriving DecidableEq

/-- The answer that the condition wants. -/
inductive Detail where
  | unit
  | polarity (value : Bool)
  | value (value : FDRValue)
deriving DecidableEq

/-- The conditions of the elements, and the number of values of each variable. -/
structure Repository where
  condition : Nat → GroundConjunctiveCondition
  domainSize : Nat → Nat
  inDomain : ∀ element, ∀ fact ∈ (condition element).positiveFacts, fact.value < domainSize fact.var

/-- The preconditions in the order in which they are collected. -/
def entries (condition : GroundConjunctiveCondition) : List (Precondition × Detail) :=
  condition.positiveFacts.map (fun fact => (.fdrVariable fact.var, .value fact.value)) ++
  condition.negativeFacts.map (fun fact => (.negativeFact fact, .unit)) ++
  condition.derivedLiterals.map (fun literal =>
    (.derivedAtom literal.atom, .polarity literal.polarity)) ++
  condition.numericConstraints.map (fun constraint => (.constraint constraint, .unit))

namespace Repository

variable (repository : Repository)

/-- `details` of an element: a later entry replaces an earlier one. -/
def details (element : Nat) : Precondition → Option Detail :=
  (entries (repository.condition element)).foldl
    (fun details entry => Function.update details entry.1 (some entry.2)) fun _ => none

/-- `occurences`: the elements of a precondition, once for each entry. -/
def occurrences (elements : List Nat) (key : Precondition) : List Nat :=
  elements.flatMap fun element =>
    ((entries (repository.condition element)).filter (·.1 = key)).map fun _ => element

end Repository

/-- The preconditions that occur, those with more occurrences first. -/
structure SortedPreconditions (repository : Repository) (elements : List Nat) where
  keys : List Precondition
  nodup : keys.Nodup
  mem_iff : ∀ key, key ∈ keys ↔ repository.occurrences elements key ≠ []
  sorted : keys.Pairwise fun first second =>
    (repository.occurrences elements second).length ≤ (repository.occurrences elements first).length

/-! ### Nodes and stack entries -/

inductive Node where
  | atomSelector (atom : Nat) (trueChild falseChild dontcareChild : Option Node)
  | variableSelector (var : Nat) (domainChildren : List (Option Node)) (dontcareChild : Option Node)
  | negativeFactSelector (fact : FDRFact) (trueChild dontcareChild : Option Node)
  | constraintSelector (constraint : BooleanOperator GroundFunctionTerm)
      (trueChild dontcareChild : Option Node)
  | elementGenerator (elements : List Nat)

/-- In each entry, `next` are the preconditions behind the one of the node, which
the children start with. -/
structure AtomStackEntry where
  next : List Precondition
  atom : Nat
  trueElements : List Nat
  falseElements : List Nat
  dontcareElements : List Nat
  trueChild : Option Node := none
  falseChild : Option Node := none
  dontcareChild : Option Node := none

structure VariableStackEntry where
  next : List Precondition
  var : Nat
  domainElements : List (List Nat)
  forward : List Nat
  dontcareElements : List Nat
  forwardPos : Nat := 0
  domainChildren : List (Option Node)
  dontcareChild : Option Node := none

/-- The entry of a negative fact or a numeric constraint. -/
structure TestStackEntry where
  next : List Precondition
  trueElements : List Nat
  dontcareElements : List Nat
  trueChild : Option Node := none
  dontcareChild : Option Node := none

inductive StackEntry where
  | atom (entry : AtomStackEntry)
  | fdrVariable (entry : VariableStackEntry)
  | negativeFact (fact : FDRFact) (entry : TestStackEntry)
  | constraint (constraint : BooleanOperator GroundFunctionTerm) (entry : TestStackEntry)
  | generator (elements : List Nat)

/-! ### Creating entries -/

section

variable (repository : Repository)

/-- The rank of an element in the order of its detail for a derived atom. -/
def atomCategory (atom element : Nat) : Nat :=
  match repository.details element (.derivedAtom atom) with
  | none => 2
  | some detail => if detail = .polarity true then 0 else 1

/-- The value that an element wants, or the number of values. -/
def variableCategory (var element : Nat) : Nat :=
  match repository.details element (.fdrVariable var) with
  | some (.value value) => value
  | _ => repository.domainSize var

def testCategory (key : Precondition) (element : Nat) : Nat :=
  if (repository.details element key).isSome then 0 else 1

/-- `try_create_atom_stack_entry`: the true elements first, then the false ones. The
result begins with the elements as they are sorted in place. -/
def tryCreateAtomStackEntry (atom : Nat) (next : List Precondition) (elements : List Nat) :
    List Nat × Option StackEntry :=
  let category := atomCategory repository atom
  let sorted := sortByCategory category elements
  let (trueElements, others) := cutBelow category 1 sorted
  let (falseElements, dontcareElements) := cutBelow category 2 others
  (sorted, if trueElements = [] ∧ falseElements = [] then none
    else some (.atom { next, atom, trueElements, falseElements, dontcareElements }))

/-- `try_create_variable_stack_entry`: the elements of each value, those that do
not care last. -/
def tryCreateVariableStackEntry (var : Nat) (next : List Precondition) (elements : List Nat) :
    List Nat × Option StackEntry :=
  let domainSize := repository.domainSize var
  let category := variableCategory repository var
  let sorted := sortByCategory category elements
  let (domainElements, dontcareElements) := cutAll category 0 domainSize sorted
  let forward := (List.range domainSize).filter fun i => domainElements.getD i [] ≠ []
  (sorted, if forward = [] then none
    else some (.fdrVariable { next, var, domainElements, forward, dontcareElements,
                              domainChildren := List.replicate domainSize none }))

/-- `try_create_negative_fact_stack_entry` and `try_create_constraint_stack_entry`:
the elements with the precondition first. -/
def tryCreateTestStackEntry (key : Precondition) (entry : TestStackEntry → StackEntry)
    (next : List Precondition) (elements : List Nat) : List Nat × Option StackEntry :=
  let category := testCategory repository key
  let sorted := sortByCategory category elements
  let (trueElements, dontcareElements) := cutBelow category 1 sorted
  (sorted, if trueElements = [] then none
    else some (entry { next, trueElements, dontcareElements }))

def tryCreateSelectorStackEntry (key : Precondition) (next : List Precondition)
    (elements : List Nat) : List Nat × Option StackEntry :=
  match key with
  | .derivedAtom atom => tryCreateAtomStackEntry repository atom next elements
  | .fdrVariable var => tryCreateVariableStackEntry repository var next elements
  | .negativeFact fact => tryCreateTestStackEntry repository key (.negativeFact fact) next elements
  | .constraint constraint =>
      tryCreateTestStackEntry repository key (.constraint constraint) next elements

/-- `try_create_stack_entry`: skip the preconditions that no element cares about. -/
def tryCreateStackEntry : List Precondition → List Nat → Option StackEntry
  | keys, elements =>
      if elements = [] then none
      else
        match keys with
        | [] => some (.generator elements)
        | key :: next =>
            match tryCreateSelectorStackEntry repository key next elements with
            | (_, some entry) => some entry
            | (sorted, none) => tryCreateStackEntry next sorted

end

/-! ### The construction -/

/-- There is nothing to explore, or it was explored. -/
def exploredChild (elements : List Nat) (child : Option Node) : Bool :=
  elements.isEmpty || child.isSome

namespace StackEntry

def explored : StackEntry → Bool
  | atom entry => exploredChild entry.trueElements entry.trueChild &&
      exploredChild entry.falseElements entry.falseChild &&
      exploredChild entry.dontcareElements entry.dontcareChild
  | fdrVariable entry => entry.forwardPos == entry.forward.length &&
      exploredChild entry.dontcareElements entry.dontcareChild
  | negativeFact _ entry | constraint _ entry => exploredChild entry.trueElements entry.trueChild &&
      exploredChild entry.dontcareElements entry.dontcareChild
  | generator _ => true

/-- `next_entry`: the entry of the next child. -/
def nextEntry (repository : Repository) : StackEntry → Option StackEntry
  | atom entry =>
      if !exploredChild entry.trueElements entry.trueChild then
        tryCreateStackEntry repository entry.next entry.trueElements
      else if !exploredChild entry.falseElements entry.falseChild then
        tryCreateStackEntry repository entry.next entry.falseElements
      else if !exploredChild entry.dontcareElements entry.dontcareChild then
        tryCreateStackEntry repository entry.next entry.dontcareElements
      else none
  | fdrVariable entry =>
      if entry.forwardPos ≠ entry.forward.length then
        tryCreateStackEntry repository entry.next
          (entry.domainElements.getD (entry.forward.getD entry.forwardPos 0) [])
      else if !exploredChild entry.dontcareElements entry.dontcareChild then
        tryCreateStackEntry repository entry.next entry.dontcareElements
      else none
  | negativeFact _ entry | constraint _ entry =>
      if !exploredChild entry.trueElements entry.trueChild then
        tryCreateStackEntry repository entry.next entry.trueElements
      else if !exploredChild entry.dontcareElements entry.dontcareChild then
        tryCreateStackEntry repository entry.next entry.dontcareElements
      else none
  | generator _ => none

def getResult : StackEntry → Node
  | atom entry => .atomSelector entry.atom entry.trueChild entry.falseChild entry.dontcareChild
  | fdrVariable entry => .variableSelector entry.var entry.domainChildren entry.dontcareChild
  | negativeFact fact entry => .negativeFactSelector fact entry.trueChild entry.dontcareChild
  | constraint test entry => .constraintSelector test entry.trueChild entry.dontcareChild
  | generator elements => .elementGenerator elements

/-- `push_result` of a negative fact or a constraint. -/
def pushTest (entry : TestStackEntry) (node : Node) : Option TestStackEntry :=
  if !exploredChild entry.trueElements entry.trueChild then
    some { entry with trueChild := some node }
  else if !exploredChild entry.dontcareElements entry.dontcareChild then
    some { entry with dontcareChild := some node }
  else none

/-- `push_result`: the child that was explored. None stands for `Unexpected case.` -/
def pushResult (node : Node) : StackEntry → Option StackEntry
  | atom entry =>
      if !exploredChild entry.trueElements entry.trueChild then
        some (.atom { entry with trueChild := some node })
      else if !exploredChild entry.falseElements entry.falseChild then
        some (.atom { entry with falseChild := some node })
      else if !exploredChild entry.dontcareElements entry.dontcareChild then
        some (.atom { entry with dontcareChild := some node })
      else none
  | fdrVariable entry =>
      if entry.forwardPos ≠ entry.forward.length then
        some (.fdrVariable { entry with
          domainChildren := entry.domainChildren.set (entry.forward.getD entry.forwardPos 0) (some node)
          forwardPos := entry.forwardPos + 1 })
      else if !exploredChild entry.dontcareElements entry.dontcareChild then
        some (.fdrVariable { entry with dontcareChild := some node })
      else none
  | negativeFact fact entry => (pushTest entry node).map (.negativeFact fact)
  | constraint test entry => (pushTest entry node).map (.constraint test)
  | generator _ => none

end StackEntry

/-- The depth-first search: explore the next child of the top entry, or hand its
node to the entry below. None if the fuel does not last or a case is unexpected. -/
def construct (repository : Repository) : Nat → List StackEntry → Option Node
  | 0, _ => none
  | _ + 1, [] => none
  | fuel + 1, frame :: rest =>
      if frame.explored then
        match rest with
        | [] => some frame.getResult
        | parent :: rest => (parent.pushResult frame.getResult).bind fun parent =>
            construct repository fuel (parent :: rest)
      else (frame.nextEntry repository).bind fun next =>
        construct repository fuel (next :: frame :: rest)

/-- The root of the tree; a tree without elements has none. -/
def create (repository : Repository) {elements : List Nat}
    (preconditions : SortedPreconditions repository elements) (fuel : Nat) : Option (Option Node) :=
  match tryCreateStackEntry repository preconditions.keys elements with
  | none => some none
  | some entry => (construct repository fuel [entry]).map some

/-! ### The evaluation -/

/-- The children of a node that a state reaches, in the order in which they are
taken from the stack: the one pushed last comes first. -/
def Node.reached (context : StateContext) : Node → List Node
  | atomSelector atom trueChild falseChild dontcareChild =>
      dontcareChild.toList ++
        if context.unpackedState.derivedAtoms atom then trueChild.toList else falseChild.toList
  | constraintSelector constraint trueChild dontcareChild =>
      dontcareChild.toList ++ if constraint.evaluate context.get then trueChild.toList else []
  | variableSelector var domainChildren dontcareChild =>
      dontcareChild.toList ++
        (domainChildren.getD (context.unpackedState.fluentFacts var) none).toList
  | negativeFactSelector fact trueChild dontcareChild =>
      dontcareChild.toList ++
        if context.unpackedState.fluentFacts fact.var != fact.value then trueChild.toList else []
  | elementGenerator _ => []

/-- The elements that a node generates itself. -/
def Node.elements : Node → List Nat
  | elementGenerator elements => elements
  | _ => []

/-- The loop of `generate`: none if the fuel does not last. -/
def evaluateLoop (context : StateContext) : Nat → List Node → List Nat → Option (List Nat)
  | _, [], out => some out
  | 0, _ :: _, _ => none
  | fuel + 1, node :: stack, out =>
      evaluateLoop context fuel (node.reached context ++ stack) (out ++ node.elements)

def generate (context : StateContext) (root : Option Node) (fuel : Nat) : Option (List Nat) :=
  evaluateLoop context fuel root.toList []

end MatchTree

end Tyr.Planning
