import Tyr.Formalism.Planning.GroundAction
import Tyr.Formalism.Repository
import Tyr.Lib.AssociationList
import Tyr.Lib.Fold

/-!
Finite-domain variables of ground atoms.

An `FDRContext` maps ground fluent atoms to facts. The variables and the atoms are in a
repository; a variable has the value none, and one value for each of its atoms.

* `FDRContext.ofMutexes`, `FDRContext.ofAtoms`, `FDRContext.copy`, `FDRContext.getFact`.
* `FDRContext.Represents` — the invariant: the atom of a fact is the atom mapped to it.
* `FDRContext.getFact_bijective` — facts and atoms correspond, in all reachable contexts
  and in copies of them.
-/

namespace Tyr.Formalism.Planning

open Tyr.Lib AssociationList

/-! ### The repository -/

/-- The symbols of a task that a context uses. -/
inductive PlanningSymbol where
  | groundAtom
  | fdrVariable
deriving DecidableEq

/-- The identifying members: of an atom the row of its predicate, of a variable its atoms. -/
def PlanningSymbol.Members : PlanningSymbol → Type
  | groundAtom => Nat × Nat
  | fdrVariable => List Nat

def PlanningSymbol.equalTo : (t : PlanningSymbol) → t.Members → t.Members → Bool
  | groundAtom => fun (lhs rhs : Nat × Nat) => lhs == rhs
  | fdrVariable => fun (lhs rhs : List Nat) => lhs == rhs

theorem PlanningSymbol.equalTo_partial (t : PlanningSymbol) :
    PartialEquality t.equalTo fun _ => True := by
  cases t with
  | groundAtom => exact PartialEquality.beq (α := Nat × Nat)
  | fdrVariable => exact PartialEquality.beq (α := List Nat)

theorem PlanningSymbol.equalTo_self (t : PlanningSymbol) (members : t.Members) :
    t.equalTo members members = true :=
  (t.equalTo_partial members members).mpr ⟨rfl, trivial⟩

theorem PlanningSymbol.groundAtom_ne_fdrVariable : groundAtom ≠ fdrVariable := by decide

/-- The relations are the fluent predicates. -/
def planningSchema : Schema where
  Symbol := PlanningSymbol
  Relation := Unit
  Members := PlanningSymbol.Members
  Others _ := Unit
  equalTo := PlanningSymbol.equalTo
  Proper _ _ := True
  equalTo_partial := PlanningSymbol.equalTo_partial
  decidableSymbol := inferInstance
  decidableRelation := inferInstance

abbrev PlanningRepository := Formalism.Repository planningSchema

namespace PlanningRepository

/-- The predicate and the row of an atom. -/
def bindingOf (repo : PlanningRepository) (atom : Nat) : Option (Nat × Nat) :=
  (repo.get PlanningSymbol.groundAtom atom).map fun data => data.members

/-- `get_atoms` of a variable. -/
def atomsOf (repo : PlanningRepository) (var : Nat) : Option (List Nat) :=
  (repo.get PlanningSymbol.fdrVariable var).map fun data => data.members

/-- The objects of a row. -/
def objectsOf (repo : PlanningRepository) (binding : Nat × Nat) : Option (List Nat) :=
  repo.getRow () binding.1 binding.2

def variableBuilder (atoms : List Nat) : Builder planningSchema PlanningSymbol.fdrVariable :=
  ⟨atoms, ()⟩

def atomBuilder (binding : Nat × Nat) : Builder planningSchema PlanningSymbol.groundAtom :=
  ⟨binding, ()⟩

/-- `get_or_create` of a variable. -/
def createVariable (repo : PlanningRepository) (atoms : List Nat) : PlanningRepository × Nat :=
  let result := repo.getOrCreate _ (variableBuilder atoms)
  (result.1, result.2.1)

/-- `get_or_create` of an atom. -/
def createAtom (repo : PlanningRepository) (binding : Nat × Nat) : PlanningRepository × Nat :=
  let result := repo.getOrCreate _ (atomBuilder binding)
  (result.1, result.2.1)

/-- `get_or_create` of a binding. -/
def createBinding (repo : PlanningRepository) (predicate : Nat) (objects : List Nat) :
    PlanningRepository × (Nat × Nat) :=
  let result := repo.getOrCreateRow () predicate objects
  (result.1, (predicate, result.2.1))

/-- The indices in the data are those of stored data. -/
structure WellFormed (repo : PlanningRepository) : Prop where
  bindings : ∀ atom binding, repo.bindingOf atom = some binding → (repo.objectsOf binding).isSome
  atoms : ∀ var atoms, repo.atomsOf var = some atoms → ∀ atom ∈ atoms, (repo.bindingOf atom).isSome

/-- Calls on the repository, with indices of stored data. -/
inductive Call (repo : PlanningRepository) : PlanningRepository → Prop where
  | binding (predicate : Nat) (objects : List Nat) :
      Call repo (repo.createBinding predicate objects).1
  | groundAtom (binding : Nat × Nat) : (repo.objectsOf binding).isSome →
      Call repo (repo.createAtom binding).1
  | fdrVariable (atoms : List Nat) : (∀ atom ∈ atoms, (repo.bindingOf atom).isSome) →
      Call repo (repo.createVariable atoms).1

/-! ### Calls on the repository -/

section

variable {repo later lower : PlanningRepository} {binding : Nat × Nat} {atoms objects : List Nat}
  {atom var predicate : Nat}

/-- The chain is valid, and the indices in the data are those of stored data. -/
structure Sound (repo : PlanningRepository) : Prop where
  valid : Formalism.Repository.Valid repo.chain
  wellFormed : repo.WellFormed

theorem bindings_intern (sound : repo.Sound) : LayeredInterning.InternsUniquely
    (Formalism.Repository.symbolOperations (S := planningSchema) PlanningSymbol.groundAtom)
    (planningSchema.equalTo PlanningSymbol.groundAtom) Formalism.Repository.Extends
    Formalism.Repository.Below repo :=
  (Formalism.Repository.symbolOperations_isLayered _).internsUniquely sound.valid

theorem variables_intern (sound : repo.Sound) : LayeredInterning.InternsUniquely
    (Formalism.Repository.symbolOperations (S := planningSchema) PlanningSymbol.fdrVariable)
    (planningSchema.equalTo PlanningSymbol.fdrVariable) Formalism.Repository.Extends
    Formalism.Repository.Below repo :=
  (Formalism.Repository.symbolOperations_isLayered _).internsUniquely sound.valid

theorem rows_intern (sound : repo.Sound) (predicate : Nat) : LayeredInterning.InternsUniquely
    (Formalism.Repository.rowOperations (S := planningSchema) () predicate) (· == ·)
    Formalism.Repository.Extends Formalism.Repository.Below repo :=
  (Formalism.Repository.rowOperations_isLayered () predicate).internsUniquely sound.valid

theorem Call.extends (call : Call repo later) : Formalism.Repository.Extends repo later := by
  cases call with
  | binding predicate objects =>
      exact .single (Formalism.Repository.Step.binding (S := planningSchema) () predicate objects)
  | groundAtom binding _ => exact .single (.symbol _ (atomBuilder binding))
  | fdrVariable atoms _ => exact .single (.symbol _ (variableBuilder atoms))

theorem bindingOf_later (sound : repo.Sound) (run : Formalism.Repository.Extends repo later)
    (found : repo.bindingOf atom = some binding) : later.bindingOf atom = some binding :=
  (bindings_intern sound).get_later run found

theorem atomsOf_later (sound : repo.Sound) (run : Formalism.Repository.Extends repo later)
    (found : repo.atomsOf var = some atoms) : later.atomsOf var = some atoms :=
  (variables_intern sound).get_later run found

theorem objectsOf_later (sound : repo.Sound) (run : Formalism.Repository.Extends repo later)
    (found : repo.objectsOf binding = some objects) : later.objectsOf binding = some objects :=
  (rows_intern sound binding.1).get_later run found

theorem bindingOf_isSome_later (sound : repo.Sound) (run : Formalism.Repository.Extends repo later)
    (found : (repo.bindingOf atom).isSome) : (later.bindingOf atom).isSome := by
  obtain ⟨binding, isBinding⟩ := Option.isSome_iff_exists.mp found
  rw [bindingOf_later sound run isBinding]
  rfl

theorem objectsOf_isSome_later (sound : repo.Sound) (run : Formalism.Repository.Extends repo later)
    (found : (repo.objectsOf binding).isSome) : (later.objectsOf binding).isSome := by
  obtain ⟨objects, isRow⟩ := Option.isSome_iff_exists.mp found
  rw [objectsOf_later sound run isRow]
  rfl

/-- A variable has the atoms that it was created with. -/
theorem atomsOf_createVariable (sound : repo.Sound) (atoms : List Nat) :
    (repo.createVariable atoms).1.atomsOf (repo.createVariable atoms).2 = some atoms :=
  (variables_intern sound).stored (variableBuilder atoms)

/-- Rows and atoms are no variables. -/
theorem atomsOf_createBinding (predicate : Nat) (objects : List Nat) (var : Nat) :
    (repo.createBinding predicate objects).1.atomsOf var = repo.atomsOf var :=
  congrArg (Option.map _)
    ((Formalism.Repository.contents_getOrCreateRow (S := planningSchema) repo () predicate objects).2 var)

theorem atomsOf_createAtom (binding : Nat × Nat) (var : Nat) :
    (repo.createAtom binding).1.atomsOf var = repo.atomsOf var :=
  congrArg (Option.map _)
    ((Formalism.Repository.getOrCreate_other PlanningSymbol.groundAtom_ne_fdrVariable.symm repo
      (atomBuilder binding)).2 var)

/-- The data of a type after a symbol of the type is created. -/
theorem members_getOrCreate {t : PlanningSymbol} {builder : Builder planningSchema t} {index : Nat}
    {members : t.Members}
    (found : ((repo.getOrCreate t builder).1.get t index).map (fun data => data.members) = some members) :
    members = builder.members ∨ (repo.get t index).map (fun data => data.members) = some members := by
  cases known : repo.find t builder.members with
  | some other =>
      rw [Formalism.Repository.getOrCreate_known known] at found
      exact .inr found
  | none =>
      rw [Formalism.Repository.get_getOrCreate_new known] at found
      split at found
      · exact .inl (Option.some.inj found).symm
      · exact .inr found

/-- A call keeps the repository well-formed. -/
theorem Call.sound (call : Call repo later) (sound : repo.Sound) : later.Sound := by
  have run := call.extends
  refine ⟨(run.keeps sound.valid).1, ?_, ?_⟩
  · intro atom binding found
    have bindingLater : (repo.bindingOf atom = some binding ∨ (repo.objectsOf binding).isSome) →
        (later.objectsOf binding).isSome := by
      rintro (old | isRow)
      · exact objectsOf_isSome_later sound run (sound.wellFormed.bindings atom binding old)
      · exact objectsOf_isSome_later sound run isRow
    apply bindingLater
    cases call with
    | binding predicate objects =>
        refine .inl ?_
        rw [← found]
        exact congrArg (Option.map _)
          ((Formalism.Repository.contents_getOrCreateRow (S := planningSchema) repo () predicate
            objects).2 atom).symm
    | groundAtom other isRow =>
        rcases members_getOrCreate found with rfl | old
        · exact .inr isRow
        · exact .inl old
    | fdrVariable atoms _ =>
        refine .inl ?_
        rw [← found]
        exact congrArg (Option.map _)
          ((Formalism.Repository.getOrCreate_other PlanningSymbol.groundAtom_ne_fdrVariable repo
            (variableBuilder atoms)).2 atom).symm
  · intro var atoms found atom mem
    have atomLater : (repo.atomsOf var = some atoms ∨ (repo.bindingOf atom).isSome) →
        (later.bindingOf atom).isSome := by
      rintro (old | isAtom)
      · exact bindingOf_isSome_later sound run (sound.wellFormed.atoms var atoms old atom mem)
      · exact bindingOf_isSome_later sound run isAtom
    apply atomLater
    cases call with
    | binding predicate objects =>
        exact .inl ((atomsOf_createBinding predicate objects var).symm.trans found)
    | groundAtom other isRow => exact .inl ((atomsOf_createAtom other var).symm.trans found)
    | fdrVariable others areAtoms =>
        rcases members_getOrCreate found with rfl | old
        · exact .inr (areAtoms atom mem)
        · exact .inl old

end

end PlanningRepository

/-! ### Repositories of a task -/

namespace PlanningRepository

/-- Calls with indices of stored data, and children. -/
inductive Reachable : PlanningRepository → Prop where
  | root : Reachable (Formalism.Repository.root planningSchema)
  | call {repo later : PlanningRepository} : Reachable repo → Call repo later → Reachable later
  | branch {repo : PlanningRepository} : Reachable repo → Reachable repo.branch

variable {repo : PlanningRepository}

theorem Sound.branch (sound : repo.Sound) : PlanningRepository.Sound repo.branch := by
  have run : Formalism.Repository.Extends repo repo.branch := .single .branch
  refine ⟨(run.keeps sound.valid).1, ?_, ?_⟩
  · intro atom binding found
    obtain ⟨data, stored, rfl⟩ := Option.map_eq_some_iff.mp found
    apply objectsOf_isSome_later sound run
    apply sound.wellFormed.bindings atom
    rw [bindingOf, Formalism.Repository.get_of_branch stored]
    rfl
  · intro var atoms found atom mem
    obtain ⟨data, stored, rfl⟩ := Option.map_eq_some_iff.mp found
    apply bindingOf_isSome_later sound run
    apply sound.wellFormed.atoms var data.members _ atom mem
    rw [atomsOf, Formalism.Repository.get_of_branch stored]
    rfl

theorem sound_root : PlanningRepository.Sound (Formalism.Repository.root planningSchema) := by
  refine ⟨Formalism.Repository.valid_nil.child, ?_, ?_⟩
  · intro atom binding found
    obtain ⟨data, stored, _⟩ := Option.map_eq_some_iff.mp found
    cases (Formalism.Repository.get_root atom).symm.trans stored
  · intro var atoms found
    obtain ⟨data, stored, _⟩ := Option.map_eq_some_iff.mp found
    cases (Formalism.Repository.get_root var).symm.trans stored

theorem Reachable.sound (reachable : Reachable repo) : repo.Sound := by
  induction reachable with
  | root => exact sound_root
  | call _ call ih => exact call.sound ih
  | branch _ ih => exact ih.branch

end PlanningRepository

/-! ### Contexts -/

/-- `m_mapping` lists each atom with its fact, in any order. -/
structure FDRContext where
  repo : PlanningRepository
  vars : List Nat
  mapping : List (Nat × FDRFact)

namespace FDRContext

/-- The context without mutexes. -/
def empty (repo : PlanningRepository) : FDRContext := ⟨repo, [], []⟩

/-- The loop body of the constructor from mutexes. -/
def addGroup (ctx : FDRContext) (group : List Nat) : FDRContext :=
  let (repo, var) := ctx.repo.createVariable group
  { repo := repo
    vars := ctx.vars ++ [var]
    mapping := group.zipIdx.foldl
      (fun mapping entry => AssociationList.emplace mapping entry.1 ⟨var, entry.2 + 1⟩) ctx.mapping }

/-- The context of ground mutexes. -/
def ofMutexes (mutexes : List (List Nat)) (repo : PlanningRepository) : FDRContext :=
  mutexes.foldl addGroup (empty repo)

/-- The loop body of the constructor from atoms. -/
def addAtom (ctx : FDRContext) (atom : Nat) : FDRContext :=
  let (repo, var) := ctx.repo.createVariable [atom]
  { repo := repo
    vars := ctx.vars ++ [var]
    mapping := AssociationList.emplace ctx.mapping atom ⟨var, 1⟩ }

/-- The context of binary mutexes. -/
def ofAtoms (atoms : List Nat) (repo : PlanningRepository) : FDRContext :=
  atoms.foldl addAtom (empty repo)

/-- `get_fact`: an atom without a fact gets a binary variable. -/
def getFact (ctx : FDRContext) (atom : Nat) : FDRContext × FDRFact :=
  match ctx.mapping.lookup atom with
  | some fact => (ctx, fact)
  | none =>
      let (repo, var) := ctx.repo.createVariable [atom]
      ({ repo := repo
         vars := ctx.vars ++ [var]
         mapping := AssociationList.emplace ctx.mapping atom ⟨var, 1⟩ }, ⟨var, 1⟩)

/-! #### Copies -/

/-- `merge_p2p` of a binding. There is no result for an index of nothing. -/
def mergeBinding (source dest : PlanningRepository) (binding : Nat × Nat) :
    Option (PlanningRepository × (Nat × Nat)) := do
  let objects ← source.objectsOf binding
  return dest.createBinding binding.1 objects

/-- `merge_p2p` of an atom. -/
def mergeAtom (source dest : PlanningRepository) (atom : Nat) : Option (PlanningRepository × Nat) := do
  let binding ← source.bindingOf atom
  let (dest, binding) ← mergeBinding source dest binding
  return dest.createAtom binding

def mergeAtoms (source : PlanningRepository) :
    PlanningRepository → List Nat → Option (PlanningRepository × List Nat)
  | dest, [] => some (dest, [])
  | dest, atom :: atoms => do
      let (dest, atom) ← mergeAtom source dest atom
      let (dest, atoms) ← mergeAtoms source dest atoms
      return (dest, atom :: atoms)

/-- `merge_p2p` of a variable. -/
def mergeVariable (source dest : PlanningRepository) (var : Nat) :
    Option (PlanningRepository × Nat) := do
  let atoms ← source.atomsOf var
  let (dest, atoms) ← mergeAtoms source dest atoms
  return dest.createVariable atoms

def mergeVariables (source : PlanningRepository) :
    PlanningRepository → List Nat → Option (PlanningRepository × List Nat)
  | dest, [] => some (dest, [])
  | dest, var :: vars => do
      let (dest, var) ← mergeVariable source dest var
      let (dest, vars) ← mergeVariables source dest vars
      return (dest, var :: vars)

/-- `merge_p2p` of an atom and of its fact. -/
def mergeEntry (source : PlanningRepository) (ctx : FDRContext) (entry : Nat × FDRFact) :
    Option FDRContext := do
  let (dest, atom) ← mergeAtom source ctx.repo entry.1
  let (dest, var) ← mergeVariable source dest entry.2.var
  return { ctx with repo := dest, mapping := AssociationList.emplace ctx.mapping atom ⟨var, entry.2.value⟩ }

/-- The copy of a context, with the entries of the mapping in the order of the iteration. -/
def copy (other : FDRContext) (entries : List (Nat × FDRFact)) (dest : PlanningRepository) :
    Option FDRContext := do
  let (dest, vars) ← mergeVariables other.repo dest other.vars
  entries.foldlM (mergeEntry other.repo) ⟨dest, vars, []⟩

/-! ### The invariant -/

/-- The atom that the variable has at the value; the value is in its domain. -/
def Stores (repo : PlanningRepository) (fact : FDRFact) (atom : Nat) : Prop :=
  fact.value ≠ FDRValue.none ∧ ∃ atoms, repo.atomsOf fact.var = some atoms ∧
    fact.value < atoms.length + 1 ∧ atoms[fact.value - 1]? = some atom

/-- The atom of a fact is the atom mapped to it, and its variable is listed. -/
structure Represents (ctx : FDRContext) : Prop where
  sound : ctx.repo.Sound
  keys : (ctx.mapping.map Prod.fst).Nodup
  stores : ∀ atom fact, ctx.mapping.lookup atom = some fact → Stores ctx.repo fact atom
  listed : ∀ atom fact, ctx.mapping.lookup atom = some fact → fact.var ∈ ctx.vars
  vars : ∀ var ∈ ctx.vars, (ctx.repo.atomsOf var).isSome

section

variable {ctx : FDRContext} {repo later : PlanningRepository} {fact : FDRFact} {atom other var : Nat}
  {atoms group : List Nat}

theorem Stores.unique (stores : Stores repo fact atom) (storesOther : Stores repo fact other) :
    atom = other := by
  obtain ⟨_, atoms, found, _, here⟩ := stores
  obtain ⟨_, atoms', found', _, here'⟩ := storesOther
  obtain rfl := Option.some.inj (found.symm.trans found')
  exact Option.some.inj (here.symm.trans here')

theorem Stores.extend (stores : Stores repo fact atom) (sound : repo.Sound)
    (run : Formalism.Repository.Extends repo later) : Stores later fact atom := by
  obtain ⟨hasValue, atoms, found, inDomain, here⟩ := stores
  exact ⟨hasValue, atoms, PlanningRepository.atomsOf_later sound run found, inDomain, here⟩

theorem Stores.isSome (stores : Stores repo fact atom) (sound : repo.Sound) :
    (repo.bindingOf atom).isSome := by
  obtain ⟨_, atoms, found, _, here⟩ := stores
  exact sound.wellFormed.atoms fact.var atoms found atom (List.mem_of_getElem? here)

theorem represents_empty (sound : repo.Sound) : (empty repo).Represents where
  sound := sound
  keys := List.nodup_nil
  stores _ _ found := by cases found
  listed _ _ found := by cases found
  vars _ mem := by cases mem

/-- Calls on the repository. -/
theorem Represents.call (represents : ctx.Represents) (call : PlanningRepository.Call ctx.repo later) :
    Represents { ctx with repo := later } where
  sound := call.sound represents.sound
  keys := represents.keys
  stores atom fact found := (represents.stores atom fact found).extend represents.sound call.extends
  listed := represents.listed
  vars var mem := by
    obtain ⟨atoms, found⟩ := Option.isSome_iff_exists.mp (represents.vars var mem)
    rw [PlanningRepository.atomsOf_later represents.sound call.extends found]
    rfl

/-- A further variable. -/
theorem Represents.addVariable (represents : ctx.Represents)
    (areAtoms : ∀ atom ∈ group, (ctx.repo.bindingOf atom).isSome) :
    Represents ⟨(ctx.repo.createVariable group).1, ctx.vars ++ [(ctx.repo.createVariable group).2],
      ctx.mapping⟩ := by
  have after := represents.call (.fdrVariable group areAtoms)
  refine ⟨after.sound, after.keys, after.stores, ?_, ?_⟩
  · intro atom fact found
    exact List.mem_append_left _ (after.listed atom fact found)
  · intro var mem
    rcases List.mem_append.mp mem with old | isNew
    · exact after.vars var old
    · obtain rfl := List.mem_singleton.mp isNew
      rw [PlanningRepository.atomsOf_createVariable represents.sound]
      rfl

/-- A further entry. -/
theorem Represents.emplace (represents : ctx.Represents) (stores : Stores ctx.repo fact atom)
    (listed : fact.var ∈ ctx.vars) :
    Represents { ctx with mapping := AssociationList.emplace ctx.mapping atom fact } := by
  have origin : ∀ other stored,
      (AssociationList.emplace ctx.mapping atom fact).lookup other = some stored →
        ctx.mapping.lookup other = some stored ∨ (other = atom ∧ stored = fact) := by
    intro other stored found
    rw [lookup_emplace] at found
    split at found
    · next same =>
        subst same
        cases known : ctx.mapping.lookup other with
        | some old =>
            rw [known] at found
            exact .inl found
        | none =>
            rw [known] at found
            exact .inr ⟨rfl, (Option.some.inj found).symm⟩
    · exact .inl found
  refine ⟨represents.sound, nodup_emplace represents.keys, ?_, ?_, represents.vars⟩
  · intro other stored found
    rcases origin other stored found with old | ⟨rfl, rfl⟩
    · exact represents.stores other stored old
    · exact stores
  · intro other stored found
    rcases origin other stored found with old | ⟨rfl, rfl⟩
    · exact represents.listed other stored old
    · exact listed

theorem Represents.addGroup (represents : ctx.Represents)
    (areAtoms : ∀ atom ∈ group, (ctx.repo.bindingOf atom).isSome) : (ctx.addGroup group).Represents := by
  have withVariable := represents.addVariable areAtoms
  have atomsOf := PlanningRepository.atomsOf_createVariable represents.sound group
  unfold FDRContext.addGroup
  generalize ctx.repo.createVariable group = created at withVariable atomsOf ⊢
  obtain ⟨repo, var⟩ := created
  dsimp only at withVariable atomsOf ⊢
  apply foldl_invariant (P := fun mapping => Represents ⟨repo, ctx.vars ++ [var], mapping⟩)
  · intro mapping represents entry mem
    have here := List.mem_zipIdx' mem
    refine represents.emplace ⟨Nat.succ_ne_zero _, group, atomsOf, ?_, ?_⟩
      (List.mem_append_right _ (List.mem_singleton_self _))
    · exact Nat.succ_lt_succ here.1
    · rw [here.2]
      exact List.getElem?_eq_getElem here.1
  · exact withVariable

theorem Represents.addAtom (represents : ctx.Represents) (isAtom : (ctx.repo.bindingOf atom).isSome) :
    Represents ⟨(ctx.repo.createVariable [atom]).1,
      ctx.vars ++ [(ctx.repo.createVariable [atom]).2],
      AssociationList.emplace ctx.mapping atom ⟨(ctx.repo.createVariable [atom]).2, 1⟩⟩ := by
  have areAtoms : ∀ other ∈ [atom], (ctx.repo.bindingOf other).isSome := by
    intro other mem
    rw [List.mem_singleton.mp mem]
    exact isAtom
  have withVariable := represents.addVariable areAtoms
  refine withVariable.emplace ⟨Nat.succ_ne_zero _, [atom], ?_, Nat.lt_succ_self 1, rfl⟩
    (List.mem_append_right _ (List.mem_singleton_self _))
  exact PlanningRepository.atomsOf_createVariable represents.sound [atom]

/-- A lookup of a fact keeps the invariant. -/
theorem Represents.getFact (represents : ctx.Represents) (isAtom : (ctx.repo.bindingOf atom).isSome) :
    (ctx.getFact atom).1.Represents ∧
      (ctx.getFact atom).1.mapping.lookup atom = some (ctx.getFact atom).2 := by
  unfold FDRContext.getFact
  cases known : ctx.mapping.lookup atom with
  | some fact => exact ⟨represents, known⟩
  | none =>
      refine ⟨represents.addAtom isAtom, ?_⟩
      dsimp only
      rw [lookup_emplace, if_pos rfl, known]
      rfl

end

/-! ### Copies into a child -/

section

variable {source dest : PlanningRepository} {atom var : Nat} {atoms vars : List Nat}
  {binding : Nat × Nat} (sourceSound : source.Sound) (destSound : dest.Sound)
  (isBelow : Formalism.Repository.Below source dest)

include sourceSound destSound isBelow

theorem mergeBinding_known (isRow : (source.objectsOf binding).isSome) :
    mergeBinding source dest binding = some (dest, binding) := by
  obtain ⟨objects, found⟩ := Option.isSome_iff_exists.mp isRow
  have known : dest.getOrCreateRow () binding.1 objects = (dest, binding.2, false) :=
    (PlanningRepository.rows_intern destSound binding.1).known_of_below
      (PlanningRepository.rows_intern sourceSound binding.1) isBelow found (beq_self_eq_true _)
  simp [mergeBinding, found, PlanningRepository.createBinding, known]

theorem mergeAtom_known (isAtom : (source.bindingOf atom).isSome) :
    mergeAtom source dest atom = some (dest, atom) := by
  obtain ⟨binding, found⟩ := Option.isSome_iff_exists.mp isAtom
  have isRow := sourceSound.wellFormed.bindings atom binding found
  have known : dest.getOrCreate PlanningSymbol.groundAtom (PlanningRepository.atomBuilder binding) =
      (dest, atom, false) :=
    (PlanningRepository.bindings_intern destSound).known_of_below
      (PlanningRepository.bindings_intern sourceSound) isBelow found
      (PlanningSymbol.equalTo_self .groundAtom binding)
  simp [mergeAtom, found, mergeBinding_known sourceSound destSound isBelow isRow,
    PlanningRepository.createAtom, known]

theorem mergeAtoms_known (areAtoms : ∀ atom ∈ atoms, (source.bindingOf atom).isSome) :
    mergeAtoms source dest atoms = some (dest, atoms) := by
  induction atoms with
  | nil => rfl
  | cons atom atoms ih =>
      have first := mergeAtom_known sourceSound destSound isBelow (areAtoms atom List.mem_cons_self)
      have rest := ih fun other mem => areAtoms other (List.mem_cons_of_mem _ mem)
      simp [mergeAtoms, first, rest]

theorem mergeVariable_known (isVariable : (source.atomsOf var).isSome) :
    mergeVariable source dest var = some (dest, var) := by
  obtain ⟨atoms, found⟩ := Option.isSome_iff_exists.mp isVariable
  have areAtoms := sourceSound.wellFormed.atoms var atoms found
  have known : dest.getOrCreate PlanningSymbol.fdrVariable
      (PlanningRepository.variableBuilder atoms) = (dest, var, false) :=
    (PlanningRepository.variables_intern destSound).known_of_below
      (PlanningRepository.variables_intern sourceSound) isBelow found
      (PlanningSymbol.equalTo_self .fdrVariable atoms)
  simp [mergeVariable, found, mergeAtoms_known sourceSound destSound isBelow areAtoms,
    PlanningRepository.createVariable, known]

theorem mergeVariables_known (areVariables : ∀ var ∈ vars, (source.atomsOf var).isSome) :
    mergeVariables source dest vars = some (dest, vars) := by
  induction vars with
  | nil => rfl
  | cons var vars ih =>
      have first := mergeVariable_known sourceSound destSound isBelow
        (areVariables var List.mem_cons_self)
      have rest := ih fun other mem => areVariables other (List.mem_cons_of_mem _ mem)
      simp [mergeVariables, first, rest]

theorem mergeEntries_known {entries mapping : List (Nat × FDRFact)}
    (stored : ∀ entry ∈ entries, Stores source entry.2 entry.1) :
    entries.foldlM (mergeEntry source) ⟨dest, vars, mapping⟩ =
      some ⟨dest, vars, entries.foldl
        (fun list entry => AssociationList.emplace list entry.1 entry.2) mapping⟩ := by
  induction entries generalizing mapping with
  | nil => rfl
  | cons entry entries ih =>
      have stores := stored entry List.mem_cons_self
      have isVariable : (source.atomsOf entry.2.var).isSome := by
        obtain ⟨_, atoms, found, _⟩ := stores
        rw [found]
        rfl
      have merged : mergeEntry source ⟨dest, vars, mapping⟩ entry =
          some ⟨dest, vars, AssociationList.emplace mapping entry.1 entry.2⟩ := by
        simp [mergeEntry, mergeAtom_known sourceSound destSound isBelow (stores.isSome sourceSound),
          mergeVariable_known sourceSound destSound isBelow isVariable]
      rw [List.foldlM_cons, merged]
      exact ih fun other mem => stored other (List.mem_cons_of_mem _ mem)

end

section

variable {other : FDRContext} {entries : List (Nat × FDRFact)} {dest : PlanningRepository}

/-- A copy into a child has the variables and the facts of the context. -/
theorem Represents.copy (represents : other.Represents) (perm : entries.Perm other.mapping)
    (destSound : dest.Sound) (isBelow : Formalism.Repository.Below other.repo dest) :
    copy other entries dest = some ⟨dest, other.vars, entries⟩ ∧
      Represents ⟨dest, other.vars, entries⟩ ∧
      ∀ atom, entries.lookup atom = other.mapping.lookup atom := by
  have keys : (entries.map Prod.fst).Nodup := (perm.map Prod.fst).nodup_iff.mpr represents.keys
  have sameLookup := lookup_perm perm keys
  have stored : ∀ entry ∈ entries, Stores other.repo entry.2 entry.1 := by
    intro entry mem
    exact represents.stores _ _ ((mem_iff_lookup represents.keys).mp (perm.mem_iff.mp mem))
  have variablesBelow := ((PlanningRepository.variables_intern destSound).below other.repo isBelow).1
  have sameAtoms : ∀ var atoms, other.repo.atomsOf var = some atoms → dest.atomsOf var = some atoms := by
    intro var atoms found
    have inRange :=
      ((PlanningRepository.variables_intern represents.sound).interned.dense var).mp ⟨atoms, found⟩
    exact (variablesBelow var inRange).trans found
  refine ⟨?_, ⟨destSound, keys, ?_, ?_, ?_⟩, sameLookup⟩
  · have appended : entries.foldl
        (fun list entry => AssociationList.emplace list entry.1 entry.2) [] = [] ++ entries :=
      foldl_emplace keys
    simp only [FDRContext.copy, mergeVariables_known represents.sound destSound isBelow represents.vars,
      mergeEntries_known represents.sound destSound isBelow stored, Option.bind_eq_bind, Option.bind_some,
      appended, List.nil_append]
  · intro atom fact found
    obtain ⟨hasValue, atoms, isVariable, inDomain, here⟩ :=
      represents.stores atom fact ((sameLookup atom).symm.trans found)
    exact ⟨hasValue, atoms, sameAtoms fact.var atoms isVariable, inDomain, here⟩
  · intro atom fact found
    exact represents.listed atom fact ((sameLookup atom).symm.trans found)
  · intro var mem
    obtain ⟨atoms, found⟩ := Option.isSome_iff_exists.mp (represents.vars var mem)
    rw [sameAtoms var atoms found]
    rfl

end

/-! ### Runs -/

/-- A lookup of a fact, or another call on the repository. -/
inductive Step (ctx : FDRContext) : FDRContext → Prop where
  | getFact (atom : Nat) : (ctx.repo.bindingOf atom).isSome → Step ctx (ctx.getFact atom).1
  | call {later : PlanningRepository} : PlanningRepository.Call ctx.repo later →
      Step ctx { ctx with repo := later }

/-- The contexts that the constructors and the calls lead to. -/
inductive Reachable : FDRContext → Prop where
  | empty {repo : PlanningRepository} : repo.Reachable → Reachable (empty repo)
  | ofMutexes {repo : PlanningRepository} (mutexes : List (List Nat)) : repo.Reachable →
      (∀ group ∈ mutexes, ∀ atom ∈ group, (repo.bindingOf atom).isSome) →
      Reachable (ofMutexes mutexes repo)
  | ofAtoms {repo : PlanningRepository} (atoms : List Nat) : repo.Reachable →
      (∀ atom ∈ atoms, (repo.bindingOf atom).isSome) → Reachable (ofAtoms atoms repo)
  | copy {other ctx : FDRContext} {entries : List (Nat × FDRFact)} {dest : PlanningRepository} :
      Reachable other → entries.Perm other.mapping → dest.Reachable →
      Formalism.Repository.Below other.repo dest → copy other entries dest = some ctx → Reachable ctx
  | step {ctx next : FDRContext} : Reachable ctx → Step ctx next → Reachable next

section

variable {ctx next : FDRContext} {atom : Nat} {fact : FDRFact}

theorem Step.represents (step : Step ctx next) (represents : ctx.Represents) : next.Represents := by
  cases step with
  | getFact atom isAtom => exact (represents.getFact isAtom).1
  | call call => exact represents.call call

theorem Step.extends (step : Step ctx next) : Formalism.Repository.Extends ctx.repo next.repo := by
  cases step with
  | call call => exact call.extends
  | getFact atom isAtom =>
      unfold FDRContext.getFact
      cases ctx.mapping.lookup atom with
      | some fact => exact .refl
      | none =>
          refine (PlanningRepository.Call.fdrVariable [atom] fun other mem => ?_).extends
          rw [List.mem_singleton.mp mem]
          exact isAtom

/-- Atoms keep their facts. -/
theorem Step.lookup (step : Step ctx next) (found : ctx.mapping.lookup atom = some fact) :
    next.mapping.lookup atom = some fact := by
  cases step with
  | call call => exact found
  | getFact other isAtom =>
      unfold FDRContext.getFact
      cases known : ctx.mapping.lookup other with
      | some stored => exact found
      | none =>
          have different : atom ≠ other := by
            rintro rfl
            rw [known] at found
            cases found
          dsimp only
          rw [lookup_emplace, if_neg different, found]

end

section

variable {ctx : FDRContext} {repo : PlanningRepository}

/-- A further variable gets at most one further index. -/
theorem size_createVariable (sound : repo.Sound) (atoms : List Nat) :
    (repo.createVariable atoms).1.size PlanningSymbol.fdrVariable ≤
      repo.size PlanningSymbol.fdrVariable + 1 := by
  have intern := PlanningRepository.variables_intern sound
  cases known : repo.find PlanningSymbol.fdrVariable
      (PlanningRepository.variableBuilder atoms).members with
  | some index =>
      have same := intern.known (PlanningRepository.variableBuilder atoms) index known
      exact (congrArg (fun result => result.1.size PlanningSymbol.fdrVariable) same).le.trans
        (Nat.le_succ _)
  | none => exact (intern.created (PlanningRepository.variableBuilder atoms) known).2.le

/-- Each listed variable is one of a group, there are no other new ones, and all atoms
stay. -/
theorem ofMutexes_spec {mutexes : List (List Nat)} (sound : repo.Sound)
    (areAtoms : ∀ group ∈ mutexes, ∀ atom ∈ group, (repo.bindingOf atom).isSome) :
    (ofMutexes mutexes repo).Represents ∧
    Formalism.Repository.Extends repo (ofMutexes mutexes repo).repo ∧
    (∀ var ∈ (ofMutexes mutexes repo).vars, ∃ group ∈ mutexes,
      (ofMutexes mutexes repo).repo.atomsOf var = some group) ∧
    (ofMutexes mutexes repo).repo.size PlanningSymbol.fdrVariable ≤
      repo.size PlanningSymbol.fdrVariable + (ofMutexes mutexes repo).vars.length := by
  unfold ofMutexes
  apply foldl_invariant (P := fun ctx : FDRContext => ctx.Represents ∧
    Formalism.Repository.Extends repo ctx.repo ∧
    (∀ var ∈ ctx.vars, ∃ group ∈ mutexes, ctx.repo.atomsOf var = some group) ∧
    ctx.repo.size PlanningSymbol.fdrVariable ≤
      repo.size PlanningSymbol.fdrVariable + ctx.vars.length)
  · rintro ctx ⟨represents, run, groups, size⟩ group mem
    have groupAtoms : ∀ atom ∈ group, (ctx.repo.bindingOf atom).isSome := fun atom inGroup =>
      PlanningRepository.bindingOf_isSome_later sound run (areAtoms group mem atom inGroup)
    have step := (PlanningRepository.Call.fdrVariable group groupAtoms).extends
    refine ⟨represents.addGroup groupAtoms, run.trans step, fun var listed => ?_, ?_⟩
    · rcases List.mem_append.mp listed with old | isNew
      · obtain ⟨other, known, found⟩ := groups var old
        exact ⟨other, known, PlanningRepository.atomsOf_later represents.sound step found⟩
      · rw [List.mem_singleton.mp isNew]
        exact ⟨group, mem, PlanningRepository.atomsOf_createVariable represents.sound group⟩
    · have sizeStep := size_createVariable represents.sound group
      have length : (ctx.addGroup group).vars.length = ctx.vars.length + 1 := List.length_append
      rw [length]
      exact sizeStep.trans (Nat.succ_le_succ size)
  · exact ⟨represents_empty sound, .refl, fun var listed => (by cases listed), le_rfl⟩

theorem represents_ofMutexes {mutexes : List (List Nat)} (sound : repo.Sound)
    (areAtoms : ∀ group ∈ mutexes, ∀ atom ∈ group, (repo.bindingOf atom).isSome) :
    (ofMutexes mutexes repo).Represents :=
  (ofMutexes_spec sound areAtoms).1

/-- A binary mutex is a group of one atom. -/
theorem ofAtoms_eq_ofMutexes (atoms : List Nat) (repo : PlanningRepository) :
    ofAtoms atoms repo = ofMutexes (atoms.map fun atom => [atom]) repo := by
  rw [ofAtoms, ofMutexes, List.foldl_map]
  rfl

theorem represents_ofAtoms {atoms : List Nat} (sound : repo.Sound)
    (areAtoms : ∀ atom ∈ atoms, (repo.bindingOf atom).isSome) :
    (ofAtoms atoms repo).Represents := by
  rw [ofAtoms_eq_ofMutexes]
  apply represents_ofMutexes sound
  intro group mem atom inGroup
  obtain ⟨other, known, rfl⟩ := List.mem_map.mp mem
  rw [List.mem_singleton.mp inGroup]
  exact areAtoms other known

theorem isSome_lookup_emplace {entries : List (Nat × FDRFact)} {atom other : Nat} {fact : FDRFact} :
    ((AssociationList.emplace entries atom fact).lookup other).isSome ↔
      (entries.lookup other).isSome ∨ atom = other := by
  rw [lookup_emplace]
  by_cases same : other = atom
  · simp [same]
  · simp [same, Ne.symm same]

/-- The atoms of the groups have facts. -/
theorem isSome_lookup_ofMutexes {mutexes : List (List Nat)} {atom : Nat} :
    ((ofMutexes mutexes repo).mapping.lookup atom).isSome ↔ ∃ group ∈ mutexes, atom ∈ group := by
  have addGroup : ∀ (ctx : FDRContext) (group : List Nat),
      ((ctx.addGroup group).mapping.lookup atom).isSome ↔
        (ctx.mapping.lookup atom).isSome ∨ atom ∈ group := by
    intro ctx group
    unfold FDRContext.addGroup
    generalize ctx.repo.createVariable group = created
    dsimp only
    have added := @foldl_iff_of_law _ _
      (fun mapping (entry : Nat × Nat) =>
        AssociationList.emplace mapping entry.1 ⟨created.2, entry.2 + 1⟩)
      (fun mapping => (mapping.lookup atom).isSome) (fun entry => entry.1 = atom) group.zipIdx
      (fun _ _ => isSome_lookup_emplace) ctx.mapping
    refine added.trans (or_congr_right ⟨?_, fun mem => ?_⟩)
    · rintro ⟨entry, mem, rfl⟩
      exact List.fst_mem_of_mem_zipIdx mem
    · obtain ⟨position, found⟩ := List.mem_iff_getElem?.mp mem
      exact ⟨(atom, position), List.mem_zipIdx_iff_getElem?.mpr found, rfl⟩
  have added := @foldl_iff_of_law _ _ FDRContext.addGroup
    (fun ctx => (ctx.mapping.lookup atom).isSome) (atom ∈ ·) mutexes addGroup (empty repo)
  rw [ofMutexes, added]
  simp [empty]

theorem Reachable.represents (reachable : Reachable ctx) : ctx.Represents := by
  induction reachable with
  | empty reachable => exact represents_empty reachable.sound
  | ofMutexes mutexes reachable areAtoms => exact represents_ofMutexes reachable.sound areAtoms
  | ofAtoms atoms reachable areAtoms => exact represents_ofAtoms reachable.sound areAtoms
  | copy _ perm destReachable isBelow copied ih =>
      obtain ⟨result, represents, _⟩ := ih.copy perm destReachable.sound isBelow
      rw [copied] at result
      obtain rfl := Option.some.inj result
      exact represents
  | step _ step ih => exact step.represents ih

/-- Further calls. -/
abbrev Run : FDRContext → FDRContext → Prop := Relation.ReflTransGen Step

theorem Run.represents {later : FDRContext} (run : Run ctx later) (represents : ctx.Represents) :
    later.Represents := by
  induction run with
  | refl => exact represents
  | tail _ step ih => exact step.represents ih

theorem Run.extends {later : FDRContext} (run : Run ctx later) :
    Formalism.Repository.Extends ctx.repo later.repo := by
  induction run with
  | refl => exact .refl
  | tail _ step ih => exact ih.trans step.extends

theorem Run.lookup {later : FDRContext} (run : Run ctx later) {atom : Nat} {fact : FDRFact}
    (found : ctx.mapping.lookup atom = some fact) : later.mapping.lookup atom = some fact := by
  induction run with
  | refl => exact found
  | tail _ step ih => exact step.lookup ih

/-- In each context, whatever was called before: the fact of an atom is a value of its
variable, not the none value, and the variable has the atom at this value; after any
further calls the atom and no other one gets this fact; and a copy into a child has the
same facts. -/
theorem getFact_bijective (reachable : Reachable ctx) :
    (∀ atom fact, ctx.mapping.lookup atom = some fact →
      Stores ctx.repo fact atom ∧ fact.var ∈ ctx.vars) ∧
    (∀ atom, (ctx.repo.bindingOf atom).isSome →
      Stores (ctx.getFact atom).1.repo (ctx.getFact atom).2 atom ∧
      (ctx.getFact atom).2.var ∈ (ctx.getFact atom).1.vars ∧
      ∀ later, Run (ctx.getFact atom).1 later → ∀ other, (later.repo.bindingOf other).isSome →
        ((later.getFact other).2 = (ctx.getFact atom).2 ↔ other = atom)) ∧
    ∀ entries dest, entries.Perm ctx.mapping → PlanningRepository.Reachable dest →
      Formalism.Repository.Below ctx.repo dest → ∃ copied, copy ctx entries dest = some copied ∧
        copied.vars = ctx.vars ∧
        ∀ atom, copied.mapping.lookup atom = ctx.mapping.lookup atom := by
  have represents := reachable.represents
  refine ⟨fun atom fact found => ⟨represents.stores atom fact found, represents.listed atom fact found⟩,
    fun atom isAtom => ?_, fun entries dest perm destReachable isBelow => ?_⟩
  · obtain ⟨next, found⟩ := represents.getFact isAtom
    refine ⟨next.stores atom _ found, next.listed atom _ found, fun later run other isOther => ?_⟩
    have laterRepresents := run.represents next
    have foundLater := run.lookup found
    obtain ⟨last, foundOther⟩ := laterRepresents.getFact isOther
    have foundLast := (Step.getFact other isOther).lookup foundLater
    constructor
    · intro same
      rw [same] at foundOther
      exact (last.stores other _ foundOther).unique (last.stores atom _ foundLast)
    · rintro rfl
      exact Option.some.inj (foundOther.symm.trans foundLast)
  · obtain ⟨copied, _, sameLookup⟩ := represents.copy perm destReachable.sound isBelow
    exact ⟨_, copied, rfl, sameLookup⟩

end

/-- The objects of `p(1)` and `p(2)`. -/
def twoRows : PlanningRepository :=
  ((PlanningRepository.createBinding (.root planningSchema) 0 [1]).1.createBinding 0 [2]).1

/-- The atoms `p(1)` and `p(2)`. -/
def twoAtoms : PlanningRepository := ((twoRows.createAtom (0, 0)).1.createAtom (0, 1)).1

theorem twoAtoms_reachable : PlanningRepository.Reachable twoAtoms :=
  .call (.call (.call (.call .root (.binding 0 [1])) (.binding 0 [2])) (.groundAtom (0, 0) rfl))
    (.groundAtom (0, 1) rfl)

theorem twoAtoms_mutex : ∀ group ∈ [[1, 0]], ∀ atom ∈ group, (twoAtoms.bindingOf atom).isSome := by
  intro group mem atom inGroup
  rw [List.mem_singleton.mp mem] at inGroup
  rcases List.mem_pair.mp inGroup with rfl | rfl <;> rfl

/-- The atoms of a group need not be in the order of their indices. -/
theorem getFact_bijective_twoAtoms :
    Stores (ofMutexes [[1, 0]] twoAtoms).repo ⟨0, 1⟩ 1 ∧ 0 ∈ (ofMutexes [[1, 0]] twoAtoms).vars :=
  (getFact_bijective (.ofMutexes [[1, 0]] twoAtoms_reachable twoAtoms_mutex)).1 1 ⟨0, 1⟩ rfl

end FDRContext

end Tyr.Formalism.Planning
