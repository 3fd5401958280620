import GraphClient.Client.Generate
import GraphClient.Proofs.Order

/-!
# The files of a client

* **`generate_eq_ok`**: the files of a generated client.
-/

namespace GraphClient

open List

/-- A declaration with the response types in its file. -/
inductive PlannedFile
  | type (definition : TypeDefinition)
  | operation (definition : BoundOperation) (root : String) (plans : List ShapePlan)

namespace PlannedFile

def declaration : PlannedFile → Declaration
  | .type definition => .type definition
  | .operation definition _ _ => .operation definition

/-- The response types in the file. -/
def plans : PlannedFile → List ShapePlan
  | .type _ => []
  | .operation _ _ plans => plans

def planNames (file : PlannedFile) : List String := file.plans.map ShapePlan.name

end PlannedFile

/-- **The files of declarations.** Each operation takes the names of its response types. -/
def planFiles : List Declaration → TakenNames → List PlannedFile
  | [], _ => []
  | .type definition :: rest, taken => .type definition :: planFiles rest taken
  | .operation definition :: rest, taken =>
    let planned := planOperation definition.name definition.shape taken
    .operation definition planned.1.1 planned.1.2 :: planFiles rest planned.2

def Target.file (target : Target) (fragments : NameMap BoundFragment) : PlannedFile → GeneratedFile
  | .type definition => ⟨target.path (.type definition), target.typeText definition⟩
  | .operation definition root plans =>
    ⟨target.path (.operation definition), target.operationText definition (definition.document fragments) root plans⟩

/-- **The text of each file comes from its plan.** -/
theorem declarationFiles_eq (target : Target) (frags : NameMap BoundFragment)
    (decls : List Declaration) (taken : TakenNames) : target.declarationFiles frags decls taken =
      (planFiles decls taken).map (target.file frags) := by
  induction decls generalizing taken with
  | nil => rfl
  | cons decl rest ih =>
    cases decl with
    | type defn => exact congrArg (_ :: ·) (ih taken)
    | operation defn => exact congrArg (_ :: ·) (ih _)

theorem declaration_planFiles (decls : List Declaration) (taken : TakenNames) :
    (planFiles decls taken).map PlannedFile.declaration = decls := by
  induction decls generalizing taken with
  | nil => rfl
  | cons decl rest ih =>
    cases decl with
    | type defn => exact congrArg (_ :: ·) (ih taken)
    | operation defn => exact congrArg (_ :: ·) (ih _)

theorem exists_planOperation {decls : List Declaration} {taken : TakenNames}
    {op : BoundOperation} {root : String} {plans : List ShapePlan}
    (h : .operation op root plans ∈ planFiles decls taken) : .operation op ∈ decls ∧
      ∃ before, (root, plans) = (planOperation op.name op.shape before).1 := by
  induction decls generalizing taken with
  | nil => cases h
  | cons decl rest ih =>
    cases decl with
    | type defn =>
      rcases mem_cons.mp h with he | h
      · cases he
      · exact ⟨mem_cons_of_mem _ (ih h).1, (ih h).2⟩
    | operation defn =>
      rcases mem_cons.mp h with he | h
      · cases he
        exact ⟨mem_cons_self, taken, rfl⟩
      · exact ⟨mem_cons_of_mem _ (ih h).1, (ih h).2⟩

variable {analysis : Analysis}

theorem Analysis.mem_declarations {decl : Declaration} : decl ∈ analysis.declarations ↔
      (∃ type ∈ analysis.registry.userTypes, decl = .type type) ∨ ∃ op ∈ analysis.operations, decl = .operation op := by
  rw [declarations, mem_sortBy, mem_append, mem_map, mem_map]
  simp only [eq_comm]

theorem Analysis.operation_mem {op : BoundOperation}
    (h : .operation op ∈ analysis.declarations) : op ∈ analysis.operations := by
  rcases mem_declarations.mp h with ⟨type, -, he⟩ | ⟨other, ho, he⟩
  · cases he
  · cases he
    exact ho

theorem Analysis.type_mem {type : TypeDefinition} {taken : TakenNames} :
    .type type ∈ planFiles analysis.declarations taken ↔ type ∈ analysis.registry.userTypes := by
  have hf : ∀ decls taken, .type type ∈ planFiles decls taken ↔ .type type ∈ decls := by
    intro decls
    induction decls with
    | nil => simp [planFiles]
    | cons decl rest ih => cases decl <;> simp [planFiles, ih]
  simp [hf, mem_declarations]

/-- **The files of a generated client**: those of its declarations, the support file and the index. -/
theorem generate_eq_ok {options : Options} {lang : Language} {client : GeneratedClient}
    (h : generate analysis options lang = .ok client) :
    analysis.isOk ∧ ∃ taken, reservedNames analysis.declarations = .ok taken ∧
      repeatedPath? (analysis.declarations.map (Target.path ⟨lang, analysis.registry, options⟩)) = none ∧
      client.files = (planFiles analysis.declarations taken).map
          (Target.file ⟨lang, analysis.registry, options⟩ analysis.fragments) ++
        [Target.supportFile ⟨lang, analysis.registry, options⟩,
          Target.indexFile ⟨lang, analysis.registry, options⟩ analysis.declarations] := by
  rw [generate] at h
  simp only [bind, Except.bind, pure, Except.pure] at h
  split_ifs at h with he hf
  refine ⟨by simp_all [Analysis.isOk], ?_⟩
  cases hc : checkMappings analysis.registry options.scalars.names with
  | error problem => simp [hc] at h
  | ok done =>
    cases hr : reservedNames analysis.declarations with
    | error problem => simp [hc, hr] at h
    | ok taken =>
      cases hp : repeatedPath? (analysis.declarations.map (Target.path ⟨lang, analysis.registry, options⟩)) with
      | some path => simp [hc, hr, hp] at h
      | none =>
        simp only [hc, hr, hp, Except.ok.injEq] at h
        refine ⟨taken, rfl, rfl, ?_⟩
        rw [← h, declarationFiles_eq]

theorem exists_client {options : Options} {lang : Language} (h : (generate analysis options lang).isOk) :
    ∃ client, generate analysis options lang = .ok client := by
  cases hg : generate analysis options lang with
  | error problem => simp [hg, Except.isOk, Except.toBool] at h
  | ok client => exact ⟨client, rfl⟩

end GraphClient
