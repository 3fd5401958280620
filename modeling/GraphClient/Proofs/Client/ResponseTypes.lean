import GraphClient.Proofs.Client.Closed
import GraphClient.Proofs.Client.PlannedFiles

/-!
# The response types of a client

* **`responseTypes_closed`**: the names of response types.
-/

namespace GraphClient

open TakenNames (Claims)

theorem claims_reserveAll {before after : TakenNames} {names : List String}
    (h : reserveAll before names = .ok after) : Claims before after names := by
  induction names generalizing before with
  | nil =>
    cases h
    exact .none _
  | cons name rest ih =>
    rw [reserveAll, TakenNames.reserve?] at h
    by_cases hm : name ∈ before
    · simp [hm] at h
    · have hr : reserveAll (name :: before) rest = .ok after := by simpa [hm] using h
      have ho : Claims before (name :: before) [name] := ⟨.refl _, fun hn => List.nodup_cons.mpr ⟨hm, hn⟩⟩
      exact ho.trans (ih hr)

/-- **The names that are taken before response types are planned.** -/
theorem claims_reservedNames {decls : List Declaration} {taken : TakenNames} (h : reservedNames decls = .ok taken) :
    taken.Nodup ∧ taken.Perm (supportNames ++ decls.flatMap Declaration.names) := by
  have hc := claims_reserveAll h
  exact ⟨hc.nodup List.nodup_nil, by simpa using hc.perm⟩

theorem claims_planOperation (op : String) (shape : ResultShape) (taken : TakenNames) :
    let planned := planOperation op shape taken
    Claims taken planned.2 (planned.1.2.map ShapePlan.name) := by
  obtain ⟨rest, hn, hc⟩ := claims_planShape (taken.claim (op ++ "Result")).1 op shape
    (taken.claim (op ++ "Result")).2
  dsimp only [planOperation]
  rw [hn]
  exact (TakenNames.claims_claim taken _).trans hc.toClaims

/-- **A client takes the names of all its response types**, one operation after the other. -/
theorem claims_planFiles (decls : List Declaration) (taken : TakenNames) :
    ∃ after, Claims taken after ((planFiles decls taken).flatMap PlannedFile.planNames) := by
  induction decls generalizing taken with
  | nil => exact ⟨taken, .none taken⟩
  | cons decl rest ih =>
    cases decl with
    | type defn => exact ih taken
    | operation defn =>
      obtain ⟨after, hr⟩ := ih (planOperation defn.name defn.shape taken).2
      exact ⟨after, (claims_planOperation defn.name defn.shape taken).trans hr⟩

theorem allTidy_of_mem_operations {srcs : List Source} {op : BoundOperation}
    (h : op ∈ (analyze srcs).operations) : op.shape.AllTidy := by
  rw [shape_of_mem_operations h]
  exact fun inner hi => Registry.tidy_of_contains hi

/-- **Response types have names of their own, and those of an operation are closed.** Their names differ
from each other and from those of the support file, of types and operations and of what comes with these.
Within an operation, every name that a field or variant gives stands for the response type planned from it,
and every response type but the root is named so. -/
theorem responseTypes_closed (sources : List Source) {taken : TakenNames}
    (hreserved : reservedNames (analyze sources).declarations = .ok taken) :
    let files := planFiles (analyze sources).declarations taken
    (∀ target : Target, target.declarationFiles (analyze sources).fragments (analyze sources).declarations taken =
        files.map (target.file (analyze sources).fragments)) ∧
      (files.flatMap PlannedFile.planNames).Nodup ∧
      (∀ name ∈ files.flatMap PlannedFile.planNames, name ∉ supportNames ∧
        (∀ type ∈ (analyze sources).registry.userTypes, name ∉ (Declaration.type type).names) ∧
        ∀ operation ∈ (analyze sources).operations, name ∉ (Declaration.operation operation).names) ∧
      ∀ operation root plans, .operation operation root plans ∈ files →
        plans.head?.map ShapePlan.name = some root ∧ ClosedPlans operation.shape plans := by
  obtain ⟨hnodup, hperm⟩ := claims_reservedNames hreserved
  obtain ⟨after, hclaims⟩ := claims_planFiles (analyze sources).declarations taken
  obtain ⟨hnames, hfresh⟩ := hclaims.fresh hnodup
  have hfree : ∀ name ∈ (planFiles (analyze sources).declarations taken).flatMap PlannedFile.planNames,
      name ∉ supportNames ∧ ∀ declaration ∈ (analyze sources).declarations, name ∉ declaration.names := by
    intro name hname
    have hnot := hfresh name hname
    rw [hperm.mem_iff, List.mem_append, not_or, List.mem_flatMap] at hnot
    exact ⟨hnot.1, fun declaration hdeclaration hmem => hnot.2 ⟨declaration, hdeclaration, hmem⟩⟩
  refine ⟨fun target => declarationFiles_eq target _ _ taken, hnames, fun name hname => ?_, ?_⟩
  · refine ⟨(hfree name hname).1, fun type htype => ?_, fun operation hoperation => ?_⟩
    · exact (hfree name hname).2 _ (Analysis.mem_declarations.mpr (.inl ⟨type, htype, rfl⟩))
    · exact (hfree name hname).2 _ (Analysis.mem_declarations.mpr (.inr ⟨operation, hoperation, rfl⟩))
  · intro operation root plans hfile
    obtain ⟨hdeclaration, before, hplan⟩ := exists_planOperation hfile
    obtain ⟨rfl, rfl⟩ := Prod.mk.inj hplan
    have hown := (List.nodup_flatMap.mp hnames).1 _ hfile
    obtain ⟨rest, hroot, -⟩ := claims_planShape (before.claim (operation.name ++ "Result")).1 operation.name
      operation.shape (before.claim (operation.name ++ "Result")).2
    refine ⟨?_, closedPlans_planShape (allTidy_of_mem_operations (Analysis.operation_mem hdeclaration)) hown⟩
    rw [← List.head?_map]
    exact congrArg List.head? hroot

/-- A query on a union, next to a type that has the first choice of the root's name. -/
def hitSources : List Source := Source.number [("hit",
  "type Query\x7bhit:Hit\x7dunion Hit=A|B type A\x7bx:Int a:A\x7dtype B\x7bb:A\x7dtype SResult\x7bx:Int\x7d
   query S\x7bhit\x7b...on A\x7ba\x7bx\x7d\x7d...on B\x7bb\x7bx\x7d\x7d\x7d\x7d")]

theorem responseTypes_hit : ∃ taken, reservedNames (analyze hitSources).declarations = .ok taken ∧
    (planFiles (analyze hitSources).declarations taken).flatMap PlannedFile.planNames =
      ["SResult2", "SHit", "SHitA", "SHitAA", "SHitB", "SHitBB"] ∧
    ∀ operation root plans, .operation operation root plans ∈ planFiles (analyze hitSources).declarations taken →
      ClosedPlans operation.shape plans := by
  have hnames : (match reservedNames (analyze hitSources).declarations with
      | .ok taken => decide ((planFiles (analyze hitSources).declarations taken).flatMap PlannedFile.planNames =
          ["SResult2", "SHit", "SHitA", "SHitAA", "SHitB", "SHitBB"])
      | .error _ => false) = true := by decide +kernel
  cases hreserved : reservedNames (analyze hitSources).declarations with
  | error problem => simp [hreserved] at hnames
  | ok taken =>
    refine ⟨taken, rfl, by simpa [hreserved] using hnames, fun operation root plans hfile => ?_⟩
    exact ((responseTypes_closed hitSources hreserved).2.2.2 operation root plans hfile).2

end GraphClient
