import GraphClient.Operation.Printer
import GraphClient.Proofs.Operation.Reports
import GraphClient.Proofs.Schema.Relocate

/-!
# Bindings elsewhere

* **`Scope.bindSet_relocate`**: selections are bound in the same way, with the locations moved.
* **`Scope.bindOperation_relocate`**: operations are bound in the same way, and clean at the same time.
-/

namespace GraphClient

open List BoundSelection Notes Registry DirectiveUse Bool

section Selections

variable {move : Location → Location}

/-! ## Notes -/

namespace Notes

@[simp] theorem relocate_append (a b : Notes) : (a ++ b).relocate move = a.relocate move ++ b.relocate move := by
  change mk _ _ _ = mk _ _ _
  rw [diagnostics_append, uses_append, spreads_append, map_append, map_append]
  rfl

theorem relocate_require (ho : Bool) (d : Diagnostic) :
    (require ho d).relocate move = require ho (d.relocate move) := by
  cases ho <;> rfl

end Notes

/-! ## Directives with a meaning -/

namespace DirectiveUse

theorem reason?_relocate (use : DirectiveUse) : (use.relocate move).reason? = use.reason? := by
  rw [reason?, argument?, relocate, List.find?_map, Option.map_map]
  rfl

theorem deprecation?_relocate (uses : List DirectiveUse) :
    deprecation? (uses.map (relocate move)) = (deprecation? uses).map (relocate move) := by
  rw [deprecation?, find?_map]
  rfl

@[simp] theorem isConditional_relocate (uses : List DirectiveUse) :
    isConditional (uses.map (relocate move)) = isConditional uses := by
  rw [isConditional, isConditional, any_map]
  rfl

end DirectiveUse

/-! ## Selections -/

namespace Scope

variable (scope : Scope)

@[simp] theorem registry_relocate : (scope.relocate move).registry = scope.registry.outline move := rfl

variable (move) in
theorem directiveNotes_relocate (place : DirectiveLocation) (uses : List DirectiveUse) :
    (scope.relocate move).directiveNotes place (uses.map (.relocate move)) =
      (scope.directiveNotes place uses).relocate move :=
  congrArg ofFindings ((scope.registry.revised_outline move).checkDirectives place uses)

theorem contains_relocate (name : String) :
    (scope.relocate move).declared.contains name = scope.declared.contains name := by
  rw [NameMap.contains, NameMap.contains, relocate, NameMap.find?_map, Option.isSome_map]

theorem find?_relocate (name : String) : (scope.relocate move).bound.find? name =
      (scope.bound.find? name).map (.relocate move) := by
  rw [relocate, NameMap.find?_map]

theorem fieldDefinition?_relocate (parent name : String) : (scope.relocate move).fieldDefinition? parent name =
      (scope.fieldDefinition? parent name).map (.relocate move) := by
  rw [fieldDefinition?, fieldDefinition?, registry_relocate, kind?_outline]
  split
  iterate 2 · exact field?_outline move scope.registry parent name
  · rw [possibleTypes_outline]
    split
    · rfl
    · next first rest _ =>
      simp only [field?_outline]
      cases scope.registry.field? first name with
      | none => rfl
      | some f =>
        rw [apply_ite (Option.map (FieldDefinition.relocate move))]
        refine ite_congr (congrArg (· = true) (congrArg rest.all (funext fun member => ?_)))
          (fun _ => rfl) fun _ => rfl
        cases scope.registry.field? member name <;> rfl
  · rfl

theorem deprecationNotes_relocate (parent : String) (he : FieldHead) (f : FieldDefinition) :
    deprecationNotes parent (he.relocate move) (f.relocate move) = (deprecationNotes parent he f).relocate move := by
  rw [deprecationNotes, deprecationNotes, FieldDefinition.relocate, deprecation?_relocate]
  cases deprecation? f.directives with
  | none => rfl
  | some use =>
    dsimp only [Option.map_some]
    rw [reason?_relocate]
    rfl

theorem typenameNotes_relocate (he : FieldHead) (sels : List Selection) :
    typenameNotes (he.relocate move) (Selection.relocateAll move sels) = (typenameNotes he sels).relocate move := by
  rw [typenameNotes, typenameNotes, relocate_append, relocate_require,
    relocate_require, Selection.relocateAll_eq_map, isEmpty_map, FieldHead.relocate,
    isEmpty_map]
  rfl

variable (move) in
theorem fieldNotes_relocate (parent : String) (he : FieldHead) (f : FieldDefinition) :
    (scope.relocate move).fieldNotes parent (he.relocate move) (f.relocate move) =
      (scope.fieldNotes parent he f).relocate move := by
  rw [fieldNotes, fieldNotes, relocate_append, deprecationNotes_relocate]
  congr 1
  exact congrArg ofFindings ((scope.registry.revised_outline move).checkArguments
    (parent ++ "." ++ he.name) f.arguments he.arguments he.location)

@[simp] theorem isComposite_relocate (type : TypeRef) :
    (scope.relocate move).isComposite type = scope.isComposite type := by
  rw [isComposite, isComposite, registry_relocate, kind?_outline]

@[simp] theorem canApply_relocate (parent cond : String) :
    (scope.relocate move).canApply parent cond = scope.canApply parent cond := by
  rw [canApply, canApply, registry_relocate, possibleTypes_outline, possibleTypes_outline]

theorem conditionProblem?_relocate (what : String) (cond : NamedRef) :
    (scope.relocate move).conditionProblem? what (cond.relocate move) =
      (scope.conditionProblem? what cond).map (.relocate move) := by
  have hk : (scope.relocate move).registry.kind? (cond.relocate move).name =
      scope.registry.kind? cond.name := kind?_outline move _ _
  rw [conditionProblem?, conditionProblem?, hk]
  cases scope.registry.kind? cond.name with
  | none => rfl
  | some kind =>
    rw [apply_ite (Option.map (Diagnostic.relocate move))]
    rfl

theorem inlineProblem?_relocate (parent : String) (cond : Option NamedRef) (loc : Location) :
    (scope.relocate move).inlineProblem? parent (cond.map (.relocate move)) (move loc) =
      (scope.inlineProblem? parent cond loc).map (.relocate move) := by
  cases cond with
  | none => rfl
  | some cond =>
    rw [Option.map_some, inlineProblem?, inlineProblem?, conditionProblem?_relocate, canApply_relocate]
    cases scope.conditionProblem? "inline fragment" cond with
    | some problem => rfl
    | none =>
      rw [apply_ite (Option.map (Diagnostic.relocate move))]
      rfl

theorem bindSpread_relocate (parent : String) (spread : Spread) :
    (scope.relocate move).bindSpread parent (spread.relocate move) =
      ((scope.bindSpread parent spread).1.map (.relocate move),
        (scope.bindSpread parent spread).2.relocate move) := by
  have hd := scope.directiveNotes_relocate move .fragmentSpread spread.directives
  simp only [bindSpread, contains_relocate, find?_relocate, canApply_relocate, Spread.relocate, hd]
  by_cases hc : scope.declared.contains spread.name
  · simp only [hc, Bool.not_true, false_eq_true, if_false]
    cases hf : scope.bound.find? spread.name with
    | none => simp only [relocate_append]; rfl
    | some frag =>
      change (if scope.canApply parent frag.condition then _ else _) = _
      by_cases ha : scope.canApply parent frag.condition
      · simp only [ha, if_true, relocate_append]
        rfl
      · simp only [ha, false_eq_true, if_false, relocate_append]
        rfl
  · simp only [hc, Bool.not_false, if_true, relocate_append]
    rfl

theorem hasKey_relocate (key : String) (sel : BoundSelection) : (sel.relocate move).hasKey key = sel.hasKey key := by
  cases sel <;> rfl

theorem location_relocate (sel : Selection) : (sel.relocate move).location = move sel.location := by
  cases sel <;> rfl

variable (hmove : move .builtin = .builtin)

include hmove

theorem addTypename_relocate (parent : String) (sels : List Selection) (bound : List BoundSelection) :
    (scope.relocate move).addTypename parent (Selection.relocateAll move sels) (relocateAll move bound) =
      relocateAll move (scope.addTypename parent sels bound) := by
  have hk : (relocateAll move bound).any (hasKey typename) =
      bound.any (hasKey typename) := by
    rw [relocateAll_eq_map, any_map]
    congr 1
    funext sel
    exact hasKey_relocate typename sel
  simp only [addTypename, registry_relocate, kind?_outline, hk]
  rw [apply_ite (relocateAll move)]
  refine ite_congr rfl (fun _ => ?_) fun _ => rfl
  refine congrArg (fun place => field (.typename none [] place) [] :: relocateAll move bound) ?_
  cases sels with
  | nil => exact hmove.symm
  | cons first rest => exact location_relocate first

omit hmove in
mutual

theorem bindSelection_relocate (hmove : move .builtin = .builtin) (parent : String) : (sel : Selection) →
    (scope.relocate move).bindSelection parent (sel.relocate move) =
      ((scope.bindSelection parent sel).1.map (.relocate move),
        (scope.bindSelection parent sel).2.relocate move)
  | .field ha sels => by
    have hd := scope.directiveNotes_relocate move .field ha.directives
    have he : (Selection.relocateAll move sels).isEmpty = sels.isEmpty := by
      rw [Selection.relocateAll_eq_map, isEmpty_map]
    rw [Selection.relocate, bindSelection, bindSelection]
    dsimp only [FieldHead.relocate]
    rw [hd]
    by_cases hn : ha.name = typename
    · simp only [hn, if_true, Option.map_some, relocate_append]
      rw [← typenameNotes_relocate]
      rfl
    · simp only [hn, if_false, fieldDefinition?_relocate]
      cases hf : scope.fieldDefinition? parent ha.name with
      | none => simp only [Option.map_none, relocate_append]; rfl
      | some f =>
        have ho := scope.fieldNotes_relocate move parent ha f
        simp only [FieldHead.relocate] at ho
        simp only [Option.map_some, ho, isComposite_relocate, FieldDefinition.type_relocate, he]
        by_cases hc : scope.isComposite f.type
        · simp only [hc, if_true]
          by_cases hs : sels.isEmpty
          · simp only [hs, if_true, Option.map_some, relocate_append]
            rfl
          · simp only [hs, false_eq_true, if_false, Option.map_some,
              relocate_append, bindEach_relocate hmove f.type.name sels,
              scope.addTypename_relocate hmove]
            rfl
        · simp only [hc, false_eq_true, if_false, Option.map_some, relocate_append, relocate_require]
          rfl
  | .spread spread => scope.bindSpread_relocate parent spread
  | .inline cond dirs sels loc => by
    have hn : (cond.map (.relocate move)).map NamedRef.name =
        cond.map NamedRef.name := by rw [Option.map_map]; rfl
    rw [Selection.relocate, bindSelection, bindSelection]
    simp only [scope.directiveNotes_relocate, inlineProblem?_relocate, hn]
    cases hp : scope.inlineProblem? parent cond loc with
    | some problem => simp only [Option.map_some, Option.map_none, relocate_append]; rfl
    | none =>
      simp only [Option.map_none, Option.map_some, relocate_append,
        bindEach_relocate hmove _ sels, scope.addTypename_relocate hmove]
      rfl

theorem bindEach_relocate (hmove : move .builtin = .builtin) (parent : String) : (sels : List Selection) →
    (scope.relocate move).bindEach parent (Selection.relocateAll move sels) =
      (relocateAll move (scope.bindEach parent sels).1, (scope.bindEach parent sels).2.relocate move)
  | [] => rfl
  | sel :: rest => by
    rw [Selection.relocateAll, bindEach, bindEach]
    simp only [bindSelection_relocate hmove parent sel, bindEach_relocate hmove parent rest,
      relocate_append, relocateAll_eq_map, map_append]
    cases (scope.bindSelection parent sel).1 <;> rfl

end

theorem bindSet_relocate (parent : String) (sels : List Selection) :
    (scope.relocate move).bindSet parent (Selection.relocateAll move sels) =
      (relocateAll move (scope.bindSet parent sels).1, (scope.bindSet parent sels).2.relocate move) := by
  simp only [bindSet, scope.bindEach_relocate hmove, scope.addTypename_relocate hmove]

/-! ## Fragments -/

theorem bindFragment_relocate (frag : FragmentDefinition) : (scope.relocate move).bindFragment (frag.relocate move) =
      ((scope.bindFragment frag).1.map (.relocate move),
        (scope.bindFragment frag).2.map (.relocate move)) := by
  rw [bindFragment, bindFragment]
  dsimp only [FragmentDefinition.relocate]
  rw [conditionProblem?_relocate]
  cases hp : scope.conditionProblem? ("fragment " ++ ticked frag.name) frag.condition with
  | some problem => rfl
  | none =>
    simp only [directiveNotes_relocate, scope.bindSet_relocate hmove, ← relocate_append]
    rfl

omit hmove

end Scope

/-! ## The order of fragments -/

mutual

theorem Selection.spreads_relocate : (sel : Selection) →
    (sel.relocate move).spreads = sel.spreads.map (.relocate move)
  | .field _ sels => spreadsIn_relocate sels
  | .spread _ => rfl
  | .inline _ _ sels _ => spreadsIn_relocate sels

theorem Selection.spreadsIn_relocate : (sels : List Selection) → spreadsIn (relocateAll move sels) =
      (spreadsIn sels).map (.relocate move)
  | [] => rfl
  | sel :: rest => by
    rw [relocateAll, spreadsIn, spreadsIn,
      spreads_relocate sel, spreadsIn_relocate rest, map_append]

end

def relocateDeclared (move : Location → Location) (declared : NameMap FragmentDefinition) :
    NameMap FragmentDefinition :=
  declared.map fun entry => (entry.1, entry.2.relocate move)

def FragmentWalk.relocate (move : Location → Location) (walk : FragmentWalk) : FragmentWalk :=
  { walk with diagnostics := walk.diagnostics.map (.relocate move) }

namespace FragmentWalk

variable (decl : NameMap FragmentDefinition)

theorem find?_relocateDeclared (name : String) : (relocateDeclared move decl).find? name =
      (decl.find? name).map (.relocate move) := NameMap.find?_map _ _ _

theorem contains_relocateDeclared (name : String) :
    (relocateDeclared move decl).contains name = decl.contains name := by
  rw [NameMap.contains, find?_relocateDeclared, Option.isSome_map, NameMap.contains]

theorem follow_relocate {path : List String} {enter enter' : String → FragmentWalk → FragmentWalk}
    (he : ∀ name walk, enter' name (walk.relocate move) = (enter name walk).relocate move)
    (walk : FragmentWalk) (spread : Spread) :
    (walk.relocate move).follow (relocateDeclared move decl) path enter' (spread.relocate move) =
      (walk.follow decl path enter spread).relocate move := by
  rw [follow, follow, contains_relocateDeclared]
  dsimp only [Spread.relocate]
  by_cases hd : decl.contains spread.name
  · simp only [hd, Bool.not_true, false_eq_true, if_false]
    by_cases hp : path.contains spread.name
    · simp only [hp, if_true, relocate, map_append]
      rfl
    · simp only [hp, false_eq_true, if_false]
      by_cases ho : walk.order.contains spread.name
      · simp only [relocate, ho, if_true]
      · simp only [relocate, ho]
        exact he spread.name walk
  · simp [hd]

theorem visit_relocate (fuel : Nat) (path : List String) (name : String) (walk : FragmentWalk) :
    (walk.relocate move).visit (relocateDeclared move decl) fuel path name =
      (walk.visit decl fuel path name).relocate move := by
  induction fuel generalizing path name walk with
  | zero => rfl
  | succ fuel ih =>
    rw [visit, visit, find?_relocateDeclared]
    cases decl.find? name with
    | none => rfl
    | some frag =>
      simp only [Option.map_some, FragmentDefinition.selections_relocate, Selection.spreadsIn_relocate, foldl_map]
      rw [foldl_hom (relocate move) fun walk spread =>
        follow_relocate decl (fun name walk => ih _ name walk) walk spread]
      rfl

end FragmentWalk

theorem fragmentOrder_relocate (decl : NameMap FragmentDefinition) : fragmentOrder (relocateDeclared move decl) =
      ((fragmentOrder decl).1, (fragmentOrder decl).2.map (.relocate move)) := by
  have hl : (relocateDeclared move decl).length = decl.length := by
    rw [relocateDeclared, length_map]
  have hn : (relocateDeclared move decl).names = decl.names := by
    rw [relocateDeclared, NameMap.names, map_map]
    rfl
  simp only [fragmentOrder, hl, hn]
  rw [show ({} : FragmentWalk) = FragmentWalk.relocate move {} from rfl,
    foldl_hom (FragmentWalk.relocate move) fun walk name => ?_]
  · rfl
  · rw [FragmentWalk.visit_relocate, apply_ite (FragmentWalk.relocate move)]
    rfl

/-! ## Scopes -/

namespace Scope

variable (hmove : move .builtin = .builtin)

include hmove in
theorem bindFragments_relocate (scope : Scope) (names : List String) : (scope.relocate move).bindFragments names =
      ((scope.bindFragments names).1.relocate move, (scope.bindFragments names).2.map (.relocate move)) := by
  induction names generalizing scope with
  | nil => rfl
  | cons name rest ih =>
    have hf : (scope.relocate move).declared.find? name =
        (scope.declared.find? name).map (.relocate move) := NameMap.find?_map _ _ _
    rw [bindFragments, bindFragments, hf]
    cases scope.declared.find? name with
    | none => exact ih scope
    | some frag =>
      simp only [Option.map_some, scope.bindFragment_relocate hmove]
      cases (scope.bindFragment frag).1 with
      | none => simp only [Option.map_none, ih scope, map_append]
      | some bound =>
        have hg : Scope.mk (scope.relocate move).registry (scope.relocate move).declared
            ((scope.relocate move).bound.insert bound.name (bound.relocate move)) =
            Scope.relocate move { scope with bound := scope.bound.insert bound.name bound } :=
          congrArg (Scope.mk _ _) (NameMap.insert_map (BoundFragment.relocate move) bound.name bound scope.bound)
        simp only [Option.map_some, map_append]
        change _ = ((bindFragments { scope with bound := scope.bound.insert bound.name bound }
          rest).1.relocate move, _)
        rw [show (bound.relocate move).name = bound.name from rfl, hg, ih]

def ofDeclared (registry : Registry) (declared : NameMap FragmentDefinition) : Scope × Diagnostics :=
  ((bindFragments ⟨registry, declared, []⟩ (fragmentOrder declared).1).1,
    (fragmentOrder declared).2 ++ (bindFragments ⟨registry, declared, []⟩ (fragmentOrder declared).1).2)

theorem ofDocuments_eq (reg : Registry) (docs : List Document) : ofDocuments reg docs =
      ((ofDeclared reg (declaredFragments docs)).1,
        repeatedFragments docs ++ (ofDeclared reg (declaredFragments docs)).2) := by
  simp [ofDocuments, ofDeclared]

include hmove in
/-- **Fragments are bound in the same way elsewhere.** -/
theorem ofDeclared_relocate (reg : Registry) (decl : NameMap FragmentDefinition) :
    ofDeclared (reg.outline move) (relocateDeclared move decl) = ((ofDeclared reg decl).1.relocate move,
        (ofDeclared reg decl).2.map (.relocate move)) := by
  have h := bindFragments_relocate hmove ⟨reg, decl, []⟩ (fragmentOrder decl).1
  simp only [ofDeclared, fragmentOrder_relocate, map_append]
  rw [show mk (reg.outline move) (relocateDeclared move decl) [] =
    relocate move ⟨reg, decl, []⟩ from rfl, h]

end Scope

end Selections

end GraphClient
