import GraphClient.Proofs.Diagnostic
import GraphClient.Proofs.Repeats
import GraphClient.Proofs.Value
import GraphClient.Schema.Input

/-!
# Findings of checks

* **`checkArguments_clean`**, **`checkDirectives_clean`**: when arguments and directives are accepted.
-/

namespace GraphClient

namespace Findings

@[simp] theorem diagnostics_append (a b : Findings) : (a ++ b).diagnostics = a.diagnostics ++ b.diagnostics := rfl

@[simp] theorem uses_append (a b : Findings) : (a ++ b).uses = a.uses ++ b.uses := rfl

@[simp] theorem uses_none : Findings.none.uses = [] := rfl

@[simp] theorem hasErrors_invalid (loc : Location) (msg : String) : (invalid loc msg).diagnostics.hasErrors := rfl

@[simp] theorem uses_invalid (loc : Location) (msg : String) : (invalid loc msg).uses = [] := rfl

variable {α : Type} (check : α → Findings)

theorem uses_all (es : List α) : (all check es).uses = es.flatMap fun e => (check e).uses := by
  induction es with
  | nil => rfl
  | cons e rest ih => rw [all, uses_append, ih, List.flatMap_cons]

theorem diagnostics_all (es : List α) : (all check es).diagnostics = es.flatMap fun e => (check e).diagnostics := by
  induction es with
  | nil => rfl
  | cons e rest ih => rw [all, diagnostics_append, ih, List.flatMap_cons]

theorem hasErrors_all {es : List α} : (all check es).diagnostics.hasErrors = false ↔
      ∀ e ∈ es, (check e).diagnostics.hasErrors = false := by
  rw [diagnostics_all, Diagnostics.hasErrors_flatMap]

theorem hasErrors_all_markRepeats {name : α → String} {es : List α} {check : α × Bool → Findings}
    (hr : ∀ e, (check (e, true)).diagnostics.hasErrors) :
    (all check (markRepeats name es)).diagnostics.hasErrors = false ↔
      (es.map name).Nodup ∧ ∀ e ∈ es, (check (e, false)).diagnostics.hasErrors = false := by
  rw [hasErrors_all, and_comm, List.Nodup, List.pairwise_map, ← forall_mem_markRepeats fun _ => False]
  refine forall₂_congr fun (e, repeated) _ => ?_
  cases repeated <;> simp [hr]

theorem hasErrors_all_missing {check : InputValueDefinition → Findings} {inputs : List InputValueDefinition}
    {given : List String} (hc : ∀ input, (check input).diagnostics.hasErrors) :
    (all check (inputs.filter fun input => input.isRequired && !given.contains input.name)).diagnostics.hasErrors =
        false ↔ ∀ input ∈ inputs, input.isRequired → input.name ∈ given := by
  rw [hasErrors_all]
  simp [hc]

end Findings

@[simp] theorem hasErrors_mismatch (want : TypeRef) (v : Value) (loc : Location) :
    (mismatch want v loc).diagnostics.hasErrors := rfl

@[simp] theorem hasErrors_findings (problem : Problem) : problem.findings.diagnostics.hasErrors := rfl

@[simp] theorem uses_checkNamed (registry : Registry) (v : Value) (want : TypeRef)
    (loc : Location) : (checkNamed registry v want loc).uses = [] := by
  rw [checkNamed]
  repeat' split
  all_goals rfl

@[simp] theorem uses_missingFields (owner : String) (inputs : List InputValueDefinition)
    (given : List String) (loc : Location) : (missingFields owner inputs given loc).uses = [] := by
  simp [missingFields, Findings.uses_all]

section Parts

variable (registry : Registry)

def checkItem (element : TypeRef) (location : Location) (item : Value) : Findings :=
  if element.isList && !canNest item then mismatch element item location
  else checkValue registry item element false location

theorem checkItems_eq (items : List Value) (elem : TypeRef) (loc : Location) :
    checkItems registry items elem loc = .all (checkItem registry elem loc) items := by
  induction items with
  | nil => rw [checkItems]; rfl
  | cons item rest ih => rw [checkItems, ih]; rfl

def checkField (owner : String) (inputs : List InputValueDefinition) (location : Location)
    (field : String × Value) : Findings :=
  match InputValueDefinition.find? inputs field.1 with
  | some input => checkValue registry field.2 input.type input.defaultValue.isSome location
  | none => .invalid location (ticked owner ++ " has no field " ++ ticked field.1)

theorem checkFields_eq (owner : String) (inputs : List InputValueDefinition) (fs : List (String × Value))
    (loc : Location) : checkFields registry owner inputs [] fs loc = .all (fun (f, repeated) =>
          if repeated then .invalid loc ("field " ++ ticked f.1 ++ " is given more than once")
          else checkField registry owner inputs loc f) (markRepeats Prod.fst fs) := by
  rw [markRepeats]
  generalize ([] : List String) = seen
  induction fs generalizing seen with
  | nil => rw [checkFields]; rfl
  | cons f rest ih => rw [checkFields, ih]; rfl

/-- **When the fields of an object literal are accepted**: none is given twice, each fits its definition, and
none is missing. -/
theorem checkFields_clean {owner : String} {inputs : List InputValueDefinition}
    {fs : List (String × Value)} {loc : Location} : (checkFields registry owner inputs [] fs loc ++
      missingFields owner inputs (fs.map Prod.fst) loc).diagnostics.hasErrors = false ↔ (fs.map Prod.fst).Nodup ∧
      (∀ f ∈ fs, (checkField registry owner inputs loc f).diagnostics.hasErrors = false) ∧
      ∀ input ∈ inputs, input.isRequired → input.name ∈ fs.map Prod.fst := by
  rw [checkFields_eq, Findings.diagnostics_append, Diagnostics.append_clean, ← and_assoc]
  exact and_congr (Findings.hasErrors_all_markRepeats fun _ => rfl) (Findings.hasErrors_all_missing fun _ => rfl)

end Parts

section Accepted

variable {registry : Registry} {owner : String} {defns : List InputValueDefinition}
  {args : List Argument} {loc : Location}

/-- **When arguments are accepted**: none is given twice, each fits its definition, and none is
missing. -/
theorem checkArguments_clean : (checkArguments registry owner defns args loc).diagnostics.hasErrors = false ↔
      (args.map Argument.name).Nodup ∧ (∀ arg ∈ args,
        (checkArgument registry owner defns arg).diagnostics.hasErrors = false) ∧
      ∀ input ∈ defns, input.isRequired → input.name ∈ args.map Argument.name := by
  rw [checkArguments, Findings.diagnostics_append, Diagnostics.append_clean, ← and_assoc]
  exact and_congr (Findings.hasErrors_all_markRepeats fun _ => rfl) (Findings.hasErrors_all_missing fun _ => rfl)

theorem uses_checkArguments (h : (checkArguments registry owner defns args loc).diagnostics.hasErrors = false) :
    (checkArguments registry owner defns args loc).uses =
      args.flatMap fun arg => (checkArgument registry owner defns arg).uses := by
  rw [checkArguments, Findings.uses_append, Findings.uses_all, Findings.uses_all,
    markRepeats_eq_map (checkArguments_clean.mp h).1, List.flatMap_map]
  simp

variable {place : DirectiveLocation} {uses : List DirectiveUse}

/-- Whether a directive can be used more than once on one element. -/
def Registry.isRepeatable (registry : Registry) (name : String) : Bool :=
  match registry.directive? name with
  | some directive => directive.repeatable
  | none => false

theorem checkUse_clean {use : DirectiveUse} {repeated : Bool} :
    (checkUse registry place use repeated).diagnostics.hasErrors = false ↔
      (checkUse registry place use false).diagnostics.hasErrors = false ∧
        (repeated → registry.isRepeatable use.name) := by
  rw [checkUse, checkUse, Registry.isRepeatable]
  cases registry.directive? use.name with
  | none => simp
  | some dir => cases repeated <;> cases hr : dir.repeatable <;> simp [hr]

/-- **When directives are accepted**: each one fits its definition, and those that are used twice can
be. The order of the uses does not matter. -/
theorem checkDirectives_clean : (checkDirectives registry place uses).diagnostics.hasErrors = false ↔
      (∀ use ∈ uses, (checkUse registry place use false).diagnostics.hasErrors = false) ∧
        uses.Pairwise fun a b => a.name = b.name → registry.isRepeatable b.name := by
  rw [checkDirectives, Findings.hasErrors_all, ← forall_mem_markRepeats fun name => registry.isRepeatable name]
  exact forall₂_congr fun _ _ => checkUse_clean

theorem uses_checkDirectives : (checkDirectives registry place uses).uses =
      uses.flatMap fun use => (checkUse registry place use false).uses := by
  have hu : ∀ use repeated, (checkUse registry place use repeated).uses =
      (checkUse registry place use false).uses := by
    intro use repeated
    rw [checkUse, checkUse]
    cases registry.directive? use.name with
    | none => rfl
    | some dir => cases repeated <;> cases hr : dir.repeatable <;> simp [hr]
  have hf : (markRepeats DirectiveUse.name uses).map Prod.fst = uses := map_fst_markRepeats uses
  rw [checkDirectives, Findings.uses_all]
  conv_rhs => rw [← hf, List.flatMap_map]
  simp only [hu]

end Accepted

section Reports

variable (registry : Registry)

theorem Findings.fatal_append {a b : Findings} (ha : a.diagnostics.Fatal) (hb : b.diagnostics.Fatal) :
    (a ++ b).diagnostics.Fatal := ha.append hb

theorem Findings.fatal_all {α : Type} {check : α → Findings} {es : List α}
    (h : ∀ e ∈ es, (check e).diagnostics.Fatal) : (all check es).diagnostics.Fatal := by
  rw [diagnostics_all]
  exact .flatMap h

theorem checkNamed_fatal (v : Value) (want : TypeRef) (loc : Location) :
    (checkNamed registry v want loc).diagnostics.Fatal := by
  rw [checkNamed]
  repeat' split
  all_goals first | exact .nil | exact .error

theorem checkValue_fatal (value : Value) (exp : TypeRef) (hasDefault : Bool) (loc : Location) :
    (checkValue registry value exp hasDefault loc).diagnostics.Fatal := by
  induction value generalizing exp hasDefault loc with
  | «variable» name => exact .nil
  | null =>
    rw [checkValue]
    split_ifs
    · exact .error
    · exact .nil
  | list items ih =>
    rw [checkValue]
    split
    · rw [checkItems_eq]
      refine Findings.fatal_all fun item hi => ?_
      rw [checkItem]
      split_ifs
      · exact .error
      · exact ih item hi _ _ _
    · exact checkNamed_fatal registry _ _ _
  | object fields ih =>
    rw [checkValue]
    split
    · rw [checkFields_eq]
      refine Findings.fatal_append (Findings.fatal_all fun (field, repeated) hf => ?_)
        (Findings.fatal_all fun _ _ => .error)
      cases repeated with
      | true => exact .error
      | false =>
        change (checkField registry _ _ loc field).diagnostics.Fatal
        rw [checkField]
        split
        · exact ih field (fst_mem_of_mem_markRepeats hf) _ _ _
        · exact .error
    · exact checkNamed_fatal registry _ _ _
  | int _ | float _ | string _ | boolean _ | enum _ => exact checkNamed_fatal registry _ _ _

theorem checkArguments_fatal (owner : String) (defns : List InputValueDefinition)
    (args : List Argument) (loc : Location) : (checkArguments registry owner defns args loc).diagnostics.Fatal := by
  refine Findings.fatal_append (Findings.fatal_all fun (arg, repeated) _ => ?_)
    (Findings.fatal_all fun _ _ => .error)
  cases repeated with
  | true => exact .error
  | false =>
    change (checkArgument registry owner defns arg).diagnostics.Fatal
    rw [checkArgument]
    split
    · exact checkValue_fatal registry _ _ _ _
    · exact .error

/-- **Checks of directives report errors only.** -/
theorem checkDirectives_fatal (place : DirectiveLocation) (uses : List DirectiveUse) :
    (checkDirectives registry place uses).diagnostics.Fatal := by
  refine Findings.fatal_all fun (use, repeated) _ => ?_
  change (checkUse registry place use repeated).diagnostics.Fatal
  rw [checkUse]
  split
  · exact .error
  · refine Findings.fatal_append (Findings.fatal_append ?_ ?_) (checkArguments_fatal registry _ _ _ _)
    · split_ifs
      · exact .nil
      · exact .error
    · split_ifs
      · exact .error
      · exact .nil

end Reports

end GraphClient
