import GraphClient.Proofs.Analysis
import GraphClient.Proofs.Operation.Shape

/-!
# Null in shapes and conditional selections

A selection with `@skip` or `@include` can be left out of a run. A key that some run leaves out of an
object has to be nullable in the shape of that object.
-/

namespace GraphClient

open List FieldGroup

/-! ## Runs -/

/-- Whether a selection takes part in a run; `included` says so for conditional selections. -/
def isKept (included : Location → Bool) (isConditional : Bool) (location : Location) : Bool :=
  !isConditional || included location

/-- A field that an object answers. -/
structure Answered where
  field : BoundField
  selections : List BoundSelection

def Answered.key (answered : Answered) : String := answered.field.responseKey

/-- The merged selections of the answers under `key`. -/
def Answered.merged (key : String) (answers : List Answered) : List BoundSelection :=
  (answers.filter fun answered => answered.key == key).flatMap selections

/-- Whether `field` is a key of the objects of type `object` in the shape. -/
def ResultShape.Describes (shape : ResultShape) (object : String) (field : ShapeField) : Prop :=
  field ∈ shape.fields ∨ ∃ variant ∈ shape.variants, variant.type = object ∧ field ∈ variant.fields

namespace Registry

variable (registry : Registry) (included : Location → Bool)

mutual

def answerOne (object : String) : BoundSelection → List Answered
  | .field field selections =>
    if isKept included field.isConditional field.location then [⟨field, selections⟩] else []
  | .fragment use selections =>
    if isKept included use.isConditional use.location && registry.applies use.condition object then
      answer object selections
    else []

/-- **The fields that an object of type `object` answers**, excluded selections left out. -/
def answer (object : String) : List BoundSelection → List Answered
  | [] => []
  | selection :: rest => answerOne object selection ++ answer object rest

end

/-- **The objects of a response** to selections of the given shape: for each of them the selections
merged at its place, the shape there and its type. -/
inductive Produced (root : List BoundSelection) (rootShape : ResultShape) :
    List BoundSelection → ResultShape → String → Prop
  | root {object : String} (hobject : object ∈ registry.possibleTypes rootShape.type) :
    Produced root rootShape root rootShape object
  | field {selections : List BoundSelection} {shape inner : ResultShape} {object below : String}
      {field : ShapeField} (hparent : Produced root rootShape selections shape object)
      (hfield : shape.Describes object field)
      (hkey : field.key ∈ (registry.answer included object selections).map Answered.key)
      (hshape : field.shape = some inner) (hbelow : below ∈ registry.possibleTypes inner.type) :
    Produced root rootShape (Answered.merged field.key (registry.answer included object selections))
      inner below

end Registry

/-- **No run leaves out a key whose type excludes null.** -/
def BoundOperation.NullSafe (registry : Registry) (operation : BoundOperation) : Prop :=
  ∀ (included : Location → Bool) (selections : List BoundSelection) (shape : ResultShape)
    (object : String),
    registry.Produced included operation.selections operation.shape selections shape object →
      ∀ field, shape.Describes object field → field.type.isNonNull →
        field.key ∈ (registry.answer included object selections).map Answered.key

/-! ## Ways to fields -/

def condition (isConditional : Bool) (location : Location) : List Location :=
  if isConditional then [location] else []

/-- A collected field with the conditions on the way to it from the root. -/
structure Way extends Collected where
  conditions : List Location

/-- A selection set with the conditions on the way to it from the root. -/
structure Branch where
  conditions : List Location
  selections : List BoundSelection

def Way.branch (way : Way) : Branch := ⟨way.conditions, way.selections⟩

namespace Registry

variable (registry : Registry)

mutual

/-- The ways to the fields of a selection, for objects of type `object`. -/
def waysOne (object : String) (isConditional : Bool) (conditions : List Location) :
    BoundSelection → List Way
  | .field field selections =>
    [⟨⟨isConditional || field.isConditional, field, selections⟩,
      condition field.isConditional field.location ++ conditions⟩]
  | .fragment use selections =>
    if registry.applies use.condition object then
      waysFrom object (isConditional || use.isConditional)
        (condition use.isConditional use.location ++ conditions) selections
    else []

/-- The ways to the fields of a list of selections, for objects of type `object`. -/
def waysFrom (object : String) (isConditional : Bool) (conditions : List Location) :
    List BoundSelection → List Way
  | [] => []
  | selection :: rest =>
    waysOne object isConditional conditions selection ++ waysFrom object isConditional conditions rest

end

/-- The ways to the fields of selection sets merged at one place. -/
def ways (object : String) (branches : List Branch) : List Way :=
  branches.flatMap fun branch => registry.waysFrom object false branch.conditions branch.selections

def waysTo (object : String) (branches : List Branch) (key : String) : List Way :=
  (registry.ways object branches).filter fun way => way.field.responseKey == key

/-- **The selection sets merged at one place**, for each place where objects of a type can stand. The
type is that of the first field under the key. -/
inductive Merged (type : String) (selections : List BoundSelection) : String → List Branch → Prop
  | root : Merged type selections type [⟨[], selections⟩]
  | field {parent object key : String} {branches : List Branch} {first : Way} {rest : List Way}
      (hparent : Merged type selections parent branches)
      (hobject : object ∈ registry.possibleTypes parent)
      (hways : registry.waysTo object branches key = first :: rest)
      (hbelow : (first :: rest).flatMap (fun way => way.selections) ≠ []) :
    Merged type selections first.field.type.name ((first :: rest).map Way.branch)

/-- **The conditions of a selection set are covered.** Take a key of an object whose first field has a
type without null, and which one of the merged selection sets asks for without a condition of its own.
Then, whichever of these selection sets takes part in a run, some field under the key does, since it
needs no other conditions. -/
def ConditionsCovered (type : String) (selections : List BoundSelection) : Prop :=
  ∀ parent branches, registry.Merged type selections parent branches →
    ∀ object ∈ registry.possibleTypes parent, ∀ key first rest,
      registry.waysTo object branches key = first :: rest → first.field.type.isNonNull →
        (∃ way ∈ first :: rest, way.isConditional = false) →
          ∀ branch ∈ branches, ∃ way ∈ first :: rest, way.conditions ⊆ branch.conditions

/-! ## Ways and collected fields -/

mutual

theorem map_waysOne (object : String) (isCond : Bool) (conds : List Location) :
    (sel : BoundSelection) → (registry.waysOne object isCond conds sel).map Way.toCollected =
        registry.collectOne object isCond sel
  | .field f selections => rfl
  | .fragment use selections => by
    rw [waysOne, collectOne]
    split_ifs
    · exact map_waysFrom object _ _ selections
    · rfl

theorem map_waysFrom (object : String) (isCond : Bool) (conds : List Location) : (selections : List BoundSelection) →
      (registry.waysFrom object isCond conds selections).map Way.toCollected =
        registry.collectFrom object isCond selections
  | [] => rfl
  | sel :: rest => by
    rw [waysFrom, collectFrom, map_append, map_waysOne object _ _ sel, map_waysFrom object _ _ rest]

end

variable (object : String) (branches : List Branch)

theorem collectFrom_append (isCond : Bool) (as bs : List BoundSelection) :
    registry.collectFrom object isCond (as ++ bs) =
      registry.collectFrom object isCond as ++ registry.collectFrom object isCond bs := by
  induction as with
  | nil => rfl
  | cons a as ih => rw [cons_append, collectFrom, collectFrom, ih, append_assoc]

theorem map_ways : (registry.ways object branches).map Way.toCollected =
      registry.collect object (branches.flatMap Branch.selections) := by
  induction branches with
  | nil => rfl
  | cons branch rest ih =>
    rw [ways, flatMap_cons, map_append, map_waysFrom, flatMap_cons, collect, collectFrom_append]
    exact congrArg _ ih

theorem map_waysTo (key : String) : (registry.waysTo object branches key).map Way.toCollected =
      (registry.collect object (branches.flatMap Branch.selections)).filter fun e =>
        e.field.responseKey == key := by
  rw [← map_ways, filter_map]
  rfl

/-! ## Ways in a run -/

section Run

variable (included : Location → Bool)

def met (conditions : List Location) : Bool := conditions.all included

def wayAnswer (way : Way) : Answered := ⟨way.field, way.selections⟩

theorem met_condition (isConditional : Bool) (location : Location) (conditions : List Location) :
    met included (condition isConditional location ++ conditions) =
      (isKept included isConditional location && met included conditions) := by
  cases isConditional <;> simp [met, condition, isKept]

mutual

theorem filter_waysOne (object : String) (isCond : Bool) (conds : List Location) :
    (sel : BoundSelection) → ((registry.waysOne object isCond conds sel).filter fun way =>
        met included way.conditions).map wayAnswer =
      if met included conds then registry.answerOne included object sel else []
  | .field f selections => by
    rw [waysOne, answerOne, filter_singleton, met_condition]
    cases isKept included f.isConditional f.location <;> cases met included conds <;> rfl
  | .fragment use selections => by
    rw [waysOne, answerOne]
    by_cases ha : registry.applies use.condition object
    · rw [if_pos ha, filter_waysFrom object _ _ selections, met_condition, ha]
      cases isKept included use.isConditional use.location <;> cases met included conds <;> rfl
    · simp [ha]

theorem filter_waysFrom (object : String) (isCond : Bool) (conds : List Location) : (selections : List BoundSelection) →
      ((registry.waysFrom object isCond conds selections).filter fun way =>
        met included way.conditions).map wayAnswer =
      if met included conds then registry.answer included object selections else []
  | [] => by simp [waysFrom, answer]
  | sel :: rest => by
    rw [waysFrom, answer, filter_append, map_append, filter_waysOne object _ _ sel, filter_waysFrom object _ _ rest]
    split_ifs <;> rfl

end

def kept (branches : List Branch) : List BoundSelection :=
  (branches.filter fun branch => met included branch.conditions).flatMap Branch.selections

theorem answer_append (as bs : List BoundSelection) : registry.answer included object (as ++ bs) =
      registry.answer included object as ++ registry.answer included object bs := by
  induction as with
  | nil => rfl
  | cons a as ih => rw [cons_append, answer, answer, ih, append_assoc]

/-- **The answers of a run are at the ends of the ways whose conditions are met.** -/
theorem answer_kept : registry.answer included object (kept included branches) =
      ((registry.ways object branches).filter fun way => met included way.conditions).map wayAnswer := by
  induction branches with
  | nil => rfl
  | cons branch rest ih =>
    rw [ways, flatMap_cons, filter_append, map_append, filter_waysFrom]
    change _ = _ ++ ((registry.ways object rest).filter _).map wayAnswer
    rw [← ih, kept, filter_cons]
    split_ifs with hm
    · rw [flatMap_cons, answer_append]
      rfl
    · rfl

theorem mem_keys_answer_kept {object : String} {branches : List Branch} {key : String} :
    key ∈ (registry.answer included object (kept included branches)).map Answered.key ↔
      ∃ way ∈ registry.waysTo object branches key, met included way.conditions := by
  rw [answer_kept, map_map, mem_map]
  simp only [mem_filter, waysTo, beq_iff_eq]
  constructor
  · rintro ⟨way, ⟨hw, hm⟩, rfl⟩
    exact ⟨way, ⟨hw, rfl⟩, hm⟩
  · rintro ⟨way, ⟨hw, rfl⟩, hm⟩
    exact ⟨way, ⟨hw, hm⟩, rfl⟩

/-- The merged selections of a key, in a run, are those of the ways whose conditions are met. -/
theorem merged_answer_kept (key : String) :
    Answered.merged key (registry.answer included object (kept included branches)) =
      kept included ((registry.waysTo object branches key).map Way.branch) := by
  rw [answer_kept, Answered.merged, filter_map, filter_filter, flatMap_map, kept,
    waysTo, filter_map, filter_filter, flatMap_map]
  congr 1
  exact filter_congr fun way _ => Bool.and_comm _ _

end Run

/-! ## Shapes and ways -/

variable {object : String}

theorem describes_resultShape (hn : registry.Named) {type : String}
    (ho : object ∈ registry.possibleTypes type) (selections : List BoundSelection) (f : ShapeField) :
    (registry.resultShape type selections).Describes object f ↔ f ∈ registry.objectKeys object selections := by
  have hb : ∀ {kind}, registry.kind? type = some kind → kind.isAbstract →
      registry.variantTypes type = registry.possibleTypes type := fun hk ha => by
    rw [variantTypes, hk]
    exact if_pos ha
  rw [resultShape_eq, shapeLevel]
  cases hv : registry.variantTypes type with
  | nil =>
    rcases hn.possibleTypes_cases ho with ⟨-, rfl⟩ | ⟨kind, hk, ha⟩
    · simp [ResultShape.Describes]
    · rw [← hb hk ha, hv] at ho
      cases ho
  | cons first rest =>
    have hm : object ∈ first :: rest := by
      rcases hn.possibleTypes_cases ho with ⟨hk, -⟩ | ⟨kind, hk, ha⟩
      · simp [variantTypes, hk, TypeKind.isAbstract] at hv
      · rwa [← hv, hb hk ha]
    constructor
    · rintro (h | ⟨v, hva, rfl, h⟩)
      · exact mem_sharedFields h (mem_map.mpr ⟨object, hm, rfl⟩)
      · obtain ⟨other, -, rfl⟩ := mem_map.mp hva
        exact h
    · intro h
      exact Or.inr ⟨⟨object, _⟩, mem_map.mpr ⟨object, hm, rfl⟩, rfl, h⟩

theorem mem_objectKeys_iff {branches : List Branch} {f : ShapeField} :
    f ∈ registry.objectKeys object (branches.flatMap Branch.selections) ↔
      ∃ first rest, registry.waysTo object branches f.key = first :: rest ∧
        f = shapeKey registry.resultShape ⟨first.toCollected, rest.map Way.toCollected⟩ := by
  rw [objectKeys, shapeKeys, mem_map]
  constructor
  · rintro ⟨group, hg, rfl⟩
    have he := mem_ofList.mp hg
    rw [← registry.map_waysTo object branches group.key] at he
    cases hw : registry.waysTo object branches group.key with
    | nil =>
      rw [hw] at he
      cases he
    | cons first rest =>
      rw [hw, map_cons, entries_eq] at he
      exact ⟨first, rest, hw, by rw [he]⟩
  · rintro ⟨first, rest, hw, hf⟩
    refine ⟨⟨first.toCollected, rest.map Way.toCollected⟩, mem_ofList.mpr ?_, hf.symm⟩
    have hk : f.key = key ⟨first.toCollected, rest.map Way.toCollected⟩ := by rw [hf]; rfl
    rw [← hk, ← map_waysTo, hw]
    rfl

theorem shapeKey_shape {first : Way} {rest : List Way} (inner : ResultShape) :
    (shapeKey registry.resultShape ⟨first.toCollected, rest.map Way.toCollected⟩).shape = some inner ↔
      (first :: rest).flatMap (fun way => way.selections) ≠ [] ∧ inner = registry.resultShape first.field.type.name
          (((first :: rest).map Way.branch).flatMap Branch.selections) := by
  have he : selections ⟨first.toCollected, rest.map Way.toCollected⟩ =
      (first :: rest).flatMap fun way => way.selections := by
    rw [selections, entries, ← map_cons (f := Way.toCollected), flatMap_map]
  rw [shapeKey, he, flatMap_map]
  cases hs : (first :: rest).flatMap fun way => way.selections with
  | nil => simp
  | cons a as =>
    simp only [isEmpty_cons, Bool.false_eq_true, if_false, Option.some.injEq, ne_eq,
      cons_ne_nil, not_false_eq_true, true_and, eq_comm (b := inner)]
    change _ ↔ inner = registry.resultShape first.field.type.name
      ((first :: rest).flatMap fun way => way.selections)
    rw [hs]

/-! ## Runs and ways -/

section Correspondence

variable {registry} {included : Location → Bool} {type : String} {selections : List BoundSelection}
  {object : String} {branches : List Branch}

theorem exists_met_of_way {way : Way} (hw : way ∈ registry.ways object branches) (hm : met included way.conditions) :
    ∃ branch ∈ branches, met included branch.conditions := by
  obtain ⟨branch, hb, hw⟩ := mem_flatMap.mp hw
  refine ⟨branch, hb, ?_⟩
  have ha : wayAnswer way ∈ ((registry.waysFrom object false branch.conditions
      branch.selections).filter fun way => met included way.conditions).map wayAnswer :=
    mem_map_of_mem (mem_filter.mpr ⟨hw, hm⟩)
  rw [filter_waysFrom] at ha
  split_ifs at ha with h
  · exact h
  · cases ha

theorem produced_of_merged (hna : registry.Named) {parent : String}
    (he : registry.Merged type selections parent branches) (hm : ∃ branch ∈ branches, met included branch.conditions)
    (ho : object ∈ registry.possibleTypes parent) :
    registry.Produced included selections (registry.resultShape type selections) (kept included branches)
      (registry.resultShape parent (branches.flatMap Branch.selections)) object := by
  induction he generalizing object with
  | root =>
    have hk : kept included [⟨[], selections⟩] = selections := append_nil _
    rw [hk, flatMap_singleton]
    exact .root (by rwa [type_resultShape])
  | @field parent above key branches first rest hpa ha hw hbe ih =>
    obtain ⟨branch, hb, hm⟩ := hm
    obtain ⟨way, hwa, rfl⟩ := mem_map.mp hb
    rw [← hw] at hwa
    have hp := ih (exists_met_of_way (mem_of_mem_filter hwa) hm) ha
    have hke : first.field.responseKey = key := by
      have : first ∈ registry.waysTo above branches key := by rw [hw]; exact mem_cons_self
      simpa using (mem_filter.mp this).2
    rw [← hke] at hw hwa
    set below := shapeKey registry.resultShape ⟨first.toCollected, rest.map Way.toCollected⟩
    have hf : (registry.resultShape parent (branches.flatMap Branch.selections)).Describes above below :=
      (registry.describes_resultShape hna ha _ _).mpr
        (registry.mem_objectKeys_iff.mpr ⟨first, rest, hw, rfl⟩)
    have han := (registry.mem_keys_answer_kept included).mpr ⟨way, hwa, hm⟩
    have hn := Produced.field hp hf han
      ((registry.shapeKey_shape _).mpr ⟨hbe, rfl⟩) (by rwa [type_resultShape])
    rw [merged_answer_kept] at hn
    change registry.Produced included _ _
      (kept included ((registry.waysTo above branches first.field.responseKey).map Way.branch)) _ _ at hn
    rwa [hw] at hn

theorem merged_of_produced (hn : registry.Named) {kept' : List BoundSelection} {shape : ResultShape}
    (h : registry.Produced included selections (registry.resultShape type selections) kept' shape object) :
    ∃ parent branches, registry.Merged type selections parent branches ∧
      (∃ branch ∈ branches, met included branch.conditions) ∧
      object ∈ registry.possibleTypes parent ∧ kept' = kept included branches ∧
      shape = registry.resultShape parent (branches.flatMap Branch.selections) := by
  induction h with
  | root ho =>
    rw [type_resultShape] at ho
    exact ⟨type, _, .root, ⟨_, mem_singleton_self _, rfl⟩, ho, (append_nil _).symm,
      by rw [flatMap_singleton]⟩
  | @field _ _ inner above below field _ hf hk hs hb ih =>
    obtain ⟨parent, branches, hm, -, ha, rfl, rfl⟩ := ih
    obtain ⟨first, rest, hw, rfl⟩ :=
      registry.mem_objectKeys_iff.mp ((registry.describes_resultShape hn ha _ _).mp hf)
    obtain ⟨he, rfl⟩ := (registry.shapeKey_shape inner).mp hs
    obtain ⟨way, hwa, hme⟩ := (registry.mem_keys_answer_kept included).mp hk
    refine ⟨_, _, .field hm ha hw he, ?_, ?_, ?_, rfl⟩
    · rw [hw] at hwa
      exact ⟨way.branch, mem_map_of_mem hwa, hme⟩
    · rwa [type_resultShape] at hb
    · rw [merged_answer_kept, hw]

end Correspondence

end Registry

/-! ## The equivalence -/

/-- **An operation is safe exactly if the conditions of its selections are covered.** -/
theorem nullSafe_iff_conditionsCovered (sources : List Source) (operation : BoundOperation)
    (h : operation ∈ (analyze sources).operations) : operation.NullSafe (analyze sources).registry ↔
      (analyze sources).registry.ConditionsCovered operation.root operation.selections := by
  have hnamed : (analyze sources).registry.Named :=
    registry_of_passed (passed_of_mem_operations h) ▸ named_registry sources
  rw [BoundOperation.NullSafe, shape_of_mem_operations h]
  constructor
  · intro hsafe parent branches hmerged object hobject key first rest hways hnonNull hlocal branch hbranch
    -- the run that includes what the selection set needs and nothing else
    have hmet : Registry.met (fun place => branch.conditions.contains place) branch.conditions := by
      simp [Registry.met]
    have hproduced := Registry.produced_of_merged hnamed hmerged ⟨branch, hbranch, hmet⟩ hobject
    have hkey : first.field.responseKey = key := by
      have : first ∈ (analyze sources).registry.waysTo object branches key := by
        rw [hways]; exact mem_cons_self
      simpa using (mem_filter.mp this).2
    rw [← hkey] at hways
    have hfield := (Registry.describes_resultShape _ hnamed hobject _ _).mpr
      ((Registry.mem_objectKeys_iff _).mpr ⟨first, rest, hways, rfl⟩)
    have hanswered := hsafe _ _ _ _ hproduced _ hfield
      (FieldGroup.isNonNull_type.mpr ⟨hnonNull, ?_⟩)
    · obtain ⟨way, hway, hmet⟩ := (Registry.mem_keys_answer_kept _ _).mp hanswered
      change way ∈ (analyze sources).registry.waysTo object branches first.field.responseKey at hway
      rw [hways] at hway
      refine ⟨way, hway, fun place hplace => ?_⟩
      simpa using all_eq_true.mp hmet place hplace
    · obtain ⟨way, hway, hlocal⟩ := hlocal
      exact ⟨way.toCollected, mem_map_of_mem (f := Way.toCollected) hway, hlocal⟩
  · intro hcovered included selections shape object hproduced field hfield hnonNull
    obtain ⟨parent, branches, hmerged, ⟨branch, hbranch, hmet⟩, hobject, rfl, rfl⟩ :=
      Registry.merged_of_produced hnamed hproduced
    obtain ⟨first, rest, hways, rfl⟩ := (Registry.mem_objectKeys_iff _).mp
      ((Registry.describes_resultShape _ hnamed hobject _ _).mp hfield)
    obtain ⟨hfirst, entry, hentry, hlocal⟩ := FieldGroup.isNonNull_type.mp hnonNull
    obtain ⟨way, hway, rfl⟩ := mem_map.mp
      (show entry ∈ (first :: rest).map Way.toCollected from hentry)
    obtain ⟨other, hother, hsub⟩ := hcovered parent branches hmerged object hobject _ first rest hways
      hfirst ⟨way, hway, hlocal⟩ branch hbranch
    refine (Registry.mem_keys_answer_kept _ _).mpr ⟨other, by rwa [hways], ?_⟩
    exact all_eq_true.mpr fun place hplace => all_eq_true.mp hmet place (hsub hplace)

/-- A conditional field with a selection set, merged with an unconditional one. -/
def mergedConditionSources : List Source :=
  Source.number [("schema.graphql", "type Query \x7b b: Query a: Int! \x7d"), ("query.graphql",
      "query Q($x: Boolean!) \x7b b \x7b __typename \x7d b @include(if: $x) \x7b a \x7d \x7d")]

theorem nullSafe_iff_conditionsCovered_merged : ∃ operation ∈ (analyze mergedConditionSources).operations,
      (operation.NullSafe (analyze mergedConditionSources).registry ↔
        (analyze mergedConditionSources).registry.ConditionsCovered operation.root operation.selections) := by
  have hbound : 0 < (analyze mergedConditionSources).operations.length := by decide +kernel
  have hmem := get_mem (analyze mergedConditionSources).operations ⟨0, hbound⟩
  exact ⟨_, hmem, nullSafe_iff_conditionsCovered mergedConditionSources _ hmem⟩

/-- **An accepted operation need not be safe.** The run without `a` answers `b` with an object that
lacks `a`, but the shape has `a` without null. -/
theorem not_nullSafe_of_merged_selections : (analyze mergedConditionSources).isOk ∧
      ∃ operation ∈ (analyze mergedConditionSources).operations,
        ¬ operation.NullSafe (analyze mergedConditionSources).registry := by
  refine ⟨by decide +kernel, ?_⟩
  have hrun : ∃ operation ∈ (analyze mergedConditionSources).operations,
      "Query" ∈ (analyze mergedConditionSources).registry.possibleTypes operation.shape.type ∧
      ∃ field ∈ operation.shape.fields,
        field.key ∈ ((analyze mergedConditionSources).registry.answer (fun _ => false) "Query"
          operation.selections).map Answered.key ∧
        ∃ inner ∈ field.shape.toList, "Query" ∈ (analyze mergedConditionSources).registry.possibleTypes inner.type ∧
          ∃ below ∈ inner.fields, below.type.isNonNull ∧
            below.key ∉ ((analyze mergedConditionSources).registry.answer (fun _ => false) "Query"
              (Answered.merged field.key ((analyze mergedConditionSources).registry.answer
                (fun _ => false) "Query" operation.selections))).map Answered.key := by
    decide +kernel
  obtain ⟨operation, hmem, hroot, field, hfield, hkey, inner, hinner, hobject, below, hbelow, hnonNull, habsent⟩ := hrun
  refine ⟨operation, hmem, fun hsafe => habsent ?_⟩
  exact hsafe _ _ inner "Query" (.field (.root hroot) (.inl hfield) hkey (Option.mem_toList.mp hinner)
    hobject) below (.inl hbelow) hnonNull

end GraphClient
