import GraphClient.Proofs.FrozenRegistry
import GraphClient.Proofs.Operation.Variables
import GraphClient.Proofs.TypeOrder

/-!
# Input coercion

Checking a literal against a type asks whether the literal can be read as a value of that type.
-/

namespace GraphClient

open List Value TypeRef TypeDefinition Option

/-! ## Named types -/

/-- Whether a type takes a value other than null and the objects it describes. Types that are no input types take
everything. -/
def TypeDefinition.takes (type : TypeDefinition) (value : Value) : Bool :=
  match type.body with
  | .scalar => scalarAccepts type.name value
  | .enum values =>
    match value with
    | .enum name => values.any fun entry => entry.name == name
    | _ => false
  | .inputObject _ => false
  | _ => true

theorem checkNamed_clean {reg : Registry} {value : Value} {type : TypeRef} {loc : Location} :
    (checkNamed reg value type loc).diagnostics.hasErrors = false ↔
      (reg.type? type.name).all fun defn => defn.takes value := by
  rw [checkNamed]
  cases reg.type? type.name with
  | none => exact iff_of_true rfl rfl
  | some defn =>
    rw [all_some, takes]
    dsimp only
    cases defn.body with
    | scalar => cases scalarAccepts defn.name value <;> simp [Findings.none]
    | enum vs =>
      cases value with
      | enum name => cases h : vs.any fun e => e.name == name <;> simp [h, Findings.none]
      | _ => simp
    | inputObject _ => simp
    | _ => simp [Findings.none]

/-! ## Substitution -/

section Substitution

variable {reg : Registry} {given exp : TypeRef} {value : Value} {hasDefault hasDefault' : Bool}
  {loc location' : Location}

/-- A literal that is accepted is also accepted where null is allowed at more levels. -/
theorem checkValue_covariant (h : given.isCovariant exp)
    (hc : (checkValue reg value given hasDefault loc).diagnostics.hasErrors = false) :
    (checkValue reg value exp hasDefault' location').diagnostics.hasErrors = false := by
  have hna : ∀ {value : Value} {given exp : TypeRef} {loc : Location},
      (checkNamed reg value given loc).diagnostics.hasErrors = false → given.name = exp.name →
      (checkNamed reg value exp location').diagnostics.hasErrors = false := fun hc hn => by
    rw [checkNamed_clean] at hc ⊢
    rwa [← hn]
  have hn := name_of_isCovariant h
  induction value generalizing given exp hasDefault hasDefault' loc with
  | «variable» name => rfl
  | null =>
    rw [checkValue] at hc ⊢
    cases he : exp.isNonNull with
    | false => rfl
    | true => simp [(inner_of_isCovariant h).1 he] at hc
  | list items ih =>
    rw [checkValue] at hc ⊢
    rcases (inner_of_isCovariant h).2.2 with ⟨hg, he⟩ | ⟨inner, inner', hg, he, hin⟩
    · simp only [hg, he] at hc ⊢
      exact hna hc hn
    · simp only [hg, he, checkItems_eq, Findings.hasErrors_all] at hc ⊢
      intro item hi
      have hi' := hc item hi
      rw [checkItem] at hi' ⊢
      rw [← (inner_of_isCovariant hin).2.1]
      split_ifs at hi' ⊢
      · cases hi'
      · exact ih item hi hin hi' (name_of_isCovariant hin)
  | object fields ih =>
    rw [checkValue] at hc ⊢
    rw [hn] at hc
    cases ho : reg.inputObject? exp.name with
    | none =>
      simp only [ho] at hc ⊢
      exact hna hc hn
    | some obj =>
      simp only [ho, checkFields_clean] at hc ⊢
      refine ⟨hc.1, fun field hf => ?_, hc.2.2⟩
      have hf' := hc.2.1 field hf
      rw [checkField] at hf' ⊢
      cases hinp : InputValueDefinition.find? obj.2 field.1 <;> simp only [hinp] at hf' ⊢
      · cases hf'
      · exact ih field hf (isCovariant_refl _) hf' rfl
  | int _ | float _ | string _ | boolean _ | enum _ => exact hna hc hn

/-- **What a variable can hold is accepted wherever the variable can be used.** -/
theorem checkValue_of_allowsUse (registry : Registry) (given expected : TypeRef) (value : Value)
    (hasDefault hasDefault' : Bool) (location location' : Location) (h : given.allowsUse false expected false)
    (hclean : (checkValue registry value given hasDefault location).diagnostics = []) :
    (checkValue registry value expected hasDefault' location').diagnostics = [] := by
  have hcovariant : given.isCovariant expected := by
    rw [allowsUse] at h
    split_ifs at h
    · simp at h
    · rwa [← fits_eq_isCovariant]
  rw [(checkValue_fatal registry _ _ _ _).eq_nil_iff] at hclean ⊢
  exact checkValue_covariant hcovariant hclean

/-- A list of lists of integers, none of them null, stands where some may be null. -/
theorem checkValue_of_allowsUse_lists :
    allowsUse ⟨"Int", true, [false, true]⟩ false ⟨"Int", false, [false, false]⟩ false ∧
      (checkValue .initial (.list [.list [.int 1], .null]) ⟨"Int", false, [false, false]⟩ false
        ⟨0, .empty 0⟩).diagnostics = [] :=
  ⟨by decide +kernel, checkValue_of_allowsUse .initial ⟨"Int", true, [false, true]⟩ _ _ false false ⟨0, .empty 0⟩ _
    (by decide +kernel) (by decide)⟩

end Substitution

/-! ## Coercion -/

/-- The literals that a scalar is read from. An integer is read as a float and as an identifier, too; a scalar
that is not built in takes everything but null. -/
inductive ScalarReads : (scalar : String) → Value → Prop
  | int {n : Int} (hlow : -2147483648 ≤ n) (hhigh : n ≤ 2147483647) : ScalarReads "Int" (.int n)
  | float (x : Binary64) : ScalarReads "Float" (.float x)
  | floatOfInt (n : Int) : ScalarReads "Float" (.int n)
  | string (text : String) : ScalarReads "String" (.string text)
  | boolean (b : Bool) : ScalarReads "Boolean" (.boolean b)
  | id (text : String) : ScalarReads "ID" (.string text)
  | idOfInt (n : Int) : ScalarReads "ID" (.int n)
  | custom {name : String} {value : Value} (hcustom : name ∉ builtinScalars) (hvalue : value.isNull = false) :
    ScalarReads name value

/-- Values other than null and lists. -/
def Value.isSingle : Value → Bool
  | .null | .list _ => false
  | _ => true

def Registry.body? (registry : Registry) (name : String) : Option TypeBody :=
  (registry.type? name).map body

/-- **Input coercion**: the literals that can be read as values of a type. -/
inductive Registry.Coerces (registry : Registry) : Value → TypeRef → Prop
  | null {type : TypeRef} (hnull : type.isNonNull = false) : registry.Coerces .null type
  /-- A value stands for a list of one item, at any depth. -/
  | single {value : Value} {type element : TypeRef} (hvalue : value.isSingle) (helement : type.element = some element)
    (h : registry.Coerces value element) : registry.Coerces value type
  /-- An item does not stand for a list. -/
  | list {items : List Value} {type element : TypeRef} (helement : type.element = some element)
    (hnested : element.isList → ∀ item ∈ items, item.isSingle = false)
    (hitems : ∀ item ∈ items, registry.Coerces item element) : registry.Coerces (.list items) type
  | scalar {value : Value} {type : TypeRef} (hnamed : type.element = none)
    (hbody : registry.body? type.name = some .scalar) (hreads : ScalarReads type.name value) :
    registry.Coerces value type
  | enum {name : String} {type : TypeRef} {values : List EnumValueDefinition} (hnamed : type.element = none)
    (hbody : registry.body? type.name = some (.enum values))
    (hvalue : name ∈ values.map EnumValueDefinition.name) : registry.Coerces (.enum name) type
  | object {fields : List (String × Value)} {type : TypeRef} {inputs : List InputValueDefinition}
    (hnamed : type.element = none) (hbody : registry.body? type.name = some (.inputObject inputs))
    (hdistinct : (fields.map Prod.fst).Nodup)
    (hknown : ∀ field ∈ fields, field.1 ∈ inputs.map InputValueDefinition.name)
    (hrequired : ∀ input ∈ inputs, input.isRequired → input.name ∈ fields.map Prod.fst)
    (hfields : ∀ field ∈ fields, ∀ input ∈ inputs, input.name = field.1 → registry.Coerces field.2 input.type) :
    registry.Coerces (.object fields) type

theorem scalarReads_iff {scalar : String} {value : Value} :
    ScalarReads scalar value ↔ scalarAccepts scalar value ∧ value.isNull = false := by
  constructor
  · rintro (⟨hl, hh⟩ | _ | _ | _ | _ | _ | _ | ⟨hc, hv⟩)
    case int => exact ⟨by simp [scalarAccepts, fitsInt32]; omega, rfl⟩
    case custom =>
      simp only [builtinScalars, mem_cons, not_mem_nil, or_false, not_or] at hc
      exact ⟨by simp [scalarAccepts, hc], hv⟩
    all_goals exact ⟨rfl, rfl⟩
  · rintro ⟨ha, hv⟩
    by_cases hc : scalar ∈ builtinScalars
    · simp only [builtinScalars, mem_cons, not_mem_nil, or_false] at hc
      rcases hc with rfl | rfl | rfl | rfl | rfl <;> cases value <;>
        simp [scalarAccepts, fitsInt32] at ha
      · exact .boolean _
      · exact .floatOfInt _
      · exact .float _
      · exact .idOfInt _
      · exact .id _
      · exact .int (by omega) (by omega)
      · exact .string _
    · exact .custom hc hv

namespace Registry

variable {reg : Registry} {value : Value} {type elem : TypeRef} {inputs : List InputValueDefinition}
  {loc : Location}

/-! ### Lists -/

theorem coerces_innermost (hv : value.isSingle) (type : TypeRef) :
    reg.Coerces value type ↔ reg.Coerces value type.innermost := by
  obtain ⟨name, isNonNull, levels⟩ := type
  induction levels generalizing isNonNull with
  | nil => rfl
  | cons level rest ih =>
    have hi : reg.Coerces value ⟨name, isNonNull, level :: rest⟩ ↔ reg.Coerces value ⟨name, level, rest⟩ := by
      refine ⟨fun h => ?_, .single hv rfl⟩
      cases h <;> simp_all [isSingle, element]
    rw [hi, ih]
    simp only [innermost, getLastD_cons]

theorem coerces_list {items : List Value} (he : type.element = some elem) : reg.Coerces (.list items) type ↔
      ∀ item ∈ items, (elem.isList → item.isSingle = false) ∧ reg.Coerces item elem := by
  refine ⟨fun h => ?_, fun h => .list he (fun hl item hi => (h item hi).1 hl) fun item hi => (h item hi).2⟩
  cases h <;> simp_all [isSingle]

theorem name_of_element (h : type.element = some elem) : elem.name = type.name := by
  obtain ⟨name, isNonNull, _ | _⟩ := type <;> cases h
  rfl

/-! ### Objects -/

theorem coerces_object {fs : List (String × Value)} (hn : type.element = none)
    (hb : reg.body? type.name = some (.inputObject inputs)) : reg.Coerces (.object fs) type ↔ (fs.map Prod.fst).Nodup ∧
      (∀ f ∈ fs, f.1 ∈ inputs.map InputValueDefinition.name ∧
        ∀ input ∈ inputs, input.name = f.1 → reg.Coerces f.2 input.type) ∧
      ∀ input ∈ inputs, input.isRequired → input.name ∈ fs.map Prod.fst := by
  refine ⟨fun h => ?_, fun h => .object hn hb h.1 (fun f hf => (h.2.1 f hf).1) h.2.2 fun f hf => (h.2.1 f hf).2⟩
  cases h <;> simp_all
  grind

variable {owner name : String}

theorem checkField_clean {f : String × Value} (hd : (inputs.map InputValueDefinition.name).Nodup) :
    (checkField reg owner inputs loc f).diagnostics.hasErrors = false ↔
      f.1 ∈ inputs.map InputValueDefinition.name ∧ ∀ input ∈ inputs, input.name = f.1 →
        (checkValue reg f.2 input.type input.defaultValue.isSome loc).diagnostics.hasErrors = false := by
  rw [checkField]
  cases hf : InputValueDefinition.find? inputs f.1 with
  | none =>
    refine iff_of_false (by simp) fun h => ?_
    obtain ⟨input, hi, hn⟩ := mem_map.mp h.1
    exact absurd hn (by simpa using find?_eq_none.mp hf input hi)
  | some input =>
    have hm := mem_of_find?_eq_some hf
    have hn := name_of_find? hf
    refine ⟨fun h => ⟨hn ▸ mem_map_of_mem hm, fun other ho hs => ?_⟩, fun h => h.2 input hm hn⟩
    rwa [inj_on_of_nodup_map hd ho hm (hs.trans hn.symm)]

theorem inputObject?_some (h : reg.inputObject? name = some (owner, inputs)) :
    reg.body? name = some (.inputObject inputs) := by
  rw [body?]
  rw [inputObject?] at h
  grind

theorem inputObject?_none (h : reg.inputObject? name = none) : reg.kind? name ≠ some .inputObject := by
  rw [inputObject?] at h
  rw [kind?]
  cases ht : reg.type? name with
  | none => simp
  | some type =>
    rw [map_some, kind]
    cases hb : type.body <;> simp_all [TypeBody.kind]

namespace Valid

variable (h : reg.Valid)

include h

theorem inputs_of_body {name : String} (hb : reg.body? name = some (.inputObject inputs)) :
    reg.InputsWellFormed inputs := by
  obtain ⟨defn, ht, hd⟩ := map_eq_some_iff.mp hb
  have hf := h.wellFormed.types defn ((mem_values h.named).mpr ⟨name, ht⟩)
  rw [hd] at hf
  exact hf.2

/-! ### Named types -/

theorem checkNamed_iff (hn : type.element = none) (hi : reg.HasKind TypeKind.isInput type.name)
    (hu : value.isNull = false) (ho : ∀ fs, value = .object fs → reg.kind? type.name ≠ some .inputObject) :
    (checkNamed reg value type loc).diagnostics.hasErrors = false ↔ reg.Coerces value type := by
  obtain ⟨kind, hk, ha⟩ := hi
  obtain ⟨defn, hy, rfl⟩ := map_eq_some_iff.mp hk
  rw [hk, kind] at ho
  rw [kind] at ha
  rw [checkNamed_clean, hy, all_some, takes, h.named.name_eq hy]
  have hb : reg.body? type.name = some defn.body := by rw [body?, hy]; rfl
  cases hd : defn.body <;> rw [hd] at hb ha ho <;> try cases ha
  case scalar =>
    have hr : scalarAccepts type.name value ↔ ScalarReads type.name value := by
      rw [scalarReads_iff, and_iff_left hu]
    rw [hr]
    refine ⟨.scalar hn hb, fun hc => ?_⟩
    cases hc <;> simp_all [isNull]
  case «enum» vs =>
    refine ⟨fun ht => ?_, fun hc => ?_⟩
    · cases value with
      | enum name => exact .enum hn hb (by simpa using ht)
      | _ => cases ht
    · cases hc <;> simp_all [isNull]
  case inputObject inputs =>
    refine ⟨fun ht => ?_, fun hc => ?_⟩
    · cases ht
    · cases hc <;> simp_all [isNull, TypeBody.kind]

/-- A literal without variables is accepted if it coerces, and not otherwise. -/
theorem checkValue_clean {hasDefault : Bool} (hl : value.variables = []) (hi : reg.HasKind TypeKind.isInput type.name) :
    (checkValue reg value type hasDefault loc).diagnostics.hasErrors = false ↔ reg.Coerces value type := by
  induction value generalizing type hasDefault loc with
  | «variable» name => cases hl
  | null =>
    rw [checkValue]
    cases hu : type.isNonNull with
    | false => exact iff_of_true rfl (.null hu)
    | true =>
      refine iff_of_false (by simp) fun hc => ?_
      cases hc <;> simp_all [Value.isSingle, scalarReads_iff, Value.isNull]
  | list items ih =>
    rw [checkValue]
    cases he : type.element with
    | none => exact h.checkNamed_iff he hi rfl fun _ hli => by cases hli
    | some elem =>
      dsimp only
      rw [checkItems_eq, Findings.hasErrors_all, coerces_list he]
      refine forall₂_congr fun item ht => ?_
      rw [Value.variables, Value.itemVariables_eq, flatMap_eq_nil_iff] at hl
      have hv := hl item ht
      have hn : canNest item = !item.isSingle := by cases item <;> first | rfl | cases hv
      rw [← name_of_element he] at hi
      rw [← @ih item ht elem loc false hv hi, checkItem, hn]
      cases elem.isList <;> cases item.isSingle <;> simp
  | object fields ih =>
    rw [checkValue, coerces_innermost rfl]
    cases ho : reg.inputObject? type.name with
    | none => exact h.checkNamed_iff rfl hi rfl fun _ _ => inputObject?_none ho
    | some obj =>
      have hb : reg.body? type.innermost.name = some (.inputObject obj.2) := inputObject?_some ho
      have hin := h.inputs_of_body hb
      rw [Value.variables, Value.fieldVariables_eq, flatMap_eq_nil_iff] at hl
      rw [coerces_object rfl hb]
      refine (checkFields_clean reg).trans ?_
      refine and_congr_right fun _ => and_congr_left fun _ => forall₂_congr fun field hf => ?_
      rw [checkField_clean hin.distinct]
      refine and_congr_right fun _ => forall₂_congr fun input hi => imp_congr_right fun _ => ?_
      exact ih field hf (hl field hf) (hin.kinds input hi)
  | int _ | float _ | string _ | boolean _ | enum _ =>
    rw [coerces_innermost rfl]
    exact h.checkNamed_iff rfl hi rfl fun _ ho => by cases ho

end Valid

end Registry

/-- **A literal is accepted exactly if it coerces**, by the registry of a run that gets past the schema. -/
theorem checkValue_eq_nil_iff (sources : List Source) (hids : ∀ source ∈ sources, source.id ≠ Location.builtinSource)
    (hfrozen : (analyze sources).registry.isFrozen) (value : Value) (hliteral : value.variables = [])
    (type : TypeRef) (hinput : (analyze sources).registry.HasKind TypeKind.isInput type.name) (hasDefault : Bool)
    (location : Location) : (checkValue (analyze sources).registry value type hasDefault location).diagnostics = [] ↔
      (analyze sources).registry.Coerces value type := by
  have hpassed := isFrozen_iff.mp hfrozen
  have hvalid : (analyze sources).registry.Valid := by
    rw [registry_of_passed hpassed]
    exact valid_of_passed hids hpassed
  exact (checkValue_fatal _ _ _ _ _).eq_nil_iff.trans (hvalid.checkValue_clean hliteral hinput)

def nestedInput : List Source :=
  Source.number [("a", "input In\x7bn:Int c:C=R\x7denum C\x7bR\x7dtype Query\x7bf:Int\x7d")]

/-- An input object stands for a list of one. -/
theorem checkValue_eq_nil_iff_nested : (∀ source ∈ nestedInput, source.id ≠ Location.builtinSource) ∧
      (analyze nestedInput).registry.isFrozen ∧ (analyze nestedInput).registry.HasKind TypeKind.isInput "In" ∧
      (analyze nestedInput).registry.Coerces (.object [("n", .null), ("c", .enum "R")]) ⟨"In", true, [true]⟩ := by
  have hids : ∀ source ∈ nestedInput, source.id ≠ Location.builtinSource := by decide
  obtain ⟨hfrozen, hkind, hclean⟩ : (analyze nestedInput).registry.isFrozen ∧
      (analyze nestedInput).registry.kind? "In" = some .inputObject ∧
      (checkValue (analyze nestedInput).registry (.object [("n", .null), ("c", .enum "R")]) ⟨"In", true, [true]⟩ false
        ⟨0, .empty 0⟩).diagnostics = [] := by
    decide +kernel
  have hinput : (analyze nestedInput).registry.HasKind TypeKind.isInput "In" := ⟨.inputObject, hkind, rfl⟩
  exact ⟨hids, hfrozen, hinput, (checkValue_eq_nil_iff nestedInput hids hfrozen _ rfl _ hinput _ _).mp hclean⟩

end GraphClient
