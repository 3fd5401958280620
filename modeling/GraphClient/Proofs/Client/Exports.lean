import GraphClient.Proofs.Client.ResponseTypes
import GraphClient.Proofs.Client.TypeScriptExports

/-!
# Names across the files of a TypeScript client

The index of a TypeScript client exports what every file exports. The names of types are taken from one
stock, so they never clash. The names of functions are made from them by prefixes and by a change of letter
case, and nobody looks whether they are free.
-/

namespace GraphClient

open List TypeScript PlannedFile TypeScript.Module Declaration TypeBody Text
open Text (isWord isWord_append isWord_of_isName)
open TypeScript (exportedNames supportLines supportTypes supportFunctions)

/-! ## The exports of a file -/

namespace PlannedFile

def module (target : Target) (fragments : NameMap BoundFragment) : PlannedFile → Module
  | .type definition => typeModule target definition
  | .operation definition root plans =>
    operationModule target definition (definition.document fragments) root plans

def declared : PlannedFile → List String
  | .type definition => (Declaration.type definition).names
  | .operation definition _ plans =>
    [definition.name ++ "Variables", definition.name ++ "Document"] ++ plans.map ShapePlan.name

def decoded : PlannedFile → List String
  | .type definition => if definition.kind = .scalar ∨ definition.kind = .enum then [definition.name] else []
  | .operation definition _ plans => definition.name :: plans.map ShapePlan.name

def encoded : PlannedFile → List String
  | .type definition =>
    if definition.kind = .scalar ∨ definition.kind = .inputObject then [definition.name] else []
  | .operation _ _ _ => []

def requests : PlannedFile → List String
  | .type _ => []
  | .operation definition _ _ => [camelCase definition.name ++ "Request"]

def functions (file : PlannedFile) : List String :=
  file.decoded.map ("decode" ++ ·) ++ file.encoded.map ("encode" ++ ·) ++ file.requests

def stock (file : PlannedFile) : List String := file.declaration.names ++ file.planNames

variable {file : PlannedFile} {target : Target} {frags : NameMap BoundFragment} {name : String}

theorem mem_functions : name ∈ file.functions ↔ (∃ type ∈ file.decoded, name = "decode" ++ type) ∨
    (∃ type ∈ file.encoded, name = "encode" ++ type) ∨ name ∈ file.requests := by
  simp [functions, eq_comm]

variable (definition : BoundOperation)

theorem stock_operation (root : String) (plans : List ShapePlan) :
    (operation definition root plans).stock = definition.name :: (operation definition root plans).declared := rfl

theorem declared_subset : file.declared ⊆ file.stock := by
  cases file with
  | type definition => exact subset_append_left _ _
  | operation definition root plans => exact subset_cons_self _ _

theorem name_mem_declared (definition : TypeDefinition) : definition.name ∈ (type definition).declared := by
  rw [declared, names]
  cases definition.kind <;> simp [name]

theorem name_mem_stock (definition : TypeDefinition) : definition.name ∈ (type definition).stock :=
  declared_subset (name_mem_declared definition)

theorem decoded_subset : file.decoded ⊆ file.stock := by
  cases file with
  | type definition =>
    rw [decoded]
    split_ifs
    · exact cons_subset.mpr ⟨name_mem_stock definition, nil_subset _⟩
    · exact nil_subset _
  | operation definition root plans =>
    rw [stock_operation]
    exact cons_subset_cons _ (subset_append_right [_, _] _)

theorem encoded_subset : file.encoded ⊆ file.stock := by
  cases file with
  | type definition =>
    rw [encoded]
    split_ifs
    · exact cons_subset.mpr ⟨name_mem_stock definition, nil_subset _⟩
    · exact nil_subset _
  | operation definition root plans => exact nil_subset _

theorem exports_planModule (plan : ShapePlan) :
    (planModule target plan).exports = [plan.name, "decode" ++ plan.name] := by
  cases plan <;> rfl

theorem exports_abstractModule (doc : Doc) (definition : TypeDefinition) :
    (abstractModule target doc definition).exports = [definition.name] := by
  simp only [abstractModule]
  split_ifs
  · split <;> rfl
  · rfl

theorem exports_variablesItem : (variablesItem target definition).name = definition.name ++ "Variables" := by
  unfold variablesItem
  split_ifs <;> rfl

theorem exports_operationModule (doc root : String) (plans : List ShapePlan) :
    (operationModule target definition doc root plans).exports =
      [definition.name ++ "Document", definition.name ++ "Variables"] ++
        plans.flatMap (fun plan => [plan.name, "decode" ++ plan.name]) ++
        [camelCase definition.name ++ "Request", "decode" ++ definition.name] := by
  have hp : ((plans.map (planModule target)).flatMap TypeScript.Module.sections).flatten.map
      Item.name = plans.flatMap fun plan => [plan.name, "decode" ++ plan.name] := by
    induction plans with
    | nil => rfl
    | cons plan rest ih =>
      rw [map_cons, flatMap_cons, flatten_append, map_append, ih, flatMap_cons]
      exact congrArg (· ++ _) (exports_planModule plan)
  unfold operationModule exports
  simp only [flatten_append, map_append, hp, flatten_cons, flatten_nil, map_cons,
    map_nil, cons_append, nil_append, exports_variablesItem]
  rfl

/-- **The exports of a file**: declared names and functions. -/
theorem mem_exports : name ∈ (file.module target frags).exports ↔ name ∈ file.declared ∨ name ∈ file.functions := by
  cases file with
  | type definition =>
    rw [mem_functions, module, declared, names, decoded, encoded, requests, TypeDefinition.kind]
    unfold typeModule
    cases definition.body with
    | scalar =>
      cases target.scalar? definition.name with
      | none =>
        simp [jsonScalar, exports, scalarFunctions, Item.name, kind, Declaration.name]
      | some scalar =>
        cases scalar <;> simp [mappedScalar, jsonScalar, exports, scalarFunctions, Item.name, kind, Declaration.name]
    | enum vals =>
      simp [enumModule, exports, Item.name, kind, Declaration.name]
      tauto
    | object ifaces fields =>
      simp [objectModule, exports, Item.name, kind, Declaration.name]
    | interface ifaces fields | union members =>
      simp [exports_abstractModule, kind, Declaration.name]
    | inputObject fields =>
      simp [inputModule, exports, Item.name, kind, Declaration.name, or_assoc]
  | operation definition root plans =>
    rw [mem_functions, module, exports_operationModule, declared, decoded, encoded, requests]
    simp only [mem_cons, mem_append, mem_flatMap, mem_map, not_mem_nil, or_false, false_and,
      exists_false, exists_eq_or_imp]
    grind

theorem isWord_of_mem_exports (hs : ∀ name ∈ file.stock, isWord name) :
    ∀ name ∈ (file.module target frags).exports, isWord name := by
  intro name hn
  have hm : ∀ start other : String, isWord start → other ∈ file.stock → isWord (start ++ other) := by
    intro start other hst ho
    rw [isWord_append, hst, hs other ho]
    rfl
  rcases mem_exports.mp hn with hd | hf
  · exact hs name (declared_subset hd)
  rcases mem_functions.mp hf with ⟨type, ht, rfl⟩ | ⟨type, ht, rfl⟩ | hr
  · exact hm _ _ (by decide) (decoded_subset ht)
  · exact hm _ _ (by decide) (encoded_subset ht)
  · cases file with
    | type definition => cases hr
    | operation definition root plans =>
      obtain rfl := mem_singleton.mp hr
      have hn : isWord definition.name := hs _ mem_cons_self
      rw [isWord_append, isWord_camelCase hn]
      decide

theorem endsName_module : ∀ item ∈ (file.module target frags).sections.flatten, item.EndsName := by
  have hc : isNamePart ':' = false := rfl
  cases file with
  | type definition =>
    rw [module]
    unfold typeModule
    cases definition.body with
    | scalar =>
      cases target.scalar? definition.name with
      | none =>
        simp [jsonScalar, scalarFunctions, Item.EndsName, hc]
      | some scalar =>
        cases scalar <;> simp [mappedScalar, jsonScalar, scalarFunctions, Item.EndsName, hc]
    | enum vals => simp [enumModule, Item.EndsName, hc]
    | object ifaces fields => simp [objectModule, Item.EndsName]
    | interface ifaces fields | union members =>
      simp only [abstractModule]
      split_ifs
      · split <;> simp [Item.EndsName]
      · simp [Item.EndsName]
    | inputObject fields => simp [inputModule, Item.EndsName]
  | operation definition root plans =>
    have hl : ∀ plan, ∀ item ∈ (planModule target plan).sections.flatten, item.EndsName := by
      intro plan
      cases plan <;> simp [planModule, objectPlanModule, unionPlanModule, Item.EndsName]
    have hv : (variablesItem target definition).EndsName := by
      rw [variablesItem]
      split_ifs <;> trivial
    have hp : ∀ item ∈ ((plans.map (planModule target)).flatMap
        TypeScript.Module.sections).flatten, item.EndsName := by
      intro item ht
      obtain ⟨items, hi, ht⟩ := mem_flatten.mp ht
      obtain ⟨part, ha, hi⟩ := mem_flatMap.mp hi
      obtain ⟨plan, -, rfl⟩ := mem_map.mp ha
      exact hl plan item (mem_flatten_of_mem hi ht)
    rw [module]
    unfold operationModule
    simp only [flatten_append, forall_mem_append]
    refine ⟨⟨?_, hp⟩, ?_⟩
    · simpa [Item.EndsName] using hv
    · simp [Item.EndsName]

/-! ## Two files -/

/-- **What has to be checked between two files**: that no name from the stock and no request function of the
first is a function of the second. -/
structure Apart (file other : PlannedFile) : Prop where
  declared : file.declared.Disjoint other.functions
  requests : file.requests.Disjoint other.functions

instance (file other : PlannedFile) : Decidable (file.Apart other) :=
  decidable_of_iff ((∀ name ∈ file.declared, name ∉ other.functions) ∧ ∀ name ∈ file.requests, name ∉ other.functions)
    ⟨fun h => ⟨fun _ hn => h.1 _ hn, fun _ hn => h.2 _ hn⟩,
      fun h => ⟨fun _ hn => h.declared hn, fun _ hn => h.requests hn⟩⟩

theorem decode_ne_encode (name other : String) : "decode" ++ name ≠ "encode" ++ other := by
  intro h
  have hc := congrArg String.toList h
  simp at hc

theorem append_injective {start name other : String} (h : start ++ name = start ++ other) : name = other := by
  have hc := congrArg String.toList h
  rw [String.toList_append, String.toList_append] at hc
  exact String.toList_injective (append_cancel_left hc)

variable {other : PlannedFile}

/-- **Files whose stocks are disjoint export different names** just if they are apart. -/
theorem disjoint_iff (hs : file.stock.Disjoint other.stock) :
    (file.declared ++ file.functions).Disjoint (other.declared ++ other.functions) ↔
      file.Apart other ∧ other.Apart file := by
  simp only [disjoint_append_left, disjoint_append_right]
  constructor
  · rintro ⟨⟨-, hd'⟩, hd, hf⟩
    have hr : file.requests ⊆ file.functions := subset_append_right _ _
    have hr' : other.requests ⊆ other.functions := subset_append_right _ _
    exact ⟨⟨hd, fun _ h => hf (hr h)⟩, fun _ h h' => hd' h' h, fun _ h h' => hf h' (hr' h)⟩
  · rintro ⟨⟨hd, hr⟩, hd', hr'⟩
    refine ⟨⟨fun _ h h' => hs (declared_subset h) (declared_subset h'), fun _ h h' => hd' h' h⟩, hd, ?_⟩
    intro name hn hn'
    -- requests are checked, and decoders and encoders are made from different names of the stock
    rcases mem_functions.mp hn with ⟨type, ht, rfl⟩ | ⟨type, ht, rfl⟩ | hre
    · rcases mem_functions.mp hn' with ⟨type', ht', he⟩ | ⟨type', ht', he⟩ | hre'
      · exact hs (decoded_subset ht) (append_injective he ▸ decoded_subset ht')
      · exact decode_ne_encode _ _ he
      · exact hr' hre' hn
    · rcases mem_functions.mp hn' with ⟨type', ht', he⟩ | ⟨type', ht', he⟩ | hre'
      · exact decode_ne_encode _ _ he.symm
      · exact hs (encoded_subset ht) (append_injective he ▸ encoded_subset ht')
      · exact hr' hre' hn
    · exact hr hre hn'

/-! ## The support file and another file -/

/-- **What has to be checked for one file**: that it declares no helper of the support file, and that it does
not make the same encoders. -/
structure ApartFromSupport (file : PlannedFile) : Prop where
  declared : file.declared.Disjoint supportFunctions
  list : "List" ∉ file.encoded
  nullable : "Nullable" ∉ file.encoded

instance (file : PlannedFile) : Decidable file.ApartFromSupport :=
  decidable_of_iff ((∀ name ∈ file.declared, name ∉ supportFunctions) ∧ "List" ∉ file.encoded ∧
    "Nullable" ∉ file.encoded)
    ⟨fun h => ⟨fun _ hn => h.1 _ hn, h.2.1, h.2.2⟩, fun h => ⟨fun _ hn => h.declared hn, h.list, h.nullable⟩⟩

theorem camelCase_ne {name : String} : camelCase name ++ "Request" ≠ "GraphQLRequest" := by
  intro h
  have hc : (camelCase name).toList = "GraphQL".toList := by
    rw [← append_left_inj "Request".toList, ← String.toList_append, h]
    rfl
  rw [camelCase] at hc
  cases hp : pascalChars name.toList with
  | nil => simp [hp] at hc
  | cons c rest =>
    have hf : c.toLower = 'G' := by
      simp only [hp, String.toList_ofList] at hc
      exact (List.cons.inj hc).1
    have hu := Char.isUpper_toLower_eq_false c
    rw [hf] at hu
    exact absurd hu (by decide)

/-- **A file exports other names than the support file** just if it is apart from it. -/
theorem disjoint_support_iff (hst : supportNames.Disjoint file.stock) :
    (supportTypes ++ supportFunctions).Disjoint (file.declared ++ file.functions) ↔ file.ApartFromSupport := by
  have hd : ∀ name ∈ supportTypes ++ supportFunctions, "decode".toList.isPrefixOf name.toList = false := by
    decide +kernel
  have hen : ∀ name ∈ supportTypes ++ supportFunctions, "encode".toList.isPrefixOf name.toList →
      name = "encode" ++ "List" ∨ name = "encode" ++ "Nullable" := by
    decide +kernel
  have hr : ∀ name ∈ supportTypes ++ supportFunctions, "Request".toList.isSuffixOf name.toList →
      name = "GraphQLRequest" := by
    decide +kernel
  have hty : supportTypes ⊆ supportNames := by decide +kernel
  constructor
  · intro h
    rw [disjoint_append_right] at h
    have he : ∀ name ∈ file.encoded, "encode" ++ name ∈ file.functions := fun name hn =>
      mem_functions.mpr (.inr (.inl ⟨name, hn, rfl⟩))
    refine ⟨fun _ hn hs => h.1 (mem_append_right _ hs) hn, fun hm => ?_, fun hm => ?_⟩
    · exact h.2 (by decide +kernel) (he _ hm)
    · exact h.2 (by decide +kernel) (he _ hm)
  · rintro ⟨hde, hl, hnu⟩
    rw [disjoint_append_right]
    constructor
    · intro name hn hm
      rcases mem_append.mp hn with ht | hf
      · exact hst (hty ht) (declared_subset hm)
      · exact hde hm hf
    · intro name hn hm
      rcases mem_functions.mp hm with ⟨type, ht, rfl⟩ | ⟨type, ht, rfl⟩ | hma
      · exact absurd (hd _ hn) (by simp)
      · rcases hen _ hn (by simp) with heq | heq
        · exact hl (append_injective heq ▸ ht)
        · exact hnu (append_injective heq ▸ ht)
      · cases file with
        | type definition => cases hma
        | operation definition root plans =>
          obtain rfl := mem_singleton.mp hma
          exact camelCase_ne (hr _ hn (by simp))

end PlannedFile

/-! ## Clients -/

/-- **The stock of names of a client**: no name is taken twice. -/
theorem nodup_stock {decls : List Declaration} {taken : TakenNames} (hr : reservedNames decls = .ok taken) :
    (supportNames ++ (planFiles decls taken).flatMap stock).Nodup := by
  obtain ⟨ho, hp⟩ := claims_reservedNames hr
  obtain ⟨after, hc⟩ := claims_planFiles decls taken
  generalize hf : planFiles decls taken = files at hc
  have hn : decls.flatMap names = files.flatMap fun file => file.declaration.names := by
    rw [← declaration_planFiles decls taken, hf, flatMap_map]
  refine (List.Perm.nodup_iff ?_).mp (hc.nodup ho)
  calc after.Perm (files.flatMap planNames ++ taken) := hc.perm
    _ |>.Perm (files.flatMap planNames ++ (supportNames ++ decls.flatMap names)) :=
      hp.append_left _
    _ |>.Perm (supportNames ++ files.flatMap stock) := by
      rw [hn]
      refine .trans ?_ ((flatMap_append_perm files _ planNames).append_left supportNames)
      rw [perm_iff_count]
      intro name
      simp only [count_append]
      omega

variable {srcs : List Source}

/-- **The stock of an accepted run consists of words.** -/
theorem isWord_stock (ho : (analyze srcs).isOk) {taken : TakenNames} {file : PlannedFile}
    (hf : file ∈ planFiles (analyze srcs).declarations taken) : ∀ name ∈ file.stock, isWord name := by
  have hs : ∀ name suffix : String, isWord name → isWord suffix →
      isWord (name ++ suffix) := fun name suffix hn hs => by
    rw [isWord_append, hn, hs]
    rfl
  have hd : file.declaration ∈ (analyze srcs).declarations :=
    declaration_planFiles (analyze srcs).declarations taken ▸ mem_map_of_mem hf
  cases file with
  | type definition =>
    rcases Analysis.mem_declarations.mp hd with ⟨type, ht, he⟩ | ⟨op, -, he⟩
    · cases he
      have hn := isWord_of_isName (isName_of_mem_userTypes ho ht)
      simp only [stock, planNames, plans, map_nil, append_nil, declaration, names]
      cases definition.kind <;> simp [name, hn, hs, show isWord "Values" by decide,
        show isWord "Builder" by decide]
    · cases he
  | operation definition root plans =>
    have hop := Analysis.operation_mem hd
    have hn := isWord_of_isName (isName_of_mem_operations hop)
    obtain ⟨-, before, hp⟩ := exists_planOperation hf
    obtain ⟨rfl, rfl⟩ := Prod.mk.inj hp
    have hr := before.isWord_fresh (hs _ "Result" hn (by decide))
    obtain ⟨rest, hna, hc⟩ := claims_planShape _ definition.name definition.shape
      (before.claim (definition.name ++ "Result")).2
    have hw := hc.words ⟨hr, hn, fun _ hi => named_of_contains ho hop hi⟩
    have ha : ∀ name ∈ _ :: rest, isWord name := forall_mem_cons.mpr ⟨hr, hw⟩
    rw [← hna] at ha
    refine forall_mem_append.mpr ⟨?_, ha⟩
    simp [declaration, names, name, hn, hs,
      show isWord "Variables" by decide, show isWord "Document" by decide]

/-- **What has to be checked for names not to clash.** -/
structure ClashFree (files : List PlannedFile) : Prop where
  support : ∀ file ∈ files, file.ApartFromSupport
  files : files.Pairwise fun file other => file.Apart other ∧ other.Apart file

instance (files : List PlannedFile) : Decidable (ClashFree files) :=
  decidable_of_iff ((∀ file ∈ files, file.ApartFromSupport) ∧
    files.Pairwise fun file other => file.Apart other ∧ other.Apart file)
    ⟨fun h => ⟨h.1, h.2⟩, fun h => ⟨h.support, h.files⟩⟩

/-- **When no two files of a TypeScript client export one name.** Names from the stock and decoders and
encoders never clash among themselves. What can clash, and is not checked, is a name from the stock with a
function, two request functions, a request function with a decoder or encoder, and an encoder with one of
the support file. -/
theorem exports_disjoint_iff (sources : List Source) (options : Options) {client : GeneratedClient}
    (hgenerate : generate (analyze sources) options .typeScript = .ok client) :
    ∃ taken, reservedNames (analyze sources).declarations = .ok taken ∧
      let target : Target := ⟨.typeScript, (analyze sources).registry, options⟩
      let files := planFiles (analyze sources).declarations taken
      let modules := files.map (module target (analyze sources).fragments)
      client.files.map GeneratedFile.contents = (modules.map fun file =>
            Layout.render "  "
              (.line header :: .gap :: importLines file.imports ++ [.gap]) ++
              Layout.render "  " file.body) ++
          [Layout.render "  " (.line TypeScript.header :: .gap :: supportLines.map .line),
            (target.indexFile (analyze sources).declarations).contents] ∧
        (((supportLines.map .line :: modules.map body).map exportedNames).Pairwise
          List.Disjoint ↔ ClashFree files) := by
  obtain ⟨hok, taken, hreserved, -, hfiles⟩ := generate_eq_ok hgenerate
  refine ⟨taken, hreserved, ?_, ?_⟩
  · rw [hfiles, map_append, map_map, map_map]
    refine congrArg (· ++ _) (map_congr_left fun file _ => ?_)
    cases file <;> rfl
  have hnodup := nodup_stock hreserved
  have hwords : ∀ file ∈ planFiles (analyze sources).declarations taken, ∀ name ∈ file.stock, isWord name :=
    fun _ hfile => isWord_stock hok hfile
  generalize planFiles (analyze sources).declarations taken = files at hnodup hwords
  obtain ⟨-, hstocks, hsupport⟩ := nodup_append.mp hnodup
  have hpairs := (nodup_flatMap.mp hstocks).2
  have hexports : ∀ file ∈ files, ∀ name,
      name ∈ exportedNames (file.module ⟨.typeScript, (analyze sources).registry, options⟩
          (analyze sources).fragments).body ↔ name ∈ file.declared ++ file.functions := by
    intro file hfile name
    rw [exportedNames_body (isWord_of_mem_exports (hwords file hfile))
      endsName_module, mem_exports, mem_append]
  have hfirst : ∀ file ∈ files, ((exportedNames (supportLines.map .line)).Disjoint
      (exportedNames (file.module ⟨.typeScript, (analyze sources).registry, options⟩
        (analyze sources).fragments).body) ↔ file.ApartFromSupport) := by
    intro file hfile
    rw [← disjoint_support_iff, exportedNames_support]
    · simp only [List.Disjoint, hexports file hfile]
    · exact fun name hname hstock => hsupport name hname name (mem_flatMap.mpr ⟨file, hfile, hstock⟩) rfl
  simp only [map_cons, map_map, pairwise_cons, pairwise_map, forall_mem_map, Function.comp_apply]
  constructor
  · rintro ⟨hsupports, hfiles⟩
    refine ⟨fun file hfile => (hfirst file hfile).mp (hsupports file hfile), ?_⟩
    refine (hfiles.and hpairs).imp_of_mem fun hfile hother h => ?_
    rw [← disjoint_iff h.2]
    simpa only [List.Disjoint, hexports _ hfile, hexports _ hother] using h.1
  · rintro ⟨hsupports, hfiles⟩
    refine ⟨fun file hfile => (hfirst file hfile).mpr (hsupports file hfile), ?_⟩
    refine (hfiles.and hpairs).imp_of_mem fun hfile hother h => ?_
    have hdisjoint := (disjoint_iff h.2).mpr h.1
    simpa only [List.Disjoint, hexports _ hfile, hexports _ hother] using hdisjoint

/-- A scalar, an enum and a query. -/
def moodSources : List Source := Source.number [("mood",
  "type Query\x7ba:Mood b:Date\x7denum Mood\x7bOK\x7dscalar Date query Get\x7ba b\x7d")]

theorem exports_disjoint_mood : ∃ client taken, generate (analyze moodSources) {} .typeScript = .ok client ∧
      reservedNames (analyze moodSources).declarations = .ok taken ∧
      ((supportLines.map Layout.line :: ((planFiles (analyze moodSources).declarations taken).map
        (PlannedFile.module ⟨.typeScript, (analyze moodSources).registry, {}⟩
          (analyze moodSources).fragments)).map TypeScript.Module.body).map exportedNames).Pairwise List.Disjoint := by
  have hgenerated : (generate (analyze moodSources) {} .typeScript).isOk := by decide +kernel
  have hclashFree : (match reservedNames (analyze moodSources).declarations with
      | .ok taken => decide (ClashFree (planFiles (analyze moodSources).declarations taken))
      | .error _ => false) = true := by decide +kernel
  obtain ⟨client, hgenerate⟩ := exists_client hgenerated
  obtain ⟨taken, hreserved, -, hiff⟩ := exports_disjoint_iff moodSources {} hgenerate
  refine ⟨client, taken, hgenerate, hreserved, ?_⟩
  simp only [hreserved, decide_eq_true_eq] at hclashFree
  exact hiff.mpr hclashFree

/-- A schema with a type that is named like a helper. -/
def listSources : List Source := Source.number [("list", "type Query\x7ba:Int\x7dtype list\x7ba:Int\x7d")]

/-- **Names can clash**: the type `list` gets a file, and the support file exports `list` too. -/
theorem exports_clash_list : ∃ client taken, generate (analyze listSources) {} .typeScript = .ok client ∧
      reservedNames (analyze listSources).declarations = .ok taken ∧
      "list" ∈ exportedNames (supportLines.map .line) ∧
      ∃ file ∈ planFiles (analyze listSources).declarations taken,
        "list" ∈ exportedNames (file.module ⟨.typeScript, (analyze listSources).registry, {}⟩
          (analyze listSources).fragments).body := by
  have hgenerated : (generate (analyze listSources) {} .typeScript).isOk := by decide +kernel
  have hexported : (match reservedNames (analyze listSources).declarations with
      | .ok taken => (planFiles (analyze listSources).declarations taken).any fun file =>
        (exportedNames (file.module ⟨.typeScript, (analyze listSources).registry, {}⟩
          (analyze listSources).fragments).body).contains "list"
      | .error _ => false) = true := by decide +kernel
  obtain ⟨client, hgenerate⟩ := exists_client hgenerated
  obtain ⟨-, taken, hreserved, -⟩ := generate_eq_ok hgenerate
  refine ⟨client, taken, hgenerate, hreserved, ?_, ?_⟩
  · rw [exportedNames_support]
    decide +kernel
  · simpa only [hreserved, any_eq_true, contains_iff_mem] using hexported

end GraphClient
