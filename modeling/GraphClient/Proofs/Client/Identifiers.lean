import GraphClient.Proofs.Client.Members

/-!
# Identifiers of Rust clients

Names of the schema become identifiers of Rust. Words of the language are marked on the way, but not those that
are only set aside, and neither a lone underscore nor a digit in front is looked for.
-/

namespace GraphClient.Rust

open List Text Char
open Text (isName isNameStart isNamePart isWord isWord_of_isName)

/-- The words that the language keeps for itself: those in use, then those set aside for later. -/
def languageWords : List String :=
  ["as", "async", "await", "break", "const", "continue", "crate", "dyn", "else", "enum", "extern", "false", "fn",
    "for", "if", "impl", "in", "let", "loop", "match", "mod", "move", "mut", "pub", "ref", "return", "self", "Self",
    "static", "struct", "super", "trait", "true", "type", "unsafe", "use", "where", "while",
    "abstract", "become", "box", "do", "final", "macro", "override", "priv", "try", "typeof", "unsized", "virtual",
    "yield"]

/-- **An identifier**: a name, but neither an underscore alone nor a word of the language. A raw one can be any
such word but those of paths. -/
def isIdentifier (text : String) : Bool :=
  match text.toList with
  | 'r' :: '#' :: word =>
    isName (String.ofList word) && word != ['_'] && !pathWords.contains (String.ofList word)
  | _ => isName text && text != "_" && !languageWords.contains text

/-- The words of the language that are not marked. -/
def unmarkedWords : List String :=
  ["abstract", "become", "do", "final", "macro", "override", "priv", "typeof", "unsized", "virtual"]

variable {word name : String}

theorem isIdentifier_of_isWord (h : isWord word) :
    isIdentifier word ↔ isName word ∧ word ≠ "_" ∧ word ∉ languageWords := by
  have hs : isIdentifier word = (isName word && word != "_" && !languageWords.contains word) := by
    rw [isIdentifier]
    split
    · next he =>
      rw [isWord, he] at h
      exact absurd h (by simp [show isNamePart '#' = false by decide])
    · rfl
  simp [hs, and_assoc]

/-- **Which words become identifiers**: names other than an underscore alone and the words that are not marked. -/
theorem isIdentifier_identifier (h : isWord word) :
    isIdentifier (identifier word) ↔ isName word ∧ word ≠ "_" ∧ word ∉ unmarkedWords := by
  have hm : ∀ w ∈ pathWords ++ keywords,
      isIdentifier (identifier w) ∧ isName w ∧ w ≠ "_" ∧ w ∉ unmarkedWords := by decide +kernel
  have hl : ∀ w ∈ languageWords, w ∈ pathWords ++ keywords ∨ w ∈ unmarkedWords := by decide +kernel
  have hu : ∀ w ∈ unmarkedWords, w ∈ languageWords := by decide +kernel
  by_cases hw : word ∈ pathWords ++ keywords
  · exact iff_of_true (hm word hw).1 (hm word hw).2
  · obtain ⟨hp, hk⟩ := not_or.mp (mem_append.not.mp hw)
    have hi : identifier word = word := by simp [identifier, hp, hk]
    rw [hi, isIdentifier_of_isWord h]
    refine and_congr_right fun _ => and_congr_right fun _ => not_congr ⟨fun hm => ?_, hu word⟩
    exact (hl word hm).resolve_left hw

variable {c : Char}

theorem toLower_eq_underscore : c.toLower = '_' ↔ c = '_' := toLower_eq_iff (by decide)

theorem toUpper_eq_underscore : c.toUpper = '_' ↔ c = '_' := by
  rw [← toLower_eq_underscore, toLower_toUpper_eq_toLower, toLower_eq_underscore]

theorem isNameStart_iff : isNameStart c ↔ c.isAlpha ∨ c = '_' := by simp [isNameStart]

theorem isName_iff (h : isWord word) : isName word ↔ word.toList.head?.any isNameStart := by
  rw [isWord] at h
  rw [isName]
  cases hw : word.toList with
  | nil => rfl
  | cons c rest =>
    rw [hw, all_cons, Bool.and_eq_true] at h
    simp [h.2]

theorem snakeChars_cons (c : Char) (rest : List Char) :
    snakeChars none (c :: rest) = c.toLower :: snakeChars (some c) rest := by
  rw [snakeChars]
  cases hu : c.isUpper with
  | true => rfl
  | false => simp [toLower_eq_of_not_isUpper, hu]

theorem snakeChars_eq_nil {before : Option Char} {cs : List Char} : snakeChars before cs = [] ↔ cs = [] := by
  cases cs with
  | nil => simp [snakeChars]
  | cons c rest =>
    rw [snakeChars]
    dsimp only
    split_ifs <;> simp

/-- **A name in words is a name**, and an underscore alone only if it was one. -/
theorem isName_snakeCase (h : isName name) : isName (snakeCase name) ∧ (snakeCase name = "_" ↔ name = "_") := by
  have hw := isWord_of_isName h
  rw [isName_iff (isWord_snakeCase hw), ← String.toList_inj, ← String.toList_inj, snakeCase, String.toList_ofList]
  rw [isName_iff hw] at h
  cases hn : name.toList with
  | nil => simp [hn] at h
  | cons c rest =>
    simpa [hn, snakeChars_cons, snakeChars_eq_nil, isNameStart_iff, toLower_eq_underscore] using h

/-- The first letter of a name in capitals is its first character but underscores. -/
theorem head?_pascalChars (cs : List Char) (lowerRest : Bool) :
    ((Text.splitOn '_' cs).flatMap (capitalize lowerRest)).head? = (cs.find? (· != '_')).map toUpper := by
  induction cs with
  | nil => rfl
  | cons c rest ih =>
    rw [Text.splitOn, find?_cons]
    by_cases hc : c = '_'
    · simpa [hc, capitalize] using ih
    · have hb : (c != '_') := by simpa using hc
      rw [if_neg hc, hb]
      cases Text.splitOn '_' rest <;> rfl

/-- **Names in capitals are identifiers if a letter comes before the first digit.** -/
theorem isIdentifier_pascalCase (h : isName name) :
    isIdentifier (identifier (pascalCase name)) ↔ (name.toList.find? (· != '_')).any isAlpha := by
  have hw := isWord_pascalCase (isWord_of_isName h)
  have hh : (pascalCase name).toList.head? = (name.toList.find? (· != '_')).map toUpper := by
    rw [pascalCase, String.toList_ofList]
    exact head?_pascalChars _ _
  have hl : ∀ w ∈ unmarkedWords, w.toList.head?.any isLower := by decide +kernel
  rw [isIdentifier_identifier hw, isName_iff hw, hh]
  cases hf : name.toList.find? (· != '_') with
  | none => simp
  | some c =>
    rw [hf] at hh
    have hc : c ≠ '_' := by simpa using find?_some hf
    have hn : pascalCase name ≠ "_" := by
      intro hp
      rw [hp] at hh
      exact hc (toUpper_eq_underscore.mp (Option.some.inj hh).symm)
    have hm : pascalCase name ∉ unmarkedWords := fun hm => by simpa [hh] using hl _ hm
    simp [hn, hm, isNameStart_iff, toUpper_eq_underscore, hc]

/-- **Which names become identifiers of Rust**: as they are, as fields, as modules and as values of enums. -/
theorem identifiers_valid_iff {name : String} (h : isName name) :
    (isIdentifier (identifier name) ↔ name ≠ "_" ∧ name ∉ unmarkedWords) ∧
      (isIdentifier (fieldName name) ↔ name ≠ "_" ∧ snakeCase name ∉ unmarkedWords) ∧
      (isIdentifier (moduleName name) ↔ name ≠ "_" ∧ snakeCase name ∉ unmarkedWords) ∧
      (isIdentifier (identifier (pascalCase name)) ↔ (name.toList.find? (· != '_')).any isAlpha) := by
  have hw := isWord_of_isName h
  obtain ⟨hs, hu⟩ := isName_snakeCase h
  have hm : isIdentifier (moduleName name) ↔ name ≠ "_" ∧ snakeCase name ∉ unmarkedWords := by
    rw [moduleName, isIdentifier_identifier (isWord_snakeCase hw), ne_eq, hu]
    exact and_iff_right hs
  refine ⟨(isIdentifier_identifier hw).trans (and_iff_right h), ?_, hm, isIdentifier_pascalCase h⟩
  rw [fieldName]
  split_ifs with ht
  · subst ht
    decide +kernel
  · exact hm

theorem identifiers_valid_iff_self : isName "Self" ∧
    isIdentifier (identifier "Self") ∧ isIdentifier (fieldName "Self") ∧ isIdentifier (moduleName "Self") ∧
      isIdentifier (identifier (pascalCase "Self")) := by
  have h : isName "Self" := by decide
  obtain ⟨hi, hf, hm, hp⟩ := identifiers_valid_iff h
  exact ⟨h, hi.mpr (by decide +kernel), hf.mpr (by decide +kernel), hm.mpr (by decide +kernel),
    hp.mpr (by decide +kernel)⟩

/-- A word that is set aside, an underscore alone and a digit behind an underscore. -/
theorem final_not_isIdentifier : (isName "final" ∧ ¬isIdentifier (fieldName "final")) ∧
    (isName "_" ∧ ¬isIdentifier (fieldName "_") ∧ pascalCase "_" = "") ∧
    (isName "_1" ∧ ¬isIdentifier (identifier (pascalCase "_1"))) := by decide +kernel

end GraphClient.Rust
