import GraphClient.Document.OfSyntax
import GraphClient.Operation.Bind
import GraphClient.Operation.Printer
import GraphClient.Schema.Build
import GraphClient.Schema.Validation

/-!
# Analysis

The way from texts to bound operations. Problems in the texts stop the run before a registry is built,
problems in the schema before operations are bound.
-/

namespace GraphClient

/-- All that is known about the inputs of a run. -/
structure Analysis where
  registry : Registry
  operations : List BoundOperation
  fragments : NameMap BoundFragment
  diagnostics : Diagnostics

def Analysis.isOk (analysis : Analysis) : Bool :=
  !analysis.diagnostics.hasErrors && analysis.registry.isFrozen

/-- **Checks documents that were read.** -/
def analyzeDocuments (documents : List Document) (textProblems : Diagnostics) : Analysis :=
  let (registry, problems) := Registry.build documents
  let diagnostics := textProblems ++ problems ++ registry.validate
  if diagnostics.hasErrors then ⟨registry, [], [], diagnostics.sorted⟩
  else
    let registry := registry.freeze
    let (bindings, more) := Bindings.ofDocuments registry documents
    ⟨registry, bindings.operations, bindings.fragments, .sorted (diagnostics ++ more)⟩

/-- **The analysis of a list of sources.** -/
def analyze (sources : List Source) : Analysis :=
  let (documents, textProblems) := Document.readAll sources
  if textProblems.hasErrors then ⟨.initial, [], [], textProblems.sorted⟩
  else analyzeDocuments documents textProblems

end GraphClient
