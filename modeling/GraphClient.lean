import GraphClient.Main
import GraphClient.NameTable
import GraphClient.Proofs.Client.Comments
import GraphClient.Proofs.Client.FileList
import GraphClient.Proofs.Client.FiniteTypes
import GraphClient.Proofs.Client.Identifiers
import GraphClient.Proofs.Client.Literals
import GraphClient.Proofs.DirectiveUses
import GraphClient.Proofs.DocumentOrder
import GraphClient.Proofs.InterfaceHierarchy
import GraphClient.Proofs.NumberedNames
import GraphClient.Proofs.Operation.Discrimination
import GraphClient.Proofs.Operation.FieldCalls
import GraphClient.Proofs.Operation.ResponseKeys
import GraphClient.Proofs.Operation.ShapeTypes
import GraphClient.Proofs.Project.Inputs
import GraphClient.Proofs.Project.Regeneration
import GraphClient.Proofs.ReportOrder
import GraphClient.Proofs.RootTypes
import GraphClient.Proofs.Schema.Coercion
import GraphClient.Proofs.Schema.Extensions
import GraphClient.Proofs.Schema.Growth
import GraphClient.Proofs.SchemaDescriptions
import GraphClient.Proofs.Spelling.ReadBack
import GraphClient.Proofs.Syntax.Progress
import GraphClient.Proofs.Syntax.Spacing
import GraphClient.Proofs.Text.Escapes
import GraphClient.Proofs.Text.LineColumns
