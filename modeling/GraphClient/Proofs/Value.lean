import GraphClient.Value

/-!
# Values and their parts

* **`Value.byParts`**: induction over values, which are parts of lists and of fields.
-/

namespace GraphClient.Value

@[induction_eliminator]
theorem byParts {motive : Value → Prop} («variable» : ∀ name, motive (.variable name))
    (int : ∀ n, motive (.int n)) (float : ∀ x, motive (.float x)) (string : ∀ text, motive (.string text))
    (boolean : ∀ b, motive (.boolean b)) (null : motive .null) (enum : ∀ name, motive (.enum name))
    (list : ∀ items, (∀ item ∈ items, motive item) → motive (.list items))
    (object : ∀ fields, (∀ field ∈ fields, motive field.2) → motive (.object fields)) (value : Value) : motive value :=
  @rec motive (fun items => ∀ item ∈ items, motive item) (fun fields => ∀ field ∈ fields, motive field.2)
    (fun field => motive field.2) «variable» int float string boolean null enum list object
    (List.forall_mem_nil _) (fun _ _ hi hr => List.forall_mem_cons.mpr ⟨hi, hr⟩)
    (List.forall_mem_nil _) (fun _ _ hf hr => List.forall_mem_cons.mpr ⟨hf, hr⟩)
    (fun _ _ hv => hv) value

end GraphClient.Value
