import TableAsm.Json.Printer
import TableAsm.Labels

/-! # Label export

  Labels are handed on as an array of values with their names, in the
  order of `LabelTable.sorted`.
-/

namespace TableAsm

namespace LabelTable

/-- The labels as a value. -/
def toJson (t : LabelTable) : Json :=
  .arr (t.sorted.map fun (name, value) =>
    .obj [("value", .nat value.toNat), ("name", .text name)])

/-- The text of a label file. -/
def render (t : LabelTable) : String := t.toJson.pretty

end LabelTable

end TableAsm
