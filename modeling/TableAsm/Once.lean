/-! # Parts that come at most once

  The keys of a JSON object and the options of a command line may stand in
  any order, but none of them twice.
-/

namespace TableAsm

/-- Records a part that must not have been there yet. -/
def once {α : Type} (old : Option α) (new : α) : Option (Option α) :=
  if old.isSome then none else some (some new)

end TableAsm
