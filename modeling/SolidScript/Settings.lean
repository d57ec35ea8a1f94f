import SolidScript.Scopes

namespace SolidScript

/-- The settings of a run. -/
structure Settings where
  builtins : List Builtin
  presets : Names Float

/-- All modules, and no variables. -/
def Settings.standard : Settings := ⟨Builtin.all, []⟩

end SolidScript
