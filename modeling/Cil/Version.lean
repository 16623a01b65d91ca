/-!
# Version

The version under which the library goes.
-/

namespace Cil

/-- The version of the library. -/
def version : String := "0.1.0"

end Cil
