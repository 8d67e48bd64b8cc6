import TypeAlias.Proofs.Diagnostics.Findings

/-!
# Reports of circularity

Once its definitions are loaded, an analysis fails for cycles if it is strict, and for nothing else.
Otherwise it reports an order just when it reports no cycles.
-/

namespace TypeAlias

open Dependencies Definitions Files

namespace Environment

end Environment

namespace Analysis

variable {guarded : Bool} {l : Location} {state : FileState} {session : Session}

end Analysis

end TypeAlias
