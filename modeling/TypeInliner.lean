import TypeInliner.Main
import TypeInliner.Proofs.ImportedBindings
import TypeInliner.Proofs.InlineAgreement
import TypeInliner.Proofs.SourceTiling
import TypeInliner.Proofs.TokenShapes
import TypeInliner.Proofs.StatementStarts
import TypeInliner.Proofs.ImportGrammar
import TypeInliner.Proofs.ReferenceMarkers
import TypeInliner.Proofs.TokenBorders
import TypeInliner.Proofs.DeclarationParts
import TypeInliner.Proofs.MentionedTypes
import TypeInliner.Proofs.DeclarationPrecedence
import TypeInliner.Proofs.DeclarationCycles
import TypeInliner.Proofs.RemainingTokens
import TypeInliner.Proofs.ImportPrinting
import TypeInliner.Proofs.RenderedBlock
import TypeInliner.Proofs.CallInvariants
import TypeInliner.Proofs.ContextGrowth
import TypeInliner.Proofs.IntrospectorQueries
import TypeInliner.Proofs.UnreadStatements
import TypeInliner.Proofs.DeclarationStability
import TypeInliner.Proofs.ContextHistory
import TypeInliner.Proofs.StatementRanges
import TypeInliner.Proofs.DeclarationSearch
import TypeInliner.Proofs.MarkedTexts
import TypeInliner.Proofs.ExportResolution
import TypeInliner.Proofs.DeclarationStructure
import TypeInliner.Proofs.SubpathPatterns
import TypeInliner.Proofs.ExportValues
import TypeInliner.Proofs.DependencyTargets
import TypeInliner.Proofs.ReferencedFiles
import TypeInliner.Proofs.TokenSlices
import TypeInliner.Proofs.FileTrees
import TypeInliner.Proofs.FolderEntries
import TypeInliner.Proofs.FolderRuns
import TypeInliner.Proofs.ImporterPaths
import TypeInliner.Proofs.LocatedPaths
import TypeInliner.Proofs.RejoinedSpecifiers
