import HeaderDecl.Extraction
import HeaderDecl.Tree.Model
import HeaderDecl.Tree.Unit
import HeaderDecl.Proofs.ModelEntries
import HeaderDecl.Proofs.ModelHistory
import HeaderDecl.Proofs.ModelTracking
import HeaderDecl.Proofs.ModelIndex
import HeaderDecl.Proofs.InsertionLaw
import HeaderDecl.Proofs.BracketedText
import HeaderDecl.Proofs.GrowingModel
import HeaderDecl.Proofs.PlainText
import HeaderDecl.Proofs.RepeatedMerge
import HeaderDecl.Proofs.ConditionalGroups
import HeaderDecl.Proofs.DeadText
import HeaderDecl.Proofs.GroupReading
import HeaderDecl.Proofs.NestedReading
import HeaderDecl.Proofs.GuardedSteps
import HeaderDecl.Proofs.GuardShortcut
import HeaderDecl.Proofs.ExpansionResults
import HeaderDecl.Proofs.MarkedExpansion
import HeaderDecl.Proofs.ExpansionTrace
import HeaderDecl.Proofs.DeclaredNames
import HeaderDecl.Proofs.ResolutionSteps
import HeaderDecl.Proofs.ResolvedReferences
import HeaderDecl.Proofs.ResolvedTypes
import HeaderDecl.Proofs.RegisteredNames
import HeaderDecl.Proofs.ClosedModel
import HeaderDecl.Proofs.ConditionGrammar
import HeaderDecl.Proofs.ConditionReading
import HeaderDecl.Proofs.TriviaGaps
import HeaderDecl.Proofs.TokenTiling
import HeaderDecl.Proofs.LosslessLexing
import HeaderDecl.Proofs.ParserRuns
import HeaderDecl.Proofs.WordLexing
import HeaderDecl.Proofs.DeclaratorSpelling
import HeaderDecl.Proofs.DeclaratorReading
import HeaderDecl.Proofs.SuffixReading
import HeaderDecl.Proofs.TypedefReading
import HeaderDecl.Proofs.NamedBase
import HeaderDecl.Proofs.RebasedTypes
import HeaderDecl.Proofs.NamedDeclaration
import HeaderDecl.Proofs.TypeReadings
import HeaderDecl.Proofs.RenderedTypes
import HeaderDecl.Proofs.DistinctDeclarations
import HeaderDecl.Proofs.IncludingLines
import HeaderDecl.Proofs.OpenFiles
import HeaderDecl.Proofs.ParserProgress
import HeaderDecl.Proofs.SpecifierProgress
import HeaderDecl.Proofs.DeclaratorProgress
import HeaderDecl.Proofs.TotalParsing
import HeaderDecl.Proofs.ResumedParsing
import HeaderDecl.Proofs.PlainNames
import HeaderDecl.Proofs.PlainItems
import HeaderDecl.Proofs.ImpliedInsertions
import HeaderDecl.Proofs.ImpliedByTypes
import HeaderDecl.Proofs.ResolvedVisits
import HeaderDecl.Proofs.RetainedEntries
import HeaderDecl.Proofs.CompleteModels
import HeaderDecl.Proofs.SpelledTokens
import HeaderDecl.Proofs.ParserValues
import HeaderDecl.Proofs.PlainParts
import HeaderDecl.Proofs.SpecifierValues
import HeaderDecl.Proofs.DeclaratorValues
import HeaderDecl.Proofs.PlainUnits
import HeaderDecl.Proofs.CompleteUnits
import HeaderDecl.Proofs.HarmlessReports
import HeaderDecl.Proofs.FileIsolation
import HeaderDecl.Proofs.LookedUpNames
import HeaderDecl.Proofs.ResolutionReports
import HeaderDecl.Proofs.FatalErrors
import HeaderDecl.Proofs.DeclaredMeanings
import HeaderDecl.Proofs.TypedefChains
import HeaderDecl.Proofs.BoundedTypedefs
import HeaderDecl.Proofs.SettledTerminals
import HeaderDecl.Proofs.ReorderedUnits
import HeaderDecl.Proofs.SpelledText
import HeaderDecl.Proofs.UpheldStates
import HeaderDecl.Proofs.WellFormedOutput
import HeaderDecl.Proofs.LaterStates
import HeaderDecl.Proofs.ReplayedTypes
import HeaderDecl.Proofs.InsertedForms
import HeaderDecl.Proofs.RecalledUnits
import HeaderDecl.Proofs.SpecializationLinks
import HeaderDecl.Proofs.WrittenTypes
import HeaderDecl.Proofs.ReplacedParameters
import HeaderDecl.Proofs.EchoedTypes
import HeaderDecl.Proofs.WrittenDefaults
import HeaderDecl.Proofs.MatchedArguments
import HeaderDecl.Proofs.RecordedConstants
import HeaderDecl.Proofs.MovedText
import HeaderDecl.Proofs.ConstantsInConditions
import HeaderDecl.Proofs.UnaliasedTypes
import HeaderDecl.Proofs.DenotedTypes
import HeaderDecl.Proofs.DenotedNames
import HeaderDecl.Proofs.TruthfulUnits
import HeaderDecl.Proofs.ChosenSpecializations
import HeaderDecl.Proofs.RespelledTypes
import HeaderDecl.Proofs.ParameterNames
import HeaderDecl.Proofs.RenamedParameters
import HeaderDecl.Proofs.VisitedTokens
import HeaderDecl.Proofs.MalformedText
import HeaderDecl.Proofs.ParserResults
import HeaderDecl.Proofs.DeclaredParts
import HeaderDecl.Proofs.SkippedDeclarations
import HeaderDecl.Proofs.VisitedPlaces
import HeaderDecl.Proofs.WrittenDefinitions
import HeaderDecl.Proofs.ReadDefinitions
import HeaderDecl.Proofs.KeptDefinitions
import HeaderDecl.Proofs.QueriedHeaders
import HeaderDecl.Proofs.Placemarkers
import HeaderDecl.Proofs.QualifiedDefinitions
import HeaderDecl.Proofs.UnitTypeNames
import HeaderDecl.Proofs.RequiredTypes
import HeaderDecl.Proofs.NamedArguments
import HeaderDecl.Proofs.TokenPlaces
import HeaderDecl.Proofs.TracedExpansion
import HeaderDecl.Proofs.LocatedOutput
import HeaderDecl.Proofs.MemberAccess
import HeaderDecl.Proofs.TypedefStack
import HeaderDecl.Proofs.TypedefCycles
import HeaderDecl.Proofs.StoredTexts
import HeaderDecl.Proofs.SpelledIntegers
import HeaderDecl.Proofs.UnskippedRuns
import HeaderDecl.Proofs.SourceOrder
import HeaderDecl.Proofs.ContainedRecords
import HeaderDecl.Proofs.NumberedFields
import HeaderDecl.Proofs.NumberedUnits
import HeaderDecl.Proofs.CarriedRecords
import HeaderDecl.Proofs.ResolvedLayouts
import HeaderDecl.Proofs.FieldOrdinals
import HeaderDecl.Proofs.ScopePaths
