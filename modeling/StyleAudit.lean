import StyleAudit.Audit.Configuration
import StyleAudit.Audit.Diagnostic
import StyleAudit.Audit.Exemption
import StyleAudit.Audit.Validation
import StyleAudit.Audit.Walk
import StyleAudit.Availability.Database
import StyleAudit.Availability.Snapshot
import StyleAudit.Availability.Threshold
import StyleAudit.Command.Arguments
import StyleAudit.Command.Files
import StyleAudit.Command.Log
import StyleAudit.Command.Options
import StyleAudit.Command.Report
import StyleAudit.Command.Run
import StyleAudit.Cursor
import StyleAudit.Dictionary
import StyleAudit.Encoding
import StyleAudit.Feature.Basic
import StyleAudit.Feature.Media
import StyleAudit.Feature.Selector
import StyleAudit.Feature.Value
import StyleAudit.Json.Basic
import StyleAudit.Json.Printer
import StyleAudit.Json.Reader
import StyleAudit.Main
import StyleAudit.Number.Binary64
import StyleAudit.Number.Shortest
import StyleAudit.Source.Character
import StyleAudit.Source.Escape
import StyleAudit.Source.Lexeme
import StyleAudit.Source.Lexing
import StyleAudit.Source.Lines
import StyleAudit.Source.Numeral
import StyleAudit.Source.Position
import StyleAudit.Source.Stepping
import StyleAudit.Source.SyntaxError
import StyleAudit.Source.Token
import StyleAudit.Support.Condition
import StyleAudit.Support.Scope
import StyleAudit.Text.Basic
import StyleAudit.Text.Case
import StyleAudit.Text.Digit
import StyleAudit.Text.Lower
import StyleAudit.Text.Printable
import StyleAudit.Text.Quoted
import StyleAudit.Tree.Component
import StyleAudit.Tree.Declaration
import StyleAudit.Tree.Grouping
import StyleAudit.Tree.Node
import StyleAudit.Tree.Parsing
import StyleAudit.Tree.Stepping
import StyleAudit.Tree.Stylesheet
import StyleAudit.Proofs.ModeAgreement
import StyleAudit.Proofs.PositionOrder
import StyleAudit.Proofs.LineTable
import StyleAudit.Proofs.Lookahead
import StyleAudit.Proofs.Stepwise
import StyleAudit.Proofs.Tiling
import StyleAudit.Proofs.LineCounting
import StyleAudit.Proofs.LineEnds
import StyleAudit.Proofs.FeatureParts
import StyleAudit.Proofs.FeatureForm
import StyleAudit.Proofs.Occurrences
import StyleAudit.Proofs.FeatureOrder
import StyleAudit.Proofs.SourceOrder
import StyleAudit.Proofs.ConditionReading
import StyleAudit.Proofs.Negation
import StyleAudit.Proofs.ConditionGrammar
import StyleAudit.Proofs.RespelledFeatures
import StyleAudit.Proofs.SelfGuard
import StyleAudit.Proofs.FoldedTokens
import StyleAudit.Proofs.CaseInsensitivity
import StyleAudit.Proofs.Monotonicity
import StyleAudit.Proofs.Dictionaries
import StyleAudit.Proofs.DatabaseReading
import StyleAudit.Proofs.VendorMarks
import StyleAudit.Proofs.DatabaseLookup
import StyleAudit.Proofs.NotBaseline
import StyleAudit.Proofs.Leaves
import StyleAudit.Proofs.Lossless
import StyleAudit.Proofs.Continuation
import StyleAudit.Proofs.Restart
import StyleAudit.Proofs.Concatenation
import StyleAudit.Proofs.OptionValidation
import StyleAudit.Proofs.MergedOptions
import StyleAudit.Proofs.GroupedParsing
import StyleAudit.Proofs.Interruption
import StyleAudit.Proofs.CommentInsertion
import StyleAudit.Proofs.OwnTokens
import StyleAudit.Proofs.FeatureStops
import StyleAudit.Proofs.CommentTransparency
import StyleAudit.Proofs.EscapedSpelling
import StyleAudit.Proofs.ScopeHistory
import StyleAudit.Proofs.DeclaredEncoding
import StyleAudit.Proofs.RunEndings
import StyleAudit.Proofs.JointReport
import StyleAudit.Proofs.LocalRecovery
import StyleAudit.Proofs.Importance
import StyleAudit.Proofs.BadTokens
import StyleAudit.Proofs.MessageTemplates
import StyleAudit.Proofs.UnfailingWalk
import StyleAudit.Proofs.FunctionNames
import StyleAudit.Proofs.TidyLists
import StyleAudit.Proofs.StackMatching
import StyleAudit.Proofs.SpanNesting
import StyleAudit.Proofs.RecordedErrors
import StyleAudit.Proofs.NumberGrammar
import StyleAudit.Proofs.LexicalGrammar
import StyleAudit.Proofs.SmallLetters
import StyleAudit.Proofs.CanonicalKeys
import StyleAudit.Proofs.JointConditions
import StyleAudit.Proofs.MediaSpellings
import StyleAudit.Proofs.SelectorLists
