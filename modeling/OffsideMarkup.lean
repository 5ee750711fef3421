import OffsideMarkup.Diagnostic.Basic
import OffsideMarkup.Diagnostic.Message
import OffsideMarkup.Diagnostic.Render
import OffsideMarkup.Document
import OffsideMarkup.Editor.Analysis
import OffsideMarkup.Editor.Completion
import OffsideMarkup.Editor.Fault
import OffsideMarkup.Editor.Fold
import OffsideMarkup.Editor.Highlight
import OffsideMarkup.Editor.Hover
import OffsideMarkup.Editor.KeyHint
import OffsideMarkup.Editor.Outline
import OffsideMarkup.Grammar.Offside
import OffsideMarkup.Grammar.Reader
import OffsideMarkup.Grammar.Row
import OffsideMarkup.Grammar.Template
import OffsideMarkup.Grammar.TokenLine
import OffsideMarkup.Json.Basic
import OffsideMarkup.Json.Text
import OffsideMarkup.Kind
import OffsideMarkup.KindSet
import OffsideMarkup.Main
import OffsideMarkup.Proofs.BlockLines
import OffsideMarkup.Proofs.BreakIndependence
import OffsideMarkup.Proofs.Builder
import OffsideMarkup.Proofs.BuilderParts
import OffsideMarkup.Proofs.BuilderRun
import OffsideMarkup.Proofs.BuilderTotal
import OffsideMarkup.Proofs.ByteCut
import OffsideMarkup.Proofs.Coordinates
import OffsideMarkup.Proofs.Cursor
import OffsideMarkup.Proofs.DocumentReplay
import OffsideMarkup.Proofs.Edits
import OffsideMarkup.Proofs.Findings
import OffsideMarkup.Proofs.HighlightCover
import OffsideMarkup.Proofs.Lexeme
import OffsideMarkup.Proofs.LexerLocality
import OffsideMarkup.Proofs.LineEnds
import OffsideMarkup.Proofs.LineGrammar
import OffsideMarkup.Proofs.LineLocality
import OffsideMarkup.Proofs.LineShape
import OffsideMarkup.Proofs.LineTable
import OffsideMarkup.Proofs.LineTree
import OffsideMarkup.Proofs.LookAhead
import OffsideMarkup.Proofs.Lossless
import OffsideMarkup.Proofs.NodeLabels
import OffsideMarkup.Proofs.NodeStore
import OffsideMarkup.Proofs.OffsideStack
import OffsideMarkup.Proofs.PhysicalLine
import OffsideMarkup.Proofs.ReaderAccount
import OffsideMarkup.Proofs.ReaderEnd
import OffsideMarkup.Proofs.ReaderLaws
import OffsideMarkup.Proofs.ReaderShift
import OffsideMarkup.Proofs.ReaderTiling
import OffsideMarkup.Proofs.Recovery
import OffsideMarkup.Proofs.RowPlace
import OffsideMarkup.Proofs.Settlement
import OffsideMarkup.Proofs.Shift
import OffsideMarkup.Proofs.Tiling
import OffsideMarkup.Proofs.TokenLines
import OffsideMarkup.Protocol.Capabilities
import OffsideMarkup.Protocol.Feature
import OffsideMarkup.Protocol.HostAnswer
import OffsideMarkup.Protocol.Message
import OffsideMarkup.Protocol.Shape
import OffsideMarkup.Scanner
import OffsideMarkup.Session.Cache
import OffsideMarkup.Session.Config
import OffsideMarkup.Session.Run
import OffsideMarkup.Slots
import OffsideMarkup.Table
import OffsideMarkup.Text.CaseTable
import OffsideMarkup.Text.Character
import OffsideMarkup.Text.LetterCase
import OffsideMarkup.Text.Lines
import OffsideMarkup.Text.Location
import OffsideMarkup.Text.Number
import OffsideMarkup.Text.Quoted
import OffsideMarkup.Text.Unprintable
import OffsideMarkup.Token
import OffsideMarkup.Tree.Basic
import OffsideMarkup.Tree.Dump
import OffsideMarkup.Tree.Leaf
import OffsideMarkup.Tree.Node
import OffsideMarkup.Tree.Query
import OffsideMarkup.Tree.Rose
import OffsideMarkup.Proofs.BestEffort
import OffsideMarkup.Proofs.KeptLists
import OffsideMarkup.Proofs.Cancellation
import OffsideMarkup.Proofs.FoldMemo
import OffsideMarkup.Proofs.Shutdown
import OffsideMarkup.Proofs.TokenStream
import OffsideMarkup.Proofs.EndedLine
import OffsideMarkup.Proofs.LineTokens
import OffsideMarkup.Proofs.IndentAhead
import OffsideMarkup.Proofs.LineNodes
import OffsideMarkup.Proofs.Indentation
import OffsideMarkup.Proofs.NodeArena
import OffsideMarkup.Proofs.ReaderYield
import OffsideMarkup.Proofs.Distances
import OffsideMarkup.Proofs.LineOrder
import OffsideMarkup.Proofs.FoldRuns
import OffsideMarkup.Proofs.FindingPlaces
import OffsideMarkup.Proofs.Speculation
import OffsideMarkup.Proofs.FoldNesting
import OffsideMarkup.Proofs.DeclaredName
import OffsideMarkup.Proofs.OutlineNesting
import OffsideMarkup.Proofs.OutlineRanges
import OffsideMarkup.Proofs.SpotChoice
import OffsideMarkup.Proofs.HandlerLine
import OffsideMarkup.Proofs.ModifierOffer
import OffsideMarkup.Proofs.ModifierColumns
import OffsideMarkup.Proofs.Positions
import OffsideMarkup.Proofs.NodePlaces
import OffsideMarkup.Proofs.CompletionSplit
import OffsideMarkup.Proofs.LinePartition
import OffsideMarkup.Proofs.StackWalk
import OffsideMarkup.Proofs.KeyHints
import OffsideMarkup.Proofs.FragmentPlaces
import OffsideMarkup.Proofs.Substitution
import OffsideMarkup.Proofs.WrittenNumber
