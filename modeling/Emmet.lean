import Emmet.Completion.Basic
import Emmet.Editor.Item
import Emmet.Engine.Lookup
import Emmet.Engine.Sample
import Emmet.FileTree
import Emmet.Library.Store
import Emmet.Main
import Emmet.Proofs.Abbreviation.Filters
import Emmet.Proofs.Abbreviation.Prefix
import Emmet.Proofs.Abbreviation.Grammar
import Emmet.Proofs.Abbreviation.SheetGrammar
import Emmet.Proofs.Abbreviation.Range
import Emmet.Proofs.Abbreviation.TagEnd
import Emmet.Proofs.Abbreviation.Misread
import Emmet.Proofs.Abbreviation.Word
import Emmet.Proofs.Abbreviation.Nesting
import Emmet.Proofs.Abbreviation.HtmlTag
import Emmet.Proofs.Abbreviation.Chain
import Emmet.Proofs.Abbreviation.Brackets
import Emmet.Proofs.Abbreviation.TagContext
import Emmet.Proofs.Abbreviation.Echo
import Emmet.Proofs.Abbreviation.Rescan
import Emmet.Proofs.Completion.Origin
import Emmet.Proofs.Completion.Events
import Emmet.Proofs.Completion.Failure
import Emmet.Proofs.Completion.Filters
import Emmet.Proofs.Completion.Finished
import Emmet.Proofs.Completion.InOrder
import Emmet.Proofs.Completion.Joined
import Emmet.Proofs.Completion.OpenTag
import Emmet.Proofs.Completion.LetterCase
import Emmet.Proofs.Completion.Coherence
import Emmet.Proofs.Completion.Rejection
import Emmet.Proofs.Completion.Shape
import Emmet.Proofs.Editor.Columns
import Emmet.Proofs.Expansion.Precedence
import Emmet.Proofs.Expansion.Units
import Emmet.Proofs.Expansion.Vendor
import Emmet.Proofs.Completion.Snippet
import Emmet.Proofs.Library.History
import Emmet.Proofs.Library.Inheritance
import Emmet.Proofs.Library.Keys
import Emmet.Proofs.Library.Resolution
import Emmet.Proofs.Offset.Completion
import Emmet.Proofs.Offset.Filters
import Emmet.Proofs.Offset.Located
import Emmet.Proofs.Offset.Progress
import Emmet.Proofs.Offset.Starts
import Emmet.Proofs.Settings.RoundTrip
import Emmet.Proofs.Template.Copies
import Emmet.Proofs.Template.Display
import Emmet.Proofs.Template.Escape
import Emmet.Proofs.Template.FinalStop
import Emmet.Proofs.Template.Openers
import Emmet.Proofs.Template.Residue
import Emmet.Proofs.Template.Snippet
import Emmet.Proofs.Template.Unwrapping
