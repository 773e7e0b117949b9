import XamlAssist.Conversion.Builder
import XamlAssist.Conversion.Convert
import XamlAssist.Conversion.Hints
import XamlAssist.Conversion.Members
import XamlAssist.Conversion.Resolution
import XamlAssist.Conversion.Scope
import XamlAssist.Conversion.Settings
import XamlAssist.Document.Context
import XamlAssist.Document.Reading
import XamlAssist.Document.Scan
import XamlAssist.Extension.Cursor
import XamlAssist.Extension.Reading
import XamlAssist.Extension.Scan
import XamlAssist.Files.Path
import XamlAssist.Files.Tree
import XamlAssist.Framework
import XamlAssist.GenericName
import XamlAssist.GraphCache
import XamlAssist.Json.Printer
import XamlAssist.Json.Token
import XamlAssist.Json.Value
import XamlAssist.Library.Access
import XamlAssist.Library.Basic
import XamlAssist.Library.Builder
import XamlAssist.Library.Written
import XamlAssist.Ordered
import XamlAssist.Proofs.Cancellation
import XamlAssist.Proofs.Conversion.Arrangement
import XamlAssist.Proofs.Conversion.AttachedMembers
import XamlAssist.Proofs.Conversion.BaseChain
import XamlAssist.Proofs.Conversion.BaseWalk
import XamlAssist.Proofs.Conversion.ClassResources
import XamlAssist.Proofs.Conversion.CollectionMembers
import XamlAssist.Proofs.Conversion.CompleteReferences
import XamlAssist.Proofs.Conversion.Completion
import XamlAssist.Proofs.Conversion.Counterpart
import XamlAssist.Proofs.Conversion.Growth
import XamlAssist.Proofs.Conversion.HiddenMembers
import XamlAssist.Proofs.Conversion.Identity
import XamlAssist.Proofs.Conversion.InRange
import XamlAssist.Proofs.Conversion.Inherited
import XamlAssist.Proofs.Conversion.Instances
import XamlAssist.Proofs.Conversion.MemberFacts
import XamlAssist.Proofs.Conversion.MemberSummary
import XamlAssist.Proofs.Conversion.Mentions
import XamlAssist.Proofs.Conversion.Names
import XamlAssist.Proofs.Conversion.NamespaceIndex
import XamlAssist.Proofs.Conversion.NestedChain
import XamlAssist.Proofs.Conversion.NestedReference
import XamlAssist.Proofs.Conversion.NullableHints
import XamlAssist.Proofs.Conversion.OrdinaryMembers
import XamlAssist.Proofs.Conversion.Reachability
import XamlAssist.Proofs.Conversion.ResolutionLevels
import XamlAssist.Proofs.Conversion.Run
import XamlAssist.Proofs.Conversion.Safety
import XamlAssist.Proofs.Conversion.ShortNames
import XamlAssist.Proofs.Conversion.UnusedLibrary
import XamlAssist.Proofs.Document.AncestorAttributes
import XamlAssist.Proofs.Document.AttributeScan
import XamlAssist.Proofs.Document.Carets
import XamlAssist.Proofs.Document.Grammar
import XamlAssist.Proofs.Document.NameReading
import XamlAssist.Proofs.Document.OpenElements
import XamlAssist.Proofs.Document.Placement
import XamlAssist.Proofs.Document.Scanning
import XamlAssist.Proofs.Document.Siblings
import XamlAssist.Proofs.Document.Steps
import XamlAssist.Proofs.Document.TagNames
import XamlAssist.Proofs.Document.TagReading
import XamlAssist.Proofs.Document.Verbatim
import XamlAssist.Proofs.Extension.ArgumentNames
import XamlAssist.Proofs.Extension.ArgumentReading
import XamlAssist.Proofs.Extension.Coherence
import XamlAssist.Proofs.Extension.Grammar
import XamlAssist.Proofs.Extension.Literal
import XamlAssist.Proofs.Extension.Reading
import XamlAssist.Proofs.Extension.Scanning
import XamlAssist.Proofs.Extension.Stack
import XamlAssist.Proofs.Extension.WellFormed
import XamlAssist.Proofs.Files.Spelling
import XamlAssist.Proofs.GenericName
import XamlAssist.Proofs.GenericNesting
import XamlAssist.Proofs.GenericSpelling
import XamlAssist.Proofs.GraphCache
import XamlAssist.Proofs.Json.Printing
import XamlAssist.Proofs.Library.Written
import XamlAssist.Proofs.Ordered
import XamlAssist.Proofs.ReferenceList
import XamlAssist.Proofs.Resource.BinaryIndex
import XamlAssist.Proofs.Resource.IndexFormats
import XamlAssist.Proofs.Resource.XmlContent
import XamlAssist.Proofs.Resource.XmlRecords
import XamlAssist.Proofs.Resuming
import XamlAssist.Proofs.Selector.Acceptance
import XamlAssist.Proofs.Selector.Grammar
import XamlAssist.Proofs.Selector.Residual
import XamlAssist.Proofs.Selector.Sequence
import XamlAssist.Proofs.Selector.Spans
import XamlAssist.Proofs.Selector.Taking
import XamlAssist.Proofs.Selector.Termination
import XamlAssist.Proofs.Session
import XamlAssist.Proofs.Text.Brackets
import XamlAssist.Proofs.Text.Decimal
import XamlAssist.Proofs.Text.Identifier
import XamlAssist.Proofs.Text.Offset
import XamlAssist.Proofs.Text.Reader
import XamlAssist.Proofs.Text.Utf8
import XamlAssist.Proofs.TypeGraph.Closed
import XamlAssist.Proofs.TypeGraph.Frame
import XamlAssist.Proofs.TypeGraph.NamespaceIndex
import XamlAssist.Proofs.TypeGraph.Registration
import XamlAssist.ReferenceList
import XamlAssist.Resource.Index
import XamlAssist.Resource.Xml
import XamlAssist.Selector.Reading
import XamlAssist.Selector.Run
import XamlAssist.Selector.Statement
import XamlAssist.Session
import XamlAssist.Text.Blank
import XamlAssist.Text.Decimal
import XamlAssist.Text.Identifier
import XamlAssist.Text.IdentifierTable
import XamlAssist.Text.Offset
import XamlAssist.Text.Parts
import XamlAssist.Text.Reader
import XamlAssist.TypeGraph.Basic
import XamlAssist.TypeGraph.Seed
