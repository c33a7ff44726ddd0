import AmlExchange.Document.Property
import AmlExchange.Exchange
import AmlExchange.Markup.ByteCursor
import AmlExchange.Proofs.Markup.Forest
import AmlExchange.Proofs.Template.Injection
import AmlExchange.Proofs.Sql.Containment
import AmlExchange.Proofs.Document.Reachable
import AmlExchange.Proofs.Document.Assignment
import AmlExchange.Proofs.Document.Readback
import AmlExchange.Proofs.Document.Freezing
import AmlExchange.Proofs.Document.Refusals
import AmlExchange.Proofs.DateRange.Notation
import AmlExchange.Proofs.Template.Unbound
import AmlExchange.Proofs.Template.Ranges
import AmlExchange.Proofs.Template.Refilling
import AmlExchange.Proofs.Template.RangeScope
import AmlExchange.Proofs.Markup.Locality
import AmlExchange.Proofs.Markup.Spelling
import AmlExchange.Proofs.Template.Outcome
import AmlExchange.Proofs.Template.EmptyTags
import AmlExchange.Proofs.Document.Pages
import AmlExchange.Proofs.Document.Rereading
import AmlExchange.Proofs.Document.RoundTrip
import AmlExchange.Proofs.Document.Roles
import AmlExchange.Proofs.Document.Rewriting
import AmlExchange.Proofs.Document.WrittenAgain
import AmlExchange.Proofs.Document.Depths
import AmlExchange.Proofs.Document.Lookups
import AmlExchange.Proofs.Document.ItemReferences
import AmlExchange.Proofs.Response.Envelopes
import AmlExchange.Proofs.Response.Faults
import AmlExchange.Proofs.Sql.Stages
import AmlExchange.Proofs.Template.Unused
import AmlExchange.Proofs.Request.Unused
import AmlExchange.Proofs.Markup.Repeats
import AmlExchange.Proofs.Document.OuterItems
import AmlExchange.Proofs.Template.FilledItems
import AmlExchange.Proofs.Request.Counting
import AmlExchange.Proofs.Document.Names
import AmlExchange.Proofs.Response.Reachable
import AmlExchange.Proofs.Response.Payloads
import AmlExchange.Proofs.Calendar.Readback
import AmlExchange.Proofs.Locale.Clocks
import AmlExchange.Proofs.Document.Existence
import AmlExchange.Proofs.Markup.Enclosing
import AmlExchange.Proofs.Request.Batches
import AmlExchange.Proofs.Template.RangeElements
import AmlExchange.Proofs.Document.RangeProperties
import AmlExchange.Proofs.Sql.Literals
import AmlExchange.Proofs.Sql.InClauses
import AmlExchange.Proofs.Markup.Flaws
import AmlExchange.Proofs.Template.RawMarkup
import AmlExchange.Proofs.Document.OtherLanguages
import AmlExchange.Proofs.DateRange.Tiling
import AmlExchange.Proofs.Sql.Lexemes
import AmlExchange.Proofs.Sql.Parentheses
import AmlExchange.Proofs.Template.ItemPlaces
import AmlExchange.Proofs.Document.Adding
import AmlExchange.Proofs.Template.RepeatedRanges
import AmlExchange.Proofs.Document.NullProperties
import AmlExchange.Proofs.Locale.Readings
import AmlExchange.Proofs.Document.Bindings
import AmlExchange.Proofs.Markup.Nesting
import AmlExchange.Proofs.Document.DepthLimit
import AmlExchange.Proofs.Markup.ReferenceGrammar
import AmlExchange.Proofs.DateRange.Spellings
import AmlExchange.Proofs.Response.ReadOnly
import AmlExchange.Proofs.Markup.CursorPlaces
import AmlExchange.Markup.ByteReader
import AmlExchange.Proofs.Markup.WholeCharacters
import AmlExchange.Proofs.Markup.ByteReading
import AmlExchange.Proofs.Response.MaskedFaults
import AmlExchange.Proofs.Template.Lookups
