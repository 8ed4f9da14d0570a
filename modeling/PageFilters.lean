import PageFilters.Filter.Chain
import PageFilters.Filter.Settings
import PageFilters.Filter.Solo
import PageFilters.Fixture
import PageFilters.Markup.Cursor
import PageFilters.Markup.Decoding
import PageFilters.Markup.Edit
import PageFilters.Markup.Lines
import PageFilters.Markup.Tree
import PageFilters.Proofs.Document.WellFormed
import PageFilters.Proofs.Filter.Streaming
import PageFilters.Proofs.Markup.RoundTrip
import PageFilters.Proofs.Filter.Isolation
import PageFilters.Proofs.Filter.Stripping
import PageFilters.Proofs.Markup.Undisturbed
import PageFilters.Proofs.Filter.NoscriptContext
import PageFilters.Proofs.Filter.Independence
import PageFilters.Proofs.Filter.Causality
import PageFilters.Proofs.Filter.BaseUrl
import PageFilters.Proofs.Filter.Deletion
import PageFilters.Proofs.Filter.Regions
import PageFilters.Proofs.Filter.Promotion
import PageFilters.Proofs.Filter.Quotes
import PageFilters.Proofs.Markup.LostContent
import PageFilters.Proofs.Url.Scheme
import PageFilters.Proofs.Document.Legality
import PageFilters.Proofs.Document.Walks
import PageFilters.Proofs.Filter.FilterLists
import PageFilters.Proofs.Markup.EndTags
import PageFilters.Proofs.Markup.Lines
import PageFilters.Proofs.Markup.References
import PageFilters.Proofs.Markup.TokenStream
import PageFilters.Proofs.Markup.Progress
import PageFilters.Proofs.Markup.CloseTags
import PageFilters.Proofs.Markup.Interning
