import ApiDocs.Main
import ApiDocs.Coverage
import ApiDocs.Contract.Construction
import ApiDocs.Document.Construction
import ApiDocs.Proofs.Coverage.Versions
import ApiDocs.Proofs.Document.PathParameters
import ApiDocs.Proofs.Schema.Growth
import ApiDocs.Proofs.Schema.Inlining
import ApiDocs.Proofs.Schema.Nodes
import ApiDocs.Proofs.Store.Routes
import ApiDocs.Proofs.Versions.Isolation
import ApiDocs.Proofs.Versions.Modifier
import ApiDocs.Proofs.Versions.Persisted
import ApiDocs.Proofs.Document.Groups
import ApiDocs.Proofs.Document.RoundTrip
import ApiDocs.Proofs.Command.Publish
import ApiDocs.Proofs.Schema.Siblings
import ApiDocs.Proofs.Field.Validity
import ApiDocs.Proofs.Registry.History
import ApiDocs.Proofs.Registry.Merge
import ApiDocs.Proofs.Route.Group
import ApiDocs.Proofs.Store.Corrupt
import ApiDocs.Proofs.Store.SaveLoad
import ApiDocs.Proofs.Store.Published
import ApiDocs.Proofs.Versions.Splitting
import ApiDocs.Proofs.Versions.Spelling
import ApiDocs.Proofs.Coverage.Classes
import ApiDocs.Proofs.Files.Order
import ApiDocs.Proofs.Command.Selector
import ApiDocs.Proofs.Versions.Saves
import ApiDocs.Proofs.Document.Parameters
import ApiDocs.Proofs.Files.Retain
import ApiDocs.Proofs.Store.Delete
