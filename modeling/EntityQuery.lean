import EntityQuery.Sample
import EntityQuery.Session
import EntityQuery.Proofs.Assoc
import EntityQuery.Proofs.Join.Tree
import EntityQuery.Proofs.Join.Walk
import EntityQuery.Proofs.Join.Renaming
import EntityQuery.Proofs.Filter.Operators
import EntityQuery.Proofs.Filter.Template
import EntityQuery.Proofs.Predicate.Truth
import EntityQuery.Proofs.Predicate.Runs
import EntityQuery.Proofs.Predicate.Compilation
import EntityQuery.Proofs.Filter.Lexing
import EntityQuery.Proofs.Query.Stages
import EntityQuery.Proofs.Query.FilterText
import EntityQuery.Proofs.Join.Requests
import EntityQuery.Proofs.Join.Honest
import EntityQuery.Proofs.Join.Chained
import EntityQuery.Proofs.Join.Flattening
import EntityQuery.Proofs.Join.Lookup
import EntityQuery.Proofs.Join.Rooted
import EntityQuery.Proofs.Join.Failures
import EntityQuery.Proofs.Join.RequestOrder
import EntityQuery.Proofs.Predicate.KeyPath
import EntityQuery.Proofs.Layout.Placement
import EntityQuery.Proofs.Layout.Bare
import EntityQuery.Proofs.Layout.Levels
import EntityQuery.Proofs.Layout.Shown
import EntityQuery.Proofs.Inclusion
import EntityQuery.Proofs.Query.Coherent
import EntityQuery.Proofs.Query.WellFormed
import EntityQuery.Proofs.Query.Shown
import EntityQuery.Proofs.Store.Combination
import EntityQuery.Proofs.Store.Roots
import EntityQuery.Proofs.Store.Shaping
import EntityQuery.Proofs.Store.Order
import EntityQuery.Proofs.Store.Unfolding
import EntityQuery.Proofs.Store.RootOrder
import EntityQuery.Proofs.Query.Meaning
import EntityQuery.Proofs.Query.Renaming
import EntityQuery.Proofs.Session.Building
import EntityQuery.Proofs.Session.Terminals
import EntityQuery.Proofs.Store.Paging
import EntityQuery.Proofs.Session.Windows
import EntityQuery.Proofs.Session.Meaning
import EntityQuery.Proofs.Session.Slices
import EntityQuery.Proofs.Session.Including
import EntityQuery.Proofs.Session.Scope
import EntityQuery.Proofs.Session.KeyPaths
import EntityQuery.Proofs.Predicate.Grammar
import EntityQuery.Proofs.Predicate.Rereading
import EntityQuery.Proofs.Inclusion.Rereading
import EntityQuery.Proofs.Predicate.Operands
import EntityQuery.Proofs.Query.Operands
import EntityQuery.Proofs.Page
import EntityQuery.Proofs.Layout.Likeness
import EntityQuery.Proofs.Store.Relatives
import EntityQuery.Proofs.Store.Continuation
import EntityQuery.Proofs.Store.OneRoot
import EntityQuery.Proofs.Query.Narrowing
import EntityQuery.Proofs.Query.Keys
import EntityQuery.Proofs.Session.Interleaving
import EntityQuery.Proofs.Session.StorageOrder
import EntityQuery.Proofs.Session.Pages
import EntityQuery.Proofs.Session.Lookups
import EntityQuery.Proofs.Session.Uniqueness
import EntityQuery.Proofs.Session.Deletions
import EntityQuery.Proofs.Query.Connectives
import EntityQuery.Proofs.Query.Exclusion
import EntityQuery.Proofs.Session.Connectives
import EntityQuery.Proofs.Session.Conjunctions
import EntityQuery.Proofs.Filter.Bindings
import EntityQuery.Proofs.Predicate.Bindings
import EntityQuery.Proofs.Predicate.Progress
import EntityQuery.Proofs.Layout.Views
import EntityQuery.Proofs.Inclusion.Visits
import EntityQuery.Proofs.Inclusion.Merging
import EntityQuery.Proofs.Page.Exact
import EntityQuery.Proofs.Layout.Columns
import EntityQuery.Proofs.Selection.Planning
import EntityQuery.Proofs.Layout.Access
import EntityQuery.Proofs.Store.Like
import EntityQuery.Proofs.Session.Texts
import EntityQuery.Layout.Traversal
import EntityQuery.Proofs.Layout.Outline
import EntityQuery.Proofs.Layout.Traversal
import EntityQuery.Proofs.Predicate.Laws
import EntityQuery.Proofs.Query.OneColumn
