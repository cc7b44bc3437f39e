import RecipePlanner.Amount
import RecipePlanner.BranchKey
import RecipePlanner.Catalogue
import RecipePlanner.Catalogue.Entries
import RecipePlanner.Catalogue.Folder
import RecipePlanner.DataFile
import RecipePlanner.Datum
import RecipePlanner.Document.Choice
import RecipePlanner.Document.Combination
import RecipePlanner.Document.Field
import RecipePlanner.Document.Layout
import RecipePlanner.Document.Recipes
import RecipePlanner.Double
import RecipePlanner.Double.Shortest
import RecipePlanner.Expansion
import RecipePlanner.Extraction
import RecipePlanner.Fields
import RecipePlanner.FileTree
import RecipePlanner.Files.Path
import RecipePlanner.FirstSeen
import RecipePlanner.Indexed
import RecipePlanner.Interchange.Files
import RecipePlanner.Interchange.Recipes
import RecipePlanner.Interchange.Routes
import RecipePlanner.Json.Basic
import RecipePlanner.Json.Data
import RecipePlanner.Json.Decimal
import RecipePlanner.Json.Fields
import RecipePlanner.Json.Outline
import RecipePlanner.Json.Printer
import RecipePlanner.Json.Reader
import RecipePlanner.Keyed
import RecipePlanner.Main
import RecipePlanner.Material
import RecipePlanner.Naming
import RecipePlanner.Producers
import RecipePlanner.Proofs.Outcome
import RecipePlanner.Proofs.Route.Lineage
import RecipePlanner.Proofs.Route.Segment
import RecipePlanner.Proofs.Route.Steps
import RecipePlanner.Recipe
import RecipePlanner.RecipeFolder
import RecipePlanner.Release
import RecipePlanner.ReleaseTable
import RecipePlanner.Report
import RecipePlanner.Ron.Gap
import RecipePlanner.Ron.Name
import RecipePlanner.Ron.Number
import RecipePlanner.Ron.Reader
import RecipePlanner.Ron.Text
import RecipePlanner.Route
import RecipePlanner.Route.Printer
import RecipePlanner.Route.Reader
import RecipePlanner.Samples
import RecipePlanner.Settings
import RecipePlanner.Text.Blank
import RecipePlanner.Text.Bytes
import RecipePlanner.Text.Capital
import RecipePlanner.Text.Digits
import RecipePlanner.Text.Series
import RecipePlanner.Text.Split
import RecipePlanner.Toml.Moment
import RecipePlanner.Toml.Reader
import RecipePlanner.Toml.Scalar
import RecipePlanner.Toml.Table
import RecipePlanner.Toml.Text
import RecipePlanner.Word
import RecipePlanner.Proofs.Route.RoundTrip
import RecipePlanner.Proofs.Expansion.Nodes
import RecipePlanner.Proofs.Release.Order
import RecipePlanner.Proofs.Expansion.Stops
import RecipePlanner.Proofs.Expansion.Pruning
import RecipePlanner.Proofs.Expansion.Visited
import RecipePlanner.Proofs.ReleaseTable.Runs
import RecipePlanner.Proofs.Route.Built
import RecipePlanner.Proofs.Route.Grammar
import RecipePlanner.Proofs.Catalogue.Draft
import RecipePlanner.Proofs.Catalogue.Flattening
import RecipePlanner.Proofs.Catalogue.Members
import RecipePlanner.Proofs.Route.Listing
import RecipePlanner.Proofs.Route.History
import RecipePlanner.Proofs.Route.Completion
import RecipePlanner.Proofs.Document.Given
import RecipePlanner.Proofs.Producers.Known
import RecipePlanner.Proofs.Extraction.Emitted
import RecipePlanner.Proofs.Extraction.Kinds
import RecipePlanner.Proofs.Extraction.TagProducers
import RecipePlanner.Proofs.Route.Following
import RecipePlanner.Proofs.Document.Alternatives
import RecipePlanner.Proofs.Document.Ingredients
import RecipePlanner.Proofs.Document.FanOut
import RecipePlanner.Proofs.Extraction.Units
import RecipePlanner.Proofs.Extraction.Shape
import RecipePlanner.Proofs.InTurn
import RecipePlanner.Proofs.Producers.Filtering
import RecipePlanner.Proofs.Producers.Forms
import RecipePlanner.Proofs.Producers.Merging
import RecipePlanner.Proofs.Expansion.Search
import RecipePlanner.Proofs.Expansion.BaseNodes
import RecipePlanner.Proofs.Route.Widening
import RecipePlanner.Proofs.BranchKey.Distinct
import RecipePlanner.Proofs.Expansion.Choices
import RecipePlanner.Proofs.Expansion.Ranking
import RecipePlanner.Proofs.Expansion.Levels
import RecipePlanner.Proofs.Route.Edits
import RecipePlanner.Proofs.Route.Exempt
import RecipePlanner.Proofs.Expansion.Scores
import RecipePlanner.Proofs.Route.Unambiguous
import RecipePlanner.Proofs.Text.Places
import RecipePlanner.Proofs.Route.Faults
import RecipePlanner.Proofs.Extraction.Totals
import RecipePlanner.Proofs.Catalogue.Composition
import RecipePlanner.Proofs.Catalogue.Entering
import RecipePlanner.Proofs.Document.Leaves
import RecipePlanner.Proofs.Extraction.Degraded
import RecipePlanner.Proofs.Producers.Unnamed
import RecipePlanner.Proofs.Expansion.Unnamed
import RecipePlanner.Proofs.Naming.Canonical
import RecipePlanner.Proofs.Text.Order
import RecipePlanner.Proofs.FileTree.Listing
import RecipePlanner.Proofs.RecipeFolder.Documents
import RecipePlanner.Proofs.Release.Numeric
import RecipePlanner.Proofs.ReleaseTable.Latest
import RecipePlanner.Proofs.Catalogue.Listing
import RecipePlanner.Proofs.Catalogue.Loading
