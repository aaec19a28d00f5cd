import SchemaGen.Main
import SchemaGen.Naming.Derived
import SchemaGen.Naming.HostIdent
import SchemaGen.Proofs.Disk.Managing
import SchemaGen.Proofs.NameOrder
import SchemaGen.Proofs.Checks
import SchemaGen.Proofs.Run.Commit
import SchemaGen.Proofs.Document.Accepted
import SchemaGen.Proofs.Document.Sources
import SchemaGen.Proofs.Document.Assembled
import SchemaGen.Proofs.Document.Patterns
import SchemaGen.Proofs.Document.Language
import SchemaGen.Proofs.Run.Staging
import SchemaGen.Proofs.Run.Inputs
import SchemaGen.Proofs.Run.Outputs
import SchemaGen.Proofs.Run.Reloading
import SchemaGen.Proofs.Run.Repetition
import SchemaGen.Proofs.Emission.Steps
import SchemaGen.Proofs.Naming.Derived
import SchemaGen.Proofs.Emission.Declared
import SchemaGen.Proofs.Emission.Embedded
import SchemaGen.Proofs.Emission.Fragments
import SchemaGen.Proofs.Target.ApiClosure
import SchemaGen.Proofs.Target.Operations
import SchemaGen.Proofs.Target.ApiResources
import SchemaGen.Proofs.Target.Separation
import SchemaGen.Proofs.Target.SchemaText
import SchemaGen.Proofs.Target.TypeNames
import SchemaGen.Proofs.Target.Rendering
import SchemaGen.Proofs.Target.Resolvers
import SchemaGen.Proofs.Naming.Modules
import SchemaGen.Proofs.Target.Failures
import SchemaGen.Proofs.Disk.Frames
import SchemaGen.Proofs.Run.Failures
import SchemaGen.Proofs.Program.Checking
import SchemaGen.Proofs.Target.ModelFiles
import SchemaGen.Proofs.Target.FiniteSize
import SchemaGen.Proofs.Emission.Requests
import SchemaGen.Proofs.Emission.Orders
import SchemaGen.Proofs.Document.AnyOrder
import SchemaGen.Proofs.Emission.AtMostOnce
import SchemaGen.Proofs.Target.Imports
import SchemaGen.Proofs.Target.ModelTypes
import SchemaGen.Proofs.Target.Independence
import SchemaGen.Proofs.Emission.FirstKeys
import SchemaGen.Proofs.Target.SameTypes
import SchemaGen.Proofs.Target.ResolverCode
import SchemaGen.Proofs.Target.ResolverInputs
import SchemaGen.Proofs.Target.MatchingResolvers
import SchemaGen.Proofs.Naming.Words
import SchemaGen.Proofs.Naming.Conversions
import SchemaGen.Proofs.Naming.Queries
import SchemaGen.Proofs.Target.QueryNames
import SchemaGen.Proofs.Text.Lines
import SchemaGen.Proofs.Naming.Characters
import SchemaGen.Proofs.Document.Conflicts
import SchemaGen.Proofs.Emission.Names
import SchemaGen.Proofs.Document.EnumShapes
import SchemaGen.Proofs.Target.Reading
import SchemaGen.Proofs.Target.ClientLines
import SchemaGen.Proofs.Target.HostLines
import SchemaGen.Proofs.Target.Links
import SchemaGen.Proofs.Target.Exports
import SchemaGen.Proofs.Target.Stacks
import SchemaGen.Proofs.Target.EnumLists
import SchemaGen.Proofs.Target.Selections
import SchemaGen.Proofs.Target.OutputTypes
import SchemaGen.Proofs.Target.Documents
import SchemaGen.Proofs.Document.Indexes
import SchemaGen.Proofs.Target.StoredTables
import SchemaGen.Proofs.Target.RepeatedFields
import SchemaGen.Proofs.Target.HostFields
import SchemaGen.Proofs.Target.BlockStrings
import SchemaGen.Proofs.Target.IndexedQueries
import SchemaGen.Proofs.Target.UpdateResolvers
import SchemaGen.Proofs.Target.HostIdentifiers
import SchemaGen.Proofs.Run.Locations
import SchemaGen.Proofs.Document.TypeExpressions
import SchemaGen.Proofs.Run.RelativePaths
import SchemaGen.Proofs.Target.WireNames
import SchemaGen.Proofs.Naming.Pascal
import SchemaGen.Proofs.Target.LogicalIds
import SchemaGen.Proofs.Target.Comments
import SchemaGen.Proofs.Naming.Segments
import SchemaGen.Proofs.Emission.Recursion
