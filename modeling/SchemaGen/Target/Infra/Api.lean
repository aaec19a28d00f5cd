import SchemaGen.Json
import SchemaGen.Target.Infra.Resolver
import SchemaGen.Target.Infra.Storage

/-!
# API description

The API with its schema, one data source for each table, and one resolver for each operation. Together with
the description of the storage it makes up the files of the infrastructure.
-/

namespace SchemaGen.Infra

open Json (text list object)

/-- The id of the API. -/
def apiId : String := "GraphQlApi"

/-- The id of the schema. -/
def schemaId : String := "GraphQlSchema"

/-- The parameter with the role that reaches the tables. -/
def roleParameter : String := "DataSourceRoleArn"

/-- An attribute of a resource. -/
def attributeOf (resource name : String) : Json :=
  object [("Fn::GetAtt", list [text resource, text name])]

/-- A reference to a resource or parameter. -/
def refTo (name : String) : Json := object [("Ref", text name)]

/-- The id of an operation's resolver. -/
def resolverId (op : Operation) : String :=
  op.kind.root ++ Naming.toPascal op.name ++ "Resolver"

/-- The resource of the API. -/
def apiResource (o : Options) : Json :=
  object
    [("Type", text "AWS::AppSync::GraphQLApi"),
     ("Properties", object [("Name", text o.apiName), ("AuthenticationType", text "API_KEY")])]

/-- The resource of the schema. -/
def schemaResource (o : Options) : Json :=
  object
    [("Type", text "AWS::AppSync::GraphQLSchema"),
     ("Properties", object
       [("ApiId", attributeOf apiId "ApiId"), ("DefinitionS3Location", text o.schemaLocation)])]

/-- The data source of a table. -/
def dataSource (t : Table) : Json :=
  object
    [("Type", text "AWS::AppSync::DataSource"),
     ("Properties", object
       [("ApiId", attributeOf apiId "ApiId"),
        ("Name", text (Naming.dataSource t.name)),
        ("Type", text "AMAZON_DYNAMODB"),
        ("ServiceRoleArn", refTo roleParameter),
        ("DynamoDBConfig", object
          [("TableName", object [("Fn::ImportValue", text (Naming.tableExport t.name))]),
           ("AwsRegion", refTo "AWS::Region")])])]

/-- A resolver: the operation it answers, its data source, and its request. -/
structure Resolver where
  operation : Operation
  source : String
  request : Request
  deriving DecidableEq, Repr

/-- The resource of a resolver. -/
def Resolver.resource (r : Resolver) : Json :=
  object
    [("Type", text "AWS::AppSync::Resolver"),
     ("DependsOn", list [text schemaId, text r.source]),
     ("Properties", object
       [("ApiId", attributeOf apiId "ApiId"),
        ("TypeName", text r.operation.kind.root),
        ("FieldName", text r.operation.name),
        ("DataSourceName", attributeOf r.source "Name"),
        ("Kind", text "UNIT"),
        ("Runtime", object [("Name", text "APPSYNC_JS"), ("RuntimeVersion", text "1.0.0")]),
        ("Code", text r.request.code)])]

/-- The resolver of an operation. -/
def resolver (t : Table) (op : Operation) : Except RenderFault Resolver :=
  (request t op).map fun r => ⟨op, Naming.dataSource t.name, r⟩

/-- The resolvers of a table's operations. -/
def resolvers (c : Catalog) (t : Table) : Emit (List Resolver) := do
  let decls ← Emit.fragment c .infra (.table t) .operations
  Emit.ofExcept ((Declaration.operations decls).mapM (resolver t))

/-- The resources of a table's data source and resolvers, by their ids. -/
def tableResources (c : Catalog) (t : Table) : Emit (List (String × Json)) := do
  let all ← resolvers c t
  return (Naming.dataSource t.name, dataSource t) ::
    all.map fun r => (resolverId r.operation, r.resource)

/-- Members put in one after the other. -/
def insertAll (members new : List (String × Json)) : List (String × Json) :=
  new.foldl (fun ms m => Members.insert m.1 m.2 ms) members

/-- The API description of a catalog. -/
def api (o : Options) (c : Catalog) : Emit Json := do
  let new ← Emit.collect (tableResources c) c.tables
  let resources := insertAll [(apiId, apiResource o), (schemaId, schemaResource o)] new
  return object
    [("AWSTemplateFormatVersion", text "2010-09-09"),
     ("Description", text ("API resources for " ++ o.apiName)),
     ("Parameters", object
       [(roleParameter, object
         [("Type", text "String"),
          ("Description", text "Role the API assumes to reach the storage tables")])]),
     ("Resources", object resources),
     ("Outputs", object
       [("GraphQlApiUrl", object [("Value", attributeOf apiId "GraphQLUrl")])])]

/-- The file of the storage description. -/
def storageFile : String := "storage.json"

/-- The file of the API description. -/
def apiFile : String := "api.json"

/-- The files that a catalog calls for. -/
def expectedFiles : List String := [storageFile, apiFile]

/-- The files of the target. -/
def generate (o : Options) (c : Catalog) : Emit Files := do
  let storage ← storage c
  let api ← api o c
  return NameMap.ofList [(storageFile, storage.document), (apiFile, api.document)]

end SchemaGen.Infra
