import SchemaGen.Target.Options
import SchemaGen.Text.Lines

/-!
# Resolvers

Each operation is answered by one request to its table: an item is put, updated or removed under its
primary key, or items are queried. A query by the table's sort attribute alone cannot use the key and
scans the table instead.

Results:
1. `queryRequest_scan_iff`: a table is scanned only for its sort attribute alone.
-/

namespace SchemaGen.Infra

/-- The request that a resolver makes. -/
inductive Request where
  | put (keys : List String)
  | update (keys : List String)
  | remove (keys : List String)
  | scan (conditions : List String)
  | query (conditions : List String) (narrowing : Option String) (index : Option String)
  deriving DecidableEq, Repr

/-- Whether the request yields a list of items. -/
def Request.yieldsList : Request → Bool
  | .scan _ => true
  | .query _ _ _ => true
  | _ => false

/-- The query key whose operation has that name; of several the first one counts. -/
def queryKey? (t : Table) (operation : String) : Option QueryKey :=
  t.queryKeys.find? fun key => Naming.queryOperation t.name key.required == operation

/-- The request for a query key. -/
def queryRequest (t : Table) (key : QueryKey) : Request :=
  if key.index.isNone && key.required.head? != some t.partition then .scan key.required
  else .query key.required key.optional key.index

/-- The request for an operation of a table. -/
def request (t : Table) (op : Operation) : Except RenderFault Request :=
  if op.name == Naming.mutation "create" t.name then .ok (.put t.primaryKey)
  else if op.name == Naming.mutation "update" t.name then .ok (.update t.primaryKey)
  else if op.name == Naming.mutation "delete" t.name then .ok (.remove t.primaryKey)
  else match queryKey? t op.name with
    | some key => .ok (queryRequest t key)
    | none => .error (.noResolver t.name op.name)

/-- Names between commas. -/
def listed (parts : List String) : String := ", ".intercalate parts

/-- Attributes taken from the input. -/
def fromInput (names : List String) : String := listed (names.map fun n => n ++ ": input." ++ n)

/-- Conditions that attributes equal those of the input. -/
def conditionsText (names : List String) : String :=
  listed (names.map fun n => n ++ ": \x7b eq: input." ++ n ++ " \x7d")

/-- The line that takes the input from the call. -/
def inputLine : String := "  const \x7b input \x7d = ctx.args;"

/-- The lines that narrow a query where the input has the attribute. -/
def narrowingLines (name : String) : List String :=
  ["  if (input." ++ name ++ " !== undefined && input." ++ name ++ " !== null) \x7b",
   "    query." ++ name ++ " = \x7b eq: input." ++ name ++ " \x7d;",
   "  \x7d"]

/-- The lines of a request. -/
def Request.lines : Request → List String
  | .put keys =>
    [inputLine, "  return ddb.put(\x7b key: \x7b " ++ fromInput keys ++ " \x7d, item: input \x7d);"]
  | .update keys =>
    ["  const \x7b " ++ listed keys ++ ", ...values \x7d = ctx.args.input;",
     "  return ddb.update(\x7b key: \x7b " ++ listed keys ++ " \x7d, update: values \x7d);"]
  | .remove keys => [inputLine, "  return ddb.remove(\x7b key: \x7b " ++ fromInput keys ++ " \x7d \x7d);"]
  | .scan conditions =>
    [inputLine, "  return ddb.scan(\x7b filter: \x7b " ++ conditionsText conditions ++ " \x7d \x7d);"]
  | .query conditions narrowing index =>
    [inputLine, "  const query = \x7b " ++ conditionsText conditions ++ " \x7d;"] ++
      narrowing.toList.flatMap narrowingLines ++
      [match index with
        | some index => "  return ddb.query(\x7b query, index: '" ++ index ++ "' \x7d);"
        | none => "  return ddb.query(\x7b query \x7d);"]

/-- The source of a resolver. -/
def Request.code (r : Request) : String :=
  Text.unlines <|
    ["import * as ddb from '@aws-appsync/utils/dynamodb';", "",
     "export function request(ctx) \x7b"] ++ r.lines ++
    ["\x7d", "", "export function response(ctx) \x7b", "  if (ctx.error) \x7b",
     "    return \x7b statusCode: 500, message: ctx.error.message, data: null \x7d;", "  \x7d",
     "  return \x7b statusCode: 200, message: null, data: " ++
       (if r.yieldsList then "ctx.result.items" else "ctx.result") ++ " \x7d;",
     "\x7d"]

theorem queryRequest_scan_iff (t : Table) (key : QueryKey) (conditions : List String) :
    queryRequest t key = .scan conditions ↔
      conditions = key.required ∧ key.index = none ∧ key.required.head? ≠ some t.partition := by
  unfold queryRequest
  split
  · rename_i h
    simp only [Bool.and_eq_true, Option.isNone_iff_eq_none, bne_iff_ne, ne_eq] at h
    simp only [Request.scan.injEq, h, not_false_eq_true, and_self, and_true, eq_comm, ne_eq]
  · rename_i h
    simp only [Bool.and_eq_true, Option.isNone_iff_eq_none, bne_iff_ne, ne_eq] at h
    simp only [reduceCtorEq, false_iff, not_and]
    exact fun _ hi hn => h ⟨hi, hn⟩

end SchemaGen.Infra
