import SchemaGen.Proofs.Target.MatchingResolvers
import SchemaGen.Proofs.Target.RepeatedFields
import SchemaGen.Proofs.Text.Lines

/-!
# Resolvers of updates

The resolver of an update takes the key of its table out of the input: each key attribute becomes a variable
of its name, and `values` is the rest of the input. The variables stand beside names that the code has
already, the context `ctx` and the library `ddb`, and a module does not let a variable have every name. If the
names do not clash, the update is called with exactly the key and the rest of the input. The other resolvers
of a table read the key attributes as members of the input, so that their code does not depend on how these
are named.

Results:
1. `areLegal_bound_iff`: when the variables of a request are legal.
2. `run_update`: what a legal update is called with.
3. `updates_of_catalog`: when the resolver of a table's update is legal, and what it does then.
4. `exists_update_illegal`: a table the update of which is not legal.
-/

namespace SchemaGen

open Emission

namespace Infra

variable {α : Type} {c : Catalog} {table : Table} {keys : List String} {script : List Stmt}

/-! ## Legal scripts -/

/-- The names that a statement makes variables of. -/
def Stmt.bound : Stmt → List String
  | .take names others _ => names ++ others.toList
  | .define name _ => [name]
  | _ => []

/-- The name that a line before a script brings: a library, or the parameter of the function that the script
is the body of. -/
def broughtName? (line : String) : Option String :=
  let library := Text.field? "import * as " ' ' line.toList
  (library.or (Text.field? "export function request(" ')' line.toList)).map Prod.fst

/-- The names that the code has already where a request is made: the library and its parameter. -/
def ownNames : List String := prologue.filterMap broughtName?

example : ownNames = ["ddb", "ctx"] := by decide +kernel

/-- The names that no variable of a module can have: the reserved words, those of strict code among them, and
the two names that strict code does not bind. -/
def reservedWords : List String :=
  ["await", "break", "case", "catch", "class", "const", "continue", "debugger", "default", "delete", "do",
   "else", "enum", "export", "extends", "false", "finally", "for", "function", "if", "import", "in",
   "instanceof", "new", "null", "return", "super", "switch", "this", "throw", "true", "try", "typeof", "var",
   "void", "while", "with", "yield", "let", "static", "implements", "interface", "package", "private",
   "protected", "public", "arguments", "eval"]

/-- The names that a key attribute should not have, for the sake of the code of an update. -/
def takenNames : List String := "values" :: ownNames ++ reservedWords

/-- Variables are different from each other and from the names that the code has already, and none of them is
reserved. -/
structure AreLegal (names : List String) : Prop where
  distinct : names.Nodup
  own : ∀ n ∈ names, n ∉ ownNames
  reserved : ∀ n ∈ names, n ∉ reservedWords

/-- The variables that a script makes. -/
def bound (script : List Stmt) : List String := script.flatMap Stmt.bound

theorem bound_update (keys : List String) : bound (Request.update keys).script = keys ++ ["values"] :=
  List.append_nil _

theorem bound_query (names : List String) (narrowing index : Option String) :
    bound (Request.query names narrowing index).script = ["input", "query"] := by
  unfold bound
  rw [flatMap_script_query]
  show ["input"] ++ ["query"] ++ narrowing.toList.flatMap (fun _ => []) ++ [] = _
  rw [List.flatMap_eq_nil_iff.mpr fun _ _ => rfl]
  rfl

theorem not_mem_takenNames_iff {n : String} :
    n ∉ takenNames ↔ n ≠ "values" ∧ n ∉ ownNames ∧ n ∉ reservedWords := by
  unfold takenNames
  rw [List.cons_append, List.mem_cons, not_or, List.mem_append, not_or]

theorem areLegal_update_iff : AreLegal (keys ++ ["values"]) ↔ keys.Nodup ∧ ∀ k ∈ keys, k ∉ takenNames := by
  have hvalues : "values" ∉ ownNames ∧ "values" ∉ reservedWords := by decide
  have hdistinct : (keys ++ ["values"]).Nodup ↔ "values" ∉ keys ∧ keys.Nodup := by
    rw [List.nodup_append_comm, List.singleton_append, List.nodup_cons]
  constructor
  · intro h
    obtain ⟨hnot, hnodup⟩ := hdistinct.mp h.distinct
    refine ⟨hnodup, fun k hk => not_mem_takenNames_iff.mpr ⟨fun he => hnot (he ▸ hk), ?_, ?_⟩⟩
    · exact h.own k (List.mem_append_left _ hk)
    · exact h.reserved k (List.mem_append_left _ hk)
  · rintro ⟨hnodup, htaken⟩
    have hkeys := fun k hk => not_mem_takenNames_iff.mp (htaken k hk)
    constructor
    · exact hdistinct.mpr ⟨fun hm => (hkeys _ hm).1 rfl, hnodup⟩
    · exact List.forall_mem_append.mpr ⟨fun k hk => (hkeys k hk).2.1, List.forall_mem_singleton.mpr hvalues.1⟩
    · exact List.forall_mem_append.mpr ⟨fun k hk => (hkeys k hk).2.2, List.forall_mem_singleton.mpr hvalues.2⟩

/-- The variables of a request are legal, apart from those of an update whose keys clash. -/
theorem areLegal_bound_iff (q : Request) : AreLegal (bound q.script) ↔
    ∀ keys, q = .update keys → keys.Nodup ∧ ∀ k ∈ keys, k ∉ takenNames := by
  have hinput : AreLegal ["input"] := ⟨by decide, by decide, by decide⟩
  have hquery : AreLegal ["input", "query"] := ⟨by decide, by decide, by decide⟩
  cases q with
  | update keys =>
    rw [bound_update, areLegal_update_iff]
    simp
  | query names narrowing index =>
    rw [bound_query]
    exact iff_of_true hquery nofun
  | put keys => exact iff_of_true hinput nofun
  | remove keys => exact iff_of_true hinput nofun
  | scan names => exact iff_of_true hinput nofun

/-! ## Runs -/

/-- A value: nothing, a text, other data, an object, or the library. -/
inductive Value (α : Type) where
  | undefined
  | text (value : String)
  | data (value : α)
  | object (members : List (String × Value α))
  | library

/-- The variables that code can use, by name; the first one of a name counts. -/
abbrev Env (α : Type) := List (String × Value α)

namespace Value

/-- The members of an object. -/
def members? : Value α → Option (List (String × Value α))
  | .object members => some members
  | _ => none

/-- What members hold under a name. -/
def get (members : List (String × Value α)) (name : String) : Value α :=
  (members.lookup name).getD .undefined

end Value

/-- The members of an input under the names of a key. -/
def keyOf (keys : List String) (input : List (String × Value α)) : List (String × Value α) :=
  keys.map fun k => (k, .get input k)

/-- The members of an input that are not under the names of a key. -/
def restOf (keys : List String) (input : List (String × Value α)) : List (String × Value α) :=
  input.filter fun m => !keys.contains m.1

mutual

/-- The value of an expression, unless it uses what is not there. -/
def Expr.value (env : Env α) : Expr → Option (Value α)
  | .variable name => env.lookup name
  | .member of name => ((of.value env).bind Value.members?).map fun members => .get members name
  | .quoted value => some (.text value)
  | .object entries => (entryValues env entries).map .object
  termination_by structural e => e

/-- The members that entries make. -/
def Expr.entryValues (env : Env α) : List (String × Expr) → Option (List (String × Value α))
  | [] => some []
  | entry :: rest =>
    (Expr.entryValue env entry).bind fun member => (Expr.entryValues env rest).map (member :: ·)
  termination_by structural es => es

/-- The member that an entry makes. -/
def Expr.entryValue (env : Env α) : String × Expr → Option (String × Value α)
  | (name, value) => (value.value env).map fun v => (name, v)
  termination_by structural entry => entry

end

/-- What comes of a statement: code goes on with variables, or it ends with a call of the library. -/
inductive Outcome (α : Type) where
  | next (env : Env α)
  | call (function : String) (argument : Value α)

/-- What comes of a statement that makes variables or ends the code. -/
def Stmt.outcome (env : Env α) : Stmt → Option (Outcome α)
  | .take names others of => ((of.value env).bind Value.members?).map fun members =>
    .next (keyOf names members ++ others.toList.map (fun n => (n, .object (restOf names members))) ++ env)
  | .define name value => (value.value env).map fun v => .next ((name, v) :: env)
  | .answer function argument =>
    match env.lookup "ddb" with
    | some .library => (argument.value env).map fun v => .call function v
    | _ => none
  | _ => none

/-- The call that a script ends with. -/
def run (env : Env α) : List Stmt → Option (String × Value α)
  | [] => none
  | stmt :: rest =>
    match stmt.outcome env with
    | some (.next env) => run env rest
    | some (.call function argument) => some (function, argument)
    | none => none

/-- What the code has where it is called with an input: the context and the library. -/
def calledWith (input : List (String × Value α)) : Env α :=
  [("ctx", .object [("args", .object [("input", .object input)])]), ("ddb", .library)]

section

variable {env next : Env α} {stmt : Stmt} {rest : List Stmt} {input : List (String × Value α)}

theorem run_of_next (h : stmt.outcome env = some (.next next)) : run env (stmt :: rest) = run next rest := by
  conv_lhs => unfold run
  rw [h]

theorem run_of_call {function : String} {argument : Value α}
    (h : stmt.outcome env = some (.call function argument)) :
    run env (stmt :: rest) = some (function, argument) := by
  unfold run
  rw [h]

theorem lookup_keyOf_of_mem {n : String} (h : n ∈ keys) : (keyOf keys input).lookup n = some (.get input n) := by
  induction keys with
  | nil => cases h
  | cons k rest ih =>
    unfold keyOf at ih ⊢
    rw [List.map_cons, List.lookup_cons]
    cases hk : n == k with
    | true => rw [beq_iff_eq.mp hk]
    | false => exact ih (List.mem_of_ne_of_mem (beq_eq_false_iff_ne.mp hk) h)

theorem lookup_keyOf_of_not_mem {n : String} (h : n ∉ keys) : (keyOf keys input).lookup n = none := by
  rw [List.lookup_eq_none_iff]
  intro m hm
  obtain ⟨k, hk, rfl⟩ := List.mem_map.mp hm
  exact bne_iff_ne.mpr fun he => h (he ▸ hk)

/-- Entries with variables of their names hold what these stand for. -/
theorem entryValues_same (h : ∀ k ∈ keys, env.lookup k = some (.get input k)) :
    Expr.entryValues env (keys.map Expr.same) = some (keyOf keys input) := by
  induction keys with
  | nil => rfl
  | cons k rest ih =>
    have hentry : Expr.entryValue env (Expr.same k) = some (k, .get input k) := by
      show (env.lookup k).map _ = _
      rw [h k List.mem_cons_self]
      rfl
    show (Expr.entryValue env (Expr.same k)).bind _ = _
    rw [hentry, Option.bind_some, ih fun k hk => h k (List.mem_cons_of_mem _ hk)]
    rfl

/-- An update whose names stand for the key and the rest of the input is called with these. -/
theorem outcome_answer (hkeys : ∀ k ∈ keys, env.lookup k = some (.get input k))
    (hvalues : env.lookup "values" = some (.object (restOf keys input)))
    (hlibrary : env.lookup "ddb" = some .library) :
    Stmt.outcome env (.answer "update" (.object [("key", .object (keys.map Expr.same)),
      ("update", .variable "values")])) = some (.call "update" (.object
        [("key", .object (keyOf keys input)), ("update", .object (restOf keys input))])) := by
  simp only [Stmt.outcome, Expr.value, Expr.entryValues, Expr.entryValue, hlibrary, hvalues,
    entryValues_same hkeys, Option.map_some, Option.bind_some]

/-- A legal update is called with the key in its input, and with the rest of this. -/
theorem run_update (h : AreLegal (bound (Request.update keys).script)) (input : List (String × Value α)) :
    run (calledWith input) (Request.update keys).script = some ("update", .object
      [("key", .object (keyOf keys input)), ("update", .object (restOf keys input))]) := by
  rw [bound_update] at h
  have hnot : ∀ n ∈ takenNames, n ∉ keys := fun n hn hk => (areLegal_update_iff.mp h).2 n hk hn
  have htake : Stmt.outcome (calledWith input) (.take keys (some "values") (.member .arguments "input")) =
      some (.next (keyOf keys input ++ [("values", .object (restOf keys input))] ++ calledWith input)) := rfl
  -- what the code has besides the keys is found behind them
  have hother : ∀ n ∈ takenNames,
      (keyOf keys input ++ [("values", Value.object (restOf keys input))] ++ calledWith input).lookup n =
        (("values", Value.object (restOf keys input)) :: calledWith input).lookup n := fun n hn => by
    rw [List.append_assoc, List.lookup_append, lookup_keyOf_of_not_mem (hnot n hn), Option.none_or]
    rfl
  refine (run_of_next htake).trans (run_of_call (outcome_answer (fun k hk => ?_) ?_ ?_))
  · rw [List.append_assoc, List.lookup_append, lookup_keyOf_of_mem hk]
    rfl
  · exact hother "values" (by decide)
  · exact hother "ddb" (by decide)

end

/-! ## Tables -/

/-- The operation that updates an item of a table. -/
def updateOperation (table : Table) : Operation :=
  itemOperation table "update" (Naming.updateInput table.name)

/-- How a table answers its update: there is a resolver for the operation, which is what answers it. The code in
the resource of the resolver is the text of a script, with what brings the library and the context before it and
what answers after it; its variables are the key attributes and `values`. These are legal exactly if the table is
not sorted by its partition and no key attribute has a taken name; then the update is called, whatever the input
is, with what this has for the key attributes as the key and with the rest of it. The variables in the code for
all other operations of the table are legal in any case. -/
structure Updates (c : Catalog) (table : Table) (resolver : Resolver) : Prop where
  made : Infra.resolver table (updateOperation table) = .ok resolver
  code : resolver.resource.textAt? ["Properties", "Code"] =
    some (codeOf resolver.request.script resolver.request.data)
  binds : bound resolver.request.script = table.primaryKey ++ ["values"]
  legal : AreLegal (bound resolver.request.script) ↔
    table.sort ≠ some table.partition ∧ ∀ k ∈ table.primaryKey, k ∉ takenNames
  updates : AreLegal (bound resolver.request.script) → ∀ (α : Type) (input : List (String × Value α)),
    run (calledWith input) resolver.request.script = some ("update", .object
      [("key", .object (keyOf table.primaryKey input)), ("update", .object (restOf table.primaryKey input))])
  others : ∀ op ∈ candidates table, op ≠ updateOperation table →
    ∃ other, Infra.resolver table op = .ok other ∧ AreLegal (bound other.request.script)
  answered : IsAnswered c table (updateOperation table) resolver

/-- What is requested for another operation than the update is no update. -/
theorem exists_request_of_ne {op : Operation} (h : op ∈ candidates table) (hne : op ≠ updateOperation table) :
    ∃ q, request table op = .ok q ∧ ∀ keys, q ≠ .update keys := by
  rcases mem_candidates_iff.mp h with ⟨verb, hv, rfl⟩ | ⟨key, hkey, rfl⟩
  · refine ⟨_, request_itemOperation hv, fun keys he => hne ?_⟩
    simp only [Naming.verbs, List.mem_cons, List.not_mem_nil, or_false] at hv
    rcases hv with rfl | rfl | rfl
    · cases he
    · rfl
    · cases he
  · obtain ⟨first, hfirst⟩ := exists_firstKey? hkey
    exact ⟨_, request_queryOperation hfirst, fun _ => queryRequest_ne_update⟩

theorem updates_of_catalog {corpus : Corpus} (hp : corpus.IsParsed) (h : corpus.catalog = .ok c)
    (ht : table ∈ c.tables) : ∃ resolver, Updates c table resolver := by
  have hc := Corpus.isSound_of_catalog hp h
  have hrequest : request table (updateOperation table) = .ok (.update table.primaryKey) :=
    request_itemOperation (by decide)
  have hresolver := resolver_of_request hrequest
  refine ⟨_, hresolver, code_of_resolver hresolver, bound_update _, ?_, fun hlegal α input =>
    run_update hlegal input, fun op hop hne => ?_, isAnswered_of_resolver hc ht hresolver⟩
  · rw [bound_update, areLegal_update_iff, nodup_primaryKey_iff]
  · obtain ⟨q, hq, hnot⟩ := exists_request_of_ne hop hne
    exact ⟨_, resolver_of_request hq, (areLegal_bound_iff q).mpr fun keys he => absurd he (hnot keys)⟩

/-- The source of a table with a reserved word as its key. -/
def lessonsSource : List String :=
  ["name: Lesson", "kind: table", "version: 1", "model:", "  keys: {primary: {partition: class}}",
    "  attributes: [{name: class, type: string}, {name: room, type: string}]"]

/-- The document that it is parsed to. -/
def lessons : Corpus :=
  let attr (name : String) : AttributeDoc := ⟨name, .scalar .string, false, none, none⟩
  ⟨[⟨⟨"Lesson.yml"⟩, "Lesson", none, .table ⟨"1", "class", none, none, [attr "class", attr "room"]⟩⟩], []⟩

theorem lessons_isParsed : lessons.IsParsed :=
  Corpus.isParsed_of_mapM (s := [(⟨"Lesson.yml"⟩, lessonsSource)]) (by decide +kernel) (.inl rfl)

/-- The catalog of this document. -/
def lessonsCatalog : Catalog := lessons.catalog.toOption.getD .empty

theorem catalog_lessons : lessons.catalog = .ok lessonsCatalog := by decide +kernel

theorem updates_of_catalog_lessons : lessons.IsParsed ∧ lessons.catalog = .ok lessonsCatalog ∧
    ∃ table ∈ lessonsCatalog.tables, ∃ resolver, Updates lessonsCatalog table resolver := by
  have htable : ∃ table ∈ lessonsCatalog.tables, table.name = "Lesson" := by decide +kernel
  obtain ⟨table, ht, -⟩ := htable
  exact ⟨lessons_isParsed, catalog_lessons, table, ht, updates_of_catalog lessons_isParsed catalog_lessons ht⟩

/-- The code for the update of the table makes a variable of a reserved word. The loader lets attributes have any
of the taken names. -/
theorem exists_update_illegal : lessons.IsParsed ∧ lessons.catalog = .ok lessonsCatalog ∧
    ∃ table ∈ lessonsCatalog.tables,
      Infra.request table (updateOperation table) = .ok (.update ["class"]) ∧
        ((Infra.resolver table (updateOperation table)).toOption.bind fun resolver =>
            resolver.resource.textAt? ["Properties", "Code"]) =
          some (Text.unlines
            ["import * as ddb from '@aws-appsync/utils/dynamodb';",
             "",
             "export function request(ctx) \x7b",
             "  const \x7b class, ...values \x7d = ctx.args.input;",
             "  return ddb.update(\x7b key: \x7b class \x7d, update: values \x7d);",
             "\x7d",
             "",
             "export function response(ctx) \x7b",
             "  if (ctx.error) \x7b",
             "    return \x7b statusCode: 500, message: ctx.error.message, data: null \x7d;",
             "  \x7d",
             "  return \x7b statusCode: 200, message: null, data: ctx.result \x7d;",
             "\x7d"]) ∧
        ¬ AreLegal (bound (Request.update ["class"]).script) ∧
        ∀ n ∈ takenNames, isCamelName n.toList = true := by
  have hreserved : "class" ∈ bound (Request.update ["class"]).script ∧ "class" ∈ reservedWords := by decide
  have hcode : ∃ table ∈ lessonsCatalog.tables,
      Infra.request table (updateOperation table) = .ok (.update ["class"]) ∧
        ((Infra.resolver table (updateOperation table)).toOption.bind fun resolver =>
          resolver.resource.textAt? ["Properties", "Code"]) = some (Request.update ["class"]).code := by
    decide +kernel
  obtain ⟨table, ht, hrequest, hcode⟩ := hcode
  exact ⟨lessons_isParsed, catalog_lessons, table, ht, hrequest, hcode.trans (by decide +kernel),
    fun h => h.reserved _ hreserved.1 hreserved.2, by decide +kernel⟩

end Infra

end SchemaGen
