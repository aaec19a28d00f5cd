import SchemaGen.Target.Infra.Resolver

/-!
# The code of resolvers

The code of a resolver is put together as lines of text. Here it is taken apart again: between the lines that
bring the library and the context and those that answer, the lines of every request are the text of a few
statements, a `script`, from which one sees which attributes of the input the code reads, which function it
calls, and on what conditions. An attribute may be read in any case, or only where it has been checked that the
input has it.

Results:
1. `code_eq`: the code of a request is the text of its script, with what stands around it.
2. `reads_script`, `readsIfGiven_script`: the attributes that a request reads.
3. `calls_query`, `conditions_query`, `conditionsIfGiven_query`: how a query calls and on what conditions.
-/

namespace SchemaGen.Infra

/-! ## Syntax -/

/-- An expression: a variable, a member of what an expression yields, a text, or an object. -/
inductive Expr where
  | variable (name : String)
  | member (of : Expr) (name : String)
  | quoted (value : String)
  | object (entries : List (String × Expr))

/-- A statement: members of an object, and perhaps all others, become variables; a variable is defined; a
place is assigned; a statement is done where an expression has a value; or the answer of a function is
returned. -/
inductive Stmt where
  | take (names : List String) (others : Option String) (of : Expr)
  | define (name : String) (value : Expr)
  | assign (target value : Expr)
  | given (checked : Expr) (body : Stmt)
  | answer (function : String) (argument : Expr)

namespace Expr

/-- The arguments of the call that is answered. -/
def arguments : Expr := .member (.variable "ctx") "args"

/-- The input, once it was taken from the arguments. -/
def input : Expr := .variable "input"

/-- Whether the expression is the variable of that name. -/
def isVariable (name : String) : Expr → Bool
  | .variable other => other == name
  | _ => false

/-- Whether the expression is the input. -/
def isInput : Expr → Bool
  | .variable name => name == "input"
  | .member (.member (.variable "ctx") "args") name => name == "input"
  | _ => false

/-- The entries of an object. -/
def entries : Expr → List (String × Expr)
  | .object entries => entries
  | _ => []

/-- The value of a text. -/
def quoted? : Expr → Option String
  | .quoted value => some value
  | _ => none

mutual

/-- The text of an expression. -/
def text : Expr → String
  | .variable name => name
  | .member of name => of.text ++ "." ++ name
  | .quoted value => "'" ++ value ++ "'"
  | .object entries => "\x7b " ++ listed (entryTexts entries) ++ " \x7d"
  termination_by structural e => e

/-- The texts of entries. -/
def entryTexts : List (String × Expr) → List String
  | [] => []
  | entry :: rest => entryText entry :: entryTexts rest
  termination_by structural es => es

/-- The text of an entry; one that is named like the variable that it holds is written by that name. -/
def entryText : String × Expr → String
  | (name, value) => if value.isVariable name then name else name ++ ": " ++ value.text
  termination_by structural entry => entry

end

mutual

/-- The attributes of the input that an expression reads. -/
def reads : Expr → List String
  | .variable _ => []
  | .member of name => if of.isInput then [name] else of.reads
  | .quoted _ => []
  | .object entries => entriesRead entries
  termination_by structural e => e

/-- The attributes of the input that entries read. -/
def entriesRead : List (String × Expr) → List String
  | [] => []
  | entry :: rest => entryReads entry ++ entriesRead rest
  termination_by structural es => es

/-- The attributes of the input that an entry reads. -/
def entryReads : String × Expr → List String
  | (_, value) => value.reads
  termination_by structural entry => entry

end

end Expr

namespace Stmt

/-- The lines of a statement. -/
def lines (indent : String) : Stmt → List String
  | .take names others of =>
    [indent ++ "const \x7b " ++ listed (names ++ others.toList.map fun n => "..." ++ n) ++ " \x7d = " ++
      of.text ++ ";"]
  | .define name value => [indent ++ "const " ++ name ++ " = " ++ value.text ++ ";"]
  | .assign target value => [indent ++ target.text ++ " = " ++ value.text ++ ";"]
  | .given checked body =>
    (indent ++ "if (" ++ checked.text ++ " !== undefined && " ++ checked.text ++ " !== null) \x7b") ::
      (body.lines ("  " ++ indent) ++ [indent ++ "\x7d"])
  | .answer function argument => [indent ++ "return ddb." ++ function ++ "(" ++ argument.text ++ ");"]

/-- The attributes of the input that a statement reads in any case. Under a check those count that it is not
about. -/
def reads : Stmt → List String
  | .take names _ of => (if of.isInput then names else []) ++ of.reads
  | .define _ value => value.reads
  | .assign target value => target.reads ++ value.reads
  | .given checked body => body.reads.filter fun n => !checked.reads.contains n
  | .answer _ argument => argument.reads

/-- The attributes of the input that a statement reads where they are given. -/
def readsIfGiven : Stmt → List String
  | .given checked body => checked.reads ++ body.readsIfGiven
  | _ => []

/-- The function whose answer is returned, and the index that it is called with. -/
def call? : Stmt → Option (String × Option String)
  | .answer function argument =>
    some (function, (argument.entries.lookup "index").bind Expr.quoted?)
  | _ => none

/-- The conditions that a statement makes: those of a query, or the filter of a scan. -/
def conditions : Stmt → List (String × Expr)
  | .define "query" value => value.entries
  | .answer _ argument => ((argument.entries.lookup "filter").map Expr.entries).getD []
  | _ => []

/-- The conditions that a statement adds to a query where an attribute is given. -/
def conditionsIfGiven : Stmt → List (String × Expr)
  | .given _ (.assign (.member (.variable "query") name) value) => [(name, value)]
  | _ => []

end Stmt

/-! ## Scripts -/

namespace Expr

/-- An entry with an attribute of the input. -/
def taken (name : String) : String × Expr := (name, .member input name)

/-- An entry with a variable of its name. -/
def same (name : String) : String × Expr := (name, .variable name)

/-- The condition that an attribute equals that of the input. -/
def equal (name : String) : String × Expr := (name, .object [("eq", .member input name)])

end Expr

/-- The statement that takes the input from the call. -/
def takeInput : Stmt := .take ["input"] none .arguments

/-- The statement that narrows a query where the input has the attribute. -/
def narrow (name : String) : Stmt :=
  .given (.member .input name) (.assign (.member (.variable "query") name) (Expr.equal name).2)

/-- The statement that returns the answer to a query, through the index if there is one. -/
def answerQuery (index : Option String) : Stmt :=
  .answer "query" (.object (Expr.same "query" :: index.toList.map fun i => ("index", .quoted i)))

/-- The statements of a request. -/
def Request.script : Request → List Stmt
  | .put keys =>
    [takeInput, .answer "put" (.object [("key", .object (keys.map Expr.taken)), ("item", .input)])]
  | .update keys =>
    [.take keys (some "values") (.member .arguments "input"),
     .answer "update" (.object [("key", .object (keys.map Expr.same)), ("update", .variable "values")])]
  | .remove keys => [takeInput, .answer "remove" (.object [("key", .object (keys.map Expr.taken))])]
  | .scan names => [takeInput, .answer "scan" (.object [("filter", .object (names.map Expr.equal))])]
  | .query names narrowing index =>
    [takeInput, .define "query" (.object (names.map Expr.equal))] ++ narrowing.toList.map narrow ++
      [answerQuery index]

/-- What the answer to a request holds: the items that were found, or the item. -/
def Request.data : Request → Expr
  | .scan _ => .member (.member (.variable "ctx") "result") "items"
  | .query _ _ _ => .member (.member (.variable "ctx") "result") "items"
  | _ => .member (.variable "ctx") "result"

/-! ## Code -/

/-- The lines before a script, which bring the library and, as a parameter, the context. -/
def prologue : List String :=
  ["import * as ddb from '@aws-appsync/utils/dynamodb';", "", "export function request(ctx) \x7b"]

/-- The lines after a script: what comes back is handed on, be it an error or data. -/
def epilogue (data : Expr) : List String :=
  ["\x7d", "", "export function response(ctx) \x7b", "  if (ctx.error) \x7b",
   "    return \x7b statusCode: 500, message: ctx.error.message, data: null \x7d;", "  \x7d",
   "  return \x7b statusCode: 200, message: null, data: " ++ data.text ++ " \x7d;", "\x7d"]

/-- The code that makes a request by a script and answers with data. -/
def codeOf (script : List Stmt) (data : Expr) : String :=
  Text.unlines (prologue ++ script.flatMap (Stmt.lines "  ") ++ epilogue data)

/-! ## The text of a script -/

variable {names : List String} {name : String}

theorem listed_singleton (text : String) : listed [text] = text := by simp [listed]

theorem listed_cons (text : String) {rest : List String} (h : rest ≠ []) :
    listed (text :: rest) = text ++ ", " ++ listed rest := by
  obtain ⟨next, more, rfl⟩ := List.exists_cons_of_ne_nil h
  unfold listed
  rw [String.intercalate_cons_cons, String.append_assoc]

/-- Another text after those that are listed. -/
theorem listed_concat (h : names ≠ []) (text : String) :
    listed (names ++ [text]) = listed names ++ ", " ++ text := by
  induction names with
  | nil => exact absurd rfl h
  | cons first rest ih =>
    by_cases hrest : rest = []
    · subst hrest
      rw [listed_singleton]
      exact (listed_cons first (List.cons_ne_nil _ _)).trans (by rw [listed_singleton])
    · rw [List.cons_append, listed_cons first (by simp), ih hrest, listed_cons first hrest]
      simp only [String.append_assoc]

namespace Expr

theorem entryTexts_eq_map (entries : List (String × Expr)) : entryTexts entries = entries.map entryText := by
  induction entries with
  | nil => rfl
  | cons entry rest ih =>
    show entryText entry :: entryTexts rest = _
    rw [ih, List.map_cons]

theorem entriesRead_eq_flatMap (entries : List (String × Expr)) :
    entriesRead entries = entries.flatMap entryReads := by
  induction entries with
  | nil => rfl
  | cons entry rest ih =>
    show entryReads entry ++ entriesRead rest = _
    rw [ih, List.flatMap_cons]

theorem text_object (entries : List (String × Expr)) :
    (object entries).text = "\x7b " ++ listed (entries.map entryText) ++ " \x7d" := by
  show "\x7b " ++ listed (entryTexts entries) ++ " \x7d" = _
  rw [entryTexts_eq_map]

theorem text_taken (names : List String) :
    (object (names.map taken)).text = "\x7b " ++ fromInput names ++ " \x7d" := by
  have hentry : entryText ∘ taken = fun n => n ++ ": input." ++ n := by
    funext n
    show n ++ ": " ++ ("input" ++ "." ++ n) = _
    exact String.toList_inj.mp (by simp)
  rw [text_object, List.map_map, hentry]
  rfl

theorem text_same (names : List String) :
    (object (names.map same)).text = "\x7b " ++ listed names ++ " \x7d" := by
  have hentry : entryText ∘ same = id := by
    funext n
    show (if (n == n) = true then n else _) = n
    rw [if_pos (beq_self_eq_true n)]
  rw [text_object, List.map_map, hentry, List.map_id]

/-- What an attribute is compared with. -/
theorem text_equal (name : String) : (equal name).2.text = "\x7b eq: input." ++ name ++ " \x7d" := by
  show "\x7b " ++ listed ["eq" ++ ": " ++ ("input" ++ "." ++ name)] ++ " \x7d" = _
  rw [listed_singleton]
  exact String.toList_inj.mp (by simp)

theorem text_equals (names : List String) :
    (object (names.map equal)).text = "\x7b " ++ conditionsText names ++ " \x7d" := by
  have hentry : entryText ∘ equal = fun n => n ++ ": \x7b eq: input." ++ n ++ " \x7d" := by
    funext n
    show n ++ ": " ++ (equal n).2.text = _
    rw [text_equal]
    exact String.toList_inj.mp (by simp)
  rw [text_object, List.map_map, hentry]
  rfl

/-- An object with one entry. -/
theorem text_single (name : String) {value : Expr} (h : value.isVariable name = false) :
    (object [(name, value)]).text = "\x7b " ++ name ++ ": " ++ value.text ++ " \x7d" := by
  have hentry : entryText (name, value) = name ++ ": " ++ value.text := if_neg (Bool.eq_false_iff.mp h)
  rw [text_object, List.map_singleton, listed_singleton, hentry]
  simp only [String.append_assoc]

/-- An object with two entries. -/
theorem text_pair (name other : String) {value more : Expr} (h : value.isVariable name = false)
    (hmore : more.isVariable other = false) : (object [(name, value), (other, more)]).text =
      "\x7b " ++ name ++ ": " ++ value.text ++ ", " ++ other ++ ": " ++ more.text ++ " \x7d" := by
  have hentry : entryText (name, value) = name ++ ": " ++ value.text := if_neg (Bool.eq_false_iff.mp h)
  have hlast : entryText (other, more) = other ++ ": " ++ more.text :=
    if_neg (Bool.eq_false_iff.mp hmore)
  rw [text_object, List.map_cons, List.map_singleton, listed_cons _ (List.cons_ne_nil _ _),
    listed_singleton, hentry, hlast]
  simp only [String.append_assoc]

end Expr

theorem lines_takeInput : takeInput.lines "  " = [inputLine] := by decide

theorem lines_narrow (name : String) : (narrow name).lines "  " = narrowingLines name := by
  show ["  " ++ "if (" ++ ("input." ++ name) ++ " !== undefined && " ++ ("input." ++ name) ++ " !== null) \x7b",
    "    " ++ ("query." ++ name) ++ " = " ++ (Expr.equal name).2.text ++ ";", "  \x7d"] = _
  unfold narrowingLines
  rw [Expr.text_equal, List.cons.injEq, List.cons.injEq]
  exact ⟨String.toList_inj.mp (by simp), String.toList_inj.mp (by simp), rfl⟩

theorem lines_answer (function : String) (argument : Expr) :
    (Stmt.answer function argument).lines "  " =
      ["  return ddb." ++ function ++ "(" ++ argument.text ++ ");"] := rfl

theorem lines_answerQuery (index : Option String) : (answerQuery index).lines "  " =
      [match index with
        | some index => "  return ddb.query(\x7b query, index: '" ++ index ++ "' \x7d);"
        | none => "  return ddb.query(\x7b query \x7d);"] := by
  cases index with
  | none => decide
  | some index =>
    have hquery : Expr.entryText (Expr.same "query") = "query" := rfl
    have hindex : Expr.entryText ("index", .quoted index) = "index" ++ ": " ++ ("'" ++ index ++ "'") := rfl
    unfold answerQuery
    rw [lines_answer, Expr.text_object, Option.toList_some, List.map_singleton, List.map_cons,
      List.map_singleton, hquery, hindex, listed_cons _ (List.cons_ne_nil _ _), listed_singleton]
    exact congrArg (fun line => [line]) (String.toList_inj.mp (by simp))

theorem lines_takeKey {keys : List String} (h : keys ≠ []) :
    (Stmt.take keys (some "values") (.member .arguments "input")).lines "  " =
      ["  const \x7b " ++ listed keys ++ ", ...values \x7d = ctx.args.input;"] := by
  show ["  " ++ "const \x7b " ++ listed (keys ++ ["...values"]) ++ " \x7d = " ++ "ctx.args.input" ++ ";"] = _
  rw [listed_concat h]
  exact congrArg (fun line => [line]) (String.toList_inj.mp (by simp))

theorem lines_defineQuery (names : List String) :
    (Stmt.define "query" (.object (names.map Expr.equal))).lines "  " =
      ["  const query = \x7b " ++ conditionsText names ++ " \x7d;"] := by
  show ["  " ++ "const " ++ "query" ++ " = " ++ (Expr.object (names.map Expr.equal)).text ++ ";"] = _
  rw [Expr.text_equals]
  exact congrArg (fun line => [line]) (String.toList_inj.mp (by simp))

/-- The lines of a request are the text of its script; an update takes at least one key. -/
theorem lines_script {q : Request} (h : q ≠ .update []) : q.script.flatMap (Stmt.lines "  ") = q.lines := by
  cases q with
  | put keys =>
    unfold Request.script Request.lines
    rw [List.flatMap_cons, lines_takeInput, List.flatMap_singleton, lines_answer,
      Expr.text_pair "key" "item" rfl rfl, Expr.text_taken]
    refine congrArg (fun line => [inputLine, line]) (String.toList_inj.mp ?_)
    simp [Expr.input, Expr.text]
  | update keys =>
    have hkeys : keys ≠ [] := fun he => h (he ▸ rfl)
    unfold Request.script Request.lines
    rw [List.flatMap_cons, lines_takeKey hkeys, List.flatMap_singleton, lines_answer,
      Expr.text_pair "key" "update" rfl rfl, Expr.text_same]
    refine congrArg (List.cons _) (congrArg (fun line => [line]) (String.toList_inj.mp ?_))
    simp [Expr.text]
  | remove keys =>
    unfold Request.script Request.lines
    rw [List.flatMap_cons, lines_takeInput, List.flatMap_singleton, lines_answer,
      Expr.text_single "key" rfl, Expr.text_taken]
    exact congrArg (fun line => [inputLine, line]) (String.toList_inj.mp (by simp))
  | scan names =>
    unfold Request.script Request.lines
    rw [List.flatMap_cons, lines_takeInput, List.flatMap_singleton, lines_answer,
      Expr.text_single "filter" rfl, Expr.text_equals]
    exact congrArg (fun line => [inputLine, line]) (String.toList_inj.mp (by simp))
  | query names narrowing index =>
    unfold Request.script Request.lines
    rw [List.flatMap_append, List.flatMap_append, List.flatMap_map, List.flatMap_singleton, lines_answerQuery,
      List.flatMap_cons, lines_takeInput, List.flatMap_singleton, lines_defineQuery, funext lines_narrow]
    rfl

theorem text_data (q : Request) :
    q.data.text = if q.yieldsList then "ctx.result.items" else "ctx.result" := by
  cases q <;> rfl

/-- The code of a request is that of its script and its data. -/
theorem code_eq {q : Request} (h : q ≠ .update []) : q.code = codeOf q.script q.data := by
  unfold Request.code codeOf epilogue
  rw [lines_script h, text_data]
  rfl

/-! ## What a script reads -/

namespace Expr

theorem reads_taken (names : List String) : (object (names.map taken)).reads = names := by
  show entriesRead (names.map taken) = names
  rw [entriesRead_eq_flatMap, List.flatMap_map]
  exact List.flatMap_singleton' names

theorem reads_equals (names : List String) : (object (names.map equal)).reads = names := by
  show entriesRead (names.map equal) = names
  rw [entriesRead_eq_flatMap, List.flatMap_map]
  exact List.flatMap_singleton' names

theorem reads_same (names : List String) : (object (names.map same)).reads = [] := by
  show entriesRead (names.map same) = []
  rw [entriesRead_eq_flatMap, List.flatMap_map]
  exact List.flatMap_eq_nil_iff.mpr fun _ _ => rfl

end Expr

/-- The attributes of the input that a script reads in any case. -/
def reads (script : List Stmt) : List String := script.flatMap Stmt.reads

/-- The attributes of the input that a script reads where they are given. -/
def readsIfGiven (script : List Stmt) : List String := script.flatMap Stmt.readsIfGiven

/-- The functions that a script calls, each with the index that it is called with. -/
def calls (script : List Stmt) : List (String × Option String) := script.filterMap Stmt.call?

/-- The conditions that a script makes in any case. -/
def conditions (script : List Stmt) : List (String × Expr) := script.flatMap Stmt.conditions

/-- The conditions that a script makes where an attribute is given. -/
def conditionsIfGiven (script : List Stmt) : List (String × Expr) :=
  script.flatMap Stmt.conditionsIfGiven

/-- The attributes that a request takes from the input. -/
def Request.attributes : Request → List String
  | .put keys => keys
  | .update keys => keys
  | .remove keys => keys
  | .scan names => names
  | .query names _ _ => names

/-- What is read off the statements of a query. -/
theorem flatMap_script_query {β : Type} (f : Stmt → List β) (names : List String)
    (narrowing index : Option String) : (Request.query names narrowing index).script.flatMap f =
      f takeInput ++ f (.define "query" (.object (names.map Expr.equal))) ++
        narrowing.toList.flatMap (fun n => f (narrow n)) ++ f (answerQuery index) := by
  unfold Request.script
  simp only [List.flatMap_append, List.flatMap_cons, List.flatMap_nil, List.flatMap_map, List.append_nil]

theorem reads_narrow (name : String) : (narrow name).reads = [] := by
  show [name].filter (fun n => !([name].contains n)) = []
  simp

theorem reads_answerQuery (index : Option String) : (answerQuery index).reads = [] := by
  cases index <;> rfl

/-- A request reads its attributes in any case. -/
theorem reads_script (q : Request) : reads q.script = q.attributes := by
  unfold reads
  cases q with
  | put keys =>
    show (Expr.object (keys.map Expr.taken)).reads ++ [] ++ [] = keys
    rw [Expr.reads_taken, List.append_nil, List.append_nil]
  | update keys =>
    show keys ++ [] ++ ((Expr.object (keys.map Expr.same)).reads ++ [] ++ []) = keys
    rw [Expr.reads_same, List.append_nil]
    exact List.append_nil keys
  | remove keys =>
    show (Expr.object (keys.map Expr.taken)).reads ++ [] ++ [] = keys
    rw [Expr.reads_taken, List.append_nil, List.append_nil]
  | scan names =>
    show (Expr.object (names.map Expr.equal)).reads ++ [] ++ [] = names
    rw [Expr.reads_equals, List.append_nil, List.append_nil]
  | query names narrowing index =>
    rw [flatMap_script_query, funext reads_narrow, reads_answerQuery]
    show [] ++ (Expr.object (names.map Expr.equal)).reads ++ narrowing.toList.flatMap (fun _ => []) ++ [] =
      names
    rw [Expr.reads_equals, List.nil_append, List.append_nil, List.flatMap_eq_nil_iff.mpr fun _ _ => rfl,
      List.append_nil]

/-- The attribute that a request takes from the input where it is given. -/
def Request.narrowing? : Request → Option String
  | .query _ narrowing _ => narrowing
  | _ => none

/-- A request reads the attribute that narrows it where it is given. -/
theorem readsIfGiven_script (q : Request) : readsIfGiven q.script = q.narrowing?.toList := by
  unfold readsIfGiven
  cases q with
  | query names narrowing index =>
    rw [flatMap_script_query]
    show [] ++ [] ++ narrowing.toList.flatMap (fun n => [n]) ++ [] = narrowing.toList
    rw [List.append_nil, List.flatMap_singleton']
    rfl
  | _ => rfl

/-! ## What a script calls -/

theorem calls_query (names : List String) (narrowing index : Option String) :
    calls (Request.query names narrowing index).script = [("query", index)] := by
  unfold calls Request.script
  rw [List.filterMap_append, List.filterMap_append]
  cases narrowing <;> cases index <;> rfl

theorem conditions_query (names : List String) (narrowing index : Option String) :
    conditions (Request.query names narrowing index).script = names.map Expr.equal := by
  unfold conditions
  rw [flatMap_script_query]
  show [] ++ names.map Expr.equal ++ narrowing.toList.flatMap (fun _ => []) ++ (answerQuery index).conditions = _
  rw [List.flatMap_eq_nil_iff.mpr fun _ _ => rfl, List.nil_append, List.append_nil]
  cases index <;> exact List.append_nil _

theorem conditionsIfGiven_query (names : List String) (narrowing index : Option String) :
    conditionsIfGiven (Request.query names narrowing index).script = narrowing.toList.map Expr.equal := by
  unfold conditionsIfGiven
  rw [flatMap_script_query]
  show [] ++ [] ++ narrowing.toList.flatMap (fun n => [Expr.equal n]) ++ [] = _
  rw [List.append_nil, List.nil_append, List.nil_append]
  cases narrowing <;> rfl

theorem conditions_scan (names : List String) :
    conditions (Request.scan names).script = names.map Expr.equal := by
  show names.map Expr.equal ++ [] = _
  rw [List.append_nil]

end SchemaGen.Infra
