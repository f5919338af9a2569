import DocQuery.Aggregation.Flatten
import DocQuery.Condition.Reduction
import DocQuery.Query.Basic
import DocQuery.Statement.Reader

/-! The query of a SELECT statement: a find, or an aggregation when it groups or calls functions. -/

namespace DocQuery

inductive QueryError where
  | invalidQuery (sql : String) (cause : Option ReadError)
  | unsupportedStatement (kind : String)
  | emptySelect
  | havingWithoutGroup
  | ungroupedFields (fields : List String)
  | aggregation (error : AggregationError)
  | condition (error : ReductionError)
deriving DecidableEq, Repr

def AggregationError.message : AggregationError → String
  | unknownFunction name => "not supported \"" ++ name ++ "\" aggregate function"
  | malformed error => "malformed expression: " ++ error.message
  | noArgument text => "malformed expression: " ++ text ++ " has no argument"

def ReductionError.message : ReductionError → String
  | inline error => error.message
  | openInside text => "bracket left open inside a condition: " ++ text

def QueryError.message : QueryError → String
  | invalidQuery sql cause =>
    "invalid sql query for string: " ++ sql
      ++ (match cause with
          | some e => " (" ++ e.message ++ ")"
          | none => "")
  | unsupportedStatement kind => "not supported statement type " ++ kind
  | emptySelect => "Invalid SELECT statement"
  | havingWithoutGroup => "Cannot use having without group by"
  | ungroupedFields fields =>
    "cannot select field(s) not in group by clause: " ++ ", ".intercalate fields
  | aggregation error => error.message
  | condition error => error.message

namespace Query

/-- A field as it is named in a document: without blanks around it and without quotes. -/
def fieldName (expr : String) : String :=
  String.ofList (Literal.unquoted (Text.trim expr.toList))

/-- The fields that are selected by name; a star selects nothing in particular. -/
def plainFields (items : List SelectItem) : List String :=
  ((items.filter (·.function.isNone)).map (fieldName ·.expr)).filter (· != "*")

def functionItems (items : List SelectItem) : List SelectItem :=
  items.filter (·.function.isSome)

def projection (fields : List String) : Option Document :=
  if fields.isEmpty then none
  else some (Document.insertAll [] (fields.map fun field => (field, .int 1)))

def sortDocument (orders : List OrderItem) : Option Document :=
  if orders.isEmpty then none
  else
    some (Document.insertAll [] (orders.map fun item =>
      (item.expr, .int (match item.direction with | .ascending => 1 | .descending => -1))))

def firstHint (hints : List IndexHint) : Option String :=
  hints.head?.bind (·.indexes.head?)

/-- The key of a grouped field; a point cannot stand in a key. -/
def groupKey (field : String) : String :=
  String.ofList (field.toList.flatMap fun c => if c = '.' then ['_', '_'] else [c])

/-- The keys of the grouped fields and the references to these. -/
def groupKeys (groups : List String) : List (String × Value) :=
  groups.map fun expr => (groupKey (fieldName expr), Aggregation.reference (fieldName expr))

/-- All documents are one group when nothing is grouped. -/
def groupId (keys : List (String × Value)) : Value :=
  if keys.isEmpty then .null else .document (Document.insertAll [] keys)

/-- The selected fields that are not grouped. The key of a group may always be selected. -/
def ungrouped (fields : List String) (keys : List (String × Value)) : List String :=
  fields.filter fun field => field != "_id" && !keys.any (·.1 == groupKey field)

def groupStage (keys : List (String × Value)) (a : Aggregation) : Document :=
  Document.insertAll [("_id", groupId keys)] a.groupFields

/-- Reads the selected fields and the accumulators back. The key of the group is left out unless it
is selected. -/
def projectStage (fields : List String) (a : Aggregation) : Document :=
  let selected : Document := Document.insertAll []
    (fields.map fun field => (field, Aggregation.reference ("_id." ++ groupKey field)))
  let projected := Document.insertAll selected a.projections
  if projected.isEmpty || projected.contains "_id" then projected
  else projected.insert "_id" (.int 0)

/-- A stage that is there only when it does something. -/
def stageIf (condition : Bool) (stage : Stage) : List Stage :=
  if condition then [stage] else []

/-- The stages of an aggregation, in the order in which they act. -/
def pipeline (filter : Filter) (groups project : Document) (having : Filter)
    (sort : Option Document) (limit : Limit) : List Stage :=
  [Stage.matching filter.document, Stage.group groups]
    ++ stageIf (!project.isEmpty) (.project project)
    ++ stageIf (!having.isEmpty) (.matching having.document)
    ++ (sort.map Stage.sort).toList
    ++ stageIf (limit.offset != 0) (.skip limit.offset)
    ++ stageIf (limit.count != 0) (.limit limit.count)

def reduceConditions (registry : Registry) (conditions : List Condition) :
    Except QueryError Filter :=
  match Condition.reduce registry conditions with
  | .ok filter => .ok filter
  | .error e => .error (.condition e)

def aggregateItems (items : List SelectItem) : Except QueryError Aggregation :=
  match Aggregation.ofItems items with
  | .ok a => .ok a
  | .error e => .error (.aggregation e)

def limitOf (s : Select) : Limit :=
  s.limit.getD ⟨0, 0⟩

def findQuery (collection : String) (filter : Filter) (s : Select) : FindQuery where
  collection := collection
  filter := filter
  projection := projection (plainFields s.items)
  sort := sortDocument s.orders
  limit := (limitOf s).count
  skip := (limitOf s).offset
  hint := firstHint s.hints

/-- The pipeline of a statement with groups or functions. -/
def aggregateQuery (registry : Registry) (collection : String) (filter : Filter) (s : Select) :
    Except QueryError AggregateQuery :=
  let fields := plainFields s.items
  let keys := groupKeys s.groups
  if !(ungrouped fields keys).isEmpty then .error (.ungroupedFields (ungrouped fields keys))
  else do
    let aggregation ← aggregateItems (functionItems s.items)
    let having ← reduceConditions registry s.having
    let stages := pipeline filter (groupStage keys aggregation) (projectStage fields aggregation)
      having (sortDocument s.orders) (limitOf s)
    return ⟨collection, stages, firstHint s.hints⟩

/-- The query of a SELECT statement; `none` when it has no table. -/
def ofSelect (registry : Registry) (s : Select) : Except QueryError (Option Query) :=
  match s.tables with
  | [] => .ok none
  | table :: _ => do
    let filter ← reduceConditions registry s.conditions
    if s.items.isEmpty then .error .emptySelect
    else if s.groups.isEmpty && (functionItems s.items).isEmpty then
      if s.having.isEmpty then .ok (some (.find (findQuery table.table filter s)))
      else .error .havingWithoutGroup
    else
      let query ← aggregateQuery registry table.table filter s
      return some (.aggregate query)

def ofStatement (registry : Registry) : Statement → Except QueryError (Option Query)
  | .select s => ofSelect registry s
  | .other kind => .error (.unsupportedStatement kind)

/-- The query of the first statement of a source text. -/
def ofSql (registry : Registry) (sql : String) : Except QueryError (Option Query) :=
  match Statement.ofSource sql with
  | .error e => .error (.invalidQuery sql (some e))
  | .ok none => .error (.invalidQuery sql none)
  | .ok (some statement) => ofStatement registry statement

end Query

end DocQuery
