import DocQuery.Filter.Basic
import DocQuery.Value.Extended

/-! Queries of a document database: a find with its options, or an aggregation pipeline. -/

namespace DocQuery

/-- Zero stands for no limit and for no documents to skip. -/
structure FindQuery where
  collection : String
  filter : Filter
  projection : Option Document
  sort : Option Document
  limit : Nat
  skip : Nat
  hint : Option String

inductive Stage where
  | matching (filter : Document)
  | group (fields : Document)
  | project (fields : Document)
  | sort (fields : Document)
  | skip (count : Nat)
  | limit (count : Nat)

structure AggregateQuery where
  collection : String
  pipeline : List Stage
  hint : Option String

inductive Query where
  | find (query : FindQuery)
  | aggregate (query : AggregateQuery)

/-- A number of documents, at most the largest 64-bit integer. -/
def countValue (n : Nat) : Value :=
  .int (min n 9223372036854775807)

namespace FindQuery

def filterDocument (q : FindQuery) : Document :=
  q.filter.document

/-- All options, null where they are not set. -/
def options (q : FindQuery) : Document :=
  let count (n : Nat) : Value := if n = 0 then .null else countValue n
  let document (d : Option Document) : Value := (d.map Value.document).getD .null
  [("skip", count q.skip), ("limit", count q.limit), ("projection", document q.projection),
   ("sort", document q.sort), ("hint", (q.hint.map Value.string).getD .null)]

end FindQuery

namespace Stage

def name : Stage → String
  | matching _ => "$match"
  | group _ => "$group"
  | project _ => "$project"
  | sort _ => "$sort"
  | skip _ => "$skip"
  | limit _ => "$limit"

def body : Stage → Value
  | matching filter => .document filter
  | group fields => .document fields
  | project fields => .document fields
  | sort fields => .document fields
  | skip count => countValue count
  | limit count => countValue count

def document (s : Stage) : Document :=
  [(s.name, s.body)]

end Stage

def AggregateQuery.stage? (q : AggregateQuery) (name : String) : Option Stage :=
  q.pipeline.find? (·.name == name)

namespace Query

def kind : Query → String
  | find _ => "find"
  | aggregate _ => "aggregate"

def collection : Query → String
  | find q => q.collection
  | aggregate q => q.collection

def hint : Query → Option String
  | find q => q.hint
  | aggregate q => q.hint

def json : Query → Json
  | find q =>
    .object [("type", .string "find"), ("collection", .string q.collection),
      ("filter", q.filterDocument.relaxed), ("options", q.options.relaxed)]
  | aggregate q =>
    .object [("type", .string "aggregate"), ("collection", .string q.collection),
      ("pipeline", .array (q.pipeline.map (·.document.relaxed))),
      ("hint", (q.hint.map Json.string).getD .null)]

end Query

end DocQuery
