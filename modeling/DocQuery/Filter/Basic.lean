import DocQuery.Value.Basic

/-! Filters: what a document must satisfy, as an ordered list of clauses. Conjunction and
disjunction keep a filter flat: operators on one field are collected in one clause, and nested
`$and` and `$or` lists are spliced. -/

namespace DocQuery

inductive QueryOp where
  | gt
  | gte
  | lt
  | lte
  | ne
  | isIn
  | notIn
  | not
deriving DecidableEq, Repr

def QueryOp.key : QueryOp → String
  | gt => "$gt"
  | gte => "$gte"
  | lt => "$lt"
  | lte => "$lte"
  | ne => "$ne"
  | isIn => "$in"
  | notIn => "$nin"
  | not => "$not"

/-- What a single field must satisfy. -/
inductive Predicate where
  | equals (value : Value)
  /-- A regular expression that ignores case. -/
  | pattern (text : String)
  | operators (operators : List (QueryOp × Value))

inductive Clause where
  | field (name : String) (predicate : Predicate)
  | and (members : List (List Clause))
  | or (members : List (List Clause))

/-- All clauses must hold. -/
abbrev Filter := List Clause

def Predicate.operator (op : QueryOp) (value : Value) : Predicate :=
  .operators [(op, value)]

def Predicate.value : Predicate → Value
  | equals value => value
  | pattern text => .pattern text
  | operators ops => .document (Document.insertAll [] (ops.map fun (op, value) => (op.key, value)))

def Clause.key : Clause → String
  | field name _ => name
  | and _ => "$and"
  | or _ => "$or"

mutual

def Clause.value : Clause → Value
  | .field _ predicate => predicate.value
  | .and members => .array (Clause.memberValues members)
  | .or members => .array (Clause.memberValues members)

def Clause.memberValues : List (List Clause) → List Value
  | [] => []
  | clauses :: members =>
    .document (Document.insertAll [] (Clause.entries clauses)) :: Clause.memberValues members

/-- One entry a clause, in order. -/
def Clause.entries : List Clause → List (String × Value)
  | [] => []
  | c :: clauses => (c.key, c.value) :: Clause.entries clauses

end

namespace Filter

def ofField (name : String) (predicate : Predicate) : Filter :=
  [.field name predicate]

def hasKey (key : String) (f : Filter) : Bool :=
  f.any (·.key == key)

def document (f : Filter) : Document :=
  Document.insertAll [] (Clause.entries f)

/-- The members of a filter that is a lone `$and`, or the filter itself. -/
def conjuncts : Filter → List Filter
  | [.and members] => members
  | f => [f]

/-- The members of a filter that is a lone `$or`, or the filter itself. -/
def disjuncts : Filter → List Filter
  | [.or members] => members
  | f => [f]

def isOnlyOr : Filter → Bool
  | [.or _] => true
  | _ => false

/-- Adds members to the first clause with the key `$and`. A field of that name takes none. -/
def extendAnd (more : List Filter) : Filter → Filter
  | [] => []
  | .and members :: clauses => .and (members ++ more) :: clauses
  | c :: clauses => if c.key = "$and" then c :: clauses else c :: extendAnd more clauses

/-- Adds operators to the first clause with the given key. -/
def addOperators (key : String) (more : List (QueryOp × Value)) : Filter → Filter
  | [] => []
  | c :: clauses =>
    if c.key = key then
      match c with
      | .field name (.operators ops) => .field name (.operators (ops ++ more)) :: clauses
      | c => c :: clauses
    else c :: addOperators key more clauses

def disjointOperators (ops more : List (QueryOp × Value)) : Bool :=
  ops.all fun (op, _) => more.all fun (other, _) => op != other

/-- One filter for both when they share a single field, both constrain it with different operators,
and one of them constrains nothing else. -/
def merge? (f g : Filter) : Option Filter :=
  match f.filter (fun c => g.hasKey c.key) with
  | [.field name (.operators ops)] =>
    match g.find? (·.key == name) with
    | some (.field _ (.operators more)) =>
      if !disjointOperators ops more then none
      else if g.length = 1 then some (f.addOperators name more)
      else if f.length = 1 then some (g.addOperators name ops)
      else none
    | _ => none
  | _ => none

protected def and (f g : Filter) : Filter :=
  if f.isEmpty then g
  else if f.hasKey "$and" then f.extendAnd g.conjuncts
  else if !f.any (fun c => g.hasKey c.key) then f ++ g
  else (f.merge? g).getD [.and [f, g]]

/-- One of the filters must hold; an empty side does not count. -/
protected def or (f g : Filter) : Filter :=
  if f.isEmpty then g
  else if g.isEmpty then f
  else [.or (f.disjuncts ++ g.disjuncts)]

end Filter

end DocQuery
