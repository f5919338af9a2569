import DocQuery.Condition.Basic

/-! Statements, as far as a query needs them. -/

namespace DocQuery

structure TableRef where
  table : String
  database : Option String
  label : Option String
deriving DecidableEq, Repr

structure SelectItem where
  expr : String
  /-- The first function that the expression calls. -/
  function : Option String
  /-- The name given with `AS`. -/
  label : Option String
deriving DecidableEq, Repr

inductive Direction where
  | ascending
  | descending
deriving DecidableEq, Repr

structure OrderItem where
  expr : String
  direction : Direction
deriving DecidableEq, Repr

structure Limit where
  offset : Nat
  count : Nat
deriving DecidableEq, Repr

inductive HintKind where
  | use
  | force
  | ignore
deriving DecidableEq, Repr

structure IndexHint where
  kind : HintKind
  indexes : List String
deriving DecidableEq, Repr

structure Select where
  items : List SelectItem := []
  tables : List TableRef := []
  conditions : List Condition := []
  groups : List String := []
  having : List Condition := []
  orders : List OrderItem := []
  limit : Option Limit := none
  hints : List IndexHint := []
deriving DecidableEq, Repr

inductive Statement where
  | select (body : Select)
  /-- Any other statement, of which only the leading keyword is known. -/
  | other (kind : String)
deriving DecidableEq, Repr

end DocQuery
