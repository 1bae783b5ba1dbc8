import Mathlib.Logic.Function.Basic
import TreeFrog.MetaObject
import TreeFrog.SqlRecord

/-!
`TSqlObject`: an object with the properties of its class and, as a record of its own, the row
they came from. `update` writes the properties that differ from the record, `remove` deletes
the row; both name the row by its keys and, if there is a `lock_revision`, by that.
-/

namespace TreeFrog.SqlObject

open MetaObject SqlRecord

/-- What a subclass and its table fix. -/
structure SqlClass where
  metaObject : QMetaObject
  primaryKeyIndexList : List ℤ
  tableName : String
  /-- The fields of the driver's `record(tableName)`. -/
  columns : List String

namespace SqlClass

/-- The properties of the class itself, from `propertyOffset()` on. -/
def ownProperties (cls : SqlClass) : List QMetaProperty :=
  cls.metaObject.properties.drop cls.metaObject.propertyOffset

def keyProperty (cls : SqlClass) (idx : ℤ) : QMetaProperty :=
  cls.metaObject.property (cls.metaObject.propertyOffset + idx)

end SqlClass

structure TSqlObject (V : Type) where
  property : String → V
  record : QSqlRecord V
  sqlError : String

/-- A value as the driver formats it, with the type it is formatted for. -/
inductive Literal (V : Type) where
  | int (n : ℤ)
  | value (v : V) (type : ℕ)

structure UpdateStatement (V : Type) where
  table : String
  set : List (String × Literal V)
  conditions : List (String × Literal V)

structure DeleteStatement (V : Type) where
  head : String
  conditions : List (String × Literal V)

inductive Outcome where
  | returned (ok : Bool)
  | thrown (message : String)
  deriving DecidableEq, Repr

variable {V : Type} [Variant V]

/-- `QObject::setProperty`. -/
def setProperty (p : String → V) (name : String) (v : V) : String → V := Function.update p name v

def isTime (prop : String) : Bool := prop = "updated_at" || prop = "modified_at"

def isUser (prop : String) : Bool := prop = "updated_by" || prop = "modified_by"

def isLock (prop : String) : Bool := prop = "lock_revision"

/-- The first loop of `update`: time stamps, users and the revision, of which the loop returns
the name and the old value. An error leaves the properties set so far. -/
def stampLoop (now user : V) : List QMetaProperty → (String → V) → Option (String × ℤ) →
    Except (String → V) ((String → V) × Option (String × ℤ))
  | [], p, revision => .ok (p, revision)
  | q :: qs, p, revision =>
    let prop := q.name.toLower
    if isTime prop then stampLoop now user qs (setProperty p q.name now) revision
    else if isUser prop then stampLoop now user qs (setProperty p q.name user) revision
    else if revision.isNone && isLock prop then
      match Variant.toInt (p q.name) with
      | none => .error p
      | some oldRevision =>
        if oldRevision ≤ 0 then .error p
        else
          stampLoop now user qs (setProperty p q.name (Variant.ofInt (oldRevision + 1)))
            (some (q.name, oldRevision))
    else stampLoop now user qs p revision

/-- The loop of `update` over the keys: each is restored from the record. -/
def keyLoop (cls : SqlClass) (record : QSqlRecord V) : List ℤ → (String → V) →
    Except (String → V) ((String → V) × List (String × Literal V))
  | [], p => .ok (p, [])
  | idx :: idxs, p =>
    let metaProp := cls.keyProperty idx
    if idx < 0 ∨ metaProp.name = "" then .error p
    else
      let origpkval := (record.value metaProp.name).getD Variant.null
      match keyLoop cls record idxs (setProperty p metaProp.name origpkval) with
      | .error p => .error p
      | .ok (p, conditions) =>
        .ok (p, (metaProp.name, .value origpkval metaProp.type) :: conditions)

/-- The loop of `update` that collects the assignments: the properties that differ from their
field. It compares the position in the meta object with the list of keys. -/
def assignments [DecidableEq V] (cls : SqlClass) (record : QSqlRecord V) (p : String → V) :
    List (String × Literal V) :=
  (cls.ownProperties.zipIdx cls.metaObject.propertyOffset).filterMap fun (q, i) =>
    match record.value q.name with
    | none => none
    | some recval =>
      if (i : ℤ) ∉ cls.primaryKeyIndexList ∧ recval ≠ p q.name then
        some (q.name, .value (p q.name) q.type)
      else none

/-- `syncToSqlRecord`. -/
def syncToSqlRecord (cls : SqlClass) (o : TSqlObject V) : TSqlObject V :=
  { o with
    record := cls.ownProperties.foldl (fun r q => r.setValue q.name (o.property q.name))
      (cls.columns.map fun c => (c, Variant.null)) }

/-- `syncToObject`. -/
def syncToObject (cls : SqlClass) (o : TSqlObject V) : TSqlObject V :=
  { o with
    property := o.record.foldl (fun p f =>
      if f.1 ∈ cls.ownProperties.map QMetaProperty.name then
        setProperty p f.1 ((o.record.value f.1).getD Variant.null)
      else p) o.property }

/-- `setRecord`. -/
def setRecord (cls : SqlClass) (o : TSqlObject V) (record : QSqlRecord V) (error : String) :
    TSqlObject V :=
  { syncToObject cls { o with record } with sqlError := error }

def isNew (o : TSqlObject V) : Bool := o.record.isEmpty

def noKeyMessage (cls : SqlClass) : String :=
  "Primary key not found for table " ++ cls.tableName ++ ". Create a primary key!"

def revisionMessage : String := "Unable to convert the 'revision' property to an int"

def conflictMessage (cls : SqlClass) : String :=
  "Row was updated or deleted from table " ++ cls.tableName ++ " by another transaction"

/-- `update`, at the time `now` for the login `user`. `exec` gives the error of the driver or
the number of rows affected; the statement is returned if it was executed. -/
def update [DecidableEq V] (cls : SqlClass) (now user : V)
    (exec : UpdateStatement V → Except String ℤ) (o : TSqlObject V) :
    Outcome × TSqlObject V × Option (UpdateStatement V) :=
  if isNew o then (.returned false, { o with sqlError := "No record to update" }, none)
  else
    match stampLoop now user cls.ownProperties o.property none with
    | .error p => (.returned false, { o with property := p, sqlError := revisionMessage }, none)
    | .ok (p, revision) =>
      if cls.primaryKeyIndexList.isEmpty then
        (.returned false, { o with property := p, sqlError := noKeyMessage cls }, none)
      else
        match keyLoop cls o.record cls.primaryKeyIndexList p with
        | .error p =>
          (.returned false, { o with property := p, sqlError := noKeyMessage cls }, none)
        | .ok (p, keys) =>
          let set := assignments cls o.record p
          if set.isEmpty then (.returned true, { o with property := p }, none)
          else
            let o := syncToSqlRecord cls { o with property := p }
            let conditions := (revision.toList.map fun r => (r.1, .int r.2)) ++ keys
            let statement : UpdateStatement V := ⟨cls.tableName, set, conditions⟩
            match exec statement with
            | .error e => (.returned false, { o with sqlError := e }, some statement)
            | .ok numRowsAffected =>
              if revision.isSome ∧ numRowsAffected ≠ 1 then
                (.thrown (conflictMessage cls), { o with sqlError := conflictMessage cls },
                  some statement)
              else (.returned true, { o with sqlError := "" }, some statement)

/-- The conditions of `remove` on the keys. -/
def keyConditions (cls : SqlClass) (record : QSqlRecord V) :
    List ℤ → Option (List (String × Literal V))
  | [] => some []
  | idx :: idxs => do
    let metaProp := cls.keyProperty idx
    if idx < 0 ∨ metaProp.name = "" then none
    else
      let conditions ← keyConditions cls record idxs
      let pkval := (record.value metaProp.name).getD Variant.null
      return (metaProp.name, .value pkval metaProp.type) :: conditions

/-- `remove`; `del` is the DELETE statement of the driver. -/
def remove (cls : SqlClass) (del : String) (exec : DeleteStatement V → Except String ℤ)
    (o : TSqlObject V) : Outcome × TSqlObject V × Option (DeleteStatement V) :=
  if isNew o then (.returned false, { o with sqlError := "No record to remove" }, none)
  else if del = "" then (.returned false, { o with sqlError := "Unable to delete row" }, none)
  else
    let lock := cls.ownProperties.find? fun q => isLock q.name.toLower
    let revision := lock.bind fun q => Variant.toInt (o.property q.name)
    if lock.isSome ∧ revision.all (· ≤ 0) then
      (.returned false, { o with sqlError := revisionMessage }, none)
    else if cls.primaryKeyIndexList.isEmpty then
      (.returned false, { o with sqlError := noKeyMessage cls }, none)
    else
      match keyConditions cls o.record cls.primaryKeyIndexList with
      | none => (.returned false, { o with sqlError := noKeyMessage cls }, none)
      | some keys =>
        let locks := lock.toList.map fun q => (q.name, Literal.int (revision.getD 0))
        let statement : DeleteStatement V := ⟨del, locks ++ keys⟩
        match exec statement with
        | .error e => (.returned false, { o with sqlError := e }, some statement)
        | .ok numRowsAffected =>
          if numRowsAffected ≠ 1 ∧ lock.isSome then
            (.thrown (conflictMessage cls), { o with sqlError := conflictMessage cls },
              some statement)
          else (.returned true, { o with record := [], sqlError := "" }, some statement)

/-! ### The database -/

/-- Whether a condition holds of a column; nothing equals NULL. -/
def Literal.holds [DecidableEq V] (l : Literal V) (v : V) : Bool :=
  match l with
  | .int n => Variant.toInt v = some n
  | .value w _ => w = v && w ≠ Variant.null

def Literal.stored : Literal V → V
  | .int n => Variant.ofInt n
  | .value v _ => v

/-- Whether a row meets the conditions of a statement. -/
def selects [DecidableEq V] (conditions : List (String × Literal V)) (row : QSqlRecord V) : Bool :=
  conditions.all fun c => (row.value c.1).any c.2.holds

/-- The row after an UPDATE. -/
def UpdateStatement.apply (statement : UpdateStatement V) (row : QSqlRecord V) : QSqlRecord V :=
  statement.set.foldl (fun r a => r.setValue a.1 a.2.stored) row

end TreeFrog.SqlObject
