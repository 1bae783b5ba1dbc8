import Mathlib.Data.List.Basic
import Mathlib.Algebra.Order.Ring.Int

/-!
The properties of a Qt meta object, those of the base classes first.
-/

namespace TreeFrog.MetaObject

structure QMetaProperty where
  name : String
  type : ℕ

structure QMetaObject where
  properties : List QMetaProperty
  propertyOffset : ℕ

namespace QMetaObject

def propertyCount (m : QMetaObject) : ℕ := m.properties.length

/-- `QMetaObject::property`: outside the list the property is invalid, without a name and a
type. -/
def property (m : QMetaObject) (index : ℤ) : QMetaProperty :=
  if index < 0 then ⟨"", 0⟩ else m.properties.getD index.toNat ⟨"", 0⟩

end QMetaObject

end TreeFrog.MetaObject
