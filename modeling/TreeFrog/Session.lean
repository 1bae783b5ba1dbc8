import TreeFrog.Bytes

/-!
Sessions: a map of values, and the identifier under which it is found.
-/

namespace TreeFrog.Session

open Bytes

structure TSession (QVariantMap : Type) where
  data : QVariantMap
  sessionId : QByteArray

/-- How `QDataStream` writes and reads maps. `saves` is the status behind writing, `none` a status
other than `Ok` behind reading. A map is written behind its size, and is read back. -/
structure QDataStream (QVariantMap : Type) where
  empty : QVariantMap
  write : QVariantMap → QByteArray
  saves : QVariantMap → Bool
  read : QByteArray → Option QVariantMap
  write_ne_nil : ∀ d, write d ≠ []
  read_write : ∀ d, saves d = true → read (write d) = some d

/-- The map without an entry, and that of the user named admin. -/
inductive Sample
  | none
  | admin
  deriving DecidableEq

/-- What is written for them: the number of entries, the key, and the type and the value. -/
def writeSample : Sample → QByteArray
  | .none => [0, 0, 0, 0]
  | .admin => [0, 0, 0, 1, 0, 0, 0, 8, 0, 117, 0, 115, 0, 101, 0, 114, 0, 0, 0, 10, 0,
      0, 0, 0, 10, 0, 97, 0, 100, 0, 109, 0, 105, 0, 110]

def sampleStream : QDataStream Sample where
  empty := .none
  write := writeSample
  saves _ := true
  read b :=
    if b = writeSample .none then some .none
    else if b = writeSample .admin then some .admin else Option.none
  write_ne_nil d := by cases d <;> decide
  read_write d _ := by cases d <;> decide

end TreeFrog.Session
