import AuditTrail.Text

/-!
# Kinds of stores

The stores that a setting can name.
-/

namespace AuditTrail

inductive StoreKind where
  | memory
  | file
  | bucket
deriving DecidableEq

namespace StoreKind

def name : StoreKind → Text
  | memory => lit "memory"
  | file => lit "file"
  | bucket => lit "s3"

/-- All kinds, in the order in which messages name them. -/
def all : List StoreKind := [memory, file, bucket]

def ofName? (t : Text) : Option StoreKind := all.find? fun k => k.name == t

end StoreKind

end AuditTrail
