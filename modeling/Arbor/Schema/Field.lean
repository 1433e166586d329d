/-
What a schema says about a node kind: the ordered list of fields that hold children. Everything that reads a tree
through a schema only asks for the fields of a kind, so a `Schema` is that question, however it is answered. A kind
without an entry has no children to visit and counts as a leaf.
-/

namespace Arbor

/-- how many children a field holds: a sequence if `multiple`, else exactly one if `required`, else at most one -/
structure Cardinality where
  multiple : Bool
  required : Bool
  deriving DecidableEq, Repr, Inhabited

namespace Cardinality

/-- at most one child -/
def optional : Cardinality := ⟨false, false⟩

/-- exactly one child -/
def single : Cardinality := ⟨false, true⟩

/-- a sequence of children -/
def many : Cardinality := ⟨true, false⟩

/-- a sequence of children that is marked as required -/
def someOf : Cardinality := ⟨true, true⟩

end Cardinality

/-- a field that holds children -/
structure Field where
  name : String
  cardinality : Cardinality
  deriving DecidableEq, Repr, Inhabited

/-- the field holds a sequence -/
def Field.isSequence (f : Field) : Bool := f.cardinality.multiple

/-- ordered child fields of each node kind, `none` for a kind that is not known -/
structure Schema where
  fields : String → Option (List Field)

namespace Schema

/-- the child fields of a kind, none of them for an unknown kind -/
def fieldsOf (s : Schema) (kind : String) : List Field := (s.fields kind).getD []

/-- the kind has an entry -/
def contains (s : Schema) (kind : String) : Bool := (s.fields kind).isSome

/-- the first field of the kind with the given name -/
def field? (s : Schema) (kind name : String) : Option Field := (s.fieldsOf kind).find? fun f => f.name == name

/-- nodes of the kind have no children: it is unknown or has no field -/
def isLeaf (s : Schema) (kind : String) : Bool := (s.fieldsOf kind).isEmpty

end Schema

end Arbor
