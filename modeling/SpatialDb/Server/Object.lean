import SpatialDb.Lib.Uvarint
import SpatialDb.Server.Field

/-!
# Geometries and objects

Model of `internal/legacy/object` and of the string geometry of
`internal/legacy/collection/string.go`.  Geometries of the `geojson` library
are an arbitrary type `G`, with the functions the code calls on them.

A Go object carries its id and deadline in a packed head; here the id is the
key under which the object is stored, and the functions that read it take it as
an argument.  The head itself is modelled at the end.
-/

namespace SpatialDb.Server

open Lib

/-- What the collection takes from `geojson`; `R` is the pair of `float32`
corners that `rtreeRect` computes. -/
structure GeoLib (G R : Type*) where
  empty : G → Bool
  rect : G → R
  numPoints : G → Nat
  string : G → Bytes

/-- A `geojson.Object` held by an object: spatial, or a `collection.String`. -/
inductive Geometry (G : Type*) where
  | spatial (g : G)
  | string (s : Bytes)
  deriving DecidableEq

namespace Geometry

variable {G R : Type*}

/-- `objIsSpatial`. -/
def isSpatial : Geometry G → Bool
  | spatial _ => true
  | string _ => false

variable (lib : GeoLib G R)

def isEmpty : Geometry G → Bool
  | spatial g => lib.empty g
  | string _ => true

def numPoints : Geometry G → Nat
  | spatial g => lib.numPoints g
  | string _ => 0

/-- `String()`. -/
def str : Geometry G → Bytes
  | spatial g => lib.string g
  | string s => s

end Geometry

/-- `object.Object`, without its id. -/
structure Object (G : Type*) where
  geo : Geometry G
  expires : Int
  fields : FieldList
  deriving DecidableEq

/-- `Weight`, with the encoded size of a field list as a parameter. -/
def Object.weight {G R : Type*} (lib : GeoLib G R) (fieldsWeight : FieldList → Nat)
    (id : Bytes) (o : Object G) : Int :=
  id.length +
    (if o.geo.isSpatial then o.geo.numPoints lib * 16 else (o.geo.str lib).length) +
    fieldsWeight o.fields

/-! ## The packed head -/

/-- `makeHead`: the kind, the deadline and the id without a separator. -/
def makeHead (kind : UInt8) (id : Bytes) (expires : Int64) : Bytes :=
  kind :: ((if expires ≠ 0 then putVarint expires else [0]) ++ id)

/-- `Expires` of the object with this head. -/
def headExpires (head : Bytes) : Int64 := (varint (head.drop 1)).1

/-- `ID` of the object with this head. -/
def headID (head : Bytes) : Bytes :=
  if head[1]? = some 0 then head.drop 2 else head.drop (1 + (varint (head.drop 1)).2)

/-- **The deadline and the id come back from the head.** -/
theorem makeHead_spec (kind : UInt8) (id : Bytes) (expires : Int64) :
    headExpires (makeHead kind id expires) = expires ∧ headID (makeHead kind id expires) = id := by
  by_cases hzero : expires = 0
  · subst hzero
    exact ⟨rfl, rfl⟩
  have hread := varint_putVarint expires id
  -- a first byte of zero would have been read as the deadline zero
  have hfirst : (putVarint expires ++ id)[0]? ≠ some 0 := by
    intro h
    apply hzero
    rw [← varint_of_zero h, hread]
  rw [makeHead, if_pos hzero, headExpires, headID, List.drop_one, List.tail_cons, hread,
    List.getElem?_cons_succ, if_neg hfirst, Nat.add_comm, List.drop_succ_cons]
  exact ⟨rfl, List.drop_left⟩

end SpatialDb.Server
