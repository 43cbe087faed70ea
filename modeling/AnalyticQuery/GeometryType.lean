import AnalyticQuery.Arity
import AnalyticQuery.CastType

/-!
# Geometry types

Shapes are built from coordinates or text, or looked up by the id of a place.
-/

namespace AnalyticQuery

/-- How a shape is given: by coordinates, by text, or as a place of some type. -/
inductive GeometryType where
  | point
  | wkt
  | caFsa
  | caPostalcode
  | caDa
  | caCt
  | caCsd
  | caCd
  | caPr
  | poi
  | ggid
  deriving DecidableEq, Repr

namespace GeometryType

/-- The name of a geometry type. -/
def name : GeometryType → String
  | point => "point"
  | wkt => "wkt"
  | caFsa => "ca-fsa"
  | caPostalcode => "ca-postalcode"
  | caDa => "ca-da"
  | caCt => "ca-ct"
  | caCsd => "ca-csd"
  | caCd => "ca-cd"
  | caPr => "ca-pr"
  | poi => "poi"
  | ggid => "ggid"

instance : ToString GeometryType := ⟨name⟩

/-- All geometry types. -/
def all : List GeometryType :=
  [point, wkt, caFsa, caPostalcode, caDa, caCt, caCsd, caCd, caPr, poi, ggid]

/-- A point takes two coordinates; every other type takes one text or id. -/
def arity : GeometryType → Arity
  | point => .exact 2
  | _ => .exact 1

/-- Whether the shape is looked up by the id of a place. -/
def isPlace : GeometryType → Bool
  | point | wkt => false
  | _ => true

/-- The cast of a geometry that carries none: constructors yield shapes already. -/
def defaultCast (_ : GeometryType) : Option CastType := none

/-- The geometry type with a name, in any case and between blanks. -/
def ofName (spelling : String) : Result GeometryType :=
  match all.find? (·.name == (Text.trim spelling).toLower) with
  | some type => .ok type
  | none => .error (.invalidGeometry spelling)

end GeometryType

end AnalyticQuery
