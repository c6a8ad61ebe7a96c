import ParamSchema.Extract.Root

/-!
# Clients

The records that are filled from bound tables, by name: their shapes, and the declarations of
those that declare a schema of their own.

A client's schema need not agree with its shape: `narrow` declares wide integers for
fields that are narrow, and `broken` declares one name twice.
-/

namespace ParamSchema

/-! ## shapes -/

namespace Shape

def point : Shape := .record "Point" [("x", .signed .w8), ("y", .signed .w8)]

def job : Shape :=
  .record "Job" [("name", .string), ("threads", .unsigned .w16), ("x", .option (.signed .w32))]

def inner : Shape := .record "Inner" [("values", .list (.unsigned .w8)), ("scale", .float)]

def nested : Shape :=
  .record "Nested"
    [("inner", inner), ("pair", .tuple [.string, .unsigned .w32]),
      ("tags", .option (.list .string))]

def narrow : Shape :=
  .record "Narrow"
    [("count", .unsigned .w8), ("ratio", .float), ("items", .list (.signed .w8)),
      ("flag", .option .bool), ("points", .list point)]

def broken : Shape := .record "Broken" [("a", .signed .w32)]

/-- the shape of a client, by its name -/
def ofName? : String → Option Shape
  | "Job" => some job
  | "Inner" => some inner
  | "Nested" => some nested
  | "Narrow" => some narrow
  | "Point" => some point
  | "Broken" => some broken
  | "Vec<Point>" => some (.list point)
  | "Map<u8>" => some (.map (.unsigned .w8))
  | "Any" => some .any
  | _ => none

end Shape

/-! ## declarations -/

namespace Item

/-- a required atom -/
def required (name : String) (t : ScalarType) : Draft := .atom name "" t none

def element (t : ScalarType) : Draft := required "[0]" t

def job : List Item :=
  [.add (required "name" .string),
    .add (.atom "threads" "" (.unsigned .w16) (some (.uint 4))),
    .add (.optional (required "x" (.signed .w32)))]

def nested : List Item :=
  [.table "inner"
      [.add (.sequence "values" "" (element (.unsigned .w8)) (.between 1 3)
          (some (.sequence [.scalar (.uint 1), .scalar (.uint 2)]))),
        .add (.atom "scale" "Scale factor." .f64 (some (.float (.ofDecimal false ⟨5, -1⟩))))],
    .add (.tuple "pair" "" [element .string, element (.unsigned .w32)]
      (some (.sequence [.scalar (.string "David"), .scalar (.uint 9)]))),
    .add (.optional (.sequence "tags" "" (element .string) .any none))]

def narrow : List Item :=
  [.add (required "count" (.signed .w64)),
    .add (.atom "ratio" "" .f64 (some (.float (.ofNat 1)))),
    .add (.sequence "items" "" (element (.signed .w64)) .any (some (.sequence []))),
    .add (.optional (required "flag" .string)),
    .add (.sequence "points" ""
      (.table "point" ""
        [.add (required "x" (.signed .w64)), .add (.optional (required "y" (.signed .w64)))])
      .any (some (.sequence [])))]

def broken : List Item :=
  [.add (required "a" (.signed .w32)), .add (required "a" (.signed .w32))]

/-- what a client declares, by its name -/
def ofClient? : String → Option (List Item)
  | "Job" => some job
  | "Nested" => some nested
  | "Narrow" => some narrow
  | "Broken" => some broken
  | _ => none

end Item

/-- the outline of a client's schema under a root name -/
def Outline.ofClient? (client name : String) : Option Outline :=
  (Item.ofClient? client).map fun items => ⟨name, "", items, []⟩

end ParamSchema
