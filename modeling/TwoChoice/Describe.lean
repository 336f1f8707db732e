/-!
# Descriptions

The text of a record for people: its name and its fields, on one line or on indented lines.
-/

set_option autoImplicit false

namespace TwoChoice

/-- How a description is laid out. -/
inductive Layout where
  | inline
  | indented
  deriving DecidableEq, Repr

namespace Description

/-- The value of a field. -/
inductive Value where
  | number (n : Nat)
  | flag (b : Bool)
  /-- A number that may be missing. -/
  | optional (n : Option Nat)

/-- The text of a value inside a record; on indented lines the content of `Some` has a line of its
own, one step deeper. -/
def Value.text (layout : Layout) : Value → String
  | .number n => toString n
  | .flag b => if b then "true" else "false"
  | .optional none => "None"
  | .optional (some n) =>
    match layout with
    | .inline => s!"Some({n})"
    | .indented => s!"Some(\n        {n},\n    )"

end Description

/-- A record to be shown. -/
structure Description where
  name : String
  fields : List (String × Description.Value)
  /-- All fields are listed; two dots stand for those that are not. -/
  complete : Bool := true

/-- The text of the record. -/
def Description.text (d : Description) (layout : Layout) : String :=
  let fields := d.fields.map fun f => f.1 ++ ": " ++ f.2.text layout
  match layout with
  | .inline =>
    let parts := if d.complete then fields else fields ++ [".."]
    d.name ++ " \x7b " ++ ", ".intercalate parts ++ " \x7d"
  | .indented =>
    d.name ++ " \x7b\n" ++ String.join (fields.map fun f => "    " ++ f ++ ",\n")
      ++ (if d.complete then "" else "    ..\n") ++ "\x7d"

end TwoChoice
