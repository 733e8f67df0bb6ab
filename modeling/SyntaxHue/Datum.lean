/-!
# Data

The values that data files hold, whatever they are written in.
-/

namespace SyntaxHue

mutual

/-- A value of a data file. -/
inductive Datum where
  | null
  | bool (b : Bool)
  | natural (n : Nat)
  /-- A number that is not natural, as it was written. -/
  | number (written : String)
  | text (s : String)
  | list (items : List Datum)
  /-- Fields in the order in which they were written. A key may be there more than once. -/
  | record (fields : List Field)

/-- A field of a record. -/
inductive Field where
  | mk (key value : Datum)

end

instance : Inhabited Datum := ⟨.null⟩

namespace Field

def key : Field → Datum
  | mk key _ => key

def value : Field → Datum
  | mk _ value => value

end Field

end SyntaxHue
