import AccessLayer.Query.Annotation

/-!
# Lists of texts

Templates may pass texts, lists of texts and lists of variables where one list of texts is wanted.

* `Item.flatten`: all texts in order.
-/

namespace AccessLayer.Query

/-- Something that holds texts. -/
inductive Item where
  | text (s : Bytes)
  | texts (ss : List Bytes)
  | «variables» (names : List Bytes)
  | items (is : List Item)
  /-- Anything else, which holds no text. -/
  | unknown
deriving Inhabited

namespace Item

mutual

/-- The texts of an item; variables are written with their dollar sign. -/
def flatten : Item → List Bytes
  | text s => [s]
  | texts ss => ss
  | .variables names => names.map fun n => Bytes.ofString "$" ++ n
  | items is => flattenAll is
  | unknown => []

def flattenAll : List Item → List Bytes
  | [] => []
  | i :: is => flatten i ++ flattenAll is

end

end Item

end AccessLayer.Query
