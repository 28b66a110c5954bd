import AccessLayer.Text.CodeRange

/-!
# White space

The property `White_Space` of Unicode 15.
-/

namespace AccessLayer

def spaceRanges : List (Nat × Nat) := [
  (0x9, 0xd), (0x20, 0x20), (0x85, 0x85), (0xa0, 0xa0), (0x1680, 0x1680), (0x2000, 0x200a),
  (0x2028, 0x2029), (0x202f, 0x202f), (0x205f, 0x205f), (0x3000, 0x3000)]

/-- White space of any script, line breaks included. -/
def isSpace (c : Char) : Bool := CodeRange.inRanges spaceRanges c.toNat

end AccessLayer
