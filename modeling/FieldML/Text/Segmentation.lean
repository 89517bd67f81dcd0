/-!
# Cutting texts

Texts are measured and cut in user-perceived characters. Where one of these ends depends on tables
for all of Unicode that are kept elsewhere, so it is left open here: nothing that is said about
evaluations depends on it.
-/

namespace FieldML.Text

/-- A way to cut texts. -/
class Segmentation where
  /-- The user-perceived characters of a text, in order. -/
  clusters : String → List String

end FieldML.Text
