import FieldML.Text.ClusterTables
import FieldML.Text.Segmentation

/-!
# User-perceived characters

A text is cut into extended grapheme clusters: what a reader takes for one character may be several
code points. Whether there is a boundary before a code point depends on those before it only through
a few facts, which are carried along.
-/

namespace FieldML.Text

/-- The roles of code points in clusters. -/
inductive ClusterClass where
  | cr
  | lf
  | control
  | extend
  | joiner
  | regional
  | prepended
  | spacing
  | lead
  | vowel
  | tail
  | leadVowel
  | leadVowelTail
  | other
  deriving DecidableEq, Repr

/-- The role of a code point. -/
def clusterClass (c : Char) : ClusterClass :=
  let n := c.toNat
  if n = 0x0d then .cr
  else if n = 0x0a then .lf
  else if control.mem n then .control
  else if n = 0x200d then .joiner
  else if graphemeExtend.mem n || 0x1f3fb ≤ n && n ≤ 0x1f3ff then .extend
  else if 0x1f1e6 ≤ n && n ≤ 0x1f1ff then .regional
  else if prepend.mem n then .prepended
  else if spacingMark.mem n then .spacing
  else if hangulLead.mem n then .lead
  else if hangulVowel.mem n then .vowel
  else if hangulTail.mem n then .tail
  else if 0xac00 ≤ n && n ≤ 0xd7a3 then
    if (n - 0xac00) % 28 = 0 then .leadVowel else .leadVowelTail
  else .other

/-- A mark that may stand between the consonants of a conjunct without joining them. -/
def isConjunctMark (c : Char) : Bool :=
  (clusterClass c = .extend || clusterClass c = .joiner) && c.toNat ≠ 0x200c

/-- What the code points before a place say about a boundary there. -/
structure ClusterContext where
  /-- The role of the last code point. -/
  last : ClusterClass
  /-- The last code points are an odd number of regional indicators. -/
  oddRegional : Bool
  /-- The last code points are a pictograph and marks on it. -/
  pictograph : Bool
  /-- The last code point is a joiner, and before it are a pictograph and marks on it. -/
  joinedPictograph : Bool
  /-- The last code points are a consonant and marks on it. -/
  consonant : Bool
  /-- One of the marks on that consonant is a linker. -/
  linked : Bool
  deriving Repr

namespace ClusterContext

/-- The context after a first code point. -/
def ofFirst (c : Char) : ClusterContext where
  last := clusterClass c
  oddRegional := clusterClass c = .regional
  pictograph := pictographic.mem c.toNat
  joinedPictograph := false
  consonant := conjunctConsonant.mem c.toNat
  linked := false

/-- The context after one more code point. -/
def push (ctx : ClusterContext) (c : Char) : ClusterContext :=
  let isLinker := conjunctLinker.mem c.toNat
  let goesOn := ctx.consonant && (isLinker || isConjunctMark c)
  { last := clusterClass c
    oddRegional := clusterClass c = .regional && !ctx.oddRegional
    pictograph := pictographic.mem c.toNat || ctx.pictograph && clusterClass c = .extend
    joinedPictograph := ctx.pictograph && clusterClass c = .joiner
    consonant := conjunctConsonant.mem c.toNat || goesOn
    linked := goesOn && (ctx.linked || isLinker) }

/-- Whether the code point begins a new cluster. -/
def breaksBefore (ctx : ClusterContext) (c : Char) : Bool :=
  match ctx.last, clusterClass c with
  | .cr, .lf => false
  | .control, _ | .cr, _ | .lf, _ => true
  | _, .control | _, .cr | _, .lf => true
  | .lead, .lead | .lead, .vowel | .lead, .leadVowel | .lead, .leadVowelTail => false
  | .leadVowel, .vowel | .leadVowel, .tail | .vowel, .vowel | .vowel, .tail => false
  | .leadVowelTail, .tail | .tail, .tail => false
  | _, .extend | _, .joiner | _, .spacing => false
  | .prepended, _ => false
  | _, .regional => !ctx.oddRegional
  | _, _ =>
      !(ctx.linked && conjunctConsonant.mem c.toNat
        || ctx.joinedPictograph && pictographic.mem c.toNat)

end ClusterContext

/-- The clusters of the rest of a text, where `cluster` is the one being read, in reverse order, and
`found` are those before it, the latest first. -/
def clustersFrom (ctx : ClusterContext) (cluster : List Char) (found : List String) :
    List Char → List String
  | [] => (String.ofList cluster.reverse :: found).reverse
  | c :: cs =>
      if ctx.breaksBefore c then
        clustersFrom (ctx.push c) [c] (String.ofList cluster.reverse :: found) cs
      else clustersFrom (ctx.push c) (c :: cluster) found cs

/-- The grapheme clusters of a text. -/
def clusters (s : String) : List String :=
  match s.toList with
  | [] => []
  | c :: cs => clustersFrom (.ofFirst c) [c] [] cs

instance : Segmentation := ⟨clusters⟩

end FieldML.Text
