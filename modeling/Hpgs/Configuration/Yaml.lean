import Hpgs.Library.SortedMap
import Mathlib.Data.String.Basic

/-!
# YAML trees

What the program sees of a `YAML::Node`, the functions of yaml-cpp that it calls, and the
conversions between maps and texts.  Texts are sequences of Unicode characters.

A node that is not there (`IsDefined()` is `false`) is `none`; a function that throws
gives `none` as well, which is said where it is so.
-/

namespace Hpgs
namespace Configuration

/-- `YAML::Node`, without tags and styles. -/
inductive Node
  | null
  | scalar (text : String)
  | sequence (items : List Node)
  | map (entries : List (Node × Node))

/-- The functions of yaml-cpp.  `load` is `none` where it throws, and `decodeInt` and
`decodeIndex` are where they return `false`. -/
structure YamlCpp where
  load : String → Option Node
  emit : Node → String
  encodeInt : Int32 → String
  decodeInt : String → Option Int32
  decodeIndex : String → Option Nat

namespace Node

def isScalar : Node → Bool
  | .scalar _ => true
  | _ => false

/-- `Scalar()`: empty on any other node. -/
def text : Node → String
  | .scalar text => text
  | _ => ""

/-- `size()`. -/
def size : Node → Nat
  | .sequence items => items.length
  | .map entries => entries.length
  | _ => 0

/-- The node is a scalar with this text. -/
def hasText (text : String) : Node → Bool
  | .scalar text' => text' = text
  | _ => false

/-- `node[key]`; it throws on a scalar. -/
def subscript (key : String) : Node → Option (Option Node)
  | .map entries => some ((entries.find? fun e => e.1.hasText key).map Prod.snd)
  | .scalar _ => none
  | _ => some none

/-- `node[i]` on a node with `i < size()`. -/
def item (y : YamlCpp) (i : Nat) : Node → Option Node
  | .sequence items => items[i]?
  | .map entries =>
      (entries.find? fun e => e.1.isScalar && y.decodeIndex e.1.text == some i).map Prod.snd
  | _ => none

/-- `as<std::string>(fallback)`. -/
def asStringOr (fallback : String) : Option Node → String
  | some (.scalar text) => text
  | _ => fallback

/-- `as<std::string>()`; it throws on a node that is not a scalar. -/
def asString : Option Node → Option String
  | some (.scalar text) => some text
  | _ => none

/-- `as<int>(fallback)`. -/
def asIntOr (y : YamlCpp) (fallback : Int32) : Option Node → Int32
  | some (.scalar text) => (y.decodeInt text).getD fallback
  | _ => fallback

end Node

/-! ## Maps

`cast` is the `LexicalCast` of the values, `none` where it throws. -/

section Maps

variable {T : Type} (y : YamlCpp)

/-- The loop of `LexicalCast<std::string, std::map<std::string, T>>`. -/
def insertEntries (cast : String → Option T) (m : SortedMap String T) :
    List (Node × Node) → Option (SortedMap String T)
  | [] => some m
  | (key, value) :: entries =>
      (cast (y.emit value)).bind fun t => insertEntries cast (m.insert key.text t) entries

/-- `LexicalCast<std::string, std::map<std::string, T>>`.  The items of a sequence have no
`first`, which throws. -/
def mapOfString (cast : String → Option T) (v : String) : Option (SortedMap String T) :=
  (y.load v).bind fun node =>
    match node with
    | .map entries => insertEntries y cast .empty entries
    | .sequence (_ :: _) => none
    | _ => some .empty

/-- The node that `LexicalCast<std::map<std::string, T>, std::string>` makes. -/
def mapToNode (cast : T → Option String) (m : SortedMap String T) : Option Node :=
  (m.entries.mapM fun e =>
    ((cast e.2).bind y.load).map fun node => (Node.scalar e.1, node)).map .map

/-- `LexicalCast<std::map<std::string, T>, std::string>`. -/
def mapToString (cast : T → Option String) (m : SortedMap String T) : Option String :=
  (mapToNode y cast m).map y.emit

theorem mapToNode_empty (cast : T → Option String) :
    mapToNode y cast .empty = some (.map []) :=
  rfl

/-- A map is written as a map node. -/
theorem mapToNode_isMap {cast : T → Option String} {m : SortedMap String T} {node : Node}
    (h : mapToNode y cast m = some node) : ∃ entries, node = .map entries := by
  obtain ⟨entries, _, rfl⟩ := Option.map_eq_some_iff.mp h
  exact ⟨entries, rfl⟩

end Maps

end Configuration
end Hpgs
