import Hpgs.Configuration.Yaml

/-!
# Texts of a `TcpServerConf`

A `TcpServerConf` is written as a YAML map, and read back field by field.  The arguments
are written as a map node, but are read as the text of a scalar.

**Results.**
* `ofString_toNode`: what is read back has all fields but the arguments.
* `conf_round_trip`: what is read back is equal, exactly if there are no arguments.
* `conf_loses_args`: arguments that are lost.
-/

namespace Hpgs
namespace Network

open Hpgs.Configuration

structure TcpServerConf where
  address : List String
  keepalive : Int32
  timeout : Int32
  ssl : Int32
  id : String
  type : String
  name : String
  certFile : String
  keyFile : String
  acceptWorker : String
  ioWorker : String
  processWorker : String
  args : SortedMap String String
deriving DecidableEq

namespace TcpServerConf

/-- The values that the members are initialised with. -/
def default : TcpServerConf where
  address := []
  keepalive := 0
  timeout := 1000 * 2 * 60
  ssl := 0
  id := ""
  type := "http"
  name := ""
  certFile := ""
  keyFile := ""
  acceptWorker := ""
  ioWorker := ""
  processWorker := ""
  args := .empty

/-- `operator==`. -/
def eq (c oth : TcpServerConf) : Bool :=
  c.address == oth.address && c.keepalive == oth.keepalive && c.timeout == oth.timeout &&
    c.name == oth.name && c.ssl == oth.ssl && c.certFile == oth.certFile &&
    c.keyFile == oth.keyFile && c.acceptWorker == oth.acceptWorker &&
    c.ioWorker == oth.ioWorker && c.processWorker == oth.processWorker &&
    c.args == oth.args && c.id == oth.id && c.type == oth.type

/-- The addresses, if the node has them. -/
def readAddress (y : YamlCpp) : Option Node → Option (List String)
  | none => some []
  | some node => (List.range node.size).mapM fun i => Node.asString (node.item y i)

/-- `LexicalCast<std::string, TcpServerConf>`. -/
def ofString (y : YamlCpp) (v : String) : Option TcpServerConf := do
  let node ← y.load v
  let id := Node.asStringOr default.id (← node.subscript "id")
  let type := Node.asStringOr default.type (← node.subscript "type")
  let keepalive := Node.asIntOr y default.keepalive (← node.subscript "keepalive")
  let timeout := Node.asIntOr y default.timeout (← node.subscript "timeout")
  let name := Node.asStringOr default.name (← node.subscript "name")
  let ssl := Node.asIntOr y default.ssl (← node.subscript "ssl")
  let certFile := Node.asStringOr default.certFile (← node.subscript "cert_file")
  let keyFile := Node.asStringOr default.keyFile (← node.subscript "key_file")
  let acceptWorker ← Node.asString (← node.subscript "accept_worker")
  let ioWorker ← Node.asString (← node.subscript "io_worker")
  let processWorker ← Node.asString (← node.subscript "process_worker")
  let args ← mapOfString y some (Node.asStringOr "" (← node.subscript "args"))
  let address ← readAddress y (← node.subscript "address")
  return { address, keepalive, timeout, ssl, id, type, name, certFile, keyFile, acceptWorker,
           ioWorker, processWorker, args }

/-- The node of `LexicalCast<TcpServerConf, std::string>` with its node for the
arguments. -/
def toNode (y : YamlCpp) (c : TcpServerConf) (args : Node) : Node :=
  .map
    ([(.scalar "id", .scalar c.id),
      (.scalar "type", .scalar c.type),
      (.scalar "name", .scalar c.name),
      (.scalar "keepalive", .scalar (y.encodeInt c.keepalive)),
      (.scalar "timeout", .scalar (y.encodeInt c.timeout)),
      (.scalar "ssl", .scalar (y.encodeInt c.ssl)),
      (.scalar "cert_file", .scalar c.certFile),
      (.scalar "key_file", .scalar c.keyFile),
      (.scalar "accept_worker", .scalar c.acceptWorker),
      (.scalar "io_worker", .scalar c.ioWorker),
      (.scalar "process_worker", .scalar c.processWorker),
      (.scalar "args", args)] ++
      -- the first `push_back` makes the sequence
      if c.address.isEmpty then []
      else [(.scalar "address", .sequence (c.address.map .scalar))])

/-- `LexicalCast<TcpServerConf, std::string>`. -/
def toString (y : YamlCpp) (c : TcpServerConf) : Option String := do
  let text ← mapToString y some c.args
  let args ← y.load text
  return y.emit (c.toNode y args)

/-- What is relied on of yaml-cpp: it parses back the trees that are emitted for `c`, and
its numbers; the empty text has no node in it. -/
structure ReadsBack (y : YamlCpp) (c : TcpServerConf) : Prop where
  empty : y.load "" = some .null
  args : ∀ node, mapToNode y some c.args = some node → y.load (y.emit node) = some node
  conf : ∀ node, mapToNode y some c.args = some node →
    y.load (y.emit (c.toNode y node)) = some (c.toNode y node)
  ints : ∀ i ∈ [c.keepalive, c.timeout, c.ssl], y.decodeInt (y.encodeInt i) = some i

/-! ## Reading back -/

variable {y : YamlCpp} {c : TcpServerConf}

theorem eq_iff {oth : TcpServerConf} : c.eq oth = true ↔ c = oth := by
  constructor
  · intro h
    simp only [eq, Bool.and_eq_true, beq_iff_eq] at h
    cases c
    cases oth
    simp_all
  · rintro rfl
    simp [eq]

theorem mapM_getElem? {α : Type} (l : List α) :
    ((List.range l.length).mapM fun i => l[i]?) = some l := by
  induction l with
  | nil => rfl
  | cons x l ih =>
      have hsucc : (fun i => (x :: l)[i]?) ∘ Nat.succ = fun i => l[i]? := rfl
      rw [List.length_cons, List.range_succ_eq_map, List.mapM_cons, List.mapM_map, hsucc, ih]
      rfl

/-- The addresses of a sequence are all read. -/
theorem readAddress_sequence (address : List String) :
    readAddress y (some (.sequence (address.map .scalar))) = some address := by
  have hitem : ∀ i, Node.asString ((Node.sequence (address.map .scalar)).item y i) =
      address[i]? := by
    intro i
    rw [Node.item, List.getElem?_map]
    cases address[i]? <;> rfl
  rw [readAddress, funext hitem, Node.size, List.length_map]
  exact mapM_getElem? address

/-- Written addresses are read back, also if there are none. -/
theorem subscript_address (args : Node) :
    ∃ node, (c.toNode y args).subscript "address" = some node ∧
      readAddress y node = some c.address := by
  cases haddress : c.address with
  | nil =>
      refine ⟨none, ?_, rfl⟩
      rw [toNode, haddress]
      rfl
  | cons x address =>
      refine ⟨some (.sequence ((x :: address).map .scalar)), ?_, readAddress_sequence _⟩
      rw [toNode, haddress]
      rfl

/-- **What is read back** has all fields but the arguments: they are a map node, and the
text that is read in their place is empty. -/
theorem ofString_toNode {entries : List (Node × Node)} (hempty : y.load "" = some .null)
    (hints : ∀ i ∈ [c.keepalive, c.timeout, c.ssl], y.decodeInt (y.encodeInt i) = some i)
    {text : String} (hload : y.load text = some (c.toNode y (.map entries))) :
    ofString y text = some { c with args := .empty } := by
  obtain ⟨node, hnode, haddress⟩ := subscript_address (y := y) (c := c) (.map entries)
  have hargs : mapOfString (T := String) y some "" = some .empty := by
    rw [mapOfString, hempty]
    rfl
  have hfields : ofString y text =
      (mapOfString y some "").bind fun args =>
        ((c.toNode y (.map entries)).subscript "address").bind fun node =>
          (readAddress y node).bind fun address =>
            some { c with
              keepalive := (y.decodeInt (y.encodeInt c.keepalive)).getD default.keepalive
              timeout := (y.decodeInt (y.encodeInt c.timeout)).getD default.timeout
              ssl := (y.decodeInt (y.encodeInt c.ssl)).getD default.ssl
              args := args
              address := address } := by
    rw [ofString, hload]
    rfl
  have hkeepalive := hints c.keepalive (by simp)
  have htimeout := hints c.timeout (by simp)
  have hssl := hints c.ssl (by simp)
  rw [hfields, hargs, hnode]
  simp only [Option.bind_some, haddress, hkeepalive, htimeout, hssl, Option.getD_some]

/-- The text that is written is the one of a map node for the arguments. -/
theorem toString_eq {args : Node} (hargs : mapToNode y some c.args = some args)
    (hload : y.load (y.emit args) = some args) :
    toString y c = some (y.emit (c.toNode y args)) := by
  have htext : mapToString y some c.args = some (y.emit args) := by
    rw [mapToString, hargs]
    rfl
  rw [toString, htext]
  simp only [Option.bind_eq_bind, Option.bind_some, hload]
  rfl

end TcpServerConf

open TcpServerConf in
/-- **Round trip of a `TcpServerConf`.**  What is written is read back equal, exactly if
there are no arguments. -/
theorem conf_round_trip {y : YamlCpp} {c : TcpServerConf} (h : ReadsBack y c) :
    (∃ text c', toString y c = some text ∧ ofString y text = some c' ∧ c'.eq c = true) ↔
      c.args = .empty := by
  constructor
  · rintro ⟨text, c', hwrite, hread, heq⟩
    -- the arguments could be written, for a text was
    have hsome : (mapToNode y some c.args).isSome := by
      cases hargs : mapToNode y some c.args with
      | none =>
          rw [TcpServerConf.toString, mapToString, hargs] at hwrite
          cases hwrite
      | some args => rfl
    obtain ⟨args, hargs⟩ := Option.isSome_iff_exists.mp hsome
    obtain ⟨entries, rfl⟩ := mapToNode_isMap y hargs
    rw [toString_eq hargs (h.args _ hargs)] at hwrite
    obtain rfl := Option.some.inj hwrite
    rw [ofString_toNode h.empty h.ints (h.conf _ hargs)] at hread
    obtain rfl := Option.some.inj hread
    exact (congrArg TcpServerConf.args (eq_iff.mp heq)).symm
  · intro hnone
    have hargs : mapToNode y some c.args = some (.map []) := by
      rw [hnone, mapToNode_empty]
    refine ⟨_, _, toString_eq hargs (h.args _ hargs),
      ofString_toNode h.empty h.ints (h.conf _ hargs), ?_⟩
    rw [eq_iff, ← hnone]

/-- The trees of some short texts. -/
def shortTree (v : String) : Option Node :=
  if v = "" then some .null
  else if v = "\x7b\x7d" then some (.map [])
  else if v = "v" then some (.scalar "v")
  else if v = "k: v" then some (.map [(.scalar "k", .scalar "v")])
  else none

/-- yaml-cpp on the trees of one configuration, which is written as `text`. -/
def yamlOf (text : String) (root : Node) : YamlCpp where
  load v := if v = text then some root else shortTree v
  emit
    | .map [] => "\x7b\x7d"
    | .map [(.scalar key, .scalar value)] => key ++ ": " ++ value
    | _ => text
  encodeInt i := if i = 0 then "0" else "120000"
  decodeInt v := if v = "0" then some 0 else if v = "120000" then some 120000 else none
  decodeIndex _ := none

theorem yamlOf_text (text : String) (root : Node) : (yamlOf text root).load text = some root :=
  if_pos rfl

theorem yamlOf_short {text v : String} {root : Node} (hv : v ≠ text) :
    (yamlOf text root).load v = shortTree v :=
  if_neg hv

theorem yamlOf_int {text : String} {root : Node} {i : Int32}
    (hi : i ∈ [(0 : Int32), 120000, 0]) :
    (yamlOf text root).decodeInt ((yamlOf text root).encodeInt i) = some i := by
  simp only [List.mem_cons, List.not_mem_nil, or_false] at hi
  rcases hi with rfl | rfl | rfl <;> rfl

/-- A server on one address. -/
def echoConf : TcpServerConf :=
  { TcpServerConf.default with address := ["0.0.0.0:8020"], name := "echo", ioWorker := "io" }

def echoText : String :=
  "id: \"\"\ntype: http\nname: echo\nkeepalive: 0\ntimeout: 120000\nssl: 0\ncert_file: \"\"\n" ++
    "key_file: \"\"\naccept_worker: \"\"\nio_worker: io\nprocess_worker: \"\"\nargs:\n  \x7b\x7d\n" ++
    "address:\n  - 0.0.0.0:8020"

def echoYaml : YamlCpp :=
  yamlOf echoText (echoConf.toNode (yamlOf "" .null) (.map []))

open TcpServerConf in
theorem conf_round_trip_echo :
    (∃ text c', toString echoYaml echoConf = some text ∧ ofString echoYaml text = some c' ∧
        c'.eq echoConf = true) ↔
      echoConf.args = .empty :=
  conf_round_trip
    { empty := yamlOf_short (by decide)
      args := fun node hnode => by
        cases hnode
        exact yamlOf_short (by decide)
      conf := fun node hnode => by
        cases hnode
        exact yamlOf_text echoText _
      ints := fun _ hi => yamlOf_int hi }

/-- The same server with one argument. -/
def argsConf : TcpServerConf :=
  { echoConf with args := SortedMap.empty.insert "k" "v" }

def argsText : String :=
  "id: \"\"\ntype: http\nname: echo\nkeepalive: 0\ntimeout: 120000\nssl: 0\ncert_file: \"\"\n" ++
    "key_file: \"\"\naccept_worker: \"\"\nio_worker: io\nprocess_worker: \"\"\nargs:\n  k: v\n" ++
    "address:\n  - 0.0.0.0:8020"

def argsYaml : YamlCpp :=
  yamlOf argsText (argsConf.toNode (yamlOf "" .null) (.map [(.scalar "k", .scalar "v")]))

theorem argsConf_node :
    mapToNode argsYaml some argsConf.args = some (.map [(.scalar "k", .scalar "v")]) := by
  have hv : argsYaml.load "v" = some (.scalar "v") := yamlOf_short (by decide)
  have hentries : argsConf.args.entries = [("k", "v")] := rfl
  simp [mapToNode, hentries, hv]

theorem argsConf_readsBack : TcpServerConf.ReadsBack argsYaml argsConf where
  empty := yamlOf_short (by decide)
  args := by
    intro node hnode
    obtain rfl := Option.some.inj (argsConf_node.symm.trans hnode)
    exact yamlOf_short (by decide)
  conf := by
    intro node hnode
    obtain rfl := Option.some.inj (argsConf_node.symm.trans hnode)
    exact yamlOf_text argsText _
  ints := fun _ hi => yamlOf_int hi

open TcpServerConf in
/-- The argument is lost. -/
theorem conf_loses_args :
    ¬ ∀ (y : YamlCpp) (c : TcpServerConf), ReadsBack y c →
      ∃ text c', toString y c = some text ∧ ofString y text = some c' ∧ c'.eq c = true := by
  intro hall
  obtain ⟨text, c', hwrite, hread, heq⟩ := hall argsYaml argsConf argsConf_readsBack
  have hback := argsConf_readsBack
  rw [toString_eq argsConf_node (hback.args _ argsConf_node)] at hwrite
  obtain rfl := Option.some.inj hwrite
  rw [ofString_toNode hback.empty hback.ints (hback.conf _ argsConf_node)] at hread
  obtain rfl := Option.some.inj hread
  have hlost : argsConf.args = .empty := (congrArg TcpServerConf.args (eq_iff.mp heq)).symm
  exact absurd hlost (by decide)

end Network
end Hpgs
