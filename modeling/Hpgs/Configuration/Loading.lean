import Hpgs.Configuration.Config
import Mathlib.Data.List.Induction
import Mathlib.Data.List.Infix

/-!
# What loading a YAML tree calls

`LoadFromYaml` makes a list of the nodes of a tree with their paths, and calls `fromString`
on the variables whose keys are among the paths.  The path of a node is made of the keys on
the way to it.  A key is put behind the path of its map with a dot between them, and stands
alone where that path is empty, so that empty keys at the front leave no dots.

**Results.**
* `listAllMember_eq`: the nodes that are listed are those with accepted keys only.
* `loadNodes_eq`: the calls for a list of nodes, and the registry after them.
* `load_addresses`: what is called for a tree, and that nothing else changes.
* `load_misaddresses`: an empty key before the name of a variable.
-/

namespace Hpgs
namespace Configuration

variable {τ : Type} {Val : τ → Type}

/-! ## Paths -/

/-- The keys with dots between them. -/
def dotted : List String → String
  | [] => ""
  | key :: keys => keys.foldl (fun path key => path ++ "." ++ key) key

/-- The path that `ListAllMember` makes: the keys from the first one on that is not empty. -/
def pathOf (keys : List String) : String :=
  dotted (keys.dropWhile fun key => decide (key = ""))

mutual

/-- The nodes of a tree in pre-order, each with the keys on the way to it. -/
def nodes (keys : List String) (node : Node) : List (List String × Node) :=
  (keys, node) ::
    match node with
    | .map entries => entryNodes keys entries
    | _ => []

def entryNodes (keys : List String) : List (Node × Node) → List (List String × Node)
  | [] => []
  | (key, value) :: entries => nodes (keys ++ [key.text]) value ++ entryNodes keys entries

end

/-- The path of every node on the way is made of accepted characters. -/
def Accepted (path : List String → String) (keys : List String) : Prop :=
  ∀ front ∈ keys.inits, OnlyOf pathChars (path front)

instance (path : List String → String) (keys : List String) : Decidable (Accepted path keys) :=
  List.decidableBAll (fun front => OnlyOf pathChars (path front)) keys.inits

/-- The call of `fromString` for a node that `path` gives the key of a variable. -/
def callFor (path : List String → String) (emit : Node → String) (c : Config Val)
    (e : List String × Node) : Option (Nat × String) :=
  if Accepted path e.1 then
    (c.datas.find? (path e.1)).map fun p => (p, Config.nodeText emit e.2)
  else none

/-- `fromString` is called for the nodes that `call` says, one after the other, and no
variable changes otherwise. -/
structure Loads (call : List String × Node → Option (Nat × String)) (emit : Node → String)
    (fromStr : (t : τ) → String → Option (Val t)) (c : Config Val) (root : Node) : Prop where
  calls : (c.loadFromYaml emit fromStr root).1 = (nodes [] root).filterMap call
  state : (c.loadFromYaml emit fromStr root).2 =
    (c.loadFromYaml emit fromStr root).1.foldl (fun c x => c.fromString fromStr x.1 x.2) c
  others : ∀ p, (∀ x ∈ (c.loadFromYaml emit fromStr root).1, x.1 ≠ p) →
    (c.loadFromYaml emit fromStr root).2.vars[p]? = c.vars[p]?

/-! ## Keys -/

theorem dotted_append {keys : List String} (h : keys ≠ []) (key : String) :
    dotted (keys ++ [key]) = dotted keys ++ "." ++ key := by
  cases keys with
  | nil => exact absurd rfl h
  | cons first keys => rw [List.cons_append, dotted, List.foldl_concat, dotted]

theorem dotted_ne {first : String} (h : first ≠ "") (keys : List String) :
    dotted (first :: keys) ≠ "" := by
  induction keys using List.reverseRecOn with
  | nil => exact h
  | append_singleton keys key _ =>
      rw [← List.cons_append, dotted_append (List.cons_ne_nil first keys), Ne,
        ← String.toList_inj, String.toList_append, String.toList_append]
      simp

/-- **One key more.**  The dot is left out behind an empty path. -/
theorem pathOf_append (keys : List String) (key : String) :
    pathOf (keys ++ [key]) = if pathOf keys = "" then key else pathOf keys ++ "." ++ key := by
  induction keys with
  | nil =>
      rw [List.nil_append, pathOf, pathOf, List.dropWhile_nil, dotted, if_pos rfl]
      by_cases hkey : key = ""
      · rw [List.dropWhile_cons, if_pos (decide_eq_true hkey), hkey]
        rfl
      · rw [List.dropWhile_cons, if_neg (by simpa using hkey)]
        rfl
  | cons first keys ih =>
      by_cases hfirst : first = ""
      · have hskip : ∀ rest, pathOf (first :: rest) = pathOf rest := fun rest => by
          rw [pathOf, List.dropWhile_cons, if_pos (decide_eq_true hfirst), pathOf]
        rw [List.cons_append, hskip, hskip, ih]
      · have hkeep : ∀ rest, pathOf (first :: rest) = dotted (first :: rest) := fun rest => by
          rw [pathOf, List.dropWhile_cons, if_neg (by simpa using hfirst)]
        rw [List.cons_append, hkeep, hkeep, if_neg (dotted_ne hfirst keys), ← List.cons_append,
          dotted_append (List.cons_ne_nil first keys)]

/-! ## The nodes that are listed -/

theorem accepted_iff {path : List String → String} {keys : List String} :
    Accepted path keys ↔ ∀ front, front <+: keys → OnlyOf pathChars (path front) := by
  simp only [Accepted, List.mem_inits]

mutual

/-- The keys of a node come before those of what is in it. -/
theorem prefix_of_mem_nodes {keys : List String} {node : Node} {e : List String × Node}
    (he : e ∈ nodes keys node) : keys <+: e.1 := by
  rw [nodes.eq_def] at he
  rcases List.mem_cons.mp he with rfl | he
  · exact List.prefix_rfl
  · cases node with
    | map entries => exact prefix_of_mem_entryNodes he
    | null => exact absurd he List.not_mem_nil
    | scalar text => exact absurd he List.not_mem_nil
    | sequence items => exact absurd he List.not_mem_nil

theorem prefix_of_mem_entryNodes {keys : List String} {entries : List (Node × Node)}
    {e : List String × Node} (he : e ∈ entryNodes keys entries) : keys <+: e.1 := by
  cases entries with
  | nil =>
      rw [entryNodes] at he
      exact absurd he List.not_mem_nil
  | cons entry entries =>
      obtain ⟨key, value⟩ := entry
      rw [entryNodes] at he
      rcases List.mem_append.mp he with he | he
      · exact (List.prefix_append keys [key.text]).trans (prefix_of_mem_nodes he)
      · exact prefix_of_mem_entryNodes he

end

/-- The accepted ones of some nodes, with their paths. -/
def listed (ns : List (List String × Node)) : List (String × Node) :=
  (ns.filter fun e => decide (Accepted pathOf e.1)).map fun e => (pathOf e.1, e.2)

theorem listed_append (ns ns' : List (List String × Node)) :
    listed (ns ++ ns') = listed ns ++ listed ns' := by
  rw [listed, List.filter_append, List.map_append, listed, listed]

theorem listed_cons {keys : List String} (h : Accepted pathOf keys) (node : Node)
    (ns : List (List String × Node)) :
    listed ((keys, node) :: ns) = (pathOf keys, node) :: listed ns := by
  rw [listed, List.filter_cons, if_pos (decide_eq_true h), List.map_cons, listed]

/-- A key that is not accepted takes all of its subtree away. -/
theorem listed_of_rejected {keys : List String} (h : ¬ OnlyOf pathChars (pathOf keys))
    (node : Node) : listed (nodes keys node) = [] := by
  have hnone : ((nodes keys node).filter fun e => decide (Accepted pathOf e.1)) = [] := by
    rw [List.filter_eq_nil_iff]
    intro e he hacc
    exact h (accepted_iff.mp (of_decide_eq_true hacc) keys (prefix_of_mem_nodes he))
  rw [listed, hnone, List.map_nil]

mutual

/-- **The nodes that are listed.** -/
theorem listAllMember_eq (keys : List String)
    (h : ∀ front, front <+: keys → front ≠ keys → OnlyOf pathChars (pathOf front)) (node : Node) :
    Config.listAllMember (pathOf keys) node = listed (nodes keys node) := by
  rw [Config.listAllMember.eq_def]
  by_cases hpath : OnlyOf pathChars (pathOf keys)
  · have hacc : Accepted pathOf keys := by
      refine accepted_iff.mpr fun front hfront => ?_
      by_cases heq : front = keys
      · rw [heq]
        exact hpath
      · exact h front hfront heq
    rw [if_pos hpath, nodes.eq_def, listed_cons hacc]
    congr 1
    cases node with
    | map entries => exact listEntries_eq hacc entries
    | null => rfl
    | scalar text => rfl
    | sequence items => rfl
  · rw [if_neg hpath, listed_of_rejected hpath]

theorem listEntries_eq {keys : List String} (h : Accepted pathOf keys)
    (entries : List (Node × Node)) :
    Config.listEntries (pathOf keys) entries = listed (entryNodes keys entries) := by
  cases entries with
  | nil => 
      rw [Config.listEntries, entryNodes]
      rfl
  | cons entry entries =>
      obtain ⟨key, value⟩ := entry
      have hstrict : ∀ front, front <+: keys ++ [key.text] → front ≠ keys ++ [key.text] →
          OnlyOf pathChars (pathOf front) := by
        intro front hfront hne
        exact accepted_iff.mp h front ((List.prefix_concat_iff.mp hfront).resolve_left hne)
      rw [Config.listEntries, entryNodes, ← pathOf_append, listed_append,
        listAllMember_eq (keys ++ [key.text]) hstrict value, listEntries_eq h entries]

end

/-! ## The calls -/

section Calls

variable {emit : Node → String} {fromStr : (t : τ) → String → Option (Val t)} {c : Config Val}

/-- The call that the loop makes for a listed node. -/
def loadCall (emit : Node → String) (c : Config Val) (e : String × Node) :
    Option (Nat × String) :=
  if e.1 = "" then none
  else (c.lookupBase (toLower e.1)).map fun p => (p, Config.nodeText emit e.2)

/-- **The loop** makes the calls one after the other, and they leave the keys alone. -/
theorem loadNodes_eq (list : List (String × Node)) :
    c.loadNodes emit fromStr list =
      (list.filterMap (loadCall emit c),
        (list.filterMap (loadCall emit c)).foldl (fun c x => c.fromString fromStr x.1 x.2) c) := by
  induction list generalizing c with
  | nil => rfl
  | cons e list ih =>
      obtain ⟨key, node⟩ := e
      rw [Config.loadNodes, List.filterMap_cons]
      by_cases hkey : key = ""
      · have hnone : loadCall emit c (key, node) = none := if_pos hkey
        rw [if_pos hkey, hnone, ih]
      · rw [if_neg hkey]
        cases hfind : c.lookupBase (toLower key) with
        | none =>
            have hnone : loadCall emit c (key, node) = none := by
              rw [loadCall, if_neg hkey, hfind, Option.map_none]
            simp only [hnone, ih]
        | some p =>
            have hsome : loadCall emit c (key, node) = some (p, Config.nodeText emit node) := by
              rw [loadCall, if_neg hkey, hfind, Option.map_some]
            -- the later look-ups are in the same registry
            simp only [hsome, ih]
            rfl

/-- A path of accepted characters is in lower case. -/
theorem toLower_of_path {s : String} (h : OnlyOf pathChars s) : toLower s = s := by
  have hall : (pathChars.all fun c => decide (c ∈ nameChars ∧ c.isUpper = false)) = true := by
    decide
  have hlow : ∀ c ∈ s.toList, c ∈ nameChars ∧ c.isUpper = false :=
    fun c hc => of_decide_eq_true (List.all_eq_true.mp hall c (h c hc))
  exact (Config.toLower_eq_iff fun c hc => (hlow c hc).1).mpr fun c hc => (hlow c hc).2

/-- The calls for the listed nodes are those for the accepted ones. -/
theorem filterMap_listed (ns : List (List String × Node)) :
    (listed ns).filterMap (loadCall emit c) =
      ns.filterMap fun e => if pathOf e.1 = "" then none else callFor pathOf emit c e := by
  induction ns with
  | nil => rfl
  | cons e ns ih =>
      obtain ⟨keys, node⟩ := e
      by_cases hacc : Accepted pathOf keys
      · have hlow := toLower_of_path (accepted_iff.mp hacc keys List.prefix_rfl)
        have hcall : loadCall emit c (pathOf keys, node) =
            if pathOf keys = "" then none else callFor pathOf emit c (keys, node) := by
          rw [loadCall, hlow, callFor, if_pos hacc]
          rfl
        rw [listed_cons hacc, List.filterMap_cons, List.filterMap_cons, ih, hcall]
      · have hnone : listed ((keys, node) :: ns) = listed ns := by
          rw [listed, List.filter_cons, if_neg (by simpa using hacc), listed]
        have hcall : (if pathOf keys = "" then none else callFor pathOf emit c (keys, node)) =
            none := by
          rw [callFor, if_neg hacc, ite_self]
        rw [hnone, List.filterMap_cons, hcall, ih]

theorem foldl_fromString_other {p : Nat} {calls : List (Nat × String)}
    (h : ∀ x ∈ calls, x.1 ≠ p) :
    (calls.foldl (fun c x => c.fromString fromStr x.1 x.2) c).vars[p]? = c.vars[p]? := by
  induction calls generalizing c with
  | nil => rfl
  | cons x calls ih =>
      rw [List.forall_mem_cons] at h
      rw [List.foldl_cons, ih h.2]
      exact List.getElem?_modify_ne _ _ h.1

/-- **Loading.**  For every tree and every registry: `fromString` is called, in pre-order, for
each node whose path is the key of a variable and whose keys are accepted, where the path is
that of the keys from the first one on that is not empty, and must not be empty. -/
theorem load_addresses (emit : Node → String) (fromStr : (t : τ) → String → Option (Val t))
    (c : Config Val) (root : Node) :
    Loads (fun e => if pathOf e.1 = "" then none else callFor pathOf emit c e) emit fromStr c
      root := by
  have hlist : Config.listAllMember "" root = listed (nodes [] root) :=
    listAllMember_eq [] (fun front hfront hne =>
      absurd (List.prefix_nil.mp hfront) hne) root
  have hload : c.loadFromYaml emit fromStr root =
      c.loadNodes emit fromStr (listed (nodes [] root)) := by
    rw [Config.loadFromYaml, hlist]
  constructor
  · rw [hload, loadNodes_eq, filterMap_listed]
  · rw [hload, loadNodes_eq]
  · intro p hp
    rw [hload, loadNodes_eq] at hp ⊢
    exact foldl_fromString_other hp

end Calls

/-- A registry with the variable `port`. -/
def portOnly : Config ValueType.Value :=
  (Config.empty : Config ValueType.Value).lookups [⟨"port", .int, (8080 : Int), ""⟩]

/-- A map with the key `port`, under an empty key. -/
def portUnderEmpty : Node :=
  .map [(.scalar "", .map [(.scalar "port", .scalar "80")])]

/-- The dotted path of the inner node is `.port`, and `fromString` is called on `port`. -/
theorem load_misaddresses :
    ¬ ∀ (emit : Node → String) (fromStr : (t : ValueType) → String → Option t.Value)
      (c : Config ValueType.Value) (root : Node),
      Loads (callFor dotted emit c) emit fromStr c root := by
  intro hall
  have hcalls := (hall Node.text convertNone portOnly portUnderEmpty).calls
  exact absurd hcalls (by decide)

end Configuration
end Hpgs
