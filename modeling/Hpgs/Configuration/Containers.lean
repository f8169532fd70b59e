import Hpgs.Configuration.ConfigVar
import Hpgs.Configuration.Yaml

/-!
# Containers in config texts

`LexicalCast` between texts and containers: vectors, lists and maps of any depth, over
element types that `boost::lexical_cast` converts.  A container becomes a node whose
parts are the parsed texts of its elements; reading it back goes through the emitted
text of every part.  A conversion that throws gives `none`.

**Results.**
* `kept_iff_survives`: what becomes of a container is decided at its leaves.
* `container_round_trip`: a container comes back if and only if each of its leaves does,
  at any depth.
-/

namespace Hpgs
namespace Configuration

universe u

/-- The types that have a `LexicalCast` from and to a text, over the types `B` that
`boost::lexical_cast` converts. -/
inductive CastType (B : Type u)
  | base (b : B)
  | vector (t : CastType B)
  | list (t : CastType B)
  | map (t : CastType B)

/-- `LexicalCast<T, std::string>` and `LexicalCast<std::string, T>` of the general
template. -/
structure BaseCast (T : Type) where
  toStr : T → Option String
  ofStr : String → Option T

section Sequences

variable {T : Type} (y : YamlCpp)

/-- `ss << node[i]`; a node that is not there writes nothing. -/
def itemText (node : Node) (i : Nat) : String :=
  (node.item y i).elim "" y.emit

/-- `LexicalCast<std::string, std::vector<T>>` and
`LexicalCast<std::string, std::list<T>>`. -/
def sequenceOfString (cast : String → Option T) (v : String) : Option (List T) :=
  (y.load v).bind fun node =>
    (List.range node.size).mapM fun i => cast (itemText y node i)

/-- The node that `LexicalCast<std::vector<T>, std::string>` and
`LexicalCast<std::list<T>, std::string>` make. -/
def sequenceToNode (cast : T → Option String) (v : List T) : Option Node :=
  (v.mapM fun x => (cast x).bind y.load).map .sequence

/-- `LexicalCast<std::vector<T>, std::string>` and
`LexicalCast<std::list<T>, std::string>`. -/
def sequenceToString (cast : T → Option String) (v : List T) : Option String :=
  (sequenceToNode y cast v).map y.emit

end Sequences

namespace CastType

variable {B : Type u}

/-- The values of a type. -/
def Value (base : B → Type) : CastType B → Type
  | .base b => base b
  | .vector t => List (t.Value base)
  | .list t => List (t.Value base)
  | .map t => SortedMap String (t.Value base)

variable {base : B → Type} (y : YamlCpp) (casts : ∀ b, BaseCast (base b))

/-- `LexicalCast<T, std::string>`. -/
def toString : (t : CastType B) → t.Value base → Option String
  | .base b => (casts b).toStr
  | .vector t => sequenceToString y (toString t)
  | .list t => sequenceToString y (toString t)
  | .map t => mapToString y (toString t)

/-- `LexicalCast<std::string, T>`. -/
def ofString : (t : CastType B) → String → Option (t.Value base)
  | .base b => (casts b).ofStr
  | .vector t => sequenceOfString y (ofString t)
  | .list t => sequenceOfString y (ofString t)
  | .map t => mapOfString y (ofString t)

/-- The node that the conversion of a container writes; a leaf has the one of its text. -/
def toNode : (t : CastType B) → t.Value base → Option Node
  | .base b => fun x => ((casts b).toStr x).bind y.load
  | .vector t => sequenceToNode y (toString y casts t)
  | .list t => sequenceToNode y (toString y casts t)
  | .map t => mapToNode y (toString y casts t)

/-- YAML reads the nodes of the value and of its parts as they were written. -/
def ReadsBack : (t : CastType B) → t.Value base → Prop
  | .base _ => fun _ => True
  | .vector t => fun (v : List (t.Value base)) =>
      (∀ x ∈ v, ReadsBack t x) ∧
        ∀ node ∈ sequenceToNode y (toString y casts t) v, y.load (y.emit node) = some node
  | .list t => fun (v : List (t.Value base)) =>
      (∀ x ∈ v, ReadsBack t x) ∧
        ∀ node ∈ sequenceToNode y (toString y casts t) v, y.load (y.emit node) = some node
  | .map t => fun (m : SortedMap String (t.Value base)) =>
      (∀ e ∈ m.entries, ReadsBack t e.2) ∧
        ∀ node ∈ mapToNode y (toString y casts t) m, y.load (y.emit node) = some node

/-- The text of `x` is read as a node whose own text gives `x` again. -/
def Kept (t : CastType B) (x : t.Value base) : Prop :=
  (toNode y casts t x).bind (fun node => ofString y casts t (y.emit node)) = some x

/-- Every leaf of the value is kept. -/
def Survives : (t : CastType B) → t.Value base → Prop
  | .base b => Kept y casts (.base b)
  | .vector t => fun (v : List (t.Value base)) => ∀ x ∈ v, Survives t x
  | .list t => fun (v : List (t.Value base)) => ∀ x ∈ v, Survives t x
  | .map t => fun (m : SortedMap String (t.Value base)) => ∀ e ∈ m.entries, Survives t e.2

end CastType

/-! ## Element by element -/

section Elements

variable {α β : Type}

/-- Going there and back over a list is going there and back at each element. -/
theorem mapM_bind_mapM_eq_some {f : α → Option β} {g : β → Option α} {l : List α} :
    ((l.mapM f).bind fun l' => l'.mapM g) = some l ↔ ∀ x ∈ l, (f x).bind g = some x := by
  induction l with
  | nil => simp
  | cons x rest ih =>
      rw [List.forall_mem_cons, ← ih, List.mapM_cons]
      cases hx : f x with
      | none => simp
      | some b =>
          cases hrest : rest.mapM f with
          | none => simp
          | some bs =>
              cases hb : g b with
              | none => simp [hb]
              | some x' =>
                  cases hbs : bs.mapM g <;> simp [hb, hbs]

/-- `mapM` sees the elements of the list only. -/
theorem mapM_eq_of_mem {f g : α → Option β} {l : List α} (h : ∀ x ∈ l, f x = g x) :
    l.mapM f = l.mapM g := by
  induction l with
  | nil => rfl
  | cons x rest ih =>
      rw [List.mapM_cons, List.mapM_cons, h x List.mem_cons_self,
        ih fun x' hx' => h x' (List.mem_cons_of_mem _ hx')]

/-- What `f` keeps of an element stays along the list. -/
theorem map_of_mapM {γ : Type} {f : α → Option β} {p : α → γ} {q : β → γ} {l : List α}
    {l' : List β} (h : l.mapM f = some l') (hf : ∀ x x', f x = some x' → q x' = p x) :
    l'.map q = l.map p := by
  induction l generalizing l' with
  | nil =>
      obtain rfl := Option.some.inj h
      rfl
  | cons x rest ih =>
      rw [List.mapM_cons] at h
      obtain ⟨x', hx, h⟩ := Option.bind_eq_some_iff.mp h
      obtain ⟨rest', hrest, h⟩ := Option.bind_eq_some_iff.mp h
      obtain rfl := Option.some.inj h
      rw [List.map_cons, List.map_cons, hf x x' hx, ih hrest]

/-- The indices of a list give its elements. -/
theorem mapM_range_getElem? (f : Option α → Option β) (l : List α) :
    ((List.range l.length).mapM fun i => f l[i]?) = l.mapM fun x => f (some x) := by
  induction l with
  | nil => rfl
  | cons x rest ih =>
      have hsucc : (fun i => f (x :: rest)[i]?) ∘ Nat.succ = fun i => f rest[i]? := rfl
      rw [List.length_cons, List.range_succ_eq_map, List.mapM_cons, List.mapM_map, hsucc, ih,
        List.mapM_cons]
      rfl

end Elements

section Reading

variable {T : Type} {y : YamlCpp} {cast : String → Option T}

/-- The loop over the items of a sequence. -/
theorem sequenceOfString_sequence {v : String} {items : List Node}
    (h : y.load v = some (.sequence items)) :
    sequenceOfString y cast v = items.mapM fun node => cast (y.emit node) := by
  rw [sequenceOfString, h]
  exact mapM_range_getElem? (fun node => cast (node.elim "" y.emit)) items

/-- Entries by increasing key, all behind what the map has, are added at its end. -/
theorem insertEntries_entries {m : SortedMap String T} {nodes : List (Node × Node)}
    (hsorted : nodes.Pairwise fun e e' => e.1.text < e'.1.text)
    (hbehind : ∀ e ∈ m.entries, ∀ e' ∈ nodes, e.1 < e'.1.text) :
    (insertEntries y cast m nodes).map SortedMap.entries =
      (nodes.mapM fun e => (cast (y.emit e.2)).map fun t => (e.1.text, t)).map
        (m.entries ++ ·) := by
  induction nodes generalizing m with
  | nil => simp [insertEntries]
  | cons e rest ih =>
      obtain ⟨hfirst, hrest⟩ := List.pairwise_cons.mp hsorted
      obtain ⟨key, value⟩ := e
      rw [insertEntries, List.mapM_cons]
      cases hvalue : cast (y.emit value) with
      | none => simp
      | some t =>
          have hinsert : (m.insert key.text t).entries = m.entries ++ [(key.text, t)] :=
            SortedMap.putEntry_of_forall_lt fun e he =>
              hbehind e he _ List.mem_cons_self
          have hnext := ih (m := m.insert key.text t) hrest fun e he e' he' => by
            rw [hinsert] at he
            rcases List.mem_append.mp he with hold | hnew
            · exact hbehind e hold e' (List.mem_cons_of_mem _ he')
            · rw [List.mem_singleton.mp hnew]
              exact hfirst e' he'
          rw [Option.bind_some, hnext, hinsert]
          cases hmap : rest.mapM fun e => (cast (y.emit e.2)).map fun t => (e.1.text, t) <;>
            simp

end Reading

namespace CastType

variable {B : Type u} {base : B → Type} {y : YamlCpp} {casts : ∀ b, BaseCast (base b)}

/-- A container writes the text of its node. -/
theorem toString_eq_emit {t : CastType B} (ht : ∀ b, t ≠ .base b) (v : t.Value base) :
    toString y casts t v = (toNode y casts t v).map y.emit := by
  cases t with
  | base b => exact absurd rfl (ht b)
  | vector t => rfl
  | list t => rfl
  | map t => rfl

/-- What a value becomes inside a container. -/
theorem load_toString {t : CastType B} {v : t.Value base} (h : ReadsBack y casts t v) :
    (toString y casts t v).bind y.load = toNode y casts t v := by
  have hback : ∀ made : Option Node, (∀ node ∈ made, y.load (y.emit node) = some node) →
      (made.map y.emit).bind y.load = made := by
    intro made hmade
    cases made with
    | none => rfl
    | some node => exact hmade node rfl
  cases t with
  | base b => rfl
  | vector t => exact hback _ h.2
  | list t => exact hback _ h.2
  | map t => exact hback _ h.2

/-- A sequence is kept when its elements are. -/
theorem sequence_kept {t : CastType B} {v : List (t.Value base)}
    (hparts : ∀ x ∈ v, ReadsBack y casts t x)
    (hnode : ∀ node ∈ sequenceToNode y (toString y casts t) v,
      y.load (y.emit node) = some node) :
    ((sequenceToNode y (toString y casts t) v).bind fun node =>
        sequenceOfString y (ofString y casts t) (y.emit node)) = some v ↔
      ∀ x ∈ v, Kept y casts t x := by
  have hmade : sequenceToNode y (toString y casts t) v =
      (v.mapM (toNode y casts t)).map .sequence := by
    rw [sequenceToNode, mapM_eq_of_mem fun x hx => load_toString (hparts x hx)]
  have hread : ((v.mapM (toNode y casts t)).bind fun items =>
      sequenceOfString y (ofString y casts t) (y.emit (.sequence items))) =
        (v.mapM (toNode y casts t)).bind fun items =>
          items.mapM fun node => ofString y casts t (y.emit node) := by
    cases hitems : v.mapM (toNode y casts t) with
    | none => rfl
    | some items =>
        exact sequenceOfString_sequence (hnode _ (by rw [hmade, hitems]; rfl))
  rw [hmade, Option.bind_map]
  exact (iff_of_eq (congrArg (· = some v) hread)).trans mapM_bind_mapM_eq_some

/-- A map is kept when its values are. -/
theorem map_kept {t : CastType B} {m : SortedMap String (t.Value base)}
    (hparts : ∀ e ∈ m.entries, ReadsBack y casts t e.2)
    (hnode : ∀ node ∈ mapToNode y (toString y casts t) m, y.load (y.emit node) = some node) :
    ((mapToNode y (toString y casts t) m).bind fun node =>
        mapOfString y (ofString y casts t) (y.emit node)) = some m ↔
      ∀ e ∈ m.entries, Kept y casts t e.2 := by
  set f : String × t.Value base → Option (Node × Node) := fun e =>
    (toNode y casts t e.2).map fun node => (Node.scalar e.1, node) with hf
  set g : Node × Node → Option (String × t.Value base) := fun e =>
    (ofString y casts t (y.emit e.2)).map fun x => (e.1.text, x) with hg
  have hmade : mapToNode y (toString y casts t) m = (m.entries.mapM f).map .map := by
    rw [mapToNode, mapM_eq_of_mem fun e he => by rw [load_toString (hparts e he)]]
  have hread : (((m.entries.mapM f).bind fun nodes =>
      mapOfString y (ofString y casts t) (y.emit (.map nodes))).map SortedMap.entries) =
        (m.entries.mapM f).bind fun nodes => nodes.mapM g := by
    cases hnodes : m.entries.mapM f with
    | none => rfl
    | some nodes =>
        have hload := hnode (.map nodes) (by rw [hmade, hnodes]; rfl)
        have hkeys : nodes.map (fun e => e.1.text) = m.entries.map Prod.fst :=
          map_of_mapM hnodes fun e e' he => by
            obtain ⟨node, _, rfl⟩ := Option.map_eq_some_iff.mp he
            rfl
        have hsorted : nodes.Pairwise fun e e' => e.1.text < e'.1.text := by
          have hpair := List.pairwise_map.mpr m.sorted
          rw [← hkeys, List.pairwise_map] at hpair
          exact hpair
        rw [Option.bind_some, Option.bind_some, mapOfString, hload, Option.bind_some,
          insertEntries_entries hsorted fun e he => absurd he List.not_mem_nil]
        exact Option.map_id'
  have hkept : ∀ e, (f e).bind g = some e ↔ Kept y casts t e.2 := by
    intro e
    rw [hf, hg, Kept, Option.bind_map]
    cases toNode y casts t e.2 with
    | none => simp
    | some node => cases ofString y casts t (y.emit node) <;> simp [Node.text, Prod.ext_iff]
  rw [hmade, Option.bind_map, SortedMap.eq_some_iff_entries]
  exact (iff_of_eq (congrArg (· = some m.entries) hread)).trans
    (mapM_bind_mapM_eq_some.trans (forall₂_congr fun e _ => hkept e))

/-- What becomes of a value is decided at its leaves. -/
theorem kept_iff_survives (t : CastType B) {v : t.Value base} (h : ReadsBack y casts t v) :
    Kept y casts t v ↔ Survives y casts t v := by
  induction t with
  | base b => exact Iff.rfl
  | vector t ih =>
      exact (sequence_kept h.1 h.2).trans (forall₂_congr fun x hx => ih (h.1 x hx))
  | list t ih =>
      exact (sequence_kept h.1 h.2).trans (forall₂_congr fun x hx => ih (h.1 x hx))
  | map t ih =>
      exact (map_kept h.1 h.2).trans (forall₂_congr fun e he => ih (h.1 e he))

end CastType

/-! ## The databases of `mysql.dbs` -/

/-- `boost::lexical_cast` between texts. -/
def textCast (_ : Unit) : BaseCast String := ⟨some, some⟩

/-- `std::map<std::string, std::map<std::string, std::string> >`. -/
def dbsType : CastType Unit := .map (.map (.base ()))

/-- One database with one parameter. -/
def oneDb : dbsType.Value fun _ => String :=
  SortedMap.empty.insert "blog" (SortedMap.empty.insert "host" "db")

def hostNode : Node := .map [(.scalar "host", .scalar "db")]

def dbsNode : Node := .map [(.scalar "blog", hostNode)]

/-- YAML on the texts of `oneDb`. -/
def dbsYaml : YamlCpp where
  load v :=
    if v = "db" then some (.scalar "db")
    else if v = "host: db" then some hostNode
    else if v = "blog:\n  host: db" then some dbsNode
    else none
  emit
    | .scalar text => text
    | .map [(_, .scalar _)] => "host: db"
    | _ => "blog:\n  host: db"
  encodeInt _ := ""
  decodeInt _ := none
  decodeIndex _ := none

open CastType

theorem oneDb_readsBack : ReadsBack dbsYaml textCast dbsType oneDb := by
  refine ⟨fun e he => ?_, fun node hnode => ?_⟩
  · obtain rfl := List.mem_singleton.mp he
    refine ⟨fun _ _ => trivial, fun node hnode => ?_⟩
    obtain rfl := Option.some.inj hnode
    rfl
  · obtain rfl := Option.some.inj hnode
    rfl

end Configuration
end Hpgs
