import Mathlib.Data.List.AList
import Kleene.Automaton.Reach

/-!
# Graph containers

The container that keeps the graph of an automaton: nodes, and at most one value for each arrow
between them.  What it holds after a change is fixed, but it lists nodes and arrows in an order of
its own.  The container that keeps them in lists, the latest first, is one of this kind.
-/

namespace Kleene

/-- A container for graphs, with the laws that it is used by.  None of them says in which order
nodes and arrows are listed. -/
structure GraphMap where
  /-- The graphs with values of a given type at their arrows. -/
  Graph : Type → Type
  empty {ω : Type} : Graph ω
  addNode {ω : Type} : Graph ω → State → Graph ω
  /-- The graph without a node and its arrows. -/
  removeNode {ω : Type} : Graph ω → State → Graph ω
  /-- Puts a value at an arrow in place of the one that is there.  The ends become nodes. -/
  put {ω : Type} : Graph ω → Arrow → ω → Graph ω
  /-- The graph without an arrow and its value.  The ends stay. -/
  removeArrow {ω : Type} : Graph ω → Arrow → Graph ω
  nodes {ω : Type} : Graph ω → List State
  arrows {ω : Type} : Graph ω → List (Arrow × ω)
  successors {ω : Type} : Graph ω → State → List State
  predecessors {ω : Type} : Graph ω → State → List State
  value? {ω : Type} : Graph ω → Arrow → Option ω
  mem_nodes_empty {ω : Type} (q : State) : q ∉ nodes (empty : Graph ω)
  value?_empty {ω : Type} (a : Arrow) : value? (empty : Graph ω) a = none
  mem_nodes_addNode {ω : Type} (g : Graph ω) (p q : State) :
    q ∈ nodes (addNode g p) ↔ q = p ∨ q ∈ nodes g
  value?_addNode {ω : Type} (g : Graph ω) (p : State) (a : Arrow) :
    value? (addNode g p) a = value? g a
  mem_nodes_removeNode {ω : Type} (g : Graph ω) (p q : State) :
    q ∈ nodes (removeNode g p) ↔ q ∈ nodes g ∧ q ≠ p
  value?_removeNode {ω : Type} (g : Graph ω) (p : State) (a : Arrow) :
    value? (removeNode g p) a = if a.1 = p ∨ a.2 = p then none else value? g a
  mem_nodes_put {ω : Type} (g : Graph ω) (a : Arrow) (x : ω) (q : State) :
    q ∈ nodes (put g a x) ↔ q = a.1 ∨ q = a.2 ∨ q ∈ nodes g
  value?_put {ω : Type} (g : Graph ω) (a : Arrow) (x : ω) (b : Arrow) :
    value? (put g a x) b = if b = a then some x else value? g b
  mem_nodes_removeArrow {ω : Type} (g : Graph ω) (a : Arrow) (q : State) :
    q ∈ nodes (removeArrow g a) ↔ q ∈ nodes g
  value?_removeArrow {ω : Type} (g : Graph ω) (a b : Arrow) :
    value? (removeArrow g a) b = if b = a then none else value? g b
  ends_mem {ω : Type} (g : Graph ω) (a : Arrow) (x : ω) :
    value? g a = some x → a.1 ∈ nodes g ∧ a.2 ∈ nodes g
  nodup_nodes {ω : Type} (g : Graph ω) : (nodes g).Nodup
  nodup_arrows {ω : Type} (g : Graph ω) : (arrows g).Nodup
  mem_arrows {ω : Type} (g : Graph ω) (a : Arrow) (x : ω) : (a, x) ∈ arrows g ↔ value? g a = some x
  nodup_successors {ω : Type} (g : Graph ω) (p : State) : (successors g p).Nodup
  mem_successors {ω : Type} (g : Graph ω) (p q : State) :
    q ∈ successors g p ↔ ∃ x, value? g (p, q) = some x
  nodup_predecessors {ω : Type} (g : Graph ω) (q : State) : (predecessors g q).Nodup
  mem_predecessors {ω : Type} (g : Graph ω) (p q : State) :
    p ∈ predecessors g q ↔ ∃ x, value? g (p, q) = some x

namespace GraphMap

variable (C : GraphMap) {ω : Type}

/-! ## Several changes -/

def addNodes (g : C.Graph ω) (qs : List State) : C.Graph ω := qs.foldl C.addNode g

def putAll (g : C.Graph ω) (xs : List (Arrow × ω)) : C.Graph ω :=
  xs.foldl (fun g x => C.put g x.1 x.2) g

/-- A new graph with given nodes and arrows. -/
def build (qs : List State) (xs : List (Arrow × ω)) : C.Graph ω :=
  C.putAll (C.addNodes C.empty qs) xs

variable {C} {g : C.Graph ω} {qs : List State} {xs : List (Arrow × ω)} {q : State} {a : Arrow}

theorem mem_nodes_addNodes : q ∈ C.nodes (C.addNodes g qs) ↔ q ∈ qs ∨ q ∈ C.nodes g := by
  induction qs generalizing g with
  | nil => exact (or_iff_right List.not_mem_nil).symm
  | cons p qs ih =>
    show q ∈ C.nodes (C.addNodes (C.addNode g p) qs) ↔ _
    rw [ih, C.mem_nodes_addNode, List.mem_cons, or_left_comm, or_assoc]

theorem value?_addNodes : C.value? (C.addNodes g qs) a = C.value? g a := by
  induction qs generalizing g with
  | nil => rfl
  | cons p qs ih => exact (ih (g := C.addNode g p)).trans (C.value?_addNode g p a)

/-- No node is new if the ends of all arrows are nodes. -/
theorem mem_nodes_putAll (hends : ∀ x ∈ xs, x.1.1 ∈ C.nodes g ∧ x.1.2 ∈ C.nodes g) :
    q ∈ C.nodes (C.putAll g xs) ↔ q ∈ C.nodes g := by
  induction xs generalizing g with
  | nil => exact Iff.rfl
  | cons x xs ih =>
    obtain ⟨⟨hs, ht⟩, hrest⟩ := List.forall_mem_cons.1 hends
    have hput : ∀ r, r ∈ C.nodes (C.put g x.1 x.2) ↔ r ∈ C.nodes g := fun r => by
      rw [C.mem_nodes_put]
      exact ⟨fun h => h.elim (fun he => he ▸ hs) fun h => h.elim (fun he => he ▸ ht) id,
        fun h => .inr (.inr h)⟩
    exact (ih fun y hy => (hrest y hy).imp (hput _).2 (hput _).2).trans (hput q)

/-- Where no arrow gets two values, the order of the arrows does not matter. -/
theorem value?_putAll {f : Arrow → ω} (hvalue : ∀ x ∈ xs, x.2 = f x.1) :
    C.value? (C.putAll g xs) a = if a ∈ xs.map Prod.fst then some (f a) else C.value? g a := by
  induction xs generalizing g with
  | nil => rfl
  | cons x xs ih =>
    obtain ⟨hx, hrest⟩ := List.forall_mem_cons.1 hvalue
    show C.value? (C.putAll (C.put g x.1 x.2) xs) a = _
    rw [ih hrest, C.value?_put, List.map_cons]
    by_cases ha : a = x.1
    · rw [if_pos ha, if_pos (List.mem_cons.2 (.inl ha)), hx, ha, ite_self]
    · rw [if_neg ha]
      exact if_congr ((or_iff_right ha).symm.trans List.mem_cons.symm) rfl rfl

theorem mem_nodes_build (hends : ∀ x ∈ xs, x.1.1 ∈ qs ∧ x.1.2 ∈ qs) :
    q ∈ C.nodes (C.build qs xs) ↔ q ∈ qs := by
  have hnodes : ∀ r, r ∈ C.nodes (C.addNodes (C.empty : C.Graph ω) qs) ↔ r ∈ qs := fun r =>
    mem_nodes_addNodes.trans (or_iff_left (C.mem_nodes_empty r))
  exact (mem_nodes_putAll fun x hx => (hends x hx).imp (hnodes _).2 (hnodes _).2).trans (hnodes q)

theorem value?_build {f : Arrow → ω} (hvalue : ∀ x ∈ xs, x.2 = f x.1) :
    C.value? (C.build qs xs) a = if a ∈ xs.map Prod.fst then some (f a) else none := by
  rw [build, value?_putAll hvalue, value?_addNodes, C.value?_empty]

end GraphMap

/-! ## Graphs in lists -/

/-- A graph as two lists, of its nodes and of its arrows with their values. -/
structure ListedGraph (ω : Type) where
  nodes : List State
  links : AList fun _ : Arrow => ω
  nodup_nodes : nodes.Nodup
  ends_mem : ∀ a ∈ links, a.1 ∈ nodes ∧ a.2 ∈ nodes

namespace ListedGraph

variable {ω : Type} {g : ListedGraph ω} {p q : State} {a : Arrow} {x : ω}

def empty : ListedGraph ω := ⟨[], ∅, .nil, fun _ ha => absurd ha (AList.notMem_empty _)⟩

def addNode (g : ListedGraph ω) (q : State) : ListedGraph ω where
  nodes := g.nodes.insert q
  links := g.links
  nodup_nodes := g.nodup_nodes.insert
  ends_mem a ha := (g.ends_mem a ha).imp (List.mem_insert_of_mem) (List.mem_insert_of_mem)

/-- Of the arrows those that do not touch the node. -/
def linksWithout (g : ListedGraph ω) (q : State) : AList fun _ : Arrow => ω where
  entries := g.links.entries.filter fun e => e.1.1 ≠ q && e.1.2 ≠ q
  nodupKeys := g.links.nodupKeys.sublist List.filter_sublist

theorem mem_lookup_linksWithout : (g.linksWithout q).lookup a = some x ↔
    g.links.lookup a = some x ∧ a.1 ≠ q ∧ a.2 ≠ q := by
  have hfilter : ⟨a, x⟩ ∈ (g.linksWithout q).entries ↔
      ⟨a, x⟩ ∈ g.links.entries ∧ a.1 ≠ q ∧ a.2 ≠ q := by
    unfold linksWithout
    rw [List.mem_filter, Bool.and_eq_true, decide_eq_true_eq, decide_eq_true_eq]
  exact AList.mem_lookup_iff.trans (hfilter.trans (and_congr_left' AList.mem_lookup_iff.symm))

def removeNode (g : ListedGraph ω) (q : State) : ListedGraph ω where
  nodes := g.nodes.filter (· ≠ q)
  links := g.linksWithout q
  nodup_nodes := g.nodup_nodes.filter _
  ends_mem a ha := by
    obtain ⟨x, hx⟩ := Option.isSome_iff_exists.1 (AList.lookup_isSome.2 ha)
    obtain ⟨hlookup, hsource, htarget⟩ := mem_lookup_linksWithout.1 hx
    obtain ⟨hs, ht⟩ := g.ends_mem a (AList.lookup_isSome.1 (hlookup ▸ rfl))
    exact ⟨List.mem_filter.2 ⟨hs, decide_eq_true hsource⟩,
      List.mem_filter.2 ⟨ht, decide_eq_true htarget⟩⟩

def put (g : ListedGraph ω) (a : Arrow) (x : ω) : ListedGraph ω where
  nodes := (g.nodes.insert a.2).insert a.1
  links := g.links.insert a x
  nodup_nodes := g.nodup_nodes.insert.insert
  ends_mem b hb := by
    simp only [List.mem_insert_iff]
    obtain rfl | hb := (AList.mem_insert _).1 hb
    · exact ⟨.inl rfl, .inr (.inl rfl)⟩
    · obtain ⟨hs, ht⟩ := g.ends_mem b hb
      exact ⟨.inr (.inr hs), .inr (.inr ht)⟩

def removeArrow (g : ListedGraph ω) (a : Arrow) : ListedGraph ω where
  nodes := g.nodes
  links := g.links.erase a
  nodup_nodes := g.nodup_nodes
  ends_mem b hb := g.ends_mem b (AList.mem_erase.1 hb).2

def arrows (g : ListedGraph ω) : List (Arrow × ω) := g.links.entries.map fun e => (e.1, e.2)

/-- The nodes at the other end of the arrows out of a node. -/
def successors (g : ListedGraph ω) (p : State) : List State :=
  (g.links.keys.filter (·.1 = p)).map (·.2)

def predecessors (g : ListedGraph ω) (q : State) : List State :=
  (g.links.keys.filter (·.2 = q)).map (·.1)

theorem mem_keys_iff : a ∈ g.links.keys ↔ ∃ x, g.links.lookup a = some x := by
  rw [← AList.mem_keys, ← AList.lookup_isSome, Option.isSome_iff_exists]

end ListedGraph

/-- The container that keeps graphs in lists. -/
def GraphMap.listed : GraphMap where
  Graph := ListedGraph
  empty := .empty
  addNode := .addNode
  removeNode := .removeNode
  put := .put
  removeArrow := .removeArrow
  nodes := ListedGraph.nodes
  arrows := ListedGraph.arrows
  successors := ListedGraph.successors
  predecessors := ListedGraph.predecessors
  value? g a := g.links.lookup a
  mem_nodes_empty _ := List.not_mem_nil
  value?_empty a := AList.lookup_empty a
  mem_nodes_addNode g p q := List.mem_insert_iff
  value?_addNode _ _ _ := rfl
  mem_nodes_removeNode g p q := by
    show q ∈ g.nodes.filter (· ≠ p) ↔ _
    rw [List.mem_filter, decide_eq_true_eq]
  value?_removeNode g p a := by
    refine Option.ext fun x => ?_
    rw [ListedGraph.removeNode, ListedGraph.mem_lookup_linksWithout]
    split
    · rename_i htouches
      exact iff_of_false (fun h => htouches.elim h.2.1 h.2.2) (fun h => by cases h)
    · rename_i htouches
      exact and_iff_left (not_or.1 htouches)
  mem_nodes_put g a x q := by
    show q ∈ (g.nodes.insert a.2).insert a.1 ↔ _
    rw [List.mem_insert_iff, List.mem_insert_iff]
  value?_put g a x b := by
    show (g.links.insert a x).lookup b = _
    split
    · rename_i heq
      rw [heq, AList.lookup_insert]
    · rename_i hne
      rw [AList.lookup_insert_ne hne]
  mem_nodes_removeArrow _ _ _ := Iff.rfl
  value?_removeArrow g a b := by
    show (g.links.erase a).lookup b = _
    split
    · rename_i heq
      rw [heq, AList.lookup_erase]
    · rename_i hne
      rw [AList.lookup_erase_ne hne]
  ends_mem g a x hx := g.ends_mem a (AList.lookup_isSome.1 (hx ▸ rfl))
  nodup_nodes g := g.nodup_nodes
  nodup_arrows g := by
    refine List.Nodup.map (fun e f hef => ?_) g.links.nodupKeys.nodup
    obtain ⟨hkey, hvalue⟩ := Prod.mk.inj hef
    exact Sigma.ext hkey (heq_of_eq hvalue)
  mem_arrows g a x := by
    show (a, x) ∈ g.links.entries.map _ ↔ _
    rw [List.mem_map]
    refine Iff.trans ⟨?_, fun h => ⟨⟨a, x⟩, h, rfl⟩⟩ AList.mem_lookup_iff.symm
    rintro ⟨e, he, heq⟩
    obtain ⟨rfl, rfl⟩ := Prod.mk.inj heq
    exact he
  nodup_successors g p := by
    refine List.Nodup.map_on (fun a ha b hb hab => ?_) (g.links.keys_nodup.filter _)
    have hsource : a.1 = b.1 := (of_decide_eq_true (List.mem_filter.1 ha).2).trans
      (of_decide_eq_true (List.mem_filter.1 hb).2).symm
    exact Prod.ext hsource hab
  mem_successors g p q := by
    rw [← ListedGraph.mem_keys_iff]
    show q ∈ (g.links.keys.filter (·.1 = p)).map (·.2) ↔ _
    simp
  nodup_predecessors g q := by
    refine List.Nodup.map_on (fun a ha b hb hab => ?_) (g.links.keys_nodup.filter _)
    have htarget : a.2 = b.2 := (of_decide_eq_true (List.mem_filter.1 ha).2).trans
      (of_decide_eq_true (List.mem_filter.1 hb).2).symm
    exact Prod.ext hab htarget
  mem_predecessors g p q := by
    rw [← ListedGraph.mem_keys_iff]
    show p ∈ (g.links.keys.filter (·.2 = q)).map (·.1) ↔ _
    simp

end Kleene
