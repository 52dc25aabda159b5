import Mathlib.Data.List.Nodup
import RefGraph.Graph.Basic
import RefGraph.Proofs.FirstByKey

/-!
# Graphs under construction are consistent

A graph keeps the same facts several times: the index repeats the identifiers of the nodes, the set
of keys repeats the edges, and the chains repeat where the edges begin. They never disagree.

* `Graph.Consistent`: the invariant.
* `Graph.Consistent.insertNode`, `Graph.Consistent.insertEdge`: every call keeps it, also a refused
  one.
* `Graph.nodes_insertNode`, `Graph.edges_insertEdge`: what a call does to the nodes and edges.
* `Graph.Consistent.node?_eq_find?`, `Graph.Consistent.edgesFrom_eq`: looking up agrees with
  searching all nodes or edges.
-/

namespace RefGraph

namespace Graph

/-- The identifiers of the nodes, in order. -/
def ids (g : Graph) : List String := g.nodes.toList.map GraphNode.id

/-- The keys of the edges, in order. -/
def edgeKeys (g : Graph) : List EdgeKey := g.edges.toList.map GraphEdge.key

/-- The index, the set of keys and the chains say what the nodes and edges say. -/
structure Consistent (g : Graph) : Prop where
  index_eq_some_iff : ∀ (id : String) (i : Nat),
    g.index[id]? = some i ↔ ∃ n : GraphNode, g.nodes[i]? = some n ∧ n.id = id
  contains_keys_iff : ∀ k, g.keys.contains k = true ↔ k ∈ g.edgeKeys
  nodup_edgeKeys : g.edgeKeys.Nodup
  ends_mem_ids : ∀ e ∈ g.edges.toList, e.source ∈ g.ids ∧ e.target ∈ g.ids
  edge_id : ∀ e ∈ g.edges.toList, e.id = e.key.id
  /-- Each node has a chain, and the edges on it are those that leave the node, the latest first. -/
  chain : ∀ (i : Nat) (n : GraphNode), g.nodes[i]? = some n →
    ∃ js : List Nat, g.outgoing[i]? = some js ∧ js.map (fun j => g.edges[j]?) =
      (g.edges.toList.filter fun e => e.source = n.id).reverse.map some
  size_outgoing : g.outgoing.size = g.nodes.size

variable {g : Graph}

/-! ## Looking up -/

namespace Consistent

/-- The empty graph is consistent. -/
theorem empty : Consistent empty where
  index_eq_some_iff id i := by simp [Graph.empty]
  contains_keys_iff k := by simp [Graph.empty, edgeKeys]
  nodup_edgeKeys := List.nodup_nil
  ends_mem_ids e he := by simp [Graph.empty] at he
  edge_id e he := by simp [Graph.empty] at he
  chain i n h := by simp [Graph.empty] at h
  size_outgoing := rfl

/-- The index has exactly the identifiers of the nodes. -/
theorem mem_ids_iff (hg : g.Consistent) (id : String) :
    id ∈ g.ids ↔ ∃ i, g.index[id]? = some i := by
  rw [ids, List.mem_map]
  constructor
  · rintro ⟨n, hn, rfl⟩
    obtain ⟨i, hi⟩ := Array.mem_iff_getElem?.1 (Array.mem_toList_iff.1 hn)
    exact ⟨i, (hg.index_eq_some_iff n.id i).2 ⟨n, hi, rfl⟩⟩
  · rintro ⟨i, hi⟩
    obtain ⟨n, hn, rfl⟩ := (hg.index_eq_some_iff id i).1 hi
    exact ⟨n, Array.mem_toList_iff.2 (Array.mem_of_getElem? hn), rfl⟩

/-- An identifier is not in the index just if no node has it. -/
theorem index_eq_none_iff (hg : g.Consistent) (id : String) :
    g.index[id]? = none ↔ id ∉ g.ids := by
  rw [hg.mem_ids_iff, ← Option.isSome_iff_exists, Bool.not_eq_true, Option.isSome_eq_false_iff,
    Option.isNone_iff_eq_none]

/-- A node is in the graph just if its identifier is. -/
theorem contains_iff (hg : g.Consistent) (id : String) : g.contains id = true ↔ id ∈ g.ids := by
  rw [contains, Std.HashMap.contains_eq_isSome_getElem?, Option.isSome_iff_exists, hg.mem_ids_iff]

/-- A graph contains an identifier just if one of its nodes has it. -/
theorem contains_eq_any (hg : g.Consistent) (id : String) :
    g.contains id = g.nodes.toList.any fun n => n.id = id := by
  rw [Bool.eq_iff_iff, hg.contains_iff, ids, List.mem_map, List.any_eq_true]
  simp only [decide_eq_true_eq]

/-- No two nodes have the same identifier. -/
theorem nodup_ids (hg : g.Consistent) : g.ids.Nodup := by
  rw [ids, List.nodup_iff_getElem?_ne_getElem?]
  intro i j hij hj he
  simp only [List.getElem?_map, Array.getElem?_toList] at he
  rw [List.length_map, Array.length_toList] at hj
  rw [Array.getElem?_eq_getElem hj, Array.getElem?_eq_getElem (by omega : i < g.nodes.size)] at he
  simp only [Option.map_some, Option.some.injEq] at he
  -- Both positions are what the index has for one identifier.
  have hi := (hg.index_eq_some_iff g.nodes[j].id i).2
    ⟨_, Array.getElem?_eq_getElem (by omega), he⟩
  have hj := (hg.index_eq_some_iff g.nodes[j].id j).2 ⟨_, Array.getElem?_eq_getElem hj, rfl⟩
  rw [hi, Option.some.injEq] at hj
  omega

/-- Two nodes of one identifier are the same node. -/
theorem eq_of_id_eq (hg : g.Consistent) {m n : GraphNode} (hm : m ∈ g.nodes.toList)
    (hn : n ∈ g.nodes.toList) (h : m.id = n.id) : m = n :=
  List.inj_on_of_nodup_map hg.nodup_ids hm hn h

/-- The index finds the node that a search of all nodes finds. -/
theorem node?_eq_find? (hg : g.Consistent) (id : String) :
    g.node? id = g.nodes.toList.find? fun n => n.id = id := by
  cases h : g.index[id]? with
  | none =>
    have hid : id ∉ g.ids := (hg.index_eq_none_iff id).1 h
    rw [node?, h, Option.bind_none, eq_comm, List.find?_eq_none]
    intro n hn he
    exact hid (List.mem_map.2 ⟨n, hn, of_decide_eq_true he⟩)
  | some i =>
    obtain ⟨n, hn, rfl⟩ := (hg.index_eq_some_iff id i).1 h
    have hmem : n ∈ g.nodes.toList := Array.mem_toList_iff.2 (Array.mem_of_getElem? hn)
    rw [node?, h, Option.bind_some, hn]
    cases hf : g.nodes.toList.find? fun m => m.id = n.id with
    | none => exact absurd (decide_eq_true rfl) (List.find?_eq_none.1 hf n hmem)
    | some m =>
      have hm := List.find?_some hf
      rw [hg.eq_of_id_eq hmem (List.mem_of_find?_eq_some hf) (of_decide_eq_true hm).symm]

/-- The chain of a node has the edges that a search of all edges finds, the latest first. -/
theorem edgesFrom_eq (hg : g.Consistent) (source : String) :
    g.edgesFrom source = (g.edges.toList.filter fun e => e.source = source).reverse := by
  rw [edgesFrom]
  cases h : g.index[source]? with
  | none =>
    have hid : source ∉ g.ids := (hg.index_eq_none_iff source).1 h
    rw [eq_comm, List.reverse_eq_nil_iff, List.filter_eq_nil_iff]
    intro e he hs
    exact hid (of_decide_eq_true hs ▸ (hg.ends_mem_ids e he).1)
  | some i =>
    obtain ⟨n, hn, rfl⟩ := (hg.index_eq_some_iff source i).1 h
    obtain ⟨js, hjs, hmap⟩ := hg.chain i n hn
    have hfilter : js.filterMap (fun j => g.edges[j]?) =
        (js.map fun j => g.edges[j]?).filterMap id := by
      rw [List.filterMap_map]
      rfl
    simp only [hjs, Option.getD_some]
    rw [hfilter, hmap, List.filterMap_map]
    exact List.filterMap_some

/-- A graph has an edge just if one of its edges has the same ends and kind. -/
theorem hasEdge_eq_any (hg : g.Consistent) (source target : String) (kind : EdgeKind) :
    g.hasEdge source target kind =
      g.edges.toList.any fun e => e.source = source && e.target = target && e.kind = kind := by
  rw [hasEdge, hg.edgesFrom_eq, List.any_reverse, List.any_filter]
  congr 1
  funext e
  rw [Bool.and_assoc]

end Consistent

/-! ## Adding nodes -/

/-- A node is refused exactly if its identifier is there. -/
theorem insertNode_eq_false_iff (hg : g.Consistent) (n : GraphNode) :
    (g.insertNode n).1 = false ↔ n.id ∈ g.ids := by
  rw [← hg.contains_iff, insertNode]
  split <;> simp_all

/-- A refused node changes nothing. -/
theorem insertNode_of_refused {n : GraphNode} (h : (g.insertNode n).1 = false) :
    (g.insertNode n).2 = g := by
  unfold insertNode at h ⊢
  split
  · rfl
  · rename_i hc
    rw [if_neg hc] at h
    exact absurd h (by simp)

/-- The nodes after one was offered: it is kept if its identifier is new. -/
theorem nodes_insertNode (hg : g.Consistent) (n : GraphNode) :
    (g.insertNode n).2.nodes.toList = firstsBy GraphNode.id (g.nodes.toList ++ [n]) := by
  rw [firstsBy_concat, firstsBy_eq_self hg.nodup_ids, ← ids, insertNode]
  by_cases h : g.contains n.id
  · rw [if_pos h, if_pos ((hg.contains_iff _).1 h)]
  · rw [if_neg h, if_neg (fun hm => h ((hg.contains_iff _).2 hm)), Array.toList_push]

@[simp] theorem edges_insertNode (n : GraphNode) : (g.insertNode n).2.edges = g.edges := by
  unfold insertNode
  split <;> rfl

/-- A position in an array that was extended is an old one or the new one. -/
theorem getElem?_push_eq_some_iff {α : Type} {xs : Array α} {x y : α} {i : Nat} :
    (xs.push x)[i]? = some y ↔ xs[i]? = some y ∨ i = xs.size ∧ x = y := by
  rw [Array.getElem?_push]
  split
  · rename_i h
    rw [h, Array.getElem?_size]
    simp
  · rename_i h
    simp [h]

/-- The index of the nodes and a new one. -/
theorem Consistent.index_push (hg : g.Consistent) {n : GraphNode} (hnew : n.id ∉ g.ids)
    (id : String) (i : Nat) : (g.index.insert n.id g.nodes.size)[id]? = some i ↔
      ∃ m : GraphNode, (g.nodes.push n)[i]? = some m ∧ m.id = id := by
  simp only [Std.HashMap.getElem?_insert, getElem?_push_eq_some_iff]
  by_cases hid : n.id = id
  · subst hid
    rw [if_pos (beq_self_eq_true _), Option.some.injEq]
    constructor
    · rintro rfl
      exact ⟨n, Or.inr ⟨rfl, rfl⟩, rfl⟩
    · rintro ⟨m, hm | ⟨rfl, -⟩, he⟩
      · -- An old node has another identifier.
        exact absurd (he ▸ List.mem_map_of_mem (Array.mem_toList_iff.2 (Array.mem_of_getElem? hm)))
          hnew
      · rfl
  · rw [if_neg (by simpa using hid), hg.index_eq_some_iff]
    constructor
    · rintro ⟨m, hm, he⟩
      exact ⟨m, Or.inl hm, he⟩
    · rintro ⟨m, hm | ⟨-, rfl⟩, he⟩
      · exact ⟨m, hm, he⟩
      · exact absurd he hid

/-- The chains of the nodes and a new one, which no edge leaves yet. -/
theorem Consistent.chain_push (hg : g.Consistent) {n : GraphNode} (hnew : n.id ∉ g.ids) {i : Nat}
    {m : GraphNode} (hm : (g.nodes.push n)[i]? = some m) :
    ∃ js : List Nat, (g.outgoing.push [])[i]? = some js ∧ js.map (fun j => g.edges[j]?) =
      (g.edges.toList.filter fun e => e.source = m.id).reverse.map some := by
  rcases getElem?_push_eq_some_iff.1 hm with hm | ⟨rfl, rfl⟩
  · obtain ⟨js, hjs, hmap⟩ := hg.chain i m hm
    exact ⟨js, getElem?_push_eq_some_iff.2 (Or.inl hjs), hmap⟩
  · refine ⟨[], getElem?_push_eq_some_iff.2 (Or.inr ⟨hg.size_outgoing.symm, rfl⟩), ?_⟩
    have hnone : (g.edges.toList.filter fun e => e.source = n.id) = [] := by
      rw [List.filter_eq_nil_iff]
      intro e he hs
      exact hnew (of_decide_eq_true hs ▸ (hg.ends_mem_ids e he).1)
    rw [hnone]
    rfl

/-- Adding a node keeps a graph consistent. -/
theorem Consistent.insertNode (hg : g.Consistent) (n : GraphNode) :
    (g.insertNode n).2.Consistent := by
  unfold Graph.insertNode
  split
  · exact hg
  rename_i hc
  have hnew : n.id ∉ g.ids := fun hm => hc ((hg.contains_iff _).2 hm)
  refine ⟨hg.index_push hnew, hg.contains_keys_iff, hg.nodup_edgeKeys, ?_, hg.edge_id,
    fun i m hm => hg.chain_push hnew hm, ?_⟩
  · intro e he
    have hends := hg.ends_mem_ids e he
    simp only [ids, Array.toList_push, List.map_append, List.mem_append]
    exact ⟨Or.inl hends.1, Or.inl hends.2⟩
  · simp only [Array.size_push, hg.size_outgoing]

/-! ## Adding edges -/

/-- Whether an edge of a key is added: both its ends are nodes and no edge has the key. -/
def Admits (g : Graph) (k : EdgeKey) : Prop :=
  k.source ∈ g.ids ∧ k.target ∈ g.ids ∧ k ∉ g.edgeKeys

/-- An edge is refused if one of its ends is missing or it is there already. -/
theorem not_admits_iff (k : EdgeKey) :
    ¬ g.Admits k ↔ k.source ∉ g.ids ∨ k.target ∉ g.ids ∨ k ∈ g.edgeKeys := by
  rw [Admits, not_and_or, not_and_or, not_not]

/-- All that offering an edge can do. -/
theorem insertEdge_cases (hg : g.Consistent) (k : EdgeKey) (location : Option Location) :
    (g.Admits k ∧ ∃ i, g.index[k.source]? = some i ∧
      g.insertEdge k location = (some k.id, { g with
        edges := g.edges.push (edgeOf k location)
        outgoing := g.outgoing.modify i (g.edges.size :: ·)
        keys := g.keys.insert k })) ∨
    (¬ g.Admits k ∧ g.insertEdge k location = (none, g)) := by
  cases hs : g.index[k.source]? with
  | none =>
    refine Or.inr ⟨fun ha => (hg.index_eq_none_iff _).1 hs ha.1, ?_⟩
    simp only [insertEdge, hs]
  | some i =>
    cases ht : g.index[k.target]? with
    | none =>
      refine Or.inr ⟨fun ha => (hg.index_eq_none_iff _).1 ht ha.2.1, ?_⟩
      simp only [insertEdge, hs, ht]
    | some j =>
      by_cases hk : g.keys.contains k
      · refine Or.inr ⟨fun ha => ha.2.2 ((hg.contains_keys_iff k).1 hk), ?_⟩
        simp only [insertEdge, hs, ht, if_pos hk]
      · refine Or.inl ⟨⟨?_, ?_, fun hm => hk ((hg.contains_keys_iff k).2 hm)⟩, i, rfl, ?_⟩
        · exact (hg.mem_ids_iff _).2 ⟨i, hs⟩
        · exact (hg.mem_ids_iff _).2 ⟨j, ht⟩
        · simp only [insertEdge, hs, ht, if_neg hk]

/-- An edge is refused exactly if it lacks an end or its key is there. -/
theorem insertEdge_eq_none_iff (hg : g.Consistent) (k : EdgeKey) (location : Option Location) :
    (g.insertEdge k location).1 = none ↔ ¬ g.Admits k := by
  rcases insertEdge_cases hg k location with ⟨ha, i, -, he⟩ | ⟨ha, he⟩
  · rw [he]
    exact ⟨fun h => absurd h (Option.some_ne_none _), fun h => absurd ha h⟩
  · rw [he]
    exact ⟨fun _ => ha, fun _ => rfl⟩

/-- A refused edge changes nothing. -/
theorem insertEdge_of_refused (hg : g.Consistent) {k : EdgeKey} {location : Option Location}
    (h : (g.insertEdge k location).1 = none) : (g.insertEdge k location).2 = g := by
  rcases insertEdge_cases hg k location with ⟨ha, -⟩ | ⟨-, he⟩
  · exact absurd ha ((insertEdge_eq_none_iff hg k location).1 h)
  · rw [he]

@[simp] theorem nodes_insertEdge (k : EdgeKey) (location : Option Location) :
    (g.insertEdge k location).2.nodes = g.nodes := by
  unfold insertEdge
  split
  · split <;> rfl
  · rfl

/-- The edges after one was offered. -/
theorem edges_insertEdge (hg : g.Consistent) (k : EdgeKey) (location : Option Location) :
    (g.insertEdge k location).2.edges.toList = g.edges.toList ++
      ((g.insertEdge k location).1.map fun id =>
        { edgeOf k location with id := id }).toList := by
  rcases insertEdge_cases hg k location with ⟨-, i, -, he⟩ | ⟨-, he⟩
  · rw [he, Array.toList_push]
    rfl
  · rw [he]
    exact (List.append_nil _).symm

@[simp] theorem key_edgeOf (k : EdgeKey) (location : Option Location) :
    (edgeOf k location).key = k := rfl

/-- The positions on a chain are old ones, so that a new edge does not disturb them. -/
theorem map_getElem?_push {α : Type} {xs : Array α} {js : List Nat} {ys : List α}
    (h : js.map (fun j => xs[j]?) = ys.map some) (x : α) :
    js.map (fun j => (xs.push x)[j]?) = ys.map some := by
  rw [← h]
  refine List.map_congr_left fun j hj => ?_
  have hm : xs[j]? ∈ ys.map some := h ▸ List.mem_map_of_mem hj
  obtain ⟨y, -, hy⟩ := List.mem_map.1 hm
  rw [← hy]
  exact getElem?_push_eq_some_iff.2 (Or.inl hy.symm)

/-- The chains after a new edge, which is put before the others of the node that it leaves. -/
theorem Consistent.chain_push_edge (hg : g.Consistent) {k : EdgeKey} (location : Option Location)
    {i : Nat} (hi : g.index[k.source]? = some i) {j : Nat} {n : GraphNode}
    (hn : g.nodes[j]? = some n) :
    ∃ js : List Nat, (g.outgoing.modify i (g.edges.size :: ·))[j]? = some js ∧
      js.map (fun j => (g.edges.push (edgeOf k location))[j]?) =
        ((g.edges.push (edgeOf k location)).toList.filter fun e =>
          e.source = n.id).reverse.map some := by
  obtain ⟨js, hjs, hmap⟩ := hg.chain j n hn
  simp only [Array.toList_push, List.filter_append, List.reverse_append, List.map_append,
    Array.getElem?_modify, hjs, Option.map_some]
  by_cases hij : i = j
  · subst hij
    obtain ⟨m, hm, hid⟩ := (hg.index_eq_some_iff _ _).1 hi
    rw [hn, Option.some.injEq] at hm
    subst hm
    refine ⟨g.edges.size :: js, if_pos rfl, ?_⟩
    rw [List.map_cons, map_getElem?_push hmap, Array.getElem?_push_size]
    simp [edgeOf, hid]
  · -- Another position is that of another identifier, which the edge does not leave.
    have hne : k.source ≠ n.id := by
      intro h
      have hj := (hg.index_eq_some_iff k.source j).2 ⟨n, hn, h.symm⟩
      rw [hi, Option.some.injEq] at hj
      exact hij hj
    refine ⟨js, if_neg hij, ?_⟩
    rw [map_getElem?_push hmap]
    simp [edgeOf, hne]

/-- Adding an edge keeps a graph consistent. -/
theorem Consistent.insertEdge (hg : g.Consistent) (k : EdgeKey) (location : Option Location) :
    (g.insertEdge k location).2.Consistent := by
  rcases insertEdge_cases hg k location with ⟨⟨hs, ht, hk⟩, i, hi, he⟩ | ⟨-, he⟩
  -- An edge that is refused changes nothing.
  swap
  · rw [he]
    exact hg
  rw [he]
  refine ⟨hg.index_eq_some_iff, ?_, ?_, ?_, ?_, fun j n hn => hg.chain_push_edge location hi hn, ?_⟩
  · intro l
    simp only [Std.HashSet.contains_insert, edgeKeys, Array.toList_push, List.map_append,
      List.mem_append, Bool.or_eq_true, beq_iff_eq, List.map_singleton, List.mem_singleton,
      key_edgeOf]
    rw [hg.contains_keys_iff, or_comm, eq_comm, edgeKeys]
  · simp only [edgeKeys, Array.toList_push, List.map_append, List.map_singleton, key_edgeOf]
    exact List.nodup_append.2 ⟨hg.nodup_edgeKeys, List.pairwise_singleton _ _,
      fun l hl m hm hlm => hk (List.mem_singleton.1 hm ▸ hlm ▸ hl)⟩
  · intro e hm
    rcases List.mem_append.1 (Array.toList_push ▸ hm) with hm | hm
    · exact hg.ends_mem_ids e hm
    · rw [List.mem_singleton.1 hm]
      exact ⟨hs, ht⟩
  · intro e hm
    rcases List.mem_append.1 (Array.toList_push ▸ hm) with hm | hm
    · exact hg.edge_id e hm
    · rw [List.mem_singleton.1 hm]
      rfl
  · simp only [Array.size_modify, hg.size_outgoing]

end Graph

end RefGraph
