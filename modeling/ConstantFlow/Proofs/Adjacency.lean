import ConstantFlow.Proofs.ControlFlow

namespace ConstantFlow

namespace Table

variable {κ ν : Type} [DecidableEq κ]

theorem keys_ofList (l : List (κ × ν)) : (ofList l).keys = (l.map Prod.fst).eraseDups := by
  induction l using List.reverseRecOn with
  | nil => rfl
  | append_singleton l e ih =>
    have hlast : ofList (l ++ [e]) = (ofList l).insert e.1 e.2 := by
      rw [ofList, List.foldl_append]
      rfl
    rw [hlast, keys_insert, ih, List.map_append, List.map_singleton, eraseDups_concat]
    simp only [List.mem_eraseDups]

theorem getD_ofList_const (l : List κ) (v : ν) (k : κ) :
    ((ofList (l.map fun j ↦ (j, v))).get? k).getD v = v := by
  induction l using List.reverseRecOn with
  | nil => rfl
  | append_singleton l j ih =>
    have hlast : ofList ((l ++ [j]).map fun j ↦ (j, v)) = (ofList (l.map fun j ↦ (j, v))).insert j v := by
      rw [List.map_append, ofList, List.foldl_append]
      rfl
    rw [hlast, get?_insert]
    split
    · rfl
    · exact ih

end Table

variable {n : Nat}

def inside? : Endpoint n × Endpoint n → Option (Node n × Node n)
  | (.node u, .node v) => some (u, v)
  | _ => none

theorem inside?_eq_some {e : Endpoint n × Endpoint n} {u v : Node n} :
    inside? e = some (u, v) ↔ e = (.node u, .node v) := by
  obtain ⟨a, b⟩ := e
  cases a with
  | node _ => cases b <;> simp [inside?]
  | foreign _ => cases b <;> simp [inside?]

theorem inside?_eq_none {e : Endpoint n × Endpoint n} :
    inside? e = none ↔ ∃ s, e.1 = .foreign s ∨ e.2 = .foreign s := by
  obtain ⟨a, b⟩ := e
  cases a with
  | node _ => cases b <;> simp [inside?]
  | foreign _ => cases b <;> simp [inside?]

theorem mem_filterMap_inside? {l : List (Endpoint n × Endpoint n)} {u v : Node n} :
    (u, v) ∈ l.filterMap inside? ↔ (.node u, .node v) ∈ l := by
  simp only [List.mem_filterMap, inside?_eq_some, exists_eq_right]

namespace Graph

variable {g : Graph n} {u v : Node n}

theorem addEdge_of_mem (h : (u, v) ∈ g.edges) : g.addEdge u v = g := dif_pos h

theorem edges_addEdge (h : (u, v) ∉ g.edges) : (g.addEdge u v).edges = g.edges ++ [(u, v)] := by
  rw [addEdge, dif_neg h]

theorem successors_addEdge (h : (u, v) ∉ g.edges) (w : Node n) :
    (g.addEdge u v).successors w = if u = w then g.successors w ++ [v] else g.successors w := by
  rw [successors, edges_addEdge h, List.filterMap_append]
  by_cases hw : u = w <;> simp [successors, hw]

theorem predecessors_addEdge (h : (u, v) ∉ g.edges) (w : Node n) :
    (g.addEdge u v).predecessors w = if v = w then g.predecessors w ++ [u] else g.predecessors w := by
  rw [predecessors, edges_addEdge h, List.filterMap_append]
  by_cases hw : v = w <;> simp [predecessors, hw]

theorem ofEdges_concat (l : List (Node n × Node n)) (e : Node n × Node n) :
    ofEdges (l ++ [e]) = (ofEdges l).addEdge e.1 e.2 := by
  rw [ofEdges, List.foldl_append]
  rfl

/-- A reading of edges that tells them apart is made once, where an edge is first listed. -/
theorem filterMap_ofEdges {f : Node n × Node n → Option (Node n)}
    (hf : ∀ e e' w, f e = some w → f e' = some w → e = e') (l : List (Node n × Node n)) :
    (ofEdges l).edges.filterMap f = (l.filterMap f).eraseDups := by
  induction l using List.reverseRecOn with
  | nil => rfl
  | append_singleton l e ih =>
    rw [ofEdges_concat, List.filterMap_append]
    cases he : f e with
    | none =>
      have hstay : ((ofEdges l).addEdge e.1 e.2).edges.filterMap f = (ofEdges l).edges.filterMap f := by
        by_cases hl : (e.1, e.2) ∈ (ofEdges l).edges
        · rw [addEdge_of_mem hl]
        · rw [edges_addEdge hl, List.filterMap_append, List.filterMap_cons_none he, List.filterMap_nil,
            List.append_nil]
      rw [hstay, ih, List.filterMap_cons_none he, List.filterMap_nil, List.append_nil]
    | some w =>
      rw [List.filterMap_cons_some he, List.filterMap_nil, eraseDups_concat]
      by_cases hl : e ∈ l
      · rw [addEdge_of_mem (mem_ofEdges.2 hl), ih, if_pos (List.mem_filterMap.2 ⟨e, hl, he⟩)]
      · have hw : w ∉ l.filterMap f := by
          rw [List.mem_filterMap]
          intro ⟨e', hl', he'⟩
          exact hl (hf e' e w he' he ▸ hl')
        rw [edges_addEdge (fun h ↦ hl (mem_ofEdges.1 h)), List.filterMap_append, ih,
          List.filterMap_cons_some he, List.filterMap_nil, if_neg hw]

theorem successors_ofEdges (l : List (Node n × Node n)) (u : Node n) :
    (ofEdges l).successors u = (l.filterMap fun e ↦ if e.1 = u then some e.2 else none).eraseDups := by
  refine filterMap_ofEdges (fun e e' w he he' ↦ ?_) l
  obtain ⟨hu, hw⟩ := Option.ite_none_right_eq_some.1 he
  obtain ⟨hu', hw'⟩ := Option.ite_none_right_eq_some.1 he'
  exact Prod.ext (hu.trans hu'.symm) (Option.some.inj (hw.trans hw'.symm))

theorem predecessors_ofEdges (l : List (Node n × Node n)) (v : Node n) :
    (ofEdges l).predecessors v = (l.filterMap fun e ↦ if e.2 = v then some e.1 else none).eraseDups := by
  refine filterMap_ofEdges (fun e e' w he he' ↦ ?_) l
  obtain ⟨hv, hw⟩ := Option.ite_none_right_eq_some.1 he
  obtain ⟨hv', hw'⟩ := Option.ite_none_right_eq_some.1 he'
  exact Prod.ext (Option.some.inj (hw.trans hw'.symm)) (hv.trans hv'.symm)

def outcome (e : Endpoint n × Endpoint n) : Except (OutsideEdge n) Unit :=
  match inside? e with
  | some _ => .ok ()
  | none => .error ⟨e.1, e.2⟩

theorem requestAll_eq (g : Graph n) (l : List (Endpoint n × Endpoint n)) :
    g.requestAll l = ((l.filterMap inside?).foldl (fun g e ↦ g.addEdge e.1 e.2) g, l.map outcome) := by
  induction l generalizing g with
  | nil => rfl
  | cons e l ih =>
    obtain ⟨a, b⟩ := e
    cases a with
    | node u =>
      cases b with
      | node v => simp only [requestAll, request, ih]; rfl
      | foreign s => simp only [requestAll, request, ih]; rfl
    | foreign s => cases b <;> (simp only [requestAll, request, ih]; rfl)

end Graph

/-- The nodes in the order in which they came, each with the nodes after it and with those before it. -/
structure Adjacency (n : Nat) where
  following : Table (Node n) (List (Node n))
  preceding : Table (Node n) (List (Node n))

namespace Adjacency

variable {a : Adjacency n} {g : Graph n}

def ofMethod (m : Method) : Adjacency m.size :=
  let rows := Table.ofList ((.entry :: .exit :: m.code.map .stmt).map fun v ↦ (v, []))
  ⟨rows, rows⟩

def successors (a : Adjacency n) (v : Node n) : List (Node n) := (a.following.get? v).getD []

def predecessors (a : Adjacency n) (v : Node n) : List (Node n) := (a.preceding.get? v).getD []

def connect (a : Adjacency n) (u v : Node n) : Adjacency n :=
  if v ∈ a.successors u then a
  else ⟨a.following.insert u (a.successors u ++ [v]), a.preceding.insert v (a.predecessors v ++ [u])⟩

def node? (a : Adjacency n) : Endpoint n → Option (Node n)
  | .node v => if v ∈ a.following.keys then some v else none
  | .foreign _ => none

def request (a : Adjacency n) (e : Endpoint n × Endpoint n) : Adjacency n × Except (OutsideEdge n) Unit :=
  match a.node? e.1, a.node? e.2 with
  | some u, some v => (a.connect u v, .ok ())
  | _, _ => (a, .error ⟨e.1, e.2⟩)

def requestAll (a : Adjacency n) : List (Endpoint n × Endpoint n) → Adjacency n × List (Except (OutsideEdge n) Unit)
  | [] => (a, [])
  | e :: rest =>
    let (b, outcome) := a.request e
    let (last, outcomes) := b.requestAll rest
    (last, outcome :: outcomes)

/-- Both tables have a row for every node, and they are the two readings of one graph. -/
structure Represents (a : Adjacency n) (g : Graph n) : Prop where
  following_keys : a.following.keys = Node.all n
  preceding_keys : a.preceding.keys = Node.all n
  successors : ∀ v, a.successors v = g.successors v
  predecessors : ∀ v, a.predecessors v = g.predecessors v

theorem following_keys_ofMethod (m : Method) : (ofMethod m).following.keys = Node.all m.size := by
  have hfst : (Prod.fst ∘ fun v : Node m.size ↦ (v, ([] : List (Node m.size)))) = id := rfl
  have hentry (k : Fin m.size) : (Node.stmt k == Node.entry) = false := beq_eq_false_iff_ne.2 nofun
  have hexit (k : Fin m.size) : (Node.stmt k == Node.exit) = false := beq_eq_false_iff_ne.2 nofun
  rw [ofMethod, Table.keys_ofList, List.map_map, hfst, List.map_id, m.all_nodes]
  simp [List.eraseDups_cons, List.filter_map, Function.comp_def, hentry, hexit]

theorem represents_ofMethod (m : Method) : (ofMethod m).Represents .empty where
  following_keys := following_keys_ofMethod m
  preceding_keys := following_keys_ofMethod m
  successors := Table.getD_ofList_const _ []
  predecessors := Table.getD_ofList_const _ []

theorem Represents.connect (h : a.Represents g) (u v : Node n) : (a.connect u v).Represents (g.addEdge u v) := by
  have hmem : v ∈ a.successors u ↔ (u, v) ∈ g.edges := by rw [h.successors, g.mem_successors]
  unfold Adjacency.connect
  by_cases hv : v ∈ a.successors u
  · rwa [if_pos hv, Graph.addEdge_of_mem (hmem.1 hv)]
  · have he : (u, v) ∉ g.edges := fun he ↦ hv (hmem.2 he)
    rw [if_neg hv]
    constructor
    · rw [Table.keys_insert, h.following_keys, if_pos u.mem_all]
    · rw [Table.keys_insert, h.preceding_keys, if_pos v.mem_all]
    · intro w
      rw [Graph.successors_addEdge he, Adjacency.successors, Table.get?_insert]
      split
      · next hw => rw [Option.getD_some, h.successors, hw]
      · exact h.successors w
    · intro w
      rw [Graph.predecessors_addEdge he, Adjacency.predecessors, Table.get?_insert]
      split
      · next hw => rw [Option.getD_some, h.predecessors, hw]
      · exact h.predecessors w

theorem Represents.request_node (h : a.Represents g) (u v : Node n) :
    a.request (.node u, .node v) = (a.connect u v, .ok ()) := by
  have hnode (w : Node n) : a.node? (.node w) = some w := by
    rw [node?, h.following_keys, if_pos w.mem_all]
  simp only [request, hnode]

theorem request_of_inside?_eq_none {e : Endpoint n × Endpoint n} (he : inside? e = none) (a : Adjacency n) :
    a.request e = (a, .error ⟨e.1, e.2⟩) := by
  obtain ⟨b, c⟩ := e
  cases b with
  | node u =>
    cases c with
    | node v => cases he
    | foreign s => cases a.node? (.node u) <;> simp [request, node?]
  | foreign s => simp [request, node?]

theorem Represents.request (h : a.Represents g) (e : Endpoint n × Endpoint n) :
    (a.request e).1.Represents (g.requestAll [e]).1 ∧ (a.request e).2 = Graph.outcome e := by
  rw [Graph.requestAll_eq]
  cases he : inside? e with
  | none =>
    rw [request_of_inside?_eq_none he, List.filterMap_cons_none he, Graph.outcome, he]
    exact ⟨h, rfl⟩
  | some edge =>
    obtain ⟨u, v⟩ := edge
    rw [List.filterMap_cons_some he, Graph.outcome, he]
    obtain rfl := inside?_eq_some.1 he
    rw [h.request_node]
    exact ⟨h.connect u v, rfl⟩

theorem Represents.requestAll (h : a.Represents g) (l : List (Endpoint n × Endpoint n)) :
    (a.requestAll l).1.Represents (g.requestAll l).1 ∧ (a.requestAll l).2 = (g.requestAll l).2 := by
  induction l generalizing a g with
  | nil => exact ⟨h, rfl⟩
  | cons e l ih =>
    obtain ⟨hstep, houtcome⟩ := h.request e
    obtain ⟨hlast, houtcomes⟩ := ih hstep
    have hgraph : g.requestAll (e :: l) = (((g.requestAll [e]).1.requestAll l).1,
        Graph.outcome e :: ((g.requestAll [e]).1.requestAll l).2) := by
      simp only [Graph.requestAll_eq, ← List.foldl_append, ← List.filterMap_append]
      rfl
    have htables : a.requestAll (e :: l) = (((a.request e).1.requestAll l).1,
        (a.request e).2 :: ((a.request e).1.requestAll l).2) := rfl
    rw [hgraph, htables, houtcome, houtcomes]
    exact ⟨hlast, rfl⟩

structure Reads (a : Adjacency n) (l : List (Endpoint n × Endpoint n)) : Prop where
  nodes : a.following.keys = Node.all n ∧ a.preceding.keys = Node.all n
  mem_successors : ∀ u v, v ∈ a.successors u ↔ (.node u, .node v) ∈ l
  inverse : ∀ u v, v ∈ a.successors u ↔ u ∈ a.predecessors v
  nodup : ∀ v, (a.successors v).Nodup ∧ (a.predecessors v).Nodup
  successors : ∀ u, a.successors u =
    ((l.filterMap inside?).filterMap fun e ↦ if e.1 = u then some e.2 else none).eraseDups
  predecessors : ∀ v, a.predecessors v =
    ((l.filterMap inside?).filterMap fun e ↦ if e.2 = v then some e.1 else none).eraseDups

theorem Represents.reads {l : List (Endpoint n × Endpoint n)} (h : a.Represents (Graph.empty.requestAll l).1) :
    a.Reads l := by
  have hgraph : (Graph.empty.requestAll l).1 = Graph.ofEdges (l.filterMap inside?) :=
    congrArg Prod.fst (Graph.requestAll_eq .empty l)
  rw [hgraph] at h
  constructor
  · exact ⟨h.following_keys, h.preceding_keys⟩
  · intro u v
    rw [h.successors, Graph.mem_successors, Graph.mem_ofEdges, mem_filterMap_inside?]
  · intro u v
    rw [h.successors, h.predecessors, Graph.mem_successors, Graph.mem_predecessors]
  · intro v
    rw [h.successors, h.predecessors]
    exact ⟨Graph.nodup_successors _ v, Graph.nodup_predecessors _ v⟩
  · intro u
    rw [h.successors, Graph.successors_ofEdges]
  · intro v
    rw [h.predecessors, Graph.predecessors_ofEdges]

def ofRequests (m : Method) (l : List (Endpoint m.size × Endpoint m.size)) : Adjacency m.size :=
  ((ofMethod m).requestAll l).1

/-- After any requests the two tables of a method are inverse to each other and hold just the edges between nodes that
were asked for, each once and in the order of the first request for it, as the graph with one list of edges does. The
next request fails exactly if an end of it is no node, and then nothing has changed; the refusal has a text exactly if
the operators at both ends have symbols. -/
theorem requestAll_reads (m : Method) (l : List (Endpoint m.size × Endpoint m.size)) :
    (ofRequests m l).Reads l ∧
    (∀ v, (ofRequests m l).successors v = (Graph.empty.requestAll l).1.successors v ∧
      (ofRequests m l).predecessors v = (Graph.empty.requestAll l).1.predecessors v) ∧
    ((ofMethod m).requestAll l).2 = (Graph.empty.requestAll l).2 ∧
    ∀ e, ((∃ err, ((ofRequests m l).request e).2 = .error err) ↔ ∃ s, e.1 = .foreign s ∨ e.2 = .foreign s) ∧
      ∀ err, ((ofRequests m l).request e).2 = .error err →
        err = ⟨e.1, e.2⟩ ∧ ((ofRequests m l).request e).1 = ofRequests m l ∧
        ((m.outsideText? err).isSome = true ↔
          ∀ op ∈ m.endOperators e.1 ++ m.endOperators e.2, op.symbol?.isSome = true) := by
  obtain ⟨h, houtcomes⟩ := (represents_ofMethod m).requestAll l
  refine ⟨h.reads, fun v ↦ ⟨h.successors v, h.predecessors v⟩, houtcomes, fun e ↦ ?_⟩
  obtain ⟨-, houtcome⟩ := h.request e
  rw [ofRequests, houtcome, Graph.outcome, ← inside?_eq_none]
  cases he : inside? e with
  | some edge => simp
  | none =>
    rw [request_of_inside?_eq_none he]
    refine ⟨by simp, ?_⟩
    rintro err ⟨⟩
    exact ⟨rfl, rfl, m.isSome_outsideText? ⟨e.1, e.2⟩⟩

end Adjacency

end ConstantFlow
