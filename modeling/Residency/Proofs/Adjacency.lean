/-
Residency/Proofs/Adjacency.lean

Adjacency tables stay in step.  Whatever calls build a flow graph, failing ones among them,
the tables of accesses, of outgoing and of incoming edges have the same names, and an edge
stands in the row of its source as often as in the row of its target, once for every call
that added it (`Adjacency.tables_exact`).

A graph with one list of edges determines its tables (`Adjacency.ofGraph`).  A call that is
made to the tables of a graph answers as it answers the graph, and leaves the tables of the
graph that is then there (`turn_ofGraph`), so the tables after any calls are those of the
graph after them (`after_eq`).  A new node starts with empty rows, and rightly so, because
an edge is never there before its nodes (`Graph.Built.sources`, `Graph.Built.targets`).
-/
import Residency.Flow.Adjacency
import Residency.Proofs.ConstructionOrder

namespace Residency

variable {α : Type} {g : Graph} {t : Journal}

/-! ### Calls to a graph -/

namespace Graph

/-- Inserting a node adds its name, if it is not there already. -/
theorem mem_ids_insert {node : Node} {n : NodeId} :
    n ∈ (g.insert node).ids ↔ n ∈ g.ids ∨ n = node.id := by
  rw [ids_insert]
  split
  · rename_i hold
    rw [has_iff] at hold
    exact ⟨Or.inl, fun h => h.elim (fun hn => hn) fun hn => hn ▸ hold⟩
  · rw [List.mem_append, List.mem_singleton]

/-- No edge is there before its source. -/
theorem Built.sources (hg : g.Built) : ∀ e ∈ g.edges, e.source ∈ g.ids := by
  induction hg with
  | empty =>
    intro e he
    cases he
  | node _ h ih =>
    obtain rfl := eq_insert_of_withNode h
    intro e he
    rw [edges_insert] at he
    exact mem_ids_insert.2 (.inl (ih e he))
  | edge _ h ih =>
    obtain ⟨hsource, -, rfl⟩ := withEdge_eq_ok.1 h
    intro e he
    rcases List.mem_append.1 he with he | he
    · exact ih e he
    · obtain rfl := List.mem_singleton.1 he
      exact has_iff.1 hsource

/-- No edge is there before its target. -/
theorem Built.targets (hg : g.Built) : ∀ e ∈ g.edges, e.target ∈ g.ids :=
  fun e he => has_iff.1 (hg.closed.targets e he)

/-- Adding a node can only fail where its repetition is reported. -/
theorem result_withNode (g : Graph) (id : NodeId) (accesses : List Int) (t : Journal) :
    (g.withNode id accesses t).result =
      (Adjacency.reportNode (g.has id) id t).result.map fun _ => g.insert ⟨id, accesses⟩ := by
  rw [withNode, Adjacency.reportNode]
  split
  · rw [Analysis.result_bind]
    rfl
  · rfl

theorem next_of_ok {c : Call} {g' : Graph} (h : g.respond t c = .ok g') : g.next t c = g' := by
  rw [next, h]

theorem next_of_error {c : Call} {e : Fault} (h : g.respond t c = .error e) :
    g.next t c = g := by
  rw [next, h]

/-- A call to a graph that was built leaves one, whether it succeeds or not. -/
theorem Built.next (hg : g.Built) (t : Journal) (c : Call) : (g.next t c).Built := by
  cases h : g.respond t c with
  | error e =>
    rw [next_of_error h]
    exact hg
  | ok g' =>
    rw [next_of_ok h]
    cases c with
    | node id accesses => exact hg.node h
    | edge source target kind => exact hg.edge h

/-- Whatever the calls, the graph they leave was built. -/
theorem Built.foldl (hg : g.Built) (t : Journal) (calls : List Call) :
    (calls.foldl (Graph.next t) g).Built := by
  induction calls generalizing g with
  | nil => exact hg
  | cons c calls ih => exact ih (hg.next t c)

/-- A node is there after a call that adds it, also if the call fails, since only the addition of
a known node can fail. -/
theorem mem_ids_next {c : Call} {n : NodeId} :
    n ∈ (g.next t c).ids ↔ n ∈ g.ids ∨ ∃ accesses, c = .node n accesses := by
  cases c with
  | node id accesses =>
    have hname : (∃ a, Call.node id accesses = .node n a) ↔ n = id := by
      constructor
      · rintro ⟨a, ha⟩
        cases ha
        rfl
      · rintro rfl
        exact ⟨accesses, rfl⟩
    rw [hname]
    cases h : g.respond t (.node id accesses) with
    | ok g' =>
      rw [next_of_ok h, eq_insert_of_withNode h]
      exact mem_ids_insert
    | error e =>
      rw [next_of_error h]
      have hold : g.has id = true := by
        by_contra hnew
        rw [respond, result_withNode, Adjacency.reportNode, if_neg hnew] at h
        cases h
      exact ⟨Or.inl, fun hn => hn.elim (fun hn => hn) fun hn => hn ▸ has_iff.1 hold⟩
  | edge source target kind =>
    have hids : (g.next t (.edge source target kind)).ids = g.ids := by
      cases h : g.respond t (.edge source target kind) with
      | ok g' =>
        obtain ⟨-, -, rfl⟩ := withEdge_eq_ok.1 h
        rw [next_of_ok h]
        rfl
      | error e => rw [next_of_error h]
    rw [hids]
    refine ⟨Or.inl, fun h => h.elim (fun hn => hn) ?_⟩
    rintro ⟨_, h⟩
    cases h

/-- After some calls the names are the old ones and those that a call added. -/
theorem mem_ids_foldl {calls : List Call} {n : NodeId} :
    n ∈ (calls.foldl (next t) g).ids ↔ n ∈ g.ids ∨ ∃ accesses, .node n accesses ∈ calls := by
  induction calls generalizing g with
  | nil => simp
  | cons c calls ih =>
    rw [List.foldl_cons, ih, mem_ids_next, or_assoc, ← exists_or]
    simp only [List.mem_cons, eq_comm]

/-- A call adds its edge, if it has one and succeeds. -/
theorem edges_next (g : Graph) (t : Journal) (c : Call) :
    (g.next t c).edges =
      g.edges ++ if (g.respond t c).isOk then c.edge?.toList else [] := by
  cases h : g.respond t c with
  | error e =>
    rw [next_of_error h]
    exact (List.append_nil _).symm
  | ok g' =>
    rw [next_of_ok h]
    cases c with
    | node id accesses =>
      rw [eq_insert_of_withNode h, edges_insert]
      exact (List.append_nil _).symm
    | edge source target kind =>
      obtain ⟨-, -, rfl⟩ := withEdge_eq_ok.1 h
      rfl

/-! ### A node that is added again -/

/-- Replacing a node changes what is found under its name and nothing else. -/
theorem find?_replace (nodes : List Node) (node : Node) (n : NodeId) :
    ((nodes.map fun m => if m.id = node.id then node else m).find? fun m => m.id == n) =
      if n = node.id then (nodes.find? fun m => m.id == n).map fun _ => node
      else nodes.find? fun m => m.id == n := by
  induction nodes with
  | nil => simp
  | cons m nodes ih =>
    simp only [List.map_cons, List.find?_cons, ih]
    grind

/-- Inserting a known node changes its accesses and no others. -/
theorem accesses_insert {node : Node} (hold : g.has node.id = true) (n : NodeId) :
    (g.insert node).accesses n =
      if n = node.id then .ok node.accesses else g.accesses n := by
  have hhas : (g.insert node).has n = g.has n := by
    rw [Bool.eq_iff_iff, has_iff, has_iff, ids_insert, if_pos hold]
  have hfind := find?_replace g.nodes node n
  by_cases hn : n = node.id
  · obtain ⟨m, hm⟩ : ∃ m, (g.nodes.find? fun m => m.id == n) = some m := by
      rw [← Option.isSome_iff_exists, List.find?_isSome]
      simpa [has, hn] using hold
    rw [if_pos hn, hm, Option.map_some] at hfind
    rw [if_pos hn]
    refine Solver.accesses_eq_ok.2 ⟨by rw [hhas, hn, hold], ?_⟩
    rw [accessesOf, insert, if_pos hold, hfind]
  · rw [if_neg hn] at hfind
    rw [if_neg hn, accesses, requireNode, hhas, accessesOf, insert, if_pos hold, hfind]
    rfl

/-! ### Edges at a node -/

/-- The far ends of the edges that have a node as their near end. -/
def row (near far : Edge → NodeId) (g : Graph) (id : NodeId) : List (NodeId × EdgeKind) :=
  (g.edges.filter fun e => near e == id).map fun e => (far e, e.kind)

section Rows

variable {near far : Edge → NodeId} {id : NodeId}

/-- The far ends in a row are those of the edges whose near end is the name. -/
theorem ends_row (kind : Option EdgeKind) :
    Adjacency.ends (g.row near far id) kind =
      (g.edges.filter fun e => near e == id && e.isOf kind).map far := by
  rw [Adjacency.ends, row, List.filter_map, List.map_map, List.filter_filter]
  congr 1
  exact List.filter_congr fun e _ => Bool.and_comm _ _

/-- A name that is not in the graph has an empty row. -/
theorem row_eq_nil (hnear : ∀ e ∈ g.edges, near e ∈ g.ids) (hid : id ∉ g.ids) :
    g.row near far id = [] := by
  rw [row, List.map_eq_nil_iff, List.filter_eq_nil_iff]
  intro e he heq
  exact hid (beq_iff_eq.1 heq ▸ hnear e he)

/-- Inserting a node changes no row. -/
theorem row_insert (node : Node) : (g.insert node).row near far id = g.row near far id := by
  rw [row, edges_insert, row]

theorem row_concat (e : Edge) :
    { g with edges := g.edges ++ [e] }.row near far id =
      if id = near e then g.row near far id ++ [(far e, e.kind)] else g.row near far id := by
  rw [row, row, List.filter_append, List.map_append, List.filter_singleton]
  by_cases hid : id = near e
  · rw [if_pos hid, hid, beq_self_eq_true]
    rfl
  · rw [if_neg hid, beq_eq_false_iff_ne.2 (Ne.symm hid)]
    exact List.append_nil _

end Rows

/-- An edge is found at a node as often as it is there, from whichever end one looks. -/
theorem count_ends (near far : Edge → NodeId) (e : Edge)
    (he : ∀ e', near e' = near e → far e' = far e → e'.kind = e.kind → e' = e)
    (edges : List Edge) :
    ((edges.filter fun e' => near e' == near e && e'.isOf (some e.kind)).map far).count (far e) =
      edges.count e := by
  rw [List.count, List.countP_map, List.countP_filter, List.count]
  refine List.countP_congr fun e' _ => ?_
  simp only [Function.comp_apply, Edge.isOf, Option.all_some, Bool.and_eq_true, beq_iff_eq]
  constructor
  · rintro ⟨hfar, hnear, hkind⟩
    exact he e' hnear hfar hkind.symm
  · rintro rfl
    exact ⟨rfl, rfl, rfl⟩

theorem eq_of_ends {e e' : Edge} (hsource : e'.source = e.source) (htarget : e'.target = e.target)
    (hkind : e'.kind = e.kind) : e' = e := by
  cases e
  cases e'
  rw [Edge.mk.injEq]
  exact ⟨hsource, htarget, hkind⟩

/-- Calls that add the same edge can be told by the edge. -/
theorem count_edge? (calls : List Call) (source target : NodeId) (kind : EdgeKind) :
    (calls.filterMap Call.edge?).count ⟨source, target, kind⟩ =
      calls.count (.edge source target kind) := by
  rw [List.count_filterMap, List.count]
  refine List.countP_congr fun c _ => ?_
  cases c with
  | node id accesses => simp [Call.edge?]
  | edge source' target' kind' => simp [Call.edge?]

/-- A target stands in the row of a source once for every call that added the edge. -/
theorem count_targets (calls : List Call) (source target : NodeId) (kind : EdgeKind) :
    (((calls.filterMap Call.edge?).filter fun e =>
      e.source == source && e.isOf (some kind)).map Edge.target).count target =
      calls.count (.edge source target kind) := by
  rw [← count_edge?]
  exact count_ends Edge.source Edge.target ⟨source, target, kind⟩
    (fun _ hsource htarget => eq_of_ends hsource htarget) _

/-- A source stands in the row of a target once for every call that added the edge. -/
theorem count_sources (calls : List Call) (source target : NodeId) (kind : EdgeKind) :
    (((calls.filterMap Call.edge?).filter fun e =>
      e.target == target && e.isOf (some kind)).map Edge.source).count source =
      calls.count (.edge source target kind) := by
  rw [← count_edge?]
  exact count_ends Edge.target Edge.source ⟨source, target, kind⟩
    (fun _ htarget hsource => eq_of_ends hsource htarget) _

end Graph

/-! ### Tables with a value for every name -/

namespace Table

variable {ids : List NodeId} {f : NodeId → α} {id : NodeId}

/-- The table that gives each of some names its value. -/
def tabulate (ids : List NodeId) (f : NodeId → α) : Table α :=
  ids.map fun id => (id, f id)

theorem keys_tabulate (ids : List NodeId) (f : NodeId → α) : (tabulate ids f).keys = ids := by
  rw [keys, tabulate, List.map_map]
  exact List.map_id ids

theorem has_iff {rows : Table α} : rows.has id = true ↔ id ∈ rows.keys := by
  simp [has, keys]

theorem has_tabulate : (tabulate ids f).has id = true ↔ id ∈ ids := by
  rw [has_iff, keys_tabulate]

/-- A tabulated function can be looked up at the names of the table. -/
theorem lookup_tabulate (hid : id ∈ ids) : (tabulate ids f).lookup id = some (f id) := by
  induction ids with
  | nil => cases hid
  | cons n ids ih =>
    rw [tabulate, List.map_cons, List.lookup_cons]
    split
    · rename_i hn
      rw [beq_iff_eq.1 hn]
    · rename_i hn
      refine ih ((List.mem_cons.1 hid).resolve_left fun h => ?_)
      rw [h, beq_self_eq_true] at hn
      cases hn

/-- Entering a name that is there changes nothing. -/
theorem enter_tabulate_of_mem (hid : id ∈ ids) (x : α) :
    (tabulate ids f).enter id x = tabulate ids f := by
  rw [enter, if_pos (has_tabulate.2 hid)]

/-- Entering a new name with its value extends the table at the end. -/
theorem enter_tabulate (hid : id ∉ ids) :
    (tabulate ids f).enter id (f id) = tabulate (ids ++ [id]) f := by
  rw [enter, if_neg (mt has_tabulate.1 hid), tabulate, tabulate, List.map_append]
  rfl

/-- Pushing a value changes the row of one name. -/
theorem push_tabulate {f : NodeId → List α} (x : α) :
    (tabulate ids f).push id x = tabulate ids fun n => if n = id then f n ++ [x] else f n := by
  rw [push, tabulate, tabulate, List.map_map]
  refine List.map_congr_left fun n _ => ?_
  rw [Function.comp_apply]
  split <;> rfl

end Table

/-! ### The tables of a graph -/

namespace Adjacency

open Residency.Graph (Call)

/-- The tables of a graph. -/
def ofGraph (g : Graph) : Adjacency where
  nodes := g.nodes.map fun n => (n.id, n.accesses)
  outgoing := Table.tabulate g.ids (g.row Edge.source Edge.target)
  incoming := Table.tabulate g.ids (g.row Edge.target Edge.source)

theorem keys_nodes_ofGraph (g : Graph) : (ofGraph g).nodes.keys = g.ids := by
  rw [ofGraph, Table.keys, List.map_map]
  rfl

/-- The tables of a graph have the names of the graph. -/
theorem has_ofGraph (g : Graph) (id : NodeId) : (ofGraph g).nodes.has id = g.has id := by
  rw [Bool.eq_iff_iff, Table.has_iff, keys_nodes_ofGraph, Graph.has_iff]

theorem requireNode_ofGraph (g : Graph) (id : NodeId) :
    (ofGraph g).requireNode id = g.requireNode id := by
  rw [requireNode, has_ofGraph, Graph.requireNode]

/-- The table of accesses has the accesses of the nodes. -/
theorem lookup_nodes_ofGraph (g : Graph) (id : NodeId) :
    ((ofGraph g).nodes.lookup id).getD [] = g.accessesOf id := by
  rw [ofGraph, Graph.accessesOf]
  generalize g.nodes = nodes
  induction nodes with
  | nil => rfl
  | cons n nodes ih =>
    rw [List.map_cons, List.lookup_cons, List.find?_cons, BEq.comm]
    split
    · rfl
    · exact ih

/-- Asked for accesses, the tables of a graph answer as the graph does. -/
theorem accesses_ofGraph (g : Graph) (id : NodeId) :
    (ofGraph g).accesses id = g.accesses id := by
  rw [accesses, requireNode_ofGraph, lookup_nodes_ofGraph, Graph.accesses]

/-- Both directions at once: rows by one end of the edges answer for the other end. -/
theorem endsIn_ofGraph (near far : Edge → NodeId) (g : Graph) (id : NodeId)
    (kind : Option EdgeKind) :
    (ofGraph g).endsIn (Table.tabulate g.ids (g.row near far)) id kind = do
      g.requireNode id
      return (g.edges.filter fun e => near e == id && e.isOf kind).map far := by
  rw [endsIn, requireNode_ofGraph, Graph.requireNode]
  split
  · rename_i hid
    rw [Table.lookup_tabulate (Graph.has_iff.1 hid), Option.getD_some, Graph.ends_row]
  · rfl

/-- Asked for successors, the tables of a graph answer as the graph does. -/
theorem successors_ofGraph (g : Graph) (id : NodeId) (kind : Option EdgeKind) :
    (ofGraph g).successors id kind = g.successors id kind :=
  endsIn_ofGraph Edge.source Edge.target g id kind

/-- Asked for predecessors, the tables of a graph answer as the graph does. -/
theorem predecessors_ofGraph (g : Graph) (id : NodeId) (kind : Option EdgeKind) :
    (ofGraph g).predecessors id kind = g.predecessors id kind :=
  endsIn_ofGraph Edge.target Edge.source g id kind

/-! ### One call -/

section Changes

variable {tables : Adjacency}

theorem run_get_bind (f : Adjacency → Change α) :
    (get >>= f).run.run tables = (f tables).run.run tables := rfl

theorem run_modify_bind (h : Adjacency → Adjacency) (f : Unit → Change α) :
    (modify h >>= f).run.run tables = (f ()).run.run (h tables) := rfl

theorem run_modify (h : Adjacency → Adjacency) :
    (modify h : Change PUnit).run.run tables = (.ok (), h tables) := rfl

theorem run_ofExcept_ok_bind {β : Type} (b : β) (f : β → Change α) :
    (ofExcept (.ok b : Except Fault β) >>= f).run.run tables = (f b).run.run tables := rfl

theorem run_ofExcept_error_bind {β : Type} (e : Fault) (f : β → Change α) :
    (ofExcept (.error e : Except Fault β) >>= f).run.run tables = (.error e, tables) := rfl

/-- The tables with a node added or replaced. -/
def register (tables : Adjacency) (id : NodeId) (accesses : List Int) : Adjacency where
  nodes := tables.nodes.put id accesses
  outgoing := tables.outgoing.enter id []
  incoming := tables.incoming.enter id []

/-- The tables with an edge added. -/
def link (tables : Adjacency) (source target : NodeId) (kind : EdgeKind) : Adjacency where
  nodes := tables.nodes
  outgoing := tables.outgoing.push source (target, kind)
  incoming := tables.incoming.push target (source, kind)

/-- Everything that adding an edge can do. -/
theorem turn_edge (tables : Adjacency) (source target : NodeId) (kind : EdgeKind) :
    tables.turn t (.edge source target kind) =
      if tables.nodes.has source then
        if tables.nodes.has target then
          (.ok (), tables.link source target kind)
        else (refuse (.unknownNode target), tables)
      else (refuse (.unknownNode source), tables) := by
  rw [turn, carryOut, addEdge, run_get_bind]
  by_cases hsource : tables.nodes.has source = true
  · rw [requireNode, if_pos hsource, if_pos hsource, run_ofExcept_ok_bind, run_get_bind]
    by_cases htarget : tables.nodes.has target = true
    · rw [requireNode, if_pos htarget, if_pos htarget, run_ofExcept_ok_bind, run_modify_bind,
        run_modify, link]
    · rw [requireNode, if_neg htarget, if_neg htarget, refuse, run_ofExcept_error_bind]
  · rw [requireNode, if_neg hsource, if_neg hsource, refuse, run_ofExcept_error_bind]

/-- Under a threshold the report of a node never fails. -/
theorem reportNode_journal (known : Bool) (id : NodeId) (t : Threshold) :
    (reportNode known id t).result = .ok () := by
  rw [reportNode]
  split
  · exact Analysis.result_note_journal _ _ _ t
  · rfl

/-- Everything that adding a node can do. -/
theorem turn_node (tables : Adjacency) (id : NodeId) (accesses : List Int) :
    tables.turn t (.node id accesses) =
      ((reportNode (tables.nodes.has id) id t).result,
        if (reportNode (tables.nodes.has id) id t).result.isOk then tables.register id accesses
        else tables) := by
  rw [turn, carryOut, addNode, run_get_bind]
  cases (reportNode (tables.nodes.has id) id t).result <;> rfl

/-- A call that fails leaves the tables as they are. -/
theorem turn_of_error {tables : Adjacency} {c : Call} {e : Fault}
    (h : (tables.turn t c).1 = .error e) : (tables.turn t c).2 = tables := by
  cases c with
  | node id accesses =>
    rw [turn_node] at h ⊢
    have hreport : (reportNode (tables.nodes.has id) id t).result = .error e := h
    exact if_neg (by rw [hreport]; exact Bool.false_ne_true)
  | edge source target kind =>
    rw [turn_edge] at h ⊢
    by_cases hsource : tables.nodes.has source = true
    · by_cases htarget : tables.nodes.has target = true
      · rw [if_pos hsource, if_pos htarget] at h
        cases h
      · rw [if_pos hsource, if_neg htarget]
    · rw [if_neg hsource]

end Changes

/-! ### In step with the graph -/

/-- Putting accesses into the table of a graph is inserting the node into the graph. -/
theorem put_ofGraph (g : Graph) (id : NodeId) (accesses : List Int) :
    (ofGraph g).nodes.put id accesses = (ofGraph (g.insert ⟨id, accesses⟩)).nodes := by
  rw [Table.put, has_ofGraph, ofGraph, ofGraph, Graph.insert]
  split
  · rw [List.map_map, List.map_map]
    refine List.map_congr_left fun n _ => ?_
    rw [Function.comp_apply, Function.comp_apply]
    split
    · rename_i hn
      rw [hn]
    · rfl
  · rw [List.map_append]
    rfl

/-- Entering an empty row for a node is right, because a new node has no edges yet. -/
theorem enter_row {near : Edge → NodeId} (hnear : ∀ e ∈ g.edges, near e ∈ g.ids)
    (far : Edge → NodeId) (node : Node) :
    (Table.tabulate g.ids (g.row near far)).enter node.id [] =
      Table.tabulate (g.insert node).ids ((g.insert node).row near far) := by
  have hrow : (g.insert node).row near far = g.row near far :=
    funext fun _ => Graph.row_insert node
  rw [hrow, Graph.ids_insert]
  split
  · rename_i hold
    exact Table.enter_tabulate_of_mem (Graph.has_iff.1 hold) []
  · rename_i hnew
    rw [Graph.has_iff] at hnew
    rw [← Graph.row_eq_nil hnear hnew]
    exact Table.enter_tabulate hnew

/-- Registering a node in the tables of a graph is inserting it into the graph. -/
theorem register_ofGraph (hg : g.Built) (id : NodeId) (accesses : List Int) :
    (ofGraph g).register id accesses = ofGraph (g.insert ⟨id, accesses⟩) := by
  have hout := enter_row hg.sources Edge.target ⟨id, accesses⟩
  have hin := enter_row hg.targets Edge.source ⟨id, accesses⟩
  rw [register, put_ofGraph]
  exact congrArg₂ (mk _) hout hin

/-- Pushing an edge into the row of its near end is adding it to the graph. -/
theorem push_row (near far : Edge → NodeId) (g : Graph) (e : Edge) :
    (Table.tabulate g.ids (g.row near far)).push (near e) (far e, e.kind) =
      Table.tabulate g.ids ({ g with edges := g.edges ++ [e] }.row near far) := by
  rw [Table.push_tabulate]
  congr 1
  funext id
  exact (Graph.row_concat e).symm

/-- Linking two nodes in the tables of a graph is adding the edge to the graph. -/
theorem link_ofGraph (g : Graph) (source target : NodeId) (kind : EdgeKind) :
    (ofGraph g).link source target kind =
      ofGraph { g with edges := g.edges ++ [⟨source, target, kind⟩] } := by
  have hout := push_row Edge.source Edge.target g ⟨source, target, kind⟩
  have hin := push_row Edge.target Edge.source g ⟨source, target, kind⟩
  exact congrArg₂ (mk _) hout hin

/-- A call to the tables of a graph answers as it answers the graph, and leaves the tables of
the graph that is there after it. -/
theorem turn_ofGraph (hg : g.Built) (t : Journal) (c : Call) :
    (ofGraph g).turn t c = ((g.respond t c).map fun _ => (), ofGraph (g.next t c)) := by
  cases c with
  | node id accesses =>
    rw [turn_node, has_ofGraph, register_ofGraph hg, Graph.next, Graph.respond,
      Graph.result_withNode]
    cases (reportNode (g.has id) id t).result <;> rfl
  | edge source target kind =>
    rw [turn_edge, has_ofGraph, has_ofGraph, link_ofGraph, Graph.next, Graph.respond,
      Graph.withEdge_eq]
    split
    · split <;> rfl
    · rfl

/-! ### All calls -/

/-- Call after call, the tables are those of the graph. -/
theorem foldl_turn (hg : g.Built) (t : Journal) (calls : List Call) :
    calls.foldl (fun tables c => (tables.turn t c).2) (ofGraph g) =
      ofGraph (calls.foldl (Graph.next t) g) := by
  induction calls generalizing g with
  | nil => rfl
  | cons c calls ih =>
    rw [List.foldl_cons, List.foldl_cons, turn_ofGraph hg]
    exact ih (hg.next t c)

/-- The tables after some calls are those of the graph after them. -/
theorem after_eq (t : Journal) (calls : List Call) :
    after t calls = ofGraph (Graph.after t calls) :=
  foldl_turn .empty t calls

/-- The edges of a graph are those of the calls that succeeded, in the order of the calls. -/
theorem edges_foldl (hg : g.Built) (t : Journal) (calls : List Call) :
    (calls.foldl (Graph.next t) g).edges =
      g.edges ++ (succeeding t (ofGraph g) calls).filterMap Call.edge? := by
  induction calls generalizing g with
  | nil => exact (List.append_nil _).symm
  | cons c calls ih =>
    have hanswer : ((g.respond t c).map fun _ => ()).isOk = (g.respond t c).isOk := by
      cases g.respond t c <;> rfl
    rw [List.foldl_cons, ih (hg.next t c), Graph.edges_next, succeeding, turn_ofGraph hg, hanswer,
      List.append_assoc]
    split
    · rw [List.filterMap_cons]
      cases c.edge? <;> rfl
    · rfl

/-- The edges are those of the calls that succeeded, in their order. -/
theorem edges_after (t : Journal) (calls : List Call) :
    (Graph.after t calls).edges = (succeeding t empty calls).filterMap Call.edge? :=
  edges_foldl .empty t calls

theorem successors_after {calls : List Call} {id : NodeId}
    (hid : id ∈ (Graph.after t calls).ids) (kind : Option EdgeKind) :
    (after t calls).successors id kind =
      .ok ((((succeeding t empty calls).filterMap Call.edge?).filter fun e =>
        e.source == id && e.isOf kind).map Edge.target) := by
  rw [after_eq, successors_ofGraph, Graph.successors, Graph.requireNode,
    if_pos (Graph.has_iff.2 hid), ← edges_after]
  rfl

theorem predecessors_after {calls : List Call} {id : NodeId}
    (hid : id ∈ (Graph.after t calls).ids) (kind : Option EdgeKind) :
    (after t calls).predecessors id kind =
      .ok ((((succeeding t empty calls).filterMap Call.edge?).filter fun e =>
        e.target == id && e.isOf kind).map Edge.source) := by
  rw [after_eq, predecessors_ofGraph, Graph.predecessors, Graph.requireNode,
    if_pos (Graph.has_iff.2 hid), ← edges_after]
  rfl

/-! ### One more call -/

/-- A known node that is added again has new accesses, at its old place and with its old
edges. -/
theorem register_of_has {id : NodeId} (hold : g.has id = true) (hg : g.Built)
    (accesses : List Int) :
    ((ofGraph g).register id accesses).nodes.keys = g.ids ∧
      ((ofGraph g).register id accesses).outgoing = (ofGraph g).outgoing ∧
      ((ofGraph g).register id accesses).incoming = (ofGraph g).incoming ∧
      ∀ n, ((ofGraph g).register id accesses).accesses n =
        if n = id then .ok accesses else (ofGraph g).accesses n := by
  have hid := Graph.has_iff.1 hold
  refine ⟨?_, Table.enter_tabulate_of_mem hid [], Table.enter_tabulate_of_mem hid [], fun n => ?_⟩
  · rw [register_ofGraph hg, keys_nodes_ofGraph, Graph.ids_insert, if_pos hold]
  · rw [register_ofGraph hg, accesses_ofGraph, accesses_ofGraph, Graph.accesses_insert hold]

/-- An edge is refused for its source before it is refused for its target. -/
theorem answer_edge (g : Graph) (source target : NodeId) (kind : EdgeKind) :
    ((ofGraph g).turn t (.edge source target kind)).1 =
      if source ∈ g.ids then
        if target ∈ g.ids then .ok () else refuse (.unknownNode target)
      else refuse (.unknownNode source) := by
  rw [turn_edge, has_ofGraph, has_ofGraph,
    if_congr Graph.has_iff (if_congr Graph.has_iff rfl rfl) rfl]
  split
  · split <;> rfl
  · rfl

/-- Where the tables refuse a call, the graph is left as it is too. -/
theorem next_of_turn_error (hg : g.Built) {c : Call} {e : Fault}
    (h : ((ofGraph g).turn t c).1 = .error e) : g.next t c = g := by
  rw [turn_ofGraph hg] at h
  cases hrespond : g.respond t c with
  | error e' => exact Graph.next_of_error hrespond
  | ok g' =>
    rw [hrespond] at h
    cases h

/-- **Adjacency.**  After any calls, failing ones among them, the three tables have the same
names, and what they answer the graph answers too.  The edges at a node are those of the calls
that succeeded, in their order, so that an edge is counted alike from both of its ends.  Adding
a known node again changes its accesses only, and a call that fails changes nothing. -/
theorem tables_exact (t : Threshold) (calls : List Call) :
    let tables := after t calls
    let g := Graph.after t calls
    let succeeded := succeeding t empty calls
    -- The three tables have the same names, those of the nodes that were added.
    (tables.nodes.keys = g.ids ∧ tables.outgoing.keys = g.ids ∧ tables.incoming.keys = g.ids ∧
      g.ids.Nodup ∧ ∀ id, id ∈ g.ids ↔ ∃ accesses, .node id accesses ∈ calls) ∧
    -- The graph answers what the tables answer.
    ((∀ id, g.accesses id = tables.accesses id ∧ ∀ kind,
      g.successors id kind = tables.successors id kind ∧
      g.predecessors id kind = tables.predecessors id kind) ∧
      ∀ c, ((g.respond t c).map fun _ => ()) = (tables.turn t c).1) ∧
    -- The ends of the edges at a node, in the order of the calls.
    (∀ id ∈ g.ids, ∀ kind,
      tables.successors id kind = .ok (((succeeded.filterMap Call.edge?).filter fun e =>
        e.source == id && e.isOf kind).map Edge.target) ∧
      tables.predecessors id kind = .ok (((succeeded.filterMap Call.edge?).filter fun e =>
        e.target == id && e.isOf kind).map Edge.source)) ∧
    -- Both ends of an edge count the calls that added it.
    (∀ source ∈ g.ids, ∀ target ∈ g.ids, ∀ kind, ∃ targets sources,
      tables.successors source (some kind) = .ok targets ∧
      tables.predecessors target (some kind) = .ok sources ∧
      targets.count target = succeeded.count (.edge source target kind) ∧
      sources.count source = succeeded.count (.edge source target kind)) ∧
    -- A node that is added again has new accesses, its old place and its old edges.
    (∀ id ∈ g.ids, ∀ accesses, ∃ tables',
      tables.turn t (.node id accesses) = (.ok (), tables') ∧
      tables'.nodes.keys = tables.nodes.keys ∧ tables'.outgoing = tables.outgoing ∧
      tables'.incoming = tables.incoming ∧
      ∀ n, tables'.accesses n = if n = id then .ok accesses else tables.accesses n) ∧
    -- An edge is added if and only if both nodes are known.
    (∀ source target kind, (tables.turn t (.edge source target kind)).1 =
      if source ∈ g.ids then
        if target ∈ g.ids then .ok () else refuse (.unknownNode target)
      else refuse (.unknownNode source)) ∧
    -- A call that fails changes nothing.
    (∀ c e, (tables.turn t c).1 = .error e → (tables.turn t c).2 = tables ∧ g.next t c = g) := by
  intro tables g succeeded
  have hg : g.Built := Graph.Built.empty.foldl t calls
  have htables : tables = ofGraph g := after_eq t calls
  refine ⟨?_, ⟨fun id => ?_, fun c => ?_⟩, fun id hid kind => ?_, ?_, ?_, ?_, fun c e hfails => ?_⟩
  · rw [htables]
    exact ⟨keys_nodes_ofGraph g, Table.keys_tabulate _ _, Table.keys_tabulate _ _,
      hg.closed.nodup, fun id => Graph.mem_ids_foldl.trans (or_iff_right List.not_mem_nil)⟩
  · rw [htables]
    exact ⟨(accesses_ofGraph g id).symm, fun kind =>
      ⟨(successors_ofGraph g id kind).symm, (predecessors_ofGraph g id kind).symm⟩⟩
  · rw [htables, turn_ofGraph hg]
  · exact ⟨successors_after hid kind, predecessors_after hid kind⟩
  · intro source hsource target htarget kind
    exact ⟨_, _, successors_after hsource _, predecessors_after htarget _,
      Graph.count_targets succeeded source target kind,
      Graph.count_sources succeeded source target kind⟩
  · intro id hid accesses
    refine ⟨tables.register id accesses, ?_, ?_⟩
    · rw [turn_node, reportNode_journal]
      rfl
    · rw [htables, keys_nodes_ofGraph]
      exact register_of_has (Graph.has_iff.2 hid) hg accesses
  · rw [htables]
    exact answer_edge g
  · exact ⟨turn_of_error hfails, next_of_turn_error hg (htables ▸ hfails)⟩

-- Parallel edges, an edge that comes too early and a node that is added again.
theorem tables_exact_parallel :
    let calls : List Call := [.node (.number 0) [1], .edge (.number 0) (.number 1) .forward,
      .node (.number 1) [], .edge (.number 0) (.number 1) .forward,
      .edge (.number 0) (.number 1) .back, .node (.number 0) [2, 3],
      .edge (.number 0) (.number 1) .forward]
    (after none calls).accesses (.number 0) = .ok [2, 3] ∧
      (succeeding none empty calls).length = 6 ∧ ∃ targets sources,
      (after none calls).successors (.number 0) (some .forward) = .ok targets ∧
      (after none calls).predecessors (.number 1) (some .forward) = .ok sources ∧
      targets.count (.number 1) = 2 ∧ sources.count (.number 0) = 2 := by
  intro calls
  have hnode : ∀ n ∈ [NodeId.number 0, .number 1], n ∈ (Graph.after none calls).ids := by decide
  exact ⟨rfl, rfl, (tables_exact none calls).2.2.2.1 (.number 0) (hnode _ (by decide))
    (.number 1) (hnode _ (by decide)) .forward⟩

end Adjacency

end Residency
