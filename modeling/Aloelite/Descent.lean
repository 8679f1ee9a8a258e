import Aloelite.Resolve
import Aloelite.Library.ForestOrder

/-! Active placement as a relation between nodes: what lies below what, and how
path resolution and the depth-capped views see it. -/
namespace Aloelite

open Fallible KeyedRows ForestOrder

namespace Db

/-- Some active edge places `b` in `a`. -/
def Child (db : Db) (a b : NodeId) : Prop := ∃ e ∈ db.activeEdges, e.fromId = a ∧ e.toId = b

/-- `b` lies in the active subtree of `a`, at any depth; `a` itself does. -/
def Below (db : Db) (a b : NodeId) : Prop := Relation.ReflTransGen db.Child a b

variable {db : Db} {a b c n : NodeId} {name : String} {hit : NodeRow} {found : Resolved}

theorem mem_parents : c ∈ db.parents n ↔ db.Child c n := by
  simp only [parents, List.mem_map, List.mem_filter, decide_eq_true_eq, Child]
  constructor
  · rintro ⟨e, ⟨he, ht⟩, hf⟩
    exact ⟨e, he, hf, ht⟩
  · rintro ⟨e, he, hf, ht⟩
    exact ⟨e, ⟨he, ht⟩, hf⟩

/-- The ancestors of the view are those at a distance within its bound. -/
theorem mem_ancestorsWithin {fuel : ℕ} :
    a ∈ db.ancestorsWithin fuel n ↔ ∃ k < fuel, Leads db.Child (k + 1) a n := by
  induction fuel generalizing n with
  | zero => simp [ancestorsWithin]
  | succ fuel ih =>
    simp only [ancestorsWithin, List.mem_flatMap, List.mem_cons, mem_parents, ih]
    constructor
    · rintro ⟨p, hpn, rfl | ⟨k, hk, hleads⟩⟩
      · exact ⟨0, by omega, Leads.snoc (Leads.refl a) hpn⟩
      · exact ⟨k + 1, by omega, Leads.snoc hleads hpn⟩
    · rintro ⟨k, hk, hleads⟩
      obtain ⟨p, hap, hpn⟩ := leads_succ.mp hleads
      cases k with
      | zero => exact ⟨p, hpn, Or.inl (leads_zero.mp hap)⟩
      | succ k => exact ⟨p, hpn, Or.inr ⟨k, by omega, hap⟩⟩

/-- `check_cycle` sees a path from the moved node to the new parent of at most
256 edges. -/
theorem checkCycle_iff : db.checkCycle a b = true ↔ ∃ k ≤ depthCap, Leads db.Child k a b := by
  rw [checkCycle, nodeAncestor, decide_eq_true_eq, mem_ancestorsWithin]
  constructor
  · rintro (rfl | ⟨k, hk, h⟩)
    · exact ⟨0, by omega, Leads.refl a⟩
    · exact ⟨k + 1, by omega, h⟩
  · rintro ⟨k, hk, h⟩
    cases k with
    | zero => exact Or.inl (leads_zero.mp h)
    | succ k => exact Or.inr ⟨k, by omega, h⟩

/-! ### The subtree walk -/

theorem mem_childRows {row r : SubtreeRow} :
    r ∈ db.childRows row ↔ ∃ e ∈ db.activeEdges, e.fromId = row.nodeId ∧
      r = ⟨e.toId, some row.nodeId, some e.edgeId, e.name⟩ := by
  simp only [childRows, List.mem_map, List.mem_filter, decide_eq_true_eq]
  constructor
  · rintro ⟨e, ⟨he, hf⟩, rfl⟩
    exact ⟨e, he, hf, rfl⟩
  · rintro ⟨e, he, hf, rfl⟩
    exact ⟨e, ⟨he, hf⟩, rfl⟩

theorem mem_nextLevel {level : List SubtreeRow} {r : SubtreeRow} :
    r ∈ db.nextLevel level ↔ ∃ row ∈ level, r ∈ db.childRows row := by
  simp [nextLevel, List.mem_insertionSort]

theorem mem_levelsFrom {fuel : ℕ} {level : List SubtreeRow} :
    n ∈ (db.levelsFrom fuel level).map SubtreeRow.nodeId ↔
      ∃ row ∈ level, ∃ k ≤ fuel, Leads db.Child k row.nodeId n := by
  induction fuel generalizing level with
  | zero =>
    simp only [levelsFrom, List.mem_map, Nat.le_zero_eq, exists_eq_left, leads_zero]
  | succ fuel ih =>
    rw [levelsFrom, List.map_append, List.mem_append, ih]
    constructor
    · rintro (h | ⟨r, hr, k, hk, hleads⟩)
      · obtain ⟨row, hrow, rfl⟩ := List.mem_map.mp h
        exact ⟨row, hrow, 0, by omega, Leads.refl _⟩
      · obtain ⟨row, hrow, hchild⟩ := mem_nextLevel.mp hr
        obtain ⟨e, he, hf, rfl⟩ := mem_childRows.mp hchild
        exact ⟨row, hrow, k + 1, by omega, Leads.cons ⟨e, he, hf, rfl⟩ hleads⟩
    · rintro ⟨row, hrow, k, hk, hleads⟩
      cases k with
      | zero =>
        obtain rfl := leads_zero.mp hleads
        exact Or.inl (List.mem_map_of_mem hrow)
      | succ k =>
        obtain ⟨b, ⟨e, he, hf, rfl⟩, hrest⟩ := leads_succ_left.mp hleads
        refine Or.inr ⟨⟨e.toId, some row.nodeId, some e.edgeId, e.name⟩, ?_, k, by omega, hrest⟩
        exact mem_nextLevel.mpr ⟨row, hrow, mem_childRows.mpr ⟨e, he, hf, rfl⟩⟩

/-- The view `subtree` holds what lies at most 256 edges below an existing
root. -/
theorem mem_subtreeIds :
    n ∈ db.subtreeIds a ↔ (db.node? a).isSome ∧ ∃ k ≤ depthCap, Leads db.Child k a n := by
  rw [subtreeIds, enumerateSubtree]
  cases hroot : db.node? a with
  | none => simp
  | some r => simp [mem_levelsFrom]

theorem below_of_mem_subtreeIds (h : n ∈ db.subtreeIds a) : db.Below a n := by
  obtain ⟨-, k, -, hk⟩ := mem_subtreeIds.mp h
  exact reflTransGen_iff_leads.mpr ⟨k, hk⟩

/-! ### Child lookup -/

theorem child_of_resolveSegment (h : db.resolveSegment c name = some hit) :
    db.Child c hit.nodeId ∧ db.node? hit.nodeId = some hit := by
  obtain ⟨⟨e, he, hf, -, hto⟩, -⟩ := resolveSegment_eq_some.mp h
  have hid : hit.nodeId = e.toId := nodeId_of_node? hto
  rw [hid]
  exact ⟨⟨e, he, hf, rfl⟩, hto⟩

end Db

/-! ### Resolution stays below its start -/

section

variable {db : Db} {a mountPoint : NodeId} {type : NodeType} {segs : List String} {path : String}
  {found : Resolved} {p : Parent}

theorem descend_below (h : descend db a type segs = .ok found) : db.Below a found.node := by
  induction segs generalizing a type with
  | nil =>
    obtain rfl := Except.ok.inj h
    exact Relation.ReflTransGen.refl
  | cons seg segs ih =>
    simp only [descend] at h
    split at h
    · cases hhit : db.resolveSegment a seg with
      | none => simp [hhit] at h
      | some hit =>
        rw [hhit] at h
        exact Relation.ReflTransGen.head (Db.child_of_resolveSegment hhit).1 (ih h)
    · cases h

/-- Past the start, the node a walk ends at exists with the type reported. -/
theorem descend_node (h : descend db a type segs = .ok found)
    (hstart : db.nodeType? a = some type ∨ segs ≠ []) :
    db.nodeType? found.node = some found.type := by
  induction segs generalizing a type with
  | nil =>
    obtain rfl := Except.ok.inj h
    simpa using hstart
  | cons seg segs ih =>
    simp only [descend] at h
    split at h
    · cases hhit : db.resolveSegment a seg with
      | none => simp [hhit] at h
      | some hit =>
        rw [hhit] at h
        have hnode := (Db.child_of_resolveSegment hhit).2
        exact ih h (Or.inl (by simp [Db.nodeType?, hnode]))
    · cases h

theorem resolve_below (h : resolve db mountPoint path = .ok found) :
    db.Below mountPoint found.node := by
  rcases resolve_descends h with ⟨heq, -⟩ | ⟨names, -, hd⟩
  · rw [heq]
    exact Relation.ReflTransGen.refl
  · exact descend_below hd

theorem resolve_nodeType (h : resolve db mountPoint path = .ok found) :
    db.nodeType? found.node = some found.type := by
  rcases resolve_descends h with ⟨heq, ht⟩ | ⟨names, hne, hd⟩
  · rw [heq]
    exact ht
  · exact descend_node hd (Or.inr hne)

theorem resolveParent_below (h : resolveParent db mountPoint path = .ok p) :
    db.Below mountPoint p.container := by
  obtain ⟨-, -, names, hd⟩ := resolveParent_descends h
  exact descend_below hd

theorem resolveParent_exists (hroot : (db.node? mountPoint).isSome)
    (h : resolveParent db mountPoint path = .ok p) : (db.node? p.container).isSome := by
  obtain ⟨-, -, names, hd⟩ := resolveParent_descends h
  by_cases hnil : names = []
  · rw [hnil] at hd
    have heq : mountPoint = p.container := congrArg Resolved.node (Except.ok.inj hd)
    rwa [← heq]
  · have ht := descend_node hd (Or.inr hnil)
    simp only [Db.nodeType?, Option.map_eq_some_iff] at ht
    obtain ⟨r, hr, -⟩ := ht
    simp [hr]

end

/-- The foreign keys the tree rests on: placements join nodes, parents are
containers (EDGE-4), mounts and volumes are anchored at nodes. -/
structure Db.Linked (db : Db) : Prop where
  parent : ∀ e ∈ db.edges, db.nodeType? e.fromId = some .container
  child : ∀ e ∈ db.edges, (db.node? e.toId).isSome
  anchor : ∀ m ∈ db.mounts, (db.node? m.mountPoint).isSome
  root : ∀ v ∈ db.volumes, ∀ r, v.rootNodeId = some r → db.nodeType? r = some .container

theorem Db.node?_isSome_of_type {db : Db} {n : NodeId} {type : NodeType}
    (h : db.nodeType? n = some type) : (db.node? n).isSome := by
  obtain ⟨r, hr, -⟩ := Option.map_eq_some_iff.mp h
  simp [hr]

end Aloelite
