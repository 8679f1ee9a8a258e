import Aloelite.StoreQueries

/-! One child lookup: `resolve_segment` sorts what is placed under a name, `resolve_path`
joins the node with the greatest id. Both hit the same node. -/
namespace Aloelite

open KeyedRows

namespace Db

variable {db : Db} {c n : NodeId} {name : String} {hit : NodeRow}

theorem nodeId_of_node? (h : db.node? n = some hit) : hit.nodeId = n :=
  key_of_lookup h

theorem mem_placedUnder {r : NodeRow} :
    r ∈ db.placedUnder c name ↔
      ∃ e ∈ db.activeEdges, e.fromId = c ∧ e.name = name ∧ db.node? e.toId = some r := by
  simp only [placedUnder, List.mem_filterMap, List.mem_filter, decide_eq_true_eq]
  constructor
  · rintro ⟨e, ⟨he, hf, hn⟩, hr⟩
    exact ⟨e, he, hf, hn, hr⟩
  · rintro ⟨e, he, hf, hn, hr⟩
    exact ⟨e, ⟨he, hf, hn⟩, hr⟩

/-- A placed row is the row of its id. -/
theorem node?_of_mem_placedUnder {r : NodeRow} (h : r ∈ db.placedUnder c name) :
    db.node? r.nodeId = some r := by
  obtain ⟨e, -, -, -, hr⟩ := mem_placedUnder.mp h
  rw [nodeId_of_node? hr]
  exact hr

/-- The hit of the query is placed there under that name, and no other node so placed
has a greater id. -/
theorem walkHit_eq_some :
    db.walkHit c name = some hit ↔
      hit ∈ db.placedUnder c name ∧ ∀ r ∈ db.placedUnder c name, r.nodeId ≤ hit.nodeId := by
  rw [walkHit, Option.bind_eq_some_iff]
  constructor
  · rintro ⟨m, hmax, hhit⟩
    obtain ⟨hmem, hle⟩ := List.max?_eq_some_iff.mp hmax
    obtain ⟨r, hr, hrm⟩ := List.mem_map.mp hmem
    have hid : hit.nodeId = m := nodeId_of_node? hhit
    have heq : r = hit := by
      have hrow := node?_of_mem_placedUnder hr
      rw [hrm, hhit] at hrow
      exact (Option.some.inj hrow).symm
    refine ⟨heq ▸ hr, ?_⟩
    intro r' hr'
    rw [hid]
    exact hle _ (List.mem_map_of_mem hr')
  · rintro ⟨hmem, hle⟩
    refine ⟨hit.nodeId, List.max?_eq_some_iff.mpr ⟨List.mem_map_of_mem hmem, ?_⟩,
      node?_of_mem_placedUnder hmem⟩
    intro m hm
    obtain ⟨r, hr, rfl⟩ := List.mem_map.mp hm
    exact hle r hr

theorem walkHit_eq_none : db.walkHit c name = none ↔ db.placedUnder c name = [] := by
  constructor
  · intro h
    by_contra hne
    obtain ⟨m, hm⟩ := Option.isSome_iff_exists.mp
      (List.isSome_max?_of_ne_nil (l := (db.placedUnder c name).map NodeRow.nodeId)
        (by simpa using hne))
    obtain ⟨r, hr, hrm⟩ := List.mem_map.mp (List.max?_mem hm)
    rw [walkHit, hm, Option.bind_some, ← hrm, node?_of_mem_placedUnder hr] at h
    exact Option.some_ne_none _ h
  · intro h
    simp [walkHit, h]

/-- The first row by descending id is the hit of the subquery. -/
theorem walkHit_eq_resolveSegment : db.walkHit c name = db.resolveSegment c name := by
  have hsorted : ((db.placedUnder c name).insertionSort (fun r s => s.nodeId ≤ r.nodeId)).Pairwise
      (fun r s => s.nodeId ≤ r.nodeId) := by
    have : Std.Total (fun r s : NodeRow => s.nodeId ≤ r.nodeId) := ⟨fun r s => le_total _ _⟩
    have : IsTrans NodeRow (fun r s => s.nodeId ≤ r.nodeId) :=
      ⟨fun r s t hrs hst => le_trans hst hrs⟩
    exact List.pairwise_insertionSort _ _
  have hmem : ∀ r, r ∈ (db.placedUnder c name).insertionSort (fun r s => s.nodeId ≤ r.nodeId) ↔
      r ∈ db.placedUnder c name := fun r => List.mem_insertionSort _
  rw [resolveSegment]
  cases hrows : (db.placedUnder c name).insertionSort (fun r s => s.nodeId ≤ r.nodeId) with
  | nil =>
    rw [List.head?_nil, walkHit_eq_none, List.eq_nil_iff_forall_not_mem]
    intro r hr
    rw [← hmem, hrows] at hr
    cases hr
  | cons top rows =>
    rw [hrows] at hsorted hmem
    rw [List.head?_cons, walkHit_eq_some]
    refine ⟨(hmem top).mp List.mem_cons_self, ?_⟩
    intro r hr
    rcases List.mem_cons.mp ((hmem r).mpr hr) with rfl | hbelow
    · exact le_rfl
    · exact List.rel_of_pairwise_cons hsorted hbelow

/-- The hit of a child lookup is placed there under that name, and no other node
so placed has a greater id. -/
theorem resolveSegment_eq_some :
    db.resolveSegment c name = some hit ↔
      (∃ e ∈ db.activeEdges, e.fromId = c ∧ e.name = name ∧ db.node? e.toId = some hit) ∧
      ∀ r ∈ db.placedUnder c name, r.nodeId ≤ hit.nodeId := by
  rw [← walkHit_eq_resolveSegment, walkHit_eq_some, mem_placedUnder]

theorem resolveSegment_eq_none :
    db.resolveSegment c name = none ↔ db.placedUnder c name = [] := by
  rw [← walkHit_eq_resolveSegment, walkHit_eq_none]

end Db

end Aloelite
