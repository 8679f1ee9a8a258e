import Aloelite.HealthCheck
import Aloelite.Containment

/-! The walk of `enumerate_subtree`, level by level. Where a container has one placement and
no cycle is short, the walk comes to a container once, and lists each placement it reaches
exactly once, the row of a parent before the rows of its children. -/
namespace Aloelite

open Fallible KeyedRows ForestOrder Relation

variable {C : Crypto} {M : Msgpack} {db : Db} {level : List SubtreeRow} {top r q : SubtreeRow}
  {d fuel : ℕ}

namespace Db

/-- The rows `d` levels further down. -/
def levelAt (db : Db) (level : List SubtreeRow) : ℕ → List SubtreeRow
  | 0 => level
  | d + 1 => db.nextLevel (db.levelAt level d)

theorem levelAt_nextLevel (d : ℕ) :
    db.levelAt (db.nextLevel level) d = db.levelAt level (d + 1) := by
  induction d with
  | zero => rfl
  | succ d ih =>
    show db.nextLevel (db.levelAt (db.nextLevel level) d) = _
    rw [ih]
    rfl

theorem mem_levelsFrom_iff : r ∈ db.levelsFrom fuel level ↔ ∃ d ≤ fuel, r ∈ db.levelAt level d := by
  induction fuel generalizing level with
  | zero =>
    simp only [levelsFrom, Nat.le_zero_eq, exists_eq_left]
    exact Iff.rfl
  | succ fuel ih =>
    rw [levelsFrom, List.mem_append, ih]
    constructor
    · rintro (h | ⟨d, hd, h⟩)
      · exact ⟨0, by omega, h⟩
      · rw [levelAt_nextLevel] at h
        exact ⟨d + 1, by omega, h⟩
    · rintro ⟨d, hd, h⟩
      cases d with
      | zero => exact Or.inl h
      | succ d =>
        rw [← levelAt_nextLevel] at h
        exact Or.inr ⟨d, by omega, h⟩

/-- What holds between the rows of one level and from a level to deeper ones holds all along
the walk. -/
theorem pairwise_levelsFrom {R : SubtreeRow → SubtreeRow → Prop}
    (hlevel : ∀ d ≤ fuel, (db.levelAt level d).Pairwise R)
    (hacross : ∀ d d', d < d' → d' ≤ fuel → ∀ r ∈ db.levelAt level d,
      ∀ q ∈ db.levelAt level d', R r q) :
    (db.levelsFrom fuel level).Pairwise R := by
  induction fuel generalizing level with
  | zero => exact hlevel 0 le_rfl
  | succ fuel ih =>
    rw [levelsFrom, List.pairwise_append]
    refine ⟨hlevel 0 (by omega), ih ?_ ?_, ?_⟩
    · intro d hd
      rw [levelAt_nextLevel]
      exact hlevel (d + 1) (by omega)
    · intro d d' hlt hd r hr q hq
      rw [levelAt_nextLevel] at hr hq
      exact hacross (d + 1) (d' + 1) (by omega) (by omega) r hr q hq
    · intro r hr q hq
      obtain ⟨d, hd, hq⟩ := mem_levelsFrom_iff.mp hq
      rw [levelAt_nextLevel] at hq
      exact hacross 0 (d + 1) (by omega) (by omega) r hr q hq

theorem mem_levelAt_succ : r ∈ db.levelAt level (d + 1) ↔ ∃ q ∈ db.levelAt level d,
    r ∈ db.childRows q := by
  rw [levelAt, mem_nextLevel]

/-- A row of the walk lies as far below the root as its level says. -/
theorem leads_of_levelAt (h : r ∈ db.levelAt [top] d) :
    ForestOrder.Leads db.Child d top.nodeId r.nodeId := by
  induction d generalizing r with
  | zero =>
    rw [List.mem_singleton.mp h]
    exact ForestOrder.Leads.refl _
  | succ d ih =>
    obtain ⟨q, hq, hr⟩ := mem_levelAt_succ.mp h
    obtain ⟨e, he, hf, rfl⟩ := mem_childRows.mp hr
    exact (ih hq).snoc ⟨e, he, hf, rfl⟩

theorem levelAt_of_leads {a n : NodeId} (h : ForestOrder.Leads db.Child d a n)
    (ha : top.nodeId = a) :
    ∃ r ∈ db.levelAt [top] d, r.nodeId = n := by
  induction h with
  | refl a => exact ⟨top, List.mem_singleton_self top, ha⟩
  | snoc _ hchild ih =>
    obtain ⟨q, hq, hnode⟩ := ih ha
    obtain ⟨e, he, hf, rfl⟩ := hchild
    exact ⟨⟨e.toId, some q.nodeId, some e.edgeId, e.name⟩,
      mem_levelAt_succ.mpr ⟨q, hq, mem_childRows.mpr ⟨e, he, hf.trans hnode.symm, rfl⟩⟩, rfl⟩

end Db

/-! ### Every container once -/

/-- Two rows do not show one container. -/
def SubtreeRow.Distinct (db : Db) (r q : SubtreeRow) : Prop :=
  r.nodeId = q.nodeId → db.nodeType? r.nodeId ≠ some .container

theorem SubtreeRow.Distinct.symm (h : r.Distinct db q) : q.Distinct db r := by
  intro heq
  rw [heq]
  exact h heq.symm

theorem Db.Hierarchy.pairwise_placed (hh : db.Hierarchy) :
    db.activeEdges.Pairwise (fun e e' => e.toId = e'.toId →
      db.nodeType? e.toId ≠ some .container) := by
  rw [List.pairwise_iff_forall_sublist]
  intro e e' hsub hto ht
  have hlen := hh.single e.toId ht
  have htwo : [e, e'].Sublist (db.activeEdges.filter (fun x => x.toId = e.toId)) := by
    have hfilter := hsub.filter (fun x : EdgeRow => decide (x.toId = e.toId))
    rwa [List.filter_cons_of_pos (by simp),
      List.filter_cons_of_pos (by simp [hto]), List.filter_nil] at hfilter
  have := htwo.length_le
  rw [List.length_cons, List.length_singleton] at this
  omega

theorem Db.Hierarchy.distinct_childRows (hh : db.Hierarchy) (q : SubtreeRow) :
    (db.childRows q).Pairwise (SubtreeRow.Distinct db) := by
  rw [Db.childRows, List.pairwise_map]
  refine (hh.pairwise_placed.sublist List.filter_sublist).imp ?_
  intro e e' hne hto
  exact hne hto

/-- Rows under different containers show different containers. -/
theorem Db.Hierarchy.distinct_under (hh : db.Hierarchy) (hl : db.Linked) {q q' r r' : SubtreeRow}
    (hq : q.Distinct db q') (hr : r ∈ db.childRows q) (hr' : r' ∈ db.childRows q') :
    r.Distinct db r' := by
  obtain ⟨e, he, hf, rfl⟩ := Db.mem_childRows.mp hr
  obtain ⟨e', he', hf', rfl⟩ := Db.mem_childRows.mp hr'
  intro hto ht
  obtain rfl := hh.placed_once he he' hto ht
  refine hq (hf.symm.trans hf') ?_
  rw [← hf]
  exact hl.parent e (Db.mem_activeEdges.mp he).1

theorem Db.Hierarchy.distinct_levelAt (hh : db.Hierarchy) (hl : db.Linked) (top : SubtreeRow)
    (d : ℕ) :
    (db.levelAt [top] d).Pairwise (SubtreeRow.Distinct db) := by
  induction d with
  | zero => exact List.pairwise_singleton _ _
  | succ d ih =>
    rw [Db.levelAt, Db.nextLevel,
      (List.perm_insertionSort _ _).pairwise_iff SubtreeRow.Distinct.symm, List.pairwise_flatMap]
    refine ⟨fun q _ => hh.distinct_childRows q, ih.imp ?_⟩
    intro q q' hq r hr r' hr'
    exact hh.distinct_under hl hq hr hr'

/-- The walk comes to a container once. -/
theorem Db.Hierarchy.distinct_levelsFrom (hh : db.Hierarchy) (hl : db.Linked)
    (hfuel : fuel ≤ depthCap) (top : SubtreeRow) :
    (db.levelsFrom fuel [top]).Pairwise (SubtreeRow.Distinct db) := by
  apply Db.pairwise_levelsFrom
  · intro d _
    exact hh.distinct_levelAt hl top d
  · intro d d' hlt hd r hr q hq heq ht
    have hleads := Db.leads_of_levelAt hr
    rw [heq] at hleads ht
    have := hh.depth_unique hl ht (by omega) (by omega) hleads (Db.leads_of_levelAt hq)
    omega

/-! ### Canonical order -/

instance : IsTrans SubtreeRow SubtreeRow.le where
  trans r q t hrq hqt := by
    have h : ∀ a b c x y z : ℕ, (a < b ∨ (a = b ∧ x ≤ y)) → (b < c ∨ (b = c ∧ y ≤ z)) →
        (a < c ∨ (a = c ∧ x ≤ z)) := by
      omega
    exact h _ _ _ _ _ _ hrq hqt

instance : Std.Total SubtreeRow.le where
  total r q := by
    have h : ∀ a b x y : ℕ, (a < b ∨ (a = b ∧ x ≤ y)) ∨ (b < a ∨ (b = a ∧ y ≤ x)) := by
      omega
    exact h _ _ _ _

theorem Db.sorted_levelAt (d : ℕ) : (db.levelAt level (d + 1)).Pairwise SubtreeRow.le := by
  rw [Db.levelAt, Db.nextLevel]
  exact List.pairwise_insertionSort _ _

/-- Along the walk the rows under one container stand in the order of their edges. -/
theorem Db.Hierarchy.sorted_levelsFrom (hh : db.Hierarchy) (hl : db.Linked)
    (hfuel : fuel ≤ depthCap) (htop : top.parentId = none) :
    (db.levelsFrom fuel [top]).Pairwise (fun r q => r.parentId.isSome →
      r.parentId = q.parentId → r.le q) := by
  have hunder : ∀ d r, r ∈ db.levelAt [top] d → ∀ c, r.parentId = some c →
      ∃ d', d = d' + 1 ∧ ForestOrder.Leads db.Child d' top.nodeId c ∧ db.nodeType? c =
      some .container := by
    intro d r hr c hc
    cases d with
    | zero =>
      rw [List.mem_singleton.mp hr, htop] at hc
      cases hc
    | succ d =>
      obtain ⟨q, hq, hchild⟩ := Db.mem_levelAt_succ.mp hr
      obtain ⟨e, he, hf, rfl⟩ := Db.mem_childRows.mp hchild
      obtain rfl := Option.some.inj hc
      exact ⟨d, rfl, Db.leads_of_levelAt hq, hf ▸ hl.parent e (Db.mem_activeEdges.mp he).1⟩
  apply Db.pairwise_levelsFrom
  · intro d _
    cases d with
    | zero => exact List.pairwise_singleton _ _
    | succ d =>
      refine (Db.sorted_levelAt d).imp ?_
      intro r q h _ _
      exact h
  · intro d d' hlt hd r hr q hq hsome heq
    obtain ⟨c, hc⟩ := Option.isSome_iff_exists.mp hsome
    obtain ⟨i, rfl, hi, ht⟩ := hunder d r hr c hc
    obtain ⟨j, rfl, hj, -⟩ := hunder d' q hq c (heq ▸ hc)
    have := hh.depth_unique hl ht (by omega) (by omega) hi hj
    omega

/-! ### Every placement once -/

/-- Two rows do not show one placement. -/
def SubtreeRow.Apart (r q : SubtreeRow) : Prop := r.edgeId ≠ q.edgeId

theorem SubtreeRow.Apart.symm (h : r.Apart q) : q.Apart r := Ne.symm h

theorem childRows_edge (hk : KeyedRows.Keyed EdgeRow.edgeId db.edges) {p q : SubtreeRow}
    (hr : r ∈ db.childRows p) (hq : q ∈ db.childRows top) (heq : r.edgeId = q.edgeId) :
    p.nodeId = top.nodeId := by
  obtain ⟨e, he, hf, rfl⟩ := Db.mem_childRows.mp hr
  obtain ⟨e', he', hf', rfl⟩ := Db.mem_childRows.mp hq
  obtain rfl := eq_of_key_eq hk (Db.mem_activeEdges.mp he).1 (Db.mem_activeEdges.mp he').1
    (Option.some.inj heq)
  exact hf.symm.trans hf'

theorem container_of_childRows (hl : db.Linked) (hr : r ∈ db.childRows q) :
    db.nodeType? q.nodeId = some .container := by
  obtain ⟨e, he, hf, -⟩ := Db.mem_childRows.mp hr
  exact hf ▸ hl.parent e (Db.mem_activeEdges.mp he).1

theorem apart_childRows (hk : KeyedRows.Keyed EdgeRow.edgeId db.edges) (q : SubtreeRow) :
    (db.childRows q).Pairwise SubtreeRow.Apart := by
  rw [Db.childRows, List.pairwise_map]
  have hactive : db.activeEdges.Sublist db.edges := List.filter_sublist
  have hids : db.edges.Pairwise (fun e e' => e.edgeId ≠ e'.edgeId) := List.pairwise_map.mp hk
  refine (hids.sublist (List.filter_sublist.trans hactive)).imp ?_
  intro e e' hne heq
  exact hne (Option.some.inj heq)

theorem Db.Hierarchy.apart_levelAt (hh : db.Hierarchy) (hl : db.Linked)
    (hk : KeyedRows.Keyed EdgeRow.edgeId db.edges) (top : SubtreeRow) (d : ℕ) :
    (db.levelAt [top] d).Pairwise SubtreeRow.Apart := by
  cases d with
  | zero => exact List.pairwise_singleton _ _
  | succ d =>
    rw [Db.levelAt, Db.nextLevel, (List.perm_insertionSort _ _).pairwise_iff SubtreeRow.Apart.symm,
      List.pairwise_flatMap]
    refine ⟨fun q _ => apart_childRows hk q, (hh.distinct_levelAt hl top d).imp ?_⟩
    intro p q hpq r hr t ht heq
    exact hpq (childRows_edge hk hr ht heq) (container_of_childRows hl hr)

theorem Db.Hierarchy.apart_levelsFrom (hh : db.Hierarchy) (hl : db.Linked)
    (hk : KeyedRows.Keyed EdgeRow.edgeId db.edges) (hfuel : fuel ≤ depthCap)
    (htop : top.edgeId = none) :
    (db.levelsFrom fuel [top]).Pairwise SubtreeRow.Apart := by
  apply Db.pairwise_levelsFrom
  · intro d _
    exact hh.apart_levelAt hl hk top d
  · intro d d' hlt hd r hr q hq heq
    obtain ⟨j, rfl⟩ : ∃ j, d' = j + 1 := ⟨d' - 1, by omega⟩
    obtain ⟨q', hq', hchild'⟩ := Db.mem_levelAt_succ.mp hq
    cases d with
    | zero =>
      obtain ⟨e, -, -, rfl⟩ := Db.mem_childRows.mp hchild'
      rw [List.mem_singleton.mp hr, htop] at heq
      cases heq
    | succ i =>
      obtain ⟨r', hr', hchild⟩ := Db.mem_levelAt_succ.mp hr
      -- one placement at two depths would put its container at two depths
      have hnode := childRows_edge hk hchild hchild' heq
      have hleads := Db.leads_of_levelAt hr'
      rw [hnode] at hleads
      have := hh.depth_unique hl (container_of_childRows hl hchild') (by omega) (by omega) hleads
          (Db.leads_of_levelAt hq')
      omega

/-- A row stands behind a row of its parent. -/
theorem Db.parent_before (h : r ∈ db.levelsFrom fuel level) : r ∈ level ∨
    ∃ before after, db.levelsFrom fuel level = before ++ r :: after ∧ ∃ q ∈ before, r.parentId =
      some q.nodeId := by
  induction fuel generalizing level with
  | zero => exact Or.inl h
  | succ fuel ih =>
    rw [levelsFrom] at h ⊢
    rcases List.mem_append.mp h with h | h
    · exact Or.inl h
    rcases ih h with hnext | ⟨before, after, heq, q, hq, hparent⟩
    · obtain ⟨q, hq, hchild⟩ := mem_nextLevel.mp hnext
      obtain ⟨e, -, -, rfl⟩ := mem_childRows.mp hchild
      obtain ⟨before, after, heq⟩ := List.append_of_mem h
      refine Or.inr ⟨level ++ before, after, ?_, q, List.mem_append_left _ hq, rfl⟩
      rw [heq, List.append_assoc]
    · refine Or.inr ⟨level ++ before, after, ?_, q, List.mem_append_right _ hq, hparent⟩
      rw [heq, List.append_assoc]

theorem Db.edge_mem_levelsFrom {root : NodeId} {e : EdgeRow}
    (hk : KeyedRows.Keyed EdgeRow.edgeId db.edges) (he : e ∈ db.activeEdges)
    (hnode : top.nodeId = root) (hedge : top.edgeId = none) :
    some e.edgeId ∈ (db.levelsFrom fuel [top]).map SubtreeRow.edgeId ↔
      ∃ d < fuel, ForestOrder.Leads db.Child d root e.fromId := by
  rw [List.mem_map]
  constructor
  · rintro ⟨r, hr, heq⟩
    obtain ⟨d, hd, hr⟩ := mem_levelsFrom_iff.mp hr
    cases d with
    | zero =>
      rw [List.mem_singleton.mp hr, hedge] at heq
      cases heq
    | succ d =>
      obtain ⟨q, hq, hchild⟩ := mem_levelAt_succ.mp hr
      obtain ⟨e', he', hf, rfl⟩ := mem_childRows.mp hchild
      obtain rfl := eq_of_key_eq hk (mem_activeEdges.mp he').1 (mem_activeEdges.mp he).1
        (Option.some.inj heq)
      refine ⟨d, by omega, ?_⟩
      rw [hf, ← hnode]
      exact leads_of_levelAt hq
  · rintro ⟨d, hd, hleads⟩
    obtain ⟨q, hq, hfrom⟩ := levelAt_of_leads hleads hnode
    refine ⟨⟨e.toId, some q.nodeId, some e.edgeId, e.name⟩,
      mem_levelsFrom_iff.mpr ⟨d + 1, by omega, ?_⟩, rfl⟩
    exact mem_levelAt_succ.mpr ⟨q, hq, mem_childRows.mpr ⟨e, he, hfrom.symm, rfl⟩⟩

/-- A row with an edge shows an active placement: its node, its container and its name. -/
theorem Db.placement_of_row {i : EdgeId} (h : r ∈ db.levelsFrom fuel [top])
    (htop : top.edgeId = none) (hedge : r.edgeId = some i) :
    ∃ e ∈ db.activeEdges, e.edgeId = i ∧ r.nodeId = e.toId ∧ r.parentId = some e.fromId ∧
      r.name = e.name := by
  obtain ⟨d, -, hr⟩ := mem_levelsFrom_iff.mp h
  cases d with
  | zero =>
    rw [List.mem_singleton.mp hr, htop] at hedge
    cases hedge
  | succ d =>
    obtain ⟨q, -, hchild⟩ := mem_levelAt_succ.mp hr
    obtain ⟨e, he, hf, rfl⟩ := mem_childRows.mp hchild
    exact ⟨e, he, Option.some.inj hedge, rfl, congrArg some hf.symm, rfl⟩

/-- In every reachable file, cyclic or not, `enumerate_subtree` lists the placements within
256 levels of a node, each exactly once, as it is and behind a row of its parent. -/
theorem enumerateSubtree_once {s : Sys} {guard : Sys → Label → Prop} (h : Reaches C M guard s)
    {root : NodeId} (hroot : (s.db.node? root).isSome) :
    ((s.db.enumerateSubtree root).map SubtreeRow.edgeId).Nodup ∧
      (∀ e ∈ s.db.activeEdges, some e.edgeId ∈ (s.db.enumerateSubtree root).map SubtreeRow.edgeId ↔
        ∃ d < depthCap, ForestOrder.Leads s.db.Child d root e.fromId) ∧
      (∀ r ∈ s.db.enumerateSubtree root, ∀ i, r.edgeId = some i → ∃ e ∈ s.db.activeEdges,
        e.edgeId = i ∧ r.nodeId = e.toId ∧ r.parentId = some e.fromId ∧ r.name = e.name) ∧
      ∀ r ∈ s.db.enumerateSubtree root, (r.nodeId = root ∧ r.edgeId = none) ∨
        ∃ before after, s.db.enumerateSubtree root = before ++ r :: after ∧ ∃ q ∈ before,
          r.parentId = some q.nodeId := by
  obtain ⟨row, hrow⟩ := Option.isSome_iff_exists.mp hroot
  obtain ⟨hsound, hhier⟩ := h.hierarchy
  have hwalk : s.db.enumerateSubtree root =
      s.db.levelsFrom depthCap [⟨root, none, none, row.name⟩] := by
    rw [Db.enumerateSubtree, hrow]
  rw [hwalk]
  refine ⟨?_, ?_, fun r hr i hi => Db.placement_of_row hr rfl hi, ?_⟩
  · exact List.pairwise_map.mpr (hhier.apart_levelsFrom hsound.linked h.edges_keyed le_rfl rfl)
  · intro e he
    exact Db.edge_mem_levelsFrom h.edges_keyed he rfl rfl
  · intro r hr
    rcases Db.parent_before hr with htop | hbefore
    · rw [List.mem_singleton.mp htop]
      exact Or.inl ⟨rfl, rfl⟩
    · exact Or.inr hbefore

/-- A walk around a cycle of 258 containers comes to each placement once. -/
theorem enumerateSubtree_of_knot :
    ∃ s, Reaches Crypto.xorStream Msgpack.refusing (fun _ _ => True) s ∧
    ¬ Acyclic s.db.Child ∧ ((s.db.enumerateSubtree 2).map SubtreeRow.edgeId).Nodup := by
  obtain ⟨s, hs, hcyclic, htop⟩ := reaches_knot
  exact ⟨s, hs, hcyclic, (enumerateSubtree_once hs htop).1⟩

end Aloelite
