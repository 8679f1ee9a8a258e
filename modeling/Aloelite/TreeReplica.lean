import Aloelite.TreeCopy
import Aloelite.Bindings

/-! A tree made anew, row by row of a walk. Visibility goes by node id and the walk by edge id, so
of two placements of one name the new tree shows the one made last, not the one that was visible,
and nothing below 256 levels. -/
namespace Aloelite

open Fallible KeyedRows ForestOrder Relation

variable {db db' old : Db} {name : String} {n dir : NodeId} {p : Parent} {made : List CopiedRow}
  {x y : CopiedRow} {top : SubtreeRow} {segs : List String} {d fuel : ℕ}

/-! ### The placement a new tree shows -/

/-- The last placement of a name in a container. -/
def Db.lastPlaced (db : Db) (dir : NodeId) (name : String) : Option EdgeRow :=
  (db.activeEdges.filter (fun e => e.fromId = dir ∧ e.name = name)).argmax EdgeRow.edgeId

/-- Where a relative path leads, by the last placement of each name and at most `fuel` levels
down. -/
def Db.lastWalk (db : Db) : ℕ → NodeId → List String → Option NodeId
  | _, n, [] => some n
  | 0, _, _ :: _ => none
  | fuel + 1, n, seg :: segs => (db.lastPlaced n seg).bind (fun e => db.lastWalk fuel e.toId segs)

theorem lastPlaced_eq_some {e : EdgeRow} (h : db.lastPlaced dir name = some e) :
    e ∈ db.activeEdges ∧ e.fromId = dir ∧
    e.name = name ∧ ∀ e' ∈ db.activeEdges, e'.fromId = dir → e'.name = name →
      e'.edgeId ≤ e.edgeId := by
  rw [Db.lastPlaced] at h
  have hmem := List.argmax_mem h
  rw [List.mem_filter] at hmem
  obtain ⟨hfrom, hname⟩ : e.fromId = dir ∧ e.name = name := by simpa using hmem.2
  refine ⟨hmem.1, hfrom, hname, ?_⟩
  intro e' he' hfrom' hname'
  exact List.le_of_mem_argmax (List.mem_filter.mpr ⟨he', by simp [hfrom', hname']⟩) h

theorem lastPlaced_eq_none (h : db.lastPlaced dir name = none) {e : EdgeRow}
    (he : e ∈ db.activeEdges) (hfrom : e.fromId = dir) : e.name ≠ name := by
  intro hname
  rw [Db.lastPlaced, List.argmax_eq_none, List.filter_eq_nil_iff] at h
  exact h e he (by simp [hfrom, hname])

theorem lastPlaced_of_leaf (hl : db.Linked) (hdir : db.nodeType? dir ≠ some .container) :
    db.lastPlaced dir name = none := by
  cases h : db.lastPlaced dir name with
  | none => rfl
  | some e =>
    obtain ⟨he, hfrom, -, -⟩ := lastPlaced_eq_some h
    exact absurd (hfrom ▸ hl.parent e (Db.mem_activeEdges.mp he).1) hdir

/-- Of two elements of a list in order one stands before the other. -/
theorem pairwise_cases {α : Type*} {R : α → α → Prop} {l : List α} (h : l.Pairwise R) {a b : α}
    (ha : a ∈ l) (hb : b ∈ l) :
    a = b ∨ R a b ∨ R b a := by
  induction h with
  | nil => cases ha
  | @cons x l hx _ ih =>
    rcases List.mem_cons.mp ha with ha | ha
    · rcases List.mem_cons.mp hb with hb | hb
      · exact Or.inl (ha.trans hb.symm)
      · exact Or.inr (Or.inl (ha ▸ hx b hb))
    · rcases List.mem_cons.mp hb with hb | hb
      · exact Or.inr (Or.inr (hb ▸ hx a ha))
      · exact ih ha hb

/-- The nodes of `made` in `db'`: one for each row of the walk from `top` in `db`, younger and
younger, none of them in `old`; each placed under the node made for the parent of its row, the
first under `p`, and nothing else placed since `old`. -/
structure Replica (db old db' : Db) (p : Parent) (top : SubtreeRow) (made : List CopiedRow) :
    Prop where
  linked : db.Linked
  hierarchy : db.Hierarchy
  keyed : KeyedRows.Keyed EdgeRow.edgeId db.edges
  oldLinked : old.Linked
  newLinked : db'.Linked
  rows : made.map CopiedRow.row = db.levelsFrom depthCap [top]
  parentId : top.parentId = none
  edgeId : top.edgeId = none
  ordered : made.Pairwise (fun x y => x.node < y.node)
  fresh : ∀ x ∈ made, old.node? x.node = none
  hung : ∀ x ∈ made, (x.row.parentId = none ∧ x.parent = p.container) ∨
    ∃ q ∈ made, x.row.parentId = some q.row.nodeId ∧ x.parent = q.node
  container : (old.node? p.container).isSome
  placements : db'.placements = old.placements ++ made.map (CopiedRow.placement p)
  types : ∀ x ∈ made, db'.nodeType? x.node = db.nodeType? x.row.nodeId

namespace Replica

variable (h : Replica db old db' p top made)

include h

theorem row_mem (hx : x ∈ made) : x.row ∈ db.levelsFrom depthCap [top] :=
  h.rows ▸ List.mem_map_of_mem hx

theorem made_of_row {r : SubtreeRow} (hr : r ∈ db.levelsFrom depthCap [top]) :
    ∃ x ∈ made, x.row = r :=
  List.mem_map.mp (h.rows ▸ hr)

theorem unique (hx : x ∈ made) (hy : y ∈ made) (hnode : y.row.nodeId = x.row.nodeId)
    (hcont : db.nodeType? x.row.nodeId = some .container) : y = x := by
  have hdistinct := h.hierarchy.distinct_levelsFrom h.linked le_rfl top
  rw [← h.rows, List.pairwise_map] at hdistinct
  rcases pairwise_cases hdistinct hx hy with heq | hne | hne
  · exact heq.symm
  · exact absurd hcont (hne hnode.symm)
  · exact absurd (hnode ▸ hcont) (hne hnode)

theorem unique_node (hx : x ∈ made) (hy : y ∈ made) (hnode : y.node = x.node) : y = x := by
  rcases pairwise_cases h.ordered hx hy with heq | hlt | hlt
  · exact heq.symm
  · exact absurd hnode hlt.ne'
  · exact absurd hnode hlt.ne

/-- A row under another comes from a placement in that one's container. -/
theorem row_edge (hy : y ∈ made) (hparent : y.row.parentId = some dir) :
    ∃ e ∈ db.activeEdges, ∃ i < depthCap, ∃ q ∈ db.levelAt [top] i,
    e.fromId = dir ∧ q.nodeId = dir ∧ y.row = ⟨e.toId, some dir, some e.edgeId, e.name⟩ := by
  obtain ⟨i, hi, hlevel⟩ := Db.mem_levelsFrom_iff.mp (h.row_mem hy)
  cases i with
  | zero =>
    rw [List.mem_singleton.mp hlevel, h.parentId] at hparent
    cases hparent
  | succ i =>
    obtain ⟨q, hq, hchild⟩ := Db.mem_levelAt_succ.mp hlevel
    obtain ⟨e, he, hfrom, hrow⟩ := Db.mem_childRows.mp hchild
    rw [hrow] at hparent ⊢
    obtain rfl := Option.some.inj hparent
    exact ⟨e, he, i, by omega, q, hq, hfrom, rfl, rfl⟩

/-- What is placed under the copy of a container are the copies of what the walk found under it. -/
theorem mem_placements_copy (hx : x ∈ made) (hcont : db.nodeType? x.row.nodeId = some .container) :
    (x.node, n, name) ∈ db'.placements ↔
      ∃ y ∈ made, y.row.parentId = some x.row.nodeId ∧ y.row.name = name ∧ y.node = n := by
  rw [h.placements, List.mem_append]
  constructor
  · rintro (hold | hnew)
    · obtain ⟨e, he, heq⟩ := mem_placements.mp hold
      have hfrom : e.fromId = x.node := (Prod.mk.inj heq).1
      have hexists := Db.node?_isSome_of_type (h.oldLinked.parent e (Db.mem_activeEdges.mp he).1)
      rw [hfrom, h.fresh x hx] at hexists
      cases hexists
    · obtain ⟨y, hy, heq⟩ := List.mem_map.mp hnew
      simp only [CopiedRow.placement, Prod.mk.injEq] at heq
      obtain ⟨hparent, hnode, hname⟩ := heq
      rcases h.hung y hy with ⟨-, hroot⟩ | ⟨q, hq, hunder, hqnode⟩
      · have hexists := h.container
        rw [← hroot, hparent, h.fresh x hx] at hexists
        cases hexists
      · obtain rfl := h.unique_node hx hq (hqnode.symm.trans hparent)
        have hname' : p.nameFor y.row = y.row.name := by rw [Parent.nameFor, hunder]; rfl
        exact ⟨y, hy, hunder, hname'.symm.trans hname, hnode⟩
  · rintro ⟨y, hy, hunder, rfl, rfl⟩
    right
    rcases h.hung y hy with ⟨hnone, -⟩ | ⟨q, hq, hunder', hqnode⟩
    · rw [hunder] at hnone
      cases hnone
    · obtain rfl := h.unique hx hq (Option.some.inj (hunder'.symm.trans hunder)) hcont
      refine List.mem_map.mpr ⟨y, hy, ?_⟩
      rw [CopiedRow.placement, hqnode, Parent.nameFor, hunder]
      rfl

/-- Of two copies of one name the younger is that of the later placement. -/
theorem edge_le_of_node_lt {e e' : EdgeRow} (hx : x ∈ made) (hy : y ∈ made)
    (hlt : x.node < y.node) (hparent : x.row.parentId = some dir)
    (hparent' : y.row.parentId = some dir) (hedge : x.row.edgeId = some e.edgeId)
    (hedge' : y.row.edgeId = some e'.edgeId) : e.edgeId < e'.edgeId := by
  have hsorted := h.hierarchy.sorted_levelsFrom h.linked le_rfl h.parentId
  have hapart := h.hierarchy.apart_levelsFrom h.linked h.keyed le_rfl h.edgeId
  rw [← h.rows, List.pairwise_map] at hsorted hapart
  rcases pairwise_cases (h.ordered.and (hsorted.and hapart)) hx
    hy with heq | ⟨-, hle, hne⟩ | ⟨hgt, -, -⟩
  · rw [heq] at hlt
    exact absurd hlt (lt_irrefl _)
  · have hrows := hle (by rw [hparent]; rfl) (hparent.trans hparent'.symm)
    have hneq : e.edgeId ≠ e'.edgeId := fun heq => hne (by rw [hedge, hedge', heq])
    rw [SubtreeRow.le, hedge, hedge'] at hrows
    rcases hrows with hlt | ⟨heq, -⟩
    · exact hlt
    · exact absurd heq hneq
  · exact absurd hlt hgt.asymm

theorem level_unique {q : SubtreeRow} {i : ℕ} (hq : q ∈ db.levelAt [top] i) (hi : i ≤ depthCap)
    (hd : d ≤ depthCap) (hx : x.row ∈ db.levelAt [top] d) (hnode : q.nodeId = x.row.nodeId)
    (hcont : db.nodeType? x.row.nodeId = some .container) :
    i = d := by
  have hleads := Db.leads_of_levelAt hq
  rw [hnode] at hleads
  exact h.hierarchy.depth_unique h.linked hcont hi hd hleads (Db.leads_of_levelAt hx)

/-- A name in the copy of a container is bound to the copy of its last placement. -/
theorem binding_last {e : EdgeRow} (hx : x ∈ made) (hlevel : x.row ∈ db.levelAt [top] d)
    (hd : d < depthCap) (hlast : db.lastPlaced x.row.nodeId name = some e) :
    ∃ y ∈ made, y.row ∈ db.levelAt [top] (d + 1) ∧ y.row.nodeId = e.toId ∧
      db'.binding x.node name = some y.node := by
  obtain ⟨he, hfrom, hname, hmax⟩ := lastPlaced_eq_some hlast
  have hcont : db.nodeType? x.row.nodeId = some .container :=
    hfrom ▸ h.linked.parent e (Db.mem_activeEdges.mp he).1
  have hchild : (⟨e.toId, some x.row.nodeId, some e.edgeId, e.name⟩ : SubtreeRow) ∈ db.levelAt [top]
      (d + 1) :=
    Db.mem_levelAt_succ.mpr ⟨x.row, hlevel, Db.mem_childRows.mpr ⟨e, he, hfrom, rfl⟩⟩
  obtain ⟨y, hy, hrow⟩ := h.made_of_row (Db.mem_levelsFrom_iff.mpr ⟨d + 1, hd, hchild⟩)
  have hyparent : y.row.parentId = some x.row.nodeId := by rw [hrow]
  have hyname : y.row.name = name := by rw [hrow]; exact hname
  refine ⟨y, hy, hrow ▸ hchild, by rw [hrow], ?_⟩
  rw [binding_eq_some h.newLinked]
  refine ⟨(h.mem_placements_copy hx hcont).mpr ⟨y, hy, hyparent, hyname, rfl⟩, ?_⟩
  intro m hm
  obtain ⟨y', hy', hparent', hname', rfl⟩ := (h.mem_placements_copy hx hcont).mp hm
  obtain ⟨e', he', -, -, -, -, hfrom', -, hrow'⟩ := h.row_edge hy' hparent'
  by_contra hlt
  -- a younger copy stands later in the walk, so its row is of a younger edge
  have hyounger : e.edgeId < e'.edgeId :=
    h.edge_le_of_node_lt hy hy' (not_le.mp hlt) hyparent hparent' (by rw [hrow]) (by rw [hrow'])
  have hnamed : e'.name = name := by
    rw [hrow'] at hname'
    exact hname'
  exact absurd hyounger (not_lt.mpr (hmax e' he' hfrom' hnamed))

theorem binding_none (hx : x ∈ made) (hcont : db.nodeType? x.row.nodeId = some .container)
    (hlast : db.lastPlaced x.row.nodeId name = none) : db'.binding x.node name = none := by
  rw [binding_eq_none h.newLinked]
  intro m hm
  obtain ⟨y, hy, hparent, hname, rfl⟩ := (h.mem_placements_copy hx hcont).mp hm
  obtain ⟨e, he, -, -, -, -, hfrom, -, hrow⟩ := h.row_edge hy hparent
  rw [hrow] at hname
  exact lastPlaced_eq_none hlast he hfrom hname

/-- The copy of a container at the last level is empty. -/
theorem binding_bottom (hx : x ∈ made) (hlevel : x.row ∈ db.levelAt [top] depthCap)
    (hcont : db.nodeType? x.row.nodeId = some .container) : db'.binding x.node name = none := by
  rw [binding_eq_none h.newLinked]
  intro m hm
  obtain ⟨y, hy, hparent, -, rfl⟩ := (h.mem_placements_copy hx hcont).mp hm
  obtain ⟨e, -, i, hi, q, hq, -, hnode, -⟩ := h.row_edge hy hparent
  have := h.level_unique hq hi.le le_rfl hlevel hnode hcont
  omega

/-- Below a new node a path leads to the node made for what the path leads to below the source
when the last placement of each name is taken. -/
theorem descend_new {α : Type*} {f g : NodeId → Option α} {type : NodeType}
    (hfg : ∀ x ∈ made, f x.node = g x.row.nodeId) (hx : x ∈ made)
    (hlevel : x.row ∈ db.levelAt [top] d) (hd : d + fuel = depthCap)
    (htype : db.nodeType? x.row.nodeId = some type) :
    ((descend db' x.node type segs).toOption.bind fun found => f found.node) =
      (db.lastWalk fuel x.row.nodeId segs).bind g := by
  induction segs generalizing d x fuel type with
  | nil =>
    cases fuel with
    | zero => exact hfg x hx
    | succ fuel => exact hfg x hx
  | cons seg segs ih =>
    rw [descend]
    by_cases hcont : type = .container
    · obtain rfl := hcont
      rw [if_pos rfl]
      have hnone : db'.binding x.node seg = none → db'.resolveSegment x.node seg = none :=
        Option.map_eq_none_iff.mp
      cases fuel with
      | zero =>
        obtain rfl : d = depthCap := by omega
        rw [hnone (h.binding_bottom hx hlevel htype)]
        rfl
      | succ fuel =>
        rw [Db.lastWalk]
        cases hlast : db.lastPlaced x.row.nodeId seg with
        | none =>
          rw [hnone (h.binding_none hx htype hlast)]
          rfl
        | some e =>
          obtain ⟨y, hy, hylevel, hto, hbound⟩ := h.binding_last hx hlevel (by omega) hlast
          obtain ⟨hit, hhit, hid⟩ := Option.map_eq_some_iff.mp hbound
          have hytype : db.nodeType? y.row.nodeId = some hit.type := by
            rw [← h.types y hy, ← hid]
            exact nodeType?_of_binding hhit
          rw [hhit]
          simp only [Option.bind_some]
          rw [hid, ← hto]
          exact ih hy hylevel (by omega) hytype
    · rw [if_neg hcont]
      have hleaf : db.nodeType? x.row.nodeId ≠ some .container := by
        rw [htype]
        exact fun heq => hcont (Option.some.inj heq)
      cases fuel with
      | zero => rfl
      | succ fuel =>
        rw [Db.lastWalk, lastPlaced_of_leaf h.linked hleaf]
        rfl

theorem top_mem : ∃ x ∈ made, x.row = top := by
  have hfirst : top ∈ db.levelsFrom depthCap [top] :=
    Db.mem_levelsFrom_iff.mpr ⟨0, Nat.zero_le _, List.mem_singleton_self top⟩
  exact h.made_of_row hfirst

theorem eq_of_root (hx : x ∈ made) (htop : x.row = top) (hy : y ∈ made)
    (hroot : y.row.parentId = none) : y = x := by
  have hrow : y.row = top := by
    obtain ⟨i, -, hlevel⟩ := Db.mem_levelsFrom_iff.mp (h.row_mem hy)
    cases i with
    | zero => exact List.mem_singleton.mp hlevel
    | succ i =>
      obtain ⟨q, -, hchild⟩ := Db.mem_levelAt_succ.mp hlevel
      obtain ⟨e, -, -, hrow⟩ := Db.mem_childRows.mp hchild
      rw [hrow] at hroot
      cases hroot
  have hapart := h.hierarchy.apart_levelsFrom h.linked h.keyed le_rfl h.edgeId
  rw [← h.rows, List.pairwise_map] at hapart
  rcases pairwise_cases hapart hx hy with heq | hne | hne
  · exact heq.symm
  · exact absurd (by rw [htop, hrow]) hne
  · exact absurd (by rw [htop, hrow]) hne

/-- Outside the new nodes a name is bound as before, the given one excepted. -/
theorem binding_outside (hdir : (old.node? dir).isSome)
    (hne : (dir, name) ≠ (p.container, p.name)) :
    db'.binding dir name = old.binding dir name := by
  apply binding_congr h.oldLinked h.newLinked
  intro m
  rw [h.placements, List.mem_append]
  refine ⟨?_, Or.inl⟩
  rintro (hold | hnew)
  · exact hold
  · obtain ⟨y, hy, heq⟩ := List.mem_map.mp hnew
    simp only [CopiedRow.placement, Prod.mk.injEq] at heq
    obtain ⟨hparent, -, hname⟩ := heq
    rcases h.hung y hy with ⟨hnone, hroot⟩ | ⟨q, hq, -, hqnode⟩
    · have hname' : p.nameFor y.row = p.name := by rw [Parent.nameFor, hnone]; rfl
      exact absurd (Prod.ext (hparent.symm.trans hroot) (hname.symm.trans hname')) hne
    · rw [← hparent, hqnode, h.fresh q hq] at hdir
      cases hdir

/-- The given name is bound to the first node, when nothing younger had it. -/
theorem binding_destination (hx : x ∈ made) (htop : x.row = top)
    (hyoung : ∀ m, (p.container, m, p.name) ∈ old.placements → m ≤ x.node) :
    db'.binding p.container p.name = some x.node := by
  rw [binding_eq_some h.newLinked]
  constructor
  · rw [h.placements, List.mem_append]
    right
    refine List.mem_map.mpr ⟨x, hx, ?_⟩
    rcases h.hung x hx with ⟨hnone, hroot⟩ | ⟨q, -, hunder, -⟩
    · rw [CopiedRow.placement, hroot, Parent.nameFor, hnone]
      rfl
    · rw [htop, h.parentId] at hunder
      cases hunder
  · intro m hm
    rw [h.placements, List.mem_append] at hm
    rcases hm with hold | hnew
    · exact hyoung m hold
    · obtain ⟨y, hy, heq⟩ := List.mem_map.mp hnew
      simp only [CopiedRow.placement, Prod.mk.injEq] at heq
      obtain ⟨hparent, hnode, -⟩ := heq
      rcases h.hung y hy with ⟨hnone, -⟩ | ⟨q, hq, -, hqnode⟩
      · rw [← hnode, h.eq_of_root hx htop hy hnone]
      · have hexists := h.container
        rw [← hparent, hqnode, h.fresh q hq] at hexists
        cases hexists

/-- Where the way to the destination is open, it leads to the first node. -/
theorem descend_destination {a : NodeId} {type : NodeType} {path : String}
    (hne : splitPath path ≠ [])
    (hname : p.name = (splitPath path).getLastD "")
    (hway : descend db' a .container (splitPath path).dropLast = .ok ⟨p.container, .container⟩)
    (hyoung : ∀ m, (p.container, m, p.name) ∈ old.placements → m ≤ x.node) (hx : x ∈ made)
    (htop : x.row = top)
    (htype : db.nodeType? top.nodeId = some type) :
    descend db' a .container (splitPath path) = .ok ⟨x.node, type⟩ := by
  have hsplit : splitPath path = (splitPath path).dropLast ++ [p.name] := by
    rw [hname, List.getLastD_eq_getLast?, List.getLast?_eq_some_getLast hne, Option.getD_some,
      List.dropLast_append_getLast]
  obtain ⟨hit, hhit, hid⟩ := Option.map_eq_some_iff.mp (h.binding_destination hx htop hyoung)
  have hhittype : some type = some hit.type := by
    rw [← htype, ← htop, ← h.types x hx, ← hid]
    exact nodeType?_of_binding hhit
  rw [hsplit, descend_append]
  refine ⟨_, hway, ?_⟩
  rw [descend, if_pos rfl, hhit, Option.some.inj hhittype, ← hid]
  rfl

end Replica

end Aloelite
