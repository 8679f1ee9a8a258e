import Aloelite.Integrity

/-! The container graph as a forest: one active placement a container, none on a
volume's root, no cycle. The cycle check of `move` sees 256 levels, so the
acyclicity of a run rests on what its moves are aimed at. -/
namespace Aloelite

open Fallible KeyedRows ForestOrder Relation

variable {C : Crypto} {M : Msgpack} {E : Env} {L : License} {now : Int} {db db' : Db}

structure Db.Forest (db : Db) : Prop where
  single : ∀ n, db.nodeType? n = some .container →
    (db.activeEdges.filter (fun e => e.toId = n)).length ≤ 1
  rootFree : ∀ v ∈ db.volumes, ∀ r, v.rootNodeId = some r → ∀ e ∈ db.activeEdges, e.toId ≠ r
  acyclic : Acyclic db.Child

/-- The placement a license lets an existing node have makes no cycle: a
container it is given to is no descendant of it, and it is no root. -/
def Adoptable (L : License) (db : Db) : Prop :=
  ∀ f t, L.adopt = some (f, t) → (db.node? f).isSome ∧
    (db.nodeType? t = some .container → ¬ db.Below t f ∧ ∀ v ∈ db.volumes, v.rootNodeId ≠ some t)

/-- Nothing hangs under a leaf or under a node that does not exist. -/
theorem not_child_of_type (hl : db.Linked) {a : NodeId}
    (ha : db.nodeType? a ≠ some .container) (b : NodeId) : ¬ db.Child a b := by
  rintro ⟨e, he, rfl, -⟩
  exact ha (hl.parent e (Db.mem_activeEdges.mp he).1)

theorem below_of_leaf (hl : db.Linked) {a b : NodeId} (ha : db.nodeType? a ≠ some .container)
    (h : db.Below a b) : b = a :=
  reach_of_isolated (not_child_of_type hl ha) h

/-- A new row leaves the other nodes as they were. -/
theorem nodeType?_append {row : NodeRow} {n : NodeId} (hnodes : db'.nodes = db.nodes ++ [row])
    (hn : n ≠ row.nodeId) : db'.nodeType? n = db.nodeType? n := by
  rw [Db.nodeType?, Db.node?, hnodes, lookup_append_of_ne (Ne.symm hn)]
  rfl

/-- The graph with one more placement. -/
theorem child_append {e : EdgeRow} (hedges : db'.activeEdges = db.activeEdges ++ [e])
    (x y : NodeId) (h : db'.Child x y) : db.Child x y ∨ (x = e.fromId ∧ y = e.toId) := by
  obtain ⟨e', he', hf, ht⟩ := h
  rw [hedges] at he'
  rcases List.mem_append.mp he' with hold | hnew
  · exact Or.inl ⟨e', hold, hf, ht⟩
  · rw [List.mem_singleton.mp hnew] at hf ht
    exact Or.inr ⟨hf.symm, ht.symm⟩

/-- Hanging a node under another keeps the forest when the child does not lie
above its parent, is placed nowhere else if it is a container, and is no
root. -/
theorem Db.Forest.insert {e : EdgeRow} (hf : db.Forest)
    (htypes : ∀ n, n ≠ e.toId → db'.nodeType? n = some .container →
      db.nodeType? n = some .container)
    (hvolumes : db'.volumes = db.volumes) (hedges : db'.activeEdges = db.activeEdges ++ [e])
    (hbelow : ¬ db.Below e.toId e.fromId)
    (hsingle : db'.nodeType? e.toId = some .container → ∀ e' ∈ db.activeEdges, e'.toId ≠ e.toId)
    (hroot : ∀ v ∈ db.volumes, v.rootNodeId ≠ some e.toId) : db'.Forest := by
  refine ⟨?_, ?_, ?_⟩
  · intro n hn
    rw [hedges, List.filter_append, List.length_append]
    by_cases heq : n = e.toId
    · rw [heq] at hn ⊢
      have hnil : db.activeEdges.filter (fun e' => e'.toId = e.toId) = [] := by
        rw [List.filter_eq_nil_iff]
        intro e' he' hto
        exact hsingle hn e' he' (by simpa using hto)
      simp [hnil]
    · have hnew : [e].filter (fun e' => e'.toId = n) = [] := by
        simp [Ne.symm heq]
      rw [hnew, List.length_nil, Nat.add_zero]
      exact hf.single n (htypes n heq hn)
  · intro v hv r hr e' he'
    rw [hvolumes] at hv
    rw [hedges] at he'
    rcases List.mem_append.mp he' with hold | hnew
    · exact hf.rootFree v hv r hr e' hold
    · rw [List.mem_singleton.mp hnew]
      intro heq
      exact hroot v hv (heq ▸ hr)
  · exact hf.acyclic.insert (child_append hedges) hbelow

/-- Dropping or renaming placements keeps the forest. -/
theorem Db.Forest.shrink (hf : db.Forest) (htypes : ∀ n, db'.nodeType? n = db.nodeType? n)
    (hvolumes : ∀ v ∈ db'.volumes, ∃ v₀ ∈ db.volumes, v₀.rootNodeId = v.rootNodeId)
    (hcount : ∀ n, (db'.activeEdges.filter (fun e => e.toId = n)).length ≤
      (db.activeEdges.filter (fun e => e.toId = n)).length)
    (hchild : ∀ e ∈ db'.activeEdges, ∃ e₀ ∈ db.activeEdges,
      e₀.fromId = e.fromId ∧ e₀.toId = e.toId) :
    db'.Forest := by
  refine ⟨?_, ?_, ?_⟩
  · intro n hn
    exact (hcount n).trans (hf.single n (htypes n ▸ hn))
  · intro v hv r hr e he
    obtain ⟨v₀, hv₀, heq⟩ := hvolumes v hv
    obtain ⟨e₀, he₀, -, hto⟩ := hchild e he
    rw [← hto]
    exact hf.rootFree v₀ hv₀ r (heq.trans hr) e₀ he₀
  · refine hf.acyclic.mono ?_
    rintro x y ⟨e, he, rfl, rfl⟩
    obtain ⟨e₀, he₀, hfrom, hto⟩ := hchild e he
    exact ⟨e₀, he₀, hfrom, hto⟩

/-- What a granted statement other than `create_edge` leaves of the active
placements: no node gains one, and each one left was there. -/
theorem License.activeEdges_of_grants {st : Stmt} (hst : L.grants db st)
    (h : st.exec now db = .ok db') (hne : ∀ id f t v n, st ≠ .createEdge id f t v n) :
    (∀ n, (db'.activeEdges.filter (fun e => e.toId = n)).length ≤
      (db.activeEdges.filter (fun e => e.toId = n)).length) ∧
    ∀ e ∈ db'.activeEdges, ∃ e₀ ∈ db.activeEdges, e₀.fromId = e.fromId ∧ e₀.toId = e.toId := by
  have harchive : ∀ p, db' = db.archiveWhere now p →
      (∀ n, (db'.activeEdges.filter (fun e => e.toId = n)).length ≤
        (db.activeEdges.filter (fun e => e.toId = n)).length) ∧
      ∀ e ∈ db'.activeEdges, ∃ e₀ ∈ db.activeEdges, e₀.fromId = e.fromId ∧ e₀.toId = e.toId := by
    rintro p rfl
    rw [Db.activeEdges_archiveWhere]
    constructor
    · intro n
      exact (List.filter_sublist.filter _).length_le
    · intro e he
      exact ⟨e, (List.mem_filter.mp he).1, rfl, rfl⟩
  by_cases ht : Table.edges ∈ st.touches
  · cases st with
    | createEdge id f t v n => exact absurd rfl (hne id f t v n)
    | archivePlacement parent n name => exact harchive _ (Except.ok.inj h).symm
    | archiveEdge id => exact harchive _ (Except.ok.inj h).symm
    | archiveSubtree root => exact harchive _ (Except.ok.inj h).symm
    | renamePlacement parent m old name =>
      obtain rfl := Except.ok.inj h
      rw [Db.activeEdges_renamePlacement]
      have hto : ∀ e : EdgeRow,
          (if Db.isPlacement parent m old e then { e with name := name } else e).toId
          = e.toId := by
        intro e
        split <;> rfl
      constructor
      · intro n
        rw [List.filter_map, List.length_map]
        apply le_of_eq
        congr 2
        funext e
        simp [hto]
      · intro e he
        obtain ⟨e₀, he₀, rfl⟩ := List.mem_map.mp he
        refine ⟨e₀, he₀, ?_⟩
        split <;> exact ⟨rfl, rfl⟩
    | _ => simp [Stmt.touches] at ht
  · have heq : db'.activeEdges = db.activeEdges := by
      rw [Db.activeEdges, Db.activeEdges, (Stmt.exec_agreeOff h).edges ht]
    rw [heq]
    exact ⟨fun n => le_rfl, fun e he => ⟨e, he, rfl, rfl⟩⟩

/-- One stride keeps the forest, and keeps the placement still to be made
harmless. -/
theorem Stride.forest (h : Stride L now db db') (hs : db.Sound) (hf : db.Forest)
    (ha : Adoptable L db) : db'.Forest ∧ Adoptable L db' := by
  have hext := h.identities
  cases h with
  | stmt st hst hexec =>
    have hid := (Stmt.exec_agreeOff hexec).identities (L.not_identities db st hst)
    have htypes : ∀ n, db'.nodeType? n = db.nodeType? n := by
      intro n
      rw [Db.nodeType?_eq, Db.nodeType?_eq, hid]
    by_cases hedge : ∃ id f t v n, st = .createEdge id f t v n
    -- the one statement that adds an edge: the license says which it may add
    · obtain ⟨id, f, t, v, n, rfl⟩ := hedge
      obtain ⟨hadopt, -⟩ := hst
      obtain ⟨src, dst, hsrc, hdst, -, hcont, hsingle, -, -, heq⟩ := Db.createEdge_ok hexec
      have hedges : db'.activeEdges =
          db.activeEdges ++ [⟨id, f, t, v, false, n.getD dst.name⟩] := by
        rw [heq]
        exact Db.activeEdges_append _ _ rfl
      have hft : ¬ db.Below t f := by
        by_cases htype : db.nodeType? t = some .container
        · exact ((ha f t hadopt).2 htype).1
        · intro hbelow
          have hft : f = t := below_of_leaf hs.linked htype hbelow
          rw [← hft, Db.nodeType?, hsrc, Option.map_some, hcont] at htype
          exact htype rfl
      have hfree : ∀ v ∈ db.volumes, v.rootNodeId ≠ some t := by
        intro v hv hroot
        have htype := hs.linked.root v hv t hroot
        exact ((ha f t hadopt).2 htype).2 v hv hroot
      refine ⟨?_, ?_⟩
      · refine hf.insert (fun n _ hn => htypes n ▸ hn) (by rw [heq]) hedges hft ?_ hfree
        intro htype
        rw [htypes, Db.nodeType?, hdst, Option.map_some] at htype
        exact hsingle (Option.some.inj htype)
      · intro f' t' hadopt'
        obtain ⟨rfl, rfl⟩ := Prod.mk.inj (Option.some.inj (hadopt.symm.trans hadopt'))
        refine ⟨node?_isSome_persists hext (ha f t hadopt).1, ?_⟩
        intro _
        refine ⟨?_, by rw [heq]; exact hfree⟩
        intro hbelow
        rcases reach_insert (child_append hedges) hbelow with h | ⟨h, -⟩ <;> exact hft h
    -- every other statement keeps the edges there are or archives some
    · have hne : ∀ id f t v n, st ≠ .createEdge id f t v n :=
        fun id f t v n heq => hedge ⟨id, f, t, v, n, heq⟩
      obtain ⟨hcount, hchild⟩ := License.activeEdges_of_grants hst hexec hne
      have hroots := (License.anchors_of_grants hst hexec hs.linked).2
      refine ⟨hf.shrink htypes hroots hcount hchild, ?_⟩
      intro f t hadopt
      refine ⟨node?_isSome_persists hext (ha f t hadopt).1, ?_⟩
      intro htype
      obtain ⟨hbelow, hfree⟩ := (ha f t hadopt).2 (htypes t ▸ htype)
      constructor
      · intro h
        refine hbelow (ReflTransGen.mono ?_ t f h)
        rintro x y ⟨e, he, rfl, rfl⟩
        obtain ⟨e₀, he₀, hfrom, hto⟩ := hchild e he
        exact ⟨e₀, he₀, hfrom, hto⟩
      · intro v hv
        obtain ⟨v₀, hv₀, heq⟩ := hroots v hv
        rw [← heq]
        exact hfree v₀ hv₀
  -- a node that is born with its edge has nothing below it
  | birth row modifiedAt id f hhost hfex hrow hfill hedge =>
    obtain ⟨hnone, hnodes, -, hvolumes, -, -, -, hedges⟩ := birth_shape hrow hfill hedge
    have hactive : db'.activeEdges =
        db.activeEdges ++ [⟨id, f, row.nodeId, row.volumeId, false, row.name⟩] := by
      simp [Db.activeEdges, hedges]
    have hfresh : ∀ n, (db.node? n).isSome → n ≠ row.nodeId := by
      rintro n hn rfl
      rw [hnone] at hn
      exact absurd hn (by simp)
    have hnotype : db.nodeType? row.nodeId ≠ some .container := by
      simp [Db.nodeType?, hnone]
    have hbelow : ∀ n, (db.node? n).isSome → ¬ db.Below row.nodeId n :=
      fun n hn h => hfresh n hn (below_of_leaf hs.linked hnotype h)
    refine ⟨?_, ?_⟩
    · refine hf.insert ?_ hvolumes hactive (hbelow f hfex) ?_ ?_
      · intro n hn htype
        rwa [nodeType?_append hnodes hn] at htype
      · intro _ e he heq
        exact hfresh e.toId (hs.linked.child e (Db.mem_activeEdges.mp he).1) heq
      · intro v hv hroot
        exact hnotype (hs.linked.root v hv _ hroot)
    · intro f' t' hadopt
      obtain ⟨hfex', hbelow'⟩ := ha f' t' hadopt
      refine ⟨node?_isSome_persists hext hfex', ?_⟩
      intro htype
      by_cases hnew : t' = row.nodeId
      · rw [hnew]
        constructor
        · intro h
          rcases reach_insert (child_append hactive) h with h | ⟨-, h⟩
          · exact hbelow f' hfex' h
          · exact hbelow f' hfex' h
        · rw [hvolumes]
          intro v hv hroot
          exact hnotype (hs.linked.root v hv _ hroot)
      · rw [nodeType?_append hnodes hnew] at htype
        obtain ⟨hnot, hfree⟩ := hbelow' htype
        constructor
        · intro h
          rcases reach_insert (child_append hactive) h with h | ⟨-, h⟩
          · exact hnot h
          · exact hbelow f' hfex' h
        · rw [hvolumes]
          exact hfree

theorem Strides.forest (h : Strides L now db db') (hs : db.Sound) (hf : db.Forest)
    (ha : Adoptable L db) : db'.Forest := by
  have hall : db'.Sound ∧ db'.Forest ∧ Adoptable L db' := by
    induction h with
    | refl => exact ⟨hs, hf, ha⟩
    | tail _ hstride ih => exact ⟨hstride.sound ih.1, hstride.forest ih.1 ih.2.1 ih.2.2⟩
  exact hall.2.1

/-! ### Every step -/

variable {s : Sys} {c : ConnId} {op : Op} {l : Label}

/-- The destination of a move of a container is at most 256 levels below it: the
distance the cycle check covers. -/
def Op.Shallow (E : Env) (s : Sys) : Op → Prop
  | .request m (.move src dst) =>
    ∀ found p, resolve s.db (s.db.anchorOf E.now m) src = .ok found →
      resolveParent s.db (s.db.anchorOf E.now m) dst = .ok p → found.type = .container →
      ∀ n, Leads s.db.Child n found.node p.container → n ≤ depthCap
  | _ => True

def ShallowMoves (s : Sys) (l : Label) : Prop := l.op.Shallow l.env s

/-- With the destination that near, the check is the whole truth. -/
theorem checkCycle_of_below {a b : NodeId} (hnear : ∀ n, Leads db.Child n a b → n ≤ depthCap)
    (h : db.Below a b) : db.checkCycle a b = true := by
  obtain ⟨n, hn⟩ := reflTransGen_iff_leads.mp h
  exact Db.checkCycle_iff.mpr ⟨n, hnear n hn, hn⟩

theorem adoptable_of_none (h : L.adopt = none) (db : Db) : Adoptable L db := by
  intro f t hadopt
  rw [h] at hadopt
  cases hadopt

section

variable {k : Cipher} {tx tx' : Tx} {mount : MountId} {src dst : String} {m : MountCtx}

theorem link_adoptable (hs : tx.db.Sound) (hm : requireMount E k tx.db mount true = .ok m)
    (h : link E k tx mount src dst = .ok tx') :
    Adoptable ((License.standard tx.db m.mountPoint).adopting
      (adoption tx.db m.mountPoint src dst)) tx.db := by
  simp only [link, bind_eq_ok] at h
  obtain ⟨m', hm', found, hfound, u, htype, u', -, p, hp, -⟩ := h
  obtain rfl := Except.ok.inj (hm.symm.trans hm')
  intro f t hadopt
  simp only [License.adopting, adoption, hfound, hp, Option.some.injEq, Prod.mk.injEq] at hadopt
  obtain ⟨rfl, rfl⟩ := hadopt
  refine ⟨resolveParent_exists (anchor_exists hs.linked.anchor hm) hp, ?_⟩
  intro hcont
  rw [resolve_nodeType hfound] at hcont
  simp only [refuse_eq_ok, decide_eq_false_iff_not] at htype
  exact absurd (Option.some.inj hcont) htype

/-- What a successful move has checked: the destination is not below the moved
container as far as the check can see. -/
theorem move_checked (h : move E k tx mount src dst = .ok tx') :
    ∃ m found p, requireMount E k tx.db mount true = .ok m ∧
      resolve tx.db m.mountPoint src = .ok found ∧ resolveParent tx.db m.mountPoint dst = .ok p ∧
      (found.type = .container → tx.db.checkCycle found.node p.container = false) ∧
      ∃ e ∈ tx.db.activeEdges, e.toId = found.node := by
  simp only [move, bind_eq_ok] at h
  obtain ⟨m, hm, found, hfound, u, -, sp, -, p, hp, u₁, -, u₂, hcycle, u₃, hcount, -⟩ := h
  refine ⟨m, found, p, hm, hfound, hp, ?_, ?_⟩
  · intro htype
    simp only [refuse_eq_ok, decide_eq_false_iff_not] at hcycle
    by_contra hne
    exact hcycle ⟨htype, by simpa using hne⟩
  · simp only [refuse_eq_ok, decide_eq_false_iff_not, Db.placementCount, List.length_eq_zero_iff]
      at hcount
    obtain ⟨e, he⟩ := List.exists_mem_of_ne_nil _ hcount
    obtain ⟨hmem, hplaced⟩ := List.mem_filter.mp he
    simp only [Db.isPlacement, decide_eq_true_eq] at hplaced
    exact ⟨e, hmem, hplaced.2.1⟩

theorem move_adoptable (hs : tx.db.Sound) (hf : tx.db.Forest)
    (hm : requireMount E k tx.db mount true = .ok m)
    (hshallow : ∀ found p, resolve tx.db m.mountPoint src = .ok found →
      resolveParent tx.db m.mountPoint dst = .ok p → found.type = .container →
      ∀ n, Leads tx.db.Child n found.node p.container → n ≤ depthCap)
    (h : move E k tx mount src dst = .ok tx') :
    Adoptable ((License.standard tx.db m.mountPoint).adopting
      (adoption tx.db m.mountPoint src dst)) tx.db := by
  obtain ⟨m', found, p, hm', hfound, hp, hcheck, e, he, hto⟩ := move_checked h
  obtain rfl := Except.ok.inj (hm.symm.trans hm')
  intro f t hadopt
  simp only [License.adopting, adoption, hfound, hp, Option.some.injEq, Prod.mk.injEq] at hadopt
  obtain ⟨rfl, rfl⟩ := hadopt
  refine ⟨resolveParent_exists (anchor_exists hs.linked.anchor hm) hp, ?_⟩
  intro hcont
  rw [resolve_nodeType hfound] at hcont
  have htype := Option.some.inj hcont
  constructor
  · intro hbelow
    have hseen := checkCycle_of_below (hshallow found p hfound hp htype) hbelow
    rw [hcheck htype] at hseen
    cases hseen
  · intro v hv hroot
    exact hf.rootFree v hv _ hroot e he hto

end

theorem request_adoptable {r : Request} {k : Cipher} {tx tx' : Tx} {mount : MountId} {m : MountCtx}
    {w : Bool} {reply : Reply} (hs : tx.db.Sound) (hf : tx.db.Forest)
    (hm : requireMount E k tx.db mount w = .ok m)
    (hshallow : ∀ src dst, r = .move src dst → ∀ found p,
      resolve tx.db m.mountPoint src = .ok found →
      resolveParent tx.db m.mountPoint dst = .ok p → found.type = .container →
      ∀ n, Leads tx.db.Child n found.node p.container → n ≤ depthCap)
    (h : r.run C M E k tx mount = .ok (tx', reply)) :
    Adoptable (r.license tx.db m.mountPoint) tx.db := by
  have hctx : ∀ m', requireMount E k tx.db mount true = .ok m' → m' = m := by
    intro m' hm'
    obtain ⟨row, volume, hrow, hvol, -, rfl⟩ := requireMount_ok hm'
    obtain ⟨row', volume', hrow', hvol', -, rfl⟩ := requireMount_ok hm
    obtain rfl := Option.some.inj (hrow.symm.trans hrow')
    obtain rfl := Option.some.inj (hvol.symm.trans hvol')
    rfl
  cases r with
  | link src dst =>
    simp only [Request.run, noReply, map_eq_ok, Prod.mk.injEq] at h
    obtain ⟨t, h, rfl, -⟩ := h
    obtain ⟨m', hm', -⟩ := link_strides h
    obtain rfl := hctx m' hm'
    exact link_adoptable hs hm' h
  | move src dst =>
    simp only [Request.run, noReply, map_eq_ok, Prod.mk.injEq] at h
    obtain ⟨t, h, rfl, -⟩ := h
    obtain ⟨m', hm', -⟩ := move_strides h
    obtain rfl := hctx m' hm'
    exact move_adoptable hs hf hm' (hshallow src dst rfl) h
  | _ => exact adoptable_of_none rfl _

theorem Db.Forest.of_same (hf : db.Forest) (hids : db'.identities = db.identities)
    (hedges : db'.edges = db.edges) (hvolumes : db'.volumes = db.volumes) : db'.Forest := by
  have hactive : db'.activeEdges = db.activeEdges := by rw [Db.activeEdges, hedges, Db.activeEdges]
  refine hf.shrink ?_ ?_ ?_ ?_
  · intro n
    rw [Db.nodeType?_eq, Db.nodeType?_eq, hids]
  · intro v hv
    exact ⟨v, hvolumes ▸ hv, rfl⟩
  · intro n
    rw [hactive]
  · intro e he
    exact ⟨e, hactive ▸ he, rfl, rfl⟩

theorem createVolume_forest {tx tx' : Tx} {name : Option String} {chunkSize : ℕ}
    {pin : Option Bytes} {mode : EncMode} {v : VolumeId}
    (h : createVolume C E tx name chunkSize pin mode = .ok (tx', v)) (hs : tx.db.Sound)
    (hf : tx.db.Forest) : tx'.db.Forest := by
  obtain ⟨-, hfresh, -, hnodes, hvolumes, hframe, -, -⟩ := createVolume_shape h
  have hactive : tx'.db.activeEdges = tx.db.activeEdges := by
    rw [Db.activeEdges, hframe.edges (by simp), Db.activeEdges]
  have hnoedge : ∀ e ∈ tx.db.activeEdges, e.toId ≠ E.ids tx.idCount := by
    intro e he heq
    have hex := hs.linked.child e (Db.mem_activeEdges.mp he).1
    rw [heq, hfresh] at hex
    cases hex
  refine ⟨?_, ?_, ?_⟩
  · intro n hn
    rw [hactive]
    by_cases heq : n = E.ids tx.idCount
    · have hnil : tx.db.activeEdges.filter (fun e => e.toId = n) = [] := by
        rw [List.filter_eq_nil_iff]
        intro e he hto
        exact hnoedge e he ((by simpa using hto : e.toId = n).trans heq)
      simp [hnil]
    · rw [nodeType?_append hnodes heq] at hn
      exact hf.single n hn
  · intro r hr root hroot e he
    rw [hvolumes] at hr
    rw [hactive] at he
    rcases List.mem_append.mp hr with hr | hr
    · exact hf.rootFree r hr root hroot e he
    · rw [List.mem_singleton.mp hr] at hroot
      obtain rfl := Option.some.inj hroot
      exact hnoedge e he
  · refine hf.acyclic.mono ?_
    rintro x y ⟨e, he, hx, hy⟩
    exact ⟨e, hactive ▸ he, hx, hy⟩

theorem exec_forest (hs : s.db.Sound) (hf : s.db.Forest) (hshallow : op.Shallow E s) :
    (exec C M E s c op).1.db.Forest := by
  by_cases hreq : ∃ m r, op = .request m r
  · obtain ⟨mount, r, rfl⟩ := hreq
    refine transact_db (fun _ _ => rfl) hf ?_
    intro tx a h
    obtain ⟨m, w, hm, hstrides⟩ := request_strides hs.linked h
    refine hstrides.forest hs hf (request_adoptable hs hf hm ?_ h)
    rintro src dst rfl
    have ha : s.db.anchorOf E.now mount = m.mountPoint := anchorOf_eq hm
    intro found p hfound hp
    exact hshallow found p (ha ▸ hfound) (ha ▸ hp)
  · have heffect : Effect C E s op (exec C M E s c op).1.db := exec_effect hs.linked
    have hnone : (op.license E s).adopt = none := by
      cases op with
      | request m r => exact absurd ⟨m, r, rfl⟩ hreq
      | fdFlush fd =>
        simp only [Op.license]
        split <;> rfl
      | fdClose fd =>
        simp only [Op.license]
        split <;> rfl
      | _ => rfl
    generalize (exec C M E s c op).1.db = db' at heffect
    cases heffect with
    | strides h => exact h.forest hs hf (adoptable_of_none hnone _)
    | founding h => exact createVolume_forest h hs hf
    | prune h =>
      rw [prune_shape h hs]
      exact hf.of_same rfl rfl rfl
    | pruneContent h =>
      rw [pruneContent_shape h]
      exact hf.of_same rfl rfl rfl

/-- Shallow moves leave a forest a forest. -/
theorem Reaches.forest (h : Reaches C M ShallowMoves s) : s.db.Forest := by
  have hboth : s.db.Sound ∧ s.db.Forest := by
    refine GuardedRuns.Run.invariant (P := fun s : Sys => s.db.Sound ∧ s.db.Forest) ?_ h ?_
    · intro s l hg hs
      exact ⟨step_sound hs.1, exec_forest hs.1 hs.2 hg⟩
    · refine ⟨empty_sound, ?_, ?_, ?_⟩
      · intro n _
        exact Nat.zero_le _
      · intro v hv
        cases hv
      · intro a ha
        obtain ⟨b, -, e, he, -⟩ := TransGen.tail'_iff.mp ha
        cases he
  exact hboth.2

/-- Along every run whose moves are shallow the container graph is a forest
rooted at the volume roots, and each further shallow move of a container to
somewhere below itself is refused. -/
theorem forest_of_shallow_moves (h : Reaches C M ShallowMoves s) :
    s.db.Forest ∧ ∀ E c m src dst found p, Op.Shallow E s (.request m (.move src dst)) →
      resolve s.db (s.db.anchorOf E.now m) src = .ok found →
      resolveParent s.db (s.db.anchorOf E.now m) dst = .ok p → found.type = .container →
      s.db.Below found.node p.container →
      ∃ e, exec C M E s c (.request m (.move src dst)) = (s, .error e) := by
  refine ⟨h.forest, ?_⟩
  intro E c m src dst found p hshallow hfound hp htype hbelow
  have hseen := checkCycle_of_below (hshallow found p hfound hp htype) hbelow
  rw [exec]
  cases hrun : Request.run C M E (s.conns c).cipher s.begin m (.move src dst) with
  | error e => exact ⟨e, rfl⟩
  | ok r =>
    -- a move that goes through has seen no cycle
    obtain ⟨tx, reply⟩ := r
    simp only [Request.run, noReply, map_eq_ok, Prod.mk.injEq] at hrun
    obtain ⟨t, hmove, rfl, -⟩ := hrun
    obtain ⟨m', found', p', hm', hfound', hp', hcheck, -⟩ := move_checked hmove
    have ha : s.db.anchorOf E.now m = m'.mountPoint := anchorOf_eq hm'
    rw [ha] at hfound hp
    obtain rfl := Except.ok.inj (hfound.symm.trans hfound')
    obtain rfl := Except.ok.inj (hp.symm.trans hp')
    exact absurd (hcheck htype) (by rw [show s.begin.db = s.db from rfl, hseen]; simp)

/-- A volume, a mount on it and two containers, one in the other. -/
def nestedRun : List Label :=
  [⟨.counting 0, 0, .createVolume none 1 none .none⟩,
    ⟨.counting 1, 0, .mount { volume := 0 }⟩,
    ⟨.counting 2, 0, .request 1 (.createContainer "a")⟩,
    ⟨.counting 4, 0, .request 1 (.createContainer "a/b")⟩]

theorem forest_of_shallow_moves_nested :
    (nestedRun.foldl (step Crypto.xorStream Msgpack.refusing) {}).db.Forest := by
  have hguards : GuardedRuns.Guards (step Crypto.xorStream Msgpack.refusing) ShallowMoves {}
      nestedRun := ⟨trivial, trivial, trivial, trivial, trivial⟩
  exact (forest_of_shallow_moves (GuardedRuns.Run.foldl hguards)).1

end Aloelite
