import Aloelite.Forest

/-! What the cycle check of `move` does guarantee, with no condition on the moves: a
container has one active placement at most, and no node is its own ancestor within the 256
levels the recursive views see. -/
namespace Aloelite

open Fallible KeyedRows ForestOrder Relation

variable {C : Crypto} {M : Msgpack} {E : Env} {L : License} {now : Int} {db db' : Db}

structure Db.Hierarchy (db : Db) : Prop where
  single : ∀ n, db.nodeType? n = some .container →
    (db.activeEdges.filter (fun e => e.toId = n)).length ≤ 1
  near : NoShortCycle depthCap db.Child

/-- The placement a license lets an existing node have closes no short cycle. -/
def Distant (L : License) (db : Db) : Prop :=
  ∀ f t, L.adopt = some (f, t) → (db.node? f).isSome ∧
    (db.nodeType? t = some .container → ∀ n ≤ depthCap, ¬ ForestOrder.Leads db.Child n t f)

/-- Two active placements of one container are one. -/
theorem Db.Hierarchy.placed_once (h : db.Hierarchy) {e e' : EdgeRow} (he : e ∈ db.activeEdges)
    (he' : e' ∈ db.activeEdges) (hto : e.toId = e'.toId)
    (ht : db.nodeType? e.toId = some .container) : e = e' := by
  have hlen := h.single e.toId ht
  have hmem : e ∈ db.activeEdges.filter (fun x => x.toId = e.toId) :=
    List.mem_filter.mpr ⟨he, by simp⟩
  have hmem' : e' ∈ db.activeEdges.filter (fun x => x.toId = e.toId) :=
    List.mem_filter.mpr ⟨he', by simp [hto]⟩
  generalize db.activeEdges.filter (fun x => x.toId = e.toId) = es at hlen hmem hmem'
  cases es with
  | nil => cases hmem
  | cons x es =>
    obtain rfl : es = [] := by
      rw [List.length_cons] at hlen
      exact List.length_eq_zero_iff.mp (by omega)
    exact (List.mem_singleton.mp hmem).trans (List.mem_singleton.mp hmem').symm

theorem Db.Hierarchy.one_parent (h : db.Hierarchy) {a b n : NodeId}
    (ht : db.nodeType? n = some .container) (ha : db.Child a n) (hb : db.Child b n) : a = b := by
  obtain ⟨e, he, rfl, rfl⟩ := ha
  obtain ⟨e', he', rfl, hto⟩ := hb
  rw [h.placed_once he he' hto.symm ht]

/-- The distance to a container below a node is one number as far as the views see. -/
theorem Db.Hierarchy.depth_unique (h : db.Hierarchy) (hl : db.Linked) {a c : NodeId} {n m : ℕ}
    (hc : db.nodeType? c = some .container) (hn : n ≤ depthCap) (hm : m ≤ depthCap)
    (ha : ForestOrder.Leads db.Child n a c) (hb : ForestOrder.Leads db.Child m a c) : n = m := by
  refine h.near.distance_unique (p := fun x => db.nodeType? x = some .container) ?_ ?_ hc hn hm ha
    hb
  · rintro x y ⟨e, he, rfl, -⟩
    exact hl.parent e (Db.mem_activeEdges.mp he).1
  · intro x y z hz hx hy
    exact h.one_parent hz hx hy

/-! ### Strides -/

theorem Db.Hierarchy.insert {e : EdgeRow} (hh : db.Hierarchy)
    (htypes : ∀ n, n ≠ e.toId → db'.nodeType? n = some .container →
      db.nodeType? n = some .container)
    (hedges : db'.activeEdges = db.activeEdges ++ [e])
    (hfar : ∀ n ≤ depthCap, ¬ ForestOrder.Leads db.Child n e.toId e.fromId)
    (hsingle : db'.nodeType? e.toId = some .container → ∀ e' ∈ db.activeEdges, e'.toId ≠ e.toId) :
    db'.Hierarchy := by
  constructor
  · intro n hn
    rw [hedges, List.filter_append, List.length_append]
    by_cases heq : n = e.toId
    · rw [heq] at hn ⊢
      have hnil : db.activeEdges.filter (fun e' => e'.toId = e.toId) = [] := by
        rw [List.filter_eq_nil_iff]
        intro e' he' hto
        exact hsingle hn e' he' (by simpa using hto)
      simp [hnil]
    · have hnew : [e].filter (fun e' => e'.toId = n) = [] := by
        simp [Ne.symm heq]
      rw [hnew, List.length_nil, Nat.add_zero]
      exact hh.single n (htypes n heq hn)
  · exact hh.near.insert (child_append hedges) (fun n hn => hfar n hn.le)

theorem Db.Hierarchy.shrink (hh : db.Hierarchy) (htypes : ∀ n, db'.nodeType? n = db.nodeType? n)
    (hcount : ∀ n, (db'.activeEdges.filter (fun e => e.toId = n)).length ≤
      (db.activeEdges.filter (fun e => e.toId = n)).length)
    (hchild : ∀ e ∈ db'.activeEdges, ∃ e₀ ∈ db.activeEdges,
      e₀.fromId = e.fromId ∧ e₀.toId = e.toId) :
    db'.Hierarchy := by
  constructor
  · intro n hn
    exact (hcount n).trans (hh.single n (htypes n ▸ hn))
  · refine hh.near.mono ?_
    rintro x y ⟨e, he, rfl, rfl⟩
    obtain ⟨e₀, he₀, hfrom, hto⟩ := hchild e he
    exact ⟨e₀, he₀, hfrom, hto⟩

/-- A node without children leads nowhere else. -/
theorem not_leads_of_type (hl : db.Linked) {a b : NodeId} {n : ℕ}
    (ha : db.nodeType? a ≠ some .container) (hne : b ≠ a) : ¬ ForestOrder.Leads db.Child n a b :=
  fun h => hne (leads_of_isolated (not_child_of_type hl ha) h)

/-- One stride keeps the hierarchy and the distance of the placement still to be made. -/
theorem Stride.hierarchy (h : Stride L now db db') (hs : db.Sound) (hh : db.Hierarchy)
    (ha : Distant L db) :
    db'.Hierarchy ∧ Distant L db' := by
  have hext := h.identities
  cases h with
  | stmt st hst hexec =>
    have hid := (Stmt.exec_agreeOff hexec).identities (L.not_identities db st hst)
    have htypes : ∀ n, db'.nodeType? n = db.nodeType? n := by
      intro n
      rw [Db.nodeType?_eq, Db.nodeType?_eq, hid]
    by_cases hedge : ∃ id f t v n, st = .createEdge id f t v n
    · obtain ⟨id, f, t, v, n, rfl⟩ := hedge
      obtain ⟨hadopt, -⟩ := hst
      obtain ⟨src, dst, hsrc, hdst, -, hcont, hsingle, -, -, heq⟩ := Db.createEdge_ok hexec
      have hedges : db'.activeEdges =
          db.activeEdges ++ [⟨id, f, t, v, false, n.getD dst.name⟩] := by
        rw [heq]
        exact Db.activeEdges_append _ _ rfl
      have hsrcType : db.nodeType? f = some .container := by
        rw [Db.nodeType?, hsrc, Option.map_some, hcont]
      have hfar : ∀ n ≤ depthCap, ¬ ForestOrder.Leads db.Child n t f := by
        by_cases htype : db.nodeType? t = some .container
        · exact (ha f t hadopt).2 htype
        · intro n _
          refine not_leads_of_type hs.linked htype ?_
          rintro rfl
          exact htype hsrcType
      constructor
      · refine hh.insert (fun n _ hn => htypes n ▸ hn) hedges hfar ?_
        intro htype
        rw [htypes, Db.nodeType?, hdst, Option.map_some] at htype
        exact hsingle (Option.some.inj htype)
      · intro f' t' hadopt'
        obtain ⟨rfl, rfl⟩ := Prod.mk.inj (Option.some.inj (hadopt.symm.trans hadopt'))
        refine ⟨node?_isSome_persists hext (ha f t hadopt).1, ?_⟩
        intro _ n hn hleads
        rcases leads_insert (child_append hedges) hleads with h | ⟨i, j, hlt, h, -⟩
        · exact hfar n hn h
        · exact hfar i (by omega) h
    · have hne : ∀ id f t v n, st ≠ .createEdge id f t v n :=
        fun id f t v n heq => hedge ⟨id, f, t, v, n, heq⟩
      obtain ⟨hcount, hchild⟩ := License.activeEdges_of_grants hst hexec hne
      refine ⟨hh.shrink htypes hcount hchild, ?_⟩
      intro f t hadopt
      refine ⟨node?_isSome_persists hext (ha f t hadopt).1, ?_⟩
      intro htype n hn hleads
      refine (ha f t hadopt).2 (htypes t ▸ htype) n hn (hleads.mono ?_)
      rintro x y ⟨e, he, rfl, rfl⟩
      obtain ⟨e₀, he₀, hfrom, hto⟩ := hchild e he
      exact ⟨e₀, he₀, hfrom, hto⟩
  | birth row modifiedAt id f hhost hfex hrow hfill hedge =>
    obtain ⟨hnone, hnodes, -, -, -, -, -, hedges⟩ := birth_shape hrow hfill hedge
    have hactive : db'.activeEdges =
        db.activeEdges ++ [⟨id, f, row.nodeId, row.volumeId, false, row.name⟩] := by
      simp [Db.activeEdges, hedges]
    have hfresh : ∀ n, (db.node? n).isSome → n ≠ row.nodeId := by
      rintro n hn rfl
      rw [hnone] at hn
      exact absurd hn (by simp)
    have hnotype : db.nodeType? row.nodeId ≠ some .container := by
      simp [Db.nodeType?, hnone]
    -- nothing hangs under a node that is only now made
    have hfar : ∀ g, (db.node? g).isSome → ∀ n, ¬ ForestOrder.Leads db.Child n row.nodeId g :=
      fun g hg n => not_leads_of_type hs.linked hnotype (hfresh g hg)
    constructor
    · refine hh.insert ?_ hactive (fun n _ => hfar f hfex n) ?_
      · intro n hn htype
        rwa [nodeType?_append hnodes hn] at htype
      · intro _ e he heq
        exact hfresh e.toId (hs.linked.child e (Db.mem_activeEdges.mp he).1) heq
    · intro f' t' hadopt
      obtain ⟨hfex', hdistant⟩ := ha f' t' hadopt
      refine ⟨node?_isSome_persists hext hfex', ?_⟩
      intro htype n hn hleads
      by_cases hnew : t' = row.nodeId
      · rw [hnew] at hleads
        rcases leads_insert (child_append hactive) hleads with h | ⟨i, j, -, -, h⟩
        · exact hfar f' hfex' n h
        · exact hfar f' hfex' j h
      · rw [nodeType?_append hnodes hnew] at htype
        rcases leads_insert (child_append hactive) hleads with h | ⟨i, j, -, -, h⟩
        · exact hdistant htype n hn h
        · exact hfar f' hfex' j h

theorem Strides.hierarchy (h : Strides L now db db') (hs : db.Sound) (hh : db.Hierarchy)
    (ha : Distant L db) :
    db'.Hierarchy := by
  have hall : db'.Sound ∧ db'.Hierarchy ∧ Distant L db' := by
    induction h with
    | refl => exact ⟨hs, hh, ha⟩
    | tail _ hstride ih => exact ⟨hstride.sound ih.1, hstride.hierarchy ih.1 ih.2.1 ih.2.2⟩
  exact hall.2.1

/-! ### Every step -/

section

variable {k : Cipher} {tx tx' : Tx} {mount : MountId} {src dst : String} {m : MountCtx} {s : Sys}
  {c : ConnId} {op : Op}

theorem distant_of_none (h : L.adopt = none) (db : Db) : Distant L db := by
  intro f t hadopt
  rw [h] at hadopt
  cases hadopt

theorem link_distant (hs : tx.db.Sound) (hm : requireMount E k tx.db mount true = .ok m)
    (h : link E k tx mount src dst = .ok tx') :
    Distant ((License.standard tx.db m.mountPoint).adopting (adoption tx.db m.mountPoint src dst))
      tx.db := by
  simp only [link, bind_eq_ok] at h
  obtain ⟨m', hm', found, hfound, u, htype, u', -, p, hp, -⟩ := h
  obtain rfl := Except.ok.inj (hm.symm.trans hm')
  intro f t hadopt
  simp only [License.adopting, adoption, hfound, hp, Option.some.injEq, Prod.mk.injEq] at hadopt
  obtain ⟨rfl, rfl⟩ := hadopt
  refine ⟨resolveParent_exists (anchor_exists hs.linked.anchor hm) hp, ?_⟩
  intro hcont
  rw [resolve_nodeType hfound] at hcont
  simp only [refuse_eq_ok, decide_eq_false_iff_not] at htype
  exact absurd (Option.some.inj hcont) htype

/-- What `check_cycle` rules out is just what the short cycles need. -/
theorem move_distant (hs : tx.db.Sound) (hm : requireMount E k tx.db mount true = .ok m)
    (h : move E k tx mount src dst = .ok tx') :
    Distant ((License.standard tx.db m.mountPoint).adopting (adoption tx.db m.mountPoint src dst))
      tx.db := by
  obtain ⟨m', found, p, hm', hfound, hp, hcheck, -⟩ := move_checked h
  obtain rfl := Except.ok.inj (hm.symm.trans hm')
  intro f t hadopt
  simp only [License.adopting, adoption, hfound, hp, Option.some.injEq, Prod.mk.injEq] at hadopt
  obtain ⟨rfl, rfl⟩ := hadopt
  refine ⟨resolveParent_exists (anchor_exists hs.linked.anchor hm) hp, ?_⟩
  intro hcont n hn hleads
  rw [resolve_nodeType hfound] at hcont
  have hseen : tx.db.checkCycle found.node p.container = true :=
    Db.checkCycle_iff.mpr ⟨n, hn, hleads⟩
  rw [hcheck (Option.some.inj hcont)] at hseen
  cases hseen

/-- The context of a mount does not depend on what it was asked for. -/
theorem requireMount_unique {db : Db} {w w' : Bool} {m m' : MountCtx}
    (hm : requireMount E k db mount w = .ok m) (hm' : requireMount E k db mount w' = .ok m') :
    m = m' := by
  obtain ⟨row, volume, hrow, hvol, -, rfl⟩ := requireMount_ok hm
  obtain ⟨row', volume', hrow', hvol', -, rfl⟩ := requireMount_ok hm'
  obtain rfl := Option.some.inj (hrow.symm.trans hrow')
  obtain rfl := Option.some.inj (hvol.symm.trans hvol')
  rfl

theorem request_distant {r : Request} {w : Bool} {reply : Reply} (hs : tx.db.Sound)
    (hm : requireMount E k tx.db mount w = .ok m) (h : r.run C M E k tx mount = .ok (tx', reply)) :
    Distant (r.license tx.db m.mountPoint) tx.db := by
  cases r with
  | link src dst =>
    simp only [Request.run, noReply, map_eq_ok, Prod.mk.injEq] at h
    obtain ⟨t, h, rfl, -⟩ := h
    obtain ⟨m', hm', -⟩ := link_strides h
    obtain rfl := requireMount_unique hm' hm
    exact link_distant hs hm' h
  | move src dst =>
    simp only [Request.run, noReply, map_eq_ok, Prod.mk.injEq] at h
    obtain ⟨t, h, rfl, -⟩ := h
    obtain ⟨m', hm', -⟩ := move_strides h
    obtain rfl := requireMount_unique hm' hm
    exact move_distant hs hm' h
  | _ => exact distant_of_none rfl _

theorem Db.Hierarchy.of_same (hh : db.Hierarchy) (hids : db'.identities = db.identities)
    (hedges : db'.edges = db.edges) : db'.Hierarchy := by
  have hactive : db'.activeEdges = db.activeEdges := by rw [Db.activeEdges, hedges, Db.activeEdges]
  refine hh.shrink ?_ ?_ ?_
  · intro n
    rw [Db.nodeType?_eq, Db.nodeType?_eq, hids]
  · intro n
    rw [hactive]
  · intro e he
    exact ⟨e, hactive ▸ he, rfl, rfl⟩

theorem createVolume_hierarchy {name : Option String} {chunkSize : ℕ} {pin : Option Bytes}
    {mode : EncMode} {v : VolumeId}
    (h : createVolume C E tx name chunkSize pin mode = .ok (tx', v)) (hs : tx.db.Sound)
    (hh : tx.db.Hierarchy) :
    tx'.db.Hierarchy := by
  obtain ⟨-, hfresh, -, hnodes, -, hframe, -, -⟩ := createVolume_shape h
  have hactive : tx'.db.activeEdges = tx.db.activeEdges := by
    rw [Db.activeEdges, hframe.edges (by simp), Db.activeEdges]
  constructor
  · intro n hn
    rw [hactive]
    by_cases heq : n = E.ids tx.idCount
    · have hnil : tx.db.activeEdges.filter (fun e => e.toId = n) = [] := by
        rw [List.filter_eq_nil_iff]
        intro e he hto
        have hex := hs.linked.child e (Db.mem_activeEdges.mp he).1
        rw [(by simpa using hto : e.toId = n), heq, hfresh] at hex
        cases hex
      simp [hnil]
    · rw [nodeType?_append hnodes heq] at hn
      exact hh.single n hn
  · refine hh.near.mono ?_
    rintro x y ⟨e, he, hx, hy⟩
    exact ⟨e, hactive ▸ he, hx, hy⟩

theorem exec_hierarchy (hs : s.db.Sound) (hh : s.db.Hierarchy) :
    (exec C M E s c op).1.db.Hierarchy := by
  by_cases hreq : ∃ m r, op = .request m r
  · obtain ⟨mount, r, rfl⟩ := hreq
    refine transact_db (fun _ _ => rfl) hh ?_
    intro tx a h
    obtain ⟨m, w, hm, hstrides⟩ := request_strides hs.linked h
    exact hstrides.hierarchy hs hh (request_distant hs hm h)
  · have heffect : Effect C E s op (exec C M E s c op).1.db := exec_effect hs.linked
    have hnone : (op.license E s).adopt = none := by
      cases op with
      | request m r => exact absurd ⟨m, r, rfl⟩ hreq
      | fdFlush fd =>
        simp only [Op.license]
        split <;> rfl
      | fdClose fd =>
        simp only [Op.license]
        split <;> rfl
      | _ => rfl
    generalize (exec C M E s c op).1.db = db' at heffect
    cases heffect with
    | strides h => exact h.hierarchy hs hh (distant_of_none hnone _)
    | founding h => exact createVolume_hierarchy h hs hh
    | prune h =>
      rw [prune_shape h hs]
      exact hh.of_same rfl rfl
    | pruneContent h =>
      rw [pruneContent_shape h]
      exact hh.of_same rfl rfl

theorem Reaches.hierarchy {guard : Sys → Label → Prop} (h : Reaches C M guard s) :
    s.db.Sound ∧ s.db.Hierarchy := by
  refine GuardedRuns.Run.invariant (P := fun s : Sys => s.db.Sound ∧ s.db.Hierarchy) ?_ h ?_
  · intro s l _ hs
    exact ⟨step_sound hs.1, exec_hierarchy hs.1 hs.2⟩
  · refine ⟨empty_sound, ?_, ?_⟩
    · intro n _
      exact Nat.zero_le _
    · intro a n _ hcycle
      obtain ⟨b, -, e, he, -⟩ := leads_succ.mp hcycle
      cases he

end

end Aloelite
