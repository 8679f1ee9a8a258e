import Aloelite.Integrity

/-! `remove_recursive` and the archiving half of `pack`, compared with what a
recursive removal is for: the target's own placement and everything placed inside
its subtree, and nothing else. -/
namespace Aloelite

open Fallible KeyedRows ForestOrder Relation

variable {C : Crypto} {M : Msgpack} {E : Env} {k : Cipher} {now : Int} {db : Db} {tx tx' : Tx}
  {a b root : NodeId} {mount : MountId} {path : String} {type : NodeType} {found hit : Resolved}
  {p : EdgeRow → Bool}

/-- The placements a recursive removal is for: the one the path walked, and those
whose parent container lies in the target's subtree. -/
def OwnPlacement (db : Db) (a : NodeId) (path : String) (e : EdgeRow) : Prop :=
  ∃ found, resolve db a path = .ok found ∧
    ((∃ p, resolveParent db a path = .ok p ∧
    Db.isPlacement p.container found.node p.name e = true) ∨
      db.Below found.node e.fromId)

/-- The target's own placements go, every other one stays active, resolves at its
(legible) path from wherever the path starts, and reads the same under every cipher. -/
structure RemovesOwn (db db' : Db) (a : NodeId) (path : String) : Prop where
  gone : ∀ e ∈ db.activeEdges, OwnPlacement db a path e → e ∉ db'.activeEdges
  kept : ∀ e ∈ db.activeEdges, ¬ OwnPlacement db a path e → e ∈ db'.activeEdges
  noneAdded : ∀ e ∈ db'.activeEdges, e ∈ db.activeEdges
  reads : ∀ e ∈ db.activeEdges, ¬ OwnPlacement db a path e → ∀ (b : NodeId) (q : String)
    (hit : Resolved), Legible q → resolveParent db b q = .ok ⟨e.fromId, e.name⟩ →
    resolve db b q = .ok hit → hit.node = e.toId → resolve db' b q = .ok hit ∧
      ∀ (C : Crypto) (k : Cipher), readContentBytes C k db' hit.node =
      readContentBytes C k db hit.node

/-- No node of the target's subtree is placed from outside it, but for the
placement the path walked, and the subtree is at most 256 levels deep. -/
def SelfContained (db : Db) (a : NodeId) (path : String) : Prop :=
  ∀ found, resolve db a path = .ok found →
    (∀ e ∈ db.activeEdges, e.toId ∈ db.subtreeIds found.node → OwnPlacement db a path e) ∧
      ∀ n, db.Below found.node n → ∃ k ≤ depthCap, Leads db.Child k found.node n

/-! ### Walks that the archived placements do not carry -/

theorem descend_append {segs segs' : List String} :
    descend db a type (segs ++ segs') = .ok hit ↔
      ∃ mid, descend db a type segs = .ok mid ∧ descend db mid.node mid.type segs' = .ok hit := by
  induction segs generalizing a type with
  | nil => simp [descend]
  | cons seg segs ih =>
    simp only [List.cons_append, descend]
    by_cases htype : type = .container
    · cases hseg : db.resolveSegment a seg with
      | none => simp [htype]
      | some r => simp [htype, ih]
    · simp [htype]

theorem resolveSegment_archiveWhere {r : NodeRow} {name : String} {e : EdgeRow}
    (h : db.resolveSegment a name = some r) (he : e ∈ db.activeEdges) (hfrom : e.fromId = a)
    (hname : e.name = name) (hto : e.toId = r.nodeId) (hp : p e = false) :
    (db.archiveWhere now p).resolveSegment a name = some r := by
  have hmax := (Db.resolveSegment_eq_some.mp h).2
  have hnode := (Db.child_of_resolveSegment h).2
  have hactive : e ∈ (db.archiveWhere now p).activeEdges := by
    rw [Db.activeEdges_archiveWhere, List.mem_filter]
    exact ⟨he, by simp [hp]⟩
  rw [Db.resolveSegment_eq_some]
  refine ⟨⟨e, hactive, hfrom, hname, by rw [hto]; exact hnode⟩, ?_⟩
  intro r' hr'
  apply hmax r'
  obtain ⟨e', he', hf', hn', ht'⟩ := Db.mem_placedUnder.mp hr'
  rw [Db.activeEdges_archiveWhere, List.mem_filter] at he'
  exact Db.mem_placedUnder.mpr ⟨e', he'.1, hf', hn', ht'⟩

/-- A walk that ends outside a subtree never enters it, so archiving placements of
the subtree's nodes leaves it as it is. -/
theorem descend_archiveWhere {segs : List String}
    (hp : ∀ e ∈ db.activeEdges, p e = true → db.Below root e.toId)
    (h : descend db a type segs = .ok hit) (hout : ¬ db.Below root hit.node) :
    descend (db.archiveWhere now p) a type segs = .ok hit := by
  induction segs generalizing a type with
  | nil => exact h
  | cons seg segs ih =>
    rw [descend] at h ⊢
    by_cases htype : type = .container
    · rw [if_pos htype] at h ⊢
      cases hseg : db.resolveSegment a seg with
      | none => simp [hseg] at h
      | some r =>
        rw [hseg] at h
        obtain ⟨⟨e, he, hfrom, hname, hnode⟩, -⟩ := Db.resolveSegment_eq_some.mp hseg
        have hto : e.toId = r.nodeId := (Db.nodeId_of_node? hnode).symm
        have hkept : p e = false := by
          rw [Bool.eq_false_iff]
          intro hgone
          have hbelow := hp e he hgone
          rw [hto] at hbelow
          exact hout (hbelow.trans (descend_below h))
        rw [resolveSegment_archiveWhere hseg he hfrom hname hto hkept]
        exact ih h
    · rw [if_neg htype] at h
      cases h

/-- The last placement of a path and its resolution, from the parent's. -/
theorem resolve_of_parent {q : String} {c : NodeId} {name : String} (hlegible : Legible q)
    (hparent : resolveParent db b q = .ok ⟨c, name⟩) :
    resolve db b q = .ok hit ↔ descend db c .container [name] = .ok hit := by
  obtain ⟨hne, hname, hd⟩ := (resolveParent_eq_ok hlegible).mp hparent
  have hsplit : splitPath q = (splitPath q).dropLast ++ [name] := by
    have hlast : (splitPath q).getLast hne = name := by
      have hname' : name = (splitPath q).getLastD "" := hname
      rw [hname', List.getLastD_eq_getLast?, List.getLast?_eq_some_getLast hne]
      rfl
    rw [← hlast, List.dropLast_append_getLast hne]
  rw [resolve_eq_ok hlegible]
  constructor
  · rintro (⟨hnil, -⟩ | ⟨-, h⟩)
    · exact absurd hnil hne
    · rw [hsplit] at h
      obtain ⟨mid, hmid, hlast⟩ := descend_append.mp h
      obtain rfl := Except.ok.inj (hmid.symm.trans hd)
      exact hlast
  · intro h
    refine Or.inr ⟨hne, ?_⟩
    rw [hsplit]
    exact descend_append.mpr ⟨_, hd, h⟩

/-! ### The archiving statement -/

/-- `archive_subtree` on the file. -/
def Db.archiveSubtree (db : Db) (now : Int) (root : NodeId) : Db :=
  db.archiveWhere now (fun e => e.toId ∈ db.subtreeIds root)

theorem mem_activeEdges_archiveSubtree {e : EdgeRow} :
    e ∈ (db.archiveSubtree now root).activeEdges ↔
      e ∈ db.activeEdges ∧ e.toId ∉ db.subtreeIds root := by
  rw [Db.archiveSubtree, Db.activeEdges_archiveWhere, List.mem_filter]
  simp

theorem found_mem_subtreeIds (hfound : resolve db a path = .ok found) :
    found.node ∈ db.subtreeIds found.node := by
  rw [Db.mem_subtreeIds]
  have hnode := Db.node?_isSome_of_type (resolve_nodeType hfound)
  exact ⟨hnode, 0, Nat.zero_le _, Leads.refl _⟩

/-- In a self-contained subtree the statement takes exactly the target's own
placements. -/
theorem SelfContained.own_iff (h : SelfContained db a path) (hfound : resolve db a path = .ok found)
    {e : EdgeRow} (he : e ∈ db.activeEdges) :
    e.toId ∈ db.subtreeIds found.node ↔ OwnPlacement db a path e := by
  obtain ⟨hplaced, hshallow⟩ := h found hfound
  constructor
  · exact hplaced e he
  · rintro ⟨found', hfound', hown⟩
    obtain rfl := Except.ok.inj (hfound'.symm.trans hfound)
    rcases hown with ⟨q, -, hq⟩ | hbelow
    · have hto : e.toId = found'.node := by
        simp only [Db.isPlacement, decide_eq_true_eq] at hq
        exact hq.2.1
      rw [hto]
      exact found_mem_subtreeIds hfound
    · rw [Db.mem_subtreeIds]
      have hnode := Db.node?_isSome_of_type (resolve_nodeType hfound)
      have hchild : db.Below found'.node e.toId := hbelow.tail ⟨e, he, rfl, rfl⟩
      exact ⟨hnode, hshallow e.toId hchild⟩

/-- Reads at paths the removal leaves alone. -/
theorem reads_archiveSubtree (h : SelfContained db a path)
    (hfound : resolve db a path = .ok found) {e : EdgeRow} (he : e ∈ db.activeEdges)
    (hown : ¬ OwnPlacement db a path e) {q : String} (hlegible : Legible q)
    (hparent : resolveParent db b q = .ok ⟨e.fromId, e.name⟩) (hhit : resolve db b q = .ok hit)
    (hto : hit.node = e.toId) :
    resolve (db.archiveSubtree now found.node) b q = .ok hit := by
  have hout : ¬ db.Below found.node e.fromId := fun hbelow => hown ⟨found, hfound, Or.inr hbelow⟩
  have hkept : e.toId ∉ db.subtreeIds found.node := fun hmem => hown ((h.own_iff hfound he).mp hmem)
  obtain ⟨hne, hname, hd⟩ := (resolveParent_eq_ok hlegible).mp hparent
  have hd' : descend (db.archiveSubtree now found.node) b .container (splitPath q).dropLast =
      .ok ⟨e.fromId, .container⟩ := by
    refine descend_archiveWhere ?_ hd hout
    intro e' _ hgone
    exact Db.below_of_mem_subtreeIds (by simpa using hgone)
  have hparent' : resolveParent (db.archiveSubtree now found.node) b q = .ok ⟨e.fromId, e.name⟩ :=
    (resolveParent_eq_ok hlegible).mpr ⟨hne, hname, hd'⟩
  rw [resolve_of_parent hlegible hparent] at hhit
  rw [resolve_of_parent hlegible hparent']
  rw [descend, if_pos rfl] at hhit ⊢
  cases hseg : db.resolveSegment e.fromId e.name with
  | none => simp [hseg] at hhit
  | some r =>
    rw [hseg] at hhit
    have hnode : r.nodeId = hit.node := congrArg Resolved.node (Except.ok.inj hhit)
    rw [Db.archiveSubtree, resolveSegment_archiveWhere hseg he rfl rfl (hto.symm.trans hnode.symm)
      (by simpa using hkept)]
    exact hhit

/-- The statement keeps to the target's own placements exactly when the subtree
is self-contained. -/
theorem archiveSubtree_removesOwn_iff (hfound : resolve db a path = .ok found) :
    RemovesOwn db (db.archiveSubtree now found.node) a path ↔ SelfContained db a path := by
  constructor
  · intro h found' hfound'
    obtain rfl := Except.ok.inj (hfound'.symm.trans hfound)
    constructor
    · intro e he hmem
      by_contra hown
      exact (mem_activeEdges_archiveSubtree.mp (h.kept e he hown)).2 hmem
    · intro n hn
      rcases ReflTransGen.cases_tail hn with heq | ⟨c, hc, e, he, hfrom, hto⟩
      · exact ⟨0, Nat.zero_le _, leads_zero.mpr heq.symm⟩
      · -- the last placement of the way down is the target's own, hence in reach
        have hown : OwnPlacement db a path e := ⟨found', hfound, Or.inr (hfrom ▸ hc)⟩
        have hgone := h.gone e he hown
        have hmem : e.toId ∈ db.subtreeIds found'.node := by
          by_contra hmem
          exact hgone (mem_activeEdges_archiveSubtree.mpr ⟨he, hmem⟩)
        rw [hto] at hmem
        exact (Db.mem_subtreeIds.mp hmem).2
  · intro h
    refine ⟨?_, ?_, ?_, ?_⟩
    · intro e he hown hmem
      exact (mem_activeEdges_archiveSubtree.mp hmem).2 ((h.own_iff hfound he).mpr hown)
    · intro e he hown
      exact mem_activeEdges_archiveSubtree.mpr
        ⟨he, fun hmem => hown ((h.own_iff hfound he).mp hmem)⟩
    · intro e he
      exact (mem_activeEdges_archiveSubtree.mp he).1
    · intro e he hown b q hit hlegible hparent hhit hto
      exact ⟨reads_archiveSubtree h hfound he hown hlegible hparent hhit hto, fun _ _ => rfl⟩

/-! ### The two operations -/

theorem removeRecursive_ok (h : removeRecursive E k tx mount path = .ok tx') :
    ∃ found, resolve tx.db (tx.db.anchorOf E.now mount) path = .ok found ∧
      tx'.db = tx.db.archiveSubtree E.now found.node := by
  simp only [removeRecursive, bind_eq_ok] at h
  obtain ⟨m, hm, found, hfound, u, -, hrun⟩ := h
  obtain ⟨db', hexec, rfl⟩ := Tx.run_ok.mp hrun
  refine ⟨found, by rw [anchorOf_eq hm]; exact hfound, ?_⟩
  exact (Except.ok.inj hexec).symm

/-- The id of a born node's placement is one the file did not have. -/
theorem birth_edge_fresh {db₁ db₂ db' : Db} {row : NodeRow} {modifiedAt : Option Int}
    {id : EdgeId} {f t : NodeId} {v : VolumeId} {name : Option String}
    (hrow : db.createNode row modifiedAt = .ok db₁) (hfill : Steps (Fills row.nodeId) now db₁ db₂)
    (hedge : db₂.createEdge now id f t v name = .ok db') : db.edge? id = none := by
  obtain ⟨-, -, rfl⟩ := Db.createNode_ok hrow
  obtain ⟨-, -, -, -, hid, -⟩ := Db.createEdge_ok hedge
  have hedges := (Fills.agreeOff hfill).edges (by simp)
  rw [Db.edge?, hedges] at hid
  exact hid

theorem edge?_archiveWhere {id : EdgeId} (h : (db.archiveWhere now p).edge? id = none) :
    ∀ e ∈ db.edges, e.edgeId ≠ id := by
  intro e he
  rw [Db.edge?, lookup_eq_none] at h
  have hne := h _ (List.mem_map_of_mem he)
  split at hne
  · exact hne
  · exact hne

/-- What `pack` does after its archiving half adds one placement, of the packed
entry, and touches no other. -/
theorem pack_ok {n : NodeId} (h : pack C M E k tx mount path = .ok (tx', n)) :
    ∃ found tx₁, resolve tx.db (tx.db.anchorOf E.now mount) path = .ok found ∧
      tx.run E (.archiveSubtree found.node) = .ok tx₁ ∧
      ∃ e, tx'.db.activeEdges = tx₁.db.activeEdges ++ [e] ∧ e ∉ tx.db.activeEdges ∧
        ∃ e₀, tx.db.getActiveParent found.node = some e₀ ∧ e₀.fromId = e.fromId := by
  simp only [pack, bind_eq_ok, pure_eq_ok, orRaise_eq_ok, Prod.mk.injEq] at h
  obtain ⟨m, hm, found, hfound, u, -, u₁, -, e₀, he₀, cont, -, nodes, -, blob, -, tx₁, hraze,
    ⟨tx₂, packed⟩, hnew, tx₃, hput, tx₄, hlink, rfl, -⟩ := h
  refine ⟨found, tx₁, by rw [anchorOf_eq hm]; exact hfound, hraze, ?_⟩
  obtain ⟨db₀, hexec, htx₁⟩ := Tx.run_ok.mp hraze
  have hdb₁ : tx₁.db = tx.db.archiveSubtree E.now found.node := by
    rw [htx₁]
    exact (Except.ok.inj hexec).symm
  obtain ⟨-, db₁, hrow, rfl⟩ := newNode_ok hnew
  obtain ⟨db₂, hedge, rfl⟩ := linkChild_ok hlink
  have hfill := putInitialContent_steps hput
  obtain ⟨-, -, -, -, -, -, -, hedges⟩ := birth_shape hrow hfill hedge
  have hfresh : tx₁.db.edge? _ = none := birth_edge_fresh hrow hfill hedge
  let e : EdgeRow :=
    { edgeId := E.ids tx₃.idCount, fromId := e₀.fromId, toId := packed, volumeId := m.volume,
      name := cont.name }
  refine ⟨e, ?_, ?_, e₀, he₀, rfl⟩
  · rw [Db.activeEdges, hedges, List.filter_append]
    rfl
  · intro hmem
    rw [hdb₁] at hfresh
    exact edge?_archiveWhere hfresh e (Db.mem_activeEdges.mp hmem).1 rfl

/-- `remove_recursive`, and `pack` up to its archiving statement, deactivate the
target's own placements and no other exactly when the target's subtree is
self-contained; `pack` takes no further placement away. -/
theorem recursive_removal_own_iff :
    (∀ tx', removeRecursive E k tx mount path = .ok tx' →
      (RemovesOwn tx.db tx'.db (tx.db.anchorOf E.now mount) path ↔
        SelfContained tx.db (tx.db.anchorOf E.now mount) path)) ∧
    ∀ tx' n, pack C M E k tx mount path = .ok (tx', n) → ∃ found tx₁,
      resolve tx.db (tx.db.anchorOf E.now mount) path = .ok found ∧
      tx.run E (.archiveSubtree found.node) = .ok tx₁ ∧
      (RemovesOwn tx.db tx₁.db (tx.db.anchorOf E.now mount) path ↔
        SelfContained tx.db (tx.db.anchorOf E.now mount) path) ∧
      ∀ e ∈ tx.db.activeEdges, e ∈ tx'.db.activeEdges ↔ e ∈ tx₁.db.activeEdges := by
  constructor
  · intro tx' h
    obtain ⟨found, hfound, hdb⟩ := removeRecursive_ok h
    rw [hdb]
    exact archiveSubtree_removesOwn_iff hfound
  · intro tx' n h
    obtain ⟨found, tx₁, hfound, hraze, e₁, hactive, hnew, -⟩ := pack_ok h
    refine ⟨found, tx₁, hfound, hraze, ?_, ?_⟩
    · obtain ⟨db', hexec, rfl⟩ := Tx.run_ok.mp hraze
      obtain rfl := Except.ok.inj hexec
      exact archiveSubtree_removesOwn_iff hfound
    · intro e he
      rw [hactive, List.mem_append, List.mem_singleton]
      constructor
      · rintro (hmem | rfl)
        · exact hmem
        · exact absurd he hnew
      · exact Or.inl

/-- A container `a` with one leaf. -/
def leafRun : List Label :=
  [⟨.counting 0, 0, .createVolume none 128 none .none⟩,
    ⟨.counting 1, 0, .mount { volume := 0 }⟩,
    ⟨.counting 2, 0, .request 1 (.createContainer "a")⟩,
    ⟨.counting 4, 0, .request 1 (.createEntry "a/x" [7])⟩]

/-- Both halves, at a container with one leaf. -/
theorem recursive_removal_own_iff_leaf :
    (let s := leafRun.foldl (step Crypto.xorStream .sample) {}
     (RemovesOwn s.db (s.db.archiveSubtree 0 2) 0 "a" ↔ SelfContained s.db 0 "a") ∧
      ∃ found tx₁, resolve s.db 0 "a" = .ok found ∧
        s.begin.run (.counting 6) (.archiveSubtree found.node) = .ok tx₁ ∧
        (RemovesOwn s.db tx₁.db 0 "a" ↔ SelfContained s.db 0 "a")) := by
  intro s
  have hremove : removeRecursive (.counting 6) .identity s.begin 1 "a" =
      .ok { db := s.db.archiveSubtree 0 2, committed := s.committed } := by rfl
  have hok : (pack Crypto.xorStream .sample (.counting 6) .identity s.begin 1 "a").isOk = true := by
    decide +kernel
  obtain ⟨⟨tx', n⟩, hpack⟩ := exists_of_isOk hok
  constructor
  · exact (recursive_removal_own_iff (C := Crypto.xorStream) (M := .sample)).1 _ hremove
  · obtain ⟨found, tx₁, hfound, hraze, hown, -⟩ := recursive_removal_own_iff.2 tx' n hpack
    exact ⟨found, tx₁, hfound, hraze, hown⟩

/-- The same container, its leaf also placed at the root. -/
def linkedLeafRun : List Label := leafRun ++ [⟨.counting 6, 0, .request 1 (.link "a/x" "y")⟩]

/-- The placement of the leaf at the root is archived with its container. -/
theorem removal_takes_outside_placement :
    ∃ s tx', Reaches Crypto.xorStream Msgpack.refusing (fun _ _ => True) s ∧
      removeRecursive (.counting 8) .identity s.begin 1 "a" = .ok tx' ∧
      ¬ RemovesOwn s.db tx'.db (s.db.anchorOf 0 1) "a" := by
  let s := linkedLeafRun.foldl (step Crypto.xorStream Msgpack.refusing) {}
  let outside : EdgeRow := { edgeId := 6, fromId := 0, toId := 4, volumeId := 0, name := "y" }
  have hrun : Reaches Crypto.xorStream Msgpack.refusing (fun _ _ => True) s :=
    GuardedRuns.Run.foldl (show GuardedRuns.Guards _ _ _ linkedLeafRun from
      ⟨trivial, trivial, trivial, trivial, trivial, trivial⟩)
  have hfound : resolve s.db (s.db.anchorOf 0 1) "a" = .ok ⟨2, .container⟩ := by rfl
  have hparent : resolveParent s.db (s.db.anchorOf 0 1) "a" = .ok ⟨0, "a"⟩ := by rfl
  refine ⟨s, { db := s.db.archiveSubtree 0 2, committed := s.committed }, hrun, by rfl, ?_⟩
  intro h
  have hactive : outside ∈ s.db.activeEdges := by decide
  have hgone : outside ∉ (s.db.archiveSubtree 0 2).activeEdges := by decide
  refine hgone (h.kept outside hactive ?_)
  rintro ⟨found, hfound', hown⟩
  obtain rfl := Except.ok.inj (hfound'.symm.trans hfound)
  rcases hown with ⟨p, hp, hplaced⟩ | hbelow
  · obtain rfl := Except.ok.inj (hp.symm.trans hparent)
    exact absurd hplaced (by decide)
  · -- nothing is placed above the root, so it is not below `a`
    have hroot : ∀ e ∈ s.db.activeEdges, e.toId ≠ outside.fromId := by decide
    rcases ReflTransGen.cases_tail hbelow with heq | ⟨c, -, e, he, -, hto⟩
    · exact absurd heq (by decide)
    · exact hroot e he hto

end Aloelite
