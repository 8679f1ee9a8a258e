import Aloelite.Removal

/-! What a request through a mount does to placements, against the subtree the
mount is anchored at. -/
namespace Aloelite

open Fallible KeyedRows ForestOrder Relation

variable {C : Crypto} {M : Msgpack} {E : Env} {k : Cipher} {L : License} {now : Int} {db db' : Db}
  {tx tx' : Tx} {a : NodeId} {mount : MountId} {path : String}

/-- What a chain of strides may do to the active placements: those that are gone
were detachable, those that are new sit under a host or where one was detached. -/
structure Displaces (L : License) (db db' : Db) : Prop where
  gone : ∀ e ∈ db.activeEdges, e ∈ db'.activeEdges ∨ L.detach e
  added : ∀ e ∈ db'.activeEdges, e ∈ db.activeEdges ∨ L.host e.fromId ∨
    ∃ e₀ ∈ db.activeEdges, L.detach e₀ ∧ e₀.fromId = e.fromId

theorem Displaces.refl (db : Db) : Displaces L db db :=
  ⟨fun _ he => Or.inl he, fun _ he => Or.inl he⟩

theorem Displaces.trans {db₁ : Db} (h : Displaces L db db₁) (h' : Displaces L db₁ db') :
    Displaces L db db' := by
  constructor
  · intro e he
    rcases h.gone e he with he₁ | hd
    · exact h'.gone e he₁
    · exact Or.inr hd
  · intro e he
    rcases h'.added e he with he₁ | hhost | ⟨e₁, he₁, hd, hfrom⟩
    · exact h.added e he₁
    · exact Or.inr (Or.inl hhost)
    · -- a placement renamed in the second half may have been added in the first
      rcases h.added e₁ he₁ with hold | hhost | ⟨e₀, he₀, hd₀, hfrom₀⟩
      · exact Or.inr (Or.inr ⟨e₁, hold, hd, hfrom⟩)
      · exact Or.inr (Or.inl (hfrom ▸ hhost))
      · exact Or.inr (Or.inr ⟨e₀, he₀, hd₀, hfrom₀.trans hfrom⟩)

theorem Displaces.of_edges (h : db'.edges = db.edges) : Displaces L db db' := by
  have hactive : db'.activeEdges = db.activeEdges := by rw [Db.activeEdges, h, Db.activeEdges]
  constructor
  · intro e he
    exact Or.inl (hactive ▸ he)
  · intro e he
    exact Or.inl (hactive ▸ he)

theorem displaces_archiveWhere {p : EdgeRow → Bool}
    (hp : ∀ e ∈ db.activeEdges, p e = true → L.detach e) :
    Displaces L db (db.archiveWhere now p) := by
  constructor
  · intro e he
    by_cases hpe : p e = true
    · exact Or.inr (hp e he hpe)
    · left
      rw [Db.activeEdges_archiveWhere, List.mem_filter]
      exact ⟨he, by simpa using hpe⟩
  · intro e he
    rw [Db.activeEdges_archiveWhere, List.mem_filter] at he
    exact Or.inl he.1

theorem displaces_renamePlacement {parent n : NodeId} {old name : String}
    (hp : ∀ e ∈ db.activeEdges, Db.isPlacement parent n old e = true → L.detach e) :
    Displaces L db (db.renamePlacement parent n old name) := by
  constructor
  · intro e he
    by_cases hpe : Db.isPlacement parent n old e = true
    · exact Or.inr (hp e he hpe)
    · left
      rw [Db.activeEdges_renamePlacement, List.mem_map]
      exact ⟨e, he, if_neg hpe⟩
  · intro e he
    rw [Db.activeEdges_renamePlacement, List.mem_map] at he
    obtain ⟨e₀, he₀, rfl⟩ := he
    by_cases hpe : Db.isPlacement parent n old e₀ = true
    · rw [if_pos hpe]
      exact Or.inr (Or.inr ⟨e₀, he₀, hp e₀ he₀ hpe, rfl⟩)
    · rw [if_neg hpe]
      exact Or.inl he₀

theorem displaces_append {e : EdgeRow} (hedges : db'.edges = db.edges ++ [e])
    (hhost : L.host e.fromId) : Displaces L db db' := by
  constructor
  · intro e' he'
    left
    rw [Db.activeEdges, hedges, List.filter_append]
    exact List.mem_append_left _ he'
  · intro e' he'
    rw [Db.activeEdges, hedges, List.filter_append] at he'
    rcases List.mem_append.mp he' with hold | hnew
    · exact Or.inl hold
    · have heq : e' = e := List.mem_singleton.mp (List.mem_of_mem_filter hnew)
      rw [heq]
      exact Or.inr (Or.inl hhost)

theorem Stride.displaces (h : Stride L now db db') : Displaces L db db' := by
  cases h with
  | stmt st hst hexec =>
    by_cases ht : Table.edges ∈ st.touches
    · cases st with
      | createEdge id f t v n =>
        obtain ⟨src, dst, -, -, -, -, -, -, -, rfl⟩ := Db.createEdge_ok hexec
        exact displaces_append rfl hst.2
      | archivePlacement parent n name =>
        obtain rfl := Except.ok.inj hexec
        exact displaces_archiveWhere hst
      | archiveEdge id =>
        obtain rfl := Except.ok.inj hexec
        refine displaces_archiveWhere ?_
        intro e he hid
        exact hst e he (by simpa using hid)
      | archiveSubtree root =>
        obtain rfl := Except.ok.inj hexec
        refine displaces_archiveWhere ?_
        intro e he hmem
        exact hst e he (by simpa using hmem)
      | renamePlacement parent n old name =>
        obtain rfl := Except.ok.inj hexec
        exact displaces_renamePlacement hst
      | _ => simp [Stmt.touches] at ht
    · exact Displaces.of_edges ((Stmt.exec_agreeOff hexec).edges ht)
  | birth row modifiedAt id f hhost hf hrow hfill hedge =>
    obtain ⟨-, -, -, -, -, -, -, hedges⟩ := birth_shape hrow hfill hedge
    exact displaces_append hedges hhost

theorem Strides.displaces (h : Strides L now db db') : Displaces L db db' := by
  induction h with
  | refl => exact Displaces.refl db
  | tail _ hstride ih => exact ih.trans hstride.displaces

/-! ### Placement ids -/

/-- A placement id no active placement has, and that no new one will get. -/
def Retired (db : Db) (id : EdgeId) : Prop :=
  (∃ e ∈ db.edges, e.edgeId = id) ∧ ∀ e ∈ db.edges, e.edgeId = id → e.archived = true

/-- Ids stay unique, and retired for good. -/
structure KeepsIds (db db' : Db) : Prop where
  keyed : Keyed EdgeRow.edgeId db.edges → Keyed EdgeRow.edgeId db'.edges
  retired : ∀ id, Retired db id → Retired db' id

theorem KeepsIds.refl (db : Db) : KeepsIds db db := ⟨id, fun _ => id⟩

theorem KeepsIds.trans {db₁ : Db} (h : KeepsIds db db₁) (h' : KeepsIds db₁ db') : KeepsIds db db' :=
  ⟨fun hk => h'.keyed (h.keyed hk), fun id hr => h'.retired id (h.retired id hr)⟩

/-- A change of placements in place that revives none. -/
theorem keepsIds_map {f : EdgeRow → EdgeRow} (hid : ∀ e, (f e).edgeId = e.edgeId)
    (harch : ∀ e, e.archived = true → (f e).archived = true) (h : db'.edges = db.edges.map f) :
    KeepsIds db db' := by
  constructor
  · intro hk
    rw [Keyed, h, List.map_map]
    have hcomp : EdgeRow.edgeId ∘ f = EdgeRow.edgeId := funext hid
    rw [hcomp]
    exact hk
  · rintro id ⟨⟨e, he, heq⟩, hall⟩
    rw [Retired, h]
    refine ⟨⟨f e, List.mem_map_of_mem he, (hid e).trans heq⟩, ?_⟩
    intro e' he' heq'
    obtain ⟨e₀, he₀, rfl⟩ := List.mem_map.mp he'
    exact harch e₀ (hall e₀ he₀ ((hid e₀).symm.trans heq'))

theorem keepsIds_append {e : EdgeRow} (hnew : db.edge? e.edgeId = none)
    (h : db'.edges = db.edges ++ [e]) : KeepsIds db db' := by
  constructor
  · intro hk
    rw [h]
    exact keyed_append hk hnew
  · rintro id ⟨⟨e₀, he₀, heq⟩, hall⟩
    rw [Retired, h]
    refine ⟨⟨e₀, List.mem_append_left _ he₀, heq⟩, ?_⟩
    intro e' he' heq'
    rcases List.mem_append.mp he' with hold | hlast
    · exact hall e' hold heq'
    · rw [List.mem_singleton.mp hlast] at heq'
      exact absurd (heq.trans heq'.symm) (lookup_eq_none.mp hnew e₀ he₀)

theorem keepsIds_archiveWhere (p : EdgeRow → Bool) : KeepsIds db (db.archiveWhere now p) := by
  refine keepsIds_map ?_ ?_ rfl
  · intro e
    split <;> rfl
  · intro e he
    simp [he]

theorem Stride.keepsIds (h : Stride L now db db') : KeepsIds db db' := by
  cases h with
  | stmt st hst hexec =>
    by_cases ht : Table.edges ∈ st.touches
    · cases st with
      | createEdge id f t v n =>
        obtain ⟨src, dst, -, -, hid, -, -, -, -, rfl⟩ := Db.createEdge_ok hexec
        exact keepsIds_append hid rfl
      | archivePlacement parent n name =>
        obtain rfl := Except.ok.inj hexec
        exact keepsIds_archiveWhere _
      | archiveEdge id =>
        obtain rfl := Except.ok.inj hexec
        exact keepsIds_archiveWhere _
      | archiveSubtree root =>
        obtain rfl := Except.ok.inj hexec
        exact keepsIds_archiveWhere _
      | renamePlacement parent n old name =>
        obtain rfl := Except.ok.inj hexec
        refine keepsIds_map ?_ ?_ rfl
        · intro e
          split <;> rfl
        · intro e he
          simp [he]
      | _ => simp [Stmt.touches] at ht
    · have hedges := (Stmt.exec_agreeOff hexec).edges ht
      rw [← List.map_id db.edges] at hedges
      exact keepsIds_map (fun _ => rfl) (fun _ => id) hedges
  | birth row modifiedAt id f hhost hf hrow hfill hedge =>
    obtain ⟨-, -, -, -, -, -, -, hedges⟩ := birth_shape hrow hfill hedge
    exact keepsIds_append (birth_edge_fresh hrow hfill hedge) hedges

theorem Strides.keepsIds (h : Strides L now db db') : KeepsIds db db' := by
  induction h with
  | refl => exact KeepsIds.refl db
  | tail _ hstride ih => exact ih.trans hstride.keepsIds

theorem Effect.edges_keyed {s : Sys} {op : Op} (h : Effect C E s op db) (hs : s.db.Sound)
    (hk : Keyed EdgeRow.edgeId s.db.edges) : Keyed EdgeRow.edgeId db.edges := by
  cases h with
  | strides h => exact h.keepsIds.keyed hk
  | founding h =>
    obtain ⟨-, -, -, -, -, hframe, -, -⟩ := createVolume_shape h
    rw [hframe.edges (by simp)]
    exact hk
  | prune h =>
    rw [prune_shape h hs]
    exact hk
  | pruneContent h =>
    rw [pruneContent_shape h]
    exact hk

/-- Placement ids are unique in every reachable state. -/
theorem Reaches.edges_keyed {s : Sys} {guard : Sys → Label → Prop} (h : Reaches C M guard s) :
    Keyed EdgeRow.edgeId s.db.edges := by
  have hboth : s.db.Sound ∧ Keyed EdgeRow.edgeId s.db.edges := by
    refine GuardedRuns.Run.invariant
      (P := fun s : Sys => s.db.Sound ∧ Keyed EdgeRow.edgeId s.db.edges) ?_ h ?_
    · intro s l _ hs
      exact ⟨step_sound hs.1, (exec_effect hs.1.linked).edges_keyed hs.1 hs.2⟩
    · exact ⟨empty_sound, List.nodup_nil⟩
  exact hboth.2

/-! ### Requests -/

/-- Nothing outside the subtree of the anchor changes: no placement is added,
archived or renamed whose parent is a container that stood outside it, and the
anchor's own placement stays. A container the request itself made stood nowhere. -/
structure Contained (db db' : Db) (a : NodeId) : Prop where
  added : ∀ e ∈ db'.activeEdges, e ∉ db.activeEdges →
    db.Below a e.fromId ∨ db.node? e.fromId = none
  gone : ∀ e ∈ db.activeEdges, e ∉ db'.activeEdges → db.Below a e.fromId
  anchored : Acyclic db.Child → ∀ e ∈ db.activeEdges, e.toId = a → e ∈ db'.activeEdges

/-- A request that takes placements by the node they lead to finds all of them
under containers of the anchor's subtree. -/
def Request.Inside (db : Db) (a : NodeId) : Request → Prop
  | .removeRecursive path | .pack path =>
    ∀ e ∈ db.activeEdges, razed db a path e → db.Below a e.fromId
  | .unpack path => ∀ e, pickedPlacement db a path e → db.Below a e.fromId
  | _ => True

theorem Contained.of_displaces (h : Displaces L db db')
    (hdetach : ∀ e ∈ db.activeEdges, L.detach e → db.Below a e.fromId)
    (hhost : ∀ f, L.host f → db.Below a f ∨ db.node? f = none) : Contained db db' a := by
  have hgone : ∀ e ∈ db.activeEdges, e ∉ db'.activeEdges → db.Below a e.fromId := by
    intro e he hnot
    rcases h.gone e he with hstays | hd
    · exact absurd hstays hnot
    · exact hdetach e he hd
  refine ⟨?_, hgone, ?_⟩
  · intro e he hnot
    rcases h.added e he with hold | hh | ⟨e₀, he₀, hd, hfrom⟩
    · exact absurd hold hnot
    · exact hhost e.fromId hh
    · exact Or.inl (hfrom ▸ hdetach e₀ he₀ hd)
  · intro hacyclic e he hto
    by_contra hnot
    -- a parent of the anchor below the anchor would close a cycle
    have hbelow := hgone e he hnot
    exact hacyclic a (TransGen.tail' hbelow ⟨e, he, rfl, hto⟩)

theorem pickedPlacement_unique {e e' : EdgeRow} (h : pickedPlacement db a path e)
    (h' : pickedPlacement db a path e') : e = e' := by
  obtain ⟨found, hfound, he⟩ := h
  obtain ⟨found', hfound', he'⟩ := h'
  obtain rfl := Except.ok.inj (hfound.symm.trans hfound')
  exact Option.some.inj (he.symm.trans he')

theorem mem_edges_of_picked {e : EdgeRow} (h : pickedPlacement db a path e) :
    e ∈ db.activeEdges := by
  obtain ⟨found, -, he⟩ := h
  exact List.mem_of_find?_eq_some he

/-- Every request that is inside the anchor's subtree in this sense is contained
in it. -/
theorem contained_of_inside {r : Request} (hk : Keyed EdgeRow.edgeId db.edges)
    (h : Strides (r.license db a) now db db') (hin : r.Inside db a) : Contained db db' a := by
  cases r with
  | removeRecursive path =>
    refine Contained.of_displaces h.displaces ?_ (fun _ hh => hh)
    intro e he hd
    rcases hd with hbelow | hrazed
    · exact hbelow
    · exact hin e he hrazed
  | pack path =>
    refine Contained.of_displaces h.displaces ?_ ?_
    · intro e he hd
      rcases hd with hbelow | hrazed
      · exact hbelow
      · exact hin e he hrazed
    · intro f hf
      rcases hf with hh | ⟨e, hpicked, rfl⟩
      · exact hh
      · -- the picked placement is one of those the archiving takes
        obtain ⟨found, hfound, he⟩ := hpicked
        have hactive : e ∈ db.activeEdges := List.mem_of_find?_eq_some he
        have hto : e.toId = found.node := by simpa using List.find?_some he
        exact Or.inl (hin e hactive ⟨found, hfound, hto ▸ found_mem_subtreeIds hfound⟩)
  | unpack path =>
    refine Contained.of_displaces h.displaces ?_ ?_
    · intro e he hd
      rcases hd with hbelow | ⟨e', hpicked, hid⟩
      · exact hbelow
      · have hmem : e' ∈ db.edges := (Db.mem_activeEdges.mp (mem_edges_of_picked hpicked)).1
        obtain rfl := eq_of_key_eq hk hmem (Db.mem_activeEdges.mp he).1 hid
        exact hin e' hpicked
    · intro f hf
      rcases hf with hh | ⟨e, hpicked, rfl⟩
      · exact hh
      · exact Or.inl (hin e hpicked)
  | _ => exact Contained.of_displaces h.displaces (fun _ _ hd => hd) (fun _ hh => hh)

/-- The other direction, for the three requests that take placements by node. -/
theorem inside_of_contained {r : Request} {reply : Reply} (hl : tx.db.Linked)
    (h : r.run C M E k tx mount = .ok (tx', reply))
    (hc : Contained tx.db tx'.db (tx.db.anchorOf E.now mount)) :
    r.Inside tx.db (tx.db.anchorOf E.now mount) := by
  cases r with
  | removeRecursive path =>
    simp only [Request.run, noReply, map_eq_ok, Prod.mk.injEq] at h
    obtain ⟨t, h, rfl, -⟩ := h
    obtain ⟨found, hfound, hdb⟩ := removeRecursive_ok h
    rintro e he ⟨found', hfound', hmem⟩
    obtain rfl := Except.ok.inj (hfound'.symm.trans hfound)
    refine hc.gone e he ?_
    rw [hdb]
    exact fun hstays => (mem_activeEdges_archiveSubtree.mp hstays).2 hmem
  | pack path =>
    simp only [Request.run, asReply, map_eq_ok, Prod.mk.injEq] at h
    obtain ⟨⟨t, n⟩, h, rfl, -⟩ := h
    obtain ⟨found, tx₁, hfound, hraze, e₁, hactive, hnew, -⟩ := pack_ok h
    obtain ⟨db', hexec, rfl⟩ := Tx.run_ok.mp hraze
    obtain rfl := Except.ok.inj hexec
    rintro e he ⟨found', hfound', hmem⟩
    obtain rfl := Except.ok.inj (hfound'.symm.trans hfound)
    refine hc.gone e he ?_
    show e ∉ t.db.activeEdges
    rw [hactive, List.mem_append, List.mem_singleton]
    rintro (hstays | rfl)
    · exact (mem_activeEdges_archiveSubtree.mp hstays).2 hmem
    · exact hnew he
  | unpack path =>
    simp only [Request.run, noReply, map_eq_ok, Prod.mk.injEq] at h
    obtain ⟨t, h, rfl, -⟩ := h
    obtain ⟨m, found, e₀, tx₁, hm, hfound, he₀, harch, -, hmade⟩ := unpack_ok hl h
    intro e hpicked
    have hpicked₀ : pickedPlacement tx.db (tx.db.anchorOf E.now mount) path e₀ :=
      ⟨found, by rw [anchorOf_eq hm]; exact hfound, he₀⟩
    obtain rfl := pickedPlacement_unique hpicked hpicked₀
    have hmem := mem_edges_of_picked hpicked
    refine hc.gone e hmem ?_
    intro hstays
    -- its id was retired by the first statement
    have hretired : Retired tx₁.db e.edgeId := by
      obtain ⟨db', hexec, rfl⟩ := Tx.run_ok.mp harch
      obtain rfl := Except.ok.inj hexec
      refine ⟨⟨_, List.mem_map_of_mem (Db.mem_activeEdges.mp hmem).1, ?_⟩, ?_⟩
      · split <;> rfl
      · intro e' he' hid
        obtain ⟨e'', -, rfl⟩ := List.mem_map.mp he'
        split at hid
        · rename_i hcond
          rw [if_pos hcond]
        · rename_i hcond
          rw [if_neg hcond]
          simpa [hid] using hcond
    have hgone := (hmade.keepsIds.retired _ hretired).2 e (Db.mem_activeEdges.mp hstays).1 rfl
    rw [(Db.mem_activeEdges.mp hstays).2] at hgone
    cases hgone
  | _ => trivial

/-- In every reachable state, a request through a mount stays inside the subtree
of its anchor exactly when, for the three requests that take placements by the
node they lead to, those placements lie inside it; all others always do. -/
theorem request_contained_iff {s : Sys} {guard : Sys → Label → Prop} {r : Request} {reply : Reply}
    (hs : Reaches C M guard s) (h : r.run C M E k s.begin mount = .ok (tx, reply)) :
    Contained s.db tx.db (s.db.anchorOf E.now mount) ↔
      r.Inside s.db (s.db.anchorOf E.now mount) := by
  constructor
  · exact inside_of_contained hs.sound.linked h
  · intro hin
    obtain ⟨m, w, hm, hstrides⟩ := request_strides hs.sound.linked h
    have ha : s.db.anchorOf E.now mount = m.mountPoint := anchorOf_eq hm
    rw [ha] at hin ⊢
    exact contained_of_inside hs.edges_keyed hstrides hin

/-- A second mount, anchored at the container `a`. -/
def subtreeMountRun : List Label :=
  leafRun ++ [⟨.counting 6, 0, .mount { volume := 0, path := "a", allowOverlap := true }⟩]

theorem reaches_subtreeMountRun :
    Reaches Crypto.xorStream Msgpack.refusing (fun _ _ => True)
      (subtreeMountRun.foldl (step Crypto.xorStream Msgpack.refusing) {}) :=
  GuardedRuns.Run.foldl (show GuardedRuns.Guards _ _ _ subtreeMountRun from
    ⟨trivial, trivial, trivial, trivial, trivial, trivial⟩)

/-- Removing the leaf through it. -/
theorem request_contained_iff_leaf :
    (let s := subtreeMountRun.foldl (step Crypto.xorStream Msgpack.refusing) {}
     Contained s.db (s.db.archiveSubtree 0 4) (s.db.anchorOf 0 6) ↔
      (Request.removeRecursive "x").Inside s.db (s.db.anchorOf 0 6)) := by
  intro s
  have hrun : (Request.removeRecursive "x").run Crypto.xorStream .refusing (.counting 7) .identity
      s.begin 6 = .ok ({ db := s.db.archiveSubtree 0 4, committed := s.committed }, .done) := by rfl
  exact request_contained_iff reaches_subtreeMountRun hrun

/-- Removing its own root through it archives the placement of `a` under the
volume's root. -/
theorem removal_of_mount_point_escapes :
    ∃ s tx reply, Reaches Crypto.xorStream Msgpack.refusing (fun _ _ => True) s ∧
      (Request.removeRecursive "/").run Crypto.xorStream .refusing
        (.counting 7) .identity s.begin 6 =
        .ok (tx, reply) ∧ ¬ Contained s.db tx.db (s.db.anchorOf 0 6) := by
  let s := subtreeMountRun.foldl (step Crypto.xorStream Msgpack.refusing) {}
  let own : EdgeRow := { edgeId := 3, fromId := 0, toId := 2, volumeId := 0, name := "a" }
  have hanchor : s.db.anchorOf 0 6 = 2 := by rfl
  refine ⟨s, { db := s.db.archiveSubtree 0 2, committed := s.committed }, .done,
    reaches_subtreeMountRun, by rfl, ?_⟩
  intro h
  have hactive : own ∈ s.db.activeEdges := by decide
  have hgone : own ∉ (s.db.archiveSubtree 0 2).activeEdges := by decide
  have hbelow := h.gone own hactive hgone
  rw [hanchor] at hbelow
  -- nothing is placed above the volume's root, so it is not below `a`
  have hroot : ∀ e ∈ s.db.activeEdges, e.toId ≠ own.fromId := by decide
  rcases ReflTransGen.cases_tail hbelow with heq | ⟨c, -, e, he, -, hto⟩
  · exact absurd heq (by decide)
  · exact hroot e he hto

end Aloelite
