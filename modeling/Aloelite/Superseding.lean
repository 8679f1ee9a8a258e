import Aloelite.Containment
import Aloelite.FuseBirths
import Aloelite.SinglePlaces
import Aloelite.Unpacking

/-! What `unpack` and `pack` supersede. The path is resolved to a node, and the placement
is then looked up from the node alone: for a leaf any of its placements, for a container
the only one. -/
namespace Aloelite

open Fallible KeyedRows Relation

variable {C : Crypto} {M : Msgpack} {E : Env} {k : Cipher} {now : Int} {db db' : Db} {tx tx' : Tx}
  {s : Sys} {conn : ConnId} {mount : MountId} {path : String} {a c n root : NodeId}
  {type : NodeType} {segs : List String} {found : Resolved}

/-! ### Unpack -/

/-- The placement the path walked goes and no other; what the blob lists is there, with
its roots beside it. -/
def UnpacksInPlace (db db' : Db) (a : NodeId) (path : String) (nodes : List PackNode) : Prop :=
  ∃ p found e ids, resolveParent db a path = .ok p ∧ resolve db a path = .ok found ∧
    e ∈ db.activeEdges ∧
    Db.isPlacement p.container found.node p.name e = true ∧
    (∀ e' ∈ db.activeEdges, e' ∈ db'.activeEdges ↔ e' ≠ e) ∧ Restored db' p.container nodes ids

/-- The placement looked up for the node is the one the path walked. -/
def WalksActiveParent (db : Db) (a : NodeId) (path : String) : Prop :=
  ∃ p found e, resolveParent db a path = .ok p ∧ resolve db a path = .ok found ∧
    db.getActiveParent found.node = some e ∧ Db.isPlacement p.container found.node p.name e = true

theorem unpack_shape (hs : tx.db.Sound) (hk : KeyedRows.Keyed EdgeRow.edgeId tx.db.edges)
    (h : unpack C M E k tx mount path = .ok tx') :
    ∃ m found e ids, requireMount E k tx.db mount true = .ok m ∧
      resolve tx.db m.mountPoint path = .ok found ∧
      tx.db.getActiveParent found.node = some e ∧
      (∀ e' ∈ tx.db.activeEdges, e' ∈ tx'.db.activeEdges ↔ e' ≠ e) ∧
      Restored tx'.db e.fromId (unpackedNodes C M E k tx.db mount path) ids := by
  obtain ⟨m₀, found₀, e₀, tx₀, hm₀, hfound₀, he₀, harch₀, -, hmade⟩ := unpack_ok hs.linked h
  simp only [unpack, bind_eq_ok, pure_eq_ok, orRaise_eq_ok] at h
  obtain ⟨m, hm, found, hfound, u, -, u₁, -, blob, hblob, nodes, hnodes, e, he, tx₁,
    harch, t, hfold, rfl⟩ := h
  obtain rfl := Except.ok.inj (hm₀.symm.trans hm)
  obtain rfl := Except.ok.inj (hfound₀.symm.trans hfound)
  obtain rfl := Option.some.inj (he₀.symm.trans he)
  obtain rfl := Except.ok.inj (harch₀.symm.trans harch)
  have hread : unpackedNodes C M E k tx.db mount path = nodes := by
    simp only [unpackedNodes, hm, hfound, hblob, hnodes, ok_bind]
    rfl
  have hstart : Restored tx₀.db e₀.fromId [] [] := ⟨rfl, List.nodup_nil, fun _ _ hi => by cases hi⟩
  have hrestored : Restored t.1.db e₀.fromId ([] ++ nodes) t.2 :=
    restored_of_foldlM hstart (fun _ hid => absurd hid List.not_mem_nil) hfold
  refine ⟨m₀, found₀, e₀, t.2, hm, hfound, he, ?_, ?_⟩
  · have hactive : e₀ ∈ tx.db.activeEdges := List.mem_of_find?_eq_some he
    obtain ⟨⟨added, hadded, -⟩, -⟩ := unpackNodes_minted hfold
    obtain ⟨db₁, hexec, rfl⟩ := Tx.run_ok.mp harch
    obtain rfl := Except.ok.inj hexec
    -- the archived id is never given again
    have hretired : Retired t.1.db e₀.edgeId := by
      refine hmade.keepsIds.retired _ ⟨?_, ?_⟩
      · refine ⟨_, List.mem_map_of_mem (Db.mem_activeEdges.mp hactive).1, ?_⟩
        split <;> rfl
      · intro e' he' heq
        obtain ⟨e₁, he₁, rfl⟩ := List.mem_map.mp he'
        have hid : e₁.edgeId = e₀.edgeId := by
          rw [← heq]
          split <;> rfl
        cases harchived : e₁.archived with
        | true => simp [harchived]
        | false => simp [hid]
    intro e' he'
    constructor
    · intro hmem heq
      obtain ⟨hedge, harchived⟩ := Db.mem_activeEdges.mp hmem
      have hgone := hretired.2 e' hedge (congrArg EdgeRow.edgeId heq)
      simp [hgone] at harchived
    · intro hne
      have hid : e'.edgeId ≠ e₀.edgeId := fun heq =>
        hne (eq_of_key_eq hk (Db.mem_activeEdges.mp he').1 (Db.mem_activeEdges.mp hactive).1 heq)
      have hkept : e' ∈ (tx.db.archiveWhere E.now (fun e => e.edgeId = e₀.edgeId)).activeEdges := by
        rw [Db.activeEdges_archiveWhere, List.mem_filter]
        exact ⟨he', by simp [hid]⟩
      rw [Db.mem_activeEdges] at hkept ⊢
      rw [hadded]
      exact ⟨List.mem_append_left _ hkept.1, hkept.2⟩
  · rw [hread]
    exact hrestored

theorem unpacksInPlace_iff (hs : tx.db.Sound) (hk : KeyedRows.Keyed EdgeRow.edgeId tx.db.edges)
    (h : unpack C M E k tx mount path = .ok tx') :
    UnpacksInPlace tx.db tx'.db (tx.db.anchorOf E.now mount) path
      (unpackedNodes C M E k tx.db mount path) ↔
      WalksActiveParent tx.db (tx.db.anchorOf E.now mount) path := by
  obtain ⟨m, found, e, ids, hm, hfound, he, hkept, hrestored⟩ := unpack_shape hs hk h
  have hactive : e ∈ tx.db.activeEdges := List.mem_of_find?_eq_some he
  rw [anchorOf_eq hm]
  constructor
  · rintro ⟨p, found', e', -, hp, hfound', he', hwalked, hsame, -⟩
    obtain rfl := Except.ok.inj (hfound.symm.trans hfound')
    -- both are the placement that is gone
    have hgone : e ∉ tx'.db.activeEdges := fun hmem => (hkept e hactive).mp hmem rfl
    have heq : e = e' := by
      by_contra hne
      exact hgone ((hsame e hactive).mpr hne)
    exact ⟨p, found, e, hp, hfound, he, heq ▸ hwalked⟩
  · rintro ⟨p, found', e', hp, hfound', he', hwalked⟩
    obtain rfl := Except.ok.inj (hfound.symm.trans hfound')
    obtain rfl := Option.some.inj (he.symm.trans he')
    have hfrom : e.fromId = p.container := by
      simp only [Db.isPlacement, decide_eq_true_eq] at hwalked
      exact hwalked.1
    exact ⟨p, found, e, ids, hp, hfound, hactive, hwalked, hkept, hfrom ▸ hrestored⟩

/-! ### Pack -/

/-- The packed entry takes the container's place, and the path leads to it. -/
def PacksInPlace (db db' : Db) (a : NodeId) (path : String) (n : NodeId) : Prop :=
  ∃ p found, resolveParent db a path = .ok p ∧ resolve db a path = .ok found ∧
    (p.container, found.node, p.name) ∉ db'.placements ∧ (p.container, n, p.name) ∈ db'.placements ∧
    resolve db' a path = .ok ⟨n, .entry⟩

/-- No initial part of a way leads into the part of a subtree that the store
enumerates. -/
def ClearWay (db : Db) (a : NodeId) (segs : List String) (root : NodeId) : Prop :=
  ∀ before after mid, segs = before ++ after → before ≠ [] →
    descend db a .container before = .ok mid →
    mid.node ∉ db.subtreeIds root

/-- The path names a placement under the container's own name, the way to its parent does
not lead through what is packed, and `n` is greater than the nodes that stay placed there
under its name. -/
def StaysReachable (db : Db) (a : NodeId) (path : String) (n : NodeId) : Prop :=
  ∃ p found, resolveParent db a path = .ok p ∧ resolve db a path = .ok found ∧
    db.nodeName? found.node = some p.name ∧ ClearWay db a (splitPath path).dropLast found.node ∧
    ∀ x, (p.container, x, p.name) ∈ db.placements → x ∉ db.subtreeIds found.node → x < n

/-- Where containers are placed once, two walks of one length to one container are the
same; if the second file has no placement of the subtree, neither walk enters it. -/
theorem clearWay_of_walks (ho : db.SinglyPlaced) (hl : db.Linked) (hl' : db'.Linked)
    (hkept : ∀ q ∈ db'.placements, db.nodeType? q.2.1 = some .container →
      q ∈ db.placements ∧ q.2.1 ∉ db.subtreeIds root)
    (h : descend db a .container segs = .ok ⟨c, .container⟩)
    (h' : descend db' a .container segs = .ok ⟨c, .container⟩) : ClearWay db a segs root := by
  induction segs using List.reverseRecOn generalizing c with
  | nil =>
    intro before after mid heq hne
    exact absurd (List.append_eq_nil_iff.mp heq.symm).1 hne
  | append_singleton init seg ih =>
    obtain ⟨mid, hmid, hbound, htype⟩ := descend_last h
    obtain ⟨mid', hmid', hbound', -⟩ := descend_last h'
    have hplaced := ((binding_eq_some hl).mp hbound).1
    obtain ⟨hplaced', hout⟩ := hkept _ ((binding_eq_some hl').mp hbound').1 htype
    have hsame := SinglyPlaced.same ho htype (mem_placesOf.mpr ⟨hplaced, rfl⟩)
        (mem_placesOf.mpr ⟨hplaced', rfl⟩)
    obtain rfl : mid = mid' := congrArg Prod.fst hsame
    have hclear := ih hmid hmid'
    intro before after hit heq hne hhit
    rcases List.eq_nil_or_concat after with rfl | ⟨after', x, rfl⟩
    · rw [List.append_nil] at heq
      rw [heq, hhit] at h
      rw [Except.ok.inj h]
      exact hout
    · rw [List.concat_eq_append, ← List.append_assoc] at heq
      exact hclear before after' hit (List.append_inj_left' heq rfl) hne hhit

theorem mem_placements_archiveSubtree {q : NodeId × NodeId × String} :
    q ∈ (db.archiveSubtree now root).placements ↔ q ∈ db.placements ∧
      q.2.1 ∉ db.subtreeIds root := by
  simp only [mem_placements]
  constructor
  · rintro ⟨e, he, rfl⟩
    obtain ⟨hactive, hout⟩ := mem_activeEdges_archiveSubtree.mp he
    exact ⟨⟨e, hactive, rfl⟩, hout⟩
  · rintro ⟨⟨e, he, rfl⟩, hout⟩
    exact ⟨e, mem_activeEdges_archiveSubtree.mpr ⟨he, hout⟩, rfl⟩

/-- What `pack` does to the placements and the nodes. -/
theorem pack_shape (h : pack C M E k tx mount path = .ok (tx', n)) :
    ∃ m found e cont, requireMount E k tx.db mount true = .ok m ∧
      resolve tx.db m.mountPoint path = .ok found ∧
      found.type = .container ∧ tx.db.getActiveParent found.node = some e ∧
        tx.db.node? found.node = some cont ∧
      n = E.ids tx.idCount ∧
      (∀ q, q ∈ tx'.db.placements ↔
        (q ∈ tx.db.placements ∧ q.2.1 ∉ tx.db.subtreeIds found.node) ∨
          q = (e.fromId, n, cont.name)) ∧
      Brought .entry n tx.db tx'.db := by
  simp only [pack, bind_eq_ok, pure_eq_ok, orRaise_eq_ok, Prod.mk.injEq] at h
  obtain ⟨m, hm, found, hfound, u, hcontainer, u₁, -, e, he, cont, hcont, nodes, -, blob, -, tx₁,
    hraze,
    ⟨tx₂, packed⟩, hnew, tx₃, hput, tx₄, hlink, rfl, rfl⟩ := h
  have htype : found.type = .container := by simpa using hcontainer
  have hborn := birth_born hnew (putInitialContent_steps hput) hlink
  have hbrought := birth_brought hnew (putInitialContent_steps hput) hlink
  obtain ⟨hid, -⟩ := newNode_ok hnew
  obtain ⟨db₁, hexec, rfl⟩ := Tx.run_ok.mp hraze
  obtain rfl := Except.ok.inj hexec
  refine ⟨m, found, e, cont, hm, hfound, htype, he, hcont, hid, ?_, hbrought.fresh, hbrought.nodes,
    hbrought.mounts,
    hbrought.volumes, hbrought.locks⟩
  intro q
  rw [hborn.placements, List.mem_append, List.mem_singleton]
  exact or_congr_left mem_placements_archiveSubtree

theorem descend_snoc {seg : String} {before after : List String} {mid : Resolved} {x : NodeId}
    (h : descend db a type (before ++ seg :: after) = .ok found)
    (hmid : descend db a type before = .ok mid) (hx : db.binding mid.node seg = some x) :
    ∃ t, descend db a type (before ++ [seg]) = .ok ⟨x, t⟩ := by
  obtain ⟨mid', hmid', hrest⟩ := descend_append.mp h
  obtain rfl := Except.ok.inj (hmid.symm.trans hmid')
  obtain ⟨hit, hhit, rfl⟩ := Option.map_eq_some_iff.mp hx
  refine ⟨hit.type, descend_append.mpr ⟨mid, hmid, ?_⟩⟩
  rw [descend] at hrest ⊢
  split at hrest
  next hcontainer =>
    rw [if_pos hcontainer, hhit]
    rfl
  next => cases hrest

/-- What is bound elsewhere than at the packed name and not packed stays bound. -/
theorem binding_packed {dir x : NodeId} {name seg : String} (hl : db.Linked) (hl' : db'.Linked)
    (hplacements : ∀ q, q ∈ db'.placements ↔
      (q ∈ db.placements ∧ q.2.1 ∉ db.subtreeIds root) ∨ q = (c, n, name))
    (hbound : db.binding dir seg = some x) (hout : x ∉ db.subtreeIds root)
    (hother : (dir, seg) ≠ (c, name)) :
    db'.binding dir seg = some x := by
  obtain ⟨hplaced, hmax⟩ := (binding_eq_some hl).mp hbound
  apply (binding_eq_some hl').mpr
  refine ⟨(hplacements _).mpr (Or.inl ⟨hplaced, hout⟩), ?_⟩
  intro y hy
  rcases (hplacements _).mp hy with ⟨hold, -⟩ | heq
  · exact hmax y hold
  · simp only [Prod.mk.injEq] at heq
    exact absurd (Prod.ext heq.1 heq.2.2) hother

theorem packsInPlace_iff (hlegible : Legible path) (hs : tx.db.Sound) (ho : tx.db.SinglyPlaced)
    (h : pack C M E k tx mount path = .ok (tx', n)) :
    PacksInPlace tx.db tx'.db (tx.db.anchorOf E.now mount) path n ↔
      StaysReachable tx.db (tx.db.anchorOf E.now mount) path (E.ids tx.idCount) := by
  obtain ⟨m, found, e, cont, hm, hfound, hcontainer, he, hcont, hn, hplacements, hbrought⟩ :=
    pack_shape h
  obtain ⟨m', hm', hstrides⟩ := pack_strides hs.linked h
  have hl := hs.linked
  have hl' := (hstrides.sound hs).linked
  rw [anchorOf_eq hm, ← hn]
  have htype : tx.db.nodeType? found.node = some .container := hcontainer ▸ resolve_nodeType hfound
  have hin := found_mem_subtreeIds hfound
  -- the container stands in one place only
  have hplace : ∀ p, resolveParent tx.db m.mountPoint path = .ok p → e.fromId = p.container := by
    intro p hp
    have hwalked := placed_of_resolve hlegible hp hfound
    have hactive : e ∈ tx.db.activeEdges := List.mem_of_find?_eq_some he
    have hto : e.toId = found.node := by simpa using List.find?_some he
    have hsame := SinglyPlaced.same ho htype
        (mem_placesOf.mpr ⟨placement_mem_placements hactive, hto⟩)
      (mem_placesOf.mpr ⟨hwalked, rfl⟩)
    exact congrArg Prod.fst hsame
  have hfresh : ∀ q ∈ tx.db.placements, q.2.1 ≠ n := by
    intro q hq heq
    have hthere := ho.there q hq
    rw [heq, Db.nodeName?, hbrought.fresh] at hthere
    cases hthere
  obtain ⟨row, hid, hrow, hnodes⟩ := hbrought.nodes
  have hnode : tx'.db.node? n = some row := by
    have hnone : lookup NodeRow.nodeId tx.db.nodes row.nodeId = none := by
      rw [hid]
      exact hbrought.fresh
    rw [Db.node?, hnodes, ← hid]
    exact lookup_append_self hnone
  -- both ways turn on which placements there are after the call: the old ones outside the subtree,
  -- and the packed entry under the container's own name
  constructor
  · rintro ⟨p, found', hp, hfound', -, hplaced, hhit⟩
    obtain rfl := Except.ok.inj (hfound.symm.trans hfound')
    have hfrom := hplace p hp
    -- the new placement is under the container's own name
    have hname : cont.name = p.name := by
      rcases (hplacements _).mp hplaced with ⟨hold, -⟩ | heq
      · exact absurd rfl (hfresh _ hold)
      · exact (congrArg (fun q : NodeId × NodeId × String => q.2.2) heq).symm
    rw [hfrom, hname] at hplacements
    obtain ⟨hne, hlast, hd⟩ := (resolveParent_eq_ok hlegible).mp hp
    -- the walk to the packed entry goes through the container's parent
    obtain ⟨mid, hmid, hbound, -⟩ : ∃ mid,
      descend tx'.db m.mountPoint .container (splitPath path).dropLast =
        .ok ⟨mid, .container⟩ ∧ tx'.db.binding mid p.name = some n ∧ tx'.db.nodeType? n =
        some .entry := by
      rcases (resolve_eq_ok hlegible).mp hhit with ⟨hnil, -⟩ | ⟨-, hwalk⟩
      · exact absurd hnil hne
      · have hsplit : splitPath path = (splitPath path).dropLast ++ [p.name] := by
          rw [hlast, List.getLastD_eq_getLast?, List.getLast?_eq_getLast_of_ne_nil hne,
            Option.getD_some,
            List.dropLast_append_getLast hne]
        rw [hsplit] at hwalk
        exact descend_last hwalk
    obtain ⟨hmem, hmax⟩ := (binding_eq_some hl').mp hbound
    obtain rfl : mid = p.container := by
      rcases (hplacements _).mp hmem with ⟨hold, -⟩ | heq
      · exact absurd rfl (hfresh _ hold)
      · exact congrArg Prod.fst heq
    have hown : tx.db.nodeName? found.node = some p.name := by
      rw [Db.nodeName?, hcont, Option.map_some, hname]
    refine ⟨p, found, hp, hfound, hown, clearWay_of_walks ho hl hl' ?_ hd hmid, ?_⟩
    · intro q hq hqtype
      rcases (hplacements q).mp hq with hold | rfl
      · exact hold
      · rw [Db.nodeType?, hbrought.fresh] at hqtype
        cases hqtype
    · intro x hx hout
      have hle := hmax x ((hplacements _).mpr (Or.inl ⟨hx, hout⟩))
      exact lt_of_le_of_ne hle (hfresh _ hx)
  -- the path goes on to lead somewhere else only by a name on the way or a greater sibling
  · rintro ⟨p, found', hp, hfound', hown, hclear, hgreatest⟩
    obtain rfl := Except.ok.inj (hfound.symm.trans hfound')
    have hfrom := hplace p hp
    have hname : cont.name = p.name := by
      rw [Db.nodeName?, hcont, Option.map_some] at hown
      exact Option.some.inj hown
    rw [hfrom, hname] at hplacements
    obtain ⟨hne, hlast, hd⟩ := (resolveParent_eq_ok hlegible).mp hp
    have hplaced : (p.container, n, p.name) ∈ tx'.db.placements := (hplacements _).mpr (Or.inr rfl)
    have hbound : tx'.db.binding p.container p.name = some n := by
      apply (binding_eq_some hl').mpr
      refine ⟨hplaced, ?_⟩
      intro x hx
      rcases (hplacements _).mp hx with ⟨hold, hout⟩ | heq
      · exact (hgreatest x hold hout).le
      · simp only [Prod.mk.injEq] at heq
        exact heq.2.1.le
    have hd' : descend tx'.db m.mountPoint .container (splitPath path).dropLast =
        .ok ⟨p.container, .container⟩ := by
      refine descend_along ?_ (fun x t => nodeType?_brought hbrought) hd
      intro before seg after mid x hsegs hmid hx
      rw [hsegs] at hd
      obtain ⟨t, hstep⟩ := descend_snoc hd hmid hx
      have hout : x ∉ tx.db.subtreeIds found.node :=
        hclear (before ++ [seg]) after ⟨x, t⟩ (by rw [hsegs, List.append_assoc]; rfl)
          (by simp) hstep
      refine binding_packed hl hl' hplacements hx hout ?_
      -- the packed name itself leads into what is packed
      intro heq
      obtain ⟨hcontainer', hseg⟩ := Prod.mk.inj heq
      obtain ⟨hit, hhit, hid, -⟩ := resolveSegment_of_resolve hlegible hp hfound
      rw [hcontainer', hseg, Db.binding, hhit, Option.map_some, hid] at hx
      exact hout (Option.some.inj hx ▸ hin)
    have hp' : resolveParent tx'.db m.mountPoint path = .ok p :=
      (resolveParent_eq_ok hlegible).mpr ⟨hne, hlast, hd'⟩
    refine ⟨p, found, hp, hfound, ?_, hplaced, ?_⟩
    · intro hmem
      rcases (hplacements _).mp hmem with ⟨-, hout⟩ | heq
      · exact hout hin
      · simp only [Prod.mk.injEq] at heq
        exact hfresh _ (placed_of_resolve hlegible hp hfound) heq.2.1
    · apply (resolve_of_parent hlegible hp').mpr
      simp only [descend, ↓reduceIte, resolveSegment_of_binding hbound hnode, hid, hrow]

/-- A successful `unpack` supersedes the placement its path walked exactly when that is
the first active one of the entry; a successful `pack` leaves its (legible) path on the
packed entry exactly when that names the container by its own name, the way there is not
packed with it and no node hidden under the name is greater than the new one. -/
theorem supersedes_walked_iff {guard : Sys → Label → Prop} (h : Reaches C M guard s) :
    (∀ s', exec C M E s conn (.request mount (.unpack path)) = (s', .ok .done) →
      (UnpacksInPlace s.db s'.db (s.db.anchorOf E.now mount) path
          (unpackedNodes C M E (s.conns conn).cipher s.db mount path) ↔
        WalksActiveParent s.db (s.db.anchorOf E.now mount) path)) ∧
    (Legible path → ∀ s' n, exec C M E s conn (.request mount (.pack path)) = (s', .ok (.node n)) →
      (PacksInPlace s.db s'.db (s.db.anchorOf E.now mount) path n ↔
        StaysReachable s.db (s.db.anchorOf E.now mount) path (E.ids 0))) := by
  constructor
  -- a call that went through committed what its body left
  · intro s' hexec
    have hrun : s.transact (noReply (unpack C M E (s.conns conn).cipher s.begin mount path))
        (fun s a => (s, a)) =
        (s', .ok .done) := hexec
    cases hbody : unpack C M E (s.conns conn).cipher s.begin mount path with
    | error err =>
      rw [hbody] at hrun
      cases congrArg Prod.snd hrun
    | ok tx' =>
      rw [hbody] at hrun
      have hdb : s'.db = tx'.db := congrArg (fun r => r.1.db) hrun.symm
      have hsound : s.begin.db.Sound := h.sound
      have hkeyed : KeyedRows.Keyed EdgeRow.edgeId s.begin.db.edges := h.edges_keyed
      rw [hdb]
      exact unpacksInPlace_iff hsound hkeyed hbody
  · intro hlegible s' n hexec
    have hrun : s.transact (asReply .node (pack C M E (s.conns conn).cipher s.begin mount path))
        (fun s a => (s, a)) =
        (s', .ok (.node n)) := hexec
    cases hbody : pack C M E (s.conns conn).cipher s.begin mount path with
    | error err =>
      rw [hbody] at hrun
      cases congrArg Prod.snd hrun
    | ok made =>
      obtain ⟨tx', n'⟩ := made
      rw [hbody] at hrun
      have hdb : s'.db = tx'.db := congrArg (fun r => r.1.db) hrun.symm
      have hreply : (Except.ok (.node n') : Except FsError Reply) = .ok (.node n) :=
        congrArg Prod.snd hrun
      obtain rfl : n' = n := by
        injection hreply with hvalue
        injection hvalue
      have hsound : s.begin.db.Sound := h.sound
      have hown : s.begin.db.SinglyPlaced := h.singlyPlaced
      rw [hdb]
      exact packsInPlace_iff hlegible hsound hown hbody

/-- An entry placed once, and a container packed where it stands. -/
theorem supersedes_walked_iff_placed_once :
    (∃ s', exec Crypto.xorStream Msgpack.sample (.counting 5)
      (holdingBlob Msgpack.sample sampleBlob) 0
        (.request 1 (.unpack "x")) = (s', .ok .done) ∧
      UnpacksInPlace (holdingBlob Msgpack.sample sampleBlob).db s'.db 0 "x" sampleNodes) ∧
    ∃ s' n, exec Crypto.xorStream Msgpack.sample (.counting 6)
      (leafRun.foldl (step Crypto.xorStream .sample) {}) 0
        (.request 1 (.pack "a")) = (s', .ok (.node n)) ∧
      PacksInPlace (leafRun.foldl (step Crypto.xorStream .sample) {}).db s'.db 0 "a" n := by
  constructor
  · have hreach := holdingBlob_reaches Msgpack.sample sampleBlob
    let e : EdgeRow := { edgeId := 4, fromId := 0, toId := 3, volumeId := 0, name := "x" }
    have hdone : exec Crypto.xorStream Msgpack.sample (.counting 5)
        (holdingBlob Msgpack.sample sampleBlob) 0
        (.request 1 (.unpack "x")) = (_, .ok .done) := Prod.ext rfl (by decide +kernel)
    refine ⟨_, hdone, ((supersedes_walked_iff hreach).1 _ hdone).mpr ?_⟩
    exact ⟨⟨0, "x"⟩, ⟨3, .entry⟩, e, by decide +kernel, by decide +kernel, by decide +kernel, rfl⟩
  · have hreach : Reaches Crypto.xorStream .sample (fun _ _ => True)
        (leafRun.foldl (step Crypto.xorStream .sample) {}) :=
      reaches_foldl ⟨trivial, trivial, trivial, trivial, trivial⟩
    have hreply : (exec Crypto.xorStream Msgpack.sample (.counting 6)
        (leafRun.foldl (step Crypto.xorStream .sample) {}) 0
        (.request 1 (.pack "a"))).2 = .ok (.node 6) := by decide +kernel
    obtain ⟨s', hdone⟩ : ∃ s', exec Crypto.xorStream Msgpack.sample (.counting 6)
        (leafRun.foldl (step Crypto.xorStream .sample) {}) 0 (.request 1 (.pack "a")) =
          (s', .ok (.node 6)) :=
      ⟨_, by rw [← hreply]⟩
    refine ⟨s', 6, hdone, ((supersedes_walked_iff hreach).2 (by decide +kernel) _ _ hdone).mpr ?_⟩
    refine ⟨⟨0, "a"⟩, ⟨2, .container⟩,
      by decide +kernel, by decide +kernel, by decide +kernel, ?_, ?_⟩
    · intro before after mid hsegs hne
      exact absurd (List.append_eq_nil_iff.mp hsegs.symm).1 hne
    · have hless : ∀ q ∈ (leafRun.foldl (step Crypto.xorStream .sample) {}).db.placements, q.2.1 <
          6 := by decide +kernel
      intro x hx _
      exact hless _ hx

/-- A packed entry in `a`, also placed in `b`. -/
def linkedBlob : Sys :=
  [⟨.counting 0, 0, .createVolume none 256 none .none⟩, ⟨.counting 1, 0, .mount { volume := 0 }⟩,
    ⟨.counting 2, 0, .request 1 (.createContainer "a")⟩,
    ⟨.counting 4, 0, .request 1 (.createContainer "b")⟩,
    ⟨.counting 6, 0, .request 1 (.createEntry "a/x" sampleBlob)⟩,
    ⟨.counting 8, 0, .request 1 (.link "a/x" "b/y")⟩].foldl (step Crypto.xorStream .sample) {}

/-- The placement in `a` goes, whichever of the two paths is unpacked. -/
theorem unpack_archives_first_placement :
    ∃ s', Reaches Crypto.xorStream .sample (fun _ _ => True) linkedBlob ∧
      exec Crypto.xorStream .sample (.counting 9) linkedBlob 0 (.request 1 (.unpack "b/y")) =
        (s', .ok .done) ∧
      ¬ UnpacksInPlace linkedBlob.db s'.db 0 "b/y" sampleNodes := by
  let first : EdgeRow := { edgeId := 7, fromId := 2, toId := 6, volumeId := 0, name := "x" }
  refine ⟨_, reaches_foldl ⟨trivial, trivial, trivial, trivial, trivial, trivial, trivial⟩,
    Prod.ext rfl (by decide +kernel), ?_⟩
  rintro ⟨p, found, e, ids, hp, hfound, he, hwalked, hkept, -⟩
  have hactive : first ∈ linkedBlob.db.activeEdges := by decide +kernel
  have hgone : first ∉ (exec Crypto.xorStream .sample (.counting 9) linkedBlob 0
      (.request 1 (.unpack "b/y"))).1.db.activeEdges := by decide +kernel
  have hp' : resolveParent linkedBlob.db 0 "b/y" = .ok ⟨4, "y"⟩ := by decide +kernel
  obtain rfl := Except.ok.inj (hp.symm.trans hp')
  have heq : first = e := by
    by_contra hne
    exact hgone ((hkept first hactive).mpr hne)
  rw [← heq] at hwalked
  simp [Db.isPlacement, first] at hwalked

end Aloelite
