import Aloelite.UnpackLoop
import Aloelite.CopiedTrees
import Aloelite.Superseding

/-! Packing a container and unpacking it again. What comes back is, at every path, what the last
placement of each name led to, with everything a pack carries of a node. -/
namespace Aloelite

open Fallible KeyedRows Relation

variable {C : Crypto} {M : Msgpack} {E E₁ E₂ : Env} {k : Cipher} {db db' : Db} {tx tx' : Tx}
  {s : Sys} {c c₁ c₂ : ConnId} {own : VolumeId → Cipher} {mount : MountId} {path : String}
  {n : NodeId} {m : MountCtx} {found : Resolved} {blob : Bytes} {nodes : List PackNode}
  {cr : Carried}

/-! ### The two requests -/

/-- What `pack` puts into the entry it makes. -/
theorem pack_blob (h : pack C M E k tx mount path = .ok (tx', n))
    (hm : requireMount E k tx.db mount true = .ok m)
    (hfound : resolve tx.db m.mountPoint path = .ok found) :
    ∃ nodes blob, packNodes C k tx.db found.node = .ok nodes ∧ encodePack M nodes = some blob ∧
      tx'.committed n = blob ∧
      (tx'.db.content? n).isSome := by
  simp only [pack, bind_eq_ok, pure_eq_ok, orRaise_eq_ok, Prod.mk.injEq] at h
  obtain ⟨m', hm', found', hfound', u, -, u₁, -, e, -, cont, -, nodes, hnodes, blob, hblob, tx₁, -,
    ⟨tx₂, packed⟩, -, tx₃, hput,
    tx₄, hlink, rfl, rfl⟩ := h
  obtain rfl := Except.ok.inj (hm.symm.trans hm')
  obtain rfl := Except.ok.inj (hfound.symm.trans hfound')
  have hfill : fillUnpacked C E k tx₂ m .entry packed (some blob) = .ok tx₃ := hput
  obtain ⟨-, -, hcontent⟩ := fillUnpacked_content hfill
  obtain ⟨⟨row, hrow, -⟩, hgiven⟩ := hcontent (by decide)
  obtain ⟨db₄, hedge, rfl⟩ := linkChild_ok hlink
  obtain ⟨src, dst, -, -, -, -, -, -, -, rfl⟩ := Db.createEdge_ok hedge
  exact ⟨nodes, blob, hnodes, hblob, hgiven, Option.isSome_iff_exists.mpr ⟨row, hrow⟩⟩

/-- What `unpack` reads, and the loop it goes through. -/
theorem unpack_loop (h : unpack C M E k tx mount path = .ok tx')
    (hm : requireMount E k tx.db mount true = .ok m)
    (hfound : resolve tx.db m.mountPoint path = .ok found) :
    ∃ blob nodes e tx₁ ids, readContentBytes C k tx.db found.node = .ok blob ∧
      decodePack M blob = .ok nodes ∧
      tx.db.getActiveParent found.node = some e ∧ tx.run E (.archiveEdge e.edgeId) = .ok tx₁ ∧
      nodes.foldlM (unpackNode C E k m e.fromId) (tx₁, []) = .ok (tx', ids) := by
  simp only [unpack, bind_eq_ok, pure_eq_ok, orRaise_eq_ok] at h
  obtain ⟨m', hm', found', hfound', u, -, u₁, -, blob, hblob, nodes, hnodes, e, he, tx₁,
    harch, t, hloop, rfl⟩ := h
  obtain rfl := Except.ok.inj (hm.symm.trans hm')
  obtain rfl := Except.ok.inj (hfound.symm.trans hfound')
  exact ⟨blob, nodes, e, tx₁, t.2, hblob, hnodes, he, harch, hloop⟩

theorem exec_pack {reply : Reply}
    (hok : (exec C M E s c (.request mount (.pack path))).2 = .ok reply) :
    ∃ tx n, pack C M E (s.conns c).cipher s.begin mount path = .ok (tx, n) ∧ reply = .node n ∧
      (exec C M E s c (.request mount (.pack path))).1 = s.commit tx := by
  cases hpack : pack C M E (s.conns c).cipher s.begin mount path with
  | error e => simp [exec, Sys.transact, Request.run, asReply, hpack] at hok
  | ok r =>
    obtain ⟨tx, n⟩ := r
    simp only [exec, Sys.transact, Request.run, asReply, hpack] at hok ⊢
    exact ⟨tx, n, rfl, (Except.ok.inj hok).symm, rfl⟩

theorem exec_unpack {reply : Reply}
    (hok : (exec C M E s c (.request mount (.unpack path))).2 = .ok reply) :
    ∃ tx, unpack C M E (s.conns c).cipher s.begin mount path = .ok tx ∧
      (exec C M E s c (.request mount (.unpack path))).1 = s.commit tx := by
  cases hunpack : unpack C M E (s.conns c).cipher s.begin mount path with
  | error e => simp [exec, Sys.transact, Request.run, noReply, hunpack] at hok
  | ok tx =>
    simp only [exec, Sys.transact, Request.run, noReply, hunpack] at hok ⊢
    exact ⟨tx, rfl, rfl⟩

/-- A careful request that seals is served with the cipher of its mount's volume. -/
theorem Careful.cipher {r : Request} (hl : Careful C M own s ⟨E, c, .request mount r⟩)
    (hr : r.seals = true) {write : Bool}
    (hm : requireMount E (s.conns c).cipher s.db mount write = .ok m) :
    (s.conns c).cipher = own m.volume := by
  obtain ⟨row, volume, hrow, -, -, rfl⟩ := requireMount_ok hm
  have hmount : s.db.mount? mount = some row := (Option.filter_eq_some_iff.mp hrow).1
  apply hl.2.1 (c, row.volumeId)
  simp only [Label.sealing, hr, if_true, hmount, Option.map_some]
  exact rfl

/-! ### What is borne is what is seen -/

/-- What a pack carries of the node at a path. -/
def Db.carriedAt (C : Crypto) (k : Cipher) (db : Db) (mountPoint : NodeId) (path : String) :
    Option Carried :=
  (resolve db mountPoint path).toOption.bind (fun found => db.carried? C k found.node)

/-- Once the file is at rest, a node that bears something shows it. -/
theorem Bears.carried? {V : VolumeId} (h : Bears s.db s.committed n cr)
    (hs : Reaches C M (Careful C M own) s) (hhome : s.db.home? n = some V) :
    s.db.carried? C (own V) n = some cr := by
  obtain ⟨r, hr, htype, hmeta, hcreated, huid, hgid, hmode⟩ := h.row
  rw [Db.carried?, hr, Option.map_some, htype, hmeta, hcreated, huid, hgid, hmode, h.xattrs]
  by_cases hcont : cr.type = .container
  · obtain ⟨hkeep, hbytes⟩ := h.bare hcont
    rw [if_pos hcont, if_pos hcont, ← hkeep, ← hbytes]
  · obtain ⟨row, hrow, hkeep, hbytes⟩ := h.leaf hcont
    rw [if_neg hcont, if_neg hcont, hrow, Option.bind_some, hkeep,
      hs.readsCommitted hhome hrow, ← hbytes]

/-! ### The new tree -/

/-- The loop over the maps of a walk makes the tree that was walked anew. -/
theorem unpackNodes_replica {V : VolumeId} {a parent : NodeId} {root : NodeRow}
    {t : Tx × List NodeId} (hs : db.Sound) (hh : db.Hierarchy)
    (hk : KeyedRows.Keyed EdgeRow.edgeId db.edges) (ha : db.Attributed)
    (hroot : db.node? a = some root)
    (hmaps : List.Forall₂ (PackedRow C k db (db.enumerateSubtree a)) (db.enumerateSubtree a) nodes)
    (hold : tx.db.Sound) (hpool : tx.db.Pooled) (hattributed : tx.db.Attributed)
    (hparent : (tx.db.node? parent).isSome) {k' : Cipher} (hV : m.volume = V)
    (hloop : nodes.foldlM (unpackNode C E k' m parent) (tx, []) = .ok t) (hnew : t.1.db.Sound) :
    ∃ made, Replica db tx.db t.1.db ⟨parent, root.name⟩ ⟨a, none, none, root.name⟩ made ∧
      Regrowing C k E V ⟨parent, root.name⟩ db tx.db made t := by
  subst hV
  have hrows : db.enumerateSubtree a = db.levelsFrom depthCap [⟨a, none, none, root.name⟩] := by
    rw [Db.enumerateSubtree, hroot]
  have htop : ∀ r ∈ db.enumerateSubtree a, r.parentId = none → r.name = root.name := by
    intro r hr hnone
    rw [hrows] at hr
    obtain ⟨i, -, hlevel⟩ := Db.mem_levelsFrom_iff.mp hr
    cases i with
    | zero => rw [List.mem_singleton.mp hlevel]
    | succ i =>
      obtain ⟨q, -, hchild⟩ := Db.mem_levelAt_succ.mp hlevel
      obtain ⟨e, -, -, rfl⟩ := Db.mem_childRows.mp hchild
      cases hnone
  have hstart : Regrowing C k E m.volume ⟨parent, root.name⟩ db tx.db [] (tx, []) :=
    Regrowing.start tx hpool hattributed
  obtain ⟨made, hmade, hgrown⟩ := hstart.run ha rfl htop hmaps hloop
  refine ⟨made, ?_, hgrown⟩
  exact
    { linked := hs.linked
      hierarchy := hh
      keyed := hk
      oldLinked := hold.linked
      newLinked := hnew.linked
      rows := hmade.trans hrows
      parentId := rfl
      edgeId := rfl
      ordered := hgrown.ordered
      fresh := hgrown.fresh
      hung := hgrown.hung
      container := hparent
      placements := hgrown.placements
      types := by
        intro x hx
        obtain ⟨cr, hcr, hbears⟩ := hgrown.bears x hx
        obtain ⟨row, hrow, rfl⟩ := Option.map_eq_some_iff.mp hcr
        rw [hbears.nodeType?, Db.nodeType?, hrow, Option.map_some] }

/-! ### There and back -/

/-- Where the last name of a path is bound, and the way to it. -/
theorem resolve_last {a : NodeId} (hlegible : Legible path)
    (hfound : resolve db a path = .ok found) (hne : found.node ≠ a) :
    splitPath path ≠ [] ∧ ∃ dir,
      descend db a .container (splitPath path).dropLast = .ok ⟨dir, .container⟩ ∧
      db.binding dir ((splitPath path).getLastD "") = some found.node ∧ db.nodeType? found.node =
        some found.type := by
  rcases (resolve_eq_ok hlegible).mp hfound with ⟨-, hnode, -⟩ | ⟨hsegs, hway⟩
  · exact absurd hnode hne
  · have hsplit : splitPath path = (splitPath path).dropLast ++ [(splitPath path).getLastD ""] := by
      rw [List.getLastD_eq_getLast?, List.getLast?_eq_some_getLast hsegs, Option.getD_some,
        List.dropLast_append_getLast]
    rw [hsplit] at hway
    exact ⟨hsegs, descend_last hway⟩

/-- A walk to a container does not pass a leaf. -/
theorem binding_on_way {a : NodeId} {seg : String} {segs before after : List String}
    {mid : Resolved} {dir : NodeId} {x : NodeId} {type : NodeType}
    (hway : descend db a .container segs = .ok ⟨dir, .container⟩)
    (hsegs : segs = before ++ seg :: after) (hmid : descend db a .container before = .ok mid)
    (hx : db.binding mid.node seg = some x) (htype : db.nodeType? x = some type) :
    type = .container := by
  rw [hsegs] at hway
  obtain ⟨t, hnext⟩ := descend_snoc hway hmid hx
  obtain ⟨-, -, -, ht⟩ := descend_last hnext
  obtain rfl : type = t := Option.some.inj (htype.symm.trans ht)
  rw [List.append_cons, descend_append] at hway
  obtain ⟨mid', hmid', hrest⟩ := hway
  obtain rfl := Except.ok.inj (hnext.symm.trans hmid')
  cases after with
  | nil =>
    obtain heq := Except.ok.inj hrest
    exact congrArg Resolved.type heq
  | cons seg' after =>
    rw [descend] at hrest
    by_contra hleaf
    rw [if_neg hleaf] at hrest
    cases hrest

/-- The way to the new tree stays open when only a leaf of its name was taken away. -/
theorem Replica.way {old db₁ : Db} {p : Parent} {top : SubtreeRow} {made : List CopiedRow}
    {a : NodeId} {segs : List String}
    (h : Replica db old db' p top made) (hl : db₁.Linked)
    (hsame : ∀ dir seg x, (dir, seg) ≠ (p.container, p.name) →
      ((dir, x, seg) ∈ db₁.placements ↔ (dir, x, seg) ∈ old.placements))
    (hleaf : db₁.binding p.container p.name = some n) (htype : db₁.nodeType? n = some .entry)
    (holder : ∀ n, (db₁.node? n).isSome → (old.node? n).isSome)
    (hpersists : ∀ n t, db₁.nodeType? n = some t → db'.nodeType? n = some t)
    (hway : descend db₁ a .container segs = .ok ⟨p.container, .container⟩) :
    descend db' a .container segs = .ok ⟨p.container, .container⟩ := by
  refine descend_along ?_ hpersists hway
  intro before seg after mid x hsegs hmid hx
  by_cases heq : (mid.node, seg) = (p.container, p.name)
  · obtain ⟨hnode, rfl⟩ := Prod.mk.inj heq
    rw [hnode] at hx
    obtain rfl := Option.some.inj (hleaf.symm.trans hx)
    have hcontainer := binding_on_way hway hsegs hmid (hnode ▸ hx) htype
    cases hcontainer
  · have hplaced := ((binding_eq_some hl).mp hx).1
    obtain ⟨e, he, hplacement⟩ := mem_placements.mp hplaced
    have hfrom : e.fromId = mid.node := (Prod.mk.inj hplacement).1
    have hthere : (db₁.node? mid.node).isSome :=
      hfrom ▸ Db.node?_isSome_of_type (hl.parent e (Db.mem_activeEdges.mp he).1)
    rw [h.binding_outside (holder mid.node hthere) heq]
    exact (binding_congr hl h.oldLinked fun x => (hsame mid.node seg x heq).symm).trans hx

theorem requireMount_same {write write' : Bool} {k' : Cipher} {m' : MountCtx}
    (hmounts : db'.mounts = db.mounts) (hvolumes : db'.volumes = db.volumes)
    (h : requireMount E₁ k db mount write = .ok m)
    (h' : requireMount E₂ k' db' mount write' = .ok m') : m' = m := by
  obtain ⟨row, volume, hrow, hvolume, -, rfl⟩ := requireMount_ok h
  obtain ⟨row', volume', hrow', hvolume', -, rfl⟩ := requireMount_ok h'
  have hmount : db.mount? mount = some row := (Option.filter_eq_some_iff.mp hrow).1
  have hmount' : db'.mount? mount = some row' := (Option.filter_eq_some_iff.mp hrow').1
  rw [Db.mount?, hmounts] at hmount'
  obtain rfl := Option.some.inj (hmount.symm.trans hmount')
  rw [Db.volume?, hvolumes] at hvolume'
  obtain rfl := Option.some.inj (hvolume.symm.trans hvolume')
  rfl

/-- Of a file where one placement was archived: the others are as they were. -/
theorem mem_placements_archiveEdge {e : EdgeRow} {now : Int}
    (hk : KeyedRows.Keyed EdgeRow.edgeId db.edges) (he : e ∈ db.activeEdges)
    {q : NodeId × NodeId × String} (hne : q ≠ e.placement) :
    q ∈ (db.archiveWhere now (fun e' => e'.edgeId = e.edgeId)).placements ↔ q ∈ db.placements := by
  rw [archiveWhere_placements, mem_placements, List.mem_map]
  constructor
  · rintro ⟨e', he', heq⟩
    exact ⟨e', List.mem_of_mem_filter he', heq⟩
  · rintro ⟨e', he', heq⟩
    refine ⟨e', List.mem_filter.mpr ⟨he', ?_⟩, heq⟩
    have hid : e'.edgeId ≠ e.edgeId := by
      intro hid
      have hsame : e' = e :=
        eq_of_key_eq hk (Db.mem_activeEdges.mp he').1 (Db.mem_activeEdges.mp he).1 hid
      exact hne (by rw [← heq, hsame])
    rw [decide_eq_false hid]
    rfl

/-- A container packed and unpacked: the path leads to a new node, below which every relative path
leads to what carries over from where the last placement of each name led to. -/
theorem unpacked_tree {s₁ s₂ : Sys} {reply : Reply} (hpath : Legible path)
    (hs : Reaches C M (Careful C M own) s)
    (hl₁ : Careful C M own s ⟨E₁, c₁, .request mount (.pack path)⟩)
    (hs₁ : s₁ = step C M s ⟨E₁, c₁, .request mount (.pack path)⟩)
    (hl₂ : Careful C M own s₁ ⟨E₂, c₂, .request mount (.unpack path)⟩)
    (hs₂ : s₂ = step C M s₁ ⟨E₂, c₂, .request mount (.unpack path)⟩)
    (hm : requireMount E₁ (s.conns c₁).cipher s.db mount true = .ok m)
    (hfound : resolve s.db m.mountPoint path = .ok found)
    (hpacked : (exec C M E₁ s c₁ (.request mount (.pack path))).2 = .ok (.node n))
    (hhit : resolve s₁.db m.mountPoint path = .ok ⟨n, .entry⟩) (hyoung : n < E₂.ids 0)
    (hdone : (exec C M E₂ s₁ c₂ (.request mount (.unpack path))).2 = .ok reply) :
    ∃ top, splitPath path ≠ [] ∧
      descend s₂.db m.mountPoint .container (splitPath path) = .ok ⟨top, found.type⟩ ∧
      ∀ segs, ((descend s₂.db top found.type segs).toOption.bind fun hit =>
        s₂.db.carried? C (own m.volume) hit.node) =
        (s.db.lastWalk depthCap found.node segs).bind (s.db.carried? C (own m.volume)) := by
  have hreach₁ : Reaches C M (Careful C M own) s₁ := hs₁ ▸ GuardedRuns.Run.snoc hs hl₁
  have hreach₂ : Reaches C M (Careful C M own) s₂ := hs₂ ▸ GuardedRuns.Run.snoc hreach₁ hl₂
  have hk₁ := hl₁.cipher rfl hm
  -- the pack
  obtain ⟨tx, n', hpack, hreply, hstate⟩ := exec_pack hpacked
  obtain rfl : n = n' := Reply.node.inj hreply
  have hdb₁ : s₁.db = tx.db := by rw [hs₁, step, hstate]; rfl
  have hgiven₁ : s₁.committed = tx.committed := by rw [hs₁, step, hstate]; rfl
  obtain ⟨m', found', e, cont, hm', hfound', hcontainer, he, hcont, -, hplaced, hbrought⟩ :=
    pack_shape hpack
  obtain rfl := Except.ok.inj (hm.symm.trans hm')
  obtain rfl := Except.ok.inj (hfound.symm.trans hfound')
  obtain ⟨nodes, blob, hnodes, hblob, hgiven, hcontent⟩ := pack_blob hpack hm hfound
  rw [hk₁] at hnodes
  have hmaps := packNodes_ok hs.attributed hnodes
  -- the unpack finds the blob again
  obtain ⟨tx₂, hunpack, hstate₂⟩ := exec_unpack hdone
  have hdb₂ : s₂.db = tx₂.db := by rw [hs₂, step, hstate₂]; rfl
  have hgiven₂ : s₂.committed = tx₂.committed := by rw [hs₂, step, hstate₂]; rfl
  obtain ⟨m₂, found₂, e₂, tx₁, hm₂, hfound₂, he₂, harch, hstrides, -⟩ :=
    unpack_ok hreach₁.sound.linked hunpack
  have hmounts : s₁.db.mounts = s.db.mounts := by rw [hdb₁]; exact hbrought.mounts
  have hvolumes : s₁.db.volumes = s.db.volumes := by rw [hdb₁]; exact hbrought.volumes
  obtain rfl : m₂ = m := requireMount_same hmounts hvolumes hm hm₂
  obtain rfl := Except.ok.inj (hhit.symm.trans hfound₂)
  have hk₂ := hl₂.cipher rfl hm₂
  obtain ⟨blob', nodes', e', tx', ids, hread, hdecode, he', harch', hloop⟩ :=
    unpack_loop hunpack hm₂ hhit
  obtain rfl := Option.some.inj (he₂.symm.trans he')
  obtain rfl := Except.ok.inj (harch.symm.trans harch')
  have hhome := hreach₁.homed.resolve hm₂ hhit
  have hread' : readContentBytes C (own m₂.volume) s₁.db n = .ok blob := by
    obtain ⟨row, hrow⟩ := Option.isSome_iff_exists.mp hcontent
    rw [hreach₁.readsCommitted hhome (hdb₁ ▸ hrow), hgiven₁, hgiven]
  obtain rfl : blob = blob' := Except.ok.inj (hread'.symm.trans (hk₂ ▸ hread))
  obtain rfl : nodes = nodes' :=
    Except.ok.inj ((decodePack_encodePack (tidy_of_maps hmaps) hblob).symm.trans hdecode)
  -- the placement that it takes away is the one that `pack` made
  have hactive : e₂ ∈ s₁.db.activeEdges := List.mem_of_find?_eq_some he₂
  have hto : e₂.toId = n := getActiveParent_toId he₂
  have hnew : s.db.node? n = none := hbrought.fresh
  have hplaced₁ : ∀ q, q ∈ s₁.db.placements ↔
      (q ∈ s.db.placements ∧ q.2.1 ∉ s.db.subtreeIds found.node) ∨
      q = (e.fromId, n, cont.name) := by rw [hdb₁]; exact hplaced
  have hone : ∀ dir seg, (dir, n, seg) ∈ s₁.db.placements → dir = e.fromId ∧ seg = cont.name := by
    intro dir seg hq
    rcases (hplaced₁ _).mp hq with ⟨hq, -⟩ | hq
    · obtain ⟨e', he', heq⟩ := mem_placements.mp hq
      have hchild := hs.sound.linked.child e' (Db.mem_activeEdges.mp he').1
      have hid : e'.toId = n := congrArg (fun q => q.2.1) heq
      rw [hid, hnew] at hchild
      cases hchild
    · exact ⟨congrArg Prod.fst hq, congrArg (fun q => q.2.2) hq⟩
  have hplace₂ : e₂.placement = (e.fromId, n, cont.name) := by
    have hmem : (e₂.fromId, n, e₂.name) ∈ s₁.db.placements := hto ▸ placement_mem_placements hactive
    obtain ⟨hfrom, hname⟩ := hone _ _ hmem
    rw [EdgeRow.placement, hfrom, hto, hname]
  have hfrom₂ : e₂.fromId = e.fromId := congrArg Prod.fst hplace₂
  rw [hfrom₂] at hloop
  -- the tree it makes
  obtain ⟨db₁, hexec, rfl⟩ := Tx.run_ok.mp harch
  obtain rfl : s₁.db.archiveWhere E₂.now (fun e' => e'.edgeId = e₂.edgeId) = db₁ :=
    Except.ok.inj hexec
  have hparent : (s₁.db.node? e.fromId).isSome :=
    hfrom₂ ▸ Db.node?_isSome_of_type
      (hreach₁.sound.linked.parent e₂ (Db.mem_activeEdges.mp hactive).1)
  obtain ⟨made, htree, hgrown⟩ :=
    unpackNodes_replica hs.sound hs.hierarchy.2 hs.edges_keyed hs.attributed hcont hmaps
    (hstrides.sound hreach₁.sound) (hstrides.pooled hreach₁.pooled)
      (Stmt.attributed hexec hreach₁.attributed) hparent rfl hloop
    (hdb₂ ▸ hreach₂.sound)
  obtain ⟨x, hx, hxtop⟩ := htree.top_mem
  -- the way to it
  have hanchor : n ≠ m₂.mountPoint := by
    rintro rfl
    have hthere := anchor_exists hs.sound.linked.anchor hm
    rw [hnew] at hthere
    cases hthere
  obtain ⟨hsegs, dir, hway, hbound, htype⟩ := resolve_last hpath hhit hanchor
  obtain ⟨rfl, hname⟩ := hone _ _ ((binding_eq_some hreach₁.sound.linked).mp hbound).1
  rw [hname] at hbound
  have hsame : ∀ dir seg y, (dir, seg) ≠ (e.fromId, cont.name) → ((dir, y, seg) ∈ s₁.db.placements ↔
      (dir, y, seg) ∈ (s₁.db.archiveWhere E₂.now
        (fun e' => e'.edgeId = e₂.edgeId)).placements) := by
    intro dir seg y hne
    refine (mem_placements_archiveEdge hreach₁.edges_keyed hactive ?_).symm
    rw [hplace₂]
    intro heq
    obtain ⟨hdir, hrest⟩ := Prod.mk.inj heq
    exact hne (by rw [hdir, (Prod.mk.inj hrest).2])
  have hyounger : ∀ y,
      (e.fromId, y, cont.name) ∈ (s₁.db.archiveWhere E₂.now
        (fun e' => e'.edgeId = e₂.edgeId)).placements →
      y ≤ x.node := by
    intro y hy
    have hold : (e.fromId, y, cont.name) ∈ s₁.db.placements :=
      (archiveWhere_settled _).placements.subset hy
    obtain ⟨i, -, hid⟩ := hgrown.minted x hx
    have hmax := ((binding_eq_some hreach₁.sound.linked).mp hbound).2 y hold
    rw [hid]
    exact hmax.trans (hyoung.le.trans (E₂.ids_strictMono.monotone (Nat.zero_le i)))
  have hopen := htree.way hreach₁.sound.linked hsame hbound htype (fun _ hn => hn)
    (fun _ _ hn => nodeType?_persists hgrown.persists hn) hway
  have hdest := htree.descend_destination hsegs hname.symm hopen hyounger hx hxtop
      (resolve_nodeType hfound)
  have hshown : ∀ y ∈ made, s₂.db.carried? C (own m₂.volume) y.node =
      s.db.carried? C (own m₂.volume) y.row.nodeId := by
    intro y hy
    obtain ⟨cr, hcr, hbears⟩ := hgrown.bears y hy
    have hbears₂ : Bears s₂.db s₂.committed y.node cr := by
      rw [hdb₂, hgiven₂]
      exact hbears
    rw [hcr]
    exact hbears₂.carried? hreach₂ (hdb₂ ▸ hgrown.homes y hy)
  have htop : s.db.nodeType? x.row.nodeId = some found.type := by
    rw [hxtop]
    exact resolve_nodeType hfound
  refine ⟨x.node, hsegs, hdb₂ ▸ hdest, ?_⟩
  intro segs
  have hmade : ((descend tx₂.db x.node found.type segs).toOption.bind fun hit =>
    s₂.db.carried? C (own m₂.volume) hit.node) =
      (s.db.lastWalk depthCap x.row.nodeId segs).bind (s.db.carried? C (own m₂.volume)) :=
    htree.descend_new hshown hx (hxtop ▸ List.mem_singleton_self _ : x.row ∈ s.db.levelAt _ 0)
      (Nat.zero_add _) htop
  rw [← hdb₂, hxtop] at hmade
  exact hmade

/-- A container is packed and the entry unpacked. When the path leads to the entry in between
and ids go up, the tree at the path shows afterwards, at every relative path, what the last
placement of each name led to, to a depth of 256 levels: the same types, bytes, metadata,
owners, modes, attributes, retention policies and creation times. -/
theorem pack_unpack_shows_last {s₁ s₂ : Sys} {reply : Reply} (hs : Reaches C M (Careful C M own) s)
    (hl₁ : Careful C M own s ⟨E₁, c₁, .request mount (.pack path)⟩)
    (hs₁ : s₁ = step C M s ⟨E₁, c₁, .request mount (.pack path)⟩)
    (hl₂ : Careful C M own s₁ ⟨E₂, c₂, .request mount (.unpack path)⟩)
    (hs₂ : s₂ = step C M s₁ ⟨E₂, c₂, .request mount (.unpack path)⟩)
    (hm : requireMount E₁ (s.conns c₁).cipher s.db mount true = .ok m)
    (hfound : resolve s.db m.mountPoint path = .ok found)
    (hpacked : (exec C M E₁ s c₁ (.request mount (.pack path))).2 = .ok (.node n))
    (hhit : resolve s₁.db m.mountPoint path = .ok ⟨n, .entry⟩) (hyoung : n < E₂.ids 0)
    (hdone : (exec C M E₂ s₁ c₂ (.request mount (.unpack path))).2 = .ok reply)
    (hpath : Legible path) {rest : String}
    (hrest : Legible rest) : s₂.db.carriedAt C (own m.volume) m.mountPoint (path ++ "/" ++ rest) =
      (s.db.lastWalk depthCap found.node (splitPath rest)).bind
        (s.db.carried? C (own m.volume)) := by
  obtain ⟨top, hsegs, hdest, hbelow⟩ :=
    unpacked_tree hpath hs hl₁ hs₁ hl₂ hs₂ hm hfound hpacked hhit hyoung hdone
  rw [Db.carriedAt, resolve_below_walked hpath hrest hsegs hdest]
  exact hbelow (splitPath rest)

/-- The container of `shadowRun`, as `pack` collects it. -/
def shadowNodes : List PackNode :=
  [{ p := -1, t := "container", n := "a", c := some 0, m := some 0 },
    { p := 0, t := "entry", n := "g", c := some 0, m := some 0, d := some [2] },
    { p := 0, t := "entry", n := "g", c := some 0, m := some 0, d := some [1] }]

def shadowBlob : Bytes :=
  [131, 163, 102, 109, 116, 171, 97, 108, 111, 101, 102, 115, 46, 112, 97, 99, 107, 163, 118, 101,
    114, 2, 165, 110, 111, 100,
    101, 115, 147, 133, 161, 112, 255, 161, 116, 169, 99, 111, 110, 116, 97, 105, 110, 101, 114,
    161, 110, 161, 97, 161, 99, 0,
    161, 109, 0, 134, 161, 112, 0, 161, 116, 165, 101, 110, 116, 114, 121, 161, 110, 161, 103, 161,
    99, 0, 161, 109, 0, 161, 100,
    196, 1, 2, 134, 161, 112, 0, 161, 116, 165, 101, 110, 116, 114, 121, 161, 110, 161, 103, 161,
    99, 0, 161, 109, 0, 161, 100,
    196, 1, 1]

/-- The younger file was seen, the one moved onto its name comes back. -/
theorem pack_unpack_shows_last_shadowed : ∃ s s₂,
    Reaches Crypto.xorStream (.knowing (packDocument shadowNodes) shadowBlob)
      (Careful Crypto.xorStream (.knowing (packDocument shadowNodes) shadowBlob)
        (fun _ => .identity)) s ∧
    s₂ = step Crypto.xorStream (.knowing (packDocument shadowNodes) shadowBlob)
      (step Crypto.xorStream (.knowing (packDocument shadowNodes) shadowBlob) s ⟨.counting 9, 0,
        .request 1 (.pack "a")⟩)
      ⟨.counting 20, 0, .request 1 (.unpack "a")⟩ ∧
    (s.db.carriedAt Crypto.xorStream .identity 0 "a/g").map Carried.bytes = some (.ok [2]) ∧
    (s₂.db.carriedAt Crypto.xorStream .identity 0 ("a" ++ "/" ++ "g")).map Carried.bytes =
      some (.ok [1]) := by
  let M : Msgpack := .knowing (packDocument shadowNodes) shadowBlob
  have hguards : GuardedRuns.Guards (step Crypto.xorStream M)
      (Careful Crypto.xorStream M (fun _ => .identity)) {} shadowRun := by
    decide +kernel
  obtain ⟨s, hs⟩ : ∃ s, s = shadowRun.foldl (step Crypto.xorStream M) {} := ⟨_, rfl⟩
  have hreach : Reaches Crypto.xorStream M (Careful Crypto.xorStream M (fun _ => .identity)) s :=
    hs ▸ reaches_foldl hguards
  have hl₁ : Careful Crypto.xorStream M (fun _ => .identity) s ⟨.counting 9, 0,
      .request 1 (.pack "a")⟩ := by
    rw [hs]
    decide +kernel
  have hl₂ : Careful Crypto.xorStream M (fun _ => .identity)
      (step Crypto.xorStream M s ⟨.counting 9, 0, .request 1 (.pack "a")⟩)
      ⟨.counting 20, 0, .request 1 (.unpack "a")⟩ := by
    rw [hs]
    decide +kernel
  have hm : requireMount (.counting 9) (s.conns 0).cipher s.db 1 true = .ok ⟨1, 0, 0, .none⟩ := by
    rw [hs]
    decide +kernel
  have hfound : resolve s.db 0 "a" = .ok ⟨2, .container⟩ := by
    rw [hs]
    decide +kernel
  have hpacked : (exec Crypto.xorStream M (.counting 9) s 0 (.request 1 (.pack "a"))).2 =
      .ok (.node 9) := by
    rw [hs]
    decide +kernel
  have hhit : resolve (step Crypto.xorStream M s ⟨.counting 9, 0, .request 1 (.pack "a")⟩).db 0
      "a" = .ok ⟨9, .entry⟩ := by
    rw [hs]
    decide +kernel
  have hdone : (exec Crypto.xorStream M (.counting 20)
      (step Crypto.xorStream M s ⟨.counting 9, 0, .request 1 (.pack "a")⟩) 0
      (.request 1 (.unpack "a"))).2 = .ok .done := by
    rw [hs]
    decide +kernel
  have hback := pack_unpack_shows_last hreach hl₁ rfl hl₂ rfl hm hfound hpacked hhit
      (by decide) hdone (by decide +kernel)
    (show Legible "g" by decide +kernel)
  refine ⟨s, _, hreach, rfl, ?_, ?_⟩
  · rw [hs]
    decide +kernel
  · rw [hback, hs]
    decide +kernel

/-- So nothing is lost where the last placement of each name is the visible one and nothing lies
deeper than 256 levels. -/
theorem pack_unpack_faithful {s₁ s₂ : Sys} {reply : Reply} (hs : Reaches C M (Careful C M own) s)
    (hl₁ : Careful C M own s ⟨E₁, c₁, .request mount (.pack path)⟩)
    (hs₁ : s₁ = step C M s ⟨E₁, c₁, .request mount (.pack path)⟩)
    (hl₂ : Careful C M own s₁ ⟨E₂, c₂, .request mount (.unpack path)⟩)
    (hs₂ : s₂ = step C M s₁ ⟨E₂, c₂, .request mount (.unpack path)⟩)
    (hm : requireMount E₁ (s.conns c₁).cipher s.db mount true = .ok m)
    (hfound : resolve s.db m.mountPoint path = .ok found)
    (hpacked : (exec C M E₁ s c₁ (.request mount (.pack path))).2 = .ok (.node n))
    (hhit : resolve s₁.db m.mountPoint path = .ok ⟨n, .entry⟩) (hyoung : n < E₂.ids 0)
    (hdone : (exec C M E₂ s₁ c₂ (.request mount (.unpack path))).2 = .ok reply)
    (hvisible : s.db.LastVisible found.node) (hpath : Legible path) {rest : String}
    (hrest : Legible rest) :
    s₂.db.carriedAt C (own m.volume) m.mountPoint (path ++ "/" ++ rest) =
      s.db.carriedAt C (own m.volume) m.mountPoint (path ++ "/" ++ rest) := by
  have hl := hs.sound.linked
  obtain ⟨top, hsegs, hdest, hbelow⟩ :=
    unpacked_tree hpath hs hl₁ hs₁ hl₂ hs₂ hm hfound hpacked hhit hyoung hdone
  rw [Db.carriedAt, resolve_below_walked hpath hrest hsegs hdest, hbelow, Db.carriedAt,
    resolve_below_found hpath hrest hl hfound]
  exact (hvisible.descend hl (ForestOrder.Leads.refl _) (Nat.zero_add _)
    (resolve_nodeType hfound)).symm

/-- A container with one file that has an owner, a mode, metadata, an attribute and a retention
policy. -/
def ownedRun : List Label := leafRun ++
  [⟨.counting 6, 0, .request 1 (.setOwner "a/x" (some 7) none (some 0o640))⟩,
    ⟨.counting 7, 0, .request 1 (.setMetadata "a/x" ⟨[("k", "v")], by decide⟩)⟩,
    ⟨.counting 8, 0, .request 1 (.setXattr "a/x" "user.k" [9])⟩,
    ⟨.counting 9, 0, .request 1 (.setRetention "a/x" (some 3))⟩]

def ownedNodes : List PackNode :=
  [{ p := -1, t := "container", n := "a", c := some 0, m := some 0 },
    { p := 0, t := "entry", n := "x", c := some 0, m := some 0, u := some 7, o := some 0o640,
      x := some [(.str "k", .str "v")],
      xa := some [("user.k", [9])], rk := some 3, d := some [7] }]

def ownedBlob : Bytes :=
  [131, 163, 102, 109, 116, 171, 97, 108, 111, 101, 102, 115, 46, 112, 97, 99, 107, 163, 118, 101,
    114, 2, 165, 110, 111, 100,
    101, 115, 146, 133, 161, 112, 255, 161, 116, 169, 99, 111, 110, 116, 97, 105, 110, 101, 114,
    161, 110, 161, 97, 161, 99, 0,
    161, 109, 0, 139, 161, 112, 0, 161, 116, 165, 101, 110, 116, 114, 121, 161, 110, 161, 120, 161,
    99, 0, 161, 109, 0, 161, 117,
    7, 161, 111, 205, 1, 160, 161, 120, 129, 161, 107, 161, 118, 162, 120, 97, 129, 166, 117, 115,
    101, 114, 46, 107, 196, 1, 9,
    162, 114, 107, 3, 161, 100, 196, 1, 7]

theorem pack_unpack_faithful_owned : ∃ s s₂,
    Reaches Crypto.xorStream (.knowing (packDocument ownedNodes) ownedBlob)
      (Careful Crypto.xorStream (.knowing (packDocument ownedNodes) ownedBlob) (fun _ => .identity))
        s ∧
    s₂ = step Crypto.xorStream (.knowing (packDocument ownedNodes) ownedBlob)
      (step Crypto.xorStream (.knowing (packDocument ownedNodes) ownedBlob) s ⟨.counting 10, 0,
        .request 1 (.pack "a")⟩)
      ⟨.counting 20, 0, .request 1 (.unpack "a")⟩ ∧
    s₂.db.carriedAt Crypto.xorStream .identity 0 ("a" ++ "/" ++ "x") =
      s.db.carriedAt Crypto.xorStream .identity 0 ("a" ++ "/" ++ "x") := by
  let M : Msgpack := .knowing (packDocument ownedNodes) ownedBlob
  have hguards : GuardedRuns.Guards (step Crypto.xorStream M)
      (Careful Crypto.xorStream M (fun _ => .identity)) {} ownedRun := by
    decide +kernel
  obtain ⟨s, hs⟩ : ∃ s, s = ownedRun.foldl (step Crypto.xorStream M) {} := ⟨_, rfl⟩
  have hreach : Reaches Crypto.xorStream M (Careful Crypto.xorStream M (fun _ => .identity)) s :=
    hs ▸ reaches_foldl hguards
  have hl₁ : Careful Crypto.xorStream M (fun _ => .identity) s ⟨.counting 10, 0,
      .request 1 (.pack "a")⟩ := by
    rw [hs]
    decide +kernel
  have hl₂ : Careful Crypto.xorStream M (fun _ => .identity)
      (step Crypto.xorStream M s ⟨.counting 10, 0, .request 1 (.pack "a")⟩)
      ⟨.counting 20, 0, .request 1 (.unpack "a")⟩ := by
    rw [hs]
    decide +kernel
  have hm : requireMount (.counting 10) (s.conns 0).cipher s.db 1 true = .ok ⟨1, 0, 0, .none⟩ := by
    rw [hs]
    decide +kernel
  have hfound : resolve s.db 0 "a" = .ok ⟨2, .container⟩ := by
    rw [hs]
    decide +kernel
  have hpacked : (exec Crypto.xorStream M (.counting 10) s 0 (.request 1 (.pack "a"))).2 =
      .ok (.node 10) := by
    rw [hs]
    decide +kernel
  have hhit : resolve (step Crypto.xorStream M s ⟨.counting 10, 0, .request 1 (.pack "a")⟩).db 0
      "a" = .ok ⟨10, .entry⟩ := by
    rw [hs]
    decide +kernel
  have hdone : (exec Crypto.xorStream M (.counting 20)
      (step Crypto.xorStream M s ⟨.counting 10, 0, .request 1 (.pack "a")⟩) 0
      (.request 1 (.unpack "a"))).2 = .ok .done := by
    rw [hs]
    decide +kernel
  have hedges : s.db.activeEdges = [⟨3, 0, 2, 0, false, "a"⟩, ⟨5, 2, 4, 0, false, "x"⟩] := by
    rw [hs]
    decide +kernel
  have hvisible : s.db.LastVisible 2 := by
    apply lastVisible_of_ascending hreach.sound.linked
    · rw [hedges]
      decide
    · rw [hedges]
      decide
  exact ⟨s, _, hreach, rfl, pack_unpack_faithful hreach hl₁ rfl hl₂ rfl hm hfound hpacked hhit
    (by decide) hdone hvisible
    (by decide +kernel) (show Legible "x" by decide +kernel)⟩

end Aloelite
