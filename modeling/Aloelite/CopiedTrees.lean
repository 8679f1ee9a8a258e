import Aloelite.TreeReplica

/-! What a copied tree shows: what the last placement of each name leads to below the source. -/
namespace Aloelite

open Fallible KeyedRows ForestOrder Relation

variable {C : Crypto} {M : Msgpack} {E : Env} {k : Cipher} {db db' : Db} {tx tx' : Tx} {s : Sys}
  {c : ConnId} {mount : MountId} {src dst name seg : String} {n dir root : NodeId} {p : Parent}
  {made : List CopiedRow} {x y : CopiedRow} {top : SubtreeRow} {segs : List String} {d fuel : ℕ}
  {t : Tx × IdMap NodeId}

/-! ### Paths -/

theorem splitPath_below (path rest : String) :
    splitPath (path ++ "/" ++ rest) = splitPath path ++ splitPath rest := by
  have hchars : (path ++ "/" ++ rest).toList = path.toList ++ '/' :: rest.toList := by simp
  rw [splitPath, hchars, List.splitOn_append_cons_self, List.filter_append, List.map_append]
  rfl

/-- What a reader sees at a path. -/
def Db.seen (C : Crypto) (k : Cipher) (db : Db) (mountPoint : NodeId) (path : String) :
    Option Shown :=
  match resolve db mountPoint path with
  | .ok found => db.shown? C k found.node
  | .error _ => none

/-! ### The copies under a copy -/

/-- A copy of everything the walk from `top` lists. -/
structure CopiedTree (C : Crypto) (k : Cipher) (E : Env) (p : Parent) (db : Db) (top : SubtreeRow)
    (made : List CopiedRow) (t : Tx × IdMap NodeId) : Prop extends Cloning C k E p db made t where
  sound : db.Sound
  hierarchy : db.Hierarchy
  keyed : KeyedRows.Keyed EdgeRow.edgeId db.edges
  container : (db.node? p.container).isSome
  sound' : t.1.db.Sound
  rows : made.map CopiedRow.row = db.levelsFrom depthCap [top]
  parentId : top.parentId = none
  edgeId : top.edgeId = none

namespace CopiedTree

variable (h : CopiedTree C k E p db top made t)

include h

theorem nodeType?_copy (hx : x ∈ made) : t.1.db.nodeType? x.node = db.nodeType? x.row.nodeId := by
  have hshown := congrArg (Option.map Shown.type) (h.shown x hx)
  simp only [Db.shown?, Option.map_map] at hshown
  exact hshown

theorem replica : Replica db db t.1.db p top made where
  linked := h.sound.linked
  hierarchy := h.hierarchy
  keyed := h.keyed
  oldLinked := h.sound.linked
  newLinked := h.sound'.linked
  rows := h.rows
  parentId := h.parentId
  edgeId := h.edgeId
  ordered := h.ordered
  fresh := h.fresh
  hung := h.hung
  container := h.container
  placements := h.placements
  types _ hx := h.nodeType?_copy hx

/-- The way to the destination leads to the copy of the source's root. -/
theorem descend_destination {a : NodeId} {type : NodeType} (hlegible : Legible dst)
    (hp : resolveParent db a dst = .ok p) (hfree : db.binding p.container p.name = none)
    (hx : x ∈ made) (htop : x.row = top) (htype : db.nodeType? top.nodeId = some type) :
    descend t.1.db a .container (splitPath dst) = .ok ⟨x.node, type⟩ := by
  have hl := h.sound.linked
  obtain ⟨hne, hname, hparent⟩ := (resolveParent_eq_ok hlegible).mp hp
  refine h.replica.descend_destination hne hname ?_
    (fun m hm => absurd hm ((binding_eq_none hl).mp hfree m)) hx htop htype
  refine descend_along ?_ ?_ hparent
  · intro before seg after mid m _ _ hbound
    have hplaced := ((binding_eq_some hl).mp hbound).1
    obtain ⟨e, he, heq⟩ := mem_placements.mp hplaced
    have hfrom : e.fromId = mid.node := (Prod.mk.inj heq).1
    rw [h.replica.binding_outside ?_ ?_]
    · exact hbound
    · exact hfrom ▸ Db.node?_isSome_of_type (hl.parent e (Db.mem_activeEdges.mp he).1)
    · intro heq
      obtain ⟨hdir, rfl⟩ := Prod.mk.inj heq
      rw [hdir, hfree] at hbound
      cases hbound
  · intro m type' hm
    obtain ⟨row, hrow, htype'⟩ := Option.map_eq_some_iff.mp hm
    rw [Db.nodeType?, (h.kept m row hrow).1, Option.map_some, htype']

end CopiedTree

/-! ### A copy, as a whole -/

theorem seen_eq {a : NodeId} {path : String} :
    db.seen C k a path =
      (resolve db a path).toOption.bind (fun found => db.shown? C k found.node) := by
  rw [Db.seen]
  cases resolve db a path <;> rfl

theorem resolve_toOption {a : NodeId} {path : String} (hlegible : Legible path)
    (hne : splitPath path ≠ []) :
    (resolve db a path).toOption = (descend db a .container (splitPath path)).toOption := by
  have hresolve : ∀ found, resolve db a path = .ok found ↔
      descend db a .container (splitPath path) = .ok found := by
    intro found
    rw [resolve_eq_ok hlegible]
    exact ⟨fun h => (h.resolve_left fun hnil => hne hnil.1).2, fun h => Or.inr ⟨hne, h⟩⟩
  apply Option.ext
  intro found
  change found ∈ (resolve db a path).toOption ↔
      found ∈ (descend db a .container (splitPath path)).toOption
  rw [mem_toOption, mem_toOption, hresolve]

theorem legible_below {path rest : String} (hpath : Legible path) (hrest : Legible rest) :
    Legible (path ++ "/" ++ rest) := by
  intro seg hseg
  rw [splitPath_below, List.mem_append] at hseg
  exact hseg.elim (hpath seg) (hrest seg)

/-- A path below one that is walked goes on from where that leads. -/
theorem resolve_below_walked {a : NodeId} {path rest : String} {mid : Resolved}
    (hpath : Legible path) (hlegible : Legible rest) (hne : splitPath path ≠ [])
    (hmid : descend db a .container (splitPath path) = .ok mid) :
    (resolve db a (path ++ "/" ++ rest)).toOption =
      (descend db mid.node mid.type (splitPath rest)).toOption := by
  have hsplit := splitPath_below path rest
  rw [resolve_toOption (legible_below hpath hlegible)
    (by rw [hsplit]; exact fun h => hne (List.append_eq_nil_iff.mp h).1), hsplit]
  apply Option.ext
  intro found
  change found ∈ Except.toOption _ ↔ found ∈ Except.toOption _
  rw [mem_toOption, mem_toOption, descend_append]
  constructor
  · rintro ⟨mid', hmid', hrest⟩
    obtain rfl := Except.ok.inj (hmid.symm.trans hmid')
    exact hrest
  · exact fun hrest => ⟨mid, hmid, hrest⟩

theorem copy_copiedTree (hs : tx.db.Sound) (hh : tx.db.Hierarchy)
    (hk : KeyedRows.Keyed EdgeRow.edgeId tx.db.edges) (hf : tx.db.Filed) (hc : tx.db.Counted)
    (hpool : tx.db.Pooled) (h : copy E k tx mount src dst = .ok (tx', n)) (C : Crypto)
    (k' : Cipher) :
    ∃ ctx found p top made ids type, requireMount E k tx.db mount true = .ok ctx ∧
      resolve tx.db ctx.mountPoint src = .ok found ∧
        resolveParent tx.db ctx.mountPoint dst = .ok p ∧
      top.nodeId = found.node ∧ tx.db.nodeType? top.nodeId = some type ∧
        CopiedTree C k' E p tx.db top made (tx', ids) := by
  obtain ⟨_, -, hstrides⟩ := copy_strides hs.linked h
  obtain ⟨ctx, found, p, made, hctx, hfound, hp, hrows, ids, hmade⟩ :=
    copy_clones (C := C) (k := k') hs hf hc hpool h
  obtain ⟨row, hrow, htype⟩ := Option.map_eq_some_iff.mp (resolve_nodeType hfound)
  rw [Db.enumerateSubtree, hrow] at hrows
  have hcontainer := resolveParent_exists (anchor_exists hs.linked.anchor hctx) hp
  exact ⟨ctx, found, p, ⟨found.node, none, none, row.name⟩, made, ids, found.type, hctx, hfound, hp,
    rfl,
    resolve_nodeType hfound,
    { hmade with
      sound := hs, hierarchy := hh, keyed := hk, container := hcontainer, sound' :=
        hstrides.sound hs, rows := hrows
      parentId := rfl, edgeId := rfl }⟩

theorem binding_free {a : NodeId} (hlegible : Legible dst) (hp : resolveParent db a dst = .ok p)
    (hfree : ∀ found, resolve db a dst ≠ .ok found) :
    db.binding p.container p.name = none := by
  obtain ⟨hne, hname, hparent⟩ := (resolveParent_eq_ok hlegible).mp hp
  have hsplit : splitPath dst = (splitPath dst).dropLast ++ [p.name] := by
    rw [hname, List.getLastD_eq_getLast?, List.getLast?_eq_some_getLast hne, Option.getD_some,
      List.dropLast_append_getLast]
  cases hbound : db.binding p.container p.name with
  | none => rfl
  | some m =>
    obtain ⟨hit, hhit, -⟩ := Option.map_eq_some_iff.mp hbound
    refine absurd ((resolve_eq_ok hlegible).mpr (Or.inr ⟨hne, ?_⟩)) (hfree ⟨hit.nodeId, hit.type⟩)
    rw [hsplit, descend_append]
    refine ⟨_, hparent, ?_⟩
    rw [descend, if_pos rfl, hhit]
    rfl

/-- The tree at the destination after a copy, path by path. -/
theorem copied_seen {ctx : MountCtx} {found : Resolved}
    (hcopy : copy E k tx mount src dst = .ok (tx', n)) (hs : tx.db.Sound) (hh : tx.db.Hierarchy)
    (hk : KeyedRows.Keyed EdgeRow.edgeId tx.db.edges) (hf : tx.db.Filed) (hc : tx.db.Counted)
    (hpool : tx.db.Pooled) (hm : requireMount E k tx.db mount true = .ok ctx)
    (hsrc : resolve tx.db ctx.mountPoint src = .ok found)
    (hfree : ∀ hit, resolve tx.db ctx.mountPoint dst ≠ .ok hit) (hdst : Legible dst) (C : Crypto)
    (k' : Cipher) {rest : String} (hrest : Legible rest) :
    tx'.db.seen C k' ctx.mountPoint (dst ++ "/" ++ rest) =
      (tx.db.lastWalk depthCap found.node (splitPath rest)).bind (tx.db.shown? C k') := by
  obtain ⟨ctx', found', p, top, made, ids, type, hctx, hfound, hp, htop, htype, htree⟩ :=
    copy_copiedTree hs hh hk hf hc hpool hcopy C k'
  obtain rfl := Except.ok.inj (hm.symm.trans hctx)
  obtain rfl := Except.ok.inj (hsrc.symm.trans hfound)
  obtain ⟨x, hx, hrow⟩ := htree.replica.top_mem
  have hway := htree.descend_destination hdst hp (binding_free hdst hp hfree) hx hrow htype
  rw [seen_eq, resolve_below_walked hdst hrest (resolveParent_descends hp).1 hway, ← htop, ← hrow]
  exact htree.replica.descend_new htree.shown hx (d := 0) (hrow ▸ List.mem_singleton_self _)
    (Nat.zero_add _) (hrow ▸ htype)

/-! ### Where a copy shows what was seen -/

/-- Below a node the last placement of a name is the one that is visible, and nothing lies
deeper than the walk goes. -/
structure Db.LastVisible (db : Db) (root : NodeId) : Prop where
  last : ∀ dir name, db.Below root dir → db.binding dir name =
    (db.lastPlaced dir name).map EdgeRow.toId
  shallow : ∀ d n, ForestOrder.Leads db.Child d root n → d ≤ depthCap

/-- So where every name is placed once. -/
theorem binding_of_single (hl : db.Linked)
    (hsingle : ∀ e ∈ db.activeEdges, ∀ e' ∈ db.activeEdges, e.fromId = e'.fromId →
      e.name = e'.name → e = e') :
    db.binding dir name = (db.lastPlaced dir name).map EdgeRow.toId := by
  cases hlast : db.lastPlaced dir name with
  | none =>
    rw [Option.map_none, binding_eq_none hl]
    intro m hm
    obtain ⟨e, he, heq⟩ := mem_placements.mp hm
    obtain ⟨hfrom, -, hname⟩ : e.fromId = dir ∧ e.toId = m ∧ e.name = name := by
      simpa [EdgeRow.placement] using heq
    exact lastPlaced_eq_none hlast he hfrom hname
  | some e =>
    obtain ⟨he, hfrom, hname, -⟩ := lastPlaced_eq_some hlast
    rw [Option.map_some, binding_eq_some hl]
    refine ⟨mem_placements.mpr ⟨e, he, by rw [EdgeRow.placement, hfrom, hname]⟩, ?_⟩
    intro m hm
    obtain ⟨e', he', heq⟩ := mem_placements.mp hm
    obtain ⟨hfrom', rfl, hname'⟩ : e'.fromId = dir ∧ e'.toId = m ∧ e'.name = name := by
      simpa [EdgeRow.placement] using heq
    rw [hsingle e he e' he' (hfrom.trans hfrom'.symm) (hname.trans hname'.symm)]

theorem binding_of_leaf (hl : db.Linked) (hdir : db.nodeType? dir ≠ some .container) :
    db.binding dir name = none := by
  rw [binding_eq_none hl]
  intro m hm
  obtain ⟨e, he, heq⟩ := mem_placements.mp hm
  have hfrom : e.fromId = dir := (Prod.mk.inj heq).1
  exact hdir (hfrom ▸ hl.parent e (Db.mem_activeEdges.mp he).1)

theorem Db.LastVisible.descend {α : Type*} {f : NodeId → Option α} {type : NodeType}
    (h : db.LastVisible root) (hl : db.Linked) (hleads : ForestOrder.Leads db.Child d root n)
    (hd : d + fuel = depthCap) (htype : db.nodeType? n = some type) :
    ((descend db n type segs).toOption.bind fun found => f found.node) =
      (db.lastWalk fuel n segs).bind f := by
  induction segs generalizing d n fuel type with
  | nil =>
    cases fuel with
    | zero => rfl
    | succ fuel => rfl
  | cons seg segs ih =>
    rw [Aloelite.descend]
    by_cases hcont : type = .container
    · obtain rfl := hcont
      rw [if_pos rfl]
      cases hhit : db.resolveSegment n seg with
      | none =>
        have hnone : db.binding n seg = none := by rw [Db.binding, hhit, Option.map_none]
        cases fuel with
        | zero => rfl
        | succ fuel =>
          rw [h.last n seg (reflTransGen_iff_leads.mpr ⟨d, hleads⟩), Option.map_eq_none_iff]
            at hnone
          rw [Db.lastWalk, hnone]
          rfl
      | some hit =>
        have hbound : db.binding n seg = some hit.nodeId := by
          rw [Db.binding, hhit, Option.map_some]
        have hdeeper : ForestOrder.Leads db.Child (d + 1) root hit.nodeId :=
          hleads.snoc (Db.child_of_resolveSegment hhit).1
        cases fuel with
        | zero =>
          have := h.shallow _ _ hdeeper
          omega
        | succ fuel =>
          rw [h.last n seg (reflTransGen_iff_leads.mpr ⟨d, hleads⟩)] at hbound
          obtain ⟨e, hlast, hto⟩ := Option.map_eq_some_iff.mp hbound
          rw [Db.lastWalk, hlast, Option.bind_some, hto]
          exact ih hdeeper (by omega) (nodeType?_of_binding hhit)
    · rw [if_neg hcont]
      have hleaf : db.nodeType? n ≠ some .container := by
        rw [htype]
        exact fun heq => hcont (Option.some.inj heq)
      cases fuel with
      | zero => rfl
      | succ fuel =>
        rw [Db.lastWalk, lastPlaced_of_leaf hl hleaf]
        rfl

/-- The same from the path the source was named by. -/
theorem resolve_below_found {a : NodeId} {path rest : String} {found : Resolved}
    (hpath : Legible path)
    (hlegible : Legible rest) (hl : db.Linked)
    (hfound : resolve db a path = .ok found) : (resolve db a (path ++ "/" ++ rest)).toOption =
      (descend db found.node found.type (splitPath rest)).toOption := by
  rcases (resolve_eq_ok hpath).mp hfound with ⟨hnil, hnode, htype⟩ | ⟨hne, hmid⟩
  · have hsplit : splitPath (path ++ "/" ++ rest) = splitPath rest := by
      rw [splitPath_below, hnil, List.nil_append]
    cases hrest : splitPath rest with
    | nil =>
      have hresolve : resolve db a (path ++ "/" ++ rest) = .ok found :=
        (resolve_eq_ok (legible_below hpath hlegible)).mpr
          (Or.inl ⟨hsplit.trans hrest, hnode, htype⟩)
      rw [hresolve]
      rfl
    | cons seg segs =>
      rw [resolve_toOption (legible_below hpath hlegible)
        (by rw [hsplit, hrest]; exact List.cons_ne_nil _ _), hsplit, hrest, hnode, Aloelite.descend,
        Aloelite.descend, if_pos rfl]
      by_cases hcont : found.type = .container
      · rw [if_pos hcont]
      · have hleaf : db.nodeType? a ≠ some .container := by
          rw [Db.nodeType?, htype]
          exact fun heq => hcont (Option.some.inj heq)
        have hnone : db.resolveSegment a seg = none :=
          Option.map_eq_none_iff.mp (binding_of_leaf hl hleaf)
        rw [if_neg hcont, hnone]
        rfl
  · exact resolve_below_walked hpath hlegible hne hmid

/-! ### Copies in a run -/

theorem exec_copy {reply : Reply}
    (hok : (exec C M E s c (.request mount (.copy src dst))).2 = .ok reply) :
    ∃ tx n, copy E (s.conns c).cipher s.begin mount src dst = .ok (tx, n) ∧
      (exec C M E s c (.request mount (.copy src dst))).1.db = tx.db := by
  cases hcopy : copy E (s.conns c).cipher s.begin mount src dst with
  | error e =>
    simp [exec, Sys.transact, Request.run, asReply, hcopy] at hok
  | ok r =>
    obtain ⟨tx, n⟩ := r
    refine ⟨tx, n, rfl, ?_⟩
    simp [exec, Sys.transact, Request.run, asReply, hcopy, Sys.commit]

/-- After a copy to a free path the tree at the destination shows, at every relative path,
what the last placement of each name leads to below the source, to a depth of 256 levels. -/
theorem copy_shows_last {guard : Sys → Label → Prop} {m : MountCtx} {found : Resolved}
    {reply : Reply} (h : Reaches C M guard s)
    (hm : requireMount E (s.conns c).cipher s.db mount true = .ok m) (hdst : Legible dst)
    (hsrc : resolve s.db m.mountPoint src = .ok found)
    (hfree : ∀ hit, resolve s.db m.mountPoint dst ≠ .ok hit)
    (hok : (exec C M E s c (.request mount (.copy src dst))).2 = .ok reply) (k : Cipher)
    {rest : String} (hrest : Legible rest) :
    (exec C M E s c (.request mount (.copy src dst))).1.db.seen C k m.mountPoint
      (dst ++ "/" ++ rest) =
      (s.db.lastWalk depthCap found.node (splitPath rest)).bind (s.db.shown? C k) := by
  obtain ⟨tx, n, hcopy, hdb⟩ := exec_copy hok
  rw [hdb]
  exact copied_seen hcopy h.sound h.hierarchy.2 h.edges_keyed h.filed h.counted h.pooled hm hsrc
    hfree hdst C k hrest

/-- A file moved onto the name of a younger one. -/
def shadowRun : List Label :=
  [⟨.counting 0, 0, .createVolume none 256 none .none⟩, ⟨.counting 1, 0, .mount { volume := 0 }⟩,
    ⟨.counting 2, 0, .request 1 (.createContainer "a")⟩,
    ⟨.counting 4, 0, .request 1 (.createEntry "a/f" [1])⟩,
    ⟨.counting 6, 0, .request 1 (.createEntry "a/g" [2])⟩,
    ⟨.counting 8, 0, .request 1 (.move "a/f" "a/g")⟩]

/-- The younger file is seen at the source, the moved one in the copy. -/
theorem copy_shows_last_shadowed : ∃ s, Reaches Crypto.xorStream .sample (fun _ _ => True) s ∧
    (s.db.seen Crypto.xorStream .identity 0 "a/g").map Shown.bytes = some (.ok [2]) ∧
    ((exec Crypto.xorStream .sample (.counting 9) s 0 (.request 1 (.copy "a" "c"))).1.db.seen
      Crypto.xorStream .identity 0
      ("c" ++ "/" ++ "g")).map Shown.bytes = some (.ok [1]) := by
  have hreach : Reaches Crypto.xorStream .sample (fun _ _ => True)
      (shadowRun.foldl (step Crypto.xorStream .sample) {}) :=
    reaches_foldl ⟨trivial, trivial, trivial, trivial, trivial, trivial, trivial⟩
  obtain ⟨s, hs⟩ : ∃ s, s = shadowRun.foldl (step Crypto.xorStream .sample) {} := ⟨_, rfl⟩
  rw [← hs] at hreach
  have hm : requireMount (.counting 9) (s.conns 0).cipher s.db 1 true = .ok ⟨1, 0, 0, .none⟩ := by
    rw [hs]
    decide +kernel
  have hsrc : resolve s.db 0 "a" = .ok ⟨2, .container⟩ := by
    rw [hs]
    decide +kernel
  have hfree : resolve s.db 0 "c" = .error .notFound := by
    rw [hs]
    decide +kernel
  obtain ⟨reply, hok⟩ : ∃ reply,
    (exec Crypto.xorStream .sample (.counting 9) s 0 (.request 1 (.copy "a" "c"))).2 =
    .ok reply := by
    apply exists_of_isOk
    rw [hs]
    decide +kernel
  have hseen := copy_shows_last hreach hm (by decide +kernel) hsrc (fun hit h => by
    rw [hfree] at h; cases h) hok .identity
    (show Legible "g" by decide +kernel)
  refine ⟨s, hreach, ?_, ?_⟩
  · rw [hs]
    decide +kernel
  · rw [hseen, hs]
    decide +kernel

/-- So a copy shows what was seen at the source where the last placement of each name below
it is the visible one and nothing lies deeper than 256 levels. -/
theorem copy_faithful {guard : Sys → Label → Prop} {m : MountCtx} {found : Resolved}
    {reply : Reply} (h : Reaches C M guard s)
    (hm : requireMount E (s.conns c).cipher s.db mount true = .ok m) (hpath : Legible src)
    (hdst : Legible dst) (hsrc : resolve s.db m.mountPoint src = .ok found)
    (hfree : ∀ hit, resolve s.db m.mountPoint dst ≠ .ok hit)
    (hvisible : s.db.LastVisible found.node)
    (hok : (exec C M E s c (.request mount (.copy src dst))).2 = .ok reply) (k : Cipher)
    {rest : String} (hrest : Legible rest) :
    (exec C M E s c (.request mount (.copy src dst))).1.db.seen C k m.mountPoint
      (dst ++ "/" ++ rest) =
      s.db.seen C k m.mountPoint (src ++ "/" ++ rest) := by
  have hl := h.sound.linked
  obtain ⟨tx, n, hcopy, hdb⟩ := exec_copy hok
  have hcopied := copied_seen hcopy h.sound h.hierarchy.2 h.edges_keyed h.filed h.counted h.pooled
      hm hsrc hfree hdst C k hrest
  rw [hdb, hcopied, seen_eq, resolve_below_found hpath hrest hl hsrc]
  exact (hvisible.descend hl (ForestOrder.Leads.refl _) (Nat.zero_add _)
    (resolve_nodeType hsrc)).symm

/-- Where every placement goes to a greater id, a way down is no longer than the last id. -/
theorem leads_le_of_ascending (hup : ∀ e ∈ db.activeEdges, e.fromId < e.toId)
    (h : ForestOrder.Leads db.Child d root n) :
    d ≤ n := by
  induction d generalizing n with
  | zero => exact Nat.zero_le n
  | succ d ih =>
    obtain ⟨a, ha, e, he, rfl, rfl⟩ := leads_succ.mp h
    exact Nat.succ_le_of_lt (lt_of_le_of_lt (ih ha) (hup e he))

/-- So is what a few placements of younger nodes under older ones show. -/
theorem lastVisible_of_ascending (hl : db.Linked)
    (hsingle : ∀ e ∈ db.activeEdges, ∀ e' ∈ db.activeEdges, e.fromId = e'.fromId →
      e.name = e'.name → e = e')
    (hup : ∀ e ∈ db.activeEdges, e.fromId < e.toId ∧ e.toId ≤ depthCap) : db.LastVisible root := by
  refine ⟨fun dir name _ => binding_of_single hl hsingle, ?_⟩
  intro d n hleads
  cases d with
  | zero => exact Nat.zero_le _
  | succ d =>
    obtain ⟨a, -, e, he, -, rfl⟩ := leads_succ.mp hleads
    exact (leads_le_of_ascending (fun e he => (hup e he).1) hleads).trans (hup e he).2

/-- Files at two levels below a container. -/
def twoLevelRun : List Label :=
  leafRun ++ [⟨.counting 6, 0, .request 1 (.createContainer "a/b")⟩,
    ⟨.counting 8, 0, .request 1 (.createEntry "a/b/y" [8, 9])⟩]

/-- The container, copied into itself. -/
theorem copy_faithful_nested : ∃ s, Reaches Crypto.xorStream .sample (fun _ _ => True) s ∧
    ((exec Crypto.xorStream .sample (.counting 10) s 0 (.request 1 (.copy "a" "a/b/c"))).1.db.seen
      Crypto.xorStream .identity 0
      ("a/b/c" ++ "/" ++ "b/y")) = s.db.seen Crypto.xorStream .identity 0 ("a" ++ "/" ++ "b/y") ∧
    (s.db.seen Crypto.xorStream .identity 0 "a/b/y").map Shown.bytes = some (.ok [8, 9]) := by
  have hreach : Reaches Crypto.xorStream .sample (fun _ _ => True)
      (twoLevelRun.foldl (step Crypto.xorStream .sample) {}) :=
    reaches_foldl ⟨trivial, trivial, trivial, trivial, trivial, trivial, trivial⟩
  obtain ⟨s, hs⟩ : ∃ s, s = twoLevelRun.foldl (step Crypto.xorStream .sample) {} := ⟨_, rfl⟩
  rw [← hs] at hreach
  have hm : requireMount (.counting 10) (s.conns 0).cipher s.db 1 true = .ok ⟨1, 0, 0, .none⟩ := by
    rw [hs]
    decide +kernel
  have hsrc : resolve s.db 0 "a" = .ok ⟨2, .container⟩ := by
    rw [hs]
    decide +kernel
  have hfree : resolve s.db 0 "a/b/c" = .error .notFound := by
    rw [hs]
    decide +kernel
  obtain ⟨reply, hok⟩ : ∃ reply,
      (exec Crypto.xorStream .sample (.counting 10) s 0 (.request 1 (.copy "a" "a/b/c"))).2 =
      .ok reply := by
    apply exists_of_isOk
    rw [hs]
    decide +kernel
  have hedges : s.db.activeEdges =
      [⟨3, 0, 2, 0, false, "a"⟩, ⟨5, 2, 4, 0, false, "x"⟩, ⟨7, 2, 6, 0, false, "b"⟩,
      ⟨9, 6, 8, 0, false, "y"⟩] := by
    rw [hs]
    decide +kernel
  have hvisible : s.db.LastVisible 2 := by
    apply lastVisible_of_ascending hreach.sound.linked
    · rw [hedges]
      decide
    · rw [hedges]
      decide
  have hsame := copy_faithful hreach hm (by decide +kernel) (by decide +kernel) hsrc
    (fun hit h => by rw [hfree] at h; cases h) hvisible hok .identity
      (show Legible "b/y" by decide +kernel)
  refine ⟨s, hreach, hsame, ?_⟩
  rw [hs]
  decide +kernel

end Aloelite
