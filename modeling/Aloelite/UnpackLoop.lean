import Aloelite.PackWalk
import Aloelite.TreeReplica
import Aloelite.OtherVolumes
import Aloelite.KeptContents

/-! What the loop of `unpack` makes of the maps `pack` wrote: for each row of the walk a new node
under the one made for the row's parent, with everything that was carried of the row's node. -/
namespace Aloelite

open Fallible KeyedRows Relation

variable {C : Crypto} {M : Msgpack} {E : Env} {k : Cipher} {now : Int} {db db' old : Db}
  {tx tx' : Tx} {n parent : NodeId} {V : VolumeId} {m : MountCtx} {p : Parent} {type : NodeType}
  {pn : PackNode} {c : Carried} {ids : List NodeId} {rows rest : List SubtreeRow} {r : SubtreeRow}
  {nodes : List PackNode} {made : List CopiedRow} {t : Tx × List NodeId}
  {given given' : NodeId → Bytes}

/-! ### A node that bears what was carried -/

/-- A node of a file has all that a pack carried; `given` says what its bytes are. -/
structure Bears (db : Db) (given : NodeId → Bytes) (n : NodeId) (c : Carried) : Prop where
  row : ∃ r, db.node? n = some r ∧ r.type = c.type ∧ r.metadata = c.metadata ∧
    r.createdAt = c.createdAt ∧ r.uid = c.uid ∧
    r.gid = c.gid ∧ r.mode.map (· % 4096) = c.mode
  xattrs : xattrItems db n = c.xattrs
  bare : c.type = .container → c.retentionKeep = none ∧ c.bytes = .ok []
  leaf : c.type ≠ .container → ∃ row, db.content? n = some row ∧
    row.retentionKeep = c.retentionKeep ∧ c.bytes = .ok (given n)

theorem Bears.nodeType? (h : Bears db given n c) : db.nodeType? n = some c.type := by
  obtain ⟨r, hr, htype, -⟩ := h.row
  rw [Db.nodeType?, hr, Option.map_some, htype]

theorem Bears.frame (h : Bears db given n c) (hn : db'.node? n = db.node? n)
    (hx : db'.xattrRows n = db.xattrRows n) (hc : db'.content? n = db.content? n)
    (hg : (db.content? n).isSome → given' n = given n) :
    Bears db' given' n c := by
  refine ⟨by rw [hn]; exact h.row, ?_, h.bare, ?_⟩
  · rw [xattrItems, ← Db.xattrRows, hx]
    exact h.xattrs
  · intro hleaf
    obtain ⟨row, hrow, hkeep, hbytes⟩ := h.leaf hleaf
    refine ⟨row, hc.trans hrow, hkeep, ?_⟩
    rw [hg (by rw [hrow]; rfl)]
    exact hbytes

/-! ### One round -/

theorem run_frame {st : Stmt} (h : tx.run E st = .ok tx') :
    AgreeOff st.touches tx.db tx'.db ∧ tx'.committed = tx.committed := by
  obtain ⟨db₁, hexec, rfl⟩ := Tx.run_ok.mp h
  exact ⟨Stmt.exec_agreeOff hexec, rfl⟩

/-- The first content of a leaf; a container gets none. -/
theorem fillUnpacked_content {d : Option Bytes} (h : fillUnpacked C E k tx m type n d = .ok tx') :
    tx'.db.nodes = tx.db.nodes ∧ tx'.db.xattrs = tx.db.xattrs ∧ (type ≠ .container →
      (∃ row, tx'.db.content? n = some row ∧ row.retentionKeep = none) ∧ tx'.committed n =
        d.getD []) := by
  have hframe := Fills.agreeOff (fillUnpacked_steps h)
  refine ⟨hframe.nodes (by decide), hframe.xattrs (by decide), ?_⟩
  intro hleaf
  rw [fillUnpacked, if_neg hleaf] at h
  simp only [putInitialContent, bind_eq_ok] at h
  obtain ⟨tx₁, hcreate, h⟩ := h
  obtain ⟨db₁, hexec, rfl⟩ := Tx.run_ok.mp hcreate
  obtain ⟨hnone, -, rfl⟩ := Db.createContent_ok hexec
  have hself : ∀ v size, lookup ContentRow.nodeId (tx.db.contents ++ [⟨n, v, size, none⟩]) n =
      some ⟨n, v, size, none⟩ :=
    fun _ _ => lookup_append_self hnone
  split at h
  next =>
    obtain rfl := Except.ok.inj h
    exact ⟨⟨_, hself _ _, rfl⟩, Function.update_self _ _ _⟩
  next =>
    simp only [Tx.stageChunks, bind_eq_ok] at h
    obtain ⟨parts, -, hstage⟩ := h
    have hgrown := stageFrom_grown hstage
    refine ⟨⟨_, hgrown.content.trans (hself _ _), rfl⟩, ?_⟩
    rw [hgrown.committed]
    exact Function.update_self _ _ _

theorem restoreOwner_row {row : NodeRow} (h : restoreOwner E tx pn n = .ok tx')
    (hrow : tx.db.node? n = some row) :
    tx'.db.node? n = some { row with
      uid := pn.u <|> row.uid, gid := pn.g <|> row.gid, mode := pn.o.map (· % 4096) <|> row.mode } ∧
    tx'.db.xattrs = tx.db.xattrs ∧ tx'.db.contents = tx.db.contents ∧ tx'.committed =
      tx.committed := by
  rw [restoreOwner] at h
  split at h
  next =>
    obtain ⟨-, -, h⟩ := bind_eq_ok.mp h
    obtain ⟨hframe, hgiven⟩ := run_frame h
    refine ⟨?_, hframe.xattrs (by simp [Stmt.touches]),
      hframe.contents (by simp [Stmt.touches]), hgiven⟩
    obtain ⟨db₁, hexec, rfl⟩ := Tx.run_ok.mp h
    obtain rfl := Except.ok.inj hexec
    refine (lookup_amend ?_).trans ?_
    · intro r
      rfl
    · rw [if_pos rfl]
      exact congrArg (Option.map _) hrow
  next hnone =>
    obtain rfl := Except.ok.inj h
    rw [not_or, not_or] at hnone
    obtain ⟨hu, hg, ho⟩ := hnone
    rw [Option.not_isSome_iff_eq_none] at hu hg ho
    refine ⟨?_, rfl, rfl, rfl⟩
    rw [hrow, hu, hg, ho]
    rfl

theorem restoreXattrs_frame (h : restoreXattrs E tx pn n = .ok tx') :
    tx'.db.nodes = tx.db.nodes ∧ tx'.db.contents = tx.db.contents ∧ tx'.committed =
      tx.committed := by
  refine foldlM_invariant (P := fun t : Tx => t.db.nodes = tx.db.nodes ∧
    t.db.contents = tx.db.contents ∧
    t.committed = tx.committed) ?_ h ⟨rfl, rfl, rfl⟩
  intro t kv t' _ ht hrun
  obtain ⟨hframe, hgiven⟩ := run_frame hrun
  exact ⟨(hframe.nodes (by simp [Stmt.touches])).trans ht.1,
    (hframe.contents (by simp [Stmt.touches])).trans ht.2.1,
    hgiven.trans ht.2.2⟩

/-- The retention policy of a leaf that has its first content. -/
theorem restoreRetention_content (h : restoreRetention E tx pn type n = .ok tx') :
    tx'.db.nodes = tx.db.nodes ∧ tx'.db.xattrs = tx.db.xattrs ∧ tx'.committed = tx.committed ∧
      (type ≠ .container →
      ∀ row, tx.db.content? n = some row → row.retentionKeep = none →
        ∃ row', tx'.db.content? n = some row' ∧ row'.retentionKeep = pn.rk) := by
  rw [restoreRetention] at h
  split at h
  next =>
    obtain ⟨-, -, h⟩ := bind_eq_ok.mp h
    obtain ⟨hframe, hgiven⟩ := run_frame h
    refine ⟨hframe.nodes (by simp [Stmt.touches]),
      hframe.xattrs (by simp [Stmt.touches]), hgiven, ?_⟩
    intro _ row hrow _
    obtain ⟨db₁, hexec, rfl⟩ := Tx.run_ok.mp h
    obtain rfl := Except.ok.inj hexec
    refine ⟨{ row with retentionKeep := pn.rk }, ?_, rfl⟩
    refine (lookup_amend ?_).trans ?_
    · intro r
      rfl
    · rw [if_pos rfl]
      exact congrArg (Option.map _) hrow
  next hnone =>
    obtain rfl := Except.ok.inj h
    refine ⟨rfl, rfl, rfl, ?_⟩
    intro hleaf row hrow hkeep
    have hrk : pn.rk = none := by
      by_contra hsome
      exact hnone ⟨Option.isSome_iff_ne_none.mpr hsome, hleaf⟩
    exact ⟨row, hrow, hkeep.trans hrk.symm⟩

/-- The node a round makes bears what its map says. -/
theorem unpackNode_bears (h : unpackNode C E k m parent (tx, ids) pn = .ok t)
    (ha : tx.db.Attributed) (hc : pn.Describes c) (hnames : (c.xattrs.map Prod.fst).Nodup)
    (hsorted : c.xattrs.Pairwise (fun a b => a.1 ≤ b.1)) :
    Bears t.1.db t.1.committed (E.ids tx.idCount) c := by
  simp only [unpackNode, bind_eq_ok, pure_eq_ok, orRaise_eq_ok] at h
  obtain ⟨type, htype, target, -, metadata, hmeta, u, -, ⟨tx₁, new⟩, hnew, tx₂, hfill, tx₃, hlink,
    tx₄, howner,
    tx₅, hxattrs, tx₆, hretention, rfl⟩ := h
  obtain rfl := Option.some.inj (htype.symm.trans hc.type)
  obtain rfl := Except.ok.inj (hmeta.symm.trans hc.metadata)
  obtain ⟨rfl, db₁, hrow, rfl⟩ := newNode_ok hnew
  obtain ⟨hfresh, -, rfl⟩ := Db.createNode_ok hrow
  obtain ⟨hnodes₂, hxattrs₂, hcontent₂⟩ := fillUnpacked_content hfill
  obtain ⟨db₃, hedge, rfl⟩ := linkChild_ok hlink
  obtain ⟨src, dst, -, -, -, -, -, -, -, rfl⟩ := Db.createEdge_ok hedge
  obtain ⟨row, hrow₂, hrow₂'⟩ : ∃ row, tx₂.db.node? (E.ids tx.idCount) = some row ∧ row =
      { nodeId := E.ids tx.idCount, type := c.type, name := pn.n, createdAt := pn.c.getD E.now,
        volumeId := m.volume,
        metadata := c.metadata } := by
    refine ⟨_, ?_, rfl⟩
    rw [Db.node?, hnodes₂]
    exact lookup_append_self hfresh
  obtain ⟨hrow₄, hxattrs₄, hcontents₄, hgiven₄⟩ := restoreOwner_row howner hrow₂
  obtain ⟨hnodes₅, hcontents₅, hgiven₅⟩ := restoreXattrs_frame hxattrs
  obtain ⟨hnodes₆, hxattrs₆, hgiven₆, hcontent₆⟩ := restoreRetention_content hretention
  have hnone : tx₄.db.xattrRows (E.ids tx.idCount) = [] := by
    have hrows : tx₄.db.xattrs = tx.db.xattrs := hxattrs₄.trans hxattrs₂
    rw [Db.xattrRows, hrows]
    exact ha.rows_of_fresh hfresh
  constructor
  · have hsame : tx₆.db.node? (E.ids tx.idCount) = tx₄.db.node? (E.ids tx.idCount) := by
      rw [Db.node?, Db.node?, hnodes₆, hnodes₅]
    refine ⟨_, hsame.trans hrow₄, ?_⟩
    rw [hrow₂']
    refine ⟨rfl, rfl, ?_, ?_, ?_, ?_⟩
    · show pn.c.getD E.now = c.createdAt
      rw [hc.createdAt, Option.getD_some]
    · show (pn.u <|> none) = c.uid
      rw [hc.uid]
      cases c.uid <;> rfl
    · show (pn.g <|> none) = c.gid
      rw [hc.gid]
      cases c.gid <;> rfl
    · show (pn.o.map (· % 4096) <|> none).map (· % 4096) = c.mode
      rw [← hc.mode]
      cases pn.o with
      | none => rfl
      | some o => exact congrArg some (Int.emod_emod_of_dvd o dvd_rfl)
  · apply xattrItems_of_rows ?_ hsorted
    have hrows := restoreXattrs_rows hxattrs hc.xattrs (by rw [hnone]; exact hnames)
    rw [hnone, List.nil_append] at hrows
    rw [Db.xattrRows, hxattrs₆]
    exact hrows
  · exact hc.bare
  · intro hleaf
    obtain ⟨⟨row₂, hrow₂, hkeep₂⟩, hgiven₂⟩ := hcontent₂ hleaf
    have hrow₅ : tx₅.db.content? (E.ids tx.idCount) = some row₂ := by
      rw [Db.content?, hcontents₅, hcontents₄]
      exact hrow₂
    obtain ⟨row₆, hrow₆, hkeep₆⟩ := hcontent₆ hleaf row₂ hrow₅ hkeep₂
    obtain ⟨hkeep, hbytes⟩ := hc.leaf hleaf
    refine ⟨row₆, hrow₆, hkeep₆.trans hkeep, ?_⟩
    rw [hgiven₆, hgiven₅, hgiven₄]
    exact hbytes.trans (congrArg Except.ok hgiven₂.symm)

/-- A node that is there when a round starts is left alone. -/
theorem unpackNode_frame (h : unpackNode C E k m parent (tx, ids) pn = .ok t)
    (hpool : tx.db.Pooled) (hn : (tx.db.node? n).isSome) :
    t.1.db.node? n = tx.db.node? n ∧ t.1.db.xattrRows n = tx.db.xattrRows n ∧ t.1.db.content? n =
      tx.db.content? n := by
  have hhas : tx.db.Has (fun i => decide (i = n)) := by
    intro i hi
    rw [of_decide_eq_true hi]
    exact hn
  have hsteps : Steps (Avoids (m.volume + 1) (fun i => decide (i = n))) E.now tx.db t.1.db :=
    unpackNode_avoids hhas (Nat.lt_succ_self m.volume).ne h
  have hshare := (Steps.spared hsteps hpool).share
  have hnode : ∀ db : Db, (db.share (m.volume + 1) (fun i => decide (i = n))).node? n =
      db.node? n := fun db =>
    lookup_filter_of_key fun r _ hkey => decide_eq_true hkey
  have hcontent : ∀ db : Db, (db.share (m.volume + 1) (fun i => decide (i = n))).content? n =
      db.content? n := fun db =>
    lookup_filter_of_key fun r _ hkey => decide_eq_true hkey
  refine ⟨?_, congrArg Db.xattrs hshare, ?_⟩
  · rw [← hnode, hshare, hnode]
  · rw [← hcontent, hshare, hcontent]

theorem Steps.attributed {Q : Db → Stmt → Prop} (h : Steps Q now db db') (ha : db.Attributed) :
    db'.Attributed := by
  induction h with
  | refl => exact ha
  | tail _ hstep ih =>
    obtain ⟨st, -, hexec⟩ := hstep
    exact Stmt.attributed hexec ih

/-! ### The loop -/

/-- What the loop of `unpack` stands on: the nodes made so far are younger and younger, each
under the one made for its parent's row, and bear what was carried of their rows' nodes. -/
structure Regrowing (C : Crypto) (k : Cipher) (E : Env) (V : VolumeId) (p : Parent) (db old : Db)
    (made : List CopiedRow) (t : Tx × List NodeId) : Prop where
  ids : t.2 = made.map CopiedRow.node
  minted : ∀ x ∈ made, ∃ i < t.1.idCount, x.node = E.ids i
  ordered : made.Pairwise (fun x y => x.node < y.node)
  fresh : ∀ x ∈ made, old.node? x.node = none
  hung : ∀ x ∈ made, (x.row.parentId = none ∧ x.parent = p.container) ∨
    ∃ q ∈ made, x.row.parentId = some q.row.nodeId ∧ x.parent = q.node
  placements : t.1.db.placements = old.placements ++ made.map (CopiedRow.placement p)
  bears : ∀ x ∈ made, ∃ c, db.carried? C k x.row.nodeId = some c ∧
    Bears t.1.db t.1.committed x.node c
  homes : ∀ x ∈ made, t.1.db.home? x.node = some V
  persists : ∃ added, t.1.db.identities = old.identities ++ added
  pooled : t.1.db.Pooled
  attributed : t.1.db.Attributed

theorem Regrowing.start (tx : Tx) (hpool : tx.db.Pooled) (ha : tx.db.Attributed) :
    Regrowing C k E V p db tx.db [] (tx, []) where
  ids := rfl
  minted _ hx := absurd hx List.not_mem_nil
  ordered := List.Pairwise.nil
  fresh _ hx := absurd hx List.not_mem_nil
  hung _ hx := absurd hx List.not_mem_nil
  placements := (List.append_nil _).symm
  bears _ hx := absurd hx List.not_mem_nil
  homes _ hx := absurd hx List.not_mem_nil
  persists := ⟨[], (List.append_nil _).symm⟩
  pooled := hpool
  attributed := ha

/-- The parent a round picks is the node made for the parent's row. -/
theorem Regrowing.target {s : Tx × List NodeId} {target : NodeId}
    (h : Regrowing C k E V p db old made s) (hrows : rows = made.map CopiedRow.row ++ rest)
    (hpn : PackedRow C k db rows r pn) (htarget : unpackTarget p.container s.2 pn.p = .ok target) :
    (r.parentId = none ∧ target = p.container) ∨
      ∃ q ∈ made, r.parentId = some q.row.nodeId ∧ target = q.node := by
  rcases unpackTarget_ok htarget with ⟨hp, hroot⟩ | ⟨j, hj, hp, hid⟩
  · rcases hpn.parent with ⟨hnone, -⟩ | ⟨j, q, -, -, hp'⟩
    · exact Or.inl ⟨hnone, hroot⟩
    · omega
  · rcases hpn.parent with ⟨-, hp'⟩ | ⟨j', q, hq, hparent, hp'⟩
    · omega
    · obtain rfl : j = j' := by omega
      rw [h.ids, List.length_map] at hj
      rw [h.ids, List.getElem?_map] at hid
      obtain ⟨x, hx, hnode⟩ := Option.map_eq_some_iff.mp hid
      rw [hrows, List.getElem?_append_left (by rw [List.length_map]; exact hj),
        List.getElem?_map, hx] at hq
      obtain rfl := Option.some.inj hq
      exact Or.inr ⟨x, List.mem_of_getElem? hx, hparent, hnode.symm⟩

theorem Regrowing.next {s : Tx × List NodeId} (h : Regrowing C k E m.volume p db old made s)
    (ha : db.Attributed) (hrows : rows = made.map CopiedRow.row ++ r :: rest)
    (hroot : r.parentId = none → r.name = p.name) (hpn : PackedRow C k db rows r pn) {k' : Cipher}
    (hround : unpackNode C E k' m p.container s pn = .ok t) :
    ∃ x, x.row = r ∧ Regrowing C k E m.volume p db old (made ++ [x]) t := by
  obtain ⟨tx, ids⟩ := s
  obtain ⟨type, target, htype, htarget, hids, hmade⟩ := unpackNode_made hround
  obtain ⟨c, hc, hdescribes⟩ := hpn.carried
  have hparent := h.target hrows hpn htarget
  have hitems : c.xattrs = xattrItems db r.nodeId := by
    obtain ⟨row, -, rfl⟩ := Option.map_eq_some_iff.mp hc
    rfl
  have hbears : Bears t.1.db t.1.committed (E.ids tx.idCount) c :=
    unpackNode_bears hround h.attributed hdescribes (hitems ▸ xattrItems_names_nodup ha r.nodeId)
      (hitems ▸ xattrItems_sorted db r.nodeId)
  have hkeeps := unpackNode_keepsContents hround
  have hsteps : Steps (Avoids (m.volume + 1) (fun _ => false)) E.now tx.db t.1.db :=
    unpackNode_avoids (fun _ hi => absurd hi Bool.false_ne_true)
      (Nat.lt_succ_self m.volume).ne hround
  have hlast : ∀ {Q : CopiedRow → Prop}, (∀ x ∈ made, Q x) → Q ⟨r, target, E.ids tx.idCount⟩ →
      ∀ x ∈ made ++ [⟨r, target, E.ids tx.idCount⟩], Q x := by
    intro Q hold hnew x hx
    rcases List.mem_append.mp hx with hx | hx
    · exact hold x hx
    · rw [List.mem_singleton.mp hx]
      exact hnew
  -- the clauses of `Regrowing`: what holds of the rows made so far, and of the new one
  refine ⟨⟨r, target, E.ids tx.idCount⟩, rfl, ?_⟩
  constructor
  · have hold : ids = made.map CopiedRow.node := h.ids
    rw [hids, hold, List.map_append]
    rfl
  · refine hlast ?_ ⟨tx.idCount, by rw [hmade.idCount]; omega, rfl⟩
    intro x hx
    obtain ⟨i, hi, heq⟩ := h.minted x hx
    have hi' : i < tx.idCount := hi
    exact ⟨i, by rw [hmade.idCount]; omega, heq⟩
  · rw [List.pairwise_append]
    refine ⟨h.ordered, List.pairwise_singleton _ _, ?_⟩
    intro x hx y hy
    obtain ⟨i, hi, heq⟩ := h.minted x hx
    rw [List.mem_singleton.mp hy, heq]
    exact E.ids_strictMono hi
  · refine hlast h.fresh ?_
    by_contra hsome
    have hpersist := node?_isSome_persists h.persists (Option.isSome_iff_ne_none.mpr hsome)
    rw [hmade.fresh] at hpersist
    cases hpersist
  · refine hlast ?_ ?_
    · intro x hx
      rcases h.hung x hx with hroot | ⟨q, hq, hunder⟩
      · exact Or.inl hroot
      · exact Or.inr ⟨q, List.mem_append_left _ hq, hunder⟩
    · rcases hparent with hroot | ⟨q, hq, hunder⟩
      · exact Or.inl hroot
      · exact Or.inr ⟨q, List.mem_append_left _ hq, hunder⟩
  · have hname : p.nameFor r = pn.n := by
      rw [Parent.nameFor, hpn.name]
      split
      next hnone => exact (hroot (Option.isNone_iff_eq_none.mp hnone)).symm
      next => rfl
    have hold : tx.db.placements = old.placements ++ made.map (CopiedRow.placement p) :=
      h.placements
    rw [hmade.placements, hold, List.map_append, List.append_assoc, ← hname]
    rfl
  · refine hlast ?_ ⟨c, hc, hbears⟩
    intro x hx
    obtain ⟨c', hc', hold⟩ := h.bears x hx
    obtain ⟨row, hrow, -⟩ := hold.row
    obtain ⟨hnode, hxattrs, hcontent⟩ := unpackNode_frame hround h.pooled (by rw [hrow]; rfl)
    exact ⟨c', hc', hold.frame hnode hxattrs hcontent fun hthere => hkeeps.committed x.node hthere⟩
  · refine hlast ?_ hmade.type.2
    intro x hx
    have hhome : tx.db.home? x.node = some m.volume := h.homes x hx
    exact home?_persists hmade.persists hhome
  · obtain ⟨added, hadded⟩ : ∃ added, tx.db.identities = old.identities ++ added := h.persists
    obtain ⟨birth, hborn⟩ := hmade.identities
    rw [hborn, hadded, List.append_assoc]
    exact ⟨_, rfl⟩
  · exact Steps.pooled hsteps h.pooled
  · exact Steps.attributed hsteps h.attributed

/-- The loop over the maps of the rows makes a node for each row. -/
theorem Regrowing.run {s : Tx × List NodeId} {k' : Cipher}
    (h : Regrowing C k E m.volume p db old made s) (ha : db.Attributed)
    (hrows : rows = made.map CopiedRow.row ++ rest)
    (hroot : ∀ r ∈ rows, r.parentId = none → r.name = p.name)
    (hmaps : List.Forall₂ (PackedRow C k db rows) rest nodes)
    (hloop : nodes.foldlM (unpackNode C E k' m p.container) s = .ok t) :
    ∃ all, all.map CopiedRow.row = rows ∧ Regrowing C k E m.volume p db old all t := by
  induction hmaps generalizing made s with
  | nil =>
    obtain rfl := Except.ok.inj hloop
    rw [List.append_nil] at hrows
    exact ⟨made, hrows.symm, h⟩
  | @cons r pn rest nodes hpn _ ih =>
    rw [List.foldlM_cons] at hloop
    obtain ⟨u, hround, hrest⟩ := bind_eq_ok.mp hloop
    have hmem : r ∈ rows := hrows ▸ List.mem_append_right _ List.mem_cons_self
    obtain ⟨x, rfl, hnext⟩ := h.next ha hrows (hroot r hmem) hpn hround
    refine ih hnext ?_ hrest
    rw [hrows, List.map_append, List.append_assoc]
    rfl

end Aloelite
