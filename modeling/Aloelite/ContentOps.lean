import Aloelite.ContentWrites

/-! Every operation on content keeps what entries hold: births of entries, copied trees, and the
requests over them. -/
namespace Aloelite

open Fallible KeyedRows ForestOrder Relation Numbered Pieces Patches

variable {C : Crypto} {M : Msgpack} {σ : Type} {R : Reading C σ} {V : VolumeId} {E : Env}
  {k : Cipher} {db : Db} {tx tx' tx₁ tx₂ : Tx} {n : NodeId} {size : ℕ} {data : Bytes}
  {mount : MountId} {path src dst name : String}

/-! ### Births -/

theorem linkChild_calm {m : MountCtx} {parent child : NodeId} {o : Option String}
    (h : linkChild E tx m parent child o = .ok tx') : Calm tx tx' := by
  have hrun : { tx with idCount := tx.idCount + 1 }.run E
      (.createEdge (E.ids tx.idCount) parent child m.volume o) = .ok tx' := h
  have hcalm := run_calm hrun trivial
  exact ⟨hcalm.contents, hcalm.off, hcalm.aliased, hcalm.committed⟩

/-- A new container. -/
theorem Tx.Stored.container {m : MountCtx} {createdAt modifiedAt : Option Int} {metadata : Metadata}
    (h : tx.Stored R)
    (hnew : newNode E tx m .container name createdAt modifiedAt metadata = .ok (tx₁, n)) :
    tx₁.Stored R := by
  obtain ⟨hstored, -, hleaves, -⟩ := Stored.newNode h hnew
  exact ⟨hstored, hleaves rfl⟩

/-- A new leaf with its first content. -/
theorem Tx.Stored.leafBorn {m : MountCtx} {type : NodeType} {createdAt modifiedAt : Option Int}
    {metadata : Metadata} (hk : R.Fits k m.volume) (h : tx.Stored R)
    (hnew : newNode E tx m type name createdAt modifiedAt metadata = .ok (tx₁, n))
    (hput : putInitialContent C E k tx₁ m n data = .ok tx₂)
    (hal : R.wary = true → tx₂.aliased = false) : tx₂.Stored R := by
  obtain ⟨hstored, hleaves, -, hV, -, hempty, -⟩ := Stored.newNode h hnew
  exact Stored.putInitialContent hk hstored hleaves hV hempty hput hal

theorem createContainer_stored (h : tx.Stored R)
    (hcreate : createContainer E k tx mount path = .ok (tx', n)) : tx'.Stored R := by
  simp only [createContainer, bind_eq_ok, pure_eq_ok, Prod.mk.injEq] at hcreate
  obtain ⟨m, -, p, -, u, -, ⟨tx₁, node⟩, hnew, tx₂, hlink, rfl, rfl⟩ := hcreate
  exact (h.container hnew).calm (linkChild_calm hlink)

theorem createLeaf_stored {type : NodeType} (hk : R.FitsMount E k tx.db mount) (h : tx.Stored R)
    (hcreate : createLeaf C E k tx mount path type data = .ok (tx', n))
    (hal : R.wary = true → tx'.aliased = false) : tx'.Stored R := by
  simp only [createLeaf, bind_eq_ok, pure_eq_ok, Prod.mk.injEq] at hcreate
  obtain ⟨m, hm, p, -, u, -, ⟨tx₁, node⟩, hnew, tx₂, hput, tx₃, hlink, rfl, rfl⟩ := hcreate
  have hcalm := linkChild_calm hlink
  have hal₂ : R.wary = true → tx₂.aliased = false := by
    rw [← hcalm.aliased]
    exact hal
  exact (h.leafBorn (hk true m hm) hnew hput hal₂).calm hcalm

/-! ### Trees -/

/-- A copied leaf holds what its source holds. -/
theorem Tx.Stored.copied {m : MountCtx} {type : NodeType} {createdAt modifiedAt : Option Int}
    {metadata : Metadata} {s : NodeId} (h : tx.Stored R)
    (hnew : newNode E tx m type name createdAt modifiedAt metadata = .ok (tx₁, n))
    (hs : tx.db.home? s = some m.volume) (hleaf : ∃ t, tx.db.nodeType? s = some t ∧ t ≠ .container)
    (hcopy : copyContent E tx₁ s n = .ok tx₂) (hal : R.wary = true → tx₂.aliased = false) :
    tx₂.Stored R := by
  obtain ⟨hstored, hleaves, -, hV, -, hempty, hhomes, -, hcontents, -, -, -, -, -⟩ :=
    Stored.newNode h hnew
  obtain ⟨t, ht, hne⟩ := hleaf
  obtain ⟨c, hc⟩ := Option.isSome_iff_exists.mp (h.2 s t (by simp) ht hne)
  have hc₁ : tx₁.db.content? s = some c := by
    rw [Db.content?, hcontents]
    exact hc
  have hkept := hstored.committed (hhomes s m.volume hs) hc₁
  simp only [copyContent, bind_eq_ok, readContentMeta_of_content hc₁] at hcopy
  obtain ⟨tx₃, hcreate, hcopy⟩ := hcopy
  obtain ⟨-, -, -, -, -, hoff, hcommitted, -⟩ := Stored.createContent hstored hleaves hcreate
  rw [hcommitted] at hcopy
  refine hstored.filled hleaves hV hempty hkept.size hkept.chunked hkept.started hcreate ?_
  split at hcopy
  next hpos =>
    refine copyChunkRefs_staged hcopy ?_ hal
    refine HoldsAt.frame hkept.holds ?_ ?_
    · show tx₃.db.manifest s c.version = _
      rw [Db.manifest, Db.manifest, hoff.versions (by simp)]
    · intro r _ ch hch
      show tx₃.db.chunk? _ = _
      rw [Db.chunk?, hoff.chunks (by simp)]
      exact hch
  next hzero =>
    obtain rfl := Except.ok.inj hcopy
    have hnone : tx₁.committed s = [] := hkept.started (by omega)
    have hnil : numbered 0 (pieces (chunkSizeOf tx₁.db m.volume) ((tx₁.committed s).map R.glance)) =
        [] := by
      rw [hnone, List.map_nil, pieces_nil, numbered_nil]
    rw [hnil]
    exact Staged.refl hal

/-- What the loop of `copy` keeps. Copying stages nothing, so the flag stands. -/
structure Copying (R : Reading C σ) (start : Tx) (tx : Tx) : Prop where
  aliased : tx.aliased = start.aliased
  homes : ∀ m V, start.db.home? m = some V → tx.db.home? m = some V
  stored : (R.wary = true → start.aliased = false) → tx.Stored R

theorem copyContent_aliased {s d : NodeId} (h : copyContent E tx s d = .ok tx') :
    tx'.aliased = tx.aliased := by
  simp only [copyContent, bind_eq_ok] at h
  obtain ⟨tx₁, hcreate, h⟩ := h
  have hfirst := (Stmt.run_history hcreate).2
  split at h
  · exact ((Stmt.run_history h).2).trans hfirst
  · obtain rfl := Except.ok.inj h
    exact hfirst

theorem newNode_aliased {m : MountCtx} {type : NodeType} {createdAt modifiedAt : Option Int}
    {metadata : Metadata}
    (h : newNode E tx m type name createdAt modifiedAt metadata = .ok (tx', n)) :
    tx'.aliased = tx.aliased := by
  obtain ⟨-, db₁, -, rfl⟩ := newNode_ok h
  rfl

theorem copyRow_copying {m : MountCtx} {p : Parent} {s t : Tx × IdMap NodeId} {r : SubtreeRow}
    {start : Tx} (hs : Copying R start s.1) (hr : start.db.home? r.nodeId = some m.volume)
    (h : copyRow E m p s r = .ok t)
    (hids : ∃ added, t.1.db.identities = start.db.identities ++ added) :
    Copying R start t.1 := by
  simp only [copyRow, bind_eq_ok, pure_eq_ok, orRaise_eq_ok] at h
  obtain ⟨info, hinfo, parent, -, ⟨tx₁, new⟩, hnew, tx₂, hfill, tx₃, hlink, rfl⟩ := h
  have hcalm := linkChild_calm hlink
  rw [fillCopy] at hfill
  have hflag : tx₂.aliased = start.aliased := by
    split at hfill
    · obtain rfl := Except.ok.inj hfill
      exact (newNode_aliased hnew).trans hs.aliased
    · exact (copyContent_aliased hfill).trans ((newNode_aliased hnew).trans hs.aliased)
  refine ⟨hcalm.aliased.trans hflag, fun m V hV => home?_persists hids hV, fun hal => ?_⟩
  have hstored := hs.stored hal
  refine Tx.Stored.calm ?_ hcalm
  split at hfill
  next hcont =>
    obtain rfl := Except.ok.inj hfill
    rw [hcont] at hnew
    exact hstored.container hnew
  next hleaf =>
    have htype : s.1.db.nodeType? r.nodeId = some info.type := by
      rw [Db.nodeType?, hinfo]
      rfl
    refine hstored.copied hnew (hs.homes _ _ hr) ⟨info.type, htype, hleaf⟩ hfill ?_
    rw [hflag]
    exact hal

theorem copy_stored (hl : tx.db.Linked) (hh : tx.db.Homed) (h : tx.Stored R)
    (hcopy : copy E k tx mount src dst = .ok (tx', n)) (hal : R.wary = true → tx'.aliased = false) :
    tx'.Stored R := by
  simp only [copy, bind_eq_ok, pure_eq_ok, Prod.mk.injEq] at hcopy
  obtain ⟨m, hm, found, hfound, p, hp, u, -, s, hfold, root, -, rfl, -⟩ := hcopy
  have hdst : (License.standard tx.db m.mountPoint).host p.container :=
    Or.inl (resolveParent_below hp)
  have hexists := resolveParent_exists (anchor_exists hl.anchor hm) hp
  have hhome := hh.resolve hm hfound
  have hinv := foldlM_invariant
    (P := fun s : Tx × IdMap NodeId => (Strides (.standard tx.db m.mountPoint) E.now tx.db s.1.db ∧
      Hosts (.standard tx.db m.mountPoint) s.1 (p.container :: s.2.map Prod.snd)) ∧
      Copying R tx s.1)
    (by
      intro s r t hr hs hrow
      have hnext := copyRow_strides (fun n hn => Or.inr hn) hs.1.1 hs.1.2 hrow
      have hbelow : r.nodeId ∈ tx.db.subtreeIds found.node := List.mem_map_of_mem hr
      have hrhome := hh.below (Db.below_of_mem_subtreeIds hbelow) hhome
      exact ⟨hnext, copyRow_copying hs.2 hrhome hrow hnext.1.identities⟩)
    hfold ⟨⟨ReflTransGen.refl, by simp [Hosts, hdst, hexists]⟩, rfl, fun _ _ hV => hV, fun _ => h⟩
  have hcopying := hinv.2
  refine hcopying.stored ?_
  rw [← hcopying.aliased]
  exact hal

theorem pack_stored (hk : R.FitsMount E k tx.db mount) (h : tx.Stored R)
    (hpack : pack C M E k tx mount path = .ok (tx', n))
    (hal : R.wary = true → tx'.aliased = false) :
    tx'.Stored R := by
  simp only [pack, bind_eq_ok, pure_eq_ok, orRaise_eq_ok, Prod.mk.injEq] at hpack
  obtain ⟨m, hm, found, -, u, -, u₁, -, e, -, cont, -, nodes, -, blob, -, tx₁, hraze,
    ⟨tx₂, packed⟩, hnew, tx₃, hput, tx₄, hlink, rfl, -⟩ := hpack
  have hcalm := linkChild_calm hlink
  have hal₃ : R.wary = true → tx₃.aliased = false := by
    rw [← hcalm.aliased]
    exact hal
  have hrazed := h.calm (run_calm hraze trivial)
  exact (hrazed.leafBorn (hk true m hm) hnew hput hal₃).calm hcalm

theorem restoreOwner_calm {pn : PackNode} (h : restoreOwner E tx pn n = .ok tx') : Calm tx tx' := by
  rw [restoreOwner] at h
  split at h
  · obtain ⟨-, -, h⟩ := bind_eq_ok.mp h
    exact run_calm h trivial
  · obtain rfl := Except.ok.inj h
    exact Calm.refl tx

theorem restoreXattrs_calm {pn : PackNode} (h : restoreXattrs E tx pn n = .ok tx') :
    Calm tx tx' := by
  refine foldlM_invariant (P := fun t : Tx => Calm tx t) ?_ h (Calm.refl tx)
  intro s kv t _ hs hrun
  exact hs.trans (run_calm hrun trivial)

theorem restoreRetention_calm {pn : PackNode} {type : NodeType}
    (h : restoreRetention E tx pn type n = .ok tx') : Calm tx tx' := by
  rw [restoreRetention] at h
  split at h
  · obtain ⟨-, -, h⟩ := bind_eq_ok.mp h
    exact run_calm h trivial
  · obtain rfl := Except.ok.inj h
    exact Calm.refl tx

/-- One round of `unpack`. The flag is known at the end of the loop only. -/
theorem unpackNode_stored {m : MountCtx} {parent : NodeId} {s t : Tx × List NodeId} {pn : PackNode}
    (hk : R.Fits k m.volume) (hs : (R.wary = true → s.1.aliased = false) → s.1.Stored R)
    (h : unpackNode C E k m parent s pn = .ok t) :
    (R.wary = true → t.1.aliased = false) → t.1.Stored R := by
  intro hal
  simp only [unpackNode, bind_eq_ok, pure_eq_ok] at h
  obtain ⟨type, -, target, -, metadata, -, u, -, ⟨tx₁, new⟩, hnew, tx₂, hfill, tx₃, hlink, tx₄,
    howner, tx₅,
    hxattrs, tx₆, hretention, rfl⟩ := h
  have hcalm : Calm tx₂ tx₆ := (linkChild_calm hlink).trans
    (((restoreOwner_calm howner).trans (restoreXattrs_calm hxattrs)).trans
      (restoreRetention_calm hretention))
  have hal₂ : R.wary = true → tx₂.aliased = false := by
    rw [← hcalm.aliased]
    exact hal
  refine Tx.Stored.calm ?_ hcalm
  rw [fillUnpacked] at hfill
  split at hfill
  next hcont =>
    obtain rfl := Except.ok.inj hfill
    rw [hcont] at hnew
    refine (hs ?_).container hnew
    rw [← newNode_aliased hnew]
    exact hal₂
  next hleaf =>
    refine (hs ?_).leafBorn hk hnew hfill hal₂
    intro hw
    rw [← newNode_aliased hnew]
    exact putInitialContent_aliased hfill (hal₂ hw)

theorem unpack_stored (hk : R.FitsMount E k tx.db mount) (h : tx.Stored R)
    (hunpack : unpack C M E k tx mount path = .ok tx') (hal : R.wary = true → tx'.aliased = false) :
    tx'.Stored R := by
  simp only [unpack, bind_eq_ok, pure_eq_ok] at hunpack
  obtain ⟨m, hm, found, -, u, -, u₁, -, blob, -, nodes, -, e, -, tx₁, harch, s, hfold, rfl⟩ :=
    hunpack
  have hinv := foldlM_invariant
    (P := fun s : Tx × List NodeId => (R.wary = true → s.1.aliased = false) → s.1.Stored R)
    (fun s pn t _ hs hrow => unpackNode_stored (hk true m hm) hs hrow) hfold
    (fun _ => h.calm (run_calm harch trivial))
  exact hinv hal

/-! ### Requests -/

theorem rename_calm (h : rename E k tx mount path name = .ok tx') : Calm tx tx' := by
  simp only [rename, bind_eq_ok] at h
  obtain ⟨m, -, u, -, p, -, found, -, u', -, tx₁, hplace, hnode⟩ := h
  exact (run_calm hplace trivial).trans (run_calm hnode trivial)

theorem move_calm (h : move E k tx mount src dst = .ok tx') : Calm tx tx' := by
  simp only [move, bind_eq_ok] at h
  obtain ⟨m, -, found, -, u, -, sp, -, p, -, u₁, -, u₂, -, u₃, -, tx₁, harch, tx₂, hlink, h⟩ := h
  have hplaced := (run_calm harch trivial).trans (linkChild_calm hlink)
  split at h
  · exact hplaced.trans (run_calm h trivial)
  · obtain rfl := Except.ok.inj h
    exact hplaced

/-- The requests that seal or open chunks on their way to new content. -/
def Request.seals : Request → Bool
  | createEntry .. | createSpecial .. | writeAll .. | append .. | writeRange .. | truncate ..
  | pack .. | unpack .. => true
  | _ => false

/-- The requests that leave content alone. -/
def Request.calm : Request → Prop
  | createContainer .. | createEntry .. | createSpecial .. | writeAll .. | append ..
  | writeRange .. | truncate .. | copy .. | pack .. | unpack .. => False
  | _ => True

theorem request_calm {r : Request} {a : Reply} (hr : r.calm)
    (hrun : r.run C M E k tx mount = .ok (tx', a)) :
    Calm tx tx' := by
  -- requests that make a new version are not calm; these leave rows and pointers alone
  cases r with
  | rename path name =>
    simp only [Request.run, noReply, map_eq_ok, Prod.mk.injEq] at hrun
    obtain ⟨t, hr, rfl, -⟩ := hrun
    exact rename_calm hr
  | move src dst =>
    simp only [Request.run, noReply, map_eq_ok, Prod.mk.injEq] at hrun
    obtain ⟨t, hr, rfl, -⟩ := hrun
    exact move_calm hr
  | link src dst =>
    simp only [Request.run, noReply, map_eq_ok, Prod.mk.injEq, Aloelite.link, bind_eq_ok] at hrun
    obtain ⟨t, ⟨m, -, found, -, u, -, u₁, -, p, -, u₂, -, u₃, -, hr⟩, rfl, -⟩ := hrun
    exact linkChild_calm hr
  | remove path =>
    simp only [Request.run, noReply, map_eq_ok, Prod.mk.injEq, Aloelite.remove, bind_eq_ok] at hrun
    obtain ⟨t, ⟨m, -, found, -, u, -, u₁, -, p, -, u₂, -, hr⟩, rfl, -⟩ := hrun
    exact run_calm hr trivial
  | removeRecursive path =>
    simp only [Request.run, noReply, map_eq_ok, Prod.mk.injEq, Aloelite.removeRecursive, bind_eq_ok]
      at hrun
    obtain ⟨t, ⟨m, -, found, -, u, -, hr⟩, rfl, -⟩ := hrun
    exact run_calm hr trivial
  | setOwner path uid gid mode =>
    simp only [Request.run, noReply, map_eq_ok, Prod.mk.injEq, Aloelite.setOwner, bind_eq_ok]
      at hrun
    obtain ⟨t, ⟨m, -, found, -, hr⟩, rfl, -⟩ := hrun
    exact run_calm hr trivial
  | setAtime node ts =>
    simp only [Request.run, noReply, map_eq_ok, Prod.mk.injEq, Aloelite.setAtime, bind_eq_ok]
      at hrun
    obtain ⟨t, ⟨m, -, hr⟩, rfl, -⟩ := hrun
    exact run_calm hr trivial
  | setMtime node ts =>
    simp only [Request.run, noReply, map_eq_ok, Prod.mk.injEq, Aloelite.setMtime, bind_eq_ok]
      at hrun
    obtain ⟨t, ⟨m, -, hr⟩, rfl, -⟩ := hrun
    exact run_calm hr trivial
  | setXattr path name value =>
    simp only [Request.run, noReply, map_eq_ok, Prod.mk.injEq, Aloelite.setXattr, bind_eq_ok]
      at hrun
    obtain ⟨t, ⟨m, -, found, -, hr⟩, rfl, -⟩ := hrun
    exact run_calm hr trivial
  | removeXattr path name =>
    simp only [Request.run, asReply, map_eq_ok, Prod.mk.injEq, Aloelite.removeXattr, bind_eq_ok,
      pure_eq_ok] at hrun
    obtain ⟨⟨t, b⟩, ⟨m, -, found, -, t', hr, hpair⟩, rfl, -⟩ := hrun
    obtain ⟨rfl, -⟩ := Prod.mk.inj hpair
    exact run_calm hr trivial
  | setMetadata path metadata =>
    simp only [Request.run, noReply, map_eq_ok, Prod.mk.injEq, Aloelite.setMetadata, bind_eq_ok]
      at hrun
    obtain ⟨t, ⟨m, -, found, -, u, -, hr⟩, rfl, -⟩ := hrun
    exact run_calm hr trivial
  | setRetention path keep =>
    simp only [Request.run, noReply, map_eq_ok, Prod.mk.injEq, Aloelite.setRetention, bind_eq_ok]
      at hrun
    obtain ⟨t, ⟨m, -, found, -, u, -, hr⟩, rfl, -⟩ := hrun
    exact run_calm hr trivial
  | readAll path =>
    simp only [Request.run, map_eq_ok, Prod.mk.injEq] at hrun
    obtain ⟨b, -, rfl, -⟩ := hrun
    exact Calm.refl tx
  | lock path ttlMs =>
    simp only [Request.run, asReply, map_eq_ok, Prod.mk.injEq, Aloelite.lock,
      bind_eq_ok, pure_eq_ok]
      at hrun
    obtain ⟨⟨t, b⟩, ⟨m, -, found, -, u, -, t', hr, hpair⟩, rfl, -⟩ := hrun
    obtain ⟨rfl, -⟩ := Prod.mk.inj hpair
    exact run_calm hr trivial
  | unlock l =>
    simp only [Request.run, noReply, map_eq_ok, Prod.mk.injEq, Aloelite.unlock, bind_eq_ok] at hrun
    obtain ⟨t, ⟨m, -, row, -, hr⟩, rfl, -⟩ := hrun
    exact run_calm hr trivial
  | renewLock l ttlMs =>
    simp only [Request.run, noReply, map_eq_ok, Prod.mk.injEq, Aloelite.renewLock, bind_eq_ok]
      at hrun
    obtain ⟨t, ⟨m, -, row, -, hr⟩, rfl, -⟩ := hrun
    exact run_calm hr trivial
  | renewMount ttlMs =>
    simp only [Request.run, noReply, map_eq_ok, Prod.mk.injEq, Aloelite.renewMount, bind_eq_ok]
      at hrun
    obtain ⟨t, ⟨m, -, hr⟩, rfl, -⟩ := hrun
    exact run_calm hr trivial
  | _ => exact hr.elim

/-- Every request keeps what entries hold. -/
theorem Request.run_stored {r : Request} {a : Reply}
    (hk : r.seals = true → R.FitsMount E k tx.db mount) (hl : tx.db.Linked) (hh : tx.db.Homed)
    (h : tx.Stored R) (hrun : r.run C M E k tx mount = .ok (tx', a))
    (hal : R.wary = true → tx'.aliased = false) :
    tx'.Stored R := by
  cases r with
  | createContainer path =>
    simp only [Request.run, asReply, map_eq_ok, Prod.mk.injEq] at hrun
    obtain ⟨⟨t, n⟩, hr, rfl, -⟩ := hrun
    exact createContainer_stored h hr
  | createEntry path data =>
    simp only [Request.run, asReply, map_eq_ok, Prod.mk.injEq] at hrun
    obtain ⟨⟨t, n⟩, hr, rfl, -⟩ := hrun
    exact createLeaf_stored (hk rfl) h hr hal
  | createSpecial path type data =>
    simp only [Request.run, asReply, map_eq_ok, Prod.mk.injEq, Aloelite.createSpecial, bind_eq_ok]
      at hrun
    obtain ⟨⟨t, n⟩, ⟨u, -, hr⟩, rfl, -⟩ := hrun
    exact createLeaf_stored (hk rfl) h hr hal
  | writeAll path data =>
    simp only [Request.run, noReply, map_eq_ok, Prod.mk.injEq] at hrun
    obtain ⟨t, hr, rfl, -⟩ := hrun
    exact writeAll_stored (hk rfl) hh h hr hal
  | append path data =>
    simp only [Request.run, asReply, map_eq_ok, Prod.mk.injEq] at hrun
    obtain ⟨⟨t, n⟩, hr, rfl, -⟩ := hrun
    exact append_stored (hk rfl) hh h hr hal
  | writeRange path offset data =>
    simp only [Request.run, asReply, map_eq_ok, Prod.mk.injEq] at hrun
    obtain ⟨⟨t, n⟩, hr, rfl, -⟩ := hrun
    exact writeRange_stored (hk rfl) hh h hr hal
  | truncate path size =>
    simp only [Request.run, noReply, map_eq_ok, Prod.mk.injEq] at hrun
    obtain ⟨t, hr, rfl, -⟩ := hrun
    exact truncate_stored (hk rfl) hh h hr hal
  | copy src dst =>
    simp only [Request.run, asReply, map_eq_ok, Prod.mk.injEq] at hrun
    obtain ⟨⟨t, n⟩, hr, rfl, -⟩ := hrun
    exact copy_stored hl hh h hr hal
  | pack path =>
    simp only [Request.run, asReply, map_eq_ok, Prod.mk.injEq] at hrun
    obtain ⟨⟨t, n⟩, hr, rfl, -⟩ := hrun
    exact pack_stored (hk rfl) h hr hal
  | unpack path =>
    simp only [Request.run, noReply, map_eq_ok, Prod.mk.injEq] at hrun
    obtain ⟨t, hr, rfl, -⟩ := hrun
    exact unpack_stored (hk rfl) h hr hal
  | _ =>
    refine h.calm (request_calm ?_ hrun)
    trivial

end Aloelite
