import Aloelite.FuseRequests

/-! A node that the daemon makes under a free name: the file right after, the calls that
follow while the mount stays valid, and the four requests that make one. -/
namespace Aloelite

open Attempts Attempt Fallible KeyedRows Relation

variable {C : Crypto} {M : Msgpack} {E : Env} {k : Cipher} {db db' : Db} {tx tx' : Tx}
  {mount : MountId} {path base name : String} {dir anchor n : NodeId} {a : AloeFuse} {d d' : Daemon}
  {p : Inode}

/-! ### A node made under a free name -/

/-- The file after a node was made: the placement is there, the path leads to the node at
every later call, nobody holds a lock on it. -/
structure Made (E : ℕ → Env) (k : Cipher) (mount : MountId) (path : String) (type : NodeType)
    (dir n : NodeId) (name : String) (db db' : Db) : Prop where
  linked : db'.Linked
  placements : ∀ q, q ∈ db'.placements ↔ q ∈ db.placements ∨ q = (dir, n, name)
  legible : Legible path
  opens : ∃ m, (∀ i, requireMount (E i) k db' mount true = .ok m) ∧
    resolve db' m.mountPoint path = .ok ⟨n, type⟩
  free : ∀ r ∈ db'.locks, r.nodeId ≠ n
  locks : db'.locks = db.locks

section

variable {type : NodeType} {m : MountCtx} {parent : NodeId} {createdAt modifiedAt : Option Int}
  {metadata : Metadata} {tx₁ tx₂ : Tx}

/-- What a birth adds to the tables besides the placement. -/
structure Brought (type : NodeType) (n : NodeId) (db db' : Db) : Prop where
  fresh : db.node? n = none
  nodes : ∃ row : NodeRow, row.nodeId = n ∧ row.type = type ∧ db'.nodes = db.nodes ++ [row]
  mounts : db'.mounts = db.mounts
  volumes : db'.volumes = db.volumes
  locks : db'.locks = db.locks

theorem birth_brought
    (hnew : newNode E tx m type name createdAt modifiedAt metadata = .ok (tx₁, n))
    (hfill : Steps (Fills n) E.now tx₁.db tx₂.db)
    (hlink : linkChild E tx₂ m parent n none = .ok tx') :
    Brought type n tx.db tx'.db := by
  obtain ⟨rfl, db₁, hrow, rfl⟩ := newNode_ok hnew
  obtain ⟨db₂, hedge, rfl⟩ := linkChild_ok hlink
  obtain ⟨hnone, hnodes, hmounts, hvolumes, hlocks, -⟩ := birth_shape hrow hfill hedge
  exact ⟨hnone, ⟨_, rfl, rfl, hnodes⟩, hmounts, hvolumes, hlocks⟩

theorem createContainer_brought (h : createContainer E k tx mount path = .ok (tx', n)) :
    Brought .container n tx.db tx'.db := by
  simp only [createContainer, bind_eq_ok, pure_eq_ok, Prod.mk.injEq] at h
  obtain ⟨m, hm, p, hp, u, -, ⟨tx₁, node⟩, hnew, tx₂, hlink, rfl, rfl⟩ := h
  exact birth_brought hnew ReflTransGen.refl hlink

theorem createLeaf_brought {data : Bytes}
    (h : createLeaf C E k tx mount path type data = .ok (tx', n)) :
    Brought type n tx.db tx'.db := by
  simp only [createLeaf, bind_eq_ok, pure_eq_ok, Prod.mk.injEq] at h
  obtain ⟨m, hm, p, hp, u, -, ⟨tx₁, node⟩, hnew, tx₂, hput, tx₃, hlink, rfl, rfl⟩ := h
  exact birth_brought hnew (putInitialContent_steps hput) hlink

theorem nodeType?_brought (h : Brought type n db db') {x : NodeId} {t : NodeType}
    (ht : db.nodeType? x = some t) :
    db'.nodeType? x = some t := by
  obtain ⟨row, -, -, hnodes⟩ := h.nodes
  obtain ⟨r, hr, hrt⟩ := Option.map_eq_some_iff.mp ht
  have hold : db'.node? x = some r := by
    rw [Db.node?, hnodes]
    exact lookup_append_of_some hr [row]
  rw [Db.nodeType?, hold, ← hrt]
  rfl

/-- Under a free name, a birth makes the path lead to the node. -/
theorem Made.of_birth {E : ℕ → Env} (hlegible : Legible path) (hl : db.Linked) (hl' : db'.Linked)
    (hplaced : db.LocksPlaced) (hm : ∀ i, requireMount (E i) k db mount true = .ok m)
    (hp : resolveParent db m.mountPoint path = .ok ⟨dir, name⟩) (hfree : db.binding dir name = none)
    (hborn : Born (dir, n, name) db db') (hbrought : Brought type n db db') :
    Made E k mount path type dir n name db db' := by
  have hmem : ∀ q, q ∈ db'.placements ↔ q ∈ db.placements ∨ q = (dir, n, name) := by
    intro q
    rw [hborn.placements, List.mem_append, List.mem_singleton]
  have hnone := (binding_eq_none hl).mp hfree
  have hnew : db'.binding dir name = some n := by
    apply (binding_eq_some hl').mpr
    refine ⟨(hmem _).mpr (Or.inr rfl), ?_⟩
    intro x hx
    rcases (hmem _).mp hx with hold | heq
    · exact absurd hold (hnone x)
    · simp only [Prod.mk.injEq] at heq
      exact heq.2.1.le
  have hkeep : ∀ dir₁ name₁ x, db.binding dir₁ name₁ = some x → db'.binding dir₁ name₁ =
      some x := by
    intro dir₁ name₁ x hx
    rw [← hx]
    apply binding_congr hl hl'
    intro y
    rw [hmem]
    apply or_iff_left
    intro heq
    simp only [Prod.mk.injEq] at heq
    rw [heq.1, heq.2.2, hfree] at hx
    cases hx
  obtain ⟨row, hid, htype, hnodes⟩ := hbrought.nodes
  have hnode : db'.node? n = some row := by
    have hnone' : lookup NodeRow.nodeId db.nodes row.nodeId = none := by
      rw [hid]
      exact hbrought.fresh
    rw [Db.node?, hnodes, ← hid]
    exact lookup_append_self hnone'
  refine ⟨hl', hmem, hlegible, ⟨m, ?_, ?_⟩, ?_, hbrought.locks⟩
  · intro i
    rw [requireMount_congr hbrought.mounts hbrought.volumes]
    exact hm i
  · have hp' : resolveParent db' m.mountPoint path = .ok ⟨dir, name⟩ := by
      rw [resolveParent_eq_ok hlegible] at hp ⊢
      exact ⟨hp.1, hp.2.1, descend_persists hkeep (fun x t => nodeType?_brought hbrought) hp.2.2⟩
    apply (resolve_of_parent hlegible hp').mpr
    simp only [descend, ↓reduceIte, resolveSegment_of_binding hnew hnode, hid, htype]
  · intro r hr heq
    rw [hbrought.locks] at hr
    have hexists := hplaced r hr
    rw [heq, hbrought.fresh] at hexists
    cases hexists

/-- A change of something else than names, types, mounts and locks. -/
theorem Made.amended {E : ℕ → Env} {db₂ : Db} (h : Made E k mount path type dir n name db db')
    (hl : db₂.Linked) (hplacements : db₂.placements = db'.placements)
    (htypes : ∀ x, db₂.nodeType? x = db'.nodeType? x) (hmounts : db₂.mounts = db'.mounts)
    (hvolumes : db₂.volumes = db'.volumes) (hlocks : db₂.locks = db'.locks) :
    Made E k mount path type dir n name db db₂ := by
  obtain ⟨m, hm, hfound⟩ := h.opens
  refine ⟨hl, ?_, h.legible, ⟨m, ?_, ?_⟩, ?_, hlocks.trans h.locks⟩
  · rw [hplacements]
    exact h.placements
  · intro i
    rw [requireMount_congr hmounts hvolumes]
    exact hm i
  · refine resolve_persists h.legible ?_ ?_ hfound
    · intro dir₁ name₁ x hx
      rw [← hx]
      apply binding_congr h.linked hl
      intro y
      rw [hplacements]
    · intro x t ht
      rw [htypes]
      exact ht
  · rw [hlocks]
    exact h.free

end

/-! ### What follows a creation -/

section

variable {E : ℕ → Env} {i : ℕ} {type : NodeType} {db₀ : Db}

/-- The daemon's view of a node just made. -/
abbrev JustMade (a : AloeFuse) (E : ℕ → Env) (path : String) (type : NodeType) (dir n : NodeId)
    (name : String) (db₀ : Db) (d : Daemon) : Prop :=
  Made E (d.sys.conns a.conn).cipher a.mount path type dir n name db₀ d.sys.db

theorem call_setOwner {mode : Option Int} (hreach : Reaches C M (fun _ _ => True) d.sys)
    (hmade : JustMade a E path type dir n name db₀ d) :
    ∃ d', a.call C M (E i) (.request a.mount (.setOwner path none none mode)) d = (d', .ok .done) ∧
      d'.sys.conns = d.sys.conns ∧ Reaches C M (fun _ _ => True) d'.sys ∧
      JustMade a E path type dir n name db₀ d' := by
  obtain ⟨m, hm, hfound⟩ := hmade.opens
  let db₁ := d.sys.db.setOwner (E i).now n none none (mode.map (· % 4096))
  have hrun : (Request.setOwner path none none mode).run C M (E i) (d.sys.conns a.conn).cipher
      d.sys.begin a.mount =
      .ok ({ d.sys.begin with db := db₁ }, .done) := by
    simp only [Request.run, noReply, Aloelite.setOwner, Sys.begin, hm i, hfound, ok_bind]
    rfl
  obtain ⟨d', hcall, hdb, hconns, -⟩ := call_of_run hrun
  have hreach' := call_reaches hreach (congrArg Prod.fst hcall)
  refine ⟨d', hcall, hconns, hreach', ?_⟩
  have hquiet : (Stmt.setOwner n none none (mode.map (· % 4096))).quiet := trivial
  have hexec : (Stmt.setOwner n none none (mode.map (· % 4096))).exec (E i).now d.sys.db =
      .ok db₁ := rfl
  have hset : Settled d.sys.db db₁ := Stmt.settled hquiet hexec
  rw [JustMade, hconns]
  refine hmade.amended hreach'.sound.linked ?_ ?_ ?_ ?_ ?_
  · rw [hdb]
    rfl
  · rw [hdb]
    exact hset.types
  · rw [hdb]
    rfl
  · rw [hdb]
    rfl
  · rw [hdb]
    rfl

theorem unlocked_of_free {E : Env} (hfree : ∀ r ∈ db.locks, r.nodeId ≠ n) :
    requireUnlocked E db n mount = .ok () := by
  have hnone : db.checkLockHeld E.now n mount = false := by
    rw [Db.checkLockHeld, List.any_eq_false]
    intro r hr
    have hne := hfree r (List.mem_filter.mp hr).1
    simp [hne]
  rw [requireUnlocked, hnone]
  rfl

theorem call_setMetadata {metadata : Metadata} (hreach : Reaches C M (fun _ _ => True) d.sys)
    (hmade : JustMade a E path type dir n name db₀ d) :
    ∃ d', a.call C M (E i) (.request a.mount (.setMetadata path metadata)) d = (d', .ok .done) ∧
      d'.sys.conns = d.sys.conns ∧ Reaches C M (fun _ _ => True) d'.sys ∧
      JustMade a E path type dir n name db₀ d' := by
  obtain ⟨m, hm, hfound⟩ := hmade.opens
  let db₁ := d.sys.db.setMetadata n metadata
  have hunlocked : requireUnlocked (E i) d.sys.db n a.mount = .ok () := unlocked_of_free hmade.free
  have hrun : (Request.setMetadata path metadata).run C M (E i) (d.sys.conns a.conn).cipher
      d.sys.begin a.mount =
      .ok ({ d.sys.begin with db := db₁ }, .done) := by
    simp only [Request.run, noReply, Aloelite.setMetadata, Sys.begin, hm i, hfound,
      hunlocked, ok_bind]
    rfl
  obtain ⟨d', hcall, hdb, hconns, -⟩ := call_of_run hrun
  have hreach' := call_reaches hreach (congrArg Prod.fst hcall)
  refine ⟨d', hcall, hconns, hreach', ?_⟩
  have hquiet : (Stmt.setMetadata n metadata).quiet := trivial
  have hexec : (Stmt.setMetadata n metadata).exec (E i).now d.sys.db = .ok db₁ := rfl
  have hset : Settled d.sys.db db₁ := Stmt.settled hquiet hexec
  rw [JustMade, hconns]
  refine hmade.amended hreach'.sound.linked ?_ ?_ ?_ ?_ ?_
  · rw [hdb]
    rfl
  · rw [hdb]
    exact hset.types
  · rw [hdb]
    rfl
  · rw [hdb]
    rfl
  · rw [hdb]
    rfl

theorem node?_of_made (hmade : Made E k mount path type dir n name db₀ db) :
    (db.node? n).isSome := by
  obtain ⟨m, hm, hfound⟩ := hmade.opens
  exact Db.node?_isSome_of_type (resolve_nodeType hfound)

theorem statById_of_made (hmade : Made E k mount path type dir n name db₀ db) :
    ∃ row, statById (E i) k db mount n = .ok row := by
  obtain ⟨m, hm, hfound⟩ := hmade.opens
  obtain ⟨row, hrow⟩ := Option.isSome_iff_exists.mp (node?_of_made hmade)
  refine ⟨row, ?_⟩
  rw [statById, requireMount_read (hm i), ok_bind, hrow]
  rfl

theorem stat_of_made (hmade : Made E k mount path type dir n name db₀ db) :
    ∃ row, stat (E i) k db mount path = .ok row := by
  obtain ⟨m, hm, hfound⟩ := hmade.opens
  obtain ⟨row, hrow⟩ := statById_of_made (i := i) hmade
  refine ⟨row, ?_⟩
  rw [stat, requireMount_read (hm i), ok_bind, hfound, ok_bind]
  exact hrow

theorem call_openWrite (hreach : Reaches C M (fun _ _ => True) d.sys) (hleaf : type ≠ .container)
    (hlock : d.sys.db.lock? (E i).uuid = none) (hmade : JustMade a E path type dir n name db₀ d) :
    ∃ d' reply, a.call C M (E i) (.openWrite a.mount path .truncate none) d = (d', .ok reply) ∧
      d'.sys.conns = d.sys.conns ∧ Reaches C M (fun _ _ => True) d'.sys ∧
      (∀ q, q ∈ d'.sys.db.placements ↔ q ∈ d.sys.db.placements) ∧
      ∀ j, ∃ row, statById (E j) (d'.sys.conns a.conn).cipher d'.sys.db a.mount n = .ok row := by
  obtain ⟨m, hm, hfound⟩ := hmade.opens
  let lock : LockRow := { lockId := (E i).uuid, mountId := a.mount, nodeId := n, expiresAt := none }
  let db₁ : Db := { d.sys.db with locks := d.sys.db.locks ++ [lock] }
  let tx₁ : Tx := { d.sys.begin with db := db₁ }
  -- the entry was made a moment ago and nobody holds a lock on it
  have hunlocked : requireUnlocked (E i) d.sys.db n a.mount = .ok () := unlocked_of_free hmade.free
  have hmount : (d.sys.db.mount? a.mount).isSome := by
    obtain ⟨row, volume, hrow, -⟩ := requireMount_ok (hm i)
    obtain ⟨hrow', -⟩ := validMount?_eq_some.mp hrow
    simp [hrow']
  have hcreate : d.sys.db.createLock lock = .ok db₁ := by
    simp [Db.createLock, lock, hlock, Option.isSome_iff_ne_none.mp hmount,
      Option.isSome_iff_ne_none.mp (node?_of_made hmade), refuse, db₁]
  have hwriter : writerLock (E i) d.sys.begin a.mount n none = .ok (tx₁, (E i).uuid) := by
    have hbegin : d.sys.begin.db = d.sys.db := rfl
    have hrun : d.sys.begin.run (E i) (.createLock lock) = .ok tx₁ := by
      rw [Tx.run, Stmt.exec, hbegin, hcreate]
      rfl
    rw [writerLock, hbegin, hunlocked, ok_bind, hrun]
    rfl
  have htarget : openTarget C (E i) (d.sys.conns a.conn).cipher d.sys.begin a.mount m path
      .truncate = .ok (d.sys.begin, n) := by
    have hbegin : d.sys.begin.db = d.sys.db := rfl
    rw [openTarget, hbegin, hfound]
    simp [refuse, hleaf]
  have hbegin : d.sys.begin.db = d.sys.db := rfl
  let w : Descriptor :=
    { node := n, volume := m.volume, cs := chunkSizeOf db₁ m.volume, writable := true,
      lock := some (E i).uuid, ownsLock := true }
  have hopen : openWrite C (E i) (d.sys.conns a.conn).cipher d.sys.begin a.mount path .truncate
      none =
      .ok (tx₁, w) := by
    simp only [openWrite, hbegin, hm i, htarget, hwriter, ok_bind]
    rfl
  have hexec : exec C M (E i) d.sys a.conn (.openWrite a.mount path .truncate none) =
      ({ d.sys.commit tx₁ with fds := d.sys.fds ++ [{ conn := a.conn, d := w }] },
        .ok (.fd d.sys.fds.length)) := by
    simp only [exec, Sys.transact, hopen]
  have hcall : a.call C M (E i) (.openWrite a.mount path .truncate none) d =
      ({ d with
          sys := { (exec C M (E i) d.sys a.conn (.openWrite a.mount path .truncate none)).1 with
            clock := (E i).now } },
        .ok (.fd d.sys.fds.length)) := by
    rw [AloeFuse.call, hexec]
  have hreach' := call_reaches hreach (congrArg Prod.fst hcall)
  refine ⟨_, _, hcall, ?_, hreach', ?_, ?_⟩
  · rw [hexec]
    rfl
  · intro q
    rw [hexec]
    exact Iff.rfl
  · intro j
    rw [hexec]
    obtain ⟨row, hrow⟩ := Option.isSome_iff_exists.mp (node?_of_made hmade)
    refine ⟨row, ?_⟩
    change statById (E j) (d.sys.conns a.conn).cipher db₁ a.mount n = .ok row
    have hread : requireMount (E j) (d.sys.conns a.conn).cipher db₁ a.mount false = .ok m :=
      (requireMount_congr rfl rfl).trans (requireMount_read (hm j))
    rw [statById, hread, ok_bind]
    change orRaise (d.sys.db.node? n) FsError.notFound = .ok row
    rw [hrow]
    rfl

theorem answer_of_made (hmade : JustMade a E path type dir n name db₀ d) :
    ∃ d', a.answer (E i) n d = (d', .ok (.attr n)) ∧ d'.sys = d.sys := by
  let d₁ := (a.remember n d).1
  have hremember : a.remember n d = (d₁, .ok ()) := rfl
  obtain ⟨row, hrow⟩ := statById_of_made (i := i) hmade
  have hlook : a.look (fun k db => statById (E i) k db a.mount n) d₁ = (d₁, .ok row) := by
    rw [AloeFuse.look, ask_run]
    exact congrArg (Prod.mk d₁) hrow
  refine ⟨d₁, ?_, rfl⟩
  rw [AloeFuse.answer, bind_of_ok hremember, bind_of_ok hlook]
  rfl

/-- The requests that make one node, with its path and type. -/
def Request.makes (path : String) (type : NodeType) : Request → Prop
  | .createContainer path' => path' = path ∧ type = .container
  | .createEntry path' _ => path' = path ∧ type = .entry
  | .createSpecial path' type' _ => path' = path ∧ type = type'
  | _ => False

/-- Its reply is the node, and under a free name the path leads to it. -/
theorem run_made {r : Request} {reply : Reply} (hr : r.makes (childPath base name) type)
    (hs : tx.db.Sound) (hs' : tx'.db.Sound) (hplaced : tx.db.LocksPlaced) (hseg : IsName name)
    (hsteady : SteadyMount E mount tx.db)
    (hlead : Leads tx.db (tx.db.anchorOf (E 0).now mount) base dir)
    (hfree : tx.db.binding dir name = none) (h : r.run C M (E i) k tx mount = .ok (tx', reply)) :
    ∃ n, reply = .node n ∧ Made E k mount (childPath base name) type dir n name tx.db tx'.db := by
  have hmade : ∀ {n : NodeId}, (∃ m p, requireMount (E i) k tx.db mount true = .ok m ∧
      resolveParent tx.db m.mountPoint (childPath base name) = .ok p ∧
        Born (p.container, n, p.name) tx.db tx'.db) →
      Brought type n tx.db tx'.db →
        Made E k mount (childPath base name) type dir n name tx.db tx'.db := by
    intro n hborn hbrought
    obtain ⟨m, p, hm, hp, hborn⟩ := hborn
    rw [← hsteady.anchorOf i, anchorOf_eq hm] at hlead
    obtain rfl := parent_of_child hlead hseg hp
    have hm' : ∀ j, requireMount (E j) k tx.db mount true = .ok m := fun j =>
      (hsteady.requireMount j i).trans hm
    exact Made.of_birth (legible_childPath hlead.legible hseg) hs.linked hs'.linked hplaced hm' hp
      hfree hborn hbrought
  cases r with
  | createContainer path =>
    obtain ⟨rfl, rfl⟩ := hr
    obtain ⟨n, hrun, rfl⟩ := asReply_ok h
    exact ⟨n, rfl, hmade (createContainer_born hrun) (createContainer_brought hrun)⟩
  | createEntry path data =>
    obtain ⟨rfl, rfl⟩ := hr
    obtain ⟨n, hrun, rfl⟩ := asReply_ok h
    exact ⟨n, rfl, hmade (createLeaf_names hrun) (createLeaf_brought hrun)⟩
  | createSpecial path type' data =>
    obtain ⟨rfl, rfl⟩ := hr
    obtain ⟨n, hrun, rfl⟩ := asReply_ok h
    refine ⟨n, rfl, hmade (createSpecial_names hrun) ?_⟩
    simp only [Aloelite.createSpecial, bind_eq_ok] at hrun
    obtain ⟨u, -, hleaf⟩ := hrun
    exact createLeaf_brought hleaf
  | _ => exact hr.elim

/-- A request of the daemon that adds one name, or fails and changes no table. -/
structure Adds (a : AloeFuse) (E : ℕ → Env) (p : Inode) (name : String) (x : Handler FuseReply)
    (d : Daemon) : Prop where
  fails : ∀ d' e, x d = (d', .error e) → d'.sys.db = d.sys.db
  adds : ∀ d' reply, x d = (d', .ok reply) → ∃ dir n, d.dirOf a (E 0) p = some dir ∧
    reply = .attr n ∧ ∀ q, q ∈ d'.sys.db.placements ↔ q ∈ d.sys.db.placements ∨ q = (dir, n, name)

/-- What makes a node and then only touches it up adds the name: nothing after the
making can fail. -/
theorem adds_of_make {r : String → Request} {f : String → NodeId → Handler FuseReply}
    (hreach : Reaches C M (fun _ _ => True) d.sys) (hsteady : SteadyMount E a.mount d.sys.db)
    (hback : LeadsBack a (E 0) d p) (hseg : IsName name)
    (hfree : ∀ dir ∈ d.dirOf a (E 0) p, d.sys.db.binding dir name = none)
    (hr : ∀ base, (r base).makes (childPath base name) type)
    (hrest : ∀ base dir n d₁, Reaches C M (fun _ _ => True) d₁.sys →
      JustMade a E (childPath base name) type dir n name d.sys.db d₁ →
      ∃ d₂, f base n d₁ = (d₂, .ok (.attr n)) ∧
        ∀ q, q ∈ d₂.sys.db.placements ↔ q ∈ d₁.sys.db.placements) :
    Adds a E p name (do
      let base ← a.path (E 0) p
      let node ← a.make C M (E 1) (.request a.mount (r base))
      f base node) d := by
  -- every run: the path, then the call, then the rest, which succeeds
  have hcases : ∀ d' res, (do
      let base ← a.path (E 0) p
      let node ← a.make C M (E 1) (.request a.mount (r base))
      f base node : Handler FuseReply) d = (d', res) →
      (∃ e, res = .error e ∧ d'.sys.db = d.sys.db) ∨ ∃ dir n, d.dirOf a (E 0) p = some dir ∧
        res = .ok (.attr n) ∧ ∀ q, q ∈ d'.sys.db.placements ↔ q ∈ d.sys.db.placements ∨
        q = (dir, n, name) := by
    intro d' res h
    rcases hpath : a.path (E 0) p d with ⟨d₀, e | base⟩
    · obtain rfl := path_error hpath
      rw [bind_of_error hpath] at h
      obtain ⟨rfl, rfl⟩ := Prod.mk.inj h
      exact Or.inl ⟨e, rfl, rfl⟩
    obtain ⟨rfl, dir, hdir, hlead⟩ := path_leads hback hpath
    rw [bind_of_ok hpath] at h
    rcases hcall : a.call C M (E 1) (.request a.mount (r base)) d₀ with ⟨d₁, e | reply⟩
    · have hmake : a.make C M (E 1) (.request a.mount (r base)) d₀ = (d₁, .error e) := by
        rw [AloeFuse.make, bind_of_error hcall]
      rw [bind_of_error hmake] at h
      obtain ⟨rfl, rfl⟩ := Prod.mk.inj h
      exact Or.inl ⟨e, rfl, call_error hcall⟩
    obtain ⟨tx, hrun, hdb, hconns, -⟩ := call_ok hcall
    have hreach₁ := call_reaches hreach (congrArg Prod.fst hcall)
    have hsound : tx.db.Sound := hdb ▸ hreach₁.sound
    have hsteady₀ : SteadyMount E a.mount d₀.sys.begin.db := hsteady
    obtain ⟨n, rfl, hmade⟩ :=
      run_made (hr base) hreach.sound hsound hreach.locksPlaced hseg hsteady₀
      hlead (hfree dir hdir) hrun
    have hjust : JustMade a E (childPath base name) type dir n name d₀.sys.db d₁ := by
      rw [JustMade, hconns, hdb]
      exact hmade
    have hmake : a.make C M (E 1) (.request a.mount (r base)) d₀ = (d₁, .ok n) := by
      rw [AloeFuse.make, bind_of_ok hcall]
      rfl
    obtain ⟨d₂, hdone, hplacements⟩ := hrest base dir n d₁ hreach₁ hjust
    rw [bind_of_ok hmake, hdone] at h
    obtain ⟨rfl, rfl⟩ := Prod.mk.inj h
    refine Or.inr ⟨dir, n, hdir, rfl, ?_⟩
    intro q
    rw [hplacements, hjust.placements]
  constructor
  · intro d' e h
    rcases hcases d' _ h with ⟨e', -, hdb⟩ | ⟨dir, n, -, hres, -⟩
    · exact hdb
    · cases hres
  · intro d' reply h
    rcases hcases d' _ h with ⟨e', hres, -⟩ | ⟨dir, n, hdir, hres, hplacements⟩
    · cases hres
    · exact ⟨dir, n, hdir, Except.ok.inj hres, hplacements⟩

theorem only_false {x : Handler Unit} : only false x d = (d, .ok ()) := rfl

theorem only_call {E : Env} {op : Op} {c : Bool} {d₁ : Daemon} {reply : Reply} (hc : c = true)
    (h : a.call C M E op d = (d₁, .ok reply)) :
    only c (do let _ ← a.call C M E op) d = (d₁, .ok ()) := by
  rw [only, if_pos hc, bind_of_ok h]
  rfl

/-- A setting of the owner that is made or not, and the answer. -/
theorem owner_answer (mode : Option Int) (c : Bool) {d₁ : Daemon}
    (hreach : Reaches C M (fun _ _ => True) d₁.sys)
    (hmade : JustMade a E path type dir n name db₀ d₁) :
    ∃ d₂, only c (do
        let _ ← a.call C M (E i) (.request a.mount (.setOwner path none none mode))) d₁ =
          (d₂, .ok ()) ∧
      Reaches C M (fun _ _ => True) d₂.sys ∧ JustMade a E path type dir n name db₀ d₂ := by
  cases c with
  | false => exact ⟨d₁, only_false, hreach, hmade⟩
  | true =>
    obtain ⟨d₂, hcall, -, hreach₂, hmade₂⟩ := call_setOwner hreach hmade
    exact ⟨d₂, only_call rfl hcall, hreach₂, hmade₂⟩

variable (hreach : Reaches C M (fun _ _ => True) d.sys) (hsteady : SteadyMount E a.mount d.sys.db)
  (hback : LeadsBack a (E 0) d p) (hseg : IsName name)
  (hfree : ∀ dir ∈ d.dirOf a (E 0) p, d.sys.db.binding dir name = none)

include hreach hsteady hback hseg hfree

theorem mkdir_adds (mode : ℕ) : Adds a E p name (a.mkdir C M E p name mode) d := by
  refine adds_of_make (r := fun base => .createContainer (childPath base name)) hreach hsteady hback
    hseg
    hfree (fun base => ⟨rfl, rfl⟩) ?_
  intro base dir n d₁ hreach₁ hmade
  let metadata : Metadata := ⟨[("mode", octal (mode &&& 0o7777))], List.nodup_singleton _⟩
  obtain ⟨d₂, honly, hmade₂⟩ : ∃ d₂, only (mode &&& 0o7777 ≠ 0 ∧ mode &&& 0o7777 ≠ 0o777) (do
      let _ ← a.call C M (E 2) (.request a.mount (.setMetadata (childPath base name) metadata)))
        d₁ =
        (d₂, .ok ()) ∧
      JustMade a E (childPath base name) .container dir n name d.sys.db d₂ := by
    cases decide (mode &&& 0o7777 ≠ 0 ∧ mode &&& 0o7777 ≠ 0o777) with
    | false => exact ⟨d₁, only_false, hmade⟩
    | true =>
      obtain ⟨d₂, hcall, -, -, hmade₂⟩ := call_setMetadata (i := 2) hreach₁ hmade
      exact ⟨d₂, only_call rfl hcall, hmade₂⟩
  obtain ⟨d₃, hanswer, hsys⟩ := answer_of_made (i := 3) hmade₂
  refine ⟨d₃, ?_, ?_⟩
  · rw [bind_of_ok honly]
    exact hanswer
  · intro q
    rw [hsys]
    rw [hmade₂.placements, hmade.placements]

theorem symlink_adds (target : Bytes) : Adds a E p name (a.symlink C M E p name target) d := by
  refine adds_of_make (r := fun base => .createSpecial (childPath base name) .symlink target) hreach
    hsteady hback hseg
    hfree (fun base => ⟨rfl, rfl⟩) ?_
  intro base dir n d₁ hreach₁ hmade
  obtain ⟨d₂, hanswer, hsys⟩ := answer_of_made (i := 2) hmade
  refine ⟨d₂, hanswer, ?_⟩
  intro q
  rw [hsys]

theorem create_adds (mode flags : ℕ) (hlock : d.sys.db.lock? (E 3).uuid = none) :
    Adds a E p name (a.create C M E p name mode flags) d := by
  refine adds_of_make (r := fun base => .createEntry (childPath base name) []) hreach hsteady hback
    hseg
    hfree (fun base => ⟨rfl, rfl⟩) ?_
  intro base dir n d₁ hreach₁ hmade
  obtain ⟨d₂, honly, hreach₂, hmade₂⟩ := owner_answer (i := 2) (some ((mode &&& 0o7777 : ℕ) : Int))
    (mode &&& 0o7777 ≠ 0 ∧ mode &&& 0o7777 ≠ 0o666) hreach₁ hmade
  let d₃ := (a.remember n d₂).1
  have hremember : a.remember n d₂ = (d₃, .ok ()) := rfl
  have hmade₃ : JustMade a E (childPath base name) .entry dir n name d.sys.db d₃ := hmade₂
  have hsame : ∀ q, q ∈ d₃.sys.db.placements ↔ q ∈ d₁.sys.db.placements := by
    intro q
    rw [hmade₃.placements, hmade.placements]
  obtain ⟨row, hrow⟩ := statById_of_made (i := 4) hmade₃
  have hlook : a.look (fun k db => statById (E 4) k db a.mount n) d₃ = (d₃, .ok row) :=
    congrArg (Prod.mk d₃) hrow
  rw [bind_of_ok honly, bind_of_ok hremember]
  split
  · -- an append batcher: nothing is opened
    refine ⟨d₃, ?_, hsame⟩
    exact bind_of_ok hlook
  split
  · -- a random-access handle: the path is looked at once
    obtain ⟨info, hinfo⟩ := stat_of_made (i := 3) hmade₃
    have hstat : a.look (fun k db => stat (E 3) k db a.mount (childPath base name)) d₃ =
        (d₃, .ok info) :=
      congrArg (Prod.mk d₃) hinfo
    refine ⟨d₃, ?_, hsame⟩
    rw [bind_of_ok hstat]
    exact bind_of_ok hlook
  · -- a writer
    have hreach₃ : Reaches C M (fun _ _ => True) d₃.sys := hreach₂
    have hfresh : d₃.sys.db.lock? (E 3).uuid = none := by
      rw [Db.lock?, hmade₃.locks]
      exact hlock
    obtain ⟨d₄, reply, hcall, -, -, hplacements, hthere⟩ :=
      call_openWrite hreach₃ (by decide) hfresh hmade₃
    obtain ⟨row', hrow'⟩ := hthere 4
    have hlook₄ : a.look (fun k db => statById (E 4) k db a.mount n) d₄ = (d₄, .ok row') :=
      congrArg (Prod.mk d₄) hrow'
    refine ⟨d₄, ?_, ?_⟩
    · refine (bind_of_ok hcall).trans ?_
      exact bind_of_ok hlook₄
    · intro q
      rw [hplacements, hsame]

theorem mknod_adds (mode : ℕ) : Adds a E p name (a.mknod C M E p name mode) d := by
  -- whatever the format bits ask to be made, the rest is the same
  have hmake : ∀ (r : String → Request) (type : NodeType),
      (∀ base, (r base).makes (childPath base name) type) →
      (∀ base, a.mknodOp (childPath base name) mode = .ok (.request a.mount (r base))) →
      Adds a E p name (a.mknod C M E p name mode) d := by
    intro r type hr hop
    have heq : a.mknod C M E p name mode = (do
        let base ← a.path (E 0) p
        let node ← a.make C M (E 1) (.request a.mount (r base))
        only (mode &&& 0o7777 ≠ 0) (do
          let _ ← a.call C M (E 2) (.request a.mount
            (.setOwner (childPath base name) none none (some ((mode &&& 0o7777 : ℕ) : Int)))))
        a.answer (E 3) node) := by
      simp only [AloeFuse.mknod, hop]
      rfl
    rw [heq]
    apply adds_of_make hreach hsteady hback hseg hfree hr
    intro base dir n d₁ hreach₁ hmade
    obtain ⟨d₂, honly, -, hmade₂⟩ := owner_answer (i := 2) (some ((mode &&& 0o7777 : ℕ) : Int))
      (mode &&& 0o7777 ≠ 0) hreach₁ hmade
    obtain ⟨d₃, hanswer, hsys⟩ := answer_of_made (i := 3) hmade₂
    refine ⟨d₃, ?_, ?_⟩
    · rw [bind_of_ok honly]
      exact hanswer
    · intro q
      rw [hsys, hmade₂.placements, hmade.placements]
  by_cases hdevice : mode &&& 0o170000 = 0o060000 ∨ mode &&& 0o170000 = 0o020000
  · -- a device: refused before anything is made
    have hop : ∀ path, a.mknodOp path mode = .error .unsupported := by
      intro path
      simp only [AloeFuse.mknodOp, if_pos hdevice]
    have hfails : ∀ d' res, a.mknod C M E p name mode d = (d', res) → d' = d ∧ ∃ e, res =
        .error e := by
      intro d' res h
      rw [AloeFuse.mknod] at h
      rcases hpath : a.path (E 0) p d with ⟨d₀, e | base⟩
      · obtain rfl := path_error hpath
        rw [bind_of_error hpath] at h
        obtain ⟨rfl, rfl⟩ := Prod.mk.inj h
        exact ⟨rfl, e, rfl⟩
      · obtain ⟨rfl, -⟩ := path_ok hpath
        rw [bind_of_ok hpath] at h
        have hask : (ask (fun _ => a.mknodOp (childPath base name) mode) : Handler Op) d₀ =
            (d₀, .error .unsupported) := by
          rw [ask_run, hop]
        have herror := (bind_of_error hask).symm.trans h
        obtain ⟨rfl, rfl⟩ := Prod.mk.inj herror
        exact ⟨rfl, _, rfl⟩
    constructor
    · intro d' e h
      rw [(hfails d' _ h).1]
    · intro d' reply h
      obtain ⟨-, e, he⟩ := hfails d' _ h
      cases he
  by_cases hfifo : mode &&& 0o170000 = 0o010000
  · refine hmake (fun base => .createSpecial (childPath base name) .fifo []) .fifo
      (fun base => ⟨rfl, rfl⟩) ?_
    intro base
    simp only [AloeFuse.mknodOp, if_neg hdevice, if_pos hfifo]
  by_cases hsocket : mode &&& 0o170000 = 0o140000
  · refine hmake (fun base => .createSpecial (childPath base name) .socket []) .socket
      (fun base => ⟨rfl, rfl⟩) ?_
    intro base
    simp only [AloeFuse.mknodOp, if_neg hdevice, if_neg hfifo, if_pos hsocket]
  · refine hmake (fun base => .createEntry (childPath base name) []) .entry
      (fun base => ⟨rfl, rfl⟩) ?_
    intro base
    simp only [AloeFuse.mknodOp, if_neg hdevice, if_neg hfifo, if_neg hsocket]

end

end Aloelite
