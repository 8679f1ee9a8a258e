import Aloelite.Fuse
import Aloelite.Bindings
import Aloelite.LockedNodes

/-! The requests of the FUSE daemon beside a finite map that takes the same ones. The map
is followed as long as no name concerned holds a second node: an unlink must not
uncover one, a rename must not be covered by one. -/
namespace Aloelite

open Attempts Attempt Fallible KeyedRows Relation

variable {C : Crypto} {M : Msgpack} {E : Env} {k : Cipher} {db db' : Db} {tx tx' : Tx}
  {mount : MountId} {path base name : String} {dir anchor n : NodeId} {a : AloeFuse} {d d' : Daemon}
  {s : Sys} {p : Inode} {ns : Namespace} {e : FsError}

/-! ### What operations do to placements -/

theorem remove_names (h : remove E k tx mount path = .ok tx') :
    ∃ m p found, requireMount E k tx.db mount true = .ok m ∧
      resolveParent tx.db m.mountPoint path = .ok p ∧
      resolve tx.db m.mountPoint path = .ok found ∧
      tx'.db.placements =
        tx.db.placements.filter (fun q => q ≠ (p.container, found.node, p.name)) := by
  simp only [remove, bind_eq_ok] at h
  obtain ⟨m, hm, found, hfound, u, -, u₁, -, p, hp, u₂, -, hrun⟩ := h
  obtain ⟨db₁, hexec, rfl⟩ := Tx.run_ok.mp hrun
  obtain rfl := Except.ok.inj hexec
  exact ⟨m, p, found, hm, hp, hfound, archivePlacement_placements _ _ _⟩

theorem mem_map_renamed {parent : NodeId} {old : String} {q : NodeId × NodeId × String}
    {ps : List (NodeId × NodeId × String)} (hsrc : (parent, n, old) ∈ ps) :
    q ∈ ps.map (renamed parent n old name) ↔ (q ∈ ps ∧ q ≠ (parent, n, old)) ∨
      q = (parent, n, name) := by
  rw [List.mem_map]
  constructor
  · intro h
    obtain ⟨q₀, hq₀, rfl⟩ := h
    rw [renamed]
    split
    next => exact Or.inr rfl
    next hne => exact Or.inl ⟨hq₀, hne⟩
  · intro h
    rcases h with ⟨hq, hne⟩ | rfl
    · exact ⟨q, hq, if_neg hne⟩
    · exact ⟨_, hsrc, if_pos rfl⟩

/-- The binding a path's last segment has is what the path leads to. -/
theorem binding_of_resolve {p : Parent} {found : Resolved} (hlegible : Legible path)
    (hp : resolveParent db anchor path = .ok p) (hfound : resolve db anchor path = .ok found) :
    db.binding p.container p.name = some found.node := by
  obtain ⟨hit, hseg, hnode, -⟩ := resolveSegment_of_resolve hlegible hp hfound
  rw [Db.binding, hseg, Option.map_some, hnode]

/-! ### Requests -/

/-- The directory an inode stands for. -/
def Daemon.dirOf (d : Daemon) (a : AloeFuse) (E : Env) (p : Inode) : Option NodeId :=
  if p = ROOT then some (d.sys.db.anchorOf E.now a.mount) else d.n p

/-- The map after a request that was answered. A rename leaves it alone where both names
already name the node. -/
def Namespace.follow (ns : Namespace) (dirOf : Inode → Option NodeId) :
    FuseRequest → FuseReply → Namespace
  | .mkdir p name _, .attr m | .create p name _ _, .attr m | .symlink p name _, .attr m
  | .mknod p name _, .attr m =>
    match dirOf p with
    | some dir => ns.insert (dir, name) m
    | none => ns
  | .link i p name, .attr _ =>
    match dirOf i, dirOf p with
    | some m, some dir => ns.insert (dir, name) m
    | _, _ => ns
  | .unlink p name, _ | .rmdir p name, _ =>
    match dirOf p with
    | some dir => ns.erase (dir, name)
    | none => ns
  | .rename p name p' name', _ =>
    match dirOf p, dirOf p' with
    | some dir, some dir' =>
      match ns.lookup (dir, name) with
      | some m =>
        if ns.lookup (dir', name') = some m then ns
        else (ns.erase (dir, name)).insert (dir', name') m
      | none => ns
    | _, _ => ns
  | _, _ => ns

/-- The daemon and the map. -/
structure Served where
  daemon : Daemon
  names : Namespace

/-- A request served; one that fails leaves the map alone. -/
def serve (C : Crypto) (M : Msgpack) (a : AloeFuse) (v : Served) (l : (ℕ → Env) × FuseRequest) :
    Served :=
  match a.handle C M l.1 l.2 v.daemon with
  | (d, .ok reply) => ⟨d, v.names.follow (v.daemon.dirOf a (l.1 0)) l.2 reply⟩
  | (d, .error _) => ⟨d, v.names⟩

/-- What a kernel sends: single names, creations only where nothing is bound, no link to
the mount point. -/
def KernelSends (a : AloeFuse) (E : Env) (d : Daemon) : FuseRequest → Prop
  | .mkdir p name _ | .create p name _ _ | .symlink p name _ | .mknod p name _ =>
    IsName name ∧ ∀ dir ∈ d.dirOf a E p, d.sys.db.binding dir name = none
  | .link i _ name => i ≠ ROOT ∧ IsName name
  | .unlink _ name | .rmdir _ name => IsName name
  | .rename _ name _ name' => IsName name ∧ IsName name'
  | _ => True

/-- The path the daemon writes for an inode is legible and leads back to its node. -/
def LeadsBack (a : AloeFuse) (E : Env) (d : Daemon) (p : Inode) : Prop :=
  p = ROOT ∨ ∀ node ∈ d.n p,
    ∀ base ∈ (pathOf E (d.sys.conns a.conn).cipher d.sys.db a.mount node).toOption,
      Legible base ∧
        (resolve d.sys.db (d.sys.db.anchorOf E.now a.mount) base).toOption.map Resolved.node =
          some node

/-- Only `node` is placed under the name. -/
def Sole (db : Db) (dir : NodeId) (name : String) (node : NodeId) : Prop :=
  ∀ q ∈ db.placements, q.1 = dir → q.2.2 = name → q.2.1 = node

/-- Every node placed under the name is smaller. -/
def AllBelow (db : Db) (dir : NodeId) (name : String) (node : NodeId) : Prop :=
  ∀ q ∈ db.placements, q.1 = dir → q.2.2 = name → q.2.1 < node

/-- No second node stands under the names of a request: what an unlink or a rename takes
away is the only node of its name, and what a rename comes over is smaller. The paths
of its inodes lead back to them, and the lock a `create` takes is new. -/
def Unshadowed (a : AloeFuse) (E : ℕ → Env) (d : Daemon) : FuseRequest → Prop
  | .mkdir p _ _ | .symlink p _ _ | .mknod p _ _ => LeadsBack a (E 0) d p
  | .create p _ _ _ => LeadsBack a (E 0) d p ∧ d.sys.db.lock? (E 3).uuid = none
  | .link i p _ => LeadsBack a (E 0) d i ∧ LeadsBack a (E 0) d p
  | .unlink p name | .rmdir p name =>
    LeadsBack a (E 0) d p ∧ ∀ dir ∈ d.dirOf a (E 0) p, ∀ node ∈ d.sys.db.binding dir name,
      Sole d.sys.db dir name node
  | .rename p name p' name' =>
    LeadsBack a (E 0) d p ∧ LeadsBack a (E 0) d p' ∧
      ∀ dir ∈ d.dirOf a (E 0) p, ∀ dir' ∈ d.dirOf a (E 0) p', ∀ node ∈ d.sys.db.binding dir name,
        (dir, name) = (dir', name') ∨
        (Sole d.sys.db dir name node ∧ AllBelow d.sys.db dir' name' node)
  | _ => True

/-- The mount is found as valid at each call of a request as at the first. -/
def SteadyMount (E : ℕ → Env) (mount : MountId) (db : Db) : Prop :=
  ∀ i, db.validMount? (E i).now mount = db.validMount? (E 0).now mount

/-- The guard of a run. -/
def CleanRequest (a : AloeFuse) (v : Served) (l : (ℕ → Env) × FuseRequest) : Prop :=
  SteadyMount l.1 a.mount v.daemon.sys.db ∧ KernelSends a (l.1 0) v.daemon l.2 ∧
    Unshadowed a l.1 v.daemon l.2

instance (a : AloeFuse) (E : Env) (d : Daemon) (req : FuseRequest) :
    Decidable (KernelSends a E d req) := by
  unfold KernelSends
  split <;> infer_instance

instance (a : AloeFuse) (E : Env) (d : Daemon) (p : Inode) : Decidable (LeadsBack a E d p) :=
  inferInstanceAs (Decidable (_ ∨ _))

instance (db : Db) (dir : NodeId) (name : String) (node : NodeId) :
    Decidable (Sole db dir name node) :=
  inferInstanceAs (Decidable (∀ q ∈ db.placements, _))

instance (db : Db) (dir : NodeId) (name : String) (node : NodeId) :
    Decidable (AllBelow db dir name node) :=
  inferInstanceAs (Decidable (∀ q ∈ db.placements, _))

instance (a : AloeFuse) (E : ℕ → Env) (d : Daemon) (req : FuseRequest) :
    Decidable (Unshadowed a E d req) := by
  unfold Unshadowed
  split <;> infer_instance

/-! ### Paths -/

/-- The path names `dir`, walked from the anchor; the empty path is the anchor. -/
structure Leads (db : Db) (anchor : NodeId) (base : String) (dir : NodeId) : Prop where
  legible : Legible base
  walked : (splitPath base = [] ∧ dir = anchor) ∨
    (splitPath base ≠ [] ∧ ∃ t, descend db anchor .container (splitPath base) = .ok ⟨dir, t⟩)

theorem path_ok (h : a.path E p d = (d', .ok base)) : d' = d ∧ ((p = ROOT ∧ base = "/") ∨
    ∃ node, p ≠ ROOT ∧ d.n p = some node ∧
      pathOf E (d.sys.conns a.conn).cipher d.sys.db a.mount node = .ok base) := by
  rw [AloeFuse.path] at h
  split at h
  next hroot =>
    obtain ⟨rfl, hbase⟩ := Prod.mk.inj h
    exact ⟨rfl, Or.inl ⟨hroot, (Except.ok.inj hbase).symm⟩⟩
  next hroot =>
    obtain ⟨node, u, hnode, hlook⟩ := bind_ok_iff.mp h
    obtain ⟨rfl, hfound⟩ := Prod.mk.inj hnode
    obtain ⟨rfl, hbase⟩ := Prod.mk.inj hlook
    exact ⟨rfl, Or.inr ⟨node, hroot, orRaise_eq_ok.mp hfound, hbase⟩⟩

theorem path_error (h : a.path E p d = (d', .error e)) : d' = d := by
  rw [AloeFuse.path] at h
  split at h
  · cases h
  · rcases bind_error_iff.mp h with hnode | ⟨node, u, hnode, hlook⟩
    · exact (Prod.mk.inj hnode).1.symm
    · obtain ⟨rfl, -⟩ := Prod.mk.inj hnode
      exact (Prod.mk.inj hlook).1.symm

theorem path_leads (hback : LeadsBack a E d p) (h : a.path E p d = (d', .ok base)) :
    d' = d ∧ ∃ dir, d.dirOf a E p = some dir ∧
      Leads d.sys.db (d.sys.db.anchorOf E.now a.mount) base dir := by
  obtain ⟨rfl, hpath⟩ := path_ok h
  refine ⟨rfl, ?_⟩
  rcases hpath with ⟨rfl, rfl⟩ | ⟨node, hroot, hnode, hbase⟩
  · exact ⟨_, if_pos rfl, by decide +kernel, Or.inl ⟨by decide +kernel, rfl⟩⟩
  · refine ⟨node, (if_neg hroot).trans hnode, ?_⟩
    rcases hback with hroot' | hback
    · exact absurd hroot' hroot
    obtain ⟨hlegible, hres⟩ := hback node hnode base (mem_toOption.mpr hbase)
    obtain ⟨found, hfound, hid⟩ := Option.map_eq_some_iff.mp hres
    have hresolved := mem_toOption.mp hfound
    refine ⟨hlegible, ?_⟩
    rcases (resolve_eq_ok hlegible).mp hresolved with ⟨hnil, heq, -⟩ | ⟨hne, hd⟩
    · exact Or.inl ⟨hnil, hid.symm.trans heq⟩
    · obtain ⟨m, t⟩ := found
      obtain rfl : m = node := hid
      exact Or.inr ⟨hne, t, hd⟩

theorem splitPath_childPath (hseg : IsName name) :
    splitPath (childPath base name) = splitPath base ++ [name] := by
  rw [childPath, splitPath_join hseg.1, splitPath_rstripSlash]

theorem legible_childPath (hbase : Legible base) (hseg : IsName name) :
    Legible (childPath base name) :=
  hbase.snoc hseg.2 (splitPath_childPath hseg)

/-- The parent of a child's path is the directory, its last segment the name. -/
theorem parent_of_child {q : Parent} (hlead : Leads db anchor base dir) (hseg : IsName name)
    (hq : resolveParent db anchor (childPath base name) = .ok q) : q = ⟨dir, name⟩ := by
  obtain ⟨-, hname, hd⟩ := (resolveParent_eq_ok (legible_childPath hlead.legible hseg)).mp hq
  rw [splitPath_childPath hseg] at hname hd
  obtain ⟨c, nm⟩ := q
  obtain rfl : nm = name := by simpa using hname
  rw [List.dropLast_concat] at hd
  rcases hlead.walked with ⟨hnil, rfl⟩ | ⟨-, t, ht⟩
  · rw [hnil] at hd
    have hnode : dir = c := congrArg Resolved.node (Except.ok.inj hd)
    rw [hnode]
  · have heq := Except.ok.inj (hd.symm.trans ht)
    have hnode : c = dir := congrArg Resolved.node heq
    rw [hnode]

/-- What an inode's own path resolves to is its node. -/
theorem node_of_leads {found : Resolved} (hlead : Leads db anchor base dir)
    (h : resolve db anchor base = .ok found) :
    found.node = dir := by
  rcases (resolve_eq_ok hlead.legible).mp h with ⟨hnil, heq, -⟩ | ⟨hne, hd⟩
  · rcases hlead.walked with ⟨-, rfl⟩ | ⟨hne, -⟩
    · exact heq
    · exact absurd hnil hne
  · rcases hlead.walked with ⟨hnil, -⟩ | ⟨-, t, ht⟩
    · exact absurd hnil hne
    · exact congrArg Resolved.node (Except.ok.inj (hd.symm.trans ht))

/-! ### Calls -/

/-- A call is a step of the engine, and touches no table of the daemon. -/
theorem call_run (op : Op) : a.call C M E op d =
    ({ d with sys := step C M d.sys ⟨E, a.conn, op⟩ }, (exec C M E d.sys a.conn op).2) := rfl

/-- A request that succeeds commits what its transaction made. -/
theorem call_ok {r : Request} {reply : Reply}
    (h : a.call C M E (.request a.mount r) d = (d', .ok reply)) :
    ∃ tx, r.run C M E (d.sys.conns a.conn).cipher d.sys.begin a.mount = .ok (tx, reply) ∧
      d'.sys.db = tx.db ∧
      d'.sys.conns = d.sys.conns ∧ d'.n = d.n := by
  obtain ⟨rfl, hreply⟩ := Prod.mk.inj h
  simp only [exec, Sys.transact] at hreply ⊢
  cases hrun : r.run C M E (d.sys.conns a.conn).cipher d.sys.begin a.mount with
  | error e =>
    rw [hrun] at hreply
    cases hreply
  | ok b =>
    obtain ⟨tx, reply'⟩ := b
    rw [hrun] at hreply
    obtain rfl := Except.ok.inj hreply
    exact ⟨tx, rfl, rfl, rfl, trivial⟩

/-- One that fails commits nothing. -/
theorem call_error {r : Request} (h : a.call C M E (.request a.mount r) d = (d', .error e)) :
    d'.sys.db = d.sys.db := by
  obtain ⟨rfl, hreply⟩ := Prod.mk.inj h
  simp only [exec, Sys.transact] at hreply ⊢
  cases hrun : r.run C M E (d.sys.conns a.conn).cipher d.sys.begin a.mount with
  | error e => rfl
  | ok b =>
    rw [hrun] at hreply
    cases hreply

theorem call_of_run {r : Request} {reply : Reply}
    (h : r.run C M E (d.sys.conns a.conn).cipher d.sys.begin a.mount = .ok (tx, reply)) :
    ∃ d', a.call C M E (.request a.mount r) d = (d', .ok reply) ∧ d'.sys.db = tx.db ∧
      d'.sys.conns = d.sys.conns ∧ d'.n = d.n := by
  have hreply : (exec C M E d.sys a.conn (.request a.mount r)).2 = .ok reply := by
    simp only [exec, Sys.transact, h]
  have hcall : a.call C M E (.request a.mount r) d =
      ({ d with sys := step C M d.sys ⟨E, a.conn, .request a.mount r⟩ }, .ok reply) := by
    rw [call_run, hreply]
  obtain ⟨tx', hrun, hrest⟩ := call_ok hcall
  obtain ⟨rfl, -⟩ := Prod.mk.inj (Except.ok.inj (hrun.symm.trans h))
  exact ⟨_, hcall, hrest⟩

theorem call_reaches {op : Op} (h : Reaches C M (fun _ _ => True) d.sys)
    (hcall : (a.call C M E op d).1 = d') :
    Reaches C M (fun _ _ => True) d'.sys := by
  rw [← hcall]
  have hstep : Reaches C M (fun _ _ => True) (step C M d.sys ⟨E, a.conn, op⟩) :=
    GuardedRuns.Run.snoc h trivial
  exact hstep

theorem requireMount_congr {write : Bool} (hmounts : db'.mounts = db.mounts)
    (hvolumes : db'.volumes = db.volumes) :
    requireMount E k db' mount write = requireMount E k db mount write := by
  simp only [requireMount, Db.validMount?, Db.mount?, Db.volume?, hmounts, hvolumes]

/-- What a mount check says of a file with the mounts and volumes of one where the mount is
steady. -/
theorem SteadyMount.requireMount {E : ℕ → Env} {write : Bool} (h : SteadyMount E mount db)
    (i j : ℕ) :
    Aloelite.requireMount (E i) k db mount write =
      Aloelite.requireMount (E j) k db mount write := by
  simp only [Aloelite.requireMount, h i, h j]

theorem SteadyMount.anchorOf {E : ℕ → Env} (h : SteadyMount E mount db) (i : ℕ) :
    db.anchorOf (E i).now mount = db.anchorOf (E 0).now mount := by
  rw [Db.anchorOf, Db.anchorOf, h i]

/-- A later call writes the path of an inode as the first does. -/
theorem SteadyMount.path_eq {E : ℕ → Env} (h : SteadyMount E a.mount d.sys.db) (i : ℕ) :
    a.path (E i) p d = a.path (E 0) p d := by
  rw [AloeFuse.path, AloeFuse.path]
  split
  · rfl
  · have hlook : ∀ node, pathOf (E i) (d.sys.conns a.conn).cipher d.sys.db a.mount node =
        pathOf (E 0) (d.sys.conns a.conn).cipher d.sys.db a.mount node := by
      intro node
      rw [pathOf, pathOf, h.requireMount i 0]
    rcases hnode : AloeFuse.nodeOf p d with ⟨d₁, e | node⟩
    · rw [bind_of_error hnode, bind_of_error hnode]
    · obtain ⟨rfl, -⟩ := Prod.mk.inj hnode
      rw [bind_of_ok hnode, bind_of_ok hnode]
      exact congrArg (Prod.mk d) (hlook node)

/-- What may be written through may be read through. -/
theorem requireMount_read {m : MountCtx} (h : requireMount E k db mount true = .ok m) :
    requireMount E k db mount false = .ok m := by
  simp only [requireMount, bind_eq_ok, orRaise_eq_ok, refuse_eq_ok, pure_eq_ok] at h ⊢
  obtain ⟨row, hrow, volume, hvolume, u, henc, u', -, rfl⟩ := h
  exact ⟨row, hrow, volume, hvolume, u, henc, (), by simp, rfl⟩

end Aloelite
