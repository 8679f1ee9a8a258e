import Aloelite.FuseBirths

/-! The daemon's namespace over its runs: links, removals and renames, the step of one
request, and the map it comes to. -/
namespace Aloelite

open Attempts Attempt Fallible KeyedRows Relation

variable {C : Crypto} {M : Msgpack} {E : ℕ → Env} {k : Cipher} {db db' : Db} {tx tx' : Tx}
  {mount : MountId} {path base name : String} {dir anchor n : NodeId} {a : AloeFuse} {d d' : Daemon}
  {s : Sys} {p : Inode} {ns : Namespace} {e : FsError}

/-! ### Links, removals and renames -/

/-- A link adds the name of the node its inode stands for, under a free name. -/
theorem link_cases {i : Inode} {res : Except FsError FuseReply}
    (hreach : Reaches C M (fun _ _ => True) d.sys) (hsteady : SteadyMount E a.mount d.sys.db)
    (hi : i ≠ ROOT) (hbacki : LeadsBack a (E 0) d i) (hback : LeadsBack a (E 0) d p)
    (hseg : IsName name) (h : a.link C M E i p name d = (d', res)) :
    (∃ e, res = .error e ∧ d'.sys.db = d.sys.db) ∨
      ∃ dir node, d.dirOf a (E 0) i = some node ∧ d.dirOf a (E 0) p = some dir ∧
        res = .ok (.attr node) ∧
        d.sys.db.binding dir name = none ∧
        ∀ q, q ∈ d'.sys.db.placements ↔ q ∈ d.sys.db.placements ∨ q = (dir, node, name) := by
  rw [AloeFuse.link] at h
  rcases hpath : a.path (E 0) p d with ⟨d₀, e | base⟩
  · obtain rfl := path_error hpath
    rw [bind_of_error hpath] at h
    obtain ⟨rfl, rfl⟩ := Prod.mk.inj h
    exact Or.inl ⟨e, rfl, rfl⟩
  obtain ⟨rfl, dir, hdir, hlead⟩ := path_leads hback hpath
  rw [bind_of_ok hpath] at h
  rcases hsrc : a.path (E 1) i d₀ with ⟨d₁, e | src⟩
  · obtain rfl := path_error hsrc
    rw [bind_of_error hsrc] at h
    obtain ⟨rfl, rfl⟩ := Prod.mk.inj h
    exact Or.inl ⟨e, rfl, rfl⟩
  obtain ⟨rfl, node, hnode, hleadi⟩ := path_leads hbacki ((hsteady.path_eq 1).symm.trans hsrc)
  rw [bind_of_ok hsrc] at h
  rcases hcall : a.call C M (E 2) (.request a.mount (.link src (childPath base name)))
    d₁ with ⟨d₂, e | reply⟩
  · rw [bind_of_error hcall] at h
    obtain ⟨rfl, rfl⟩ := Prod.mk.inj h
    exact Or.inl ⟨e, rfl, call_error hcall⟩
  obtain ⟨tx, hrun, hdb, hconns, hn⟩ := call_ok hcall
  obtain ⟨m, q, found, hm, hq, hfound, -, hfree, hplacements, hnodes⟩ :=
    link_names (noReply_ok hrun)
  have hanchor : d₁.sys.db.anchorOf (E 0).now a.mount = m.mountPoint :=
    (hsteady.anchorOf 2).symm.trans (anchorOf_eq hm)
  rw [hanchor] at hlead hleadi
  obtain rfl := parent_of_child hlead hseg hq
  have hfoundNode : found.node = node := node_of_leads hleadi hfound
  -- the lookups after the link find what they found before it
  have htable : d₁.n i = some node := by
    rw [Daemon.dirOf, if_neg hi] at hnode
    exact hnode
  have hnodeOf : AloeFuse.nodeOf i d₂ = (d₂, .ok node) := by
    rw [AloeFuse.nodeOf, ask_run, hn, htable]
    rfl
  have hexists : (tx.db.node? node).isSome := by
    rw [Db.node?, hnodes, ← hfoundNode]
    exact Db.node?_isSome_of_type (resolve_nodeType hfound)
  obtain ⟨row, hrow⟩ := Option.isSome_iff_exists.mp hexists
  have hkept : (Request.link src (childPath base name)).keepsSessions := trivial
  have hbegin : d₁.sys.begin.db.Linked := hreach.sound.linked
  obtain ⟨ctx, w, -, hstrides⟩ := request_strides hbegin hrun
  obtain ⟨hmounts, -, hvolumes⟩ := hstrides.sessions (Request.license_session hkept)
  have hstat : a.look (fun k db => statById (E 3) k db a.mount node) d₂ = (d₂, .ok row) := by
    have hread : requireMount (E 3) (d₁.sys.conns a.conn).cipher tx.db a.mount false = .ok m :=
      ((requireMount_congr hmounts hvolumes).trans (hsteady.requireMount 3 2)).trans
        (requireMount_read hm)
    rw [AloeFuse.look, ask_run, hconns, hdb, statById, hread, ok_bind, hrow]
    rfl
  rw [bind_of_ok hcall, bind_of_ok hnodeOf, bind_of_ok hstat] at h
  obtain ⟨rfl, rfl⟩ := Prod.mk.inj h
  refine Or.inr ⟨dir, node, hnode, hdir, rfl, ?_, ?_⟩
  · rw [Db.binding]
    exact Option.map_eq_none_iff.mpr hfree
  · intro q
    rw [hdb, hplacements, List.mem_append, List.mem_singleton, hfoundNode]
    exact Iff.rfl

/-- What `unlink` and `rmdir` do: the node of the name loses its placement there. -/
theorem remove_cases {res : Except FsError FuseReply} (hsteady : SteadyMount E a.mount d.sys.db)
    (hback : LeadsBack a (E 0) d p) (hseg : IsName name)
    (h : a.unlink C M E p name d = (d', res)) :
    (∃ e, res = .error e ∧ d'.sys.db = d.sys.db) ∨
      ∃ dir node, d.dirOf a (E 0) p = some dir ∧ res = .ok .done ∧
        d.sys.db.binding dir name = some node ∧
        ∀ q, q ∈ d'.sys.db.placements ↔ q ∈ d.sys.db.placements ∧ q ≠ (dir, node, name) := by
  rw [AloeFuse.unlink] at h
  rcases hpath : a.path (E 0) p d with ⟨d₀, e | base⟩
  · obtain rfl := path_error hpath
    rw [bind_of_error hpath] at h
    obtain ⟨rfl, rfl⟩ := Prod.mk.inj h
    exact Or.inl ⟨e, rfl, rfl⟩
  obtain ⟨rfl, dir, hdir, hlead⟩ := path_leads hback hpath
  rw [bind_of_ok hpath] at h
  rcases hcall : a.call C M (E 1) (.request a.mount (.remove (childPath base name)))
    d₀ with ⟨d₂, e | reply⟩
  · rw [bind_of_error hcall] at h
    obtain ⟨rfl, rfl⟩ := Prod.mk.inj h
    exact Or.inl ⟨e, rfl, call_error hcall⟩
  obtain ⟨tx, hrun, hdb, hconns, hn⟩ := call_ok hcall
  obtain ⟨m, q, found, hm, hq, hfound, hplacements⟩ := remove_names (noReply_ok hrun)
  have hanchor : d₀.sys.db.anchorOf (E 0).now a.mount = m.mountPoint :=
    (hsteady.anchorOf 1).symm.trans (anchorOf_eq hm)
  rw [hanchor] at hlead
  obtain rfl := parent_of_child hlead hseg hq
  rw [bind_of_ok hcall] at h
  obtain ⟨rfl, rfl⟩ := Prod.mk.inj h
  refine Or.inr ⟨dir, found.node, hdir, rfl,
    binding_of_resolve (legible_childPath hlead.legible hseg) hq hfound, ?_⟩
  intro q
  rw [hdb, hplacements, List.mem_filter, decide_eq_true_eq]
  exact Iff.rfl

/-- What `rename` does, by either of its calls: the node of the old name is placed under
the new one instead. -/
theorem rename_cases {p' : Inode} {name' : String} {res : Except FsError FuseReply}
    (hsteady : SteadyMount E a.mount d.sys.db) (hback : LeadsBack a (E 0) d p)
    (hback' : LeadsBack a (E 0) d p') (hseg : IsName name) (hseg' : IsName name')
    (h : a.rename C M E p name p' name' d = (d', res)) :
    (∃ e, res = .error e ∧ d'.sys.db = d.sys.db) ∨
      ∃ dir dir' node, d.dirOf a (E 0) p = some dir ∧ d.dirOf a (E 0) p' = some dir' ∧
        res = .ok .done ∧
        d.sys.db.binding dir name = some node ∧ (dir, node, name) ∈ d.sys.db.placements ∧
        ∀ q, q ∈ d'.sys.db.placements ↔
          (q ∈ d.sys.db.placements ∧ q ≠ (dir, node, name)) ∨ q = (dir', node, name') := by
  rw [AloeFuse.rename] at h
  -- either directory may have no path any more
  rcases hpath : a.path (E 0) p d with ⟨d₀, e | ob⟩
  · obtain rfl := path_error hpath
    rw [bind_of_error hpath] at h
    obtain ⟨rfl, rfl⟩ := Prod.mk.inj h
    exact Or.inl ⟨e, rfl, rfl⟩
  obtain ⟨rfl, dir, hdir, hlead⟩ := path_leads hback hpath
  rw [bind_of_ok hpath] at h
  rcases hpath' : a.path (E 1) p' d₀ with ⟨d₁, e | nb⟩
  · obtain rfl := path_error hpath'
    rw [bind_of_error hpath'] at h
    obtain ⟨rfl, rfl⟩ := Prod.mk.inj h
    exact Or.inl ⟨e, rfl, rfl⟩
  obtain ⟨rfl, dir', hdir', hlead'⟩ := path_leads hback' ((hsteady.path_eq 1).symm.trans hpath')
  rw [bind_of_ok hpath'] at h
  by_cases hsame : p = p'
  · -- one directory: the engine's `rename`
    subst hsame
    obtain rfl : dir = dir' := Option.some.inj (hdir.symm.trans hdir')
    rw [if_pos rfl] at h
    rcases hcall : a.call C M (E 2) (.request a.mount (.rename (childPath ob name) name')) d₁
      with ⟨d₂, e | reply⟩
    · rw [bind_of_error hcall] at h
      obtain ⟨rfl, rfl⟩ := Prod.mk.inj h
      exact Or.inl ⟨e, rfl, call_error hcall⟩
    obtain ⟨tx, hrun, hdb, hconns, hn⟩ := call_ok hcall
    obtain ⟨m, q, found, hm, hq, hfound, hplacements, -, -⟩ := rename_names (noReply_ok hrun)
    have hanchor : d₁.sys.db.anchorOf (E 0).now a.mount = m.mountPoint :=
      (hsteady.anchorOf 2).symm.trans (anchorOf_eq hm)
    rw [hanchor] at hlead
    obtain rfl := parent_of_child hlead hseg hq
    have hplaced := placed_of_resolve (legible_childPath hlead.legible hseg) hq hfound
    rw [bind_of_ok hcall] at h
    obtain ⟨rfl, rfl⟩ := Prod.mk.inj h
    refine Or.inr ⟨dir, dir, found.node, hdir, hdir, rfl,
      binding_of_resolve (legible_childPath hlead.legible hseg) hq hfound, hplaced, ?_⟩
    intro q
    rw [hdb, hplacements]
    exact mem_map_renamed hplaced
  · -- two directories: the engine's `move`
    rw [if_neg hsame] at h
    rcases hcall : a.call C M (E 2)
      (.request a.mount (.move (childPath ob name) (childPath nb name'))) d₁
      with ⟨d₂, e | reply⟩
    · rw [bind_of_error hcall] at h
      obtain ⟨rfl, rfl⟩ := Prod.mk.inj h
      exact Or.inl ⟨e, rfl, call_error hcall⟩
    obtain ⟨tx, hrun, hdb, hconns, hn⟩ := call_ok hcall
    obtain ⟨m, q, q', found, hm, hq, hq', hfound, -, hplacements, -, -⟩ :=
      move_names (noReply_ok hrun)
    have hanchor : d₁.sys.db.anchorOf (E 0).now a.mount = m.mountPoint :=
      (hsteady.anchorOf 2).symm.trans (anchorOf_eq hm)
    rw [hanchor] at hlead hlead'
    obtain rfl := parent_of_child hlead hseg hq
    obtain rfl := parent_of_child hlead' hseg' hq'
    rw [bind_of_ok hcall] at h
    obtain ⟨rfl, rfl⟩ := Prod.mk.inj h
    refine Or.inr ⟨dir, dir', found.node, hdir, hdir', rfl,
      binding_of_resolve (legible_childPath hlead.legible hseg) hq hfound,
      placed_of_resolve (legible_childPath hlead.legible hseg) hq hfound, ?_⟩
    intro q
    rw [hdb, hplacements, List.mem_append, List.mem_filter, List.mem_singleton, decide_eq_true_eq]
    exact Iff.rfl

/-! ### Runs of the daemon -/

/-- A handler takes the file only through states the engine reaches. -/
abbrev KeepsReached (C : Crypto) (M : Msgpack) {α : Type} (x : Handler α) : Prop :=
  Keeps (fun d : Daemon => Reaches C M (fun _ _ => True) d.sys) x

theorem call_keeps {E : Env} (op : Op) : KeepsReached C M (a.call C M E op) :=
  fun _ h => call_reaches h rfl

theorem make_keeps {E : Env} (op : Op) : KeepsReached C M (a.make C M E op) := by
  refine Keeps.bind (call_keeps op) ?_
  intro reply
  split
  · exact Keeps.pure _
  · exact Keeps.ask _

theorem path_keeps {E : Env} (p : Inode) : KeepsReached C M (a.path E p) := by
  rw [AloeFuse.path]
  split
  · exact Keeps.pure _
  · exact Keeps.bind (Keeps.ask _) (fun node => Keeps.ask _)

theorem answer_keeps {E : Env} (node : NodeId) : KeepsReached C M (a.answer E node) :=
  Keeps.bind (Keeps.alter (fun _ h => h))
    (fun _ => Keeps.bind (Keeps.ask _) (fun _ => Keeps.pure _))

theorem handle_keeps (req : FuseRequest) : KeepsReached C M (a.handle C M E req) := by
  cases req with
  | lookup parent name =>
    change KeepsReached C M (a.lookup E parent name)
    rw [AloeFuse.lookup]
    split
    · exact Keeps.bind (Keeps.ask _) (fun node => Keeps.bind (Keeps.ask _) (fun _ => Keeps.pure _))
    · refine Keeps.bind (path_keeps parent) (fun base => Keeps.bind (Keeps.ask _) (fun info => ?_))
      exact Keeps.bind (Keeps.alter (fun _ h => h)) (fun _ => Keeps.pure _)
  | forget inode count =>
    change KeepsReached C M (AloeFuse.forget inode count)
    rw [AloeFuse.forget]
    split
    · exact Keeps.pure _
    · refine Keeps.bind (Keeps.alter ?_) (fun _ => Keeps.pure _)
      intro d h
      split
      · exact h
      · exact h
  | mkdir parent name mode =>
    refine Keeps.bind (path_keeps parent) (fun base => Keeps.bind (make_keeps _) (fun node => ?_))
    refine Keeps.bind (Keeps.only ?_) (fun _ => answer_keeps node)
    exact Keeps.bind (call_keeps _) (fun _ => Keeps.pure _)
  | create parent name mode flags =>
    refine Keeps.bind (path_keeps parent) (fun base => Keeps.bind (make_keeps _) (fun node => ?_))
    refine Keeps.bind (Keeps.only (Keeps.bind (call_keeps _) (fun _ => Keeps.pure _))) (fun _ => ?_)
    refine Keeps.bind (Keeps.alter (fun _ h => h)) (fun _ => ?_)
    have hrest : KeepsReached C M (do
        let _ ← a.look (fun k db => statById (E 4) k db a.mount node)
        return .attr node : Handler FuseReply) := Keeps.bind (Keeps.ask _) (fun _ => Keeps.pure _)
    split
    · exact hrest
    split
    · exact Keeps.bind (Keeps.ask _) (fun _ => hrest)
    · exact Keeps.bind (call_keeps _) (fun _ => hrest)
  | symlink parent name target =>
    exact Keeps.bind (path_keeps parent)
      (fun base => Keeps.bind (make_keeps _) (fun node => answer_keeps node))
  | mknod parent name mode =>
    refine Keeps.bind (path_keeps parent) (fun base => Keeps.bind (Keeps.ask _) (fun op => ?_))
    refine Keeps.bind (make_keeps _)
      (fun node => Keeps.bind (Keeps.only ?_) (fun _ => answer_keeps node))
    exact Keeps.bind (call_keeps _) (fun _ => Keeps.pure _)
  | link inode newParent newName =>
    refine Keeps.bind (path_keeps newParent)
      (fun base => Keeps.bind (path_keeps inode) (fun src => ?_))
    refine Keeps.bind (call_keeps _) (fun _ => Keeps.bind (Keeps.ask _) (fun node => ?_))
    exact Keeps.bind (Keeps.ask _) (fun _ => Keeps.pure _)
  | unlink parent name =>
    exact Keeps.bind (path_keeps parent)
      (fun base => Keeps.bind (call_keeps _) (fun _ => Keeps.pure _))
  | rmdir parent name =>
    exact Keeps.bind (path_keeps parent)
      (fun base => Keeps.bind (call_keeps _) (fun _ => Keeps.pure _))
  | rename parentOld nameOld parentNew nameNew =>
    refine Keeps.bind (path_keeps parentOld)
      (fun ob => Keeps.bind (path_keeps parentNew) (fun nb => ?_))
    change KeepsReached C M (ite _ _ _)
    split
    · exact Keeps.bind (call_keeps _) (fun _ => Keeps.pure _)
    · exact Keeps.bind (call_keeps _) (fun _ => Keeps.pure _)

/-- Requests that change no name. -/
theorem lookup_forget_db {req : FuseRequest} {res : Except FsError FuseReply}
    (hreq : (∃ p name, req = .lookup p name) ∨ ∃ i count, req = .forget i count)
    (h : a.handle C M E req d = (d', res)) : d'.sys = d.sys := by
  have hkeeps : Keeps (fun d₁ : Daemon => d₁.sys = d.sys) (a.handle C M E req) := by
    rcases hreq with ⟨p, name, rfl⟩ | ⟨i, count, rfl⟩
    · change Keeps _ (a.lookup E p name)
      rw [AloeFuse.lookup]
      have hpath : Keeps (fun d₁ : Daemon => d₁.sys = d.sys) (a.path (E 0) p) := by
        rw [AloeFuse.path]
        split
        · exact Keeps.pure _
        · exact Keeps.bind (Keeps.ask _) (fun node => Keeps.ask _)
      split
      · exact Keeps.bind (Keeps.ask _)
          (fun node => Keeps.bind (Keeps.ask _) (fun _ => Keeps.pure _))
      · refine Keeps.bind hpath (fun base => Keeps.bind (Keeps.ask _) (fun info => ?_))
        exact Keeps.bind (Keeps.alter (fun _ h => h)) (fun _ => Keeps.pure _)
    · change Keeps _ (AloeFuse.forget i count)
      rw [AloeFuse.forget]
      split
      · exact Keeps.pure _
      · refine Keeps.bind (Keeps.alter ?_) (fun _ => Keeps.pure _)
        intro d₁ h₁
        split
        · exact h₁
        · exact h₁
  have hend := hkeeps d rfl
  rwa [h] at hend

/-- What the map says after a request that adds a name. -/
theorem mirrors_adds {x : Handler FuseReply} {reply : FuseReply} (hm : Mirrors d.sys.db ns)
    (hl : d.sys.db.Linked) (hl' : d'.sys.db.Linked)
    (hfree : ∀ dir ∈ d.dirOf a (E 0) p, d.sys.db.binding dir name = none)
    (hadds : Adds a E p name x d) (h : x d = (d', .ok reply)) :
    ∃ dir n, d.dirOf a (E 0) p = some dir ∧ reply = .attr n ∧
      Mirrors d'.sys.db (ns.insert (dir, name) n) := by
  obtain ⟨dir, n, hdir, hreply, hplacements⟩ := hadds.adds d' reply h
  exact ⟨dir, n, hdir, hreply, Mirrors.bind hm hl hl' (hfree dir hdir) hplacements⟩

/-- A name whose only node was taken away. -/
theorem remove_mirrors {reply : FuseReply} (hm : Mirrors d.sys.db ns) (hl : d.sys.db.Linked)
    (hl' : d'.sys.db.Linked) (hsteady : SteadyMount E a.mount d.sys.db)
    (hshadow : Unshadowed a E d (.unlink p name)) (hseg : IsName name)
    (h : a.unlink C M E p name d = (d', .ok reply)) :
    Mirrors d'.sys.db (ns.follow (d.dirOf a (E 0)) (.unlink p name) reply) := by
  obtain ⟨hback, hsole⟩ := hshadow
  rcases remove_cases hsteady hback hseg h with ⟨_, hres, -⟩ | ⟨dir, node, hdir, -,
    hbound, hplacements⟩
  · cases hres
  simp only [Namespace.follow, hdir]
  apply Mirrors.unbind hm hl hl' _ hplacements
  intro x hx
  exact hsole dir hdir node hbound _ hx rfl rfl

/-- A name given to a node in exchange for its old one. Where both were the node's names
already, the guard leaves only the case that they are one name. -/
theorem rename_mirrors {p' : Inode} {name' : String} {reply : FuseReply}
    (hm : Mirrors d.sys.db ns) (hl : d.sys.db.Linked) (hl' : d'.sys.db.Linked)
    (hsteady : SteadyMount E a.mount d.sys.db)
    (hshadow : Unshadowed a E d (.rename p name p' name')) (hseg : IsName name ∧ IsName name')
    (h : a.rename C M E p name p' name' d = (d', .ok reply)) :
    Mirrors d'.sys.db (ns.follow (d.dirOf a (E 0)) (.rename p name p' name') reply) := by
  obtain ⟨hback, hback', hclear⟩ := hshadow
  rcases rename_cases hsteady hback hback' hseg.1 hseg.2 h with
    ⟨_, hres, -⟩ | ⟨dir, dir', node, hdir, hdir', -, hbound, hplaced, hplacements⟩
  · cases hres
  have hold : ns.lookup (dir, name) = some node := (hm dir name).symm.trans hbound
  simp only [Namespace.follow, hdir, hdir', hold]
  rcases hclear dir hdir dir' hdir' node hbound with hsame | ⟨hsole, hbelow⟩
  · rw [hsame] at hold
    rw [if_pos hold]
    apply Mirrors.same hm hl hl'
    intro q
    obtain ⟨rfl, rfl⟩ := Prod.mk.inj hsame
    rw [hplacements]
    by_cases hq : q = (dir, node, name)
    · simp only [hq, hplaced, or_true]
    · simp only [ne_eq, hq, not_false_eq_true, and_true, or_false]
  · -- what the target names is smaller, so it is not the node
    have hother : ns.lookup (dir', name') ≠ some node := by
      intro heq
      have hbound' : d.sys.db.binding dir' name' = some node := (hm dir' name').trans heq
      have hthere := ((binding_eq_some hl).mp hbound').1
      exact absurd (hbelow _ hthere rfl rfl) (lt_irrefl node)
    rw [if_neg hother]
    have hkeys : (dir, name) ≠ (dir', name') := by
      intro heq
      rw [heq] at hold
      exact hother hold
    apply Mirrors.rebind hm hl hl' hkeys _ _ hplacements
    · intro x hx
      exact hsole _ hx rfl rfl
    · intro x hx
      exact hbelow _ hx rfl rfl

theorem serve_daemon (v : Served) (l : (ℕ → Env) × FuseRequest) :
    (serve C M a v l).daemon = (a.handle C M l.1 l.2 v.daemon).1 := by
  rw [serve]
  rcases a.handle C M l.1 l.2 v.daemon with ⟨d, e | reply⟩
  · rfl
  · rfl

/-- One request that meets the guard: the map still mirrors the file. -/
theorem serve_mirrors {v : Served} {l : (ℕ → Env) × FuseRequest} (hclean : CleanRequest a v l)
    (hreach : Reaches C M (fun _ _ => True) v.daemon.sys) (hm : Mirrors v.daemon.sys.db v.names) :
    Mirrors (serve C M a v l).daemon.sys.db (serve C M a v l).names := by
  obtain ⟨d, ns⟩ := v
  obtain ⟨E, req⟩ := l
  obtain ⟨hsteady, hsends, hshadow⟩ := hclean
  have hreach' : Reaches C M (fun _ _ => True) (a.handle C M E req d).1.sys :=
    handle_keeps req d hreach
  have hl : d.sys.db.Linked := hreach.sound.linked
  rw [serve]
  rcases hrun : a.handle C M E req d with ⟨d', e | reply⟩
  · -- refused: no table has changed
    rw [hrun] at hreach'
    change Mirrors d'.sys.db ns
    have hsame : d'.sys.db = d.sys.db := by
      cases req with
      | lookup p name => rw [lookup_forget_db (Or.inl ⟨p, name, rfl⟩) hrun]
      | forget i count => rw [lookup_forget_db (Or.inr ⟨i, count, rfl⟩) hrun]
      | mkdir p name mode =>
        exact (mkdir_adds hreach hsteady hshadow hsends.1 hsends.2 mode).fails d' e hrun
      | create p name mode flags =>
        exact (create_adds hreach hsteady hshadow.1 hsends.1 hsends.2 mode flags hshadow.2).fails d'
          e hrun
      | symlink p name target =>
        exact (symlink_adds hreach hsteady hshadow hsends.1 hsends.2 target).fails d' e hrun
      | mknod p name mode =>
        exact (mknod_adds hreach hsteady hshadow hsends.1 hsends.2 mode).fails d' e hrun
      | link i p name =>
        rcases link_cases hreach hsteady hsends.1 hshadow.1 hshadow.2 hsends.2
          hrun with ⟨_, -, hdb⟩ | ⟨_, _, -, -, hres, -⟩
        · exact hdb
        · cases hres
      | unlink p name =>
        rcases remove_cases hsteady hshadow.1 hsends hrun with ⟨_, -, hdb⟩ | ⟨_, _, -, hres, -⟩
        · exact hdb
        · cases hres
      | rmdir p name =>
        rcases remove_cases hsteady hshadow.1 hsends hrun with ⟨_, -, hdb⟩ | ⟨_, _, -, hres, -⟩
        · exact hdb
        · cases hres
      | rename p name p' name' =>
        rcases rename_cases hsteady hshadow.1 hshadow.2.1 hsends.1 hsends.2
          hrun with ⟨_, -, hdb⟩ | ⟨_, _, _, -, -, hres, -⟩
        · exact hdb
        · cases hres
    rw [hsame]
    exact hm
  -- a reply: the tables and the map change by the same entry
  · rw [hrun] at hreach'
    have hl' : d'.sys.db.Linked := hreach'.sound.linked
    change Mirrors d'.sys.db (ns.follow (d.dirOf a (E 0)) req reply)
    cases req with
    | lookup p name =>
      rw [lookup_forget_db (Or.inl ⟨p, name, rfl⟩) hrun]
      exact hm
    | forget i count =>
      rw [lookup_forget_db (Or.inr ⟨i, count, rfl⟩) hrun]
      exact hm
    | mkdir p name mode =>
      have hadds := mkdir_adds hreach hsteady hshadow hsends.1 hsends.2 mode
      obtain ⟨dir, n, hdir, rfl, hmirrors⟩ := mirrors_adds hm hl hl' hsends.2 hadds hrun
      simp only [Namespace.follow, hdir]
      exact hmirrors
    | create p name mode flags =>
      have hadds := create_adds hreach hsteady hshadow.1 hsends.1 hsends.2 mode flags hshadow.2
      obtain ⟨dir, n, hdir, rfl, hmirrors⟩ := mirrors_adds hm hl hl' hsends.2 hadds hrun
      simp only [Namespace.follow, hdir]
      exact hmirrors
    | symlink p name target =>
      have hadds := symlink_adds hreach hsteady hshadow hsends.1 hsends.2 target
      obtain ⟨dir, n, hdir, rfl, hmirrors⟩ := mirrors_adds hm hl hl' hsends.2 hadds hrun
      simp only [Namespace.follow, hdir]
      exact hmirrors
    | mknod p name mode =>
      have hadds := mknod_adds hreach hsteady hshadow hsends.1 hsends.2 mode
      obtain ⟨dir, n, hdir, rfl, hmirrors⟩ := mirrors_adds hm hl hl' hsends.2 hadds hrun
      simp only [Namespace.follow, hdir]
      exact hmirrors
    | link i p name =>
      rcases link_cases hreach hsteady hsends.1 hshadow.1 hshadow.2 hsends.2 hrun with
        ⟨_, hres, -⟩ | ⟨dir, node, hnode, hdir, hres, hfree, hplacements⟩
      · cases hres
      · obtain rfl := Except.ok.inj hres
        simp only [Namespace.follow, hnode, hdir]
        exact Mirrors.bind hm hl hl' hfree hplacements
    | unlink p name => exact remove_mirrors hm hl hl' hsteady hshadow hsends hrun
    | rmdir p name => exact remove_mirrors hm hl hl' hsteady hshadow hsends hrun
    | rename p name p' name' => exact rename_mirrors hm hl hl' hsteady hshadow hsends hrun

/-! ### The result -/

/-- The names of a directory are those the map has there. -/
theorem listed_iff_lookup (hm : Mirrors db ns) :
    ns.lookup (dir, name) = some n ↔
      ∃ r ∈ db.listChildren dir, r.visible = true ∧ r.name = name ∧ r.nodeId = n := by
  rw [← hm dir name, Db.binding, Option.map_eq_some_iff]
  constructor
  · intro h
    obtain ⟨hit, hhit, rfl⟩ := h
    obtain ⟨r, hr, hvisible, hname, hnode⟩ := resolveSegment_iff_listed.mp hhit
    exact ⟨r, hr, hvisible, hname, (Db.nodeId_of_node? hnode).symm⟩
  · intro h
    obtain ⟨r, hr, hvisible, hname, rfl⟩ := h
    obtain ⟨e, he, -, hit, hto, heq⟩ := mem_directoryListing.mp (mem_listChildren.mp hr)
    have hid : r.nodeId = hit.nodeId := by rw [heq]
    have hnode : db.node? r.nodeId = some hit := by
      rw [hid, Db.nodeId_of_node? hto]
      exact hto
    exact ⟨hit, resolveSegment_iff_listed.mpr ⟨r, hr, hvisible, hname, hnode⟩, hid.symm⟩

/-- The invariant of the daemon's runs. -/
def Served.MirrorsReached (C : Crypto) (M : Msgpack) (v : Served) : Prop :=
  Reaches C M (fun _ _ => True) v.daemon.sys ∧ Mirrors v.daemon.sys.db v.names

/-- Over every run whose requests meet the guard, from any state the engine reaches, the
daemon's namespace is the map that took the same requests, and its directories list
just the map's names. -/
theorem fuse_namespace_is_map {n : Inode → Option NodeId} {v : Served}
    (hreach : Reaches C M (fun _ _ => True) s)
    (hrun : GuardedRuns.Run (serve C M a) (CleanRequest a)
      ⟨{ sys := s, n := n }, s.db.bindings⟩ v) :
    Mirrors v.daemon.sys.db v.names ∧ ∀ dir name node, v.names.lookup (dir, name) = some node ↔
      ∃ r ∈ v.daemon.sys.db.listChildren dir, r.visible = true ∧ r.name = name ∧ r.nodeId =
        node := by
  have hmirrors : v.MirrorsReached C M := by
    refine hrun.invariant ?_ ⟨hreach, mirrors_bindings hreach.sound.linked⟩
    intro u l hclean hu
    refine ⟨?_, serve_mirrors hclean hu.1 hu.2⟩
    rw [serve_daemon]
    exact handle_keeps l.2 u.daemon hu.1
  refine ⟨hmirrors.2, ?_⟩
  intro dir name node
  exact listed_iff_lookup hmirrors.2

/-- A volume mounted at its root, for a daemon to serve. -/
def mountedRun : List Label :=
  [⟨.counting 0, 0, .createVolume none 128 none .none⟩, ⟨.counting 1, 0, .mount { volume := 0 }⟩]

/-- The daemon of `mountedRun`'s mount. -/
def mountedFuse : AloeFuse := { conn := 0, mount := 1, ino := fun node => node + 2 }

/-- A directory, a file made in it, moved over another, linked and unlinked. -/
def fuseRun : List ((ℕ → Env) × FuseRequest) :=
  [(fun i => .counting (10 + 2 * i), .mkdir 1 "d" 0o755),
    (fun i => .counting (20 + 2 * i), .create 1 "b" 0o644 1),
    (fun i => .counting (30 + 2 * i), .create 14 "a" 0o600 1),
    (fun i => .counting (40 + 2 * i), .rename 14 "a" 1 "b"),
    (fun i => .counting (50 + 2 * i), .link 34 14 "c"),
    (fun i => .counting (60 + 2 * i), .unlink 14 "c")]

theorem fuse_namespace_is_map_moved :
    let s := mountedRun.foldl (step Crypto.xorStream Msgpack.refusing) {}
    let v := fuseRun.foldl (serve Crypto.xorStream Msgpack.refusing mountedFuse)
      ⟨{ sys := s, n := fun _ => none }, s.db.bindings⟩
    Mirrors v.daemon.sys.db v.names ∧ ∀ dir name node, v.names.lookup (dir, name) = some node ↔
      ∃ r ∈ v.daemon.sys.db.listChildren dir, r.visible = true ∧ r.name = name ∧ r.nodeId =
      node := by
  have hmounted : GuardedRuns.Guards (step Crypto.xorStream Msgpack.refusing)
      (fun _ _ => True) {} mountedRun := by
    decide +kernel
  refine fuse_namespace_is_map (reaches_foldl hmounted) (GuardedRuns.Run.foldl ?_)
  -- the clock of these surroundings stands still
  have hsteady : ∀ (m n : ℕ) (db : Db), SteadyMount (fun i => .counting (m + n * i)) 1 db :=
    fun _ _ _ _ => rfl
  refine ⟨⟨hsteady _ _ _, ?_⟩, ⟨hsteady _ _ _, ?_⟩, ⟨hsteady _ _ _, ?_⟩, ⟨hsteady _ _ _, ?_⟩,
    ⟨hsteady _ _ _, ?_⟩, ⟨hsteady _ _ _, ?_⟩, trivial⟩
  all_goals decide +kernel

/-- What the daemon of `mountedRun` and its map come to. -/
def serveMounted (requests : List ((ℕ → Env) × FuseRequest)) : Served :=
  let s := mountedRun.foldl (step Crypto.xorStream Msgpack.refusing) {}
  requests.foldl (serve Crypto.xorStream Msgpack.refusing mountedFuse)
    ⟨{ sys := s, n := fun _ => none }, s.db.bindings⟩

/-- Two files are made. The younger one renamed over the older covers it, and an unlink
uncovers it; the older one renamed over the younger goes under it. -/
theorem fuse_rename_shadows :
    let kernel := fun (v : Served) (l : (ℕ → Env) × FuseRequest) =>
      KernelSends mountedFuse (l.1 0) v.daemon l.2
    let made : List ((ℕ → Env) × FuseRequest) :=
      [(fun i => .counting (10 + 2 * i), .create 1 "a" 0o644 1),
        (fun i => .counting (20 + 2 * i), .create 1 "b" 0o644 1)]
    let covered := made ++ [(fun i => .counting (30 + 2 * i), .rename 1 "b" 1 "a"),
      (fun i => .counting (40 + 2 * i), .unlink 1 "a")]
    let under := made ++ [(fun i => .counting (30 + 2 * i), .rename 1 "a" 1 "b")]
    Reaches Crypto.xorStream Msgpack.refusing (fun _ _ => True) (serveMounted []).daemon.sys ∧
      GuardedRuns.Guards (serve Crypto.xorStream Msgpack.refusing mountedFuse) kernel
        (serveMounted []) covered ∧
      GuardedRuns.Guards (serve Crypto.xorStream Msgpack.refusing mountedFuse) kernel
        (serveMounted []) under ∧
      (serveMounted covered).names.lookup (0, "a") = none ∧
      (serveMounted covered).daemon.sys.db.binding 0 "a" = some 12 ∧
      (serveMounted under).names.lookup (0, "b") = some 12 ∧
      (serveMounted under).daemon.sys.db.binding 0 "b" = some 22 := by
  have hmounted : GuardedRuns.Guards (step Crypto.xorStream Msgpack.refusing)
      (fun _ _ => True) {} mountedRun := by
    decide +kernel
  refine ⟨reaches_foldl hmounted, ?_, ?_, ?_, ?_, ?_, ?_⟩
  · decide +kernel
  · decide +kernel
  · decide +kernel
  · decide +kernel
  · decide +kernel
  · decide +kernel

end Aloelite
