import Aloelite.InodeRequests

/-! What the handlers of the two daemons do to their inode tables, and how that meets the kernel's
count of what the replies name. -/
namespace Aloelite

open Attempts Attempt Fallible Tallies

/-! ### What the handlers do to the tables -/

section

variable {C : Crypto} {M : Msgpack} {E : ℕ → Env} {a : AloeFuse} {T : Tally Inode NodeId}
  {d : Daemon}

/-- What leaves the tables of a daemon alone. -/
abbrev KeepsTally (T : Tally Inode NodeId) {α : Type} (x : Handler α) : Prop :=
  Keeps (fun d : Daemon => d.tally = T) x

theorem call_keepsTally {E : Env} (op : Op) : KeepsTally T (a.call C M E op) := fun _ h => h

theorem make_keepsTally {E : Env} (op : Op) : KeepsTally T (a.make C M E op) := by
  refine Keeps.bind (call_keepsTally op) ?_
  intro reply
  split
  · exact Keeps.pure _
  · exact Keeps.ask _

theorem path_keepsTally {E : Env} (p : Inode) : KeepsTally T (a.path E p) := by
  rw [AloeFuse.path]
  split
  · exact Keeps.pure _
  · exact Keeps.bind (Keeps.ask _) (fun node => Keeps.ask _)

theorem only_call_keepsTally {E : Env} (c : Bool) (op : Op) :
    KeepsTally T (only c (do let _ ← a.call C M E op)) :=
  Keeps.only (Keeps.bind (call_keepsTally op) (fun _ => Keeps.pure _))

theorem making_keepsTally (r : FuseRequest) : KeepsTally T (a.making C M E r) := by
  cases r with
  | lookup parent name =>
    exact Keeps.bind (path_keepsTally parent)
      (fun base => Keeps.bind (Keeps.ask _) (fun _ => Keeps.pure _))
  | mkdir parent name mode =>
    refine Keeps.bind (path_keepsTally parent)
      (fun base => Keeps.bind (make_keepsTally _) (fun node => ?_))
    exact Keeps.bind (only_call_keepsTally _ _) (fun _ => Keeps.pure _)
  | create parent name mode flags =>
    refine Keeps.bind (path_keepsTally parent)
      (fun base => Keeps.bind (make_keepsTally _) (fun node => ?_))
    exact Keeps.bind (only_call_keepsTally _ _) (fun _ => Keeps.pure _)
  | symlink parent name target =>
    exact Keeps.bind (path_keepsTally parent)
      (fun base => Keeps.bind (make_keepsTally _) (fun node => Keeps.pure _))
  | mknod parent name mode =>
    refine Keeps.bind (path_keepsTally parent) (fun base => Keeps.bind (Keeps.ask _) (fun op => ?_))
    refine Keeps.bind (make_keepsTally _) (fun node => ?_)
    exact Keeps.bind (only_call_keepsTally _ _) (fun _ => Keeps.pure _)
  | forget inode count => exact Keeps.ask _
  | link inode newParent newName => exact Keeps.ask _
  | unlink parent name => exact Keeps.ask _
  | rmdir parent name => exact Keeps.ask _
  | rename parentOld nameOld parentNew nameNew => exact Keeps.ask _

theorem openHandle_keepsTally (path : String) (flags : ℕ) :
    KeepsTally T (a.openHandle C M E path flags) := by
  rw [AloeFuse.openHandle]
  split
  · exact Keeps.bind (call_keepsTally _) (fun _ => Keeps.pure _)
  split
  · exact Keeps.bind (call_keepsTally _) (fun _ => Keeps.pure _)
  split
  · exact Keeps.pure _
  · exact Keeps.bind (Keeps.ask _) (fun _ => only_call_keepsTally _ _)

theorem completing_keepsTally (port : Port) (r : FuseRequest) (x : String × NodeId) :
    KeepsTally T (a.completing C M E port r x) := by
  have hstat : ∀ E : Env, KeepsTally T (do
      let _ ← a.look (fun k db => statById E k db a.mount x.2) : Handler Unit) := fun _ =>
    Keeps.bind (Keeps.ask _) (fun _ => Keeps.pure _)
  cases r with
  | lookup parent name => exact Keeps.pure _
  | create parent name mode flags =>
    cases port with
    | rust => exact Keeps.bind (openHandle_keepsTally _ _) (fun _ => hstat _)
    | python =>
      change KeepsTally T (ite _ _ _)
      split
      · exact hstat _
      split
      · exact Keeps.bind (Keeps.ask _) (fun _ => hstat _)
      · exact Keeps.bind (call_keepsTally _) (fun _ => hstat _)
  | _ => exact hstat _

/-- A request that enters a node makes it, enters it, and completes. -/
theorem handleBy_enters {r : FuseRequest} (hr : r.enters) (port : Port) :
    a.handleBy C M E port r = (do
    let x ← a.making C M E r
    a.remember x.2
    a.completing C M E port r x
    return .attr x.2) := by
  cases r with
  | lookup parent name =>
    have hlookup : a.handleBy C M E port (.lookup parent name) = a.lookup E parent name := by
      cases port <;> rfl
    have hdots : ¬(name = "." ∨ name = "..") := not_or.mpr hr
    rw [hlookup, AloeFuse.lookup, if_neg hdots]
    simp only [AloeFuse.making, bind_bind]
    rfl
  | mkdir parent name mode =>
    have hmkdir : a.handleBy C M E port (.mkdir parent name mode) =
        a.mkdir C M E parent name mode := by
      cases port <;> rfl
    rw [hmkdir, AloeFuse.mkdir]
    simp only [AloeFuse.making, AloeFuse.answer, AloeFuse.completing, bind_bind, ret_bind]
  | symlink parent name target =>
    have hsymlink : a.handleBy C M E port (.symlink parent name target) =
        a.symlink C M E parent name target := by
      cases port <;> rfl
    rw [hsymlink, AloeFuse.symlink]
    simp only [AloeFuse.making, AloeFuse.answer, AloeFuse.completing, bind_bind, ret_bind]
  | mknod parent name mode =>
    have hmknod : a.handleBy C M E port (.mknod parent name mode) =
        a.mknod C M E parent name mode := by
      cases port <;> rfl
    rw [hmknod, AloeFuse.mknod]
    simp only [AloeFuse.making, AloeFuse.answer, AloeFuse.completing, bind_bind, ret_bind]
  | create parent name mode flags =>
    cases port with
    | rust =>
      change a.createRust C M E parent name mode flags = _
      rw [AloeFuse.createRust]
      simp only [AloeFuse.making, AloeFuse.completing, bind_bind, ret_bind]
    | python =>
      change a.create C M E parent name mode flags = _
      rw [AloeFuse.create]
      simp only [AloeFuse.making, AloeFuse.completing, bind_bind, ret_bind]
      split
      · simp only [bind_bind, ret_bind]
      split
      · simp only [bind_bind, ret_bind]
      · simp only [bind_bind, ret_bind]
  | forget inode count => exact hr.elim
  | link inode newParent newName => exact hr.elim
  | unlink parent name => exact hr.elim
  | rmdir parent name => exact hr.elim
  | rename parentOld nameOld parentNew nameNew => exact hr.elim

theorem remember_tally (node : NodeId) (d : Daemon) :
    (a.remember node d).1.tally = d.tally.tell (a.ino node) node := rfl

theorem forget_tally (inode : Inode) (count : ℕ) (d : Daemon) :
    (AloeFuse.forget inode count d).1.tally = if inode = ROOT then d.tally
      else d.tally.drop inode count := by
  rw [AloeFuse.forget]
  split
  · rfl
  · change (if count < d.nlookup inode then { d with nlookup := _ }
        else { d with nlookup := _, n := _ } : Daemon).tally =
      d.tally.drop inode count
    rw [Tally.drop]
    split
    · rw [if_pos ‹_›]
      rfl
    · rw [if_neg ‹_›]
      rfl

/-- A request that enters a node: it fails before, or the node is told of. -/
theorem handleBy_enters_cases {r : FuseRequest} (hr : r.enters) (port : Port)
    (hdone : ∀ x d', a.making C M E r d = (d', .ok x) →
      (a.completing C M E port r x (a.remember x.2 d').1).2.isOk) :
    (∃ e, (a.handleBy C M E port r d).2 = .error e ∧
      (a.handleBy C M E port r d).1.tally = d.tally) ∨
      ∃ x d', a.making C M E r d = (d', .ok x) ∧ (a.handleBy C M E port r d).2 = .ok (.attr x.2) ∧
        (a.handleBy C M E port r d).1.tally = d.tally.tell (a.ino x.2) x.2 := by
  rw [handleBy_enters hr port]
  have hkeeps : (a.making C M E r d).1.tally = d.tally := making_keepsTally r d rfl
  rcases hmaking : a.making C M E r d with ⟨d₁, e | x⟩
  · rw [hmaking] at hkeeps
    refine Or.inl ⟨e, ?_, ?_⟩
    · rw [bind_of_error hmaking]
    · rw [bind_of_error hmaking]
      exact hkeeps
  · rw [hmaking] at hkeeps
    have hremember : a.remember x.2 d₁ = ((a.remember x.2 d₁).1, .ok ()) := rfl
    have hcompleting : (a.completing C M E port r x (a.remember x.2 d₁).1).1.tally =
        (a.remember x.2 d₁).1.tally :=
      completing_keepsTally port r x _ rfl
    have hok := hdone x d₁ hmaking
    rcases hrest : a.completing C M E port r x (a.remember x.2 d₁).1 with ⟨d₂, e | u⟩
    · rw [hrest] at hok
      cases hok
    · rw [hrest, remember_tally, hkeeps] at hcompleting
      refine Or.inr ⟨x, d₁, rfl, ?_, ?_⟩
      · rw [bind_of_ok hmaking, bind_of_ok hremember, bind_of_ok hrest]
        rfl
      · rw [bind_of_ok hmaking, bind_of_ok hremember, bind_of_ok hrest]
        exact hcompleting

/-- A request that enters no node leaves the tables alone, a `forget` apart. -/
theorem handleBy_keepsTally {r : FuseRequest} (hr : ¬r.enters)
    (hforget : ∀ inode count, r ≠ .forget inode count) (port : Port) :
    KeepsTally T (a.handleBy C M E port r) := by
  cases r with
  | lookup parent name =>
    have hlookup : a.handleBy C M E port (.lookup parent name) = a.lookup E parent name := by
      cases port <;> rfl
    have hdots : name = "." ∨ name = ".." := by
      by_contra hnone
      exact hr (not_or.mp hnone)
    rw [hlookup, AloeFuse.lookup, if_pos hdots]
    exact Keeps.bind (Keeps.ask _) (fun node => Keeps.bind (Keeps.ask _) (fun _ => Keeps.pure _))
  | forget inode count => exact absurd rfl (hforget inode count)
  | mkdir parent name mode => exact absurd trivial hr
  | create parent name mode flags => exact absurd trivial hr
  | symlink parent name target => exact absurd trivial hr
  | mknod parent name mode => exact absurd trivial hr
  | link inode newParent newName =>
    have hrest : ∀ op, KeepsTally T (do
        let _ ← a.call C M (E 2) op
        let node ← AloeFuse.nodeOf inode
        let _ ← a.look (fun k db => statById (E 3) k db a.mount node)
        return .attr node : Handler FuseReply) := fun op =>
      Keeps.bind (call_keepsTally _) (fun _ =>
        Keeps.bind (Keeps.ask _) (fun node => Keeps.bind (Keeps.ask _) (fun _ => Keeps.pure _)))
    cases port with
    | python => exact Keeps.bind (path_keepsTally newParent) (fun base =>
      Keeps.bind (path_keepsTally inode) (fun src => hrest _))
    | rust => exact Keeps.bind (path_keepsTally inode) (fun src =>
      Keeps.bind (path_keepsTally newParent) (fun base => hrest _))
  | unlink parent name =>
    cases port with
    | python => exact Keeps.bind (path_keepsTally parent) (fun base =>
      Keeps.bind (call_keepsTally _) (fun _ => Keeps.pure _))
    | rust => exact Keeps.bind (path_keepsTally parent) (fun base =>
      Keeps.bind (call_keepsTally _) (fun _ => Keeps.pure _))
  | rmdir parent name =>
    cases port with
    | python => exact Keeps.bind (path_keepsTally parent) (fun base =>
      Keeps.bind (call_keepsTally _) (fun _ => Keeps.pure _))
    | rust => exact Keeps.bind (path_keepsTally parent) (fun base =>
      Keeps.bind (call_keepsTally _) (fun _ => Keeps.pure _))
  | rename parentOld nameOld parentNew nameNew =>
    have hrename : a.handleBy C M E port (.rename parentOld nameOld parentNew nameNew) =
        a.rename C M E parentOld nameOld parentNew nameNew := by
      cases port <;> rfl
    rw [hrename]
    refine Keeps.bind (path_keepsTally parentOld)
      (fun ob => Keeps.bind (path_keepsTally parentNew) (fun nb => ?_))
    change KeepsTally T (ite _ _ _)
    split
    · exact Keeps.bind (call_keepsTally _) (fun _ => Keeps.pure _)
    · exact Keeps.bind (call_keepsTally _) (fun _ => Keeps.pure _)

theorem nodeOf_ok {inode : Inode} {d' : Daemon} {node : NodeId}
    (h : AloeFuse.nodeOf inode d = (d', .ok node)) :
    d' = d ∧ d.n inode = some node := by
  obtain ⟨rfl, hnode⟩ := Prod.mk.inj h
  refine ⟨rfl, ?_⟩
  cases hn : d.n inode with
  | none =>
    simp only [hn] at hnode
    cases hnode
  | some x =>
    simp only [hn] at hnode
    exact congrArg some (Except.ok.inj hnode)

/-- A link that the engine refuses is not answered. -/
theorem link_refused {inode newParent : Inode} {newName : String} (port : Port)
    (hrefused : ∀ src base, (a.path (E port.srcTurn) inode d).2 = .ok src →
      (a.path (E port.dirTurn) newParent d).2 = .ok base →
      (exec C M (E 2) d.sys a.conn
        (.request a.mount (.link src (childPath base newName)))).2.isOk = false) :
    ∃ e, (a.handleBy C M E port (.link inode newParent newName) d).2 = .error e := by
  cases hres : (a.handleBy C M E port (.link inode newParent newName) d).2 with
  | error e => exact ⟨e, rfl⟩
  | ok reply =>
    obtain ⟨src, base, d₁, v, hsrc, hbase, hcall⟩ : ∃ src base d₁ v,
        a.path (E port.srcTurn) inode d = (d, .ok src) ∧
        a.path (E port.dirTurn) newParent d = (d, .ok base) ∧
        a.call C M (E 2) (.request a.mount (.link src (childPath base newName))) d =
        (d₁, .ok v) := by
      cases port with
      | python =>
        have hlink : a.link C M E inode newParent newName d = (_, .ok reply) := Prod.ext rfl hres
        obtain ⟨base, u, hbase, h⟩ := bind_ok_iff.mp hlink
        obtain ⟨src, u', hsrc, h⟩ := bind_ok_iff.mp h
        obtain ⟨v, d₁, hcall, -⟩ := bind_ok_iff.mp h
        obtain rfl := (path_ok hbase).1
        obtain rfl := (path_ok hsrc).1
        exact ⟨src, base, d₁, v, hsrc, hbase, hcall⟩
      | rust =>
        have hlink : a.linkRust C M E inode newParent newName d = (_, .ok reply) :=
          Prod.ext rfl hres
        obtain ⟨src, u, hsrc, h⟩ := bind_ok_iff.mp hlink
        obtain ⟨base, u', hbase, h⟩ := bind_ok_iff.mp h
        obtain ⟨v, d₁, hcall, -⟩ := bind_ok_iff.mp h
        obtain rfl := (path_ok hsrc).1
        obtain rfl := (path_ok hbase).1
        exact ⟨src, base, d₁, v, hsrc, hbase, hcall⟩
    have hno := hrefused src base (congrArg Prod.snd hsrc) (congrArg Prod.snd hbase)
    have hyes : (exec C M (E 2) d.sys a.conn
        (.request a.mount (.link src (childPath base newName)))).2 =
        .ok v := congrArg Prod.snd hcall
    rw [hyes] at hno
    cases hno

/-! ### Listings -/

theorem there_cons_error {e : DirEntry} {err : FsError} (es : List DirEntry)
    (h : statById (E 0) (d.sys.conns a.conn).cipher d.sys.db a.mount e.node = .error err) :
    Dialogue.there a E (e :: es) d = Dialogue.there a (fun i => E (i + 1)) es d := by
  rw [Dialogue.there, h]
  rfl

theorem there_cons_ok {e : DirEntry} {row : NodeRow} (es : List DirEntry)
    (h : statById (E 0) (d.sys.conns a.conn).cipher d.sys.db a.mount e.node = .ok row) :
    Dialogue.there a E (e :: es) d = e :: Dialogue.there a (fun i => E (i + 1)) es d := by
  rw [Dialogue.there, h]
  rfl

/-- What is there does not depend on the tables of the daemon. -/
theorem there_sys {d' : Daemon} (es : List DirEntry) (h : d'.sys = d.sys) :
    Dialogue.there a E es d' = Dialogue.there a E es d := by
  induction es generalizing E with
  | nil => rfl
  | cons e es ih => rw [Dialogue.there, Dialogue.there, h, ih]

theorem emit_listed (es : List DirEntry) (room : ℕ) (d : Daemon) :
    (a.emit E room es d).2 = (Dialogue.there a E es d).take room := by
  induction es generalizing E room d with
  | nil => simp [AloeFuse.emit, Dialogue.there]
  | cons e es ih =>
    rw [AloeFuse.emit]
    cases hstat : statById (E 0) (d.sys.conns a.conn).cipher d.sys.db a.mount e.node with
    | error err =>
      rw [there_cons_error es hstat]
      exact ih room d
    | ok row =>
      rw [there_cons_ok es hstat]
      cases room with
      | zero => rfl
      | succ room =>
        exact congrArg (e :: ·) ((ih room _).trans (congrArg (List.take room) (there_sys es rfl)))

/-- A listing of entries that the other side has under their numbers changes no value. -/
theorem emit_agree {u : KernelTable} (es : List DirEntry) (room : ℕ) (d : Daemon)
    (hheld : ∀ e ∈ (Dialogue.there a E es d).take (room + 1),
      u.value (a.ino e.node) = some e.node)
    (h : Tally.Agree ROOT d.tally u) : Tally.Agree ROOT (a.emit E room es d).1.tally u := by
  induction es generalizing E room d with
  | nil => simpa [AloeFuse.emit] using h
  | cons e es ih =>
    rw [AloeFuse.emit]
    cases hstat : statById (E 0) (d.sys.conns a.conn).cipher d.sys.db a.mount e.node with
    | error err =>
      rw [there_cons_error es hstat] at hheld
      exact ih room d hheld h
    | ok row =>
      rw [there_cons_ok es hstat, List.take_succ_cons] at hheld
      have hentered : Tally.Agree ROOT (d.tally.enter (a.ino e.node) e.node) u :=
        h.enter (hheld e (List.mem_cons_self ..))
      cases room with
      | zero => exact hentered
      | succ room =>
        refine ih room { d with n := Function.update d.n (a.ino e.node) (some e.node) } ?_ hentered
        intro e' he'
        have hsame : Dialogue.there a (fun i => E (i + 1)) es
            { d with n := Function.update d.n (a.ino e.node) (some e.node) } =
            Dialogue.there a (fun i => E (i + 1)) es d := there_sys es rfl
        rw [hsame] at he'
        exact hheld e' (List.mem_cons_of_mem _ he')

theorem listed_dots {u : KernelTable} {port : Port} {es : List DirEntry}
    (h : port = .python → ∀ e ∈ es, e.name = "." ∨ e.name = "..") :
    KernelTable.listed a port es u = u := by
  cases port with
  | rust => rfl
  | python =>
    rw [KernelTable.listed]
    have hdots := h rfl
    induction es with
    | nil => rfl
    | cons e es ih =>
      rw [List.foldl_cons, if_pos (hdots e (List.mem_cons_self ..))]
      exact ih (fun hport e' he' => hdots e' (List.mem_cons_of_mem _ he'))
        (fun e' he' => hdots e' (List.mem_cons_of_mem _ he'))

/-! ### Replies -/

variable {u : KernelTable}

theorem replied_error {r : FuseRequest} {e : FsError}
    (hforget : ∀ inode count, r ≠ .forget inode count) :
    KernelTable.replied a u r (.error e) = u := by
  cases r with
  | forget inode count => exact absurd rfl (hforget inode count)
  | _ => rfl

theorem replied_enters {r : FuseRequest} (hr : r.enters) (n : NodeId) :
    KernelTable.replied a u r (.ok (.attr n)) = u.told (a.ino n) n := by
  cases r with
  | lookup parent name =>
    have hentry : FuseRequest.entry a (.lookup parent name) n = some (a.ino n, n) := by
      rw [FuseRequest.entry, if_neg hr.1, if_neg hr.2]
    change ((FuseRequest.entry a (.lookup parent name) n).map (fun e => u.told e.1 e.2)).getD u = _
    rw [hentry]
    rfl
  | mkdir parent name mode => rfl
  | create parent name mode flags => rfl
  | symlink parent name target => rfl
  | mknod parent name mode => rfl
  | forget inode count => exact hr.elim
  | link inode newParent newName => exact hr.elim
  | unlink parent name => exact hr.elim
  | rmdir parent name => exact hr.elim
  | rename parentOld nameOld parentNew nameNew => exact hr.elim

/-- A reply that gives no entry. -/
theorem replied_none {r : FuseRequest} (hforget : ∀ inode count, r ≠ .forget inode count)
    (hentry : ∀ n, r.entry a n = none) (res : Except FsError FuseReply) :
    KernelTable.replied a u r res = u := by
  cases res with
  | error e => exact replied_error hforget
  | ok reply =>
    cases r with
    | forget inode count => exact absurd rfl (hforget inode count)
    | _ =>
      cases reply with
      | done => rfl
      | attr n =>
        simp only [KernelTable.replied, hentry]
        rfl

end

end Aloelite
