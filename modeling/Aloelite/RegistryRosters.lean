import Aloelite.Rosters

/-! What the registry of direct sessions and the front of the DAV server do to the files: no file
gets or loses a volume, and a new session is of the file of its record. -/
namespace Aloelite

open KeyedRows Dicts Fallible

variable {C : Crypto} {M : Msgpack} {ids : IdSpelling} {hash : Bytes → Bytes} {d : Draws}
  {s s' : Sys} {c : ConnId} {name : String} {v : VolumeId} {pin : Option Bytes} {db : Db}

namespace DirectSessionRegistry

variable {g g' g'' : DirectSessionRegistry} {record : VolumeRecord} {path : String}
  {entry : DirectSession}

/-- The files keep their volumes, and a session that was not there is of a file of its own. -/
structure Keeps (g g' : DirectSessionRegistry) (id path : String) : Prop where
  files : ∀ p, KeepsRoster (g.files p) (g'.files p)
  sessions : ∀ i e', g'.sessions i = some e' → (∃ e, g.sessions i = some e ∧ e.path = e'.path) ∨
    (i = id ∧ e'.path = path)

theorem Keeps.refl (g : DirectSessionRegistry) (id path : String) : g.Keeps g id path :=
  ⟨fun _ => KeepsRoster.refl _, fun _ e he => Or.inl ⟨e, he, rfl⟩⟩

theorem keepsRoster_update {files : String → Sys} (h : KeepsRoster (files path) s) (p : String) :
    KeepsRoster (files p) (Function.update files path s p) := by
  by_cases hp : p = path
  · subst hp
    rw [Function.update_self]
    exact h
  · rw [Function.update_of_ne hp]
    exact KeepsRoster.refl _

/-- A call on one file that gives, changes or ends one session. -/
theorem Keeps.of_session {id own : String} {after : Option DirectSession}
    (hfile : KeepsRoster (g.files path) s)
    (hafter : ∀ e', after = some e' →
      (∃ e, g.sessions id = some e ∧ e.path = e'.path) ∨ e'.path = own) :
    g.Keeps ((g.setFile path s).setSession id after) id own := by
  refine ⟨keepsRoster_update hfile, ?_⟩
  intro i e' he'
  by_cases hi : i = id
  · subst hi
    have hself : ((g.setFile path s).setSession i after).sessions i = after :=
      Function.update_self _ _ _
    rw [hself] at he'
    rcases hafter e' he' with hold | hown
    · exact Or.inl hold
    · exact Or.inr ⟨rfl, hown⟩
  · have hother : ((g.setFile path s).setSession id after).sessions i = g.sessions i :=
      Function.update_of_ne hi _ _
    rw [hother] at he'
    exact Or.inl ⟨e', he', rfl⟩

/-- The record's name is that of the volume `v` in the file of its session, if it has one. -/
structure Suits (ids : IdSpelling) (g : DirectSessionRegistry) (record : VolumeRecord)
    (path : String) (v : VolumeId) : Prop where
  names : WellNamed ids (g.files path).db.roster
  mem : (v, some record.name) ∈ (g.files path).db.roster
  session : ∀ e, g.sessions record.id = some e → e.path = path

variable (pin) in
theorem unlock_keeps (h : g.Suits ids record record.sqlitePath v) :
    g.Keeps (g.unlock C M ids.read d record pin).1 record.id record.sqlitePath := by
  rw [unlock]
  split
  · exact Keeps.refl g _ _
  · have hopens := fsMount_opens (C := C) (M := M) (d := d) (c := g.opened)
      (s := (g.files record.sqlitePath).setConn g.opened {}) pin h.names h.mem true
    have hkeeps : KeepsRoster (g.files record.sqlitePath) _ := hopens.keeps
    dsimp only
    split
    next s' _ heq =>
      have hfile : KeepsRoster (g.files record.sqlitePath) s' := by
        rw [heq] at hkeeps
        exact hkeeps
      exact ⟨keepsRoster_update hfile, fun _ e he => Or.inl ⟨e, he, rfl⟩⟩
    next s' _ heq =>
      have hfile : KeepsRoster (g.files record.sqlitePath) s' := by
        rw [heq] at hkeeps
        exact hkeeps
      -- the count of connections is not looked at
      let g₁ : DirectSessionRegistry := { g with opened := g.opened + 1 }
      have hcounted : ∀ e : DirectSession, e.path = record.sqlitePath →
          g₁.Keeps ((g₁.setFile record.sqlitePath s').setSession record.id (some e)) record.id
            record.sqlitePath := by
        intro e hpath
        apply Keeps.of_session (g := g₁) hfile
        intro e' he'
        rw [← Option.some.inj he']
        exact Or.inr hpath
      exact ⟨(hcounted _ rfl).files, (hcounted _ rfl).sessions⟩

variable (pin) in
theorem attach_keeps (h : g.Suits ids record path v) :
    g.Keeps (g.attach C M ids.read d record pin).1 record.id record.sqlitePath := by
  rw [attach]
  split
  · exact Keeps.refl g _ _
  next entry hs =>
    have hpath := h.session entry hs
    have hnames := h.names
    have hmem := h.mem
    rw [← hpath] at hnames hmem
    have hopens := fsMount_opens (C := C) (M := M) (d := d) (c := entry.conn) pin hnames hmem false
    have hkeeps := hopens.keeps
    split
    next heq =>
      rw [heq] at hkeeps
      exact ⟨keepsRoster_update hkeeps, fun _ e he => Or.inl ⟨e, he, rfl⟩⟩
    next heq =>
      rw [heq] at hkeeps
      apply Keeps.of_session hkeeps
      intro e' he'
      obtain rfl := Option.some.inj he'
      exact Or.inl ⟨entry, hs, rfl⟩

/-- The files keep their volumes, and no session comes up. -/
structure KeepsOld (g g' : DirectSessionRegistry) : Prop where
  files : ∀ p, KeepsRoster (g.files p) (g'.files p)
  sessions : ∀ i e', g'.sessions i = some e' → ∃ e, g.sessions i = some e ∧ e.path = e'.path

theorem KeepsOld.refl (g : DirectSessionRegistry) : g.KeepsOld g :=
  ⟨fun _ => KeepsRoster.refl _, fun _ e he => ⟨e, he, rfl⟩⟩

theorem KeepsOld.trans (h : g.KeepsOld g') (h' : g'.KeepsOld g'') : g.KeepsOld g'' := by
  refine ⟨fun p => (h.files p).trans (h'.files p), ?_⟩
  intro i e'' he''
  obtain ⟨e', he', hpath'⟩ := h'.sessions i e'' he''
  obtain ⟨e, he, hpath⟩ := h.sessions i e' he'
  exact ⟨e, he, hpath.trans hpath'⟩

theorem KeepsOld.of_session {id : String} {after : Option DirectSession}
    (hfile : KeepsRoster (g.files path) s)
    (hafter : ∀ e', after = some e' → ∃ e, g.sessions id = some e ∧ e.path = e'.path) :
    g.KeepsOld ((g.setFile path s).setSession id after) := by
  refine ⟨keepsRoster_update hfile, ?_⟩
  intro i e' he'
  by_cases hi : i = id
  · subst hi
    have hself : ((g.setFile path s).setSession i after).sessions i = after :=
      Function.update_self _ _ _
    rw [hself] at he'
    exact hafter e' he'
  · have hother : ((g.setFile path s).setSession id after).sessions i = g.sessions i :=
      Function.update_of_ne hi _ _
    rw [hother] at he'
    exact ⟨e', he', rfl⟩

theorem detach_keeps {token : Token} : g.KeepsOld (g.detach C M d record token).1 := by
  rw [detach]
  split
  · exact KeepsOld.refl g
  next entry hs =>
    split
    · exact KeepsOld.refl g
    next m _ =>
      have hunmount : KeepsRoster (g.files entry.path)
          (exec C M d.unmount (g.files entry.path) entry.conn (.unmount m)).1 :=
        exec_keepsRoster rfl
      dsimp only
      split
      · apply KeepsOld.of_session hunmount
        intro e' he'
        cases he'
      · have hrestored : KeepsRoster (g.files entry.path)
            ((exec C M d.unmount (g.files entry.path) entry.conn (.unmount m)).1.setConn
            entry.conn ((g.files entry.path).conns entry.conn)) := hunmount
        apply KeepsOld.of_session hrestored
        intro e' he'
        obtain rfl := Option.some.inj he'
        exact ⟨entry, hs, rfl⟩

theorem lock_keeps : g.KeepsOld (g.lock C M d record).1 := by
  rw [lock]
  split
  · exact KeepsOld.refl g
  next entry hs =>
    have hunmounts : ∀ (clients : List (Token × MountId)) (s : Sys),
        KeepsRoster s (clients.foldl
          (fun s p => (exec C M d.unmount s entry.conn (.unmount p.2)).1) s) := by
      intro clients
      induction clients with
      | nil => exact fun s => KeepsRoster.refl s
      | cons p clients ih => exact fun s => (exec_keepsRoster rfl).trans (ih _)
    apply KeepsOld.of_session (hunmounts entry.clients (g.files entry.path))
    intro e' he'
    cases he'

theorem enter_keeps {pin : Bytes} (h : g.Suits ids record record.sqlitePath v) :
    g.Keeps (g.enter C M ids.read d record pin).1 record.id record.sqlitePath := by
  rw [enter]
  split
  · exact attach_keeps _ h
  · exact unlock_keeps _ h

end DirectSessionRegistry

variable (hash pin) in
theorem DavFront.sessionToken_keeps {f : DavFront} {record : VolumeRecord} (encrypted : Bool)
    (h : f.reg.Suits ids record record.sqlitePath v) :
    f.reg.Keeps (f.sessionToken C M ids.read hash d record encrypted pin).1.reg record.id
      record.sqlitePath := by
  cases encrypted with
  | true =>
    cases pin with
    | none => exact DirectSessionRegistry.Keeps.refl _ _ _
    | some pin =>
      rw [DavFront.sessionToken_encrypted]
      split
      · exact DirectSessionRegistry.Keeps.refl _ _ _
      · rw [DavFront.provePin_reg]
        exact DirectSessionRegistry.enter_keeps h
      · rw [DavFront.provePin_reg]
        exact DirectSessionRegistry.enter_keeps h
  | false =>
    rw [DavFront.sessionToken.eq_def, if_neg (by decide)]
    split
    · exact DirectSessionRegistry.Keeps.refl _ _ _
    · have hunlock := DirectSessionRegistry.unlock_keeps (C := C) (M := M) (d := d) none h
      split
      next heq =>
        rw [heq] at hunlock
        exact hunlock
      next heq =>
        rw [heq] at hunlock
        exact hunlock
      next heq =>
        rw [heq] at hunlock
        exact hunlock

end Aloelite
