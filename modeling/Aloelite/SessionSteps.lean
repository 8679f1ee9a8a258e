import Aloelite.UpheldSessions

/-! Each call of the registry upholds what its clients rely on. -/
namespace Aloelite

open Fallible KeyedRows

variable {C : Crypto} {M : Msgpack} {spelt : String → Option VolumeId} {d : Draws} {s s' : Sys}
  {c : ConnId} {name : String} {v : VolumeId} {m : MountId} {pin : Option Bytes} {row : VolumeRow}

variable {clients : List (Token × MountId)}

open DirectSessionRegistry

variable {store : String → VolumeRecord} {w : Attended} {id : String} {entry : DirectSession}
  {token : Token}

/-- Calls on one volume: what is asked of its own entry, and of the others. -/
theorem Upheld.change (h : Upheld C spelt store w) {w' : Attended} {ms : List MountId}
    {found : Option DirectSession}
    (hext : Extends C spelt c ms (w.reg.files (store id).sqlitePath) s')
    (hothers : ∀ id' e', id' ≠ id → w.reg.sessions id' = some e' →
      e'.conn ≠ c ∧ (e'.path = (store id).sqlitePath → ∀ p ∈ e'.clients, p.2 ∉ ms))
    (hopened : w.reg.opened ≤ w'.reg.opened)
    (hfiles : w'.reg.files = Function.update w.reg.files (store id).sqlitePath s')
    (hsessions : w'.reg.sessions = Function.update w.reg.sessions id found)
    (hattached : ∀ id', id' ≠ id → w'.attached id' = w.attached id')
    (hleft : ∀ id', id' ≠ id → w'.left id' = w.left id')
    (hnone : found = none → w'.attached id = [])
    (hsome : ∀ entry, found = some entry → Upheld.Open C spelt store w' id entry)
    (hapart : ∀ entry, found = some entry → ∀ id' e', id' ≠ id → w.reg.sessions id' = some e' →
      entry.conn ≠ e'.conn ∧
        (entry.path = e'.path → ∀ p ∈ entry.clients, p.2 ∉ e'.clients.map Prod.snd))
    (hgone : ∀ m ∈ w'.left id, s'.db.Gone m) : Upheld C spelt store w' := by
  have hother : ∀ id', id' ≠ id → w'.reg.sessions id' = w.reg.sessions id' := by
    intro id' hid
    rw [hsessions, Function.update_of_ne hid]
  have hself : w'.reg.sessions id = found := by
    rw [hsessions, Function.update_self]
  have hfile : ∀ path, (path = (store id).sqlitePath ∧ w'.reg.files path = s') ∨ w'.reg.files path =
      w.reg.files path := by
    intro path
    by_cases hpath : path = (store id).sqlitePath
    · refine Or.inl ⟨hpath, ?_⟩
      rw [hfiles, hpath, Function.update_self]
    · apply Or.inr
      rw [hfiles, Function.update_of_ne hpath]
  -- each clause at the volume that was called is a hypothesis; the others keep theirs
  refine ⟨?_, ?_, ?_, ?_, ?_, ?_⟩
  · intro path
    rcases hfile path with ⟨-, heq⟩ | heq
    · rw [heq]
      exact hext.sound
    · rw [heq]
      exact h.sound path
  · intro path
    rcases hfile path with ⟨-, heq⟩ | heq
    · rw [heq]
      exact hext.keyed
    · rw [heq]
      exact h.keyed path
  · intro id' e' he'
    by_cases hid : id' = id
    · subst hid
      exact hsome e' (hself.symm.trans he')
    rw [hother id' hid] at he'
    have ho := h.unlocked id' e' he'
    obtain ⟨hconn, hms⟩ := hothers id' e' hid he'
    refine ⟨ho.path, ho.conn.trans_le hopened, ?_, ho.tokens, ho.nonempty, ho.mounts, ?_⟩
    · rw [hattached id' hid]
      exact ho.clients
    · obtain ⟨v, row, hserving⟩ := ho.serving
      refine ⟨v, row, ?_⟩
      rcases hfile e'.path with ⟨hpath, heq⟩ | heq
      · rw [heq]
        rw [hpath] at hserving
        exact hserving.extends hext (by rw [hext.conns _ hconn]) (fun _ hp => hp) (hms hpath)
      · rw [heq]
        exact hserving
  · intro id' hid'
    by_cases hid : id' = id
    · subst hid
      exact hnone (hself.symm.trans hid')
    · rw [hother id' hid] at hid'
      rw [hattached id' hid]
      exact h.locked id' hid'
  · intro id₁ id₂ e₁ e₂ h₁ h₂ hne
    by_cases hid₁ : id₁ = id
    · subst hid₁
      rw [hother id₂ (Ne.symm hne)] at h₂
      exact hapart e₁ (hself.symm.trans h₁) id₂ e₂ (Ne.symm hne) h₂
    rw [hother id₁ hid₁] at h₁
    by_cases hid₂ : id₂ = id
    · subst hid₂
      obtain ⟨hconn, hmounts⟩ := hapart e₂ (hself.symm.trans h₂) id₁ e₁ hid₁ h₁
      refine ⟨Ne.symm hconn, fun hpath p hp hmem => ?_⟩
      obtain ⟨p', hp', heq⟩ := List.mem_map.mp hmem
      exact hmounts hpath.symm p' hp' (heq ▸ List.mem_map_of_mem hp)
    · rw [hother id₂ hid₂] at h₂
      exact h.apart id₁ id₂ e₁ e₂ h₁ h₂ hne
  · intro id' m hm
    by_cases hid : id' = id
    · subst hid
      rw [hfiles, Function.update_self]
      exact hgone m hm
    rw [hleft id' hid] at hm
    have hold := h.gone id' m hm
    rcases hfile (store id').sqlitePath with ⟨hpath, heq⟩ | heq
    · rw [heq]
      rw [hpath] at hold
      exact hext.stay m hold
    · rw [heq]
      exact hold

/-- A mount that was not there is no client's. -/
theorem Upheld.fresh_apart (h : Upheld C spelt store w) {path : String}
    (hfresh : (w.reg.files path).db.mount? m = none) (hopen : w.reg.sessions id = some entry)
    (hpath : entry.path = path) :
    m ∉ entry.clients.map Prod.snd := by
  intro hmem
  obtain ⟨p, hp, rfl⟩ := List.mem_map.mp hmem
  obtain ⟨v, row, hserving⟩ := (h.unlocked id entry hopen).serving
  obtain ⟨r, hr, -⟩ := hserving.live p hp
  rw [hpath, hfresh] at hr
  cases hr

theorem Upheld.gone_after (h : Upheld C spelt store w) {ms : List MountId}
    (hext : Extends C spelt c ms (w.reg.files (store id).sqlitePath) s') :
    ∀ m ∈ w.left id, s'.db.Gone m :=
  fun m hm => hext.stay m (h.gone id m hm)

theorem Upheld.unlock (hauth : C.Authentic) (hstore : ∀ id, (store id).id = id)
    (h : Upheld C spelt store w) (hfresh : RegistryLabel.Fresh w ⟨id, d, .unlock pin⟩) :
    Upheld C spelt store (attend C M spelt store w ⟨id, d, .unlock pin⟩) := by
  cases hs : w.reg.sessions id with
  | some entry =>
    have hsame : attend C M spelt store w ⟨id, d, .unlock pin⟩ = w := by
      simp [attend, RegistryCall.run, DirectSessionRegistry.unlock, hstore, hs, Except.map]
    rw [hsame]
    exact h
  | none =>
    let s₀ := (w.reg.files (store id).sqlitePath).setConn w.reg.opened {}
    have hbase : Extends C spelt w.reg.opened [] (w.reg.files (store id).sqlitePath) s₀ :=
      (Extends.refl (h.sound _) (h.keyed _)).setConn {}
    have hothers : ∀ id' e', id' ≠ id → w.reg.sessions id' = some e' →
        e'.conn ≠ w.reg.opened ∧
        (e'.path = (store id).sqlitePath → ∀ p ∈ e'.clients, p.2 ∉ ([] : List MountId)) :=
      fun id' e' _ he' => ⟨(h.unlocked id' e' he').conn.ne, fun _ _ _ => List.not_mem_nil⟩
    cases hm : fsMount C M spelt d s₀ w.reg.opened (store id).name pin true with
    | mk s₁ r =>
    -- refused, a connection has been opened and nothing else; opened, the session is the only one
    rcases fsMount_cases hauth hbase.sound hbase.keyed hm with ⟨e, rfl, hext, -⟩ | ⟨m, v, row,
      rfl, hext, hopened⟩
    · have hafter : attend C M spelt store w ⟨id, d, .unlock pin⟩ =
          { w with reg := { w.reg with
            files := Function.update w.reg.files (store id).sqlitePath s₁, opened :=
              w.reg.opened + 1 } } := by
        simp [attend, RegistryCall.run, DirectSessionRegistry.unlock, hstore, hs, s₀, hm,
          Except.map, setFile]
      have hclosed : w.reg.sessions = Function.update w.reg.sessions id none := by
        rw [← hs, Function.update_eq_self]
      rw [hafter]
      refine h.change (hbase.trans hext) hothers (Nat.le_succ _) rfl hclosed (fun _ _ => rfl)
        (fun _ _ => rfl) ?_ ?_ ?_ ?_
      · intro _
        exact h.locked id hs
      · intro entry he
        cases he
      · intro entry he
        cases he
      · exact h.gone_after (hbase.trans hext)
    · let entry : DirectSession :=
        { path := (store id).sqlitePath, conn := w.reg.opened, mount := m,
          clients := [(d.token, m)], primaryToken := d.token }
      have hnewest : s₁.newestMount = [m] := by
        rw [Sys.newestMount, hopened.newest]
        rfl
      have hafter : attend C M spelt store w ⟨id, d, .unlock pin⟩ =
          { reg :=
              { files := Function.update w.reg.files (store id).sqlitePath s₁
                opened := w.reg.opened + 1
                sessions := Function.update w.reg.sessions id (some entry) }
            attached := Function.update w.attached id [(d.token, m)]
            left := w.left } := by
        simp [attend, RegistryCall.run, DirectSessionRegistry.unlock, hstore, hs, s₀, hm,
          Except.map, setFile, setSession, hnewest,
          h.locked id hs, entry]
      have hfreshMount : (w.reg.files (store id).sqlitePath).db.mount? m = none := hopened.fresh
      rw [hafter]
      refine h.change (hbase.trans hext) hothers (Nat.le_succ _) rfl rfl ?_
        (fun _ _ => rfl) ?_ ?_ ?_ ?_
      · intro id' hid
        exact Function.update_of_ne hid _ _
      · intro he
        cases he
      · intro entry' he
        obtain rfl := Option.some.inj he
        refine ⟨rfl, Nat.lt_succ_self _, ?_, List.nodup_singleton _, ?_,
          List.nodup_singleton _, v, row, ?_⟩
        · exact (Function.update_self id [(d.token, m)] w.attached).symm
        · intro p hp
          obtain rfl := List.mem_singleton.mp hp
          exact hfresh.1
        · change Serving C spelt
              (Function.update w.reg.files (store id).sqlitePath s₁ (store id).sqlitePath)
                w.reg.opened _ _ v row
          rw [Function.update_self]
          refine ⟨hopened.named, hopened.volume, hopened.cipher, ?_⟩
          intro p hp
          obtain rfl := List.mem_singleton.mp hp
          exact hopened.mounted
      · intro entry' he id' e' _ he'
        obtain rfl := Option.some.inj he
        refine ⟨(h.unlocked id' e' he').conn.ne', fun hpath p hp => ?_⟩
        obtain rfl := List.mem_singleton.mp hp
        exact h.fresh_apart hfreshMount he' hpath.symm
      · exact h.gone_after (hbase.trans hext)

theorem Upheld.attach (hauth : C.Authentic) (hstore : ∀ id, (store id).id = id)
    (h : Upheld C spelt store w) (hfresh : RegistryLabel.Fresh w ⟨id, d, .attach pin⟩) :
    Upheld C spelt store (attend C M spelt store w ⟨id, d, .attach pin⟩) := by
  cases hs : w.reg.sessions id with
  | none =>
    have hsame : attend C M spelt store w ⟨id, d, .attach pin⟩ = w := by
      simp [attend, RegistryCall.run, DirectSessionRegistry.attach, hstore, hs, Except.map]
    rw [hsame]
    exact h
  | some entry =>
    have ho := h.unlocked id entry hs
    have hpath := ho.path
    have hothers : ∀ id' e', id' ≠ id → w.reg.sessions id' = some e' →
        e'.conn ≠ entry.conn ∧
        (e'.path = (store id).sqlitePath → ∀ p ∈ e'.clients, p.2 ∉ ([] : List MountId)) :=
      fun id' e' hid he' => ⟨(h.apart id' id e' entry he' hs hid).1, fun _ _ _ => List.not_mem_nil⟩
    have htoken : d.token ∉ entry.clients.map Prod.fst := hfresh.2 entry hs
    obtain ⟨v, row, hserving⟩ := ho.serving
    rw [hpath] at hserving
    cases hm : fsMount C M spelt d (w.reg.files (store id).sqlitePath) entry.conn
      (store id).name pin false with
    | mk s₁ r =>
    -- the mount is refused, and all stays as it is; or it opens on the session's own volume
    rcases fsMount_cases hauth (h.sound _) (h.keyed _) hm with ⟨e, rfl, hext, hsame⟩ | ⟨m, v', row',
      rfl, hext, hopened⟩
    · have hafter : attend C M spelt store w ⟨id, d, .attach pin⟩ = w := by
        simp [attend, RegistryCall.run, DirectSessionRegistry.attach, hstore, hs, hpath, hm,
          Except.map, setFile, hsame rfl]
      rw [hafter]
      exact h
    · have hnewest : s₁.newestMount = [m] := by
        rw [Sys.newestMount, hopened.newest]
        rfl
      have hfilter : entry.clients.filter (fun p => p.1 ≠ d.token) = entry.clients := by
        apply List.filter_eq_self.mpr
        intro p hp
        have hne : p.1 ≠ d.token := fun heq => htoken (heq ▸ List.mem_map_of_mem hp)
        simpa using hne
      have hafter : attend C M spelt store w ⟨id, d, .attach pin⟩ =
          { reg := { w.reg with
              files := Function.update w.reg.files (store id).sqlitePath s₁
              sessions := Function.update w.reg.sessions id
                (some { entry with clients := entry.clients ++ [(d.token, m)] }) }
            attached := Function.update w.attached id (w.attached id ++ [(d.token, m)])
            left := w.left } := by
        simp only [attend, RegistryCall.run, DirectSessionRegistry.attach, hstore, hs,
          hpath, hm, hfilter]
        simp [Except.map, setFile, setSession, hnewest]
      have hfreshMount : (w.reg.files (store id).sqlitePath).db.mount? m = none := hopened.fresh
      have hnew : m ∉ entry.clients.map Prod.snd := h.fresh_apart hfreshMount hs hpath
      obtain rfl : v = v' :=
        Option.some.inj ((hext.named _ _ hserving.named).symm.trans hopened.named)
      have hrow : s₁.db.volume? v = some row := (hext.volumes v row hserving.volume).1
      obtain rfl : row = row' := Option.some.inj (hrow.symm.trans hopened.volume)
      rw [hafter]
      refine h.change hext hothers le_rfl rfl rfl ?_ (fun _ _ => rfl) ?_ ?_ ?_ (h.gone_after hext)
      · intro id' hid
        exact Function.update_of_ne hid _ _
      · intro he
        cases he
      · intro entry' he
        obtain rfl := Option.some.inj he
        refine ⟨hpath, ho.conn, ?_, ?_, ?_, ?_, v, row, ?_⟩
        · change entry.clients ++ [(d.token, m)] =
              Function.update w.attached id (w.attached id ++ [(d.token, m)]) id
          rw [Function.update_self, ho.clients]
        · rw [List.map_append]
          exact List.nodup_append_comm.mp (List.nodup_cons.mpr ⟨htoken, ho.tokens⟩)
        · intro p hp
          rcases List.mem_append.mp hp with hp | hp
          · exact ho.nonempty p hp
          · obtain rfl := List.mem_singleton.mp hp
            exact hfresh.1
        · rw [List.map_append]
          exact List.nodup_append_comm.mp (List.nodup_cons.mpr ⟨hnew, ho.mounts⟩)
        · change Serving C spelt (Function.update w.reg.files (store id).sqlitePath s₁ entry.path)
              entry.conn _ _ v row
          rw [hpath, Function.update_self]
          refine ⟨hopened.named, hopened.volume, hopened.cipher, ?_⟩
          intro p hp
          rcases List.mem_append.mp hp with hp | hp
          · obtain ⟨r, hr, hstate, hexp, hvol⟩ := hserving.live p hp
            exact ⟨r, hext.mounts p.2 r List.not_mem_nil hr, hstate, hexp, hvol⟩
          · obtain rfl := List.mem_singleton.mp hp
            exact hopened.mounted
      · intro entry' he id' e' hid he'
        obtain rfl := Option.some.inj he
        obtain ⟨hconn, hmounts⟩ := h.apart id id' entry e' hs he' (Ne.symm hid)
        refine ⟨hconn, fun hsame p hp => ?_⟩
        rcases List.mem_append.mp hp with hp | hp
        · exact hmounts hsame p hp
        · obtain rfl := List.mem_singleton.mp hp
          exact h.fresh_apart hfreshMount he' (hsame.symm.trans hpath)

/-- The mounts that go are not those of others on the file. -/
theorem Upheld.others (h : Upheld C spelt store w) (hs : w.reg.sessions id = some entry)
    {ms : List MountId} (hms : ∀ m ∈ ms, m ∈ entry.clients.map Prod.snd) (id' : String)
    (e' : DirectSession) (hid : id' ≠ id) (he' : w.reg.sessions id' = some e') :
    e'.conn ≠ entry.conn ∧ (e'.path = (store id).sqlitePath → ∀ p ∈ e'.clients, p.2 ∉ ms) := by
  obtain ⟨hconn, hmounts⟩ := h.apart id' id e' entry he' hs hid
  refine ⟨hconn, fun hpath p hp hmem => ?_⟩
  rw [← (h.unlocked id entry hs).path] at hpath
  exact hmounts hpath p hp (hms _ hmem)

theorem Upheld.lock (hauth : C.Authentic) (hstore : ∀ id, (store id).id = id)
    (h : Upheld C spelt store w) :
    Upheld C spelt store (attend C M spelt store w ⟨id, d, .lock⟩) := by
  cases hs : w.reg.sessions id with
  | none =>
    have hsame : attend C M spelt store w ⟨id, d, .lock⟩ = w := by
      simp [attend, RegistryCall.run, DirectSessionRegistry.lock, hstore, hs, Except.map]
    rw [hsame]
    exact h
  | some entry =>
    have ho := h.unlocked id entry hs
    have hpath := ho.path
    let s₁ := entry.clients.foldl (fun s p => (exec C M d.unmount s entry.conn (.unmount p.2)).1)
      (w.reg.files (store id).sqlitePath)
    have hext : Extends C spelt entry.conn (entry.clients.map Prod.snd)
        (w.reg.files (store id).sqlitePath) s₁ :=
      unmounts_extends hauth (h.sound _) (h.keyed _) entry.clients
    have hafter : attend C M spelt store w ⟨id, d, .lock⟩ =
        { reg := { w.reg with
            files := Function.update w.reg.files (store id).sqlitePath s₁
            sessions := Function.update w.reg.sessions id none }
          attached := Function.update w.attached id []
          left := Function.update w.left id (w.left id ++ (w.attached id).map Prod.snd) } := by
      simp only [attend, RegistryCall.run, DirectSessionRegistry.lock, hstore, hs, hpath]
      simp [Except.map, setFile, setSession, s₁]
    rw [hafter]
    refine h.change hext (h.others hs (fun m hm => hm)) le_rfl rfl rfl ?_ ?_ ?_ ?_ ?_ ?_
    · intro id' hid
      exact Function.update_of_ne hid _ _
    · intro id' hid
      exact Function.update_of_ne hid _ _
    · intro _
      exact Function.update_self _ _ _
    · intro entry he
      cases he
    · intro entry he
      cases he
    · intro m hm
      change m ∈ Function.update w.left id (w.left id ++ (w.attached id).map Prod.snd) id at hm
      rw [Function.update_self] at hm
      rcases List.mem_append.mp hm with hm | hm
      · exact h.gone_after hext m hm
      · rw [← ho.clients] at hm
        obtain ⟨p, hp, rfl⟩ := List.mem_map.mp hm
        obtain ⟨v, row, hserving⟩ := ho.serving
        obtain ⟨r, hr, -⟩ := hserving.live p hp
        rw [hpath] at hr
        exact hext.gone p.2 hm (by rw [hr, Option.isSome_some])

theorem Upheld.detach (hauth : C.Authentic) (hstore : ∀ id, (store id).id = id)
    (h : Upheld C spelt store w) :
    Upheld C spelt store (attend C M spelt store w ⟨id, d, .detach token⟩) := by
  cases hs : w.reg.sessions id with
  | none =>
    have hsame : attend C M spelt store w ⟨id, d, .detach token⟩ = w := by
      simp [attend, RegistryCall.run, DirectSessionRegistry.detach, hstore, hs, Except.map]
    rw [hsame]
    exact h
  | some entry =>
    have ho := h.unlocked id entry hs
    have hpath := ho.path
    cases hm : clientMount entry token with
    | none =>
      have hsame : attend C M spelt store w ⟨id, d, .detach token⟩ = w := by
        simp [attend, RegistryCall.run, DirectSessionRegistry.detach, hstore, hs, hm, Except.map]
      rw [hsame]
      exact h
    | some m =>
      have hmem := clientMount_mem hm
      let clients := entry.clients.filter (fun p => p.1 ≠ token)
      let s₁ := (exec C M d.unmount (w.reg.files (store id).sqlitePath) entry.conn (.unmount m)).1
      have hext : Extends C spelt entry.conn [m] (w.reg.files (store id).sqlitePath) s₁ :=
        unmount_extends hauth (h.sound _) (h.keyed _)
      have hleaves : ∀ n ∈ [m], n ∈ entry.clients.map Prod.snd := by
        intro n hn
        obtain rfl := List.mem_singleton.mp hn
        exact List.mem_map_of_mem hmem
      obtain ⟨v, row, hserving⟩ := ho.serving
      rw [hpath] at hserving
      -- only this client has the mount
      have hothers : ∀ p ∈ clients, p.2 ∉ [m] := by
        intro p hp heq
        obtain ⟨hp, hne⟩ := List.mem_filter.mp hp
        have hsame : p = (token, m) := eq_of_key_eq ho.mounts hp hmem (List.mem_singleton.mp heq)
        rw [hsame] at hne
        simp at hne
      let left := w.left id ++ ((w.attached id).filter (fun p => p.1 = token)).map Prod.snd
      have hgone : ∀ n ∈ left, s₁.db.Gone n := by
        intro n hn
        rcases List.mem_append.mp hn with hn | hn
        · exact h.gone_after hext n hn
        · obtain ⟨p, hp, rfl⟩ := List.mem_map.mp hn
          obtain ⟨hp, htoken⟩ := List.mem_filter.mp hp
          rw [← ho.clients] at hp
          have hsame : p = (token, m) := eq_of_key_eq ho.tokens hp hmem (by simpa using htoken)
          obtain ⟨r, hr, -⟩ := hserving.live p hp
          rw [hsame] at hr ⊢
          exact hext.gone m (List.mem_singleton_self m) (by rw [hr, Option.isSome_some])
      -- the last client's detach drops the session and the connection with it
      by_cases hlast : clients = []
      · have hafter : attend C M spelt store w ⟨id, d, .detach token⟩ =
            { reg := { w.reg with
                files := Function.update w.reg.files (store id).sqlitePath s₁
                sessions := Function.update w.reg.sessions id none }
              attached := Function.update w.attached id clients
              left := Function.update w.left id left } := by
          simp only [attend, RegistryCall.run, DirectSessionRegistry.detach, hstore, hs, hm, hpath]
          rw [if_pos hlast]
          simp [Except.map, setFile, setSession, s₁, clients, left, ho.clients]
        rw [hafter]
        refine h.change hext (h.others hs hleaves) le_rfl rfl rfl ?_ ?_ ?_ ?_ ?_ ?_
        · intro id' hid
          exact Function.update_of_ne hid _ _
        · intro id' hid
          exact Function.update_of_ne hid _ _
        · intro _
          exact (Function.update_self id clients w.attached).trans hlast
        · intro entry he
          cases he
        · intro entry he
          cases he
        · intro n hn
          apply hgone
          change n ∈ Function.update w.left id left id at hn
          rw [Function.update_self] at hn
          exact hn
      · let saved := (w.reg.files (store id).sqlitePath).conns entry.conn
        have hext' : Extends C spelt entry.conn [m] (w.reg.files (store id).sqlitePath)
            (s₁.setConn entry.conn saved) :=
          hext.setConn saved
        have hafter : attend C M spelt store w ⟨id, d, .detach token⟩ =
            { reg := { w.reg with
                files := Function.update w.reg.files (store id).sqlitePath
                  (s₁.setConn entry.conn saved)
                sessions := Function.update w.reg.sessions id
                  (some { entry with clients := clients }) }
              attached := Function.update w.attached id clients
              left := Function.update w.left id left } := by
          simp only [attend, RegistryCall.run, DirectSessionRegistry.detach, hstore, hs, hm, hpath]
          rw [if_neg hlast]
          simp [Except.map, setFile, setSession, s₁, saved, clients, left, ho.clients]
        rw [hafter]
        refine h.change hext' (h.others hs hleaves) le_rfl rfl rfl ?_ ?_ ?_ ?_ ?_ ?_
        · intro id' hid
          exact Function.update_of_ne hid _ _
        · intro id' hid
          exact Function.update_of_ne hid _ _
        · intro he
          cases he
        · intro entry' he
          obtain rfl := Option.some.inj he
          have hsub : clients.Sublist entry.clients := List.filter_sublist
          refine ⟨hpath, ho.conn, ?_, ho.tokens.sublist (hsub.map _), fun p hp =>
            ho.nonempty p (hsub.subset hp),
            ho.mounts.sublist (hsub.map _), v, row, ?_⟩
          · exact (Function.update_self id clients w.attached).symm
          · change Serving C spelt
                (Function.update w.reg.files (store id).sqlitePath
                  (s₁.setConn entry.conn saved) entry.path)
              entry.conn _ clients v row
            rw [hpath, Function.update_self]
            apply hserving.extends hext' _ (fun p hp => hsub.subset hp) hothers
            -- the mount's cipher is put back for the clients that stay
            have hrestored : (s₁.setConn entry.conn saved).conns entry.conn = saved :=
              Function.update_self _ _ _
            rw [hrestored]
        · intro entry' he id' e' hid he'
          obtain rfl := Option.some.inj he
          obtain ⟨hconn, hmounts⟩ := h.apart id id' entry e' hs he' (Ne.symm hid)
          exact ⟨hconn, fun hsame p hp => hmounts hsame p (List.mem_filter.mp hp).1⟩
        · intro n hn
          apply hgone
          change n ∈ Function.update w.left id left id at hn
          rw [Function.update_self] at hn
          exact hn

theorem Upheld.attend (hauth : C.Authentic) (hstore : ∀ id, (store id).id = id)
    (h : Upheld C spelt store w) (l : RegistryLabel) (hfresh : l.Fresh w) :
    Upheld C spelt store (Aloelite.attend C M spelt store w l) := by
  obtain ⟨id, d, call⟩ := l
  cases call with
  | unlock pin => exact h.unlock hauth hstore hfresh
  | attach pin => exact h.attach hauth hstore hfresh
  | detach token => exact h.detach hauth hstore
  | lock => exact h.lock hauth hstore
  | session token =>
    have hsame : Aloelite.attend C M spelt store w ⟨id, d, .session token⟩ = w := by
      simp only [Aloelite.attend, RegistryCall.run]
      cases w.reg.session (store id).id token with
      | error e => rfl
      | ok m => rfl
    rw [hsame]
    exact h

variable (C M) in
theorem attend_reg (l : RegistryLabel) :
    (attend C M spelt store w l).reg = (l.call.run C M spelt l.draws (store l.id) w.reg).1 := by
  rw [Aloelite.attend]
  split <;> rfl

end Aloelite
