import Aloelite.SessionSteps

/-! The sessions of the registry over any run of calls. The primary mount of a session is the first
client's, and the registry goes on using it. -/
namespace Aloelite

open Fallible KeyedRows

variable {C : Crypto} {M : Msgpack} {spelt : String → Option VolumeId} {d : Draws} {v : VolumeId}
  {m : MountId} {pin : Option Bytes}

variable {clients : List (Token × MountId)}

open DirectSessionRegistry

variable {store : String → VolumeRecord} {w : Attended} {id : String} {entry : DirectSession}
  {token : Token}

/-! ### The primary mount -/

theorem DirectSessionRegistry.HoldsPrimary.setSession {g : DirectSessionRegistry}
    (h : g.HoldsPrimary) {found : Option DirectSession}
    (hfound : ∀ entry, found = some entry → (entry.primaryToken, entry.mount) ∈ entry.clients) :
    (g.setSession id found).HoldsPrimary := by
  intro id' entry hentry
  by_cases hid : id' = id
  · subst hid
    apply hfound entry
    rw [← hentry]
    exact (Function.update_self id' found g.sessions).symm
  · apply h id' entry
    rw [← hentry]
    exact (Function.update_of_ne hid found g.sessions).symm

theorem DirectSessionRegistry.HoldsPrimary.run (hstore : ∀ id, (store id).id = id)
    (h : w.reg.HoldsPrimary) (l : RegistryLabel) (hfresh : l.Fresh w) (hkeeps : l.KeepsPrimary w) :
    (attend C M spelt store w l).reg.HoldsPrimary := by
  rw [attend_reg]
  obtain ⟨id, d, call⟩ := l
  cases call with
  | unlock pin =>
    simp only [RegistryCall.run, Prod.map_fst, id_eq, DirectSessionRegistry.unlock]
    split
    · exact h
    split
    · exact h
    next m _ =>
      apply HoldsPrimary.setSession h
      intro entry he
      obtain rfl := Option.some.inj he
      exact List.mem_singleton_self _
  | attach pin =>
    simp only [RegistryCall.run, Prod.map_fst, id_eq, DirectSessionRegistry.attach]
    split
    · exact h
    next entry hs =>
    rw [hstore] at hs
    split
    · exact h
    apply HoldsPrimary.setSession h
    intro entry' he
    obtain rfl := Option.some.inj he
    have hold := h id entry hs
    apply List.mem_append_left
    apply List.mem_filter.mpr
    refine ⟨hold, ?_⟩
    have hne : entry.primaryToken ≠ d.token :=
      fun heq => hfresh.2 entry hs (heq ▸ List.mem_map_of_mem hold)
    simpa using hne
  | detach token =>
    simp only [RegistryCall.run, Prod.map_fst, id_eq, DirectSessionRegistry.detach]
    split
    · exact h
    next entry hs =>
    rw [hstore] at hs
    split
    · exact h
    next m hm =>
    split
    · apply HoldsPrimary.setSession h
      intro entry' he
      cases he
    next hleft =>
      apply HoldsPrimary.setSession h
      intro entry' he
      obtain rfl := Option.some.inj he
      have hold := h id entry hs
      -- the first client is the one that leaves only where no other is left
      have hne : token ≠ entry.primaryToken := by
        intro heq
        obtain ⟨p, hp⟩ := List.length_eq_one_iff.mp (hkeeps entry hs heq)
        apply hleft
        have hsame : (token, m) = p := List.mem_singleton.mp (hp ▸ clientMount_mem hm)
        simp [hp, ← hsame]
      exact List.mem_filter.mpr ⟨hold, by simpa using Ne.symm hne⟩
  | lock =>
    simp only [RegistryCall.run, Prod.map_fst, id_eq, DirectSessionRegistry.lock]
    split
    · exact h
    apply HoldsPrimary.setSession h
    intro entry' he
    cases he
  | session token => exact h

/-- A registry over files the engine has written, with nothing unlocked. -/
def Attended.Fresh (C : Crypto) (M : Msgpack) (w : Attended) : Prop :=
  (∀ path, Reaches C M (fun _ _ => True) (w.reg.files path)) ∧ (∀ id, w.reg.sessions id = none) ∧
    (∀ id, w.attached id = []) ∧ ∀ id, w.left id = []

theorem Attended.Fresh.kept (hauth : C.Authentic) (h : w.Fresh C M) : Upheld C spelt store w := by
  obtain ⟨hfiles, hsessions, hattached, hleft⟩ := h
  refine ⟨fun path => (hfiles path).sound, fun path => (hfiles path).keyed hauth, ?_, fun id _ =>
    hattached id, ?_, ?_⟩
  · intro id entry he
    rw [hsessions] at he
    cases he
  · intro id id' e e' he
    rw [hsessions] at he
    cases he
  · intro id m hm
    rw [hleft] at hm
    cases hm

/-- While no first client leaves before the others, an unlocked volume serves every
client. -/
theorem registry_usable (hauth : C.Authentic) (hstore : ∀ id, (store id).id = id) {w₀ : Attended}
    (hw₀ : w₀.Fresh C M)
    (hrun : GuardedRuns.Run (attend C M spelt store)
      (fun w l => l.Fresh w ∧ l.KeepsPrimary w) w₀ w) :
    ∀ id entry, w.reg.sessions id = some entry → Usable C spelt store w id entry := by
  have hkept : Upheld C spelt store w ∧ w.reg.HoldsPrimary := by
    refine GuardedRuns.Run.invariant (P := fun w => Upheld C spelt store w ∧
      w.reg.HoldsPrimary) ?_ hrun
      ⟨hw₀.kept hauth, ?_⟩
    · intro w l hg h
      exact ⟨h.1.attend hauth hstore l hg.1, h.2.run hstore l hg.1 hg.2⟩
    · intro id entry hopen
      rw [hw₀.2.1] at hopen
      cases hopen
  intro id entry hopen
  exact hkept.1.usable hkept.2 hopen

/-! ### Two clients on one volume -/

/-- The call of a client with a token. -/
def callBy (n : ℕ) (token : UInt8) (call : RegistryCall) : RegistryLabel :=
  ⟨"v", ⟨.counting n, .counting (n + 4), .counting (n + 8), [token]⟩, call⟩

def emptyRegistry : Attended := { reg := { files := fun _ => {} } }

def oneVolume (id : String) : VolumeRecord := ⟨id, "vol", "vol.db"⟩

/-- The second client comes and leaves. -/
def secondLeaves : List RegistryLabel :=
  [callBy 0 1 (.unlock none), callBy 20 2 (.attach none), callBy 40 0 (.detach [2])]

/-- The second client comes and the first one leaves. -/
def firstLeaves : List RegistryLabel :=
  [callBy 0 1 (.unlock none), callBy 20 2 (.attach none), callBy 40 3 (.detach [1])]

theorem emptyRegistry_fresh : emptyRegistry.Fresh Crypto.xorStream Msgpack.refusing :=
  ⟨fun _ => GuardedRuns.Run.refl _, fun _ => rfl, fun _ => rfl, fun _ => rfl⟩

theorem registry_usable_secondLeaves :
    let w := secondLeaves.foldl (attend Crypto.xorStream Msgpack.refusing (fun _ => none) oneVolume)
      emptyRegistry
    ∃ entry, w.reg.sessions "v" = some entry ∧
      Usable Crypto.xorStream (fun _ => none) oneVolume w "v" entry := by
  intro w
  have hguards : GuardedRuns.Guards
      (attend Crypto.xorStream Msgpack.refusing (fun _ => none) oneVolume)
      (fun w l => l.Fresh w ∧ l.KeepsPrimary w) emptyRegistry secondLeaves := by
    decide +kernel
  have hopen : (w.reg.sessions "v").isSome := by decide +kernel
  obtain ⟨entry, hentry⟩ := Option.isSome_iff_exists.mp hopen
  refine ⟨entry, hentry, ?_⟩
  exact registry_usable xorStream_authentic (fun _ => rfl) emptyRegistry_fresh
    (GuardedRuns.Run.foldl hguards) "v" entry hentry

/-- The first client leaves, and `session` without a token hands out its mount. -/
theorem registry_primary_unmounted :
    let w := firstLeaves.foldl (attend Crypto.xorStream Msgpack.refusing (fun _ => none) oneVolume)
      emptyRegistry
    GuardedRuns.Run (attend Crypto.xorStream Msgpack.refusing (fun _ => none) oneVolume)
      (fun w l => l.Fresh w) emptyRegistry w ∧
      (w.reg.sessions "v").isSome ∧ w.attached "v" = [([2], 24)] ∧ w.left "v" = [4] ∧
        w.reg.session "v" none = .ok 4 ∧ ((w.reg.files "vol.db").db.validMount? 0 4).isNone := by
  intro w
  have hguards : GuardedRuns.Guards
      (attend Crypto.xorStream Msgpack.refusing (fun _ => none) oneVolume)
      (fun w l => l.Fresh w) emptyRegistry firstLeaves := by
    decide +kernel
  refine ⟨GuardedRuns.Run.foldl hguards, ?_, ?_, ?_, ?_, ?_⟩
  · decide +kernel
  · decide +kernel
  · decide +kernel
  · decide +kernel
  · decide +kernel

end Aloelite
