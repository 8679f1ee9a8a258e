import Aloelite.DavPaths
import Aloelite.Library.Dicts
import Aloelite.Library.GuardedRuns

/-! WebDAV locks, `davlock.py`: the registry keeps the locks of a volume off each other, and
tells for every path which one governs it. -/
namespace Aloelite

open KeyedRows Dicts

inductive LockDepth where
  | zero
  | infinity
  deriving DecidableEq, Repr

/-- `DavLock`; times are readings of `time.monotonic`. -/
structure DavLock where
  token : String
  volume : String
  path : DavPath
  depth : LockDepth
  ownerXml : String
  timeout : Int
  expiresAt : ℚ
  engineLock : Option LockId := none
  deriving DecidableEq, Repr

/-- `DEFAULT_TIMEOUT` -/
def DEFAULT_TIMEOUT : Int := 600

/-- `MAX_TIMEOUT` -/
def MAX_TIMEOUT : Int := 3600

namespace DavLock

variable (now : ℚ) (lk : DavLock)

def Expired : Prop := lk.expiresAt ≤ now

instance : Decidable (lk.Expired now) := inferInstanceAs (Decidable (_ ≤ _))

def refresh (timeout : Option Int) : DavLock :=
  { lk with timeout := timeout.getD lk.timeout, expiresAt := now + (timeout.getD lk.timeout : ℤ) }

/-- `covers` -/
def Covers (path : DavPath) : Prop :=
  lk.path.text = path.text ∨ lk.depth = .infinity ∧ slashed lk.path.text <+: path.text

instance (path : DavPath) : Decidable (lk.Covers path) := inferInstanceAs (Decidable (_ ∨ _))

end DavLock

/-- `_is_descendant` -/
def IsDescendant (candidate ancestor : DavPath) : Prop :=
  candidate.text ≠ ancestor.text ∧ slashed ancestor.text <+: candidate.text

instance (candidate ancestor : DavPath) : Decidable (IsDescendant candidate ancestor) :=
  inferInstanceAs (Decidable (_ ∧ _))

/-- `LockRegistry`: the locks by their tokens, and the lock objects it has let go, which a
request may still hold. -/
structure LockRegistry where
  byToken : List DavLock := []
  dropped : List DavLock := []
  deriving DecidableEq, Repr

/-- `LockConflict` -/
structure LockConflict where
  holderPath : DavPath
  deriving DecidableEq, Repr

namespace LockRegistry

variable (now : ℚ) (r : LockRegistry)

/-- `_reap` -/
def reap : LockRegistry where
  byToken := r.byToken.filter (fun lk => ¬ lk.Expired now)
  dropped := r.dropped ++ r.byToken.filter (fun lk => lk.Expired now)

/-- `_live` -/
def live (volume : String) : List DavLock := r.byToken.filter (fun lk => lk.volume = volume)

def find (volume : String) (path : DavPath) : LockRegistry × Option DavLock :=
  let r := r.reap now
  (r, (r.live volume).find? (fun lk => lk.Covers path))

/-- `covered_by_subtree` -/
def coveredBySubtree (volume : String) (path : DavPath) : LockRegistry × List DavLock :=
  let r := r.reap now
  (r, (r.live volume).filter (fun lk => lk.path.text = path.text ∨ IsDescendant lk.path path))

def get (token : String) : LockRegistry × Option DavLock :=
  let r := r.reap now
  (r, lookup DavLock.token r.byToken token)

/-- What `acquire` refuses a new lock for. -/
def Conflicts (path : DavPath) (depth : LockDepth) (lk : DavLock) : Prop :=
  lk.Covers path ∨ depth = .infinity ∧ IsDescendant lk.path path

instance (path : DavPath) (depth : LockDepth) (lk : DavLock) :
    Decidable (Conflicts path depth lk) :=
  inferInstanceAs (Decidable (_ ∨ _))

/-- The lock `acquire` makes. -/
def granting (token volume : String) (path : DavPath) (depth : LockDepth) (ownerXml : String)
    (timeout : Option Int) :
    DavLock :=
  let seconds := match timeout with
    | none => DEFAULT_TIMEOUT
    | some t => max 1 (min t MAX_TIMEOUT)
  { token := token, volume := volume, path := path, depth := depth, ownerXml := ownerXml,
    timeout := seconds,
    expiresAt := now + (seconds : ℤ) }

def acquire (token volume : String) (path : DavPath) (depth : LockDepth) (ownerXml : String)
    (timeout : Option Int) :
    LockRegistry × Except LockConflict DavLock :=
  let r := r.reap now
  match (r.live volume).find? (Conflicts path depth) with
  | some lk => (r, .error ⟨lk.path⟩)
  | none =>
    let lock := granting now token volume path depth ownerXml timeout
    ({ r with byToken := assign DavLock.token r.byToken lock }, .ok lock)

def release (token : String) : LockRegistry × Option DavLock :=
  let r := r.reap now
  ({ byToken := discard DavLock.token r.byToken token, dropped := r.dropped ++
     (lookup DavLock.token r.byToken token).toList },
    lookup DavLock.token r.byToken token)

/-- `release_volume` -/
def releaseVolume (volume : String) : LockRegistry × List DavLock :=
  ({ byToken := r.byToken.filter (fun lk => lk.volume ≠ volume),
     dropped := r.dropped ++ r.live volume }, r.live volume)

/-- `refresh` of a lock object, wherever it is. -/
def refresh (token : String) (timeout : Option Int) : LockRegistry where
  byToken := amend DavLock.token r.byToken token (DavLock.refresh now · timeout)
  dropped := amend DavLock.token r.dropped token (DavLock.refresh now · timeout)

end LockRegistry

/-- The calls on the registry and its locks. -/
inductive LockCall where
  | acquire (token volume : String) (path : DavPath) (depth : LockDepth) (ownerXml : String)
    (timeout : Option Int)
  | refresh (token : String) (timeout : Option Int)
  | release (token : String)
  | releaseVolume (volume : String)
  | find (volume : String) (path : DavPath)
  | coveredBySubtree (volume : String) (path : DavPath)
  | get (token : String)

structure LockEvent where
  now : ℚ
  call : LockCall

/-- The registry, and the last reading of the clock. -/
structure LockWorld where
  reg : LockRegistry := {}
  clock : ℚ

/-- The registry after a call. -/
def LockCall.run (now : ℚ) (r : LockRegistry) : LockCall → LockRegistry
  | .acquire token volume path depth ownerXml timeout =>
    (r.acquire now token volume path depth ownerXml timeout).1
  | .refresh token timeout => r.refresh now token timeout
  | .release token => (r.release now token).1
  | .releaseVolume volume => (r.releaseVolume volume).1
  | .find volume path => (r.find now volume path).1
  | .coveredBySubtree volume path => (r.coveredBySubtree now volume path).1
  | .get token => (r.get now token).1

def LockWorld.step (w : LockWorld) (e : LockEvent) : LockWorld where
  reg := e.call.run e.now w.reg
  clock := e.now

/-- The clock does not go back, and a new token is one never given out. -/
def LockWorld.Allows (w : LockWorld) (e : LockEvent) : Prop :=
  w.clock ≤ e.now ∧ match e.call with
    | .acquire token .. => ∀ lk ∈ w.reg.byToken ++ w.reg.dropped, lk.token ≠ token
    | _ => True

/-- A state of the registry after some calls. -/
def LockWorld.Reached (w : LockWorld) : Prop :=
  ∃ start, GuardedRuns.Run LockWorld.step LockWorld.Allows { clock := start } w

/-! ### What a lock governs -/

/-- A lock of a depth on a path governs another path. -/
def Governs (depth : LockDepth) (path q : DavPath) : Prop :=
  path = q ∨ depth = .infinity ∧ path.segs <+: q.segs

/-- Some path is governed by both. -/
def Overlap (depth : LockDepth) (path : DavPath) (lk : DavLock) : Prop :=
  ∃ q, Governs depth path q ∧ Governs lk.depth lk.path q

variable {w w' : LockWorld} {e : LockEvent} {r : LockRegistry} {lk lk' : DavLock} {now : ℚ}
  {path q : DavPath} {depth : LockDepth} {volume token ownerXml : String} {timeout : Option Int}

theorem text_eq_iff {p q : DavPath} : p.text = q.text ↔ p = q := DavPath.text_injective.eq_iff

theorem covers_iff : lk.Covers q ↔ Governs lk.depth lk.path q := by
  rw [DavLock.Covers, Governs, text_eq_iff]
  by_cases h : lk.path = q
  · simp only [h, true_or]
  · rw [DavPath.slashed_prefix_iff h]

theorem isDescendant_iff {p q : DavPath} : IsDescendant p q ↔ p ≠ q ∧ q.segs <+: p.segs := by
  rw [IsDescendant, ne_eq, text_eq_iff]
  constructor
  · intro h
    exact ⟨h.1, (DavPath.slashed_prefix_iff (Ne.symm h.1)).mp h.2⟩
  · intro h
    exact ⟨h.1, (DavPath.slashed_prefix_iff (Ne.symm h.1)).mpr h.2⟩

/-- The conflicts upward and downward are all the common paths there are. -/
theorem conflicts_iff : LockRegistry.Conflicts path depth lk ↔ Overlap depth path lk := by
  rw [LockRegistry.Conflicts, covers_iff, isDescendant_iff]
  constructor
  · rintro (h | ⟨hdepth, -, hbelow⟩)
    · exact ⟨path, Or.inl rfl, h⟩
    · exact ⟨lk.path, Or.inr ⟨hdepth, hbelow⟩, Or.inl rfl⟩
  · intro h
    obtain ⟨q, hpath, hlk⟩ := h
    by_cases hsame : lk.path = path
    · exact Or.inl (Or.inl hsame)
    rcases hpath with rfl | ⟨hdepth, hpath⟩
    · exact Or.inl hlk
    · rcases hlk with rfl | ⟨hinf, hlk⟩
      · exact Or.inr ⟨hdepth, hsame, hpath⟩
      -- two paths above a third lie on one line
      · rcases List.prefix_or_prefix_of_prefix hpath hlk with habove | hbelow
        · exact Or.inr ⟨hdepth, hsame, habove⟩
        · exact Or.inl (Or.inr ⟨hinf, hbelow⟩)

theorem Overlap.symm {a b : DavLock} (h : Overlap a.depth a.path b) : Overlap b.depth b.path a := by
  obtain ⟨q, ha, hb⟩ := h
  exact ⟨q, hb, ha⟩

/-! ### The locks of a registry -/

/-- Two locks are of different volumes or have no path in common. -/
def KeepOff (a b : DavLock) : Prop := a.volume = b.volume → ¬ Overlap a.depth a.path b

theorem KeepOff.symm {a b : DavLock} (h : KeepOff a b) : KeepOff b a :=
  fun hv ho => h hv.symm ho.symm

/-- No token stands twice, and the locks of the registry keep off each other, expired ones
included. -/
structure LockRegistry.Exclusive (r : LockRegistry) : Prop where
  tokens : KeyedRows.Keyed DavLock.token (r.byToken ++ r.dropped)
  apart : r.byToken.Pairwise KeepOff

/-- A registry that has let go of some locks, and kept the objects. -/
structure LockRegistry.LetsGo (r r' : LockRegistry) : Prop where
  kept : r'.byToken.Sublist r.byToken
  dropped : r.dropped.Sublist r'.dropped
  all : (r'.byToken ++ r'.dropped).Perm (r.byToken ++ r.dropped)

namespace LockRegistry

variable {r' r'' : LockRegistry}

theorem LetsGo.trans (h : r.LetsGo r') (h' : r'.LetsGo r'') : r.LetsGo r'' :=
  ⟨h'.kept.trans h.kept, h.dropped.trans h'.dropped, h'.all.trans h.all⟩

theorem LetsGo.exclusive (h : r.LetsGo r') (hr : r.Exclusive) : r'.Exclusive :=
  ⟨(h.all.map DavLock.token).nodup_iff.mpr hr.tokens, hr.apart.sublist h.kept⟩

/-- What a filter lets go is put behind what was let go before. -/
theorem letsGo_filter (p : DavLock → Bool) :
    r.LetsGo { byToken := r.byToken.filter p, dropped := r.dropped ++
               r.byToken.filter (fun lk => !p lk) } where
  kept := List.filter_sublist
  dropped := List.sublist_append_left _ _
  all := by
    have hperm := List.filter_append_perm p r.byToken
    calc r.byToken.filter p ++ (r.dropped ++ r.byToken.filter (fun lk => !p lk))
        = r.byToken.filter p ++ r.dropped ++ r.byToken.filter (fun lk => !p lk) :=
          (List.append_assoc _ _ _).symm
      _ |>.Perm (r.byToken.filter p ++ (r.byToken.filter (fun lk => !p lk) ++ r.dropped)) := by
        rw [List.append_assoc]
        exact List.perm_append_comm.append_left _
      _ |>.Perm (r.byToken ++ r.dropped) := by
        rw [← List.append_assoc]
        exact hperm.append_right _

theorem letsGo_reap : r.LetsGo (r.reap now) := by
  have h := letsGo_filter (r := r) (fun lk => ¬ lk.Expired now)
  have hsame : (fun lk : DavLock => !decide (¬ lk.Expired now)) =
      fun lk => decide (lk.Expired now) := by
    funext lk
    by_cases hlk : lk.Expired now
    · simp [hlk]
    · simp [hlk]
  rw [hsame] at h
  exact h

theorem letsGo_releaseVolume : r.LetsGo (r.releaseVolume volume).1 := by
  have h := letsGo_filter (r := r) (fun lk => lk.volume ≠ volume)
  have hsame : (fun lk : DavLock => !decide (lk.volume ≠ volume)) =
      fun lk => decide (lk.volume = volume) := by
    funext lk
    by_cases hlk : lk.volume = volume
    · simp [hlk]
    · simp [hlk]
  rw [hsame] at h
  exact h

theorem letsGo_release (hr : r.Exclusive) : r.LetsGo (r.release now token).1 := by
  have hreap : r.LetsGo (r.reap now) := letsGo_reap
  refine hreap.trans ?_
  have hkeyed : KeyedRows.Keyed DavLock.token (r.reap now).byToken :=
    List.Nodup.sublist ((List.sublist_append_left _ _).map _) (hreap.exclusive hr).tokens
  refine ⟨List.filter_sublist, List.sublist_append_left _ _, ?_⟩
  cases hlookup : lookup DavLock.token (r.reap now).byToken token with
  | none =>
    have hall : discard DavLock.token (r.reap now).byToken token = (r.reap now).byToken := by
      apply List.filter_eq_self.mpr
      intro lk hlk
      exact decide_eq_true (lookup_eq_none.mp hlookup lk hlk)
    simp only [release, hlookup, hall, Option.toList_none, List.append_nil]
    exact List.Perm.refl _
  | some lk =>
    have hperm := perm_cons_discard hkeyed hlookup
    simp only [release, hlookup, Option.toList_some]
    rw [← List.append_assoc]
    exact (List.perm_append_singleton _ _).trans (hperm.symm.append_right _)

theorem mem_reap : lk ∈ (r.reap now).byToken ↔ lk ∈ r.byToken ∧ ¬ lk.Expired now := by
  rw [reap, List.mem_filter, decide_eq_true_iff]

theorem mem_live : lk ∈ r.live volume ↔ lk ∈ r.byToken ∧ lk.volume = volume := by
  rw [live, List.mem_filter, decide_eq_true_iff]

theorem acquire_of_some {held : DavLock}
    (h : ((r.reap now).live volume).find? (Conflicts path depth) = some held) :
    r.acquire now token volume path depth ownerXml timeout = (r.reap now, .error ⟨held.path⟩) := by
  simp only [acquire, h]

theorem acquire_of_none (h : ((r.reap now).live volume).find? (Conflicts path depth) = none) :
    r.acquire now token volume path depth ownerXml timeout =
      ({ r.reap now with
          byToken := assign DavLock.token (r.reap now).byToken
            (granting now token volume path depth ownerXml timeout) },
        .ok (granting now token volume path depth ownerXml timeout)) := by
  simp only [acquire, h]

/-- A grant comes behind the locks that are left, and keeps off each of them. -/
theorem acquire_ok (h : (r.acquire now token volume path depth ownerXml timeout).2 = .ok lk)
    (hfresh : ∀ lk ∈ r.byToken, lk.token ≠ token) :
    lk = granting now token volume path depth ownerXml timeout ∧
      (r.acquire now token volume path depth ownerXml timeout).1 =
        { r.reap now with byToken := (r.reap now).byToken ++ [lk] } ∧
      ∀ lk' ∈ (r.reap now).byToken, KeepOff lk lk' := by
  cases hfind : ((r.reap now).live volume).find? (Conflicts path depth) with
  | some held =>
    rw [acquire_of_some hfind] at h
    cases h
  | none =>
    rw [acquire_of_none hfind] at h ⊢
    cases h
    have hnone : lookup DavLock.token (r.reap now).byToken token = none :=
      lookup_eq_none.mpr (fun lk hlk => hfresh lk (mem_reap.mp hlk).1)
    refine ⟨rfl, ?_, ?_⟩
    · rw [assign_append (r := granting now token volume path depth ownerXml timeout) hnone]
    · intro lk' hlk' hvolume hoverlap
      have hno := List.find?_eq_none.mp hfind lk' (mem_live.mpr ⟨hlk', hvolume.symm⟩)
      exact hno (decide_eq_true (conflicts_iff.mpr hoverlap))

theorem acquire_error {c : LockConflict}
    (h : (r.acquire now token volume path depth ownerXml timeout).2 = .error c) :
    (r.acquire now token volume path depth ownerXml timeout).1 = r.reap now := by
  cases hfind : ((r.reap now).live volume).find? (Conflicts path depth) with
  | some held => rw [acquire_of_some hfind]
  | none =>
    rw [acquire_of_none hfind] at h
    cases h

/-- A lock is granted just where no live lock of the volume governs a path it would. -/
theorem acquire_isOk_iff : (r.acquire now token volume path depth ownerXml timeout).2.isOk ↔
    ∀ lk ∈ r.byToken, ¬ lk.Expired now → lk.volume = volume → ¬ Overlap depth path lk := by
  have hnone : ((r.reap now).live volume).find? (Conflicts path depth) = none ↔
      ∀ lk ∈ r.byToken, ¬ lk.Expired now → lk.volume = volume → ¬ Overlap depth path lk := by
    simp only [List.find?_eq_none, mem_live, mem_reap, decide_eq_true_iff, conflicts_iff]
    constructor
    · exact fun h lk hlk hlive hvolume => h lk ⟨⟨hlk, hlive⟩, hvolume⟩
    · exact fun h lk hlk => h lk hlk.1.1 hlk.1.2 hlk.2
  rw [← hnone]
  cases hfind : ((r.reap now).live volume).find? (Conflicts path depth) with
  | some held =>
    rw [acquire_of_some hfind]
    simp [Except.isOk, Except.toBool]
  | none =>
    rw [acquire_of_none hfind]
    simp [Except.isOk, Except.toBool]

theorem find_some (h : (r.find now volume path).2 = some lk) :
    lk ∈ r.byToken ∧ ¬ lk.Expired now ∧ lk.volume = volume ∧ Governs lk.depth lk.path path := by
  obtain ⟨hmem, hvolume⟩ := mem_live.mp (List.mem_of_find?_eq_some h)
  have hcovers : lk.Covers path := by simpa using List.find?_some h
  exact ⟨(mem_reap.mp hmem).1, (mem_reap.mp hmem).2, hvolume, covers_iff.mp hcovers⟩

theorem find_isSome_iff : (r.find now volume path).2.isSome ↔
    ∃ lk ∈ r.byToken, ¬ lk.Expired now ∧ lk.volume = volume ∧ Governs lk.depth lk.path path := by
  rw [find, List.find?_isSome]
  simp only [mem_live, mem_reap, decide_eq_true_iff, covers_iff]
  constructor
  · rintro ⟨lk, ⟨⟨hlk, hlive⟩, hvolume⟩, hgoverns⟩
    exact ⟨lk, hlk, hlive, hvolume, hgoverns⟩
  · rintro ⟨lk, hlk, hlive, hvolume, hgoverns⟩
    exact ⟨lk, ⟨⟨hlk, hlive⟩, hvolume⟩, hgoverns⟩

/-- A refresh changes nothing that exclusion looks at. -/
theorem refresh_exclusive (hr : r.Exclusive) : (r.refresh now token timeout).Exclusive := by
  have hmap : ∀ rows : List DavLock,
      (amend DavLock.token rows token (DavLock.refresh now · timeout)).map DavLock.token =
      rows.map DavLock.token := by
    intro rows
    exact map_key_amend (fun lk => rfl)
  constructor
  · have htokens := hr.tokens
    unfold KeyedRows.Keyed at htokens ⊢
    rw [List.map_append] at htokens ⊢
    simp only [refresh, hmap]
    exact htokens
  · rw [refresh, amend, List.pairwise_map]
    refine hr.apart.imp ?_
    intro a b h
    have hsame : ∀ a : DavLock,
        (if a.token = token then a.refresh now timeout else a).volume = a.volume ∧
        (if a.token = token then a.refresh now timeout else a).depth = a.depth ∧
        (if a.token = token then a.refresh now timeout else a).path = a.path := by
      intro a
      split
      · exact ⟨rfl, rfl, rfl⟩
      · exact ⟨rfl, rfl, rfl⟩
    obtain ⟨hva, hda, hpa⟩ := hsame a
    obtain ⟨hvb, hdb, hpb⟩ := hsame b
    unfold KeepOff Overlap at h ⊢
    rw [hva, hda, hpa, hvb, hdb, hpb]
    exact h

end LockRegistry

/-! ### Runs -/

theorem LockWorld.step_exclusive (hallow : w.Allows e) (hr : w.reg.Exclusive) :
    (w.step e).reg.Exclusive := by
  obtain ⟨now, call⟩ := e
  cases call with
  | acquire token volume path depth ownerXml timeout =>
    have hfresh := hallow.2
    have hreap : (w.reg.reap now).Exclusive := LockRegistry.letsGo_reap.exclusive hr
    change (w.reg.acquire now token volume path depth ownerXml timeout).1.Exclusive
    cases hgrant : (w.reg.acquire now token volume path depth ownerXml timeout).2 with
    | error c =>
      rw [LockRegistry.acquire_error hgrant]
      exact hreap
    | ok lk =>
      obtain ⟨hlk, hreg, hoff⟩ :=
        LockRegistry.acquire_ok hgrant (fun lk h => hfresh lk (List.mem_append_left _ h))
      rw [hreg]
      constructor
      · have hperm : ((w.reg.reap now).byToken ++ [lk] ++ (w.reg.reap now).dropped).Perm
            (lk :: (w.reg.byToken ++ w.reg.dropped)) := by
          rw [List.append_assoc]
          exact List.perm_middle.trans (LockRegistry.letsGo_reap.all.cons lk)
        refine (hperm.map DavLock.token).nodup_iff.mpr ?_
        rw [List.map_cons, List.nodup_cons]
        refine ⟨fun hmem => ?_, hr.tokens⟩
        obtain ⟨old, hold, htoken⟩ := List.mem_map.mp hmem
        subst hlk
        exact hfresh old hold htoken
      · refine List.pairwise_append.mpr ⟨hreap.apart, List.pairwise_singleton _ _, ?_⟩
        intro old hold new hnew
        rw [List.mem_singleton.mp hnew]
        exact (hoff old hold).symm
  | refresh token timeout => exact LockRegistry.refresh_exclusive hr
  | release token => exact (LockRegistry.letsGo_release hr).exclusive hr
  | releaseVolume volume => exact LockRegistry.letsGo_releaseVolume.exclusive hr
  | find volume path => exact LockRegistry.letsGo_reap.exclusive hr
  | coveredBySubtree volume path => exact LockRegistry.letsGo_reap.exclusive hr
  | get token => exact LockRegistry.letsGo_reap.exclusive hr

theorem LockWorld.Reached.exclusive (h : w.Reached) : w.reg.Exclusive := by
  obtain ⟨start, hrun⟩ := h
  refine hrun.invariant (P := fun w => w.reg.Exclusive) (fun _ _ => step_exclusive) ?_
  exact ⟨List.nodup_nil, List.Pairwise.nil⟩

/-- The tokens of the locks the registry has let go. -/
def LockRegistry.Gone (r : LockRegistry) (token : String) : Prop :=
  token ∈ r.dropped.map DavLock.token

theorem LockRegistry.Gone.letsGo {r r' : LockRegistry} (h : r.Gone token) (hgo : r.LetsGo r') :
    r'.Gone token :=
  (hgo.dropped.map DavLock.token).subset h

/-- A lock that is let go stays so, whatever becomes of its object. -/
theorem LockWorld.step_gone (hr : w.reg.Exclusive) (h : w.reg.Gone token) :
    (w.step e).reg.Gone token := by
  obtain ⟨now, call⟩ := e
  cases call with
  | acquire token' volume path depth ownerXml timeout =>
    have hreap : (w.reg.reap now).Gone token := h.letsGo LockRegistry.letsGo_reap
    change (w.reg.acquire now token' volume path depth ownerXml timeout).1.Gone token
    cases hfind : ((w.reg.reap now).live volume).find? (LockRegistry.Conflicts path depth) with
    | some held =>
      rw [LockRegistry.acquire_of_some hfind]
      exact hreap
    | none =>
      rw [LockRegistry.acquire_of_none hfind]
      exact hreap
  | refresh token' timeout =>
    have hmap : (amend DavLock.token w.reg.dropped token' (DavLock.refresh now · timeout)).map
        DavLock.token =
        w.reg.dropped.map DavLock.token := map_key_amend (fun lk => rfl)
    change token ∈ (amend DavLock.token w.reg.dropped token' (DavLock.refresh now · timeout)).map
        DavLock.token
    rw [hmap]
    exact h
  | release token' => exact h.letsGo (LockRegistry.letsGo_release hr)
  | releaseVolume volume => exact h.letsGo LockRegistry.letsGo_releaseVolume
  | find volume path => exact h.letsGo LockRegistry.letsGo_reap
  | coveredBySubtree volume path => exact h.letsGo LockRegistry.letsGo_reap
  | get token' => exact h.letsGo LockRegistry.letsGo_reap

/-- The call releases a lock, or is granted another over it when it has expired. -/
def LockWorld.Ends (w : LockWorld) (e : LockEvent) (lk : DavLock) : Prop :=
  match e.call with
  | .release token => token = lk.token
  | .releaseVolume volume => volume = lk.volume
  | .acquire token volume path depth ownerXml timeout =>
    (w.reg.acquire e.now token volume path depth ownerXml timeout).2.isOk ∧ lk.Expired e.now ∧
      lk.volume = volume ∧
      Overlap depth path lk
  | _ => False

theorem LockWorld.Ends.gone (hr : w.reg.Exclusive) (hlk : lk ∈ w.reg.byToken) (h : w.Ends e lk) :
    (w.step e).reg.Gone lk.token := by
  obtain ⟨now, call⟩ := e
  cases call with
  | acquire token volume path depth ownerXml timeout =>
    have hdropped : lk ∈ (w.reg.reap now).dropped :=
      List.mem_append_right _ (List.mem_filter.mpr ⟨hlk, decide_eq_true h.2.1⟩)
    change (w.reg.acquire now token volume path depth ownerXml timeout).1.Gone lk.token
    cases hfind : ((w.reg.reap now).live volume).find? (LockRegistry.Conflicts path depth) with
    | some held =>
      rw [LockRegistry.acquire_of_some hfind]
      exact List.mem_map_of_mem hdropped
    | none =>
      rw [LockRegistry.acquire_of_none hfind]
      exact List.mem_map_of_mem hdropped
  | release token =>
    obtain rfl : token = lk.token := h
    have hgo : w.reg.LetsGo (w.reg.release now lk.token).1 := LockRegistry.letsGo_release hr
    have hall : lk.token ∈ ((w.reg.release now lk.token).1.byToken ++
        (w.reg.release now lk.token).1.dropped).map DavLock.token :=
      (hgo.all.map DavLock.token).mem_iff.mpr (List.mem_map_of_mem (List.mem_append_left _ hlk))
    rw [List.map_append, List.mem_append] at hall
    refine hall.resolve_left (fun hkept => ?_)
    obtain ⟨old, hold, htoken⟩ := List.mem_map.mp hkept
    have hne : old.token ≠ lk.token := by simpa using (List.mem_filter.mp hold).2
    exact hne htoken
  | releaseVolume volume =>
    obtain rfl : volume = lk.volume := h
    exact List.mem_map_of_mem (List.mem_append_right _ (LockRegistry.mem_live.mpr ⟨hlk, rfl⟩))
  | refresh token timeout => exact absurd h id
  | find volume path => exact absurd h id
  | coveredBySubtree volume path => exact absurd h id
  | get token => exact absurd h id

theorem LockRegistry.Exclusive.eq_of_overlap (hr : r.Exclusive) {a b : DavLock}
    (ha : a ∈ r.byToken) (hb : b ∈ r.byToken) (hvolume : a.volume = b.volume)
    (h : Overlap a.depth a.path b) : a = b := by
  by_contra hne
  have hsymm : Std.Symm KeepOff := ⟨fun _ _ => KeepOff.symm⟩
  exact hr.apart.forall ha hb hne hvolume h

theorem LockRegistry.Exclusive.not_gone (hr : r.Exclusive) (hlk : lk ∈ r.byToken) :
    ¬ r.Gone lk.token := by
  intro hgone
  have htokens := hr.tokens
  unfold KeyedRows.Keyed at htokens
  rw [List.map_append, List.nodup_append] at htokens
  exact htokens.2.2 _ (List.mem_map_of_mem hlk) _ hgone rfl

/-! ### What a grant is good for -/

/-- The call takes the lock away: it releases it, or drops what has expired when the lock has. -/
def LockEvent.Frees (e : LockEvent) (lk : DavLock) : Prop :=
  match e.call with
  | .release token => token = lk.token ∨ lk.Expired e.now
  | .releaseVolume volume => volume = lk.volume
  | .refresh _ _ => False
  | _ => lk.Expired e.now

/-- What a call makes of a lock that it does not take away. -/
def LockEvent.leaves (e : LockEvent) (lk : DavLock) : DavLock :=
  match e.call with
  | .refresh token timeout => if lk.token = token then lk.refresh e.now timeout else lk
  | _ => lk

/-- Two objects of one lock, refreshed or not. -/
def DavLock.SameLock (a b : DavLock) : Prop :=
  a.token = b.token ∧ a.volume = b.volume ∧ a.path = b.path ∧ a.depth = b.depth

theorem LockEvent.leaves_same : (e.leaves lk).SameLock lk := by
  obtain ⟨now, call⟩ := e
  cases call with
  | refresh token timeout =>
    change (if lk.token = token then lk.refresh now timeout else lk).SameLock lk
    split
    · exact ⟨rfl, rfl, rfl, rfl⟩
    · exact ⟨rfl, rfl, rfl, rfl⟩
  | _ => exact ⟨rfl, rfl, rfl, rfl⟩

/-- The locks that are left stay when another is granted or refused. -/
theorem LockRegistry.acquire_keeps (hlk : lk ∈ (r.reap now).byToken)
    (hfresh : ∀ lk ∈ r.byToken, lk.token ≠ token) :
    lk ∈ (r.acquire now token volume path depth ownerXml timeout).1.byToken := by
  cases hgrant : (r.acquire now token volume path depth ownerXml timeout).2 with
  | error c =>
    rw [acquire_error hgrant]
    exact hlk
  | ok new =>
    rw [(acquire_ok hgrant hfresh).2.1]
    exact List.mem_append_left _ hlk

/-- A lock that a call does not take away stays, refreshed if that is what the call does. -/
theorem LockWorld.step_keeps (hallow : w.Allows e) (hlk : lk ∈ w.reg.byToken)
    (hkept : ¬ e.Frees lk) :
    e.leaves lk ∈ (w.step e).reg.byToken := by
  obtain ⟨now, call⟩ := e
  cases call with
  | acquire token volume path depth ownerXml timeout =>
    apply LockRegistry.acquire_keeps (LockRegistry.mem_reap.mpr ⟨hlk, hkept⟩)
    exact fun lk' hlk' => hallow.2 lk' (List.mem_append_left _ hlk')
  | refresh token timeout => exact List.mem_map_of_mem (f := fun lk : DavLock =>
      if lk.token = token then lk.refresh now timeout else lk) hlk
  | release token =>
    have hother : lk.token ≠ token := fun heq => hkept (Or.inl heq.symm)
    have hlive : lk ∈ (w.reg.reap now).byToken :=
      LockRegistry.mem_reap.mpr ⟨hlk, fun hexpired => hkept (Or.inr hexpired)⟩
    exact List.mem_filter.mpr ⟨hlive, decide_eq_true hother⟩
  | releaseVolume volume =>
    have hother : lk.volume ≠ volume := fun heq => hkept heq.symm
    exact List.mem_filter.mpr ⟨hlk, decide_eq_true hother⟩
  | find volume path => exact LockRegistry.mem_reap.mpr ⟨hlk, hkept⟩
  | coveredBySubtree volume path => exact LockRegistry.mem_reap.mpr ⟨hlk, hkept⟩
  | get token => exact LockRegistry.mem_reap.mpr ⟨hlk, hkept⟩

/-- A call that may come, and does not take the lock of this token away. -/
def LockWorld.Spares (token : String) (w : LockWorld) (e : LockEvent) : Prop :=
  w.Allows e ∧ ∀ lk ∈ w.reg.byToken, lk.token = token → ¬ e.Frees lk

/-- A lock is in the registry until a call takes it away. -/
theorem LockWorld.run_keeps (hlk : lk ∈ w.reg.byToken)
    (hrun : GuardedRuns.Run LockWorld.step (LockWorld.Spares lk.token) w w') :
    ∃ held ∈ w'.reg.byToken, held.SameLock lk := by
  refine hrun.invariant (P := fun u => ∃ held ∈ u.reg.byToken, held.SameLock lk) ?_
    ⟨lk, hlk, rfl, rfl, rfl, rfl⟩
  intro u e hspares hu
  obtain ⟨held, hheld, htoken, hvolume, hpath, hdepth⟩ := hu
  obtain ⟨htoken', hvolume', hpath', hdepth'⟩ := @LockEvent.leaves_same e held
  exact ⟨e.leaves held, LockWorld.step_keeps hspares.1 hheld (hspares.2 held hheld htoken),
    htoken'.trans htoken,
    hvolume'.trans hvolume, hpath'.trans hpath, hdepth'.trans hdepth⟩

/-- In every run the locks of a volume have no path in common, a lock is granted and a path
is found locked just where live locks say so, a granted lock is in the registry with its time
to live and stays until a call takes it away, a refresh sets that time anew, and what has ended
never comes back. -/
theorem dav_locks_exclusive_and_complete (h : w.Reached) :
    (∀ a ∈ w.reg.byToken, ∀ b ∈ w.reg.byToken, a.volume = b.volume →
      Overlap a.depth a.path b → a = b) ∧
      (∀ now token volume path depth ownerXml timeout,
        (w.reg.acquire now token volume path depth ownerXml timeout).2.isOk ↔
          ∀ lk ∈ w.reg.byToken, ¬ lk.Expired now → lk.volume = volume → ¬ Overlap depth path lk) ∧
      (∀ now volume path, ((w.reg.find now volume path).2.isSome ↔
          ∃ lk ∈ w.reg.byToken, ¬ lk.Expired now ∧ lk.volume = volume ∧
            Governs lk.depth lk.path path) ∧
        ∀ lk, (w.reg.find now volume path).2 = some lk →
          lk ∈ w.reg.byToken ∧ ¬ lk.Expired now ∧ lk.volume = volume ∧
            Governs lk.depth lk.path path) ∧
      (∀ e lk, w.Allows e → lk ∈ w.reg.byToken → w.Ends e lk →
        ∀ w', GuardedRuns.Run LockWorld.step LockWorld.Allows (w.step e) w' →
          ∀ lk' ∈ w'.reg.byToken, lk'.token ≠ lk.token) ∧
      (∀ now token volume path depth ownerXml timeout lk,
        w.Allows ⟨now, .acquire token volume path depth ownerXml timeout⟩ →
        (w.reg.acquire now token volume path depth ownerXml timeout).2 = .ok lk →
          lk ∈ (w.step ⟨now, .acquire token volume path depth ownerXml timeout⟩).reg.byToken ∧
            lk.token = token ∧
            lk.volume = volume ∧ lk.path = path ∧ lk.depth = depth ∧ lk.expiresAt =
              now + lk.timeout) ∧
      (∀ lk ∈ w.reg.byToken, ∀ now timeout,
        ∃ held ∈ (w.step ⟨now, .refresh lk.token timeout⟩).reg.byToken,
        held.SameLock lk ∧ held.expiresAt = now + (timeout.getD lk.timeout : ℤ)) ∧
      (∀ lk ∈ w.reg.byToken, ∀ e, w.Allows e → ¬ e.Frees lk →
        e.leaves lk ∈ (w.step e).reg.byToken) ∧
      ∀ lk ∈ w.reg.byToken, ∀ w', GuardedRuns.Run LockWorld.step (LockWorld.Spares lk.token) w w' →
        ∃ held ∈ w'.reg.byToken, held.SameLock lk := by
  -- exclusion is an invariant; what `acquire` and `find` answer is read off one registry
  have hr := h.exclusive
  refine ⟨?_, ?_, ?_, ?_, ?_, ?_, ?_, ?_⟩
  · intro a ha b hb hvolume hoverlap
    exact hr.eq_of_overlap ha hb hvolume hoverlap
  · intro now token volume path depth ownerXml timeout
    exact LockRegistry.acquire_isOk_iff
  · intro now volume path
    exact ⟨LockRegistry.find_isSome_iff, fun lk => LockRegistry.find_some⟩
  -- a token is minted once, so a lock that has ended cannot come back under it
  · intro e lk hallow hlk hends w' hrun lk' hlk' htoken
    have hafter : w'.reg.Exclusive ∧ w'.reg.Gone lk.token := by
      refine hrun.invariant (P := fun w => w.reg.Exclusive ∧ w.reg.Gone lk.token) ?_ ?_
      · intro w e hallow hw
        exact ⟨LockWorld.step_exclusive hallow hw.1, LockWorld.step_gone hw.1 hw.2⟩
      · exact ⟨LockWorld.step_exclusive hallow hr, hends.gone hr hlk⟩
    apply hafter.1.not_gone hlk'
    rw [htoken]
    exact hafter.2
  · intro now token volume path depth ownerXml timeout lk hallow hgrant
    have hfresh : ∀ lk ∈ w.reg.byToken, lk.token ≠ token :=
      fun lk hlk => hallow.2 lk (List.mem_append_left _ hlk)
    obtain ⟨hlk, hreg, -⟩ := LockRegistry.acquire_ok hgrant hfresh
    have hin : lk ∈ (w.reg.acquire now token volume path depth ownerXml timeout).1.byToken := by
      rw [hreg]
      exact List.mem_append_right _ (List.mem_singleton_self lk)
    refine ⟨hin, ?_⟩
    rw [hlk]
    exact ⟨rfl, rfl, rfl, rfl, rfl⟩
  · intro lk hlk now timeout
    refine ⟨lk.refresh now timeout, ?_, ⟨rfl, rfl, rfl, rfl⟩, rfl⟩
    have hown : (if lk.token = lk.token then lk.refresh now timeout else lk) =
        lk.refresh now timeout := if_pos rfl
    rw [← hown]
    exact List.mem_map_of_mem (f := fun held : DavLock => if held.token = lk.token then
      held.refresh now timeout else held) hlk
  · intro lk hlk e hallow hkept
    exact LockWorld.step_keeps hallow hlk hkept
  · intro lk hlk w' hrun
    exact LockWorld.run_keeps hlk hrun

def pathA : DavPath := ⟨["a".toList], by decide⟩

def pathAB : DavPath := ⟨["a".toList, "b".toList], by decide⟩

/-- A collection locked for a second. -/
def lockedOnce : LockWorld :=
  LockWorld.step { clock := 0 } ⟨0, .acquire "t" "v" pathA .infinity "" (some 1)⟩

/-- It has expired when another client locks below it; the refresh that comes then is too
late. -/
theorem dav_locks_exclusive_and_complete_late :
    ¬ ∃ lk ∈ ((lockedOnce.step ⟨2, .acquire "u" "v" pathAB .zero "" none⟩).step
        ⟨3, .refresh "t" (some 60)⟩).reg.byToken,
      lk.token = "t" := by
  have hreached : lockedOnce.Reached := by
    refine ⟨0, (GuardedRuns.Run.refl _).snoc ⟨le_rfl, ?_⟩⟩
    exact fun _ h => absurd h List.not_mem_nil
  obtain ⟨-, -, -, hnever, -⟩ := dav_locks_exclusive_and_complete hreached
  intro hback
  obtain ⟨lk, hlk, htoken⟩ := hback
  refine hnever ⟨2, .acquire "u" "v" pathAB .zero "" none⟩
    (LockRegistry.granting 0 "t" "v" pathA .infinity "" (some 1))
      ⟨by decide +kernel, by decide +kernel⟩ (by decide +kernel) ?_ _
    ((GuardedRuns.Run.refl _).snoc (i := ⟨3, .refresh "t" (some 60)⟩) ⟨by decide +kernel, trivial⟩)
      lk hlk htoken
  refine ⟨by decide +kernel, by decide +kernel, rfl, pathAB, Or.inl rfl, Or.inr ⟨rfl, ?_⟩⟩
  exact ⟨["b".toList], rfl⟩

/-! ### Locks of a request -/

namespace LockRegistry

/-- `_require_unlocked`: the fault 423 names the path of a lock whose token is missing. -/
def requireUnlocked (now : ℚ) (r : LockRegistry) (volume : String) (path : DavPath)
    (submitted : List String) (depthInfinity : Bool) : LockRegistry × Except LockConflict Unit :=
  let held := r.find now volume path
  match held.2.filter (fun lk => lk.token ∉ submitted) with
  | some lk => (held.1, .error ⟨lk.path⟩)
  | none =>
    if depthInfinity then
      let below := held.1.coveredBySubtree now volume path
      match below.2.find? (fun lk => lk.token ∉ submitted) with
      | some lk => (below.1, .error ⟨lk.path⟩)
      | none => (below.1, .ok ())
    else (held.1, .ok ())

theorem mem_coveredBySubtree : lk ∈ (r.coveredBySubtree now volume path).2 ↔
    lk ∈ r.byToken ∧ ¬ lk.Expired now ∧ lk.volume = volume ∧ path.segs <+: lk.path.segs := by
  have hat : (lk.path.text = path.text ∨ IsDescendant lk.path path) ↔
      path.segs <+: lk.path.segs := by
    rw [text_eq_iff, isDescendant_iff]
    by_cases h : lk.path = path
    · simp [h]
    · simp [h]
  rw [coveredBySubtree, List.mem_filter, mem_live, mem_reap, decide_eq_true_iff, hat]
  tauto

/-- A request goes on just where it shows the tokens of all live locks on its path, and for
a whole collection of those below. -/
theorem requireUnlocked_isOk_iff (hr : r.Exclusive) {submitted : List String} {deep : Bool} :
    (r.requireUnlocked now volume path submitted deep).2.isOk ↔
      ∀ lk ∈ r.byToken, ¬ lk.Expired now → lk.volume = volume →
        Governs lk.depth lk.path path ∨ deep = true ∧ path.segs <+: lk.path.segs →
          lk.token ∈ submitted := by
  -- the locks of a volume exclude each other, so the one `find` answers is the only one on the path
  have hheld : (r.find now volume path).2.filter (fun lk => lk.token ∉ submitted) = none ↔
      ∀ lk ∈ r.byToken, ¬ lk.Expired now → lk.volume = volume → Governs lk.depth lk.path path →
      lk.token ∈ submitted := by
    cases hfind : (r.find now volume path).2 with
    | none =>
      refine ⟨fun _ lk hlk hlive hvolume hgoverns => ?_, fun _ => rfl⟩
      have hsome := find_isSome_iff.mpr ⟨lk, hlk, hlive, hvolume, hgoverns⟩
      rw [hfind] at hsome
      cases hsome
    | some found =>
      obtain ⟨hmem, hlive, hvolume, hgoverns⟩ := find_some hfind
      rw [Option.filter_eq_none_iff]
      constructor
      · intro hin lk hlk _ hv hg
        have hsame : found = lk :=
          hr.eq_of_overlap hmem hlk (hvolume.trans hv.symm) ⟨path, hgoverns, hg⟩
        simpa [hsame] using hin found rfl
      · intro hall lk hlk
        cases hlk
        simpa using hall found hmem hlive hvolume hgoverns
  have hbelow : ((r.find now volume path).1.coveredBySubtree now volume path).2.find?
      (fun lk => lk.token ∉ submitted) = none ↔
      ∀ lk ∈ r.byToken, ¬ lk.Expired now → lk.volume = volume → path.segs <+: lk.path.segs →
      lk.token ∈ submitted := by
    have hmem : ∀ lk, lk ∈ ((r.find now volume path).1.coveredBySubtree now volume path).2 ↔
        lk ∈ r.byToken ∧ ¬ lk.Expired now ∧ lk.volume = volume ∧ path.segs <+: lk.path.segs := by
      intro lk
      rw [mem_coveredBySubtree, find, mem_reap]
      tauto
    rw [List.find?_eq_none]
    simp only [hmem, decide_eq_true_iff, not_not, and_imp]
  cases hfilter : (r.find now volume path).2.filter (fun lk => lk.token ∉ submitted) with
  | some found =>
    have hno := hheld.not.mp (by
      rw [hfilter]
      exact Option.some_ne_none found)
    have hrun : (r.requireUnlocked now volume path submitted deep).2 = .error ⟨found.path⟩ := by
      simp only [requireUnlocked, hfilter]
    rw [hrun]
    refine ⟨fun hok => absurd hok Bool.false_ne_true, fun hall => absurd ?_ hno⟩
    exact fun lk hlk hlive hvolume hg => hall lk hlk hlive hvolume (Or.inl hg)
  | none =>
    have hall := hheld.mp hfilter
    cases deep with
    | false =>
      have hrun : (r.requireUnlocked now volume path submitted false).2 = .ok () := by
        simp only [requireUnlocked, hfilter, Bool.false_eq_true, if_false]
      rw [hrun]
      refine ⟨fun _ lk hlk hlive hvolume hg => ?_, fun _ => rfl⟩
      exact hall lk hlk hlive hvolume (hg.resolve_right (fun h => absurd h.1 Bool.false_ne_true))
    | true =>
      cases hfind : ((r.find now volume path).1.coveredBySubtree now volume path).2.find?
        (fun lk => lk.token ∉ submitted) with
      | some found =>
        have hno := hbelow.not.mp (by
          rw [hfind]
          exact Option.some_ne_none found)
        have hrun : (r.requireUnlocked now volume path submitted true).2 = .error ⟨found.path⟩ := by
          simp only [requireUnlocked, hfilter, hfind, if_true]
        rw [hrun]
        refine ⟨fun hok => absurd hok Bool.false_ne_true, fun h => absurd ?_ hno⟩
        exact fun lk hlk hlive hvolume hg => h lk hlk hlive hvolume (Or.inr ⟨rfl, hg⟩)
      | none =>
        have hbelow' := hbelow.mp hfind
        have hrun : (r.requireUnlocked now volume path submitted true).2 = .ok () := by
          simp only [requireUnlocked, hfilter, hfind, if_true]
        rw [hrun]
        refine ⟨fun _ lk hlk hlive hvolume hg => ?_, fun _ => rfl⟩
        exact hg.elim (hall lk hlk hlive hvolume) (fun h => hbelow' lk hlk hlive hvolume h.2)

end LockRegistry

end Aloelite
