import Aloelite.Sessions

/-! Every node lives in one volume for good. Placements, mounts and roots stay
within a volume, so what a mount reaches is of the volume it is bound to. -/
namespace Aloelite

open Fallible KeyedRows ForestOrder Relation

variable {C : Crypto} {M : Msgpack} {E : Env} {k : Cipher} {L : License} {now : Int} {db db' : Db}
  {tx tx' : Tx} {s : Sys} {c : ConnId} {op : Op} {a b n : NodeId} {V : VolumeId}

/-- The volume a node lives in. -/
def Db.home? (db : Db) (n : NodeId) : Option VolumeId := (db.node? n).map NodeRow.volumeId

theorem home?_eq (db : Db) (n : NodeId) :
    db.home? n = (lookup Prod.fst db.identities n).map (fun i => i.2.2.1) := by
  rw [db.lookup_identities, Option.map_map]
  rfl

theorem home?_persists (h : ∃ added, db'.identities = db.identities ++ added)
    (hn : db.home? n = some V) : db'.home? n = some V := by
  rw [home?_eq, Option.map_eq_some_iff] at hn ⊢
  obtain ⟨i, hi, hV⟩ := hn
  exact ⟨i, lookup_identities_persists h hi, hV⟩

theorem home?_congr (h : db'.identities = db.identities) : db'.home? n = db.home? n := by
  rw [home?_eq, home?_eq, h]

/-- What of a volume never changes. -/
def VolumeRow.plan (v : VolumeRow) : VolumeId × Option NodeId × ℕ :=
  (v.volumeId, v.rootNodeId, v.chunkSize)

def Db.plans (db : Db) : List (VolumeId × Option NodeId × ℕ) := db.volumes.map VolumeRow.plan

theorem chunkSizeOf_eq (db : Db) (V : VolumeId) :
    chunkSizeOf db V = ((lookup Prod.fst db.plans V).map (fun p => p.2.2)).getD 0 := by
  have hplan : lookup Prod.fst db.plans V = (db.volume? V).map VolumeRow.plan :=
    lookup_map (fun _ => rfl)
  rw [hplan, Option.map_map]
  rfl

theorem volume?_isSome_eq (db : Db) (V : VolumeId) :
    (db.volume? V).isSome = (lookup Prod.fst db.plans V).isSome := by
  have hplan : lookup Prod.fst db.plans V = (db.volume? V).map VolumeRow.plan :=
    lookup_map (fun _ => rfl)
  rw [hplan, Option.isSome_map]

/-- A file that keeps its volumes, perhaps with new ones after them. -/
def KeepsPlans (db db' : Db) : Prop := ∃ added, db'.plans = db.plans ++ added

theorem KeepsPlans.of_volumes (h : db'.volumes = db.volumes) : KeepsPlans db db' :=
  ⟨[], by rw [Db.plans, h, List.append_nil]; rfl⟩

theorem KeepsPlans.lookup (h : KeepsPlans db db') {p : VolumeId × Option NodeId × ℕ}
    (hp : KeyedRows.lookup Prod.fst db.plans V = some p) :
    KeyedRows.lookup Prod.fst db'.plans V = some p := by
  obtain ⟨added, hadded⟩ := h
  rw [hadded]
  exact lookup_append_of_some hp added

theorem KeepsPlans.volume (h : KeepsPlans db db') (hV : (db.volume? V).isSome) :
    (db'.volume? V).isSome := by
  rw [volume?_isSome_eq] at hV ⊢
  obtain ⟨p, hp⟩ := Option.isSome_iff_exists.mp hV
  rw [h.lookup hp]
  rfl

/-- The chunk size of a volume that exists stays. -/
theorem KeepsPlans.chunkSize (h : KeepsPlans db db') (hV : (db.volume? V).isSome) :
    chunkSizeOf db' V = chunkSizeOf db V := by
  rw [volume?_isSome_eq] at hV
  obtain ⟨p, hp⟩ := Option.isSome_iff_exists.mp hV
  rw [chunkSizeOf_eq, chunkSizeOf_eq, h.lookup hp, hp]

/-- Placements stay within volumes, nodes in volumes that exist. -/
structure Db.Housed (db : Db) : Prop where
  edge : ∀ e ∈ db.edges, ∃ V, db.home? e.fromId = some V ∧ db.home? e.toId = some V
  volume : ∀ n V, db.home? n = some V → (db.volume? V).isSome

/-- So do mounts and roots. -/
structure Db.Homed (db : Db) : Prop extends Db.Housed db where
  anchor : ∀ m ∈ db.mounts, db.home? m.mountPoint = some m.volumeId
  root : ∀ p ∈ db.plans, ∀ r, p.2.1 = some r → db.home? r = some p.1

theorem Db.Homed.child (h : db.Homed) (hc : db.Child a b) (ha : db.home? a = some V) :
    db.home? b = some V := by
  obtain ⟨e, he, rfl, rfl⟩ := hc
  obtain ⟨W, hfrom, hto⟩ := h.edge e (Db.mem_activeEdges.mp he).1
  rw [hto, ← hfrom, ha]

/-- Everything below a node lives where it lives. -/
theorem Db.Homed.below (h : db.Homed) (hb : db.Below a b) (ha : db.home? a = some V) :
    db.home? b = some V := by
  induction hb with
  | refl => exact ha
  | tail _ hchild ih => exact h.child hchild ih

/-- What a request resolves through a mount lives in the mount's volume. -/
theorem Db.Homed.resolve {mount : MountId} {write : Bool} {m : MountCtx} {path : String}
    {found : Resolved} (h : db.Homed) (hm : requireMount E k db mount write = .ok m)
    (hfound : Aloelite.resolve db m.mountPoint path = .ok found) :
    db.home? found.node = some m.volume := by
  obtain ⟨row, volume, hrow, -, -, rfl⟩ := requireMount_ok hm
  have hmem : row ∈ db.mounts := mem_of_lookup (Option.filter_eq_some_iff.mp hrow).1
  exact h.below (resolve_below hfound) (h.anchor row hmem)

/-! ### Strides -/

theorem License.plans_of_grants {st : Stmt} (hst : L.grants db st) (h : st.exec now db = .ok db') :
    db'.plans = db.plans := by
  by_cases ht : Table.volumes ∈ st.touches
  · cases st with
    | updateVolumeCrypto volume mode key nonce =>
      obtain rfl := Except.ok.inj h
      rw [Db.plans, Db.plans, Db.updateVolumeCrypto, amend, List.map_map]
      apply List.map_congr_left
      intro v _
      by_cases hv : v.volumeId = volume
      · simp [hv, VolumeRow.plan]
      · simp [hv]
    | createVolume row => exact hst.elim
    | linkRoot volume root => exact hst.elim
    | _ => simp [Stmt.touches] at ht
  · rw [Db.plans, (Stmt.exec_agreeOff h).volumes ht]
    rfl

theorem Db.Housed.mono (h : db.Housed) (hids : db'.identities = db.identities)
    (hedges : EdgesFrom db db') (hplans : db'.plans = db.plans) : db'.Housed := by
  constructor
  · intro e he
    obtain ⟨e₀, he₀, hfrom, hto⟩ := hedges e he
    rw [home?_congr hids, home?_congr hids, ← hfrom, ← hto]
    exact h.edge e₀ he₀
  · intro n V hn
    rw [home?_congr hids] at hn
    rw [volume?_isSome_eq, hplans, ← volume?_isSome_eq]
    exact h.volume n V hn

theorem Db.home?_of_node? {r : NodeRow} (h : db.node? n = some r) :
    db.home? n = some r.volumeId := by
  rw [Db.home?, h]
  rfl

theorem Stride.housed (h : Stride L now db db') (hh : db.Housed) :
    db'.Housed ∧ db'.plans = db.plans := by
  cases h with
  | stmt st hst hexec =>
    have hids := (Stmt.exec_agreeOff hexec).identities (L.not_identities db st hst)
    have hplans := License.plans_of_grants hst hexec
    refine ⟨?_, hplans⟩
    by_cases hedge : ∃ id f t v name, st = .createEdge id f t v name
    · obtain ⟨id, f, t, v, name, rfl⟩ := hedge
      obtain ⟨src, dst, hsrc, hdst, -, -, -, hfrom, hto, rfl⟩ := Db.createEdge_ok hexec
      refine ⟨?_, hh.volume⟩
      intro e he
      rcases List.mem_append.mp he with he | he
      · exact hh.edge e he
      · rw [List.mem_singleton.mp he]
        have hf : db.home? f = some v := by rw [Db.home?_of_node? hsrc, hfrom]
        have ht : db.home? t = some v := by rw [Db.home?_of_node? hdst, hto]
        exact ⟨v, hf, ht⟩
    · have hne : ∀ id f t v name, st ≠ .createEdge id f t v name :=
        fun id f t v name heq => hedge ⟨id, f, t, v, name, heq⟩
      exact hh.mono hids (License.edges_of_grants hst hexec hne).1 hplans
  -- a birth puts node and edge in the volume of the container above
  | @birth db₁ db₂ _ row modifiedAt id f hhost hf hrow hfill hedge =>
    obtain ⟨hnone, hnodes, -, hvolumes, -, -, -, hedges⟩ := birth_shape hrow hfill hedge
    obtain ⟨-, hvol, hdb₁⟩ := Db.createNode_ok hrow
    obtain ⟨src, dst, hsrc, -, -, -, -, hfrom, -⟩ := Db.createEdge_ok hedge
    have hext : ∃ added, db'.identities = db.identities ++ added :=
      ⟨[row.identity], by simp [Db.identities, hnodes]⟩
    have hplans : db'.plans = db.plans := by rw [Db.plans, hvolumes]; rfl
    have hself : db'.home? row.nodeId = some row.volumeId := by
      apply Db.home?_of_node?
      rw [Db.node?, hnodes]
      exact lookup_append_self hnone
    have hhome : db'.home? f = some row.volumeId := by
      have hne : row.nodeId ≠ f := by
        rintro rfl
        rw [hnone] at hf
        cases hf
      have hsame : db₂.node? f = db.node? f := by
        rw [Db.node?, (Fills.agreeOff hfill).nodes (by simp), hdb₁]
        exact lookup_append_of_ne hne
      have hsrc' : db.home? f = some row.volumeId := by
        rw [Db.home?_of_node? (hsame ▸ hsrc), hfrom]
      exact home?_persists hext hsrc'
    refine ⟨⟨?_, ?_⟩, hplans⟩
    · intro e he
      rw [hedges] at he
      rcases List.mem_append.mp he with he | he
      · obtain ⟨W, hfrom', hto'⟩ := hh.edge e he
        exact ⟨W, home?_persists hext hfrom', home?_persists hext hto'⟩
      · rw [List.mem_singleton.mp he]
        exact ⟨row.volumeId, hhome, hself⟩
    · intro n V hn
      rw [volume?_isSome_eq, hplans, ← volume?_isSome_eq]
      by_cases hnew : row.nodeId = n
      · rw [← hnew, hself] at hn
        obtain rfl := Option.some.inj hn
        exact hvol
      · have hold : db'.home? n = db.home? n := by
          have hlook : lookup NodeRow.nodeId (db.nodes ++ [row]) n =
              lookup NodeRow.nodeId db.nodes n :=
            lookup_append_of_ne hnew
          rw [Db.home?, Db.home?, Db.node?, Db.node?, hnodes, hlook]
        rw [hold] at hn
        exact hh.volume n V hn

theorem Strides.housed (h : Strides L now db db') (hh : db.Housed) :
    db'.Housed ∧ db'.plans = db.plans := by
  induction h with
  | refl => exact ⟨hh, rfl⟩
  | tail _ hstride ih =>
    obtain ⟨hhoused, hplans⟩ := hstride.housed ih.1
    exact ⟨hhoused, hplans.trans ih.2⟩

/-! ### Steps -/

/-- No step takes a node out of its volume or loses it. -/
theorem Effect.identities (h : Effect C E s op db) (hs : s.db.Sound) :
    ∃ added, db.identities = s.db.identities ++ added := by
  cases h with
  | strides h => exact h.identities
  | founding h =>
    obtain ⟨-, -, -, hnodes, -⟩ := createVolume_shape h
    refine ⟨[(foundedRoot E s.begin).identity], ?_⟩
    rw [Db.identities, hnodes]
    exact List.map_append
  | prune h =>
    rw [prune_shape h hs]
    exact ⟨[], (List.append_nil _).symm⟩
  | pruneContent h =>
    rw [pruneContent_shape h]
    exact ⟨[], (List.append_nil _).symm⟩

theorem Effect.plans (h : Effect C E s op db) (hs : s.db.Sound) (hh : s.db.Homed) :
    KeepsPlans s.db db := by
  cases h with
  | strides h => exact ⟨[], by rw [(h.housed hh.toHoused).2, List.append_nil]⟩
  | @founding name chunkSize pin mode _ _ h =>
    obtain ⟨-, -, -, -, hvolumes, -⟩ := createVolume_shape h
    refine ⟨[(foundedVolume C E s.begin name chunkSize pin mode).plan], ?_⟩
    rw [Db.plans, hvolumes]
    exact List.map_append
  | prune h =>
    rw [prune_shape h hs]
    exact KeepsPlans.of_volumes rfl
  | pruneContent h =>
    rw [pruneContent_shape h]
    exact KeepsPlans.of_volumes rfl

theorem Effect.housed (h : Effect C E s op db) (hs : s.db.Sound) (hh : s.db.Homed) : db.Housed := by
  have hplans := h.plans hs hh
  have hids := h.identities hs
  cases h with
  | strides h => exact (h.housed hh.toHoused).1
  | @founding name chunkSize pin mode _ _ h =>
    obtain ⟨-, hfresh, -, hnodes, hvolumes, hframe, -⟩ := createVolume_shape h
    constructor
    · intro e he
      rw [hframe.edges (by simp)] at he
      obtain ⟨W, hfrom, hto⟩ := hh.edge e he
      exact ⟨W, home?_persists hids hfrom, home?_persists hids hto⟩
    · intro n V hn
      rw [Db.home?, Db.node?, hnodes] at hn
      by_cases hnew : (foundedRoot E s.begin).nodeId = n
      · have hself : lookup NodeRow.nodeId (s.begin.db.nodes ++ [foundedRoot E s.begin]) n =
            some (foundedRoot E s.begin) := by
          rw [← hnew]
          exact lookup_append_self hfresh
        rw [hself] at hn
        obtain rfl := Option.some.inj hn
        rw [Db.volume?, hvolumes]
        have hmem : foundedVolume C E s.begin name chunkSize pin mode ∈
            s.begin.db.volumes ++ [foundedVolume C E s.begin name chunkSize pin mode] :=
          List.mem_append_right _ (List.mem_singleton_self _)
        have hfound : ∃ r, lookup VolumeRow.volumeId (s.begin.db.volumes ++
            [foundedVolume C E s.begin name chunkSize pin mode]) E.uuid = some r :=
          lookup_isSome_of_mem hmem
        obtain ⟨r, hr⟩ := hfound
        exact Option.isSome_iff_exists.mpr ⟨r, hr⟩
      · have hold : lookup NodeRow.nodeId (s.begin.db.nodes ++ [foundedRoot E s.begin]) n =
            s.db.node? n := lookup_append_of_ne hnew
        rw [hold] at hn
        exact hplans.volume (hh.volume n V hn)
  | prune h =>
    rw [prune_shape h hs]
    exact ⟨hh.edge, hh.volume⟩
  | pruneContent h =>
    rw [pruneContent_shape h]
    exact ⟨hh.edge, hh.volume⟩

theorem Effect.roots (h : Effect C E s op db) (hs : s.db.Sound) (hh : s.db.Homed) :
    ∀ p ∈ db.plans, ∀ r, p.2.1 = some r → db.home? r = some p.1 := by
  have hids := h.identities hs
  cases h with
  | strides h =>
    intro p hp r hr
    rw [(h.housed hh.toHoused).2] at hp
    exact home?_persists hids (hh.root p hp r hr)
  | @founding name chunkSize pin mode _ _ h =>
    obtain ⟨-, hfresh, -, hnodes, hvolumes, -⟩ := createVolume_shape h
    intro p hp r hr
    rw [Db.plans, hvolumes, List.map_append] at hp
    rcases List.mem_append.mp hp with hp | hp
    · exact home?_persists hids (hh.root p hp r hr)
    · rw [List.map_singleton, List.mem_singleton] at hp
      rw [hp] at hr ⊢
      obtain rfl := Option.some.inj hr
      apply Db.home?_of_node? (r := foundedRoot E s.begin)
      rw [Db.node?, hnodes]
      exact lookup_append_self hfresh
  | prune h =>
    rw [prune_shape h hs]
    exact hh.root
  | pruneContent h =>
    rw [pruneContent_shape h]
    exact hh.root

/-- A mount is anchored in the volume it is bound to. -/
theorem Admitted.home {args : MountArgs} {row : MountRow} (h : Admitted E db args row)
    (hh : db.Homed) : db.home? row.mountPoint = some row.volumeId := by
  obtain ⟨volume, root, anchor, hvolume, hroot, hanchor, -, hpoint⟩ := h.anchored
  have hid : volume.volumeId = args.volume := key_of_lookup hvolume
  have hmem : volume.plan ∈ db.plans := List.mem_map_of_mem (mem_of_lookup hvolume)
  have hhome : db.home? root = some volume.volumeId := hh.root _ hmem root hroot
  rw [hpoint, h.volume, ← hid]
  exact hh.below (resolve_below hanchor) hhome

theorem exec_homed (hs : s.db.Sound) (hh : s.db.Homed) : (exec C M E s c op).1.db.Homed := by
  have heffect : Effect C E s op (exec C M E s c op).1.db := exec_effect hs.linked
  have hids := heffect.identities hs
  have hhoused := heffect.housed hs hh
  refine ⟨hhoused, ?_, heffect.roots hs hh⟩
  have hold : ∀ m ∈ s.db.mounts, ∀ m' : MountRow, m'.mountPoint = m.mountPoint →
      m'.volumeId = m.volumeId →
      (exec C M E s c op).1.db.home? m'.mountPoint = some m'.volumeId := by
    intro m hm m' hpoint hvolume
    rw [hpoint, hvolume]
    exact home?_persists hids (hh.anchor m hm)
  have hten : Tenure E op.mintsLock (op.admits E s.db) s.db (exec C M E s c op).1.db :=
    exec_tenure hs
  intro m hm
  cases hten with
  | mounted row hallowed hnew hmounts hlocks =>
    rw [hmounts] at hm
    rcases List.mem_append.mp hm with hm | hm
    · exact hold m hm m rfl rfl
    · rw [List.mem_singleton.mp hm]
      cases op with
      | mount args => exact home?_persists hids (Admitted.home hallowed hh)
      | _ => exact hallowed.elim
  | unmounted m' hmounts hlocks =>
    rw [hmounts] at hm
    rcases mem_amend.mp hm with ⟨hm, -⟩ | ⟨m₀, hm₀, -, rfl⟩
    · exact hold m hm m rfl rfl
    · exact hold m₀ hm₀ _ rfl rfl
  | renewedMount m' exp hvalid hmounts hlocks =>
    rw [hmounts] at hm
    rcases mem_amend.mp hm with ⟨hm, -⟩ | ⟨m₀, hm₀, -, rfl⟩
    · exact hold m hm m rfl rfl
    · exact hold m₀ hm₀ _ rfl rfl
  | same hmounts hlocks | locked row hmints hid hnew hmount hnode hfree hmounts hlocks
  | renewedLock row exp hrow hvalid hmounts hlocks | dropped p hmounts hlocks =>
    rw [hmounts] at hm
    exact hold m hm m rfl rfl

theorem empty_homed : Db.Homed {} := by
  refine ⟨⟨?_, ?_⟩, ?_, ?_⟩
  · intro e he
    cases he
  · intro n V hn
    cases hn
  · intro m hm
    cases hm
  · intro p hp
    cases hp

/-- In every reachable file placements, mounts and roots stay within volumes. -/
theorem Reaches.homed {guard : Sys → Label → Prop} (h : Reaches C M guard s) : s.db.Homed := by
  have hboth : s.db.Sound ∧ s.db.Homed := by
    refine GuardedRuns.Run.invariant (P := fun s : Sys => s.db.Sound ∧ s.db.Homed) ?_ h
      ⟨empty_sound, empty_homed⟩
    intro s l _ hs
    exact ⟨step_sound hs.1, exec_homed hs.1 hs.2⟩
  exact hboth.2

end Aloelite
