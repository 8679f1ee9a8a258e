import Aloelite.Hierarchy
import Aloelite.Homes
import Aloelite.DeepTree

/-! The tripwires of `health_anomaly`. In every reachable file the view is empty, also where
a long cycle of containers stands: the view looks no further than the check of `move`. -/
namespace Aloelite

open Fallible KeyedRows ForestOrder

variable {C : Crypto} {M : Msgpack} {E : Env} {L : License} {now : Int} {db db' : Db} {s : Sys}
  {op : Op} {c : ConnId}

inductive AnomalyKind where
  | edgeVolumeMismatch
  | volumeWithoutRoot
  | cycle
  deriving DecidableEq, Repr

/-- `Anomaly`. The id is that of a placement, a volume or a node, as the kind says. -/
structure Anomaly where
  kind : AnomalyKind
  id : ℕ
  deriving DecidableEq, Repr

namespace Db

/-- A placement, archived or not, of another volume than one of its ends. -/
def strayEdge (db : Db) (e : EdgeRow) : Bool :=
  match db.node? e.fromId, db.node? e.toId with
  | some f, some t => f.volumeId ≠ e.volumeId || t.volumeId ≠ e.volumeId
  | _, _ => false

def rootless (db : Db) (v : VolumeRow) : Bool :=
  match v.rootNodeId with
  | none => true
  | some root => (db.node? root).isNone

/-- The view `health_anomaly`. A node always has a volume here, so `node_without_volume`
never fires. -/
def healthAnomaly (db : Db) : List Anomaly :=
  (db.edges.filter db.strayEdge).map (fun e => ⟨.edgeVolumeMismatch, e.edgeId⟩) ++
    (db.volumes.filter db.rootless).map (fun v => ⟨.volumeWithoutRoot, v.volumeId⟩) ++
    db.nodes.flatMap
      (fun n => ((db.nodeAncestor n.nodeId).filter (· = n.nodeId)).map (fun a => ⟨.cycle, a⟩))

/-- A placement is of the volume both its ends live in, and every volume has a root. -/
structure Healthy (db : Db) : Prop where
  edge : ∀ e ∈ db.edges, db.home? e.fromId = some e.volumeId ∧ db.home? e.toId = some e.volumeId
  rooted : ∀ p ∈ db.plans, p.2.1.isSome

theorem mem_healthAnomaly {a : Anomaly} : a ∈ db.healthAnomaly ↔
    (∃ e ∈ db.edges, db.strayEdge e = true ∧ a = ⟨.edgeVolumeMismatch, e.edgeId⟩) ∨
      (∃ v ∈ db.volumes, db.rootless v = true ∧ a = ⟨.volumeWithoutRoot, v.volumeId⟩) ∨
      ∃ n ∈ db.nodes, n.nodeId ∈ db.nodeAncestor n.nodeId ∧ a = ⟨.cycle, n.nodeId⟩ := by
  simp only [healthAnomaly, List.mem_append, List.mem_map, List.mem_filter, List.mem_flatMap,
    decide_eq_true_eq]
  constructor
  · rintro ((⟨e, ⟨he, hstray⟩, rfl⟩ | ⟨v, ⟨hv, hroot⟩, rfl⟩) | ⟨n, hn, m, ⟨hm, rfl⟩, rfl⟩)
    · exact Or.inl ⟨e, he, hstray, rfl⟩
    · exact Or.inr (Or.inl ⟨v, hv, hroot, rfl⟩)
    · exact Or.inr (Or.inr ⟨n, hn, hm, rfl⟩)
  · rintro (⟨e, he, hstray, rfl⟩ | ⟨v, hv, hroot, rfl⟩ | ⟨n, hn, hm, rfl⟩)
    · exact Or.inl (Or.inl ⟨e, ⟨he, hstray⟩, rfl⟩)
    · exact Or.inl (Or.inr ⟨v, ⟨hv, hroot⟩, rfl⟩)
    · exact Or.inr ⟨n, hn, n.nodeId, ⟨hm, rfl⟩, rfl⟩

/-- A node is reported as a cycle where it is its own ancestor within 256 placements. -/
theorem cycle_mem_healthAnomaly {n : NodeId} (hn : (db.node? n).isSome) :
    ⟨.cycle, n⟩ ∈ db.healthAnomaly ↔ ∃ d < depthCap, ForestOrder.Leads db.Child (d + 1) n n := by
  rw [mem_healthAnomaly, ← mem_ancestorsWithin]
  constructor
  · rintro (⟨e, -, -, heq⟩ | ⟨v, -, -, heq⟩ | ⟨r, -, hm, heq⟩)
    · cases heq
    · cases heq
    · cases heq
      exact hm
  · intro hm
    obtain ⟨r, hr⟩ := Option.isSome_iff_exists.mp hn
    obtain rfl := key_of_lookup hr
    exact Or.inr (Or.inr ⟨r, mem_of_lookup hr, hm, rfl⟩)

theorem Healthy.not_stray (h : db.Healthy) {e : EdgeRow} (he : e ∈ db.edges) :
    db.strayEdge e = false := by
  obtain ⟨hfrom, hto⟩ := h.edge e he
  obtain ⟨f, hf, hfV⟩ := Option.map_eq_some_iff.mp hfrom
  obtain ⟨t, ht, htV⟩ := Option.map_eq_some_iff.mp hto
  simp [strayEdge, hf, ht, hfV, htV]

theorem Healthy.healthAnomaly_nil (h : db.Healthy) (hh : db.Homed)
    (hnear : NoShortCycle depthCap db.Child) :
    db.healthAnomaly = [] := by
  rw [List.eq_nil_iff_forall_not_mem]
  intro a ha
  rcases mem_healthAnomaly.mp ha with ⟨e, he, hstray, -⟩ | ⟨v, hv, hroot, -⟩ | ⟨n, -, hm, -⟩
  · rw [h.not_stray he] at hstray
    cases hstray
  · obtain ⟨root, hsome⟩ := Option.isSome_iff_exists.mp (h.rooted v.plan (List.mem_map_of_mem hv))
    have hhome := hh.root v.plan (List.mem_map_of_mem hv) root hsome
    obtain ⟨r, hr, -⟩ := Option.map_eq_some_iff.mp hhome
    have hsome' : v.rootNodeId = some root := hsome
    simp [rootless, hsome', hr] at hroot
  · obtain ⟨d, hd, hleads⟩ := mem_ancestorsWithin.mp hm
    exact hnear n.nodeId d hd hleads

end Db

/-! ### Every step -/

/-- The placements of the second file are those of the first, archived or renamed perhaps,
and new ones that lie in one volume. -/
def SameVolumes (db db' : Db) : Prop :=
  ∀ e ∈ db'.edges,
    (∃ e₀ ∈ db.edges, e₀.fromId = e.fromId ∧ e₀.toId = e.toId ∧ e₀.volumeId = e.volumeId) ∨
    (db'.home? e.fromId = some e.volumeId ∧ db'.home? e.toId = some e.volumeId)

theorem sameVolumes_map {f : EdgeRow → EdgeRow}
    (hf : ∀ e, e.fromId = (f e).fromId ∧ e.toId = (f e).toId ∧ e.volumeId = (f e).volumeId)
    (h : db'.edges = db.edges.map f) : SameVolumes db db' := by
  intro e he
  rw [h] at he
  obtain ⟨e₀, he₀, rfl⟩ := List.mem_map.mp he
  exact Or.inl ⟨e₀, he₀, hf e₀⟩

theorem sameVolumes_append {e : EdgeRow} (h : db'.edges = db.edges ++ [e])
    (hend : db'.home? e.fromId = some e.volumeId ∧ db'.home? e.toId = some e.volumeId) :
    SameVolumes db db' := by
  intro e' he'
  rw [h] at he'
  rcases List.mem_append.mp he' with hold | hnew
  · exact Or.inl ⟨e', hold, rfl, rfl, rfl⟩
  · rw [List.mem_singleton.mp hnew]
    exact Or.inr hend

/-- A new placement lies in the volume of its ends. -/
theorem createEdge_homes {id : EdgeId} {f t : NodeId} {v : VolumeId} {name : Option String}
    (h : db.createEdge now id f t v name = .ok db') :
    db'.home? f = some v ∧ db'.home? t = some v := by
  obtain ⟨src, dst, hsrc, hdst, -, -, -, hfrom, hto, rfl⟩ := Db.createEdge_ok h
  exact ⟨(Db.home?_of_node? hsrc).trans (congrArg some hfrom),
    (Db.home?_of_node? hdst).trans (congrArg some hto)⟩

theorem Stride.sameVolumes (h : Stride L now db db') : SameVolumes db db' := by
  cases h with
  | stmt st hst hexec =>
    by_cases ht : Table.edges ∈ st.touches
    · cases st with
      | createEdge id f t v n =>
        have hends : db'.home? f = some v ∧ db'.home? t = some v := createEdge_homes hexec
        obtain ⟨src, dst, -, -, -, -, -, -, -, rfl⟩ := Db.createEdge_ok hexec
        exact sameVolumes_append rfl hends
      | archivePlacement parent n name =>
        obtain rfl := Except.ok.inj hexec
        exact sameVolumes_map (fun e => by split <;> exact ⟨rfl, rfl, rfl⟩) rfl
      | archiveEdge id =>
        obtain rfl := Except.ok.inj hexec
        exact sameVolumes_map (fun e => by split <;> exact ⟨rfl, rfl, rfl⟩) rfl
      | archiveSubtree root =>
        obtain rfl := Except.ok.inj hexec
        exact sameVolumes_map (fun e => by split <;> exact ⟨rfl, rfl, rfl⟩) rfl
      | renamePlacement parent n old name =>
        obtain rfl := Except.ok.inj hexec
        exact sameVolumes_map (fun e => by split <;> exact ⟨rfl, rfl, rfl⟩) rfl
      | _ => simp [Stmt.touches] at ht
    · have hedges := (Stmt.exec_agreeOff hexec).edges ht
      rw [← List.map_id db.edges] at hedges
      exact sameVolumes_map (fun _ => ⟨rfl, rfl, rfl⟩) hedges
  | birth row modifiedAt id f hhost hf hrow hfill hedge =>
    obtain ⟨-, -, -, -, -, -, -, hedges⟩ := birth_shape hrow hfill hedge
    exact sameVolumes_append hedges (createEdge_homes hedge)

theorem Db.Healthy.extend (h : db.Healthy) (hids : ∃ added, db'.identities = db.identities ++ added)
    (hsame : SameVolumes db db') (hrooted : ∀ p ∈ db'.plans, p.2.1.isSome) : db'.Healthy := by
  refine ⟨?_, hrooted⟩
  intro e he
  rcases hsame e he with ⟨e₀, he₀, hfrom, hto, hvolume⟩ | hboth
  · rw [← hfrom, ← hto, ← hvolume]
    obtain ⟨hf, ht⟩ := h.edge e₀ he₀
    exact ⟨home?_persists hids hf, home?_persists hids ht⟩
  · exact hboth

theorem Strides.healthy (h : Strides L now db db') (hh : db.Housed) (hok : db.Healthy) :
    db'.Healthy := by
  have hboth : db'.Housed ∧ db'.Healthy := by
    induction h with
    | refl => exact ⟨hh, hok⟩
    | @tail db₁ db₂ _ hstride ih =>
      obtain ⟨hhoused, hplans⟩ := hstride.housed ih.1
      exact ⟨hhoused, ih.2.extend hstride.identities hstride.sameVolumes (hplans ▸ ih.2.rooted)⟩
  exact hboth.2

theorem Effect.healthy (h : Effect C E s op db) (hs : s.db.Sound) (hh : s.db.Homed)
    (hok : s.db.Healthy) :
    db.Healthy := by
  have hids := h.identities hs
  have hnone : ∀ {d : Db}, d.edges = s.db.edges → SameVolumes s.db d := by
    intro d hedges e he
    exact Or.inl ⟨e, hedges ▸ he, rfl, rfl, rfl⟩
  cases h with
  | strides h => exact Strides.healthy h hh.toHoused hok
  | founding h =>
    obtain ⟨-, -, -, -, hvolumes, hframe, -⟩ := createVolume_shape h
    refine hok.extend hids (hnone (hframe.edges (by simp))) ?_
    intro p hp
    rw [Db.plans, hvolumes, List.map_append] at hp
    rcases List.mem_append.mp hp with hold | hnew
    · exact hok.rooted p hold
    · rw [List.map_singleton, List.mem_singleton] at hnew
      rw [hnew]
      rfl
  | prune h =>
    rw [prune_shape h hs]
    exact ⟨hok.edge, hok.rooted⟩
  | pruneContent h =>
    rw [pruneContent_shape h]
    exact ⟨hok.edge, hok.rooted⟩

theorem Reaches.healthy {guard : Sys → Label → Prop} (h : Reaches C M guard s) : s.db.Healthy := by
  have hall : (s.db.Sound ∧ s.db.Homed) ∧ s.db.Healthy := by
    refine GuardedRuns.Run.invariant (P := fun s : Sys => (s.db.Sound ∧ s.db.Homed) ∧ s.db.Healthy)
      ?_ h
      ⟨⟨empty_sound, empty_homed⟩, fun e he => absurd he List.not_mem_nil, fun p hp =>
        absurd hp List.not_mem_nil⟩
    intro s l _ hs
    exact ⟨⟨step_sound hs.1.1, exec_homed hs.1.1 hs.1.2⟩,
      (exec_effect hs.1.1.linked).healthy hs.1.1 hs.1.2 hs.2⟩
  exact hall.2

/-- No run makes `health_check` report anything, whatever the interleaving. -/
theorem healthAnomaly_eq_nil {guard : Sys → Label → Prop} (h : Reaches C M guard s) :
    s.db.healthAnomaly = [] :=
  h.healthy.healthAnomaly_nil h.homed h.hierarchy.2.near

/-- The run that moves the top of 258 nested containers under the bottom one. -/
theorem reaches_knot : ∃ s, Reaches Crypto.xorStream Msgpack.refusing (fun _ _ => True) s ∧
    ¬ Acyclic s.db.Child ∧ (s.db.node? 2).isSome := by
  obtain ⟨s, hs, hcipher, hdeep, -⟩ := reaches_deep Crypto.xorStream Msgpack.refusing 258
  let l : Label :=
    ⟨.counting (2 * (258 + 1)), 0, .request 1 (.move (deepPath 1) (deepPath (258 + 1)))⟩
  have hmove := hdeep.move_eq (by omega) s.aliased s.committed
  have hdb : (step Crypto.xorStream Msgpack.refusing s l).db = Deep.knot 258 s.db := by
    simp only [step, exec, hcipher, Sys.begin, Request.run, hmove, noReply, l]
    rfl
  have hany : Reaches Crypto.xorStream Msgpack.refusing (fun _ _ => True) s :=
    GuardedRuns.Run.weaken (fun _ _ _ => trivial) hs
  refine ⟨step Crypto.xorStream Msgpack.refusing s l, hany.snoc trivial, ?_, ?_⟩
  · rw [hdb]
    exact hdeep.knot_cyclic (by omega)
  · have htop : s.db.node? (2 * 1) = some (deepNode 1) := hdeep.node?_eq (by omega)
    rw [hdb]
    exact Option.isSome_iff_exists.mpr ⟨_, htop⟩

/-- The view is empty in a file with a cycle, too. -/
theorem healthAnomaly_of_knot : ∃ s, Reaches Crypto.xorStream Msgpack.refusing (fun _ _ => True) s ∧
    ¬ Acyclic s.db.Child ∧ s.db.healthAnomaly = [] := by
  obtain ⟨s, hs, hcyclic, -⟩ := reaches_knot
  exact ⟨s, hs, hcyclic, healthAnomaly_eq_nil hs⟩

end Aloelite
