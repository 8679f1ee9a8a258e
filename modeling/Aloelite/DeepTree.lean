import Aloelite.Forest

/-! Nothing caps the depth a tree can be built to: nested containers of every
depth are reachable, and past 256 levels the cycle check of `move` no longer sees
the moved container. -/
namespace Aloelite

open Fallible KeyedRows ForestOrder Relation

/-- The container at depth `i`. -/
def deepNode (i : ℕ) : NodeRow :=
  { nodeId := 2 * i, type := .container, name := if i = 0 then "/" else "d", createdAt := 0,
    volumeId := 0 }

/-- The placement of the container at depth `i + 1`. -/
def deepEdge (i : ℕ) : EdgeRow :=
  { edgeId := 2 * i + 3, fromId := 2 * i, toId := 2 * i + 2, volumeId := 0, name := "d" }

def deepPath (n : ℕ) : String := String.ofList (Db.joinSegments (List.replicate n "d"))

/-- One volume, one rw mount on its root, `n` containers nested in each other. -/
structure Deep (n : ℕ) (db : Db) : Prop where
  nodes : db.nodes = (List.range (n + 1)).map deepNode
  edges : db.edges = (List.range n).map deepEdge
  volumes : db.volumes =
    [{ volumeId := 0, rootNodeId := some 0, createdAt := 0, chunkSize := 1, encMode := .none }]
  mounts : db.mounts =
    [{ mountId := 1, volumeId := 0, mountPoint := 0, state := .active, expiresAt := none,
       access := .rw }]
  locks : db.locks = []

namespace Deep

variable {n i j : ℕ} {db : Db} {tx : Tx} {b : ℕ}

theorem node?_eq (h : Deep n db) (hi : i ≤ n) : db.node? (2 * i) = some (deepNode i) := by
  have hkeyed : Keyed NodeRow.nodeId db.nodes := by
    rw [h.nodes, Keyed, List.map_map]
    apply List.Nodup.map _ List.nodup_range
    intro a b hab
    have hab' : 2 * a = 2 * b := hab
    omega
  have hmem : deepNode i ∈ db.nodes := by
    rw [h.nodes]
    exact List.mem_map_of_mem (List.mem_range.mpr (by omega))
  exact lookup_eq_some_of_mem hkeyed hmem

theorem node?_none (h : Deep n db) {m : ℕ} (hm : 2 * n < m) : db.node? m = none := by
  rw [Db.node?, lookup_eq_none, h.nodes]
  intro r hr
  obtain ⟨a, ha, rfl⟩ := List.mem_map.mp hr
  have ha' : a < n + 1 := List.mem_range.mp ha
  show 2 * a ≠ m
  omega

theorem edge?_none (h : Deep n db) {m : ℕ} (hm : 2 * n + 1 < m) : db.edge? m = none := by
  rw [Db.edge?, lookup_eq_none, h.edges]
  intro e he
  obtain ⟨a, ha, rfl⟩ := List.mem_map.mp he
  have ha' : a < n := List.mem_range.mp ha
  show 2 * a + 3 ≠ m
  omega

theorem activeEdges_eq (h : Deep n db) : db.activeEdges = (List.range n).map deepEdge := by
  rw [Db.activeEdges, h.edges, List.filter_eq_self]
  intro e he
  obtain ⟨a, -, rfl⟩ := List.mem_map.mp he
  rfl

theorem resolveSegment_eq (h : Deep n db) (hi : i < n) :
    db.resolveSegment (2 * i) "d" = some (deepNode (i + 1)) := by
  rw [Db.resolveSegment_eq_some]
  constructor
  · refine ⟨deepEdge i, ?_, rfl, rfl, h.node?_eq hi⟩
    rw [h.activeEdges_eq]
    exact List.mem_map_of_mem (List.mem_range.mpr hi)
  · intro r hr
    obtain ⟨e, he, hf, -, hto⟩ := Db.mem_placedUnder.mp hr
    rw [h.activeEdges_eq] at he
    obtain ⟨a, -, rfl⟩ := List.mem_map.mp he
    have hai : 2 * a = 2 * i := hf
    obtain rfl : a = i := by omega
    exact le_of_eq (Db.nodeId_of_node? hto)

theorem descend_eq (h : Deep n db) (hij : i + j ≤ n) :
    descend db (2 * i) .container (List.replicate j "d") = .ok ⟨2 * (i + j), .container⟩ := by
  induction j generalizing i with
  | zero => rfl
  | succ j ih =>
    rw [List.replicate_succ, descend, if_pos rfl, h.resolveSegment_eq (by omega)]
    have hrest := ih (show (i + 1) + j ≤ n by omega)
    rw [show i + 1 + j = i + (j + 1) by omega] at hrest
    exact hrest

theorem isSegment_d : IsSegment "d" := by
  constructor
  · decide
  · decide

theorem splitPath_deepPath (j : ℕ) : splitPath (deepPath j) = List.replicate j "d" := by
  apply splitPath_joinSegments
  intro seg hseg
  rw [List.eq_of_mem_replicate hseg]
  exact isSegment_d

theorem legible_deepPath (j : ℕ) : Legible (deepPath j) := by
  intro seg hseg
  rw [splitPath_deepPath] at hseg
  rw [List.eq_of_mem_replicate hseg]
  decide

theorem resolveParent_eq (h : Deep n db) (hj : j ≤ n) :
    resolveParent db 0 (deepPath (j + 1)) = .ok ⟨2 * j, "d"⟩ := by
  rw [resolveParent_eq_ok (legible_deepPath (j + 1)), splitPath_deepPath]
  refine ⟨by simp, ?_, ?_⟩
  · rw [List.replicate_succ', List.getLastD_concat]
  · rw [List.replicate_succ', List.dropLast_concat]
    have hd := h.descend_eq (show 0 + j ≤ n by omega)
    rwa [Nat.zero_add] at hd

theorem validMount?_eq (h : Deep n db) : db.validMount? 0 1 = some
    { mountId := 1, volumeId := 0, mountPoint := 0, state := .active, expiresAt := none,
      access := .rw } := by
  rw [Db.validMount?, Db.mount?, h.mounts]
  rfl

theorem volume?_eq (h : Deep n db) : db.volume? 0 =
    some
      { volumeId := 0, rootNodeId := some 0, createdAt := 0, chunkSize := 1,
        encMode := .none } := by
  rw [Db.volume?, h.volumes]
  rfl

theorem requireMount_eq (h : Deep n db) :
    requireMount (.counting b) .identity db 1 true = .ok ⟨1, 0, 0, .none⟩ := by
  have hrow : db.validMount? (Env.counting b).now 1 = some _ := h.validMount?_eq
  rw [requireMount, hrow, orRaise, ok_bind, h.volume?_eq]
  rfl

/-- The container at depth `n + 1` before it is placed. -/
def bud (n : ℕ) (db : Db) : Db :=
  { db with
    nodes := db.nodes ++ [deepNode (n + 1)]
    times := db.times ++ [{ nodeId := 2 * (n + 1), modifiedAt := 0 }] }

def grown (n : ℕ) (db : Db) : Db :=
  { bud n db with
    edges := db.edges ++ [deepEdge n]
    times := Db.touchCtime 0 [2 * (n + 1)] (bud n db).times }

theorem bud_eq (h : Deep n db) : db.createNode (deepNode (n + 1)) none = .ok (bud n db) := by
  have hnew : db.node? (deepNode (n + 1)).nodeId = none :=
    h.node?_none (show 2 * n < 2 * (n + 1) by omega)
  rw [Db.createNode, hnew, show (deepNode (n + 1)).volumeId = 0 from rfl, h.volume?_eq]
  rfl

theorem grown_eq (h : Deep n db) :
    (bud n db).createEdge 0 (2 * (n + 1) + 1) (2 * n) (2 * (n + 1)) 0 none = .ok (grown n db) := by
  have hnew : db.node? (deepNode (n + 1)).nodeId = none :=
    h.node?_none (show 2 * n < 2 * (n + 1) by omega)
  have hsrc : (bud n db).node? (2 * n) = some (deepNode n) :=
    lookup_append_of_some (h.node?_eq le_rfl) [deepNode (n + 1)]
  have hdst : (bud n db).node? (2 * (n + 1)) = some (deepNode (n + 1)) := lookup_append_self hnew
  have hid : (bud n db).edge? (2 * (n + 1) + 1) = none := h.edge?_none (by omega)
  have hvol : (bud n db).volume? 0 = some _ := h.volume?_eq
  have hfree : (bud n db).activeEdges.any (fun e => e.toId = 2 * (n + 1)) = false := by
    rw [List.any_eq_false, show (bud n db).activeEdges = db.activeEdges from rfl, h.activeEdges_eq]
    intro e he
    obtain ⟨a, ha, rfl⟩ := List.mem_map.mp he
    have ha' : a < n := List.mem_range.mp ha
    have hne : 2 * a + 2 ≠ 2 * (n + 1) := by omega
    show ¬ decide (2 * a + 2 = 2 * (n + 1)) = true
    rwa [decide_eq_true_eq]
  rw [Db.createEdge, hsrc, hdst, hid, hvol, hfree]
  rfl

theorem grow (h : Deep n db) : Deep (n + 1) (grown n db) where
  nodes := by
    show db.nodes ++ [deepNode (n + 1)] = _
    rw [h.nodes, List.range_succ (n := n + 1), List.map_append]
    rfl
  edges := by
    show db.edges ++ [deepEdge n] = _
    rw [h.edges, List.range_succ (n := n), List.map_append]
    rfl
  volumes := h.volumes
  mounts := h.mounts
  locks := h.locks

/-- One more container at the bottom. -/
theorem create_eq (h : Deep n db) (al : Bool) (cm : NodeId → Bytes) :
    createContainer (.counting (2 * (n + 1))) .identity
      { db := db, aliased := al, committed := cm } 1 (deepPath (n + 1)) =
        .ok ({ db := grown n db, idCount := 2, aliased := al, committed := cm }, 2 * (n + 1)) := by
  have hname : requireName "d" = .ok () := rfl
  have hnode : newNode (.counting (2 * (n + 1))) { db := db, aliased := al, committed := cm }
      ⟨1, 0, 0, .none⟩ .container "d" none none .empty =
        .ok ({ db := bud n db, idCount := 1, aliased := al, committed := cm }, 2 * (n + 1)) :=
    newNode_of_ok h.bud_eq
  have hedge : linkChild (.counting (2 * (n + 1)))
      { db := bud n db, idCount := 1, aliased := al, committed := cm } ⟨1, 0, 0, .none⟩ (2 * n)
      (2 * (n + 1)) none =
        .ok { db := grown n db, idCount := 2, aliased := al, committed := cm } :=
    linkChild_of_ok h.grown_eq
  simp only [createContainer, h.requireMount_eq, h.resolveParent_eq le_rfl, ok_bind, hname, hnode,
    hedge]
  rfl

/-! ### Moving the top container to the bottom -/

theorem child_iff (h : Deep n db) {a c : NodeId} :
    db.Child a c ↔ ∃ i < n, a = 2 * i ∧ c = 2 * (i + 1) := by
  rw [Db.Child, h.activeEdges_eq]
  constructor
  · rintro ⟨e, he, rfl, rfl⟩
    obtain ⟨i, hi, rfl⟩ := List.mem_map.mp he
    exact ⟨i, List.mem_range.mp hi, rfl, rfl⟩
  · rintro ⟨i, hi, rfl, rfl⟩
    exact ⟨deepEdge i, List.mem_map_of_mem (List.mem_range.mpr hi), rfl, rfl⟩

/-- A path down the chain counts levels. -/
theorem leads_eq (h : Deep n db) {m : ℕ} {c : NodeId} (hl : Leads db.Child m (2 * i) c) :
    c = 2 * (i + m) := by
  induction m generalizing c with
  | zero => exact (leads_zero.mp hl).symm
  | succ m ih =>
    obtain ⟨b, hb, hr⟩ := leads_succ.mp hl
    obtain ⟨a, -, hba, rfl⟩ := h.child_iff.mp hr
    have hab : 2 * a = 2 * (i + m) := hba.symm.trans (ih hb)
    have ha : a = i + m := by omega
    rw [ha]
    rfl

/-- More than 256 levels up, the cycle check sees nothing. -/
theorem checkCycle_eq (h : Deep n db) (hi : i + 256 < n) :
    db.checkCycle (2 * i) (2 * n) = false := by
  rw [Bool.eq_false_iff]
  intro hc
  obtain ⟨m, hm, hl⟩ := Db.checkCycle_iff.mp hc
  have heq : 2 * n = 2 * (i + m) := h.leads_eq hl
  have hcap : m ≤ 256 := hm
  omega

theorem resolve_top (h : Deep n db) (hn : 0 < n) :
    resolve db 0 (deepPath 1) = .ok ⟨2, .container⟩ := by
  rw [resolve_eq_ok (legible_deepPath 1), splitPath_deepPath]
  exact Or.inr ⟨by decide, h.descend_eq (i := 0) hn⟩

/-- The chain with its top container archived away from the root. -/
def cut (db : Db) : Db := db.archiveWhere 0 (Db.isPlacement 0 2 "d")

/-- The top container under the bottom one. -/
def knotEdge (n : ℕ) : EdgeRow :=
  { edgeId := 2 * (n + 1), fromId := 2 * n, toId := 2, volumeId := 0, name := "d" }

/-- The cut chain with the top container placed at the bottom. -/
def knot (n : ℕ) (db : Db) : Db :=
  { cut db with
    edges := (cut db).edges ++ [knotEdge n]
    times := Db.touchCtime 0 [2] (cut db).times }

theorem mem_activeEdges_cut (h : Deep n db) {e : EdgeRow} :
    e ∈ (cut db).activeEdges ↔ ∃ i, 0 < i ∧ i < n ∧ e = deepEdge i := by
  rw [cut, Db.activeEdges_archiveWhere, List.mem_filter, h.activeEdges_eq]
  constructor
  · rintro ⟨he, hp⟩
    obtain ⟨i, hi, rfl⟩ := List.mem_map.mp he
    refine ⟨i, ?_, List.mem_range.mp hi, rfl⟩
    rcases Nat.eq_zero_or_pos i with rfl | hpos
    · cases hp
    · exact hpos
  · rintro ⟨i, hpos, hi, rfl⟩
    refine ⟨List.mem_map_of_mem (List.mem_range.mpr hi), ?_⟩
    have hne : 2 * i ≠ 0 := by omega
    simp [Db.isPlacement, deepEdge, hne]

theorem knot_eq (h : Deep n db) (hn : 0 < n) :
    (cut db).createEdge 0 (2 * (n + 1)) (2 * n) 2 0 none = .ok (knot n db) := by
  have hsrc : (cut db).node? (2 * n) = some (deepNode n) := h.node?_eq le_rfl
  have hdst : (cut db).node? 2 = some (deepNode 1) := h.node?_eq hn
  have hvol : (cut db).volume? 0 = some _ := h.volume?_eq
  have hid : (cut db).edge? (2 * (n + 1)) = none := by
    rw [Db.edge?, lookup_eq_none]
    intro e he
    obtain ⟨e₀, he₀, rfl⟩ := List.mem_map.mp he
    rw [h.edges] at he₀
    obtain ⟨a, -, rfl⟩ := List.mem_map.mp he₀
    have hodd : 2 * a + 3 ≠ 2 * (n + 1) := by omega
    split
    · exact hodd
    · exact hodd
  have hfree : (cut db).activeEdges.any (fun e => e.toId = 2) = false := by
    rw [List.any_eq_false]
    intro e he
    obtain ⟨i, hpos, -, rfl⟩ := h.mem_activeEdges_cut.mp he
    have hne : 2 * i + 2 ≠ 2 := by omega
    show ¬ decide (2 * i + 2 = 2) = true
    rwa [decide_eq_true_eq]
  rw [Db.createEdge, hsrc, hdst, hid, hvol, hfree]
  rfl

theorem move_eq (h : Deep n db) (hn : 257 < n) (al : Bool) (cm : NodeId → Bytes) :
    move (.counting (2 * (n + 1))) .identity { db := db, aliased := al, committed := cm } 1
      (deepPath 1) (deepPath (n + 1)) =
        .ok { db := knot n db, idCount := 1, aliased := al, committed := cm } := by
  have hfree : requireUnlocked (.counting (2 * (n + 1))) db 2 1 = .ok () := by
    simp [requireUnlocked, Db.checkLockHeld, Db.validLocks, h.locks, refuse]
  have hcount : db.placementCount 0 2 "d" ≠ 0 := by
    have hmem : deepEdge 0 ∈ db.activeEdges.filter (Db.isPlacement 0 2 "d") := by
      rw [h.activeEdges_eq, List.mem_filter]
      exact ⟨List.mem_map_of_mem (List.mem_range.mpr (by omega)), rfl⟩
    exact (List.length_pos_of_mem hmem).ne'
  have hname : requireName "d" = .ok () := rfl
  have hold : (cut db).node? 2 = some (deepNode 1) := h.node?_eq (show 1 ≤ n by omega)
  have hcut : ({ db := db, aliased := al, committed := cm } : Tx).run (.counting (2 * (n + 1)))
      (.archivePlacement 0 2 "d") = .ok { db := cut db, aliased := al, committed := cm } := rfl
  have hlink : linkChild (.counting (2 * (n + 1)))
      { db := cut db, aliased := al, committed := cm } ⟨1, 0, 0, .none⟩ (2 * n) 2 none =
        .ok { db := knot n db, idCount := 1, aliased := al, committed := cm } :=
    linkChild_of_ok (h.knot_eq (by omega))
  have hsrc : resolveParent db 0 (deepPath 1) = .ok ⟨0, "d"⟩ := h.resolveParent_eq (Nat.zero_le n)
  have hcycle : db.checkCycle 2 (2 * n) = false := h.checkCycle_eq (i := 1) (by omega)
  simp only [move, h.requireMount_eq, ok_bind, h.resolve_top (show 0 < n by omega), hfree, hsrc,
    h.resolveParent_eq le_rfl, hname, hcycle, hcount, hcut, hold]
  have hnamed : (deepNode 1).name = "d" := rfl
  simp only [refuse, hnamed, Option.any_some, ne_eq, not_true_eq_false, decide_false,
    Bool.false_eq_true, and_false, ↓reduceIte, ok_bind, hlink]
  rfl

/-- After it the moved container lies below itself. -/
theorem knot_cyclic (h : Deep n db) (hn : 257 < n) : ¬ Acyclic (knot n db).Child := by
  intro hacyclic
  have hactive : (knot n db).activeEdges = (cut db).activeEdges ++ [knotEdge n] :=
    Db.activeEdges_append _ _ rfl
  have hdown : ∀ m < n, ReflTransGen (knot n db).Child 2 (2 * (m + 1)) := by
    intro m hm
    induction m with
    | zero => exact ReflTransGen.refl
    | succ m ih =>
      refine (ih (by omega)).tail ⟨deepEdge (m + 1), ?_, rfl, rfl⟩
      rw [hactive]
      exact List.mem_append_left _ (h.mem_activeEdges_cut.mpr ⟨m + 1, by omega, hm, rfl⟩)
  have hbottom : ReflTransGen (knot n db).Child 2 (2 * n) := by
    have hlast := hdown (n - 1) (by omega)
    rwa [Nat.sub_add_cancel (by omega)] at hlast
  have hback : (knot n db).Child (2 * n) 2 := by
    refine ⟨knotEdge n, ?_, rfl, rfl⟩
    rw [hactive]
    exact List.mem_append_right _ List.mem_cons_self
  exact hacyclic 2 (TransGen.tail' hbottom hback)

end Deep

/-- The clock never goes backwards and no mount asks to overlap another. -/
def Unforced (s : Sys) (l : Label) : Prop :=
  s.clock ≤ l.env.now ∧ ∀ args, l.op = .mount args → args.allowOverlap = false

/-- A connection without a cipher, one volume, and a chain of `n` containers. -/
theorem reaches_deep (C : Crypto) (M : Msgpack) (n : ℕ) :
    ∃ s, Reaches C M Unforced s ∧ (s.conns 0).cipher = .identity ∧ Deep n s.db ∧ s.clock = 0 := by
  induction n with
  | zero =>
    let s₁ := step C M {} ⟨.counting 0, 0, .createVolume none 1 none .none⟩
    let s₂ := step C M s₁ ⟨.counting 1, 0, .mount { volume := 0 }⟩
    have hcreate : Unforced {} ⟨.counting 0, 0, .createVolume none 1 none .none⟩ := by
      refine ⟨le_rfl, ?_⟩
      intro args hop
      cases hop
    have hmount : Unforced s₁ ⟨.counting 1, 0, .mount { volume := 0 }⟩ := by
      refine ⟨le_rfl, ?_⟩
      intro args hop
      cases hop
      rfl
    refine ⟨s₂, ((GuardedRuns.Run.refl _).snoc hcreate).snoc hmount, rfl, ?_, rfl⟩
    constructor <;> rfl
  | succ n ih =>
    obtain ⟨s, hs, hcipher, hdeep, hclock⟩ := ih
    let l : Label := ⟨.counting (2 * (n + 1)), 0, .request 1 (.createContainer (deepPath (n + 1)))⟩
    have hstep : (step C M s l).db = Deep.grown n s.db ∧ (step C M s l).conns = s.conns := by
      have hexec := hdeep.create_eq s.aliased s.committed
      simp only [step, exec, hcipher, Sys.begin, Request.run, hexec, asReply, l]
      exact ⟨rfl, rfl⟩
    have hguard : Unforced s l := by
      refine ⟨le_of_eq hclock, ?_⟩
      intro args hop
      cases hop
    refine ⟨step C M s l, hs.snoc hguard, ?_, ?_, rfl⟩
    · rw [hstep.2, hcipher]
    · rw [hstep.1]
      exact hdeep.grow

/-- Moving the top of 258 nested containers under the bottom one goes through and
leaves it below itself. -/
theorem deep_move_ties_knot :
    ∃ s, Reaches Crypto.xorStream Msgpack.refusing (fun _ _ => True) s ∧ ¬ s.db.Forest := by
  obtain ⟨s, hs, hcipher, hdeep, -⟩ := reaches_deep Crypto.xorStream Msgpack.refusing 258
  let l : Label :=
    ⟨.counting (2 * (258 + 1)), 0, .request 1 (.move (deepPath 1) (deepPath (258 + 1)))⟩
  have hmove := hdeep.move_eq (by omega) s.aliased s.committed
  have hdb : (step Crypto.xorStream Msgpack.refusing s l).db = Deep.knot 258 s.db := by
    simp only [step, exec, hcipher, Sys.begin, Request.run, hmove, noReply, l]
    rfl
  have hany : Reaches Crypto.xorStream Msgpack.refusing (fun _ _ => True) s :=
    GuardedRuns.Run.weaken (fun _ _ _ => trivial) hs
  refine ⟨step Crypto.xorStream Msgpack.refusing s l, hany.snoc trivial, ?_⟩
  intro hforest
  have hacyclic := hforest.acyclic
  rw [hdb] at hacyclic
  exact hdeep.knot_cyclic (by omega) hacyclic

end Aloelite
