import Aloelite.CleanReports
import Aloelite.VolumeShares
import Mathlib.Data.String.Basic

/-! Extended attributes. A file holds one value for each name of a node, and a node that is gone
holds none; so what is set on a new node, name after name, is what it has. -/
namespace Aloelite

open Fallible KeyedRows

variable {C : Crypto} {M : Msgpack} {E : Env} {now : Int} {db db' : Db} {tx tx' : Tx} {s : Sys}
  {n m : NodeId} {op : Op} {st : Stmt} {row : XattrRow} {name : String}
  {items : List (String × Bytes)} {pn : PackNode}

/-! ### One value for each name -/

def XattrRow.key (r : XattrRow) : NodeId × String := (r.nodeId, r.name)

/-- The primary key of `xattr`, and its foreign key. -/
structure Db.Attributed (db : Db) : Prop where
  keyed : (db.xattrs.map XattrRow.key).Nodup
  owned : ∀ r ∈ db.xattrs, (db.node? r.nodeId).isSome

theorem XattrRow.key_eq_iff {r : XattrRow} : (r.nodeId = row.nodeId ∧ r.name = row.name) ↔
    r.key = row.key := Prod.mk_inj.symm

theorem xattrSet_cases (h : db.xattrSet row = .ok db') : (db.node? row.nodeId).isSome ∧
    ((row.key ∈ db.xattrs.map XattrRow.key ∧
        db' = { db with xattrs := db.xattrs.map (fun r => if r.nodeId = row.nodeId ∧ r.name =
          row.name then row else r) }) ∨
      (row.key ∉ db.xattrs.map XattrRow.key ∧ db' = { db with xattrs := db.xattrs ++ [row] })) := by
  have hthere : db.xattrs.any (fun r => r.nodeId = row.nodeId ∧ r.name = row.name) = true ↔
      row.key ∈ db.xattrs.map XattrRow.key := by
    rw [List.any_eq_true, List.mem_map]
    apply exists_congr
    intro r
    rw [decide_eq_true_eq, XattrRow.key_eq_iff]
  simp only [Db.xattrSet, bind_eq_ok, refuse_eq_ok] at h
  obtain ⟨u, hn, h⟩ := h
  refine ⟨by simpa using hn, ?_⟩
  split at h
  next hany => exact Or.inl ⟨hthere.mp hany, (Except.ok.inj h).symm⟩
  next hany => exact Or.inr ⟨fun hmem => hany (hthere.mpr hmem), (Except.ok.inj h).symm⟩

theorem xattrSet_attributed (h : db.xattrSet row = .ok db') (ha : db.Attributed) :
    db'.Attributed := by
  obtain ⟨hn, ⟨-, rfl⟩ | ⟨hnew, rfl⟩⟩ := xattrSet_cases h
  · have hkeys : ∀ r : XattrRow,
        (if r.nodeId = row.nodeId ∧ r.name = row.name then row else r).key = r.key := by
      intro r
      split
      next heq => exact (XattrRow.key_eq_iff.mp heq).symm
      next => rfl
    refine ⟨?_, ?_⟩
    · show ((db.xattrs.map _).map XattrRow.key).Nodup
      have hmap : (db.xattrs.map (fun r => if r.nodeId = row.nodeId ∧ r.name =
          row.name then row else r)).map XattrRow.key =
          db.xattrs.map XattrRow.key := by
        rw [List.map_map]
        exact List.map_congr_left fun r _ => hkeys r
      rw [hmap]
      exact ha.keyed
    · intro r hr
      obtain ⟨r₀, hr₀, rfl⟩ := List.mem_map.mp hr
      have hnode : (if r₀.nodeId = row.nodeId ∧ r₀.name = row.name then row else r₀).nodeId =
          r₀.nodeId :=
        congrArg Prod.fst (hkeys r₀)
      rw [hnode]
      exact ha.owned r₀ hr₀
  · refine ⟨?_, ?_⟩
    · show ((db.xattrs ++ [row]).map XattrRow.key).Nodup
      rw [List.map_append, List.nodup_append]
      refine ⟨ha.keyed, List.nodup_singleton _, ?_⟩
      intro a ha' b hb heq
      rw [List.mem_singleton.mp hb] at heq
      exact hnew (heq ▸ ha')
    · intro r hr
      rcases List.mem_append.mp hr with hr | hr
      · exact ha.owned r hr
      · rw [List.mem_singleton.mp hr]
        exact hn

/-- Rows that go leave the others as they are. -/
theorem Db.Attributed.filter (ha : db.Attributed) (p : XattrRow → Bool)
    (hx : db'.xattrs = db.xattrs.filter p) (hn : ∀ r ∈ db'.xattrs, (db'.node? r.nodeId).isSome) :
    db'.Attributed := by
  refine ⟨?_, hn⟩
  rw [hx]
  exact ha.keyed.sublist (List.filter_sublist.map _)

theorem Stmt.attributed (h : st.exec now db = .ok db') (ha : db.Attributed) : db'.Attributed := by
  cases st with
  | createNode row modifiedAt =>
    obtain ⟨-, -, rfl⟩ := Db.createNode_ok h
    exact ⟨ha.keyed, fun r hr => node?_isSome_persists ⟨_, List.map_append⟩ (ha.owned r hr)⟩
  | xattrSet row => exact xattrSet_attributed h ha
  | xattrRemove m name =>
    obtain rfl := Except.ok.inj h
    exact ha.filter _ rfl fun r hr => ha.owned r (List.mem_of_mem_filter hr)
  | pruneNodes volume =>
    obtain ⟨-, -, rfl⟩ := Db.pruneNodes_ok h
    refine ha.filter _ rfl ?_
    intro r hr
    obtain ⟨hr, hkept⟩ := List.mem_filter.mp hr
    have hkept' : r.nodeId ∉ db.prunableNodes volume := by simpa using hkept
    have hfound : lookup NodeRow.nodeId
        (db.nodes.filter (fun row => row.nodeId ∉ db.prunableNodes volume)) r.nodeId =
        db.node? r.nodeId := by
      refine lookup_filter_of_key ?_
      intro row _ hkey
      rw [hkey]
      exact decide_eq_true hkept'
    show (lookup NodeRow.nodeId (db.nodes.filter _) r.nodeId).isSome = true
    rw [hfound]
    exact ha.owned r hr
  | _ =>
    have hframe := Stmt.exec_agreeOff h
    have hx := hframe.xattrs (by simp [Stmt.touches])
    have hids := hframe.identities (by simp [Stmt.touches])
    refine ⟨by rw [hx]; exact ha.keyed, ?_⟩
    rw [hx]
    intro r hr
    exact node?_isSome_persists ⟨[], by rw [hids, List.append_nil]⟩ (ha.owned r hr)

theorem Effect.attributed (h : Effect C E s op db) (hs : s.db.Sound) (ha : s.db.Attributed) :
    db.Attributed := by
  have hids := h.identities hs
  cases h with
  | strides h => exact h.keeps (fun _ _ _ hexec hp => Stmt.attributed hexec hp) ha
  | founding h =>
    obtain ⟨-, -, -, -, -, hframe, -, -⟩ := createVolume_shape h
    have hx := hframe.xattrs (by simp)
    refine ⟨by rw [hx]; exact ha.keyed, ?_⟩
    rw [hx]
    exact fun r hr => node?_isSome_persists hids (ha.owned r hr)
  | prune h =>
    rw [prune_shape h hs]
    exact ⟨ha.keyed, ha.owned⟩
  | pruneContent h =>
    rw [pruneContent_shape h]
    exact ⟨ha.keyed, ha.owned⟩

theorem Reaches.attributed {guard : Sys → Label → Prop} (h : Reaches C M guard s) :
    s.db.Attributed := by
  have hboth : s.db.Sound ∧ s.db.Attributed := by
    refine GuardedRuns.Run.invariant (P := fun s : Sys => s.db.Sound ∧ s.db.Attributed) ?_ h
      ⟨empty_sound, List.nodup_nil, ?_⟩
    · intro s l _ hs
      exact ⟨step_sound hs.1, (exec_effect hs.1.linked).attributed hs.1 hs.2⟩
    · intro r hr
      cases hr
  exact hboth.2

/-! ### The attributes of one node -/

/-- The rows of a node. -/
def Db.xattrRows (db : Db) (n : NodeId) : List XattrRow := db.xattrs.filter (fun r => r.nodeId = n)

theorem Db.Attributed.names_nodup (ha : db.Attributed) (n : NodeId) :
    ((db.xattrRows n).map XattrRow.name).Nodup := by
  have hkeys : ((db.xattrRows n).map XattrRow.key).Nodup :=
    ha.keyed.sublist (List.filter_sublist.map _)
  have hpairs : (db.xattrRows n).map XattrRow.key =
      ((db.xattrRows n).map XattrRow.name).map (fun name => (n, name)) := by
    rw [List.map_map]
    apply List.map_congr_left
    intro r hr
    have hnode : r.nodeId = n := of_decide_eq_true (List.mem_filter.mp hr).2
    show (r.nodeId, r.name) = (n, r.name)
    rw [hnode]
  rw [hpairs] at hkeys
  exact List.Nodup.of_map _ hkeys

theorem xattrItems_names_nodup (ha : db.Attributed) (n : NodeId) :
    ((xattrItems db n).map Prod.fst).Nodup := by
  have hperm : ((xattrItems db n).map Prod.fst).Perm ((db.xattrRows n).map XattrRow.name) := by
    rw [xattrItems, List.map_map]
    exact (List.perm_insertionSort _ _).map _
  exact hperm.nodup_iff.mpr (ha.names_nodup n)

theorem xattrItems_sorted (db : Db) (n : NodeId) :
    (xattrItems db n).Pairwise (fun a b => a.1 ≤ b.1) := by
  have htotal : Std.Total (fun r s : XattrRow => r.name ≤ s.name) :=
    ⟨fun r s => le_total r.name s.name⟩
  have htrans : IsTrans XattrRow (fun r s => r.name ≤ s.name) := ⟨fun _ _ _ => le_trans⟩
  rw [xattrItems, List.pairwise_map]
  exact List.pairwise_insertionSort _ _

/-- Rows in name order are listed as they stand. -/
theorem xattrItems_of_rows (h : db.xattrRows n = items.map (fun kv => ⟨n, kv.1, kv.2⟩))
    (hsorted : items.Pairwise (fun a b => a.1 ≤ b.1)) : xattrItems db n = items := by
  have hrows : (items.map (fun kv => (⟨n, kv.1, kv.2⟩ : XattrRow))).Pairwise
      (fun r s => r.name ≤ s.name) :=
    List.pairwise_map.mpr hsorted
  rw [xattrItems, ← Db.xattrRows, h, hrows.insertionSort_eq, List.map_map]
  exact List.map_id _

/-- Attributes set one after another, of names the node does not have, are added in that order. -/
theorem restoreXattrs_rows (h : restoreXattrs E tx pn n = .ok tx') (hx : pn.xa.getD [] = items)
    (hnames : ((tx.db.xattrRows n).map XattrRow.name ++ items.map Prod.fst).Nodup) :
    tx'.db.xattrRows n = tx.db.xattrRows n ++ items.map (fun kv => ⟨n, kv.1, kv.2⟩) := by
  rw [restoreXattrs, hx] at h
  clear hx
  induction items generalizing tx with
  | nil =>
    obtain rfl := Except.ok.inj h
    rw [List.map_nil, List.append_nil]
  | cons kv items ih =>
    rw [List.foldlM_cons] at h
    obtain ⟨tx₁, hrun, hrest⟩ := bind_eq_ok.mp h
    obtain ⟨db₁, hset, rfl⟩ := Tx.run_ok.mp hrun
    have hset' : tx.db.xattrSet ⟨n, kv.1, kv.2⟩ = .ok db₁ := hset
    have hnew : kv.1 ∉ (tx.db.xattrRows n).map XattrRow.name := by
      rw [List.map_cons, List.nodup_append] at hnames
      exact fun hmem => hnames.2.2 _ hmem _ List.mem_cons_self rfl
    have hrows : db₁.xattrRows n = tx.db.xattrRows n ++ [⟨n, kv.1, kv.2⟩] := by
      obtain ⟨-, ⟨hthere, -⟩ | ⟨-, rfl⟩⟩ := xattrSet_cases hset'
      · obtain ⟨r, hr, hkey⟩ := List.mem_map.mp hthere
        obtain ⟨hnode, hname⟩ := Prod.mk.inj hkey
        exact absurd (List.mem_map.mpr ⟨r, List.mem_filter.mpr ⟨hr, decide_eq_true hnode⟩, hname⟩)
          hnew
      · have hself : [(⟨n, kv.1, kv.2⟩ : XattrRow)].filter (fun r => r.nodeId = n) =
            [⟨n, kv.1, kv.2⟩] :=
          List.filter_eq_self.mpr (List.forall_mem_singleton.mpr (decide_eq_true rfl))
        rw [Db.xattrRows, List.filter_append, hself]
        rfl
    have hrest' := ih hrest (by
      show ((db₁.xattrRows n).map XattrRow.name ++ _).Nodup
      rw [hrows, List.map_append, List.append_assoc]
      exact hnames)
    rw [hrest']
    show db₁.xattrRows n ++ _ = _
    rw [hrows, List.append_assoc]
    rfl

/-- A node that is not there has no attributes. -/
theorem Db.Attributed.rows_of_fresh (ha : db.Attributed) (hn : db.node? n = none) :
    db.xattrRows n = [] := by
  rw [Db.xattrRows, List.filter_eq_nil_iff]
  intro r hr hnode
  have hthere := ha.owned r hr
  rw [of_decide_eq_true hnode, hn] at hthere
  cases hthere

end Aloelite
