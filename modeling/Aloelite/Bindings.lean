import Aloelite.Listings
import Mathlib.Data.Finmap

/-! What names are bound to, and the finite map a namespace is meant to be. A name is
bound to the greatest of the nodes placed under it, so the map follows a change of
placements where no other node stands under the names concerned. -/
namespace Aloelite

open Fallible KeyedRows Relation

variable {C : Crypto} {M : Msgpack} {E : Env} {k : Cipher} {now : Int} {db db' : Db} {tx tx' : Tx}
  {mount : MountId} {path : String} {dir dir' n : NodeId} {name name' : String}
  {q : NodeId × NodeId × String}

/-- The node a name of a container resolves to. -/
def Db.binding (db : Db) (dir : NodeId) (name : String) : Option NodeId :=
  (db.resolveSegment dir name).map NodeRow.nodeId

theorem mem_placements_placedUnder (hl : db.Linked) :
    (dir, n, name) ∈ db.placements ↔ ∃ r ∈ db.placedUnder dir name, r.nodeId = n := by
  constructor
  · intro h
    obtain ⟨e, he, heq⟩ := mem_placements.mp h
    simp only [EdgeRow.placement, Prod.mk.injEq] at heq
    obtain ⟨r, hr⟩ := Option.isSome_iff_exists.mp (hl.child e (Db.mem_activeEdges.mp he).1)
    refine ⟨r, Db.mem_placedUnder.mpr ⟨e, he, heq.1, heq.2.2, hr⟩, ?_⟩
    rw [Db.nodeId_of_node? hr]
    exact heq.2.1
  · intro h
    obtain ⟨r, hr, rfl⟩ := h
    obtain ⟨e, he, hfrom, hname, hto⟩ := Db.mem_placedUnder.mp hr
    refine mem_placements.mpr ⟨e, he, ?_⟩
    rw [EdgeRow.placement, hfrom, hname, Db.nodeId_of_node? hto]

theorem binding_eq_some (hl : db.Linked) : db.binding dir name = some n ↔
    (dir, n, name) ∈ db.placements ∧ ∀ x, (dir, x, name) ∈ db.placements → x ≤ n := by
  simp only [mem_placements_placedUnder hl, Db.binding, Option.map_eq_some_iff]
  constructor
  · intro h
    obtain ⟨hit, hhit, rfl⟩ := h
    obtain ⟨hplaced, hmax⟩ := Db.resolveSegment_eq_some.mp hhit
    refine ⟨⟨hit, Db.mem_placedUnder.mpr hplaced, rfl⟩, ?_⟩
    intro x hx
    obtain ⟨r, hr, rfl⟩ := hx
    exact hmax r hr
  · intro h
    obtain ⟨⟨r, hr, rfl⟩, hmax⟩ := h
    refine ⟨r, Db.resolveSegment_eq_some.mpr ⟨Db.mem_placedUnder.mp hr, ?_⟩, rfl⟩
    intro r' hr'
    exact hmax _ ⟨r', hr', rfl⟩

theorem binding_eq_none (hl : db.Linked) :
    db.binding dir name = none ↔ ∀ x, (dir, x, name) ∉ db.placements := by
  rw [Db.binding, Option.map_eq_none_iff, Db.resolveSegment_eq_none, List.eq_nil_iff_forall_not_mem]
  constructor
  · intro h x hx
    obtain ⟨r, hr, -⟩ := (mem_placements_placedUnder hl).mp hx
    exact h r hr
  · intro h r hr
    exact h r.nodeId ((mem_placements_placedUnder hl).mpr ⟨r, hr, rfl⟩)

/-- A binding is a matter of what is placed under the name. -/
theorem binding_congr (hl : db.Linked) (hl' : db'.Linked)
    (h : ∀ x, (dir, x, name) ∈ db'.placements ↔ (dir, x, name) ∈ db.placements) :
    db'.binding dir name = db.binding dir name := by
  apply Option.ext
  intro n
  simp only [binding_eq_some hl, binding_eq_some hl', h]

theorem resolveSegment_of_binding {r : NodeRow} (h : db.binding dir name = some n)
    (hr : db.node? n = some r) :
    db.resolveSegment dir name = some r := by
  obtain ⟨hit, hhit, rfl⟩ := Option.map_eq_some_iff.mp h
  have hnode := (Db.child_of_resolveSegment hhit).2
  rw [hhit, ← Option.some.inj (hnode.symm.trans hr)]

theorem nodeType?_of_binding {r : NodeRow} (h : db.resolveSegment dir name = some r) :
    db.nodeType? r.nodeId = some r.type := by
  rw [Db.nodeType?, (Db.child_of_resolveSegment h).2]
  rfl

/-- A walk goes on as before where the bindings it follows stay. -/
theorem descend_along {a : NodeId} {type : NodeType} {segs : List String} {found : Resolved}
    (hkeep : ∀ before seg after mid n, segs = before ++ seg :: after →
      descend db a type before = .ok mid → db.binding mid.node seg = some n →
        db'.binding mid.node seg = some n)
    (htype : ∀ n t, db.nodeType? n = some t → db'.nodeType? n = some t)
    (h : descend db a type segs = .ok found) : descend db' a type segs = .ok found := by
  induction segs generalizing a type with
  | nil => exact h
  | cons seg segs ih =>
    rw [descend] at h ⊢
    split at h
    next hcontainer =>
      rw [if_pos hcontainer]
      cases hhit : db.resolveSegment a seg with
      | none => simp [hhit] at h
      | some hit =>
        rw [hhit] at h
        have hbound : db.binding a seg = some hit.nodeId := by
          rw [Db.binding, hhit, Option.map_some]
        have hkept : db'.binding a seg = some hit.nodeId :=
          hkeep [] seg segs ⟨a, type⟩ hit.nodeId rfl rfl hbound
        obtain ⟨hit', hhit', hid⟩ := Option.map_eq_some_iff.mp hkept
        have ht' := htype hit.nodeId hit.type (nodeType?_of_binding hhit)
        rw [← hid, nodeType?_of_binding hhit'] at ht'
        rw [hhit']
        change descend db' hit'.nodeId hit'.type segs = .ok found
        rw [hid, Option.some.inj ht']
        refine ih ?_ h
        intro before seg' after mid n hsegs hmid hn
        refine hkeep (seg :: before) seg' after mid n (by rw [hsegs, List.cons_append]) ?_ hn
        rw [descend, if_pos hcontainer, hhit]
        exact hmid
    next => cases h

/-- The last step of a walk. -/
theorem descend_last {a : NodeId} {type : NodeType} {segs : List String} {found : Resolved}
    {seg : String} (h : descend db a type (segs ++ [seg]) = .ok found) :
    ∃ mid, descend db a type segs = .ok ⟨mid, .container⟩ ∧ db.binding mid seg = some found.node ∧
      db.nodeType? found.node = some found.type := by
  obtain ⟨⟨mid, t⟩, hmid, hlast⟩ := descend_append.mp h
  rw [descend] at hlast
  split at hlast
  next hcontainer =>
    obtain rfl : t = .container := hcontainer
    cases hhit : db.resolveSegment mid seg with
    | none => simp [hhit] at hlast
    | some hit =>
      rw [hhit] at hlast
      obtain rfl := Except.ok.inj hlast
      exact ⟨mid, hmid, by rw [Db.binding, hhit, Option.map_some], nodeType?_of_binding hhit⟩
  next => cases hlast

/-- Where every binding stays and no node changes its type, walks go on as before. -/
theorem descend_persists {a : NodeId} {type : NodeType} {segs : List String} {found : Resolved}
    (hkeep : ∀ dir name n, db.binding dir name = some n → db'.binding dir name = some n)
    (htype : ∀ n t, db.nodeType? n = some t → db'.nodeType? n = some t)
    (h : descend db a type segs = .ok found) : descend db' a type segs = .ok found :=
  descend_along (fun _ seg _ mid n _ _ => hkeep mid.node seg n) htype h

theorem resolve_persists {a : NodeId} {found : Resolved} (hlegible : Legible path)
    (hkeep : ∀ dir name n, db.binding dir name = some n → db'.binding dir name = some n)
    (htype : ∀ n t, db.nodeType? n = some t → db'.nodeType? n = some t)
    (h : resolve db a path = .ok found) : resolve db' a path = .ok found := by
  rw [resolve_eq_ok hlegible] at h ⊢
  rcases h with ⟨hnil, hnode, ht⟩ | ⟨hne, hd⟩
  · exact Or.inl ⟨hnil, hnode, htype _ _ ht⟩
  · exact Or.inr ⟨hne, descend_persists hkeep htype hd⟩

/-! ### The finite map -/

/-- Names to nodes. -/
abbrev Namespace := Finmap (fun _ : NodeId × String => NodeId)

/-- The map says what every name is bound to. -/
def Mirrors (db : Db) (ns : Namespace) : Prop :=
  ∀ dir name, db.binding dir name = ns.lookup (dir, name)

/-- The bindings of a file. -/
def Db.bindings (db : Db) : Namespace :=
  (db.placements.filterMap (fun p =>
    (db.binding p.1 p.2.2).map
      (fun n => (⟨(p.1, p.2.2), n⟩ : Σ _ : NodeId × String, NodeId)))).toFinmap

theorem dlookup_filterMap {α : Type*} {g : α → NodeId × String}
    {f : NodeId × String → Option NodeId} (key : NodeId × String) (l : List α) :
    (l.filterMap (fun p =>
      (f (g p)).map (fun n => (⟨g p, n⟩ : Σ _ : NodeId × String, NodeId)))).dlookup key =
      if key ∈ l.map g then f key else none := by
  induction l with
  | nil => rfl
  | cons p l ih =>
    rw [List.filterMap_cons, List.map_cons]
    by_cases hkey : g p = key
    · subst hkey
      rw [if_pos List.mem_cons_self]
      cases hf : f (g p) with
      | none =>
        simp only [Option.map_none]
        rw [ih]
        split
        · exact hf
        · rfl
      | some n => exact List.dlookup_cons_eq _ _ _
    · have hmem : key ∈ g p :: l.map g ↔ key ∈ l.map g := by
        rw [List.mem_cons, or_iff_right (Ne.symm hkey)]
      simp only [hmem]
      cases hf : f (g p) with
      | none => exact ih
      | some n =>
        simp only [Option.map_some]
        rw [List.dlookup_cons_ne _ _ (Ne.symm hkey)]
        exact ih

theorem mirrors_bindings (hl : db.Linked) : Mirrors db db.bindings := by
  intro dir name
  let g : NodeId × NodeId × String → NodeId × String := fun p => (p.1, p.2.2)
  let f : NodeId × String → Option NodeId := fun key => db.binding key.1 key.2
  have hlookup := dlookup_filterMap (g := g) (f := f) (dir, name) db.placements
  rw [Db.bindings, Finmap.dlookup_list_toFinmap]
  refine Eq.trans ?_ hlookup.symm
  split
  next => rfl
  next hfree =>
    refine (binding_eq_none hl).mpr ?_
    intro x hx
    exact hfree (List.mem_map.mpr ⟨_, hx, rfl⟩)

section

variable {ns : Namespace} (hm : Mirrors db ns) (hl : db.Linked) (hl' : db'.Linked)

include hm hl hl'

/-- The same placements. -/
theorem Mirrors.same (h : ∀ q, q ∈ db'.placements ↔ q ∈ db.placements) : Mirrors db' ns := by
  intro dir name
  rw [binding_congr hl hl' (fun x => h _)]
  exact hm dir name

/-- One placement more, under a free name. -/
theorem Mirrors.bind (hfree : db.binding dir name = none)
    (h : ∀ q, q ∈ db'.placements ↔ q ∈ db.placements ∨ q = (dir, n, name)) :
    Mirrors db' (ns.insert (dir, name) n) := by
  intro dir₁ name₁
  by_cases hkey : (dir₁, name₁) = (dir, name)
  · obtain ⟨rfl, rfl⟩ := Prod.mk.inj hkey
    rw [Finmap.lookup_insert, binding_eq_some hl']
    have hnone := (binding_eq_none hl).mp hfree
    refine ⟨(h _).mpr (Or.inr rfl), ?_⟩
    intro x hx
    rcases (h _).mp hx with hold | hnew
    · exact absurd hold (hnone x)
    · simp only [Prod.mk.injEq] at hnew
      exact hnew.2.1.le
  · rw [Finmap.lookup_insert_of_ne _ hkey, ← hm dir₁ name₁]
    refine binding_congr hl hl' ?_
    intro x
    rw [h]
    apply or_iff_left
    intro heq
    simp only [Prod.mk.injEq] at heq
    exact hkey (by rw [heq.1, heq.2.2])

/-- A placement gone, the only node of its name. -/
theorem Mirrors.unbind (honly : ∀ x, (dir, x, name) ∈ db.placements → x = n)
    (h : ∀ q, q ∈ db'.placements ↔ q ∈ db.placements ∧ q ≠ (dir, n, name)) :
    Mirrors db' (ns.erase (dir, name)) := by
  intro dir₁ name₁
  by_cases hkey : (dir₁, name₁) = (dir, name)
  · obtain ⟨rfl, rfl⟩ := Prod.mk.inj hkey
    rw [Finmap.lookup_erase, binding_eq_none hl']
    intro x hx
    obtain ⟨hold, hne⟩ := (h _).mp hx
    exact hne (by rw [honly x hold])
  · rw [Finmap.lookup_erase_ne hkey, ← hm dir₁ name₁]
    refine binding_congr hl hl' ?_
    intro x
    rw [h]
    apply and_iff_left
    intro heq
    simp only [Prod.mk.injEq] at heq
    exact hkey (by rw [heq.1, heq.2.2])

/-- A placement put elsewhere: the only node of its name, to where every node is
smaller. -/
theorem Mirrors.rebind (hkeys : (dir, name) ≠ (dir', name'))
    (honly : ∀ x, (dir, x, name) ∈ db.placements → x = n)
    (hbelow : ∀ x, (dir', x, name') ∈ db.placements → x < n)
    (h : ∀ q, q ∈ db'.placements ↔ (q ∈ db.placements ∧ q ≠ (dir, n, name)) ∨
      q = (dir', n, name')) :
    Mirrors db' ((ns.erase (dir, name)).insert (dir', name') n) := by
  intro dir₁ name₁
  by_cases hnew : (dir₁, name₁) = (dir', name')
  · obtain ⟨rfl, rfl⟩ := Prod.mk.inj hnew
    rw [Finmap.lookup_insert, binding_eq_some hl']
    refine ⟨(h _).mpr (Or.inr rfl), ?_⟩
    intro x hx
    rcases (h _).mp hx with ⟨hold, -⟩ | heq
    · exact (hbelow x hold).le
    · simp only [Prod.mk.injEq] at heq
      exact heq.2.1.le
  rw [Finmap.lookup_insert_of_ne _ hnew]
  have hother : ∀ x, (dir₁, x, name₁) ≠ (dir', n, name') := by
    intro x heq
    simp only [Prod.mk.injEq] at heq
    exact hnew (by rw [heq.1, heq.2.2])
  by_cases hold : (dir₁, name₁) = (dir, name)
  · obtain ⟨rfl, rfl⟩ := Prod.mk.inj hold
    rw [Finmap.lookup_erase, binding_eq_none hl']
    intro x hx
    rcases (h _).mp hx with ⟨hmem, hne⟩ | heq
    · exact hne (by rw [honly x hmem])
    · exact hother x heq
  · rw [Finmap.lookup_erase_ne hold, ← hm dir₁ name₁]
    refine binding_congr hl hl' ?_
    intro x
    rw [h, or_iff_left (hother x)]
    apply and_iff_left
    intro heq
    simp only [Prod.mk.injEq] at heq
    exact hold (by rw [heq.1, heq.2.2])

end

end Aloelite
