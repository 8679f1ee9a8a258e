import Aloelite.Listings

/-! A container is placed once at most: it is born with one placement, `link` refuses
containers, and `move` takes away the placement it came by. -/
namespace Aloelite

open Fallible KeyedRows Relation

variable {C : Crypto} {M : Msgpack} {E : Env} {k : Cipher} {now : Int} {db db' : Db} {tx tx' : Tx}
  {s : Sys} {conn : ConnId} {op : Op} {mount : MountId} {path src dst name : String} {n : NodeId}

/-- The active placements of a node. -/
def Db.placesOf (db : Db) (n : NodeId) : List (NodeId × NodeId × String) :=
  db.placements.filter (fun p => p.2.1 = n)

structure Db.SinglyPlaced (db : Db) : Prop where
  there : ∀ p ∈ db.placements, (db.nodeName? p.2.1).isSome
  single : ∀ n, db.nodeType? n = some .container → (db.placesOf n).length ≤ 1

theorem mem_placesOf {p : NodeId × NodeId × String} :
    p ∈ db.placesOf n ↔ p ∈ db.placements ∧ p.2.1 = n := by
  rw [Db.placesOf, List.mem_filter, decide_eq_true_eq]

/-- A container's placements are all one. -/
theorem SinglyPlaced.same {p q : NodeId × NodeId × String} (ho : db.SinglyPlaced)
    (hn : db.nodeType? n = some .container) (hp : p ∈ db.placesOf n) (hq : q ∈ db.placesOf n) :
    p = q := by
  have hone := ho.single n hn
  obtain ⟨r, hr⟩ : ∃ r, db.placesOf n = [r] := by
    apply List.length_eq_one_iff.mp
    have hpos := List.length_pos_of_mem hp
    omega
  rw [hr, List.mem_singleton] at hp hq
  rw [hp, hq]

theorem SinglyPlaced.settled (ho : db.SinglyPlaced) (h : Settled db db') : db'.SinglyPlaced := by
  constructor
  · intro p hp
    rw [h.names]
    exact ho.there p (h.placements.subset hp)
  · intro n hn
    rw [h.types] at hn
    exact (h.placements.filter _).length_le.trans (ho.single n hn)

/-- One placement more, or one in another's place; a container has no other. -/
theorem SinglyPlaced.placed {ps : List (NodeId × NodeId × String)} {p : NodeId × NodeId × String}
    (ho : db.SinglyPlaced) (hsub : ps.Sublist db.placements) (heq : db'.placements = ps ++ [p])
    (hself : db'.nodeType? p.2.1 = some .container → ∀ q ∈ ps, q.2.1 ≠ p.2.1)
    (hthere : (db'.nodeName? p.2.1).isSome)
    (hnames : ∀ n ≠ p.2.1, db'.nodeName? n = db.nodeName? n)
    (htypes : ∀ n ≠ p.2.1, db'.nodeType? n = db.nodeType? n) : db'.SinglyPlaced := by
  constructor
  · intro q hq
    by_cases hid : q.2.1 = p.2.1
    · rw [hid]
      exact hthere
    · rw [heq, List.mem_append, List.mem_singleton] at hq
      rw [hnames _ hid]
      have hold := hq.resolve_right (fun h => hid (congrArg (fun q => q.2.1) h))
      exact ho.there q (hsub.subset hold)
  · intro n hn
    rw [Db.placesOf, heq, List.filter_append, List.length_append]
    by_cases hid : n = p.2.1
    · rw [hid] at hn ⊢
      have hnone : ps.filter (fun q => q.2.1 = p.2.1) = [] := by
        apply List.filter_eq_nil_iff.mpr
        intro q hq
        simpa using hself hn q hq
      simp [hnone]
    · rw [htypes n hid] at hn
      have hother : [p].filter (fun q => q.2.1 = n) = [] := by simp [Ne.symm hid]
      rw [hother, List.length_nil, Nat.add_zero]
      exact (hsub.filter _).length_le.trans (ho.single n hn)

theorem SinglyPlaced.born {p : NodeId × NodeId × String} (ho : db.SinglyPlaced)
    (h : Born p db db') : db'.SinglyPlaced := by
  refine SinglyPlaced.placed ho (List.Sublist.refl _) h.placements ?_ ?_ h.others h.types
  · intro _ q hq heq
    have hthere := ho.there q hq
    rw [heq, Db.nodeName?, h.fresh] at hthere
    cases hthere
  · rw [h.self]
    rfl

theorem SinglyPlaced.grows {P : String → Prop} (ho : db.SinglyPlaced) (h : Grows P db db') :
    db'.SinglyPlaced := by
  induction h with
  | refl => exact ho
  | tail _ hstep ih =>
    rcases hstep with hsettled | ⟨p, -, hborn⟩
    · exact SinglyPlaced.settled ih hsettled
    · exact SinglyPlaced.born ih hborn

/-! ### Operations -/

theorem renamed_node {parent m : NodeId} {old : String} (q : NodeId × NodeId × String) :
    (renamed parent m old name q).2.1 = q.2.1 := by
  rw [renamed]
  split
  next hold => rw [hold]
  next => rfl

theorem rename_singlyPlaced (ho : tx.db.SinglyPlaced)
    (h : rename E k tx mount path name = .ok tx') : tx'.db.SinglyPlaced := by
  obtain ⟨m, p, found, -, -, -, heq, hnames, htypes⟩ := rename_names h
  constructor
  · intro q hq
    rw [heq] at hq
    obtain ⟨q₀, hq₀, rfl⟩ := List.mem_map.mp hq
    rw [renamed_node]
    rcases hnames q₀.2.1 with hsame | ⟨-, hnew⟩
    · rw [hsame]
      exact ho.there q₀ hq₀
    · rw [hnew]
      rfl
  · intro n hn
    have hcount : (tx'.db.placesOf n).length = (tx.db.placesOf n).length := by
      rw [Db.placesOf, heq, List.filter_map, List.length_map, Db.placesOf]
      congr 2
      funext q
      simp only [Function.comp_apply, renamed_node]
    rw [hcount]
    exact ho.single n (htypes n ▸ hn)

theorem link_singlyPlaced (ho : tx.db.SinglyPlaced) (h : link E k tx mount src dst = .ok tx') :
    tx'.db.SinglyPlaced := by
  obtain ⟨m, p, found, hm, hp, hfound, hleaf, hfree, heq, hnodes⟩ := link_names h
  have hnode : ∀ n, tx'.db.node? n = tx.db.node? n := by
    intro n
    rw [Db.node?, hnodes]
    rfl
  have hname : ∀ n, tx'.db.nodeName? n = tx.db.nodeName? n :=
    fun n => congrArg (Option.map NodeRow.name) (hnode n)
  have htype : ∀ n, tx'.db.nodeType? n = tx.db.nodeType? n :=
    fun n => congrArg (Option.map NodeRow.type) (hnode n)
  have hfoundType := resolve_nodeType hfound
  refine SinglyPlaced.placed ho (List.Sublist.refl _) heq ?_ ?_ (fun n _ => hname n)
    (fun n _ => htype n)
  · intro hcontainer
    rw [htype, hfoundType] at hcontainer
    exact absurd (Option.some.inj hcontainer) hleaf
  · obtain ⟨r, hr, -⟩ := Option.map_eq_some_iff.mp hfoundType
    rw [hname, Db.nodeName?, hr]
    rfl

theorem move_singlyPlaced (ho : tx.db.SinglyPlaced) (h : move E k tx mount src dst = .ok tx') :
    tx'.db.SinglyPlaced := by
  obtain ⟨m, sp, p, found, -, -, -, -, hwalked, heq, hnames, htypes⟩ := move_names h
  refine SinglyPlaced.placed ho List.filter_sublist heq ?_ ?_ ?_ (fun n _ => htypes n)
  · intro hcontainer q hq hid
    rw [htypes] at hcontainer
    obtain ⟨hold, hne⟩ := List.mem_filter.mp hq
    have hsame := SinglyPlaced.same ho hcontainer (mem_placesOf.mpr ⟨hold, hid⟩)
        (mem_placesOf.mpr ⟨hwalked, rfl⟩)
    exact absurd hsame (by simpa using hne)
  · rcases hnames found.node with hsame | ⟨-, hnew⟩
    · rw [hsame]
      exact ho.there _ hwalked
    · rw [hnew]
      rfl
  · intro n hne
    exact (hnames n).resolve_right (fun h => hne h.1)

theorem request_singlyPlaced {r : Request} {reply : Reply} (ho : tx.db.SinglyPlaced)
    (h : r.run C M E k tx mount = .ok (tx', reply)) : tx'.db.SinglyPlaced := by
  by_cases hr : r.naming
  case neg => exact SinglyPlaced.settled ho (request_settled hr h)
  cases r with
  | createContainer path =>
    obtain ⟨a, h, -⟩ := asReply_ok h
    obtain ⟨m, p, -, hp, hborn⟩ := createContainer_born h
    exact SinglyPlaced.born ho hborn
  | createEntry path data =>
    obtain ⟨a, h, -⟩ := asReply_ok h
    obtain ⟨m, p, -, hp, hborn⟩ := createLeaf_names h
    exact SinglyPlaced.born ho hborn
  | createSpecial path type data =>
    obtain ⟨a, h, -⟩ := asReply_ok h
    obtain ⟨m, p, -, hp, hborn⟩ := createSpecial_names h
    exact SinglyPlaced.born ho hborn
  | rename path name => exact rename_singlyPlaced ho (noReply_ok h)
  | link src dst => exact link_singlyPlaced ho (noReply_ok h)
  | move src dst => exact move_singlyPlaced ho (noReply_ok h)
  | copy src dst =>
    obtain ⟨a, h, -⟩ := asReply_ok h
    obtain ⟨m, p, -, hp, hgrown⟩ := copy_names h
    exact SinglyPlaced.grows ho hgrown
  | pack path =>
    obtain ⟨a, h, -⟩ := asReply_ok h
    obtain ⟨m, found, e, cont, tx₁, -, -, -, -, -, hrazed, hborn⟩ := pack_names h
    exact SinglyPlaced.born (SinglyPlaced.settled ho hrazed) hborn
  | unpack path => exact SinglyPlaced.grows ho (unpack_names (noReply_ok h))
  | _ => exact absurd hr (fun h => h)

theorem createVolume_singlyPlaced {chunkSize : ℕ} {pin : Option Bytes} {mode : EncMode}
    {v : VolumeId} {volumeName : Option String} (ho : tx.db.SinglyPlaced)
    (h : createVolume C E tx volumeName chunkSize pin mode = .ok (tx', v)) :
    tx'.db.SinglyPlaced := by
  obtain ⟨-, hfresh, -, hnodes, -, hagree, -⟩ := createVolume_shape h
  have hplacements : tx'.db.placements = tx.db.placements := by
    rw [Db.placements, Db.activeEdges, hagree.edges (by simp)]
    rfl
  -- the root is placed nowhere
  have hnode : ∀ p ∈ tx.db.placements, tx'.db.node? p.2.1 = tx.db.node? p.2.1 := by
    intro p hp
    rw [Db.node?, hnodes]
    apply lookup_append_of_ne
    intro heq
    have hnone : tx.db.node? p.2.1 = none := heq ▸ hfresh
    have hthere := ho.there p hp
    rw [Db.nodeName?, hnone] at hthere
    cases hthere
  constructor
  · rw [hplacements]
    intro p hp
    rw [Db.nodeName?, hnode p hp]
    exact ho.there p hp
  · intro n hn
    have hplaces : tx'.db.placesOf n = tx.db.placesOf n := by
      rw [Db.placesOf, hplacements]
      rfl
    rw [hplaces]
    by_cases hplaced : ∃ p, p ∈ tx.db.placesOf n
    · obtain ⟨p, hp⟩ := hplaced
      obtain ⟨hmem, rfl⟩ := mem_placesOf.mp hp
      rw [Db.nodeType?, hnode p hmem] at hn
      exact ho.single _ hn
    · have hnil : tx.db.placesOf n = [] :=
        List.eq_nil_iff_forall_not_mem.mpr (fun p hp => hplaced ⟨p, hp⟩)
      rw [hnil]
      exact Nat.zero_le 1

theorem exec_singlyPlaced (hs : s.db.Sound) (ho : s.db.SinglyPlaced) :
    (exec C M E s conn op).1.db.SinglyPlaced := by
  by_cases hop : op.naming
  case neg => exact SinglyPlaced.settled ho (exec_settled hs hop)
  have hbegin : s.begin.db.SinglyPlaced := ho
  cases op with
  | request mount r =>
    refine transact_db (P := fun db => db.SinglyPlaced) (fun _ _ => rfl) ho ?_
    intro tx a h
    exact request_singlyPlaced hbegin h
  | createVolume name chunkSize pin mode =>
    refine transact_db (P := fun db => db.SinglyPlaced) (fun _ _ => rfl) ho ?_
    intro tx a h
    exact createVolume_singlyPlaced hbegin h
  | openWrite mount path mode lock =>
    refine transact_db (P := fun db => db.SinglyPlaced) (fun _ _ => rfl) ho ?_
    intro tx a h
    rcases openWrite_names h with hsettled | ⟨m, p, tx₁, -, hp, hborn, hlocked⟩
    · exact SinglyPlaced.settled hbegin hsettled
    · exact SinglyPlaced.settled (SinglyPlaced.born hbegin hborn) hlocked
  | _ => exact absurd hop (fun h => h)

/-- In every state a container is placed once at most. -/
theorem Reaches.singlyPlaced {guard : Sys → Label → Prop} (h : Reaches C M guard s) :
    s.db.SinglyPlaced := by
  have hempty : Db.SinglyPlaced {} := ⟨fun _ hp => (nomatch hp), fun _ hn => (nomatch hn)⟩
  have hboth : s.db.Sound ∧ s.db.SinglyPlaced := by
    refine GuardedRuns.Run.invariant (P := fun s : Sys => s.db.Sound ∧ s.db.SinglyPlaced) ?_ h
      ⟨empty_sound, hempty⟩
    intro s l _ hs
    exact ⟨step_sound hs.1, exec_singlyPlaced hs.1 hs.2⟩
  exact hboth.2

end Aloelite
